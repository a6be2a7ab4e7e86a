import Oak.Lib.Kahn
import Oak.Node.Project

/-!
# The topological order of a graph

`Graph::topological_order` of `oak-node/src/graph.rs`: the nodes at the ends of edges are taken
sources first, by counters of the edges that are still open, and the nodes without edges follow in
slot order.

* `inDegrees` : the counters. The source keeps them in a hash map; they are read by their keys, and
  what is ready at the start goes into an ordered set, so the order of the map does not matter.
* `topologicalOrder` : the order; `none` stands for a counter that is missing or would fall below
  zero, where the source panics.

## Main results

* `orderLoop_agrees` : the loop is the sweep of `Kahn`, and no counter is missing.
* `topologicalOrder_run` : after every run the nodes of the arena are listed once each, and sources
  before targets, as long as the indices of the slots fit 32 bits.
* `topologicalOrder_crowded` : with more slots two nodes have one id.
-/

namespace Oak.Node

open Oak.Lib Relation

variable {F β : Type*}

/-! ### The order -/

/-- One edge is counted at its target, and its source has a counter. -/
def countEdge (indegree : NodeId → Option ℕ) (e : Edge) : NodeId → Option ℕ :=
  let counted := Function.update indegree e.target (some ((indegree e.target).getD 0 + 1))
  Function.update counted e.source (some ((counted e.source).getD 0))

/-- An edge out of a taken node is done. -/
def releaseEdge (s : (NodeId → Option ℕ) × OrdSet NodeId) (e : Edge) :
    Option ((NodeId → Option ℕ) × OrdSet NodeId) :=
  match s.1 e.target with
  | none => none
  | some 0 => none
  | some (d + 1) =>
    some (Function.update s.1 e.target (some d), if d = 0 then s.2.insert e.target else s.2)

/-- The nodes at the ends of edges. -/
def edgeEnds (es : List Edge) : List NodeId := es.flatMap fun e => [e.target, e.source]

namespace Graph

/-- The counters at the start. -/
def inDegrees (g : Graph F β) : NodeId → Option ℕ := g.edges.toList.foldl countEdge fun _ => none

/-- The loop of `topological_order`, with the counters that it leaves. -/
def orderLoop (g : Graph F β) :
    ℕ → (NodeId → Option ℕ) × OrdSet NodeId → List NodeId →
      Option (List NodeId × (NodeId → Option ℕ))
  | 0, _, _ => none
  | fuel + 1, s, order =>
    match s.2.toList with
    | [] => some (order, s.1)
    | n :: _ =>
      match (g.edges.toList.filter fun e => e.source = n).foldlM releaseEdge
          (s.1, s.2.erase n) with
      | none => none
      | some s => orderLoop g fuel s (order ++ [n])

/-- `topological_order`. -/
def topologicalOrder (g : Graph F β) : Option (List NodeId) :=
  let ends := edgeEnds g.edges.toList
  let indegree := g.inDegrees
  let ready := OrdSet.ofList (ends.filter fun n => indegree n = some 0)
  match g.orderLoop (ends.length + 1) (indegree, ready) [] with
  | none => none
  | some (order, indegree) => some (order ++ g.nodeIds.filter fun n => (indegree n).isNone)

/-- The live nodes, once each, and sources before targets. -/
structure IsTopological (g : Graph F β) (order : List NodeId) : Prop where
  once : order.Nodup
  all : ∀ id, g.isValid id = true → id ∈ order
  before : ∀ e ∈ g.edges, ∃ front back, order = front ++ e.target :: back ∧ e.source ∈ front

end Graph

/-! ### The counters -/

variable {es : List Edge} {n : NodeId}

theorem mem_edgeEnds : n ∈ edgeEnds es ↔ ∃ e ∈ es, n = e.target ∨ n = e.source := by
  simp [edgeEnds]

variable {d : NodeId → Option ℕ}

theorem isSome_countEdge {e : Edge} :
    (countEdge d e n).isSome ↔ (d n).isSome ∨ n = e.target ∨ n = e.source := by
  rw [countEdge, Function.update_apply]
  by_cases hs : n = e.source
  · simp [hs]
  · rw [if_neg hs, Function.update_apply]
    by_cases ht : n = e.target <;> simp [hs, ht]

theorem getD_countEdge {e : Edge} :
    (countEdge d e n).getD 0 = (d n).getD 0 + if e.target = n then 1 else 0 := by
  rw [countEdge, Function.update_apply]
  by_cases ht : e.target = n
  · subst ht
    by_cases hs : e.target = e.source <;> simp [hs]
  · have hother : Function.update d e.target (some ((d e.target).getD 0 + 1)) n = d n :=
      Function.update_of_ne (Ne.symm ht) _ _
    by_cases hs : n = e.source
    · rw [if_pos hs, ← hs, hother, Option.getD_some, if_neg ht, Nat.add_zero]
    · rw [if_neg hs, hother, if_neg ht, Nat.add_zero]

theorem isSome_foldl_countEdge :
    (es.foldl countEdge d n).isSome ↔ (d n).isSome ∨ n ∈ edgeEnds es := by
  induction es generalizing d with
  | nil => simp [edgeEnds]
  | cons e es ih =>
    rw [List.foldl_cons, ih, isSome_countEdge, mem_edgeEnds, mem_edgeEnds]
    simp only [List.exists_mem_cons_iff, or_assoc]

theorem getD_foldl_countEdge :
    (es.foldl countEdge d n).getD 0 = (d n).getD 0 + es.countP fun e => e.target = n := by
  induction es generalizing d with
  | nil => rfl
  | cons e es ih =>
    rw [List.foldl_cons, ih, getD_countEdge, List.countP_cons]
    simp only [decide_eq_true_eq]
    omega

/-- The counters of a state of the sweep. -/
def countersOf (live : List NodeId) (degree : NodeId → ℕ) (n : NodeId) : Option ℕ :=
  if n ∈ live then some (degree n) else none

theorem openEdges_nil :
    Kahn.openEdges Edge.source Edge.target es (edgeEnds es) [] n =
      es.countP fun e => e.target = n := by
  refine List.countP_congr fun e he => ?_
  have hmem : e.source ∈ edgeEnds es := mem_edgeEnds.2 ⟨e, he, .inr rfl⟩
  simp [hmem]

theorem inDegrees_eq (g : Graph F β) : g.inDegrees = countersOf (edgeEnds g.edges.toList)
    (Kahn.openEdges Edge.source Edge.target g.edges.toList (edgeEnds g.edges.toList) []) := by
  funext n
  have hsome : (g.inDegrees n).isSome ↔ n ∈ edgeEnds g.edges.toList := by
    rw [Graph.inDegrees, isSome_foldl_countEdge]
    simp
  have hget : (g.inDegrees n).getD 0 = g.edges.toList.countP fun e => e.target = n := by
    rw [Graph.inDegrees, getD_foldl_countEdge]
    simp
  rw [countersOf, openEdges_nil, ← hget]
  cases hd : g.inDegrees n with
  | none =>
    rw [if_neg]
    simpa [hd] using hsome
  | some d =>
    rw [if_pos (by simpa [hd] using hsome), Option.getD_some]

/-! ### The loop -/

/-- The counters of the targets are there, and each is as large as the edges to it that are done
now. -/
theorem foldlM_releaseEdge {live : List NodeId} {s : Kahn NodeId}
    (hlive : ∀ e ∈ es, e.target ∈ live) (hcount : ∀ n, (es.map Edge.target).count n ≤ s.degree n) :
    es.foldlM releaseEdge (countersOf live s.degree, s.ready) =
      some (countersOf live ((es.map Edge.target).foldl (Kahn.release live) s).degree,
        ((es.map Edge.target).foldl (Kahn.release live) s).ready) := by
  induction es generalizing s with
  | nil => rfl
  | cons e es ih =>
    have htarget := hlive e List.mem_cons_self
    have hone := hcount e.target
    rw [List.map_cons, List.count_cons_self] at hone
    obtain ⟨d, hd⟩ : ∃ d, s.degree e.target = d + 1 := ⟨s.degree e.target - 1, by omega⟩
    have hstep : releaseEdge (countersOf live s.degree, s.ready) e =
        some (countersOf live (Kahn.release live s e.target).degree,
          (Kahn.release live s e.target).ready) := by
      have hcounter : countersOf live s.degree e.target = some (d + 1) := by
        rw [countersOf, if_pos htarget, hd]
      have hupdate : Function.update (countersOf live s.degree) e.target (some d) =
          countersOf live (Function.update s.degree e.target d) := by
        funext n
        rw [countersOf, Function.update_apply, Function.update_apply]
        split_ifs with hn hn' hn'
        · rfl
        · exact absurd (hn ▸ htarget) hn'
        · rw [countersOf, if_pos hn']
        · rw [countersOf, if_neg hn']
      simp only [releaseEdge, hcounter, hupdate, Kahn.release, if_pos htarget, hd,
        Nat.add_sub_cancel]
      congr!
    rw [List.foldlM_cons, hstep]
    refine ih (fun e' he' => hlive e' (List.mem_cons_of_mem e he')) fun n => ?_
    have hn := hcount n
    rw [List.map_cons, List.count_cons] at hn
    rw [Kahn.release_degree]
    split_ifs with heq
    · rw [if_pos (by simp [heq.1])] at hn
      omega
    · omega

theorem take_eq (es : List Edge) (live : List NodeId) (s : Kahn NodeId) (n : NodeId) :
    Kahn.take Edge.source Edge.target es live s n =
      ((es.filter fun e => e.source = n).map Edge.target).foldl (Kahn.release live)
        { s with ready := s.ready.erase n, order := s.order ++ [n] } := by
  simp only [Kahn.take, successors]
  congr!

/-- **The loop is a sweep.** With steps for every node that is left, the loop takes what the sweep
takes until nothing is ready. -/
theorem orderLoop_agrees {g : Graph F β} {fuel : ℕ} {s : Kahn NodeId}
    (h : Kahn.Inv Edge.source Edge.target g.edges.toList (edgeEnds g.edges.toList) s)
    (hfuel : (edgeEnds g.edges.toList).length < s.order.length + fuel) :
    ∃ t, g.orderLoop fuel (countersOf (edgeEnds g.edges.toList) s.degree, s.ready) s.order =
        some (t.order, countersOf (edgeEnds g.edges.toList) t.degree) ∧
      Kahn.Inv Edge.source Edge.target g.edges.toList (edgeEnds g.edges.toList) t ∧
      ∀ n, n ∉ t.ready := by
  set live := edgeEnds g.edges.toList
  induction fuel generalizing s with
  | zero =>
    have hle := (List.subperm_of_subset h.nodup h.subset).length_le
    omega
  | succ fuel ih =>
    rw [Graph.orderLoop]
    rcases hready : s.ready.toList with _ | ⟨n, rest⟩
    · refine ⟨s, rfl, h, fun n hn => ?_⟩
      rw [← OrdSet.mem_toList, hready] at hn
      exact absurd hn List.not_mem_nil
    · have hn : n ∈ s.ready := by
        rw [← OrdSet.mem_toList, hready]
        exact List.mem_cons_self
      obtain ⟨hlive, horder, -⟩ := (h.ready n).1 hn
      have htake := h.take hn
      have horder' : (Kahn.take Edge.source Edge.target g.edges.toList live s n).order =
          s.order ++ [n] := Kahn.order_foldl_release
      have htargets : ∀ e ∈ g.edges.toList.filter fun e => e.source = n, e.target ∈ live :=
        fun e he => mem_edgeEnds.2 ⟨e, List.mem_of_mem_filter he, .inl rfl⟩
      have hcount (m : NodeId) :
          ((g.edges.toList.filter fun e => e.source = n).map Edge.target).count m ≤
            s.degree m := by
        by_cases hm : m ∈ live
        · rw [h.degree m hm, Kahn.openEdges_concat hlive horder]
          refine le_of_eq_of_le ?_ (Nat.le_add_left _ _)
          simp only [successors]
          congr!
        · refine le_of_eq_of_le (List.count_eq_zero_of_not_mem fun hmem => hm ?_) (Nat.zero_le _)
          obtain ⟨e, he, rfl⟩ := List.mem_map.1 hmem
          exact htargets e he
      let taken : Kahn NodeId := { s with ready := s.ready.erase n, order := s.order ++ [n] }
      have hfold : (g.edges.toList.filter fun e => e.source = n).foldlM releaseEdge
          (countersOf live s.degree, s.ready.erase n) = _ :=
        foldlM_releaseEdge (s := taken) htargets hcount
      obtain ⟨t, hloop, ht, hdone⟩ := ih htake (by
        rw [horder', List.length_append, List.length_singleton]
        omega)
      refine ⟨t, ?_, ht, hdone⟩
      rw [horder', take_eq] at hloop
      dsimp only at hfold ⊢
      rw [hfold]
      exact hloop

/-! ### No operation closes a cycle -/

variable {id : NodeId} {input : String} {index : ℤ}

namespace Graph

variable {g g' : Graph F β}

theorem acyclic_of_ends (h : Acyclic (Feeds g.edges))
    (hends : ∀ e ∈ g'.edges, ∃ e' ∈ g.edges, e'.source = e.source ∧ e'.target = e.target) :
    Acyclic (Feeds g'.edges) := by
  refine h.mono ?_
  rintro a b ⟨e, he, rfl, rfl⟩
  exact hends e he

theorem acyclic_of_subset (h : Acyclic (Feeds g.edges)) (hsub : ∀ e ∈ g'.edges, e ∈ g.edges) :
    Acyclic (Feeds g'.edges) :=
  acyclic_of_ends h fun e he => ⟨e, hsub e he, rfl, rfl⟩

theorem acyclic_addEntry (h : Acyclic (Feeds g.edges)) (entry : NodeEntry F β) (id : NodeId) :
    Acyclic (Feeds (g.addEntry entry id).1.edges) := by
  by_cases hslot : ∃ n, g.entries[id.index]? = some (.vacant n)
  · obtain ⟨n, hslot⟩ := hslot
    rw [addEntry_in_place hslot]
    exact h
  · rw [addEntry_elsewhere fun n hn => hslot ⟨n, hn⟩, edges_allocate]
    exact h

theorem acyclic_takeNode (h : Acyclic (Feeds g.edges)) {entry : NodeEntry F β}
    (htake : g.takeNode id = some (g', entry)) : Acyclic (Feeds g'.edges) := by
  obtain ⟨-, -, -, hedges, -⟩ := takeNode_spec htake
  refine acyclic_of_subset h fun e he => ?_
  rw [hedges] at he
  exact (OrdSet.mem_filter.1 he).1

theorem acyclic_disconnect (h : Acyclic (Feeds g.edges)) (source target : NodeId) (input : String)
    (element : ℤ) : Acyclic (Feeds (g.disconnect source target input element).edges) :=
  acyclic_of_subset h fun _ he => (OrdSet.mem_erase.1 he).1

theorem acyclic_disconnectInput (h : Acyclic (Feeds g.edges)) (target : NodeId) (input : String)
    (element : ℤ) : Acyclic (Feeds (g.disconnectInput target input element).1.edges) := by
  rw [Graph.disconnectInput]
  split
  · exact h
  · exact acyclic_disconnect h _ _ _ _

/-- A connection is refused when its target reaches its source. -/
theorem acyclic_connect (h : Acyclic (Feeds g.edges)) {source target : NodeId} {element : ℤ}
    (hconnect : g.connect source target input element = .ok g') : Acyclic (Feeds g'.edges) := by
  obtain ⟨-, -, -, -, -, -, -, -, -, hreaches, rfl⟩ := connect_cases hconnect
  have hpath : ¬ ReflTransGen (Feeds g.edges) target source := fun hpath =>
    absurd (hreaches.symm.trans ((search_eq_true_iff (by omega)).2 hpath)) (by simp)
  refine (acyclic_insert h hpath).mono ?_
  rintro a b ⟨e, he, rfl, rfl⟩
  rcases OrdSet.mem_insert.1 he with rfl | he
  · exact .inr ⟨rfl, rfl⟩
  · exact .inl ⟨e, he, rfl, rfl⟩

theorem acyclic_moveEdges (h : Acyclic (Feeds g.edges)) {f : Edge → Option Edge}
    (hf : ∀ e e', f e = some e' → e'.source = e.source ∧ e'.target = e.target) :
    Acyclic (Feeds (moveEdges f (g.elementsFrom id input index) g.edges)) := by
  refine h.mono ?_
  rintro a b ⟨e, he, rfl, rfl⟩
  rcases mem_moveEdges he with ⟨hold, -⟩ | ⟨e', he', hfe⟩
  · exact ⟨e, hold, rfl, rfl⟩
  · obtain ⟨hsource, htarget⟩ := hf e' e hfe
    exact ⟨e', ((Sound.mem_elementsFrom e').1 he').1, hsource.symm, htarget.symm⟩

theorem acyclic_inputArrayInsert (h : Acyclic (Feeds g.edges))
    (hinsert : g.inputArrayInsert id input index = .ok g') : Acyclic (Feeds g'.edges) := by
  obtain ⟨entry, -, -, rfl⟩ := inputArrayInsert_cases hinsert
  refine acyclic_moveEdges h fun e e' he' => ?_
  obtain rfl := Option.some.inj he'
  exact ⟨rfl, rfl⟩

theorem acyclic_inputArrayRemove (h : Acyclic (Feeds g.edges))
    (hremove : g.inputArrayRemove id input index = .ok g') : Acyclic (Feeds g'.edges) := by
  obtain ⟨entry, -, -, rfl⟩ := inputArrayRemove_cases hremove
  refine acyclic_moveEdges h fun e e' he' => ?_
  split_ifs at he'
  obtain rfl := Option.some.inj he'
  exact ⟨rfl, rfl⟩

theorem edges_link (a b : NodeId) : (g.link a b).1.edges = g.edges := by
  rw [Graph.link]
  dsimp only
  split
  · rfl
  · split <;> rfl

theorem edges_unlink (a b : NodeId) : (g.unlink a b).1.edges = g.edges := by
  rw [Graph.unlink]
  split <;> rfl

theorem acyclic_copyDependencyGraph [NodeBehavior F β] (fuel : ℕ) (node : NodeId)
    {s : CopyState F β} (h : Acyclic (Feeds s.graph.edges)) :
    Acyclic (Feeds (Graph.copyDependencyGraph fuel node s).2.graph.edges) := by
  refine copyDependencyGraph_induction (P := fun g => Acyclic (Feeds g.edges)) (E := fun _ => True)
    (fun g core behavior _ h => ?_) (fun _ _ _ _ _ => trivial)
    (fun _ _ _ _ _ _ _ h hconnect => acyclic_connect h hconnect) fuel node h
  rw [addNode, edges_allocate]
  exact h

end Graph

namespace GraphRun

variable {r : GraphRun F β}

theorem acyclic_attempt (h : Acyclic (Feeds r.graph.edges)) {result : Except Error (Graph F β)}
    (hok : ∀ g, result = .ok g → Acyclic (Feeds g.edges)) :
    Acyclic (Feeds (r.attempt result).graph.edges) := by
  cases result with
  | error e => exact h
  | ok g => exact hok g rfl

theorem acyclic_leave (h : Acyclic (Feeds r.graph.edges)) {result : Option (Graph F β)}
    (hsome : ∀ g, result = some g → ∃ entry, r.graph.takeNode id = some (g, entry)) :
    Acyclic (Feeds (r.leave id result).graph.edges) := by
  cases result with
  | none => exact h
  | some g =>
    obtain ⟨entry, htake⟩ := hsome g rfl
    exact Graph.acyclic_takeNode h htake

theorem acyclic_act [NodeBehavior F β] (h : Acyclic (Feeds r.graph.edges))
    (a : GraphAction F β) : Acyclic (Feeds (r.act a).graph.edges) := by
  cases a with
  | addNode core behavior =>
    rw [act, enter, Graph.addNode, Graph.edges_allocate]
    exact h
  | addEntry entry id => exact Graph.acyclic_addEntry h entry id
  | takeNode id =>
    refine acyclic_leave h fun g hg => ?_
    obtain ⟨⟨g', entry⟩, htake, rfl⟩ := Option.map_eq_some_iff.1 hg
    exact ⟨entry, htake⟩
  | removeNode id =>
    refine acyclic_leave h fun g hg => ?_
    obtain ⟨⟨g', b⟩, hremove, rfl⟩ := Option.map_eq_some_iff.1 hg
    exact Graph.takeNode_of_removeNode hremove
  | connect source target input element =>
    exact acyclic_attempt h fun g hg => Graph.acyclic_connect h hg
  | disconnect source target input element => exact Graph.acyclic_disconnect h _ _ _ _
  | disconnectInput target input element => exact Graph.acyclic_disconnectInput h _ _ _
  | inputArrayInsert id input index =>
    exact acyclic_attempt h fun g hg => Graph.acyclic_inputArrayInsert h hg
  | inputArrayRemove id input index =>
    exact acyclic_attempt h fun g hg => Graph.acyclic_inputArrayRemove h hg
  | link a b =>
    rw [act, Graph.edges_link]
    exact h
  | unlink a b =>
    rw [act, Graph.edges_unlink]
    exact h
  | copyNodeAndDependencyGraphMinusItems root => exact Graph.acyclic_copyDependencyGraph _ root h

theorem acyclic_run [NodeBehavior F β] (as : List (GraphAction F β)) :
    Acyclic (Feeds (run act (start : GraphRun F β) as).graph.edges) :=
  invariant_always (I := fun r : GraphRun F β => Acyclic (Feeds r.graph.edges))
    (fun _ a h => acyclic_act h a) sound_start.edges.acyclic as

end GraphRun

/-! ### The order of a graph without cycles -/

namespace Graph

variable {g : Graph F β}

/-- The nodes at the ends of edges in the order of a sweep, and the others in slot order. -/
theorem topologicalOrder_eq (hacyclic : Acyclic (Feeds g.edges)) :
    ∃ t : Kahn NodeId,
      g.topologicalOrder =
        some (t.order ++ g.nodeIds.filter fun n => n ∉ edgeEnds g.edges.toList) ∧
      Kahn.Inv Edge.source Edge.target g.edges.toList (edgeEnds g.edges.toList) t ∧
      ∀ n, n ∈ t.order ↔ n ∈ edgeEnds g.edges.toList := by
  have hstart : Kahn.Inv Edge.source Edge.target g.edges.toList (edgeEnds g.edges.toList)
      (Kahn.start Edge.source Edge.target g.edges.toList (edgeEnds g.edges.toList)) :=
    Kahn.inv_start
  have hfuel : (edgeEnds g.edges.toList).length <
      (Kahn.start Edge.source Edge.target g.edges.toList (edgeEnds g.edges.toList)).order.length +
        ((edgeEnds g.edges.toList).length + 1) := by
    omega
  obtain ⟨t, hloop, ht, hready⟩ := orderLoop_agrees hstart hfuel
  refine ⟨t, ?_, ht, fun n => ⟨ht.subset n, ht.complete hready hacyclic⟩⟩
  have hinitial : OrdSet.ofList ((edgeEnds g.edges.toList).filter fun n => g.inDegrees n = some 0) =
      (Kahn.start Edge.source Edge.target g.edges.toList (edgeEnds g.edges.toList)).ready := by
    rw [Kahn.start]
    congr 1
    refine List.filter_congr fun n hn => ?_
    rw [inDegrees_eq, countersOf, if_pos hn]
    exact decide_eq_decide.2 (by rw [Option.some.injEq])
  have hrun : g.orderLoop ((edgeEnds g.edges.toList).length + 1) (g.inDegrees,
      OrdSet.ofList ((edgeEnds g.edges.toList).filter fun n => g.inDegrees n = some 0)) [] =
      some (t.order, countersOf (edgeEnds g.edges.toList) t.degree) := by
    rw [hinitial, inDegrees_eq]
    exact hloop
  have hisolated (n : NodeId) : (countersOf (edgeEnds g.edges.toList) t.degree n).isNone =
      decide (n ∉ edgeEnds g.edges.toList) := by
    by_cases hn : n ∈ edgeEnds g.edges.toList <;> simp [countersOf, hn]
  simp only [topologicalOrder, hrun, hisolated]

theorem isTopological_of_acyclic (hacyclic : Acyclic (Feeds g.edges))
    (hroom : g.entries.length < u32Size) :
    ∃ order, g.topologicalOrder = some order ∧ g.IsTopological order ∧
      ((∀ e ∈ g.edges, g.isValid e.source = true ∧ g.isValid e.target = true) →
        ∀ id ∈ order, g.isValid id = true) := by
  obtain ⟨t, hsome, ht, hmem⟩ := topologicalOrder_eq hacyclic
  refine ⟨_, hsome, ⟨?_, fun id hid => ?_, fun e he => ?_⟩, fun hends id hid => ?_⟩
  · refine List.nodup_append.2 ⟨ht.nodup, (nodup_nodeIds hroom).filter _, ?_⟩
    rintro a ha b hb rfl
    have hout := of_decide_eq_true (List.mem_filter.1 hb).2
    exact hout ((hmem a).1 ha)
  · by_cases hends : id ∈ edgeEnds g.edges.toList
    · exact List.mem_append_left _ ((hmem id).2 hends)
    · exact List.mem_append_right _
        (List.mem_filter.2 ⟨(mem_nodeIds_iff hroom).2 hid, decide_eq_true hends⟩)
  · have hsource : e.source ∈ edgeEnds g.edges.toList := mem_edgeEnds.2 ⟨e, he, .inr rfl⟩
    have htarget : e.target ∈ t.order := (hmem _).2 (mem_edgeEnds.2 ⟨e, he, .inl rfl⟩)
    obtain ⟨front, back, heq⟩ := List.append_of_mem htarget
    refine ⟨front, back ++ g.nodeIds.filter fun n => n ∉ edgeEnds g.edges.toList, ?_,
      ht.sources front e.target back heq e he rfl hsource⟩
    rw [heq, List.append_assoc, List.cons_append]
  · rcases List.mem_append.1 hid with hid | hid
    · obtain ⟨e, he, rfl | rfl⟩ := mem_edgeEnds.1 ((hmem id).1 hid)
      · exact (hends e he).2
      · exact (hends e he).1
    · exact (mem_nodeIds_iff hroom).1 (List.mem_of_mem_filter hid)

end Graph

namespace GraphRun

/-- **The topological order.** After any calls, as long as there are fewer slots than indices, the
live nodes are listed once each and sources before targets, and nothing else is listed when no call
was out of range. -/
theorem topologicalOrder_run [NodeBehavior F β] (as : List (GraphAction F β))
    (hroom : (run act (start : GraphRun F β) as).graph.entries.length < u32Size) :
    ∃ order, (run act (start : GraphRun F β) as).graph.topologicalOrder = some order ∧
      (run act (start : GraphRun F β) as).graph.IsTopological order ∧
      (Permitted act InRange (start : GraphRun F β) as →
        ∀ id ∈ order, (run act (start : GraphRun F β) as).graph.isValid id = true) := by
  obtain ⟨order, hsome, horder, honly⟩ := Graph.isTopological_of_acyclic (acyclic_run as) hroom
  exact ⟨order, hsome, horder, fun has => honly (sound_run has).edges.ends⟩

/-- The second node feeds the first, and the third has no edges. -/
def backwards : List (GraphAction ℚ Plain) :=
  [.addNode .new .plain, .addNode .new .plain, .addNode .new .plain,
    .connect ⟨1, 0⟩ ⟨0, 0⟩ enabledInput (-1)]

theorem topologicalOrder_run_backwards :
    ∃ order, (run act (start : GraphRun ℚ Plain) backwards).graph.topologicalOrder = some order ∧
      (run act (start : GraphRun ℚ Plain) backwards).graph.IsTopological order ∧
      (Permitted act InRange (start : GraphRun ℚ Plain) backwards →
        ∀ id ∈ order, (run act (start : GraphRun ℚ Plain) backwards).graph.isValid id = true) := by
  have hlength : (run act (start : GraphRun ℚ Plain) backwards).graph.entries.length = 3 := by
    decide
  exact topologicalOrder_run backwards (by rw [hlength, u32Size]; norm_num)

/-! ### More nodes than indices -/

/-- A graph of unlinked nodes without edges. -/
def crowd (core : NodeCore F) (behavior : β) (n : ℕ) : Graph F β :=
  ⟨List.replicate n (.live ⟨core, behavior, 0⟩), [], ∅, fun _ => none⟩

/-- Nodes without links that are added one after the other get slots of their own. -/
theorem run_replicate_addNode [NodeBehavior F β] {core : NodeCore F} (hcore : core.links = [])
    (behavior : β) (n k : ℕ) :
    run act ⟨crowd core behavior k, []⟩ (List.replicate n (.addNode core behavior)) =
      ⟨crowd core behavior (k + n), []⟩ := by
  induction n generalizing k with
  | zero => rfl
  | succ n ih =>
    have hstep : act ⟨crowd core behavior k, []⟩ (.addNode core behavior) =
        ⟨crowd core behavior (k + 1), []⟩ := by
      rw [act, enter, hcore, crowd, crowd, List.replicate_succ']
      rfl
    rw [List.replicate_succ, run_cons, hstep, ih, Nat.add_assoc, Nat.add_comm 1]

theorem nodeIds_crowd (core : NodeCore F) (behavior : β) (n : ℕ) :
    (crowd core behavior n).nodeIds = (List.range n).map fun i => ⟨i % u32Size, 0⟩ := by
  have hslots : (crowd core behavior n).entries.zipIdx =
      (List.range n).map fun i => (.live ⟨core, behavior, 0⟩, i) := by
    refine List.ext_getElem (by simp [crowd]) fun i hi _ => ?_
    simp [crowd]
  rw [Graph.nodeIds, hslots, List.filterMap_map, ← List.filterMap_eq_map]
  rfl

/-- With one node more than there are indices, two nodes have the id of the first one. -/
theorem topologicalOrder_crowded : ¬ ∀ as : List (GraphAction ℚ Plain), ∃ order,
    (run act (start : GraphRun ℚ Plain) as).graph.topologicalOrder = some order ∧
      (run act (start : GraphRun ℚ Plain) as).graph.IsTopological order := by
  intro h
  obtain ⟨order, hsome, horder⟩ := h (List.replicate (u32Size + 1) (.addNode .empty .plain))
  have hrun : run act start (List.replicate (u32Size + 1) (.addNode .empty .plain)) =
      ⟨crowd (F := ℚ) .empty Plain.plain (0 + (u32Size + 1)), []⟩ :=
    run_replicate_addNode rfl Plain.plain (u32Size + 1) 0
  rw [hrun, Nat.zero_add] at hsome
  have hempty : EdgesOk (fun _ => True) (∅ : OrdSet Edge) := EdgesOk.empty
  have hacyclic : Acyclic (Feeds (crowd (F := ℚ) .empty Plain.plain (u32Size + 1)).edges) :=
    hempty.acyclic
  obtain ⟨t, hlisted, -, -⟩ := Graph.topologicalOrder_eq hacyclic
  have hall : (crowd (F := ℚ) .empty Plain.plain (u32Size + 1)).nodeIds.filter
      (fun n => n ∉ edgeEnds
        (crowd (F := ℚ) .empty Plain.plain (u32Size + 1)).edges.toList) =
      (crowd (F := ℚ) .empty Plain.plain (u32Size + 1)).nodeIds :=
    List.filter_eq_self.2 fun n _ => decide_eq_true List.not_mem_nil
  rw [hlisted, hall, nodeIds_crowd, Option.some.injEq] at hsome
  have hnodup := (List.nodup_append.1 (hsome ▸ horder.once)).2.1
  have hfirst : (0 : ℕ) ∈ List.range (u32Size + 1) := List.mem_range.2 (Nat.succ_pos _)
  have hlast : u32Size ∈ List.range (u32Size + 1) := List.mem_range.2 (Nat.lt_succ_self _)
  have heq := List.inj_on_of_nodup_map hnodup hfirst hlast (by rw [Nat.zero_mod, Nat.mod_self])
  exact absurd heq (by rw [u32Size]; norm_num)

end GraphRun

end Oak.Node
