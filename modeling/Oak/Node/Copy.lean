import Oak.Node.Invariant
import Mathlib.Data.List.Count

/-!
# What a copy does

`copy_node_and_dependency_graph_minus_items` of `oak-node/src/graph.rs`: the copies are new nodes;
the nodes that were there, and the edges into them, stay as they are.

* `Copying g carried s`: `s` is a state that the copy comes to when it starts in `g`.
* `Copyable g root`: everything the copy of `root` comes to can be duplicated.

## Main results

* `Copying.copyDependencyGraph`: the recursion, by induction on its depth.
* `copy_spec`: the copy of a node that is not an item.
* `copy_isSome_iff`: exactly when a copy succeeds.
-/

namespace Oak.Node.Graph

open Oak.Lib Relation

variable {F β : Type*} {g g' : Graph F β} {carried : List (NodeId × NodeId)}

/-- At most half of the slot numbers are in use, so that a copy, which takes a slot for every node
at most, finds one for each. -/
def HasRoom (g : Graph F β) : Prop := 2 * g.entries.length < u32Size

/-- The edges into a node. -/
def edgesInto (g : Graph F β) (id : NodeId) : List Edge :=
  g.edges.toList.filter fun e => e.target = id

theorem inputConnections_eq (g : Graph F β) (id : NodeId) :
    g.inputConnections id =
      (g.edgesInto id).map fun e => (e.source, g.inputName e.inputKey, e.element) := rfl

variable {input : String}

theorem connect_spec {source target : NodeId} {element : ℤ}
    (h : g.connect source target input element = .ok g') :
    g'.entries = g.entries ∧ g'.freeList = g.freeList ∧
      g'.edges = g.edges.insert ⟨source, target, hashStr input, element⟩ := by
  obtain ⟨-, -, -, -, -, -, -, -, -, -, rfl⟩ := connect_cases h
  exact ⟨entries_internInput, freeList_internInput, rfl⟩

theorem get_connect {source target x : NodeId} {element : ℤ}
    (h : g.connect source target input element = .ok g') : g'.get x = g.get x :=
  get_congr (by rw [(connect_spec h).1])

/-- The nodes that no copy was made for yet. -/
def uncopied (g : Graph F β) (created : NodeId → Option NodeId) : List NodeId :=
  g.nodeIds.filter fun n => (created n).isNone

variable {node : NodeId}

theorem length_uncopied_update {created : NodeId → Option NodeId} (hlive : g.isValid node = true)
    (hnone : created node = none) (copy : NodeId) :
    (g.uncopied (Function.update created node (some copy))).length <
      (g.uncopied created).length := by
  have himp (n : NodeId) (hn : (Function.update created node (some copy) n).isNone = true) :
      (created n).isNone = true := by
    rw [Function.update_apply] at hn
    split_ifs at hn
    · exact absurd hn (by simp)
    · exact hn
  rw [uncopied, uncopied, ← List.countP_eq_length_filter, ← List.countP_eq_length_filter]
  obtain ⟨before, after, heq⟩ := List.append_of_mem (mem_nodeIds hlive)
  have hbefore := List.countP_mono_left (l := before) fun n _ => himp n
  have hafter := List.countP_mono_left (l := after) fun n _ => himp n
  simp only [heq, List.countP_append, List.countP_cons, Function.update_self, hnone,
    Option.isNone_some, Option.isNone_none, Bool.false_eq_true, if_true, if_false]
  omega

variable [NodeBehavior F β]

/-- `m` is a new node of `g'`, a copy of the node `n` of `g`. -/
def IsCopy (g g' : Graph F β) (n m : NodeId) : Prop :=
  g.get m = none ∧ ∃ entry copy, g.get n = some entry ∧ g'.get m = some copy ∧
    NodeBehavior.duplicate entry.behavior entry.core = some copy.behavior

/-- An item, which copies share. -/
def IsItem (g : Graph F β) (n : NodeId) : Prop :=
  ∃ entry, g.get n = some entry ∧ entry.core.flags &&& NodeFlags.isItem ≠ 0

/-- A state that a copy comes to when it starts in `g`. -/
structure Copying (g : Graph F β) (carried : List (NodeId × NodeId)) (s : CopyState F β) :
    Prop where
  sound : s.graph.Sound carried
  get : ∀ x e, g.get x = some e → s.graph.get x = some e
  edgesInto : ∀ x, g.isValid x = true → s.graph.edgesInto x = g.edgesInto x
  created : ∀ n m, s.created n = some m → m = n ∧ g.IsItem n ∨ g.IsCopy s.graph n m
  /-- There is a slot for every node that is still to be copied. -/
  room : s.graph.entries.length + (g.uncopied s.created).length < u32Size

variable {copySource : NodeId → CopyState F β → Option NodeId × CopyState F β}

variable {entry : NodeEntry F β} {copy : NodeId}

namespace Copying

variable {s s' : CopyState F β}

theorem start (hsound : g.Sound carried) (hroom : g.HasRoom) :
    Copying g carried ⟨g, fun _ => none⟩ := by
  refine ⟨hsound, fun _ _ h => h, fun _ _ => rfl, by simp, ?_⟩
  have hle : (g.uncopied fun _ => none).length ≤ g.entries.length :=
    (List.length_filter_le _ _).trans g.length_nodeIds_le
  rw [HasRoom] at hroom
  dsimp only
  omega

section

variable (h : Copying g carried s)

include h

theorem get_eq (hlive : g.isValid node = true) : s.graph.get node = g.get node := by
  obtain ⟨e, he⟩ := isValid_iff.1 hlive
  rw [he, h.get node e he]

theorem item (hitem : g.IsItem node) (hnone : s.created node = none) :
    Copying g carried { s with created := Function.update s.created node (some node) } := by
  obtain ⟨entry, hget, hflag⟩ := hitem
  have hlive : g.isValid node = true := isValid_of_get hget
  refine ⟨h.sound, h.get, h.edgesInto, fun n m hm => ?_, ?_⟩
  · dsimp only at hm
    rw [Function.update_apply] at hm
    split_ifs at hm with hn
    · subst hn
      exact .inl ⟨(Option.some.inj hm).symm, entry, hget, hflag⟩
    · exact h.created n m hm
  · exact lt_trans (Nat.add_lt_add_left (length_uncopied_update hlive hnone node) _) h.room

theorem hasSlot (hlive : g.isValid node = true) (hnone : s.created node = none) :
    s.graph.entries.length < u32Size - 1 := by
  have hlt := length_uncopied_update hlive hnone node
  have hroom := h.room
  omega

theorem add (hget : g.get node = some entry) (hnone : s.created node = none) {core : NodeCore F}
    (hlinks : core.links = []) {behavior : β}
    (hduplicate : NodeBehavior.duplicate entry.behavior entry.core = some behavior) :
    g.get (s.graph.addNode core behavior).2 = none ∧
    Copying g carried ⟨(s.graph.addNode core behavior).1,
      Function.update s.created node (some (s.graph.addNode core behavior).2)⟩ := by
  have hlive : g.isValid node = true := isValid_of_get hget
  have hvacant := h.sound.freeVacant
  have hfresh : g.get (s.graph.addNode core behavior).2 = none := by
    rcases hget : g.get (s.graph.addNode core behavior).2 with _ | e
    · rfl
    · have hnew := get_allocate_fresh hvacant (h.hasSlot hlive hnone) core behavior
      exact absurd (h.get _ _ hget) (by rw [addNode, hnew]; simp)
  have hsound := h.sound.allocate core behavior
  rw [hlinks, List.map_nil, List.nil_append] at hsound
  refine ⟨hfresh, hsound, fun x e hx => ?_, fun x hx => ?_, fun n m hm => ?_, ?_⟩
  · exact get_allocate_of_get hvacant (h.get x e hx) core behavior
  · rw [← h.edgesInto x hx, Graph.edgesInto, Graph.edgesInto, addNode, edges_allocate]
  · dsimp only at hm
    rw [Function.update_apply] at hm
    split_ifs at hm with hn
    · subst hn
      obtain rfl := Option.some.inj hm
      obtain ⟨generation, hself⟩ :=
        get_allocate_self hvacant (h.hasSlot hlive hnone) core behavior
      exact .inr ⟨hfresh, entry, _, hget, hself, hduplicate⟩
    · refine (h.created n m hm).imp_right ?_
      rintro ⟨hnew, e, copy, he, hcopy, hbehavior⟩
      exact ⟨hnew, e, copy, he, get_allocate_of_get hvacant hcopy core behavior, hbehavior⟩
  · have hlt := length_uncopied_update hlive hnone (s.graph.addNode core behavior).2
    have hle := length_allocate_le (g := s.graph) core behavior
    have hroom := h.room
    dsimp only
    rw [addNode] at hlt ⊢
    omega

theorem connect {source copy : NodeId} {element : ℤ} {g' : Graph F β} (hcopy : g.get copy = none)
    (helement : IsI32 element) (hconnect : s.graph.connect source copy input element = .ok g') :
    Copying g carried { s with graph := g' } := by
  obtain ⟨hentries, -, hedges⟩ := connect_spec hconnect
  refine ⟨h.sound.connect helement hconnect, fun x e hx => ?_, fun x hx => ?_, fun n m hm => ?_, ?_⟩
  · exact (get_connect hconnect).trans (h.get x e hx)
  · have hother : x ≠ copy := ne_of_found hx (by rw [isValid, hcopy])
    rw [← h.edgesInto x hx, Graph.edgesInto, Graph.edgesInto, hedges]
    exact OrdSet.filter_insert_of_neg (decide_eq_false (Ne.symm hother))
  · refine (h.created n m hm).imp_right ?_
    rintro ⟨hnew, e, copy, he, hcopy, hbehavior⟩
    exact ⟨hnew, e, copy, he, (get_connect hconnect).trans hcopy, hbehavior⟩
  · exact lt_of_eq_of_lt (by rw [hentries]) h.room

end

theorem copyInputs
    (hsource : ∀ n s, g.isValid n = true → Copying g carried s →
      Copying g carried (copySource n s).2)
    (hcopy : g.get copy = none) {connections : List (NodeId × String × ℤ)}
    (hconnections : ∀ c ∈ connections, g.isValid c.1 = true ∧ IsI32 c.2.2)
    (h : Copying g carried s) :
    Copying g carried (Graph.copyInputs copySource copy connections s).2 :=
  copyInputs_induction (fun c s hc h => hsource c.1 s hc.1 h)
    (fun _ _ _ _ hc h hconnect => h.connect hcopy hc.2 hconnect) hconnections h

/-- The connections into a node, while the graph is copied. -/
theorem connections (h : Copying g carried s) (hg : g.Sound carried)
    (hlive : g.isValid node = true) :
    (s.graph.inputConnections node).map (fun c => c.1) = (g.edgesInto node).map Edge.source ∧
      ∀ c ∈ s.graph.inputConnections node, g.isValid c.1 = true ∧ IsI32 c.2.2 := by
  rw [inputConnections_eq, h.edgesInto node hlive, List.map_map]
  refine ⟨rfl, fun c hc => ?_⟩
  obtain ⟨e, he, rfl⟩ := List.mem_map.1 hc
  obtain ⟨he, -⟩ := List.mem_filter.1 he
  exact ⟨(hg.edges.ends e he).1, hg.edges.element e he⟩

end Copying

/-- What one call of the recursion does with a live node. -/
inductive CopyStep (g : Graph F β) (carried : List (NodeId × NodeId)) (fuel : ℕ) (node : NodeId)
    (entry : NodeEntry F β) (s : CopyState F β) : Option NodeId × CopyState F β → Prop where
  | known {m : NodeId} (hcreated : s.created node = some m) :
    CopyStep g carried fuel node entry s (some m, s)
  | refused (hcreated : s.created node = none)
    (hduplicate : NodeBehavior.duplicate entry.behavior entry.core = none) :
    CopyStep g carried fuel node entry s (none, s)
  | item (hcreated : s.created node = none)
    (hduplicate : (NodeBehavior.duplicate entry.behavior entry.core).isSome = true)
    (hitem : entry.core.flags &&& NodeFlags.isItem ≠ 0) :
    CopyStep g carried fuel node entry s
      (some node, { s with created := Function.update s.created node (some node) })
  | copied (hcreated : s.created node = none)
    (hduplicate : (NodeBehavior.duplicate entry.behavior entry.core).isSome = true)
    (hitem : entry.core.flags &&& NodeFlags.isItem = 0) (graph : Graph F β) (copy : NodeId)
    (hfresh : g.get copy = none)
    (hcopying : Copying g carried ⟨graph, Function.update s.created node (some copy)⟩) {ok : Bool}
    {s' : CopyState F β} (hinputs : copyInputs (copyDependencyGraph fuel) copy
      (graph.inputConnections node) ⟨graph, Function.update s.created node (some copy)⟩ =
        (ok, s')) :
    CopyStep g carried fuel node entry s (if ok then some copy else none, s')

theorem Copying.copyStep {s : CopyState F β} (h : Copying g carried s)
    (hget : g.get node = some entry) (fuel : ℕ) :
    CopyStep g carried fuel node entry s (Graph.copyDependencyGraph (fuel + 1) node s) := by
  have hlive : g.isValid node = true := isValid_of_get hget
  rw [Graph.copyDependencyGraph]
  rcases hcreated : s.created node with _ | m
  · simp only [h.get_eq hlive, hget]
    rcases hduplicate : NodeBehavior.duplicate entry.behavior entry.core with _ | behavior
    · exact .refused hcreated hduplicate
    · have hsome : (NodeBehavior.duplicate entry.behavior entry.core).isSome = true := by
        rw [hduplicate, Option.isSome_some]
      dsimp only
      split_ifs with hitem
      · exact .item hcreated hsome hitem
      · let core : NodeCore F := { entry.core with
          links := []
          contextPositions := entry.core.contextPositions.map fun p =>
            ((s.created p.1).getD p.1, p.2) }
        obtain ⟨hfresh, hcopying⟩ := h.add hget hcreated (show core.links = [] from rfl) hduplicate
        split
        · next s' hinputs =>
          exact .copied hcreated hsome (not_not.1 hitem) _ _ hfresh hcopying hinputs
        · next s' hinputs =>
          exact .copied hcreated hsome (not_not.1 hitem) _ _ hfresh hcopying hinputs
  · exact .known hcreated

/-- The recursion, by induction on its depth. -/
theorem Copying.copyDependencyGraph (hg : g.Sound carried) (fuel : ℕ)
    (hlive : g.isValid node = true) {s : CopyState F β} (h : Copying g carried s) :
    Copying g carried (Graph.copyDependencyGraph fuel node s).2 := by
  induction fuel generalizing node s with
  | zero => exact h
  | succ fuel ih =>
    obtain ⟨entry, hget⟩ := isValid_iff.1 hlive
    have hstep := h.copyStep hget fuel
    generalize Graph.copyDependencyGraph (fuel + 1) node s = r at hstep ⊢
    cases hstep with
    | known | refused => exact h
    | item hcreated _ hitem => exact h.item ⟨entry, hget, hitem⟩ hcreated
    | copied _ _ _ graph copy hfresh hcopying hinputs =>
      have hcopied := Copying.copyInputs (fun n _ hn => ih hn) hfresh
        (hcopying.connections hg hlive).2 hcopying
      rw [hinputs] at hcopied
      exact hcopied


/-! ### When a copy succeeds -/

/-- The copy of `a` comes to `b`, which feeds it. -/
def CopiesFrom (g : Graph F β) (a b : NodeId) : Prop :=
  ∃ entry, g.get a = some entry ∧ entry.core.flags &&& NodeFlags.isItem = 0 ∧
    ∃ e ∈ g.edgesInto a, e.source = b

/-- Everything the copy of `root` comes to can be duplicated. -/
def Copyable (g : Graph F β) (root : NodeId) : Prop :=
  ∀ n, ReflTransGen g.CopiesFrom root n →
    ∃ entry, g.get n = some entry ∧ (NodeBehavior.duplicate entry.behavior entry.core).isSome = true

/-- The node can be duplicated, and what the copy comes to from it was dealt with. -/
def Done (g : Graph F β) (created : NodeId → Option NodeId) (n : NodeId) : Prop :=
  ∃ entry, g.get n = some entry ∧
    (NodeBehavior.duplicate entry.behavior entry.core).isSome = true ∧
    (entry.core.flags &&& NodeFlags.isItem = 0 →
      ∀ e ∈ g.edgesInto n, (created e.source).isSome = true)

/-- The copy went from `s` to `s'`, and is done with every node that it came to. -/
structure Finished (g : Graph F β) (s s' : CopyState F β) : Prop where
  grown : ∀ n m, s.created n = some m → s'.created n = some m
  done : ∀ n, (s'.created n).isSome = true → (s.created n).isSome = true ∨ g.Done s'.created n

namespace Finished

variable {s s' s'' : CopyState F β}

theorem refl (s : CopyState F β) : g.Finished s s := ⟨fun _ _ h => h, fun _ h => .inl h⟩

theorem isSome (h : g.Finished s s') {n : NodeId} (hn : (s.created n).isSome = true) :
    (s'.created n).isSome = true := by
  obtain ⟨m, hm⟩ := Option.isSome_iff_exists.1 hn
  rw [h.grown n m hm, Option.isSome_some]

theorem trans (h : g.Finished s s') (h' : g.Finished s' s'') : g.Finished s s'' := by
  refine ⟨fun n m hm => h'.grown n m (h.grown n m hm), fun n hn => ?_⟩
  rcases h'.done n hn with hn | hdone
  · rcases h.done n hn with hn | ⟨entry, hget, hduplicate, hsources⟩
    · exact .inl hn
    · exact .inr ⟨entry, hget, hduplicate, fun hitem e he => h'.isSome (hsources hitem e he)⟩
  · exact .inr hdone

theorem copyInputs
    (hcopying : ∀ n s, g.isValid n = true → Copying g carried s →
      Copying g carried (copySource n s).2)
    (hsource : ∀ n s m, g.isValid n = true → Copying g carried s → (copySource n s).1 = some m →
      g.Finished s (copySource n s).2 ∧ (copySource n s).2.created n = some m)
    (hcopy : g.get copy = none) {connections : List (NodeId × String × ℤ)}
    (hconnections : ∀ c ∈ connections, g.isValid c.1 = true ∧ IsI32 c.2.2)
    (h : Copying g carried s) (hok : (Graph.copyInputs copySource copy connections s).1 = true) :
    g.Finished s (Graph.copyInputs copySource copy connections s).2 ∧
      ∀ c ∈ connections,
        ((Graph.copyInputs copySource copy connections s).2.created c.1).isSome = true := by
  induction connections generalizing s with
  | nil => exact ⟨refl s, by simp⟩
  | cons c rest ih =>
    obtain ⟨source, input, element⟩ := c
    obtain ⟨⟨hlive, helement⟩, hrest⟩ := List.forall_mem_cons.1 hconnections
    have hcopied := hcopying source s hlive h
    have hfinished := hsource source s
    rw [Graph.copyInputs] at hok ⊢
    rcases heq : copySource source s with ⟨_ | sourceCopy, t⟩
    · simp [heq] at hok
    · rw [heq] at hcopied
      obtain ⟨hgrown, hcreated⟩ := hfinished sourceCopy hlive h (by rw [heq])
      simp only [heq] at hok hgrown hcreated ⊢
      -- the edge from the copy of the source changes no entry of the table
      have htail {t' : CopyState F β} (htable : t'.created = t.created)
          (hcopying : Copying g carried t')
          (hok : (Graph.copyInputs copySource copy rest t').1 = true) :
          g.Finished s (Graph.copyInputs copySource copy rest t').2 ∧
            ∀ c ∈ (source, input, element) :: rest,
              ((Graph.copyInputs copySource copy rest t').2.created c.1).isSome = true := by
        obtain ⟨hrestgrown, hall⟩ := ih hrest hcopying hok
        have hstep : g.Finished s t' := by
          refine ⟨fun n m hm => ?_, fun n hn => ?_⟩
          · rw [htable]
            exact hgrown.grown n m hm
          · rw [htable] at hn ⊢
            exact hgrown.done n hn
        refine ⟨hstep.trans hrestgrown, List.forall_mem_cons.2 ⟨?_, hall⟩⟩
        exact hrestgrown.isSome (by rw [htable, hcreated, Option.isSome_some])
      split at hok
      · next g' hconnect => exact htail rfl (hcopied.connect hcopy helement hconnect) hok
      · exact htail rfl hcopied hok

theorem update {node copy : NodeId}
    {graph : Graph F β} (hcreated : s.created node = none)
    (h : g.Finished ⟨graph, Function.update s.created node (some copy)⟩ s')
    (hdone : g.Done s'.created node) : g.Finished s s' := by
  refine ⟨fun n m hm => h.grown n m ?_, fun n hn => ?_⟩
  · have hnode : n ≠ node := ne_of_found hm hcreated
    exact (Function.update_of_ne hnode _ _).trans hm
  · rcases h.done n hn with hn | hdone'
    · by_cases hnode : n = node
      · exact .inr (hnode ▸ hdone)
      · exact .inl (by rwa [← Function.update_of_ne hnode (some copy) s.created])
    · exact .inr hdone'

/-- A copy that succeeds is done with every node it came to. -/
theorem copyDependencyGraph (hg : g.Sound carried) (fuel : ℕ) {node m : NodeId}
    (hlive : g.isValid node = true) (h : Copying g carried s)
    (hsome : (Graph.copyDependencyGraph fuel node s).1 = some m) :
    g.Finished s (Graph.copyDependencyGraph fuel node s).2 ∧
      (Graph.copyDependencyGraph fuel node s).2.created node = some m := by
  induction fuel generalizing node m s with
  | zero => exact absurd hsome (by simp [Graph.copyDependencyGraph])
  | succ fuel ih =>
    obtain ⟨entry, hget⟩ := isValid_iff.1 hlive
    have hstep := h.copyStep hget fuel
    generalize Graph.copyDependencyGraph (fuel + 1) node s = r at hstep hsome ⊢
    revert hsome
    cases hstep with
    | known hcreated =>
      rintro ⟨⟩
      exact ⟨refl s, hcreated⟩
    | refused => exact fun hsome => absurd hsome (by simp)
    | item hcreated hduplicate hitem =>
      rintro ⟨⟩
      have hdone : g.Done (Function.update s.created node (some node)) node :=
        ⟨entry, hget, hduplicate, fun hzero => absurd hzero hitem⟩
      exact ⟨.update hcreated (refl ⟨s.graph, _⟩) hdone, Function.update_self ..⟩
    | copied hcreated hduplicate hitem graph copy hfresh hcopying hinputs =>
      intro hsome
      rename_i ok s'
      cases ok with
      | false => exact absurd hsome (by simp)
      | true =>
        obtain rfl := Option.some.inj hsome
        obtain ⟨hsources, hconnections⟩ := hcopying.connections hg hlive
        have hfinished := copyInputs (fun n _ hn => Copying.copyDependencyGraph hg fuel hn)
          (fun n s m hn hs => ih hn hs) hfresh hconnections hcopying
        rw [hinputs] at hfinished
        obtain ⟨hgrown, hall⟩ := hfinished rfl
        refine ⟨.update hcreated hgrown ⟨entry, hget, hduplicate, fun _ e he => ?_⟩,
          hgrown.grown node _ (Function.update_self ..)⟩
        have hsource : e.source ∈ (g.edgesInto node).map Edge.source := List.mem_map.2 ⟨e, he, rfl⟩
        rw [← hsources] at hsource
        obtain ⟨c, hc, hceq⟩ := List.mem_map.1 hsource
        exact hceq ▸ hall c hc

end Finished

section Success

variable {s : CopyState F β}

theorem copyInputs_isSome
    (hcopying : ∀ n s, g.isValid n = true → Copying g carried s →
      Copying g carried (copySource n s).2)
    (hcopy : g.get copy = none) {connections : List (NodeId × String × ℤ)}
    (hconnections : ∀ c ∈ connections, g.isValid c.1 = true ∧ IsI32 c.2.2)
    (hsource : ∀ c ∈ connections, ∀ s, Copying g carried s → (copySource c.1 s).1.isSome = true)
    (h : Copying g carried s) : (copyInputs copySource copy connections s).1 = true := by
  induction connections generalizing s with
  | nil => rfl
  | cons c rest ih =>
    obtain ⟨source, input, element⟩ := c
    obtain ⟨⟨hlive, helement⟩, hrest⟩ := List.forall_mem_cons.1 hconnections
    obtain ⟨hfirst, hothers⟩ := List.forall_mem_cons.1 hsource
    have hcopied := hcopying source s hlive h
    have hsome := hfirst s h
    rw [copyInputs]
    split
    · next t heq => exact absurd hsome (by simp [heq])
    · next sourceCopy t heq =>
      rw [heq] at hcopied
      split
      · next g' hconnect => exact ih hrest hothers (hcopied.connect hcopy helement hconnect)
      · exact ih hrest hothers hcopied

/-- With fuel for the longest path of edges, the copy of what can be copied succeeds. -/
theorem copyDependencyGraph_isSome (hg : g.Sound carried) {rank : NodeId → ℕ}
    (hrank : ∀ e ∈ g.edges, rank e.source < rank e.target) {fuel : ℕ} (hfuel : rank node < fuel)
    (hcopyable : g.Copyable node) (h : Copying g carried s) :
    (copyDependencyGraph fuel node s).1.isSome = true := by
  induction fuel generalizing node s with
  | zero => exact absurd hfuel (Nat.not_lt_zero _)
  | succ fuel ih =>
    obtain ⟨entry, hget, hduplicate⟩ := hcopyable node .refl
    have hlive : g.isValid node = true := isValid_of_get hget
    have hstep := h.copyStep hget fuel
    generalize copyDependencyGraph (fuel + 1) node s = r at hstep ⊢
    cases hstep with
    | known | item => rfl
    | refused _ hrefused => exact absurd hduplicate (by simp [hrefused])
    | copied _ _ hitem graph copy hfresh hcopying hinputs =>
      obtain ⟨hsources, hconnections⟩ := hcopying.connections hg hlive
      have hok := copyInputs_isSome (fun n _ hn => Copying.copyDependencyGraph hg fuel hn) hfresh
        hconnections (fun c hc s hs => ?_) hcopying
      · rw [hinputs] at hok
        rw [if_pos hok]
        rfl
      · have hc : c.1 ∈ (g.edgesInto node).map Edge.source := by
          rw [← hsources]
          exact List.mem_map.2 ⟨c, hc, rfl⟩
        obtain ⟨e, he, hsource⟩ := List.mem_map.1 hc
        obtain ⟨hmem, htarget⟩ := List.mem_filter.1 he
        have hlt := hrank e hmem
        rw [hsource, of_decide_eq_true htarget] at hlt
        refine ih (by omega) (fun n hn => hcopyable n (.head ?_ hn)) hs
        exact ⟨entry, hget, hitem, e, he, hsource⟩

/-- A copy succeeds exactly when everything that it comes to can be duplicated. -/
theorem copy_isSome_iff (hg : g.Sound carried) (hroom : g.HasRoom) {root : NodeId}
    (hlive : g.isValid root = true) :
    (g.copyNodeAndDependencyGraphMinusItems root).1.isSome = true ↔ g.Copyable root := by
  have hstart := Copying.start hg hroom
  constructor
  · intro hsome
    obtain ⟨copy, hcopy⟩ := Option.isSome_iff_exists.1 hsome
    obtain ⟨⟨-, hdone⟩, hroot⟩ := Finished.copyDependencyGraph hg _ hlive hstart hcopy
    intro n hn
    have hcreated : ((copyDependencyGraph (g.entries.length + 1) root
        ⟨g, fun _ => none⟩).2.created n).isSome = true := by
      induction hn with
      | refl => rw [hroot, Option.isSome_some]
      | tail _ hstep ih =>
        obtain ⟨entry, hget, hitem, e, he, rfl⟩ := hstep
        obtain ⟨entry', hget', -, hsources⟩ := (hdone _ ih).resolve_left (by simp)
        obtain rfl := Option.some.inj (hget.symm.trans hget')
        exact hsources hitem e he
    obtain ⟨entry, hget, hduplicate, -⟩ := (hdone n hcreated).resolve_left (by simp)
    exact ⟨entry, hget, hduplicate⟩
  · intro hcopyable
    have hacyclic : Acyclic fun a b => Feeds g.edges b a := fun a ha =>
      hg.edges.acyclic a (transGen_swap.1 ha)
    obtain ⟨rank, hrank, hle⟩ := hacyclic.exists_rank (l := g.nodeIds) fun a b hab => by
      obtain ⟨e, he, -, rfl⟩ := hab
      exact mem_nodeIds (hg.edges.ends e he).2
    have hrankEdge : ∀ e ∈ g.edges, rank e.source < rank e.target := fun e he =>
      hrank _ _ ⟨e, he, rfl, rfl⟩
    exact copyDependencyGraph_isSome hg hrankEdge
      (Nat.lt_succ_of_le ((hle root).trans g.length_nodeIds_le)) hcopyable hstart

end Success

section Grown

variable {s : CopyState F β}

omit [NodeBehavior F β] in
theorem created_copyInputs {x m : NodeId}
    (hsource : ∀ n s, s.created x = some m → (copySource n s).2.created x = some m) (copy : NodeId)
    (connections : List (NodeId × String × ℤ)) (h : s.created x = some m) :
    (copyInputs copySource copy connections s).2.created x = some m :=
  copyInputs_induction (P := fun s => s.created x = some m) (C := fun _ => True)
    (fun c s _ h => hsource c.1 s h) (fun _ _ _ _ _ h _ => h) (fun _ _ => trivial) h

/-- The copies made so far stay, also when a copy does not succeed. -/
theorem created_copyDependencyGraph (fuel : ℕ) (node : NodeId) {x m : NodeId}
    (h : s.created x = some m) : (copyDependencyGraph fuel node s).2.created x = some m := by
  induction fuel generalizing node s with
  | zero => exact h
  | succ fuel ih =>
    rw [copyDependencyGraph]
    split
    · exact h
    next hnone =>
    split
    · exact h
    split
    · exact h
    have hother : x ≠ node := ne_of_found h hnone
    split_ifs
    · exact (Function.update_of_ne hother _ _).trans h
    · dsimp only
      have hinputs (graph : Graph F β) (copy : NodeId) {ok : Bool} {s' : CopyState F β}
          (heq : copyInputs (copyDependencyGraph fuel) copy (graph.inputConnections node)
            ⟨graph, Function.update s.created node (some copy)⟩ = (ok, s')) :
          s'.created x = some m := by
        have hkeep := created_copyInputs (fun n _ hs => ih n hs) copy
          (graph.inputConnections node) (s := ⟨graph, Function.update s.created node (some copy)⟩)
          ((Function.update_of_ne hother (some copy) _).trans h)
        rw [heq] at hkeep
        exact hkeep
      split
      · next heq => exact hinputs _ _ heq
      · next heq => exact hinputs _ _ heq

end Grown

/-- A copy starts with the node itself: unless it is an item, or cannot be duplicated, there is a
new node, even when the copy does not succeed. -/
theorem copy_spec (hg : g.Sound carried) (hroom : g.HasRoom) {root : NodeId}
    (hget : g.get root = some entry) (hitem : entry.core.flags &&& NodeFlags.isItem = 0)
    (hduplicate : (NodeBehavior.duplicate entry.behavior entry.core).isSome = true) :
    ∃ copy s', Copying g carried s' ∧ s'.created root = some copy ∧ g.IsCopy s'.graph root copy ∧
      ∃ ok : Bool, g.copyNodeAndDependencyGraphMinusItems root =
        (if ok then some copy else none, s') := by
  have hstart := Copying.start hg hroom
  have hlive : g.isValid root = true := isValid_of_get hget
  have hcopying := hstart.copyDependencyGraph hg (g.entries.length + 1) hlive
  have hstep := hstart.copyStep hget g.entries.length
  rw [copyNodeAndDependencyGraphMinusItems]
  generalize copyDependencyGraph (g.entries.length + 1) root ⟨g, fun _ => none⟩ = r
    at hstep hcopying ⊢
  cases hstep with
  | known hcreated => exact absurd hcreated (by simp)
  | refused _ hrefused => exact absurd hduplicate (by simp [hrefused])
  | item _ _ hflag => exact absurd hitem hflag
  | copied _ _ _ graph copy hfresh _ hinputs =>
    rename_i ok s'
    have hfirst : (CopyState.mk graph
        (Function.update (fun _ => none) root (some copy))).created root = some copy :=
      Function.update_self root (some copy) fun _ => none
    have hcreated := created_copyInputs
      (fun n _ hs => created_copyDependencyGraph g.entries.length n hs) copy
      (graph.inputConnections root) hfirst
    rw [hinputs] at hcreated
    refine ⟨copy, s', hcopying, hcreated, ?_, ok, rfl⟩
    exact (hcopying.created root copy hcreated).resolve_left fun h =>
      absurd h.1 (ne_of_found hfresh hget)

end Oak.Node.Graph
