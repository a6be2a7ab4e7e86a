import Oak.Node.Block
import Oak.Node.Copy
import Oak.Node.GraphRun
import Mathlib.Data.List.Sort

/-!
# Projects and their deep copies

`Project` of `oak-node/src/project.rs`. A deep copy adds the live nodes, in slot order, to an empty
graph, and then connects them as the originals are connected. Ids that are stored in a node or in
its behavior are copied as they are, so that a copy means what the original means only when every
node keeps its id.

* `Unrecycled g` says that the live nodes of `g` fill the first slots and are the first occupants of
  them.
* `Keeps` are the behaviors that a copy does not cut down.
* `Reconnects` are the edges that a copy can connect again.

## Main results

* `Graph.copyNodes_eq`: the arena of a copy.
* `Graph.Reconnecting.reconnect`: the edges of a copy.
* `isDeepCopy_iff`: exactly when a deep copy is an isomorphism that keeps the ids.
-/

namespace Oak.Node

open Oak.Lib Relation
open NodeBehavior

variable {F β : Type*}

/-- `Project`. -/
structure Project (F β : Type*) where
  graph : Graph F (Behavior F β)
  /-- The root folder of the bin. -/
  root : NodeId
  settings : String → Option String
  filename : String
  modified : Bool
  uuid : String
  cacheLocationSetting : ℤ
  customCachePath : String

/-- `Project::new`; `uuid` is the generated one. -/
def Project.new (uuid : String) : Project F β :=
  ⟨.new, .invalid, fun _ => none, "", false, uuid, 0, ""⟩

namespace Graph

section Copy

variable [NodeBehavior F β]

/-- `clone_entry`: a behavior that cannot be duplicated becomes `fallback`. -/
def cloneEntry (fallback : β) (entry : NodeEntry F β) : NodeCore F × β :=
  (entry.core, (duplicate entry.behavior entry.core).getD fallback)

/-- The first loop of `deep_copy`: the nodes `ids` of `g` are added to a copy. -/
def copyNodes (fallback : β) (g : Graph F β) :
    List NodeId → CopyState F β → Except Error (CopyState F β)
  | [], s => .ok s
  | id :: ids, s =>
    match g.get id with
    | none => .error .notFound
    | some entry =>
      let clone := cloneEntry fallback entry
      let added := s.graph.addNode clone.1 clone.2
      copyNodes fallback g ids ⟨added.1, Function.update s.created id (some added.2)⟩

omit [NodeBehavior F β] in
/-- The second loop of `deep_copy`: a connection that is refused is left out. -/
def reconnect (g : Graph F β) : List (NodeId × NodeId × String × ℤ) → Graph F β
  | [] => g
  | (source, target, input, element) :: rest =>
    match g.connect source target input element with
    | .ok g' => g'.reconnect rest
    | .error _ => g.reconnect rest

end Copy

end Graph

/-- `deep_copy`; `empty` is the `EmptyBehavior`. -/
def Project.deepCopy [ClipSpeed F] [NodeBehavior F β] (empty : β) (p : Project F β) :
    Except Error (Project F β) :=
  match p.graph.copyNodes (.other empty) p.graph.nodeIds ⟨.new, fun _ => none⟩ with
  | .error e => .error e
  | .ok s =>
    let edges := p.graph.outputConnectionsAll.map fun e =>
      ((s.created e.1).getD e.1, (s.created e.2.1).getD e.2.1, e.2.2)
    .ok
      { graph := s.graph.reconnect edges
        root := (s.created p.root).getD .invalid
        settings := p.settings
        filename := p.filename
        modified := p.modified
        uuid := p.uuid
        cacheLocationSetting := p.cacheLocationSetting
        customCachePath := p.customCachePath }

/-! ### The live nodes in slot order -/

/-- Different numbers below their count, in order, are the first ones. -/
theorem eq_range_of_pairwise_lt {l : List ℕ} (h : l.Pairwise (· < ·))
    (hlt : ∀ i ∈ l, i < l.length) :
    l = List.range l.length := by
  have hnodup : l.Nodup := h.imp fun hij => hij.ne
  have hsub : l ⊆ List.range l.length := fun i hi => List.mem_range.2 (hlt i hi)
  have hperm : l.Perm (List.range l.length) :=
    (hnodup.subperm hsub).perm_of_length_le (by rw [List.length_range])
  exact hperm.eq_of_pairwise (fun i j _ _ hij hji => absurd hji hij.asymm) h
    List.pairwise_lt_range

variable {id : NodeId} {input : String}

namespace Graph

variable {g : Graph F β}

/-- The live nodes fill the first slots, and are the first occupants of them. -/
def Unrecycled (g : Graph F β) : Prop :=
  ∀ id, g.isValid id = true → id.generation = 0 ∧ ∀ i < id.index, g.isValid ⟨i, 0⟩ = true

/-- The place of a live node among the live nodes is its slot when there are no holes. -/
theorem Unrecycled.nodeIds_eq (h : g.Unrecycled) (hroom : g.entries.length < u32Size) :
    g.nodeIds = (List.range g.nodeIds.length).map fun i => ⟨i, 0⟩ := by
  have hindex : g.nodeIds.map NodeId.index = List.range (g.nodeIds.map NodeId.index).length := by
    refine eq_range_of_pairwise_lt (List.pairwise_map.2 (pairwise_nodeIds hroom)) fun i hi => ?_
    obtain ⟨id, hid, rfl⟩ := List.mem_map.1 hi
    -- the slots up to the one of a node are live
    have hbelow := (h id ((mem_nodeIds_iff hroom).1 hid)).2
    have hsub : List.range (id.index + 1) ⊆ g.nodeIds.map NodeId.index := by
      intro j hj
      rcases (Nat.lt_succ_iff.1 (List.mem_range.1 hj)).eq_or_lt with rfl | hlt
      · exact List.mem_map_of_mem hid
      · exact List.mem_map.2 ⟨⟨j, 0⟩, (mem_nodeIds_iff hroom).2 (hbelow j hlt), rfl⟩
    have hle := (List.nodup_range.subperm hsub).length_le
    rwa [List.length_range, Nat.succ_le_iff] at hle
  rw [List.length_map] at hindex
  calc g.nodeIds = g.nodeIds.map fun id => ⟨id.index, 0⟩ := by
        conv_lhs => rw [← List.map_id g.nodeIds]
        exact List.map_congr_left fun id hid =>
          NodeId.ext rfl (h id ((mem_nodeIds_iff hroom).1 hid)).1
    _ = (g.nodeIds.map NodeId.index).map fun i => ⟨i, 0⟩ := by rw [List.map_map]; rfl
    _ = (List.range g.nodeIds.length).map fun i => ⟨i, 0⟩ := by rw [hindex]

/-- Live nodes whose slots are among the first are all of the first occupants. -/
theorem unrecycled_of_lt (hroom : g.entries.length < u32Size)
    (h : ∀ id, g.isValid id = true → id.generation = 0 ∧ id.index < g.nodeIds.length) :
    g.Unrecycled := by
  have hindex : g.nodeIds.map NodeId.index = List.range (g.nodeIds.map NodeId.index).length := by
    refine eq_range_of_pairwise_lt (List.pairwise_map.2 (pairwise_nodeIds hroom)) fun i hi => ?_
    obtain ⟨id, hid, rfl⟩ := List.mem_map.1 hi
    rw [List.length_map]
    exact (h id ((mem_nodeIds_iff hroom).1 hid)).2
  rw [List.length_map] at hindex
  refine fun id hid => ⟨(h id hid).1, fun i hi => ?_⟩
  have hmem : i ∈ g.nodeIds.map NodeId.index := by
    rw [hindex]
    exact List.mem_range.2 (hi.trans (h id hid).2)
  obtain ⟨y, hy, rfl⟩ := List.mem_map.1 hmem
  have hvalid := (mem_nodeIds_iff hroom).1 hy
  rwa [show (⟨y.index, 0⟩ : NodeId) = y from NodeId.ext rfl (h y hvalid).1.symm]

/-! ### The arena of a copy -/

section Copy

variable [NodeBehavior F β] {fallback : β}

/-- The slot of the copy of a node. -/
def cloneSlot (fallback : β) (g : Graph F β) (id : NodeId) : Slot F β :=
  match g.get id with
  | none => .vacant 0
  | some entry => .live ⟨(cloneEntry fallback entry).1, (cloneEntry fallback entry).2, 0⟩

/-- Nodes that are added to a copy without free slots get the slots behind its last. -/
theorem copyNodes_eq (fallback : β) {ids : List NodeId} {s : CopyState F β}
    (hlive : ∀ id ∈ ids, g.isValid id = true) (hnodup : ids.Nodup)
    (hfree : s.graph.freeList = []) :
    ∃ created, g.copyNodes fallback ids s =
      .ok ⟨{ s.graph with entries := s.graph.entries ++ ids.map (g.cloneSlot fallback) },
        created⟩ ∧
      ∀ x, created x = if x ∈ ids then some ⟨(s.graph.entries.length + ids.idxOf x) % u32Size, 0⟩
        else s.created x := by
  induction ids generalizing s with
  | nil =>
    refine ⟨s.created, ?_, fun x => rfl⟩
    rw [copyNodes, List.map_nil, List.append_nil]
  | cons id ids ih =>
    obtain ⟨hid, hids⟩ := List.forall_mem_cons.1 hlive
    obtain ⟨hnotMem, hnodup⟩ := List.nodup_cons.1 hnodup
    obtain ⟨entry, hget⟩ := isValid_iff.1 hid
    rw [copyNodes, hget]
    dsimp only
    obtain ⟨created, hcopy, hcreated⟩ := ih
      (s := ⟨{ s.graph with
          entries := s.graph.entries ++
            [.live ⟨(cloneEntry fallback entry).1, (cloneEntry fallback entry).2, 0⟩] },
        Function.update s.created id (some ⟨s.graph.entries.length % u32Size, 0⟩)⟩)
      hids hnodup hfree
    refine ⟨created, ?_, fun x => ?_⟩
    · rw [addNode, allocate_append hfree, hcopy, List.map_cons, cloneSlot, hget, List.append_assoc]
      rfl
    · rw [hcreated]
      dsimp only
      rw [List.length_append, List.length_singleton]
      by_cases hx : x = id
      · rw [hx, if_neg hnotMem, Function.update_self, if_pos List.mem_cons_self,
          List.idxOf_cons_self, Nat.add_zero]
      · rw [Function.update_of_ne hx, List.idxOf_cons_ne _ (Ne.symm hx), Nat.succ_eq_one_add,
          ← Nat.add_assoc]
        simp only [List.mem_cons, hx, false_or]

theorem copyNodes_new (fallback : β) (hroom : g.entries.length < u32Size) :
    ∃ created, g.copyNodes fallback g.nodeIds ⟨.new, fun _ => none⟩ =
      .ok ⟨{ (new : Graph F β) with entries := g.nodeIds.map (g.cloneSlot fallback) }, created⟩ ∧
      ∀ x, created x =
        if g.isValid x = true then some ⟨g.nodeIds.idxOf x % u32Size, 0⟩ else none := by
  obtain ⟨created, hcopy, hcreated⟩ := copyNodes_eq fallback (s := ⟨.new, fun _ => none⟩)
    (fun id hid => (mem_nodeIds_iff hroom).1 hid)
    (nodup_nodeIds hroom) rfl
  refine ⟨created, hcopy, fun x => ?_⟩
  rw [hcreated]
  simp only [mem_nodeIds_iff hroom, new, List.length_nil, Nat.zero_add]

/-- The nodes of a copy: the first occupants of as many slots as there are live nodes. -/
theorem get_cloned (hroom : g.entries.length < u32Size) {g' : Graph F β}
    (hentries : g'.entries = g.nodeIds.map (g.cloneSlot fallback)) {e' : NodeEntry F β} :
    g'.get id = some e' ↔ ∃ x entry, g.nodeIds[id.index]? = some x ∧ g.get x = some entry ∧
      id.generation = 0 ∧
        e' = ⟨(cloneEntry fallback entry).1, (cloneEntry fallback entry).2, 0⟩ := by
  rw [get_eq_some_iff, hentries, List.getElem?_map]
  constructor
  · rintro ⟨-, hslot, hgen⟩
    obtain ⟨x, hx, hclone⟩ := Option.map_eq_some_iff.1 hslot
    obtain ⟨entry, hget⟩ := isValid_iff.1 ((mem_nodeIds_iff hroom).1 (List.mem_of_getElem? hx))
    rw [cloneSlot, hget] at hclone
    obtain rfl := Slot.live.inj hclone
    exact ⟨x, entry, hx, hget, hgen.symm, rfl⟩
  · rintro ⟨x, entry, hx, hget, hgen, rfl⟩
    have hlt : id.index < g.nodeIds.length := (List.getElem?_eq_some_iff.1 hx).1
    have hle := g.length_nodeIds_le
    have hbound : id.index < u32Size - 1 := by omega
    refine ⟨decide_eq_true hbound, ?_, hgen.symm⟩
    rw [hx, Option.map_some, cloneSlot, hget]

end Copy

/-! ### The edges of a copy -/

/-- Every edge has the name of an input, and names have their own keys. -/
structure Interned (g : Graph F β) : Prop where
  hash : ∀ key name, g.inputNames key = some name → hashStr name = key
  edges : ∀ e ∈ g.edges, (g.inputNames e.inputKey).isSome = true

/-- An input name that is interned has its own name, or the one that came first. -/
theorem inputNames_internInput (input : String) (key : ℕ) :
    (g.internInput input).inputNames key =
      if key = hashStr input then some ((g.inputNames key).getD input) else g.inputNames key := by
  rw [internInput]
  split
  · next name hname =>
    split_ifs with hkey
    · rw [hkey, hname, Option.getD_some]
    · rfl
  · next hname =>
    dsimp only
    rw [Function.update_apply]
    split_ifs with hkey
    · rw [hkey, hname, Option.getD_none]
    · rfl

namespace Interned

variable {g' : Graph F β}

section

variable (h : g.Interned)

include h

theorem of_edges (hnames : g'.inputNames = g.inputNames)
    (hedges : ∀ e ∈ g'.edges, ∃ e₀ ∈ g.edges, e₀.inputKey = e.inputKey) : g'.Interned where
  hash key name hname := h.hash key name (hnames ▸ hname)
  edges e he := by
    obtain ⟨e₀, he₀, hkey⟩ := hedges e he
    rw [hnames, ← hkey]
    exact h.edges e₀ he₀

theorem of_subset (hnames : g'.inputNames = g.inputNames) (hedges : ∀ e ∈ g'.edges, e ∈ g.edges) :
    g'.Interned :=
  h.of_edges hnames fun e he => ⟨e, hedges e he, rfl⟩

theorem allocate (core : NodeCore F) (behavior : β) : (g.allocate core behavior).1.Interned := by
  rw [Graph.allocate]
  split
  · exact h.of_subset rfl fun _ he => he
  · exact h.of_subset rfl fun _ he => he

theorem addEntry (entry : NodeEntry F β) (id : NodeId) : (g.addEntry entry id).1.Interned := by
  rw [Graph.addEntry]
  split
  · exact h.of_subset rfl fun _ he => he
  · exact h.allocate _ _

theorem takeNode {id : NodeId} {entry : NodeEntry F β} (htake : g.takeNode id = some (g', entry)) :
    g'.Interned := by
  obtain ⟨-, -, -, hedges, hnames, -⟩ := takeNode_spec htake
  exact h.of_subset hnames fun e he => (OrdSet.mem_filter.1 (hedges ▸ he)).1

theorem connect {source target : NodeId} {element : ℤ}
    (hconnect : g.connect source target input element = .ok g') : g'.Interned := by
  obtain ⟨-, -, -, -, -, -, -, -, -, -, rfl⟩ := connect_cases hconnect
  refine ⟨fun key name hname => ?_, fun e he => ?_⟩
  · rw [inputNames_internInput] at hname
    split_ifs at hname with hkey
    · rcases hold : g.inputNames key with _ | old
      · rw [hold, Option.getD_none] at hname
        rw [hkey, ← Option.some.inj hname]
      · rw [hold, Option.getD_some] at hname
        exact h.hash key name (hold.trans hname)
    · exact h.hash key name hname
  · rw [inputNames_internInput]
    split_ifs with hkey
    · rfl
    · rcases OrdSet.mem_insert.1 he with rfl | hold
      · exact absurd rfl hkey
      · exact h.edges e hold

theorem moveEdges {f : Edge → Option Edge} {moves : List Edge} (hmoves : ∀ e ∈ moves, e ∈ g.edges)
    (hf : ∀ e e', f e = some e' → e'.inputKey = e.inputKey) (hnames : g'.inputNames = g.inputNames)
    (hedges : g'.edges = Graph.moveEdges f moves g.edges) : g'.Interned := by
  refine h.of_edges hnames fun e he => ?_
  rw [hedges] at he
  rcases mem_moveEdges he with ⟨hold, -⟩ | ⟨e₀, he₀, hmoved⟩
  · exact ⟨e, hold, rfl⟩
  · exact ⟨e₀, hmoves e₀ he₀, (hf e₀ e hmoved).symm⟩

end

theorem mem_edges_of_elementsFrom (id : NodeId) (input : String) (index : ℤ) :
    ∀ e ∈ g.elementsFrom id input index, e ∈ g.edges :=
  fun e he => ((Sound.mem_elementsFrom e).1 he).1

theorem inputArrayInsert (h : g.Interned) {index : ℤ}
    (hinsert : g.inputArrayInsert id input index = .ok g') : g'.Interned := by
  obtain ⟨entry, -, -, rfl⟩ := inputArrayInsert_cases hinsert
  refine h.moveEdges (f := fun e => some { e with element := toI32 (e.element + 1) })
    (mem_edges_of_elementsFrom id input index) (fun e e' he' => ?_) rfl rfl
  rw [← Option.some.inj he']

theorem inputArrayRemove (h : g.Interned) {index : ℤ}
    (hremove : g.inputArrayRemove id input index = .ok g') : g'.Interned := by
  obtain ⟨entry, -, -, rfl⟩ := inputArrayRemove_cases hremove
  refine h.moveEdges (mem_edges_of_elementsFrom id input index) (fun e e' he' => ?_) rfl rfl
  split_ifs at he'
  rw [← Option.some.inj he']

theorem copyDependencyGraph [NodeBehavior F β] (fuel : ℕ) (node : NodeId) {s : CopyState F β}
    (h : s.graph.Interned) : (Graph.copyDependencyGraph fuel node s).2.graph.Interned :=
  copyDependencyGraph_induction (E := fun _ => True) (fun _ _ _ _ h => h.allocate _ _)
    (fun _ _ _ _ _ => trivial) (fun _ _ _ _ _ _ _ h hconnect => h.connect hconnect) fuel node h

end Interned

/-- The input that an edge is recorded for takes it. -/
def Reconnects (g : Graph F β) (e : Edge) : Prop :=
  ∃ entry input, g.get e.target = some entry ∧
    entry.core.getInput (g.inputName e.inputKey) = some input ∧ input.isConnectable = true ∧
      (input.isArray = true ∨ e.element = -1)

/-- An edge as it is copied. -/
def named (g : Graph F β) (e : Edge) : NodeId × NodeId × String × ℤ :=
  (e.source, e.target, g.inputName e.inputKey, e.element)

@[simp] theorem entries_reconnect (es : List (NodeId × NodeId × String × ℤ)) :
    (g.reconnect es).entries = g.entries := by
  induction es generalizing g with
  | nil => rfl
  | cons e es ih =>
    obtain ⟨source, target, input, element⟩ := e
    rw [reconnect]
    split
    · next g' hconnect => exact ih.trans (connect_spec hconnect).1
    · exact ih

/-- A copy in the course of its connections. -/
structure Reconnecting (g h : Graph F β) : Prop where
  /-- The nodes have the inputs of the originals. -/
  node : ∀ id, (h.get id).map NodeEntry.core = (g.get id).map NodeEntry.core
  edges : ∀ e ∈ h.edges, e ∈ g.edges
  names : ∀ key input, h.inputNames key = some input → g.inputNames key = some input
  interned : ∀ e ∈ h.edges, (h.inputNames e.inputKey).isSome = true

namespace Reconnecting

variable {h : Graph F β} {carried : List (NodeId × NodeId)} {e : Edge}

/-- An edge that is not there yet is connected exactly when its input takes it. -/
theorem connect (hr : Reconnecting g h) (hsound : g.Sound carried) (hinterned : g.Interned)
    (he : e ∈ g.edges) (hnew : e ∉ h.edges) :
    (g.Reconnects e → ∃ h', h.connect e.source e.target (g.inputName e.inputKey) e.element =
        .ok h' ∧ Reconnecting g h' ∧ h'.entries = h.entries ∧ h'.edges = h.edges.insert e) ∧
      (¬ g.Reconnects e → ∃ error,
        h.connect e.source e.target (g.inputName e.inputKey) e.element = .error error) := by
  obtain ⟨input, hinput⟩ := Option.isSome_iff_exists.1 (hinterned.edges e he)
  have hkey := hinterned.hash e.inputKey input hinput
  obtain ⟨⟨source, hsource⟩, ⟨target, htarget⟩⟩ :=
    (hsound.edges.ends e he).imp isValid_iff.1 isValid_iff.1
  have hname : g.inputName e.inputKey = input := by rw [inputName, hinput, Option.getD_some]
  have hcore {id : NodeId} {entry : NodeEntry F β} (hget : g.get id = some entry) :
      ∃ entry', h.get id = some entry' ∧ entry'.core = entry.core := by
    have hnode := hr.node id
    rw [hget, Option.map_some] at hnode
    exact Option.map_eq_some_iff.1 hnode
  obtain ⟨source', hsource', -⟩ := hcore hsource
  obtain ⟨target', htarget', hsame⟩ := hcore htarget
  have hacyclic : e.source ≠ e.target := fun heq =>
    hsound.edges.acyclic e.source (.single ⟨e, he, rfl, heq.symm⟩)
  have hfree : (h.connectedOutput e.target input e.element).isSome = false := by
    rw [connectedOutput, Option.isSome_map, Option.isSome_eq_false_iff, Option.isNone_iff_eq_none,
      List.find?_eq_none]
    intro e' he' hsame'
    simp only [Bool.and_eq_true, decide_eq_true_eq, hkey] at hsame'
    obtain ⟨⟨htarget, hkey⟩, helement⟩ := hsame'
    exact hnew (hsound.edges.single e' (hr.edges e' he') e he htarget hkey helement ▸ he')
  have hreach : h.reaches e.target e.source = false := by
    by_contra hreaches
    have hpath := (search_eq_true_iff (by omega)).1 (Bool.not_eq_false _ ▸ hreaches)
    have hback : ReflTransGen (Feeds g.edges) e.target e.source :=
      ReflTransGen.mono (fun a b hfeeds => by
        obtain ⟨e', he', hab⟩ := hfeeds
        exact ⟨e', hr.edges e' he', hab⟩) _ _ hpath
    exact hsound.edges.acyclic e.source (.head' ⟨e, he, rfl, rfl⟩ hback)
  rw [hname, Graph.connect, hsource', htarget']
  dsimp only
  rw [hsame, if_neg hacyclic, if_neg (by simp [hfree]), if_neg (by simp [hreach]), hkey]
  constructor
  · rintro ⟨entry, i, hget, hi, hconnectable, harray⟩
    obtain rfl := Option.some.inj (htarget.symm.trans hget)
    rw [hname] at hi
    rw [hi]
    dsimp only
    rw [if_neg (by simp [hconnectable]), if_neg (by rcases harray with ha | ha <;> simp [ha])]
    have hentries : (h.internInput input).entries = h.entries := entries_internInput
    refine ⟨_, rfl, ⟨fun id => ?_, fun e' he' => ?_, fun key name hkey' => ?_, fun e' he' => ?_⟩,
      hentries, rfl⟩
    · rw [← hr.node id]
      exact congrArg _ (get_congr (congrArg (fun l => l[id.index]?) hentries))
    · rcases OrdSet.mem_insert.1 he' with rfl | he'
      · exact he
      · exact hr.edges e' he'
    · rw [inputNames_internInput] at hkey'
      split_ifs at hkey' with hsame
      · rcases hold : h.inputNames key with _ | old
        · rw [hold, Option.getD_none] at hkey'
          rw [hsame, hkey, hinput, hkey']
        · rw [hold, Option.getD_some] at hkey'
          exact hkey' ▸ hr.names key old hold
      · exact hr.names key name hkey'
    · rw [inputNames_internInput]
      split_ifs with hsame
      · rfl
      · rcases OrdSet.mem_insert.1 he' with rfl | he'
        · exact absurd hkey.symm hsame
        · exact hr.interned e' he'
  · intro hnot
    rcases hi : target.core.getInput input with _ | i
    · exact ⟨.notFound, rfl⟩
    dsimp only
    by_cases hconnectable : i.isConnectable = false
    · rw [if_pos hconnectable]
      exact ⟨.invalid, rfl⟩
    rw [if_neg hconnectable]
    by_cases harray : (i.isArray = false && e.element ≠ -1) = true
    · rw [if_pos harray]
      exact ⟨.invalid, rfl⟩
    · refine absurd ⟨target, i, htarget, hname ▸ hi, by simpa using hconnectable, ?_⟩ hnot
      by_contra hneither
      rw [not_or] at hneither
      exact harray (by simp [hneither.1, hneither.2])

/-- The edges that are connected again are the ones that are there at the end. -/
theorem reconnect (hsound : g.Sound carried) (hinterned : g.Interned) {es : List Edge}
    (hes : ∀ e ∈ es, e ∈ g.edges) (hnodup : es.Nodup) (hnew : ∀ e ∈ es, e ∉ h.edges)
    (hr : Reconnecting g h) :
    Reconnecting g (h.reconnect (es.map g.named)) ∧
      (h.reconnect (es.map g.named)).entries = h.entries ∧
      ∀ e, e ∈ (h.reconnect (es.map g.named)).edges ↔ e ∈ h.edges ∨ e ∈ es ∧ g.Reconnects e := by
  induction es generalizing h with
  | nil => exact ⟨hr, rfl, by simp [Graph.reconnect]⟩
  | cons e es ih =>
    obtain ⟨he, hes⟩ := List.forall_mem_cons.1 hes
    obtain ⟨hnotMem, hnodup⟩ := List.nodup_cons.1 hnodup
    obtain ⟨hfresh, hnew⟩ := List.forall_mem_cons.1 hnew
    obtain ⟨hconnect, hrefuse⟩ := hr.connect hsound hinterned he hfresh
    rw [List.map_cons, named, Graph.reconnect]
    by_cases hreconnects : g.Reconnects e
    · obtain ⟨h', hok, hr', hentries, hedges⟩ := hconnect hreconnects
      rw [hok]
      dsimp only
      have hnew' : ∀ e' ∈ es, e' ∉ h'.edges := by
        intro e' he' hmem
        rw [hedges] at hmem
        rcases OrdSet.mem_insert.1 hmem with rfl | hmem
        · exact hnotMem he'
        · exact hnew e' he' hmem
      obtain ⟨hr'', hentries', hmem⟩ := ih hes hnodup hnew' hr'
      refine ⟨hr'', hentries'.trans hentries, fun e' => ?_⟩
      rw [hmem, hedges, OrdSet.mem_insert, List.mem_cons]
      constructor
      · rintro ((rfl | hold) | ⟨hrest, htakes⟩)
        · exact .inr ⟨.inl rfl, hreconnects⟩
        · exact .inl hold
        · exact .inr ⟨.inr hrest, htakes⟩
      · rintro (hold | ⟨rfl | hrest, htakes⟩)
        · exact .inl (.inr hold)
        · exact .inl (.inl rfl)
        · exact .inr ⟨hrest, htakes⟩
    · obtain ⟨error, herror⟩ := hrefuse hreconnects
      rw [herror]
      dsimp only
      obtain ⟨hr', hentries, hmem⟩ := ih hes hnodup hnew hr
      refine ⟨hr', hentries, fun e' => ?_⟩
      rw [hmem, List.mem_cons]
      constructor
      · rintro (hold | ⟨hrest, htakes⟩)
        · exact .inl hold
        · exact .inr ⟨.inr hrest, htakes⟩
      · rintro (hold | ⟨rfl | hrest, htakes⟩)
        · exact .inl hold
        · exact absurd htakes hreconnects
        · exact .inr ⟨hrest, htakes⟩

/-- An edge of the copy has the name that the original has for it. -/
theorem inputName_eq (hr : Reconnecting g h) (he : e ∈ h.edges) :
    h.inputName e.inputKey = g.inputName e.inputKey := by
  obtain ⟨input, hinput⟩ := Option.isSome_iff_exists.1 (hr.interned e he)
  rw [inputName, inputName, hinput, hr.names e.inputKey input hinput]

end Reconnecting

end Graph

open Graph

theorem GraphRun.interned_run [NodeBehavior F β] {as : List (GraphAction F β)}
    (has : Permitted act InRange start as) :
    (run act (start : GraphRun F β) as).graph.Interned := by
  have hstep (r : GraphRun F β) (a : GraphAction F β) (h : r.graph.Interned) :
      (r.act a).graph.Interned := by
    have hleave (id : NodeId) (result : Option (Graph F β))
        (hresult : ∀ g, result = some g → g.Interned) : (r.leave id result).graph.Interned := by
      cases result with
      | none => exact h
      | some g => exact hresult g rfl
    have hattempt (result : Except Error (Graph F β))
        (hresult : ∀ g, result = .ok g → g.Interned) : (r.attempt result).graph.Interned := by
      cases result with
      | error e => exact h
      | ok g => exact hresult g rfl
    have htake (id : NodeId) (g : Graph F β) (hg : (r.graph.takeNode id).map Prod.fst = some g) :
        g.Interned := by
      obtain ⟨⟨g', entry⟩, htake, rfl⟩ := Option.map_eq_some_iff.1 hg
      exact h.takeNode htake
    cases a with
    | addNode core behavior => exact h.allocate core behavior
    | addEntry entry id => exact h.addEntry entry id
    | takeNode id => exact hleave id _ (htake id)
    | removeNode id =>
      refine hleave id _ fun g hg => ?_
      obtain ⟨⟨g', b⟩, hremove, rfl⟩ := Option.map_eq_some_iff.1 hg
      obtain ⟨entry, htake⟩ := takeNode_of_removeNode hremove
      exact h.takeNode htake
    | connect source target input element => exact hattempt _ fun g hg => h.connect hg
    | disconnect source target input element =>
      exact h.of_subset rfl fun e he => (OrdSet.mem_erase.1 he).1
    | disconnectInput target input element =>
      rw [act, disconnectInput]
      split
      · exact h
      · exact h.of_subset rfl fun e he => (OrdSet.mem_erase.1 he).1
    | inputArrayInsert id input index => exact hattempt _ fun g hg => h.inputArrayInsert hg
    | inputArrayRemove id input index => exact hattempt _ fun g hg => h.inputArrayRemove hg
    | link a b =>
      rw [act, link]
      dsimp only
      split_ifs <;> exact h.of_subset rfl fun _ he => he
    | unlink a b =>
      rw [act, unlink]
      split_ifs <;> exact h.of_subset rfl fun _ he => he
    | copyNodeAndDependencyGraphMinusItems root => exact h.copyDependencyGraph _ root
  have hstart : (start : GraphRun F β).graph.Interned :=
    ⟨fun _ _ hname => absurd hname (by simp [start, new]),
      fun e he => absurd he (OrdSet.notMem_empty e)⟩
  exact invariant_run (I := fun r : GraphRun F β => r.graph.Interned)
    (fun r a h _ => hstep r a h) hstart has

/-! ### Deep copies -/

section DeepCopy

variable [ClipSpeed F] [NodeBehavior F β] (references : β → List NodeId)

/-- Nodes of the same kind that refer to the same nodes. -/
def Behavior.SameAs : Behavior F β → Behavior F β → Prop
  | .other b, .other b' =>
    typeId b' = typeId b ∧ references b' = references b
  | b, b' => b' = b

/-- What a copy keeps of a behavior: neither the track lists of a sequence nor the children of a
folder are duplicated. -/
def Behavior.Keeps (core : NodeCore F) : Behavior F β → Prop
  | .sequence b => b.trackLists = []
  | .folder b => b.children = []
  | .other b => ∃ b', duplicate b core = some b' ∧
      typeId b' = typeId b ∧ references b' = references b
  | _ => True

/-- `g'` has the nodes of `g` under the same ids, with what they are made of, and their edges. -/
structure IsDeepCopy (g g' : Graph F (Behavior F β)) : Prop where
  live : ∀ id, g'.isValid id = g.isValid id
  node : ∀ id e, g.get id = some e → ∃ e', g'.get id = some e' ∧ e'.core = e.core ∧
    e.behavior.SameAs references e'.behavior
  edges : g'.edges = g.edges
  names : ∀ e ∈ g.edges, g'.inputName e.inputKey = g.inputName e.inputKey

variable {references} {empty : β} {p : Project F β} {g g' : Graph F (Behavior F β)}
  {carried : List (NodeId × NodeId)}

/-- A clone is the same when its behavior is kept. A behavior that cannot be duplicated is of
another kind than the one it is replaced by. -/
theorem Behavior.sameAs_clone_iff
    (hempty : ∀ (b : β) core, duplicate b core = none →
      typeId b ≠ typeId empty)
    (entry : NodeEntry F (Behavior F β)) :
    entry.behavior.SameAs references (cloneEntry (.other empty) entry).2 ↔
      entry.behavior.Keeps references entry.core := by
  obtain ⟨core, behavior, generation⟩ := entry
  cases behavior with
  | sequence b =>
    simp only [cloneEntry, duplicate, SameAs, Keeps, Option.getD_some,
      sequence.injEq]
    exact ⟨fun h => h ▸ rfl, fun h => by rw [← h]⟩
  | folder b =>
    simp only [cloneEntry, duplicate, SameAs, Keeps, Option.getD_some,
      folder.injEq]
    exact ⟨fun h => h ▸ rfl, fun h => by rw [← h]⟩
  | other b =>
    simp only [cloneEntry, duplicate, Keeps]
    rcases hduplicate : duplicate b core with _ | b'
    · simp only [Option.map_none, Option.getD_none, SameAs, reduceCtorEq, false_and, exists_false,
        iff_false]
      exact fun hsame => hempty b core hduplicate hsame.1.symm
    · simp [SameAs]
  | _ => exact iff_of_true rfl trivial

/-- A node of a copy is the clone of a node, under the place of that one among the live nodes. -/
theorem unrecycled_of_live (hroom : g.entries.length < u32Size)
    (hentries : g'.entries = g.nodeIds.map (g.cloneSlot (.other empty)))
    (hlive : ∀ id, g'.isValid id = g.isValid id) : g.Unrecycled := by
  refine unrecycled_of_lt hroom fun id hid => ?_
  obtain ⟨e', he'⟩ := isValid_iff.1 ((hlive id).trans hid)
  obtain ⟨x, entry, hx, -, hgen, -⟩ := (get_cloned hroom hentries).1 he'
  exact ⟨hgen, (List.getElem?_eq_some_iff.1 hx).1⟩

section

variable (h : g.Unrecycled) (hroom : g.entries.length < u32Size)

include h hroom

theorem get_cloned_of_unrecycled
    (hentries : g'.entries = g.nodeIds.map (g.cloneSlot (.other empty))) (id : NodeId) :
    g'.get id = (g.get id).map fun entry => ⟨(cloneEntry (.other empty) entry).1,
      (cloneEntry (.other empty) entry).2, 0⟩ := by
  have hids := h.nodeIds_eq hroom
  rcases hget : g.get id with _ | entry
  · rw [Option.map_none, Option.eq_none_iff_forall_ne_some]
    intro e' he'
    obtain ⟨x, entry, hx, hentry, hgen, -⟩ := (get_cloned hroom hentries).1 he'
    rw [hids, List.getElem?_map] at hx
    obtain ⟨i, hi, rfl⟩ := Option.map_eq_some_iff.1 hx
    obtain ⟨hlt, hi⟩ := List.getElem?_eq_some_iff.1 hi
    rw [List.getElem_range] at hi
    rw [← hi, show (⟨id.index, 0⟩ : NodeId) = id from NodeId.ext rfl hgen.symm, hget] at hentry
    exact absurd hentry (by simp)
  · rw [Option.map_some, get_cloned hroom hentries]
    have hvalid := isValid_of_get hget
    refine ⟨id, entry, ?_, hget, (h id hvalid).1, rfl⟩
    have hmem := mem_nodeIds hvalid
    rw [hids] at hmem ⊢
    obtain ⟨i, hi, rfl⟩ := List.mem_map.1 hmem
    rw [List.getElem?_map, List.getElem?_range (List.mem_range.1 hi), Option.map_some]

omit [ClipSpeed F] [NodeBehavior F β] in
/-- Without recycled slots, the id that is recorded for a copy is the one of the original. -/
theorem created_of_unrecycled
    {created : NodeId → Option NodeId}
    (hcreated : ∀ x, created x =
      if g.isValid x = true then some ⟨g.nodeIds.idxOf x % u32Size, 0⟩ else none)
    (hid : g.isValid id = true) : created id = some id := by
  have hids := h.nodeIds_eq hroom
  have hle := g.length_nodeIds_le
  have hmem := mem_nodeIds hid
  have hnodup := nodup_nodeIds hroom
  obtain ⟨i, hi, rfl⟩ := List.getElem_of_mem hmem
  rw [hcreated, if_pos hid, hnodup.idxOf_getElem, Nat.mod_eq_of_lt (by omega)]
  refine congrArg some (Eq.symm ?_)
  have hget : g.nodeIds[i]? = ((List.range g.nodeIds.length).map fun i => ⟨i, 0⟩)[i]? :=
    congrArg (fun l => l[i]?) hids
  rw [List.getElem?_eq_getElem hi, List.getElem?_map, List.getElem?_range hi,
    Option.map_some] at hget
  exact Option.some.inj hget

/-- Without recycled slots, the nodes of a copy take the connections of the originals. -/
theorem reconnecting_of_unrecycled
    (hentries : g'.entries = g.nodeIds.map (g.cloneSlot (.other empty))) (hedges : g'.edges = ∅)
    (hnames : ∀ key, g'.inputNames key = none) : Graph.Reconnecting g g' where
  node id := by
    rw [get_cloned_of_unrecycled h hroom hentries, Option.map_map]
    rfl
  edges e he := absurd (hedges ▸ he) (OrdSet.notMem_empty e)
  names key input hinput := absurd ((hnames key).symm.trans hinput) (by simp)
  interned e he := absurd (hedges ▸ he) (OrdSet.notMem_empty e)

end

/-- A deep copy has a clone of every node, and without recycled slots the edges that their inputs
take. -/
theorem exists_deepCopy (empty : β) (hroom : p.graph.entries.length < u32Size) :
    ∃ q, p.deepCopy empty = .ok q ∧
      q.graph.entries = p.graph.nodeIds.map (p.graph.cloneSlot (.other empty)) ∧
      (p.graph.Unrecycled → p.graph.Sound carried → p.graph.Interned →
        Graph.Reconnecting p.graph q.graph ∧
          ∀ e, e ∈ q.graph.edges ↔ e ∈ p.graph.edges ∧ p.graph.Reconnects e) := by
  obtain ⟨created, hcopy, hcreated⟩ := copyNodes_new (.other empty) hroom
  rw [Project.deepCopy, hcopy]
  refine ⟨_, rfl, entries_reconnect _, fun hrecycled hsound hinterned => ?_⟩
  have hnamed : (p.graph.outputConnectionsAll.map fun e =>
      ((created e.1).getD e.1, (created e.2.1).getD e.2.1, e.2.2)) =
        p.graph.edges.toList.map p.graph.named := by
    rw [outputConnectionsAll, List.map_map]
    refine List.map_congr_left fun e he => ?_
    obtain ⟨hsource, htarget⟩ := hsound.edges.ends e he
    simp only [Function.comp_apply, created_of_unrecycled hrecycled hroom hcreated hsource,
      created_of_unrecycled hrecycled hroom hcreated htarget, Option.getD_some, named]
  have hstart : Graph.Reconnecting p.graph { (new : Graph F (Behavior F β)) with
      entries := p.graph.nodeIds.map (p.graph.cloneSlot (.other empty)) } :=
    reconnecting_of_unrecycled hrecycled hroom rfl rfl fun _ => rfl
  obtain ⟨hdone, -, hmem⟩ := hstart.reconnect hsound hinterned (fun e he => he)
    (p.graph.edges.sorted.imp fun hlt => hlt.ne) fun e _ => OrdSet.notMem_empty e
  rw [hnamed]
  refine ⟨hdone, fun e => ?_⟩
  rw [hmem]
  exact ⟨fun hor => hor.resolve_left (OrdSet.notMem_empty e), .inr⟩

/-- Exactly when a deep copy is an isomorphism that keeps the ids. -/
theorem isDeepCopy_iff (hsound : p.graph.Sound carried) (hinterned : p.graph.Interned)
    (hroom : p.graph.entries.length < u32Size)
    (hempty : ∀ (b : β) core, NodeBehavior.duplicate b core = none →
      NodeBehavior.typeId b ≠ NodeBehavior.typeId empty) :
    (∃ q, p.deepCopy empty = .ok q ∧ IsDeepCopy references p.graph q.graph) ↔
      p.graph.Unrecycled ∧
        (∀ id entry, p.graph.get id = some entry → entry.behavior.Keeps references entry.core) ∧
        ∀ e ∈ p.graph.edges, p.graph.Reconnects e := by
  obtain ⟨q, hcopy, hentries, hconnected⟩ := exists_deepCopy empty hroom
  constructor
  · rintro ⟨q', hcopy', hisCopy⟩
    obtain rfl := Except.ok.inj (hcopy.symm.trans hcopy')
    have hrecycled := unrecycled_of_live hroom hentries hisCopy.live
    obtain ⟨-, hedges⟩ := hconnected hrecycled hsound hinterned
    refine ⟨hrecycled, fun id entry hentry => ?_, fun e he => ?_⟩
    · obtain ⟨e', he', -, hsame⟩ := hisCopy.node id entry hentry
      rw [get_cloned_of_unrecycled hrecycled hroom hentries, hentry, Option.map_some] at he'
      rw [← Option.some.inj he'] at hsame
      exact (Behavior.sameAs_clone_iff hempty entry).1 hsame
    · exact ((hedges e).1 (hisCopy.edges ▸ he)).2
  · rintro ⟨hrecycled, hkeeps, hreconnects⟩
    obtain ⟨hdone, hedges⟩ := hconnected hrecycled hsound hinterned
    have hget := get_cloned_of_unrecycled hrecycled hroom hentries
    have hall : q.graph.edges = p.graph.edges :=
      OrdSet.ext_mem fun e => ⟨fun he => ((hedges e).1 he).1,
        fun he => (hedges e).2 ⟨he, hreconnects e he⟩⟩
    refine ⟨q, hcopy, fun id => ?_, fun id entry hentry => ?_, hall, fun e he => ?_⟩
    · rw [Graph.isValid, Graph.isValid, hget, Option.isSome_map]
    · have hclone := (hget id).trans (congrArg _ hentry)
      exact ⟨_, hclone, rfl, (Behavior.sameAs_clone_iff hempty entry).2 (hkeeps id entry hentry)⟩
    · exact hdone.inputName_eq (hall.symm ▸ he)

end DeepCopy

/-! ### Two projects -/

/-- The project of a run. -/
def projectOf (as : List (GraphAction ℚ (Behavior ℚ Plain))) : Project ℚ Plain :=
  { (Project.new "" : Project ℚ Plain) with graph := (run GraphRun.act GraphRun.start as).graph }

/-- A node with an output feeds a clip. -/
def fedClip : List (GraphAction ℚ (Behavior ℚ Plain)) :=
  [.addNode .new (.other .plain),
    .addNode (NodeCore.new.addInput (.new ClipInput.textureInput .texture .none))
      (.clip ⟨.default, none⟩),
    .connect ⟨0, 0⟩ ⟨1, 0⟩ ClipInput.textureInput (-1)]

theorem isDeepCopy_fedClip : ∃ q, (projectOf fedClip).deepCopy .plain = .ok q ∧
    IsDeepCopy (fun _ => []) (projectOf fedClip).graph q.graph := by
  have has : Permitted GraphRun.act GraphRun.InRange GraphRun.start fedClip :=
    ⟨trivial, trivial, ⟨by decide, by decide⟩, trivial⟩
  refine (isDeepCopy_iff (p := projectOf fedClip) (GraphRun.sound_run has)
    (GraphRun.interned_run has) (by decide)
    fun b _ hnone => absurd hnone (by simp [NodeBehavior.duplicate])).2 ?_
  have hids (id : NodeId) (hid : (projectOf fedClip).graph.isValid id = true) :
      id = ⟨0, 0⟩ ∨ id = ⟨1, 0⟩ := by
    have hmem := Graph.mem_nodeIds hid
    rw [show (projectOf fedClip).graph.nodeIds = [⟨0, 0⟩, ⟨1, 0⟩] by decide] at hmem
    simpa using hmem
  refine ⟨fun id hid => ?_, fun id entry hentry => ?_, fun e he => ?_⟩
  · rcases hids id hid with rfl | rfl
    · exact ⟨rfl, fun i hi => absurd hi (Nat.not_lt_zero i)⟩
    · refine ⟨rfl, fun i hi => ?_⟩
      obtain rfl : i = 0 := Nat.lt_one_iff.1 hi
      decide
  · rcases hids id (Graph.isValid_of_get hentry) with rfl | rfl
    · obtain rfl := Option.some.inj (hentry.symm.trans rfl)
      exact ⟨.plain, rfl, rfl, rfl⟩
    · obtain rfl := Option.some.inj (hentry.symm.trans rfl)
      trivial
  · have hedge : (projectOf fedClip).graph.edges.toList =
        [⟨⟨0, 0⟩, ⟨1, 0⟩, hashStr ClipInput.textureInput, -1⟩] := by decide
    have hmem : e ∈ (projectOf fedClip).graph.edges.toList := he
    rw [hedge] at hmem
    obtain rfl := List.mem_singleton.1 hmem
    refine ⟨_, .new ClipInput.textureInput .texture .none, rfl, ?_, rfl, .inr rfl⟩
    decide

/-- A node in front of another one is removed. -/
def vacated : List (GraphAction ℚ (Behavior ℚ Plain)) :=
  [.addNode .new (.other .plain), .addNode .new (.other .plain), .takeNode ⟨0, 0⟩]

/-- The remaining node is not found in the copy under its id. -/
theorem vacated_renumbers : ¬ ∀ as, Permitted GraphRun.act GraphRun.InRange GraphRun.start as →
    ∃ q, (projectOf as).deepCopy .plain = .ok q ∧
      IsDeepCopy (fun _ => []) (projectOf as).graph q.graph := by
  intro h
  obtain ⟨q, hcopy, hisCopy⟩ := h vacated ⟨trivial, trivial, trivial, trivial⟩
  have hlive := hisCopy.live ⟨1, 0⟩
  have hstale : ((projectOf vacated).deepCopy .plain).toOption.map
      (fun q => q.graph.isValid ⟨1, 0⟩) = some false := by decide
  rw [hcopy] at hstale
  have hgone : q.graph.isValid ⟨1, 0⟩ = false := Option.some.inj hstale
  rw [hgone] at hlive
  exact absurd hlive (by decide)

end Oak.Node
