import Oak.Timeline.Util
import Oak.Undo.Command

/-!
# Removing nodes

`oak-timeline/src/undocommon.rs`: the command that takes a node out of the graph and puts it back.

## Main results

* `removeAll_spec`: removing several nodes.
* `restoreAll_spec`: putting them back, into the slots that they left, restores them. The edges
  they had are not restored.
-/

namespace Oak.Timeline

open Oak.Core Oak.Node Oak.Undo

variable {F β : Type*}

/-- `RemoveNodeCommand`. -/
structure RemoveNodeCommand (F β : Type*) where
  node : NodeId
  /-- The entry of the node while it is detached. -/
  entry : Option (NodeEntry F (Behavior F β))

instance : Command (RemoveNodeCommand F β) (ProjectGraph F β) where
  redo c g :=
    match c.entry with
    | some _ => (c, g)
    | none =>
      ({ c with entry := (blockRemoveFromGraph g c.node).1 }, (blockRemoveFromGraph g c.node).2)
  undo c g := ({ c with entry := none }, blockAddToGraph g c.node c.entry)

/-- `node_can_be_removed`: the node feeds no input. -/
def nodeCanBeRemoved (g : ProjectGraph F β) (node : NodeId) : Bool :=
  (g.outputConnections node).isEmpty

/-- `create_remove_command`. -/
def createRemoveCommand (node : NodeId) : UndoCommand (RemoveNodeCommand F β) := .new ⟨node, none⟩

/-- The command after it has removed its node. -/
def removed (p : NodeId × NodeEntry F (Behavior F β)) : UndoCommand (RemoveNodeCommand F β) :=
  .plain ⟨p.1, some p.2⟩ { Flags.fresh with done := true }

variable {g h : ProjectGraph F β} {id : NodeId} {ids : List NodeId}

theorem nodeCanBeRemoved_iff :
    nodeCanBeRemoved g id = true ↔ ∀ e ∈ g.edges, e.source ≠ id := by
  simp only [nodeCanBeRemoved, Graph.outputConnections, List.isEmpty_iff, List.map_eq_nil_iff,
    List.filter_eq_nil_iff, decide_eq_true_eq]
  rfl

theorem redoNow_createRemoveCommand {g' : ProjectGraph F β} {entry : NodeEntry F (Behavior F β)}
    (htake : g.takeNode id = some (g', entry)) :
    UndoCommand.redoNow (createRemoveCommand id) g = (removed (id, entry), g') := by
  simp only [createRemoveCommand, UndoCommand.new, UndoCommand.redoNow, Flags.fresh, Command.redo,
    blockRemoveFromGraph, htake]
  rfl

theorem undoNow_removed (p : NodeId × NodeEntry F (Behavior F β)) :
    UndoCommand.undoNow (removed p) h = (createRemoveCommand p.1, (h.addEntry p.2 p.1).1) := rfl

/-- What is left in a graph from which nodes were taken out. -/
structure Without (g g' : ProjectGraph F β) (ids : List NodeId) : Prop where
  behaviorOf : ∀ y, g'.behaviorOf y = if y ∈ ids then none else g.behaviorOf y
  edges : ∀ e, e ∈ g'.edges ↔ e ∈ g.edges ∧ e.source ∉ ids ∧ e.target ∉ ids
  vacant : ∀ y ∈ ids, ∃ n, g'.entries[y.index]? = some (.vacant n)
  kept : ∀ (i n : ℕ), g.entries[i]? = some (.vacant n) → ∃ m, g'.entries[i]? = some (.vacant m)

/-- The entries of nodes, as they were taken out of `g`. -/
def EntriesOf (g : ProjectGraph F β) (ids : List NodeId)
    (ps : List (NodeId × NodeEntry F (Behavior F β))) : Prop :=
  ps.map Prod.fst = ids ∧ ∀ p ∈ ps, g.behaviorOf p.1 = some p.2.behavior ∧ p.1.valid = true ∧
    p.2.generation = p.1.generation

theorem isValid_congr_index {x y : NodeId} (hx : g.isValid x = true) (hy : g.isValid y = true)
    (hindex : x.index = y.index) : x = y := by
  obtain ⟨e, he⟩ := Graph.isValid_iff.1 hx
  obtain ⟨e', he'⟩ := Graph.isValid_iff.1 hy
  exact Graph.eq_of_index_eq he he' hindex

/-- Removing several nodes. -/
theorem removeAll_spec (hlive : ∀ id ∈ ids, g.isValid id = true) (hnodup : ids.Nodup) :
    ∃ ps g', UndoCommand.redoAll (ids.map createRemoveCommand) g = (ps.map removed, g') ∧
      Without g g' ids ∧ EntriesOf g ids ps := by
  induction ids generalizing g with
  | nil => exact ⟨[], g, rfl, ⟨by simp, by simp, by simp, fun i n hi => ⟨n, hi⟩⟩, rfl, by simp⟩
  | cons id ids ih =>
    obtain ⟨hid, hids⟩ := List.forall_mem_cons.1 hlive
    obtain ⟨hnotMem, hnodup⟩ := List.nodup_cons.1 hnodup
    obtain ⟨⟨g₁, entry⟩, htake⟩ : ∃ t, g.takeNode id = some t := by
      rw [← Option.isSome_iff_exists, Graph.takeNode_isSome_iff, hid]
    obtain ⟨hget, -, -, hedges, -, -⟩ := Graph.takeNode_spec htake
    obtain ⟨hvalid, -, hgen⟩ := Graph.get_eq_some_iff.1 hget
    have hne {y : NodeId} (hy : y ∈ ids) : y ≠ id := fun heq => hnotMem (heq ▸ hy)
    have hother {y : NodeId} (hy : y ∈ ids) : g₁.behaviorOf y = g.behaviorOf y := by
      rw [Graph.behaviorOf_takeNode htake, if_neg (hne hy)]
    obtain ⟨ps, g', hredo, ⟨hbehavior, hedges', hvacant, hkept⟩, hps, hentries⟩ := ih
      (fun y hy => by
        rw [Graph.isValid_eq_isSome_behaviorOf, hother hy, ← Graph.isValid_eq_isSome_behaviorOf]
        exact hids y hy) hnodup
    refine ⟨(id, entry) :: ps, g', ?_, ⟨fun y => ?_, fun e => ?_, fun y hy => ?_, fun i n hi => ?_⟩,
      ?_, ?_⟩
    · rw [List.map_cons, UndoCommand.redoAll, redoNow_createRemoveCommand htake, hredo]
      rfl
    · rw [hbehavior, Graph.behaviorOf_takeNode htake]
      by_cases hy : y = id
      · simp [hy]
      · simp [hy]
    · rw [hedges', hedges, Oak.Lib.OrdSet.mem_filter]
      simp only [Bool.not_eq_true', Bool.or_eq_false_iff, decide_eq_false_iff_not, List.mem_cons,
        not_or]
      tauto
    · rcases List.mem_cons.1 hy with rfl | hy
      · exact hkept _ _ (Graph.vacant_of_takeNode htake)
      · exact hvacant y hy
    · obtain ⟨m, hm⟩ := Graph.vacant_takeNode htake hi
      exact hkept i m hm
    · rw [List.map_cons, hps]
    · refine List.forall_mem_cons.2 ⟨⟨Graph.behaviorOf_of_get hget, hvalid, hgen⟩, fun p hp => ?_⟩
      have hmem : p.1 ∈ ids := hps ▸ List.mem_map_of_mem hp
      rw [← hother hmem]
      exact hentries p hp

/-- Putting nodes back into the slots that they left. -/
theorem restoreAll_spec {ps : List (NodeId × NodeEntry F (Behavior F β))}
    (hentries : EntriesOf g ids ps) (hnodup : ids.Nodup)
    (hvacant : ∀ y ∈ ids, ∃ n, h.entries[y.index]? = some (.vacant n)) :
    ∃ h', UndoCommand.undoAll (ps.map removed) h = (ids.map createRemoveCommand, h') ∧
      (∀ y, h'.behaviorOf y = if y ∈ ids then g.behaviorOf y else h.behaviorOf y) ∧
      h'.edges = h.edges ∧ ∀ (i n : ℕ), (∀ y ∈ ids, y.index ≠ i) →
        h.entries[i]? = some (.vacant n) → h'.entries[i]? = some (.vacant n) := by
  obtain ⟨rfl, hentries⟩ := hentries
  induction ps with
  | nil => exact ⟨h, rfl, by simp, rfl, fun i n _ hi => hi⟩
  | cons p ps ih =>
    obtain ⟨⟨hbehavior, hvalid, hgen⟩, hrest⟩ := List.forall_mem_cons.1 hentries
    rw [List.map_cons, List.nodup_cons] at hnodup
    rw [List.map_cons, List.forall_mem_cons] at hvacant
    obtain ⟨⟨n, hn⟩, hothers⟩ := hvacant
    obtain ⟨h₁, hundo, hbehavior₁, hedges₁, hkept₁⟩ := ih hrest hnodup.2 hothers
    have hlive {q : NodeId × NodeEntry F (Behavior F β)} (hq : q ∈ p :: ps) :
        g.isValid q.1 = true := Graph.isValid_of_behaviorOf (hentries q hq).1
    have hapart : ∀ y ∈ ps.map Prod.fst, y.index ≠ p.1.index := by
      intro y hy hindex
      obtain ⟨q, hq, rfl⟩ := List.mem_map.1 hy
      have hsame := isValid_congr_index (hlive (List.mem_cons_of_mem p hq))
        (hlive List.mem_cons_self) hindex
      exact hnodup.1 (hsame ▸ hy)
    have hslot := hkept₁ p.1.index n hapart hn
    refine ⟨(h₁.addEntry p.2 p.1).1, ?_, fun y => ?_, ?_, fun i m hi hm => ?_⟩
    · rw [List.map_cons, UndoCommand.undoAll, hundo, undoNow_removed]
      rfl
    · rw [Graph.behaviorOf_addEntry hslot hvalid hgen, hbehavior₁]
      simp only [List.map_cons, List.mem_cons]
      by_cases hy : y = p.1
      · simp [hy, hbehavior]
      · simp only [hy, false_or, if_false]
    · rw [Graph.edges_addEntry, hedges₁]
    · rw [List.map_cons, List.forall_mem_cons] at hi
      rw [Graph.addEntry_in_place hslot]
      exact (List.getElem?_set_ne hi.1).trans (hkept₁ i m hi.2 hm)

end Oak.Timeline
