import Oak.Timeline.RipplePass

/-!
# Undoing the ripple tool

A pass of `TrackListRippleToolCommand` and the pass back leave the graph as it was, where each
length comes back and every block that leaves the graph is alone in it: its edges and the links to
it are not restored.

* `Alone` : a node without edges that no other node has a link to.
* `Intact` : nothing has changed but behaviors and the nodes that are out of the graph.

## Main results

* `resizedBack_eq_iff` : exactly when a length comes back with its media.
* `returns_iff` : exactly when undo and redo go back and forth between two graphs.
-/

namespace Oak.Timeline

open Oak.Core Oak.Node Oak.Lib
open TrackListRippleToolCommand

variable {F β : Type*}

/-! ### What is not a behavior -/

variable {entry : NodeEntry F (Behavior F β)}

section Rest

variable {g : ProjectGraph F β} {track x y : NodeId}

theorem coreOf_modifyBlock (f : BlockCore F → BlockCore F) :
    (modifyBlock g f x).coreOf y = g.coreOf y := Graph.coreOf_modifyBehavior _

theorem coreOf_trackRippleRemoveBlock :
    (trackRippleRemoveBlock g track x).coreOf y = g.coreOf y := by
  rw [trackRippleRemoveBlock]
  split
  · rfl
  · rw [setTrack, coreOf_modifyBlock, Graph.coreOf_modifyBehavior]

theorem coreOf_trackInsertBlockAfter (before : Option NodeId) :
    (trackInsertBlockAfter g track x before).coreOf y = g.coreOf y := by
  rw [trackInsertBlockAfter]
  split
  · rfl
  split
  · rfl
  · rw [setTrack, coreOf_modifyBlock, Graph.coreOf_modifyBehavior]

/-- No edge leads to or from a node, and no other node that it has a link to has one back. -/
structure Alone (g : ProjectGraph F β) (x : NodeId) : Prop where
  edges : ∀ e ∈ g.edges, e.source ≠ x ∧ e.target ≠ x
  links : ∀ y ∈ g.linksOf x, y ≠ x → x ∉ g.linksOf y

theorem mem_linksOf_takeNode {g g' : ProjectGraph F β} {z u v : NodeId}
    (h : g.takeNode z = some (g', entry)) :
    v ∈ g'.linksOf u ↔ v ∈ g.linksOf u ∧ u ≠ z ∧ (u ∈ entry.core.links → v ≠ z) := by
  obtain ⟨hget, -, -, -, -, hgets⟩ := Graph.takeNode_spec h
  rcases hu : g.get u with _ | e
  · have hnone : g'.get u = none := by
      rw [hgets, hu]
      split_ifs <;> rfl
    simp [Graph.linksOf_of_stale hu, Graph.linksOf_of_stale hnone]
  by_cases hz : u = z
  · subst hz
    have hnone : g'.get u = none := by rw [hgets, if_pos rfl]
    simp [Graph.linksOf_of_stale hnone]
  · have hindex : u.index ≠ z.index := fun hindex => hz (Graph.eq_of_index_eq hu hget hindex)
    have hget' := hgets u
    rw [if_neg hindex, hu, Option.map_some] at hget'
    rw [Graph.linksOf_of_get hu]
    split_ifs at hget' with hpartner
    · rw [Graph.linksOf_of_get hget']
      simp [NodeEntry.withLinks, hpartner, hz]
    · rw [Graph.linksOf_of_get hget']
      simp [hpartner, hz]

end Rest

theorem removeBlock_take {g : ProjectGraph F β} {track x : NodeId} {t : TrackBehavior F}
    {b : Behavior F β} {pre post : List (NodeId × Behavior F β)}
    (h : Track g track t (pre ++ (x, b) :: post)) (wd : WorkingData F β) :
    ∃ g' entry, (trackRippleRemoveBlock g track x).takeNode x = some (g', entry) ∧
      (removeBlock track x wd g).2 = g' ∧
      (removeBlock track x wd g).1.removedGapEntry = some entry ∧
      g.coreOf x = some entry.core := by
  have hlive : (trackRippleRemoveBlock g track x).isValid x = true := by
    rw [Graph.isValid_eq_isSome_behaviorOf, h.behaviorOf_remove,
      if_neg (h.ne_track (p := (x, b)) (by simp)), if_pos rfl, h.behaviorOf]
    rfl
  obtain ⟨⟨g', entry⟩, htake⟩ : ∃ r, (trackRippleRemoveBlock g track x).takeNode x = some r := by
    rw [← Option.isSome_iff_exists, Graph.takeNode_isSome_iff, hlive]
  have hcore : (trackRippleRemoveBlock g track x).coreOf x = some entry.core :=
    Graph.coreOf_of_get (Graph.takeNode_spec htake).1
  refine ⟨g', entry, htake, ?_, ?_, coreOf_trackRippleRemoveBlock.symm.trans hcore⟩
  · rw [removeBlock, blockRemoveFromGraph, htake]
  · rw [removeBlock, blockRemoveFromGraph, htake]

theorem resizeBlock_removedGapEntry (c : TrackListRippleToolCommand F β) (x : NodeId)
    (length : Rational) (wd : WorkingData F β) (g : ProjectGraph F β) :
    (c.resizeBlock x length wd g).1.removedGapEntry = wd.removedGapEntry := by
  rw [resizeBlock]
  split_ifs <;> rfl

/-! ### The effects of a step -/

/-- Only behaviors have changed. -/
structure Unmoved (o : RippleOp F β) (s s' : RippleState F β) : Prop where
  edges : s'.2.edges = s.2.edges
  cores : ∀ y, s'.2.coreOf y = s.2.coreOf y
  taken : (s'.1 o.track).removedGapEntry = (s.1 o.track).removedGapEntry

/-- The block has left the graph. -/
structure Left (o : RippleOp F β) (s s' : RippleState F β)
    (entry : NodeEntry F (Behavior F β)) : Prop where
  core : s.2.coreOf o.block.1 = some entry.core
  taken : (s'.1 o.track).removedGapEntry = some entry
  edges : ∀ e, e ∈ s'.2.edges ↔ e ∈ s.2.edges ∧ e.source ≠ o.block.1 ∧ e.target ≠ o.block.1
  links : ∀ u v, v ∈ s'.2.linksOf u ↔
    v ∈ s.2.linksOf u ∧ u ≠ o.block.1 ∧ (u ∈ entry.core.links → v ≠ o.block.1)
  cores : (∀ y ∈ s.2.linksOf o.block.1, y ≠ o.block.1 → o.block.1 ∉ s.2.linksOf y) →
    ∀ y, s'.2.coreOf y = if y = o.block.1 then none else s.2.coreOf y

/-- The block has come back to the graph. -/
structure Returned (o : RippleOp F β) (s s' : RippleState F β)
    (entry : NodeEntry F (Behavior F β)) : Prop where
  edges : s'.2.edges = s.2.edges
  cores : ∀ y, s'.2.coreOf y = if y = o.block.1 then some entry.core else s.2.coreOf y
  taken : (s'.1 o.track).removedGapEntry = none

section Step

variable [ClipSpeed F] {c : TrackListRippleToolCommand F β} {o : RippleOp F β}
  {s : RippleState F β}

theorem step_true_unmoved (h : Track s.2 o.track o.t o.blocks) (happend : o.appendGap = false)
    (hne : o.length c.movementMode c.rippleMovement ≠ 0) : Unmoved o s (c.step true s o.info) := by
  rw [step_true_eq h happend, if_neg hne]
  refine ⟨edges_modifyBlock _, fun y => coreOf_modifyBlock _, ?_⟩
  dsimp only
  rw [Function.update_self, resizeBlock_removedGapEntry]

theorem step_true_left (h : Track s.2 o.track o.t o.blocks) (happend : o.appendGap = false)
    (hzero : o.length c.movementMode c.rippleMovement = 0) :
    ∃ entry, Left o s (c.step true s o.info) entry := by
  obtain ⟨g', entry, htake, hrun, hentry, hcore⟩ :=
    removeBlock_take (x := o.block.1) (b := o.block.2) h (s.1 o.track)
  have hlinks (y : NodeId) : (trackRippleRemoveBlock s.2 o.track o.block.1).linksOf y =
      s.2.linksOf y := by
    rw [Graph.linksOf_eq, coreOf_trackRippleRemoveBlock, Graph.linksOf_eq]
  have hown : s.2.linksOf o.block.1 = entry.core.links := by
    rw [Graph.linksOf_eq, hcore]
    rfl
  rw [step_true_eq h happend, if_pos hzero]
  refine ⟨entry, hcore, ?_, fun e => ?_, fun u v => ?_, fun halone y => ?_⟩
  · dsimp only
    rw [Function.update_self, hentry]
  · obtain ⟨-, -, -, hedges, -⟩ := Graph.takeNode_spec htake
    dsimp only
    rw [hrun, hedges, OrdSet.mem_filter, edges_trackRippleRemoveBlock]
    simp
  · dsimp only
    rw [hrun, mem_linksOf_takeNode htake, hlinks]
  · dsimp only
    rw [hrun, Graph.coreOf_takeNode htake, coreOf_trackRippleRemoveBlock]
    intro z hz hzx
    rw [hlinks]
    exact halone z (hown ▸ hz) hzx

theorem step_false_unmoved {f : BlockCore F → BlockCore F} (h : Changed f o s)
    (happend : o.appendGap = false) (hblock : ∃ core, o.block.2.blockCore = some core) :
    Unmoved o s (c.step false s o.info) := by
  obtain ⟨core, hcore⟩ := hblock
  rw [step_false_changed h happend hcore]
  refine ⟨edges_modifyBlock _, fun y => coreOf_modifyBlock _, ?_⟩
  dsimp only
  rw [Function.update_self, resizeBlock_removedGapEntry]

theorem step_false_returned (h : Removed o s entry) (happend : o.appendGap = false) :
    Returned o s (c.step false s o.info) entry := by
  rw [step_false_removed h happend]
  obtain ⟨⟨n, hn⟩, hvalid, hgen⟩ := h.detached
  refine ⟨?_, fun y => ?_, ?_⟩
  · simp only [restoreBlock, h.gap, h.taken]
    rw [edges_trackInsertBlockAfter]
    exact Graph.edges_addEntry _
  · simp only [restoreBlock, h.gap, h.taken]
    rw [coreOf_trackInsertBlockAfter]
    exact Graph.coreOf_addEntry hn hvalid hgen
  · dsimp only
    rw [Function.update_self]
    simp only [restoreBlock, h.gap]

end Step

/-! ### Undoing a length -/

theorem setLengthAndMediaIn_of_neg (c : BlockCore F) {length : Rational} (h : length < 0) :
    c.setLengthAndMediaIn length = { c with range := ⟨c.in_ + length, c.in_⟩ } := by
  rw [BlockCore.setLengthAndMediaIn, TimeRange.new, if_pos (by linarith)]

theorem setLengthAndMediaOut_of_neg (c : BlockCore F) {length : Rational} (h : length < 0) :
    c.setLengthAndMediaOut length = { c with
      range := ⟨c.out, c.out - length⟩
      mediaIn := c.out } := by
  rw [BlockCore.setLengthAndMediaOut, BlockCore.in_add_length, TimeRange.new,
    if_pos (by linarith)]

variable {amount : Rational}

section

variable {mode : MovementMode} {c : BlockCore F} (hc : c.in_ < c.out)

include hc

/-- A block that was turned around begins elsewhere in the end. -/
theorem undone_in_of_neg (hneg : c.length + amount < 0) :
    (undone mode amount c).in_ = c.in_ + (c.length + amount) := by
  have hlength : c.length = c.out - c.in_ := c.length_eq
  by_cases hmode : mode = .trimIn
  · have hback : (resized mode (c.length + amount) c).length = -(c.length + amount) := by
      rw [resized, if_pos hmode, setLengthAndMediaIn_of_neg c hneg]
      change c.in_ - (c.in_ + (c.length + amount)) = _
      ring
    rw [undone, hback, resized, if_pos hmode, resized, if_pos hmode,
      BlockCore.setLengthAndMediaIn_of_le _ (by linarith), setLengthAndMediaIn_of_neg c hneg]
    rfl
  · have hback : (resized mode (c.length + amount) c).length = -(c.length + amount) := by
      rw [resized, if_neg hmode, setLengthAndMediaOut_of_neg c hneg]
      change c.out - (c.length + amount) - c.out = _
      ring
    rw [undone, hback, resized, if_neg hmode, resized, if_neg hmode,
      BlockCore.setLengthAndMediaOut_of_le _ (by linarith), setLengthAndMediaOut_of_neg c hneg]
    change c.out - (c.length + amount) - (-(c.length + amount) - amount) = _
    linarith

theorem undone_of_pos (hpos : 0 < c.length + amount) :
    undone mode amount c = if mode = .trimIn then c else { c with mediaIn := c.in_ } := by
  have hlength : c.length = c.out - c.in_ := c.length_eq
  split_ifs with hmode
  · have hback : (resized mode (c.length + amount) c).length = c.length + amount := by
      rw [resized, if_pos hmode, BlockCore.setLengthAndMediaIn_of_le c hpos.le]
      exact add_sub_cancel_left _ _
    rw [undone, hback, add_sub_cancel_right, resized, if_pos hmode, resized, if_pos hmode,
      BlockCore.setLengthAndMediaIn_of_le _ (by linarith),
      BlockCore.setLengthAndMediaIn_of_le c hpos.le]
    change { c with range := ⟨c.in_, c.in_ + c.length⟩ } = c
    rw [c.in_add_length]
    rfl
  · have hback : (resized mode (c.length + amount) c).length = c.length + amount := by
      rw [resized, if_neg hmode, BlockCore.setLengthAndMediaOut_of_le c hpos.le]
      exact sub_sub_cancel _ _
    have hin : c.out - c.length = c.in_ := by linarith
    rw [undone, hback, add_sub_cancel_right, resized, if_neg hmode, resized, if_neg hmode,
      BlockCore.setLengthAndMediaOut_of_le _ (by linarith),
      BlockCore.setLengthAndMediaOut_of_le c hpos.le]
    change { c with range := ⟨c.out - c.length, c.out⟩, mediaIn := c.out - c.length } = _
    rw [hin]
    rfl

/-- Exactly when a length comes back with its media. -/
theorem resizedBack_eq_iff (hne : c.length + amount ≠ 0) :
    undone mode amount c = c ↔
      0 < c.length + amount ∧ (mode = .trimIn ∨ c.mediaIn = c.in_) := by
  rcases lt_or_gt_of_ne hne with hneg | hpos
  · refine iff_of_false (fun heq => ?_) fun hfalse => absurd hfalse.1 (not_lt.2 hneg.le)
    have hin := (undone_in_of_neg hc hneg).symm.trans (congrArg BlockCore.in_ heq)
    linarith
  · rw [undone_of_pos hc hpos, and_iff_right hpos]
    by_cases hmode : mode = .trimIn
    · exact iff_of_true (if_pos hmode) (.inl hmode)
    · rw [if_neg hmode, or_iff_right hmode]
      constructor
      · exact fun heq => (congrArg BlockCore.mediaIn heq).symm
      · intro hmedia
        rw [← hmedia]

end

/-! ### Going back and forth -/

/-- Only behaviors have changed, and nodes have left the graph with their cores. -/
structure Intact (g : ProjectGraph F β) (ops : List (RippleOp F β)) (s : RippleState F β) :
    Prop where
  edges : s.2.edges = g.edges
  cores : ∀ y, s.2.coreOf y = g.coreOf y ∨ s.2.coreOf y = none
  entries : ∀ o ∈ ops, ∀ entry, (s.1 o.track).removedGapEntry = some entry →
    g.coreOf o.block.1 = some entry.core

/-- Two graphs with the same nodes and edges. -/
def SameGraph (g g' : ProjectGraph F β) : Prop := (∀ y, g'.get y = g.get y) ∧ g'.edges = g.edges

section Exact

variable {g : ProjectGraph F β} {ops : List (RippleOp F β)} {o : RippleOp F β}
  {s s' : RippleState F β} {x : NodeId} {mode : MovementMode} {movement : Rational}

theorem Intact.linksOf_sub (hi : Intact g ops s) {u v : NodeId} (hv : v ∈ s.2.linksOf u) :
    v ∈ g.linksOf u := by
  rw [Graph.linksOf_eq] at hv ⊢
  rcases hi.cores u with hcore | hcore
  · rwa [← hcore]
  · rw [hcore] at hv
    exact absurd hv List.not_mem_nil

theorem Intact.alone (hi : Intact g ops s) (ha : Alone g x) : Alone s.2 x where
  edges := by
    rw [hi.edges]
    exact ha.edges
  links y hy hyx hback := ha.links y (hi.linksOf_sub hy) hyx (hi.linksOf_sub hback)

theorem Intact.sameGraph (hi : Intact g ops s) (hi' : Intact g ops s')
    (hbehavior : ∀ y, s'.2.behaviorOf y = s.2.behaviorOf y) : SameGraph s.2 s'.2 := by
  refine ⟨fun y => Graph.get_congr_of_parts ?_ (hbehavior y), hi'.edges.trans hi.edges.symm⟩
  have hnone : s'.2.coreOf y = none ↔ s.2.coreOf y = none := by
    rw [Graph.coreOf_eq_none_iff, Graph.coreOf_eq_none_iff, hbehavior]
  rcases hi.cores y with hcore | hcore
  · rcases hi'.cores y with hcore' | hcore'
    · rw [hcore, hcore']
    · rw [hcore', hnone.1 hcore']
  · rw [hcore, hnone.2 hcore]

variable {y : NodeId}

theorem Rippled.behaviorOf_eq (h : Rippled mode movement o s) (h' : Rippled mode movement o s')
    (hy : o.Zone y) : s'.2.behaviorOf y = s.2.behaviorOf y := by
  by_cases hzero : o.length mode movement = 0
  · obtain ⟨entry, hs⟩ := h.1 hzero
    obtain ⟨entry', hs'⟩ := h'.1 hzero
    rcases hy with rfl | hy
    · rw [hs.track.behavior, hs'.track.behavior]
    obtain ⟨p, hp, rfl⟩ := List.mem_map.1 hy
    rcases List.mem_append.1 hp with hp | hp
    · have hmem := List.mem_append_left o.behind hp
      rw [(hs.track.block p hmem).1, (hs'.track.block p hmem).1]
    rcases List.mem_cons.1 hp with rfl | hp
    · rw [hs.detached.behaviorOf_eq_none, hs'.detached.behaviorOf_eq_none]
    · have hmem := List.mem_append_right o.before hp
      rw [(hs.track.block p hmem).1, (hs'.track.block p hmem).1]
  · have hs := h.2 hzero
    have hs' := h'.2 hzero
    rcases hy with rfl | hy
    · rw [hs.behavior, hs'.behavior]
    have hids : o.blocks.map Prod.fst = (o.before ++ (o.block.1, o.block.2.modifyCore
        (resized mode (o.length mode movement))) :: o.behind).map Prod.fst := by
      simp [RippleOp.blocks]
    rw [hids] at hy
    obtain ⟨p, hp, rfl⟩ := List.mem_map.1 hy
    rw [(hs.block p hp).1, (hs'.block p hp).1]

variable [ClipSpeed F] {c : TrackListRippleToolCommand F β}

section

variable (h : Rippleable g ops) (ho : o ∈ ops) (hi : Intact g ops s)

include h ho hi

theorem Intact.of_step {redo : Bool}
    (hedges : (c.step redo s o.info).2.edges = s.2.edges)
    (hcores : ∀ y, (c.step redo s o.info).2.coreOf y = g.coreOf y ∨
      (c.step redo s o.info).2.coreOf y = none)
    (hentry : ∀ entry, ((c.step redo s o.info).1 o.track).removedGapEntry = some entry →
      g.coreOf o.block.1 = some entry.core) : Intact g ops (c.step redo s o.info) := by
  refine ⟨hedges.trans hi.edges, hcores, fun o' ho' entry htaken => ?_⟩
  by_cases heq : o' = o
  · subst heq
    exact hentry entry htaken
  · rw [step_fst_of_ne redo (h.track_ne ho' ho heq)] at htaken
    exact hi.entries o' ho' entry htaken

theorem Intact.step_true (hs : Track s.2 o.track o.t o.blocks) (happend : o.appendGap = false)
    (halone : o.length c.movementMode c.rippleMovement = 0 → Alone g o.block.1) :
    Intact g ops (c.step true s o.info) := by
  by_cases hzero : o.length c.movementMode c.rippleMovement = 0
  · obtain ⟨entry, hleft⟩ := step_true_left (c := c) hs happend hzero
    have ha := hi.alone (halone hzero)
    refine Intact.of_step h ho hi (OrdSet.ext_mem fun e => ?_) (fun y => ?_) fun entry' htaken => ?_
    · rw [hleft.edges]
      exact ⟨fun he => he.1, fun he => ⟨he, ha.edges e he⟩⟩
    · rw [hleft.cores ha.links]
      split_ifs
      · exact .inr rfl
      · exact hi.cores y
    · obtain rfl := Option.some.inj (hleft.taken.symm.trans htaken)
      rw [← hleft.core]
      refine ((hi.cores _).resolve_right ?_).symm
      rw [hleft.core]
      exact Option.some_ne_none _
  · have hsame := step_true_unmoved (c := c) hs happend hzero
    refine Intact.of_step h ho hi hsame.edges (fun y => ?_) fun entry' htaken => ?_
    · rw [hsame.cores]
      exact hi.cores y
    · exact hi.entries o ho entry' (hsame.taken ▸ htaken)

theorem Intact.step_false (hs : Rippled c.movementMode c.rippleMovement o s)
    (happend : o.appendGap = false) : Intact g ops (c.step false s o.info) := by
  by_cases hzero : o.length c.movementMode c.rippleMovement = 0
  · obtain ⟨entry, hremoved⟩ := hs.1 hzero
    have hback := step_false_returned (c := c) hremoved happend
    refine Intact.of_step h ho hi hback.edges (fun y => ?_) fun entry' htaken => ?_
    · rw [hback.cores]
      split_ifs with hy
      · exact .inl (hy ▸ (hi.entries o ho entry hremoved.taken).symm)
      · exact hi.cores y
    · rw [hback.taken] at htaken
      exact absurd htaken (by simp)
  · obtain ⟨core, hcore, -⟩ := (h.track o ho).exists_core (x := o.block.1) (b := o.block.2)
    have hsame := step_false_unmoved (c := c) (hs.2 hzero) happend ⟨core, hcore⟩
    refine Intact.of_step h ho hi hsame.edges (fun y => ?_) fun entry' htaken => ?_
    · rw [hsame.cores]
      exact hi.cores y
    · exact hi.entries o ho entry' (hsame.taken ▸ htaken)

end

/-- The graph before `redo`, and after `undo`. -/
structure Before (g : ProjectGraph F β) (ops : List (RippleOp F β)) (s : RippleState F β) :
    Prop where
  track : ∀ o ∈ ops, Track s.2 o.track o.t o.blocks
  outside : ∀ y, (∀ o ∈ ops, ¬ o.Zone y) → s.2.behaviorOf y = g.behaviorOf y
  intact : Intact g ops s

/-- The graph after `redo`. -/
structure After (mode : MovementMode) (movement : Rational) (g : ProjectGraph F β)
    (ops : List (RippleOp F β)) (s : RippleState F β) : Prop where
  rippled : ∀ o ∈ ops, Rippled mode movement o s
  outside : ∀ y, (∀ o ∈ ops, ¬ o.Zone y) → s.2.behaviorOf y = g.behaviorOf y
  intact : Intact g ops s

/-- What an operation needs for `undo`. -/
structure Reversible (g : ProjectGraph F β) (mode : MovementMode) (movement : Rational)
    (o : RippleOp F β) : Prop where
  length : 0 ≤ o.length mode movement
  alone : o.length mode movement = 0 → Alone g o.block.1
  media : o.length mode movement ≠ 0 → mode ≠ .trimIn →
    ∀ core, o.block.2.blockCore = some core → core.mediaIn = core.in_

omit [ClipSpeed F] in
theorem Rippleable.before_start (h : Rippleable g ops) : Before g ops (fun _ => .default, g) where
  track := h.track
  outside _ _ := rfl
  intact := ⟨rfl, fun _ => .inl rfl, fun _ _ _ hentry => absurd hentry (by
    simp [WorkingData.default])⟩

omit [ClipSpeed F] in
theorem Before.sameGraph (h : Rippleable g ops) (hs : Before g ops s) : SameGraph g s.2 := by
  refine h.before_start.intact.sameGraph hs.intact fun y => ?_
  by_cases hy : ∀ o ∈ ops, ¬ o.Zone y
  · exact hs.outside y hy
  simp only [not_forall, not_not] at hy
  obtain ⟨o, ho, hzone⟩ := hy
  rcases hzone with rfl | hzone
  · exact (hs.track o ho).behavior.trans (h.track o ho).behavior.symm
  · obtain ⟨p, hp, rfl⟩ := List.mem_map.1 hzone
    exact ((hs.track o ho).block p hp).1.trans ((h.track o ho).block p hp).1.symm

omit [ClipSpeed F] in
theorem After.sameGraph (hs : After mode movement g ops s) (hs' : After mode movement g ops s') :
    SameGraph s.2 s'.2 := by
  refine hs.intact.sameGraph hs'.intact fun y => ?_
  by_cases hy : ∀ o ∈ ops, ¬ o.Zone y
  · exact (hs'.outside y hy).trans (hs.outside y hy).symm
  simp only [not_forall, not_not] at hy
  obtain ⟨o, ho, hzone⟩ := hy
  exact (hs.rippled o ho).behaviorOf_eq (hs'.rippled o ho) hzone

omit [ClipSpeed F] in
theorem RippleOp.length_eq {core : BlockCore F} (hcore : o.block.2.blockCore = some core) :
    o.length mode movement = core.length + rippleAmount mode movement := by
  rw [RippleOp.length, inOf_eq hcore, outOf_eq hcore, BlockCore.length_eq]

omit [ClipSpeed F] in
theorem Reversible.undone_eq (hr : Reversible g mode movement o) (hsorted : Sorted o.blocks)
    (hne : o.length mode movement ≠ 0) {core : BlockCore F}
    (hcore : o.block.2.blockCore = some core) :
    undone mode (rippleAmount mode movement) core = core := by
  have hlt := hsorted.1 o.block o.mem_blocks
  rw [inOf_eq hcore, outOf_eq hcore] at hlt
  have hpos := lt_of_le_of_ne hr.length (Ne.symm hne)
  have hmedia := hr.media hne
  rw [RippleOp.length_eq hcore] at hne hpos
  refine (resizedBack_eq_iff hlt hne).2 ⟨hpos, ?_⟩
  by_cases hmode : mode = .trimIn
  · exact .inl hmode
  · exact .inr (hmedia hmode core hcore)

section

variable (h : Rippleable g ops) (happend : ∀ o ∈ ops, o.appendGap = false)
  (hr : ∀ o ∈ ops, Reversible g c.movementMode c.rippleMovement o)

include h happend hr

theorem Before.redo (hs : Before g ops s) :
    After c.movementMode c.rippleMovement g ops (pass c ops true s) where
  rippled := (h.pass_redo happend hs.track).1
  outside y hy := ((h.pass_redo happend hs.track).2 y hy).trans (hs.outside y hy)
  intact := foldl_keep (fun _ _ => True) (Intact g ops) h.ops_nodup (fun _ _ _ _ _ _ => trivial)
    (fun _ ho _ ho' hne _ _ _ => h.track_step_true happend ho ho' hne)
    (fun o ho _ _ _ hso hq => hq.step_true h ho hso (happend o ho) (hr o ho).alone) trivial
    hs.track hs.intact

theorem After.undo (hs : After c.movementMode c.rippleMovement g ops s) :
    Before g ops (pass c ops false s) where
  track o ho := by
    have hback := (h.pass_undo happend hs.rippled).1 o ho
    by_cases hzero : o.length c.movementMode c.rippleMovement = 0
    · exact hback.1 hzero
    · obtain ⟨core, hcore, -⟩ := (h.track o ho).exists_core (x := o.block.1) (b := o.block.2)
      have htrack := hback.2 hzero
      rw [Changed, Behavior.modifyCore_eq_self hcore
        ((hr o ho).undone_eq (h.sorted o ho) hzero hcore)] at htrack
      exact htrack
  outside y hy := ((h.pass_undo happend hs.rippled).2 y hy).trans (hs.outside y hy)
  intact := foldl_keep (fun _ _ => True) (Intact g ops) h.ops_nodup (fun _ _ _ _ _ _ => trivial)
    (fun _ ho _ ho' hne _ _ _ => h.rippled_step_false happend ho ho' hne)
    (fun o ho _ _ _ hso hq => hq.step_false h ho hso (happend o ho)) trivial hs.rippled hs.intact

end

/-! ### What does not come back -/

/-- The node `y` has no link to `x`, be it in the graph or not. -/
structure Severed (ops : List (RippleOp F β)) (x y : NodeId) (s : RippleState F β) : Prop where
  links : x ∉ s.2.linksOf y
  entries : ∀ o ∈ ops, o.block.1 = y → ∀ entry, (s.1 o.track).removedGapEntry = some entry →
    x ∉ entry.core.links

/-- Two nodes of the graph have links to each other. -/
structure Joined (ops : List (RippleOp F β)) (x y : NodeId) (s : RippleState F β) : Prop where
  forth : y ∈ s.2.linksOf x
  back : x ∈ s.2.linksOf y
  entries : ∀ o ∈ ops, o.block.1 = x ∨ o.block.1 = y → (s.1 o.track).removedGapEntry = none

omit [ClipSpeed F] in
theorem Unmoved.linksOf_eq (h : Unmoved o s s') (y : NodeId) : s'.2.linksOf y = s.2.linksOf y := by
  rw [Graph.linksOf_eq, h.cores, Graph.linksOf_eq]

section

variable (h : Rippleable g ops) (ho : o ∈ ops)

include h ho

/-- The entry of another operation, or one that has not changed. -/
theorem removedGapEntry_step {redo : Bool} {o' : RippleOp F β} (ho' : o' ∈ ops)
    (hsame : o' = o → ((c.step redo s o.info).1 o.track).removedGapEntry =
      (s.1 o.track).removedGapEntry) :
    ((c.step redo s o.info).1 o'.track).removedGapEntry = (s.1 o'.track).removedGapEntry := by
  by_cases heq : o' = o
  · rw [heq, hsame heq]
  · rw [step_fst_of_ne redo (h.track_ne ho' ho heq)]

theorem Severed.step_true (hv : Severed ops x y s) (hs : Track s.2 o.track o.t o.blocks)
    (happend : o.appendGap = false) : Severed ops x y (c.step true s o.info) := by
  by_cases hzero : o.length c.movementMode c.rippleMovement = 0
  · obtain ⟨entry, hleft⟩ := step_true_left (c := c) hs happend hzero
    refine ⟨fun hx => hv.links ((hleft.links y x).1 hx).1, fun o' ho' hy entry' htaken => ?_⟩
    by_cases heq : o' = o
    · subst heq
      obtain rfl := Option.some.inj (hleft.taken.symm.trans htaken)
      have hlinks : s.2.linksOf y = entry.core.links := by
        rw [← hy, Graph.linksOf_eq, hleft.core]
        rfl
      rw [← hlinks]
      exact hv.links
    · rw [step_fst_of_ne true (h.track_ne ho' ho heq)] at htaken
      exact hv.entries o' ho' hy entry' htaken
  · have hsame := step_true_unmoved (c := c) hs happend hzero
    refine ⟨by rw [hsame.linksOf_eq]; exact hv.links, fun o' ho' hy entry htaken => ?_⟩
    rw [removedGapEntry_step h ho ho' fun _ => hsame.taken] at htaken
    exact hv.entries o' ho' hy entry htaken

theorem Severed.step_false (hv : Severed ops x y s)
    (hs : Rippled c.movementMode c.rippleMovement o s) (happend : o.appendGap = false) :
    Severed ops x y (c.step false s o.info) := by
  by_cases hzero : o.length c.movementMode c.rippleMovement = 0
  · obtain ⟨entry, hremoved⟩ := hs.1 hzero
    have hback := step_false_returned (c := c) hremoved happend
    refine ⟨?_, fun o' ho' hy entry' htaken => ?_⟩
    · rw [Graph.linksOf_eq, hback.cores]
      split_ifs with hy
      · exact hv.entries o ho hy.symm entry hremoved.taken
      · rw [← Graph.linksOf_eq]
        exact hv.links
    · by_cases heq : o' = o
      · rw [heq, hback.taken] at htaken
        exact absurd htaken (by simp)
      · rw [step_fst_of_ne false (h.track_ne ho' ho heq)] at htaken
        exact hv.entries o' ho' hy entry' htaken
  · obtain ⟨core, hcore, -⟩ := (h.track o ho).exists_core (x := o.block.1) (b := o.block.2)
    have hsame := step_false_unmoved (c := c) (hs.2 hzero) happend ⟨core, hcore⟩
    refine ⟨by rw [hsame.linksOf_eq]; exact hv.links, fun o' ho' hy entry htaken => ?_⟩
    rw [removedGapEntry_step h ho ho' fun _ => hsame.taken] at htaken
    exact hv.entries o' ho' hy entry htaken

/-- Two nodes stay joined until one of them leaves the graph. -/
theorem Joined.step_true (hxy : y ≠ x) (hj : Joined ops x y s) (hs : Track s.2 o.track o.t o.blocks)
    (happend : o.appendGap = false) :
    Severed ops x y (c.step true s o.info) ∨ Severed ops y x (c.step true s o.info) ∨
      (Joined ops x y (c.step true s o.info) ∧
        (o.length c.movementMode c.rippleMovement = 0 → o.block.1 ≠ x)) := by
  by_cases hzero : o.length c.movementMode c.rippleMovement = 0
  · obtain ⟨entry, hleft⟩ := step_true_left (c := c) hs happend hzero
    have hlinks : s.2.linksOf o.block.1 = entry.core.links := by
      rw [Graph.linksOf_eq, hleft.core]
      rfl
    -- the entry of an operation on another block
    have hother {o' : RippleOp F β} (ho' : o' ∈ ops) (hne : o'.block.1 ≠ o.block.1)
        (hmem : o'.block.1 = x ∨ o'.block.1 = y) :
        ((c.step true s o.info).1 o'.track).removedGapEntry = none := by
      rw [removedGapEntry_step h ho ho' fun heq => absurd (heq ▸ rfl) hne]
      exact hj.entries o' ho' hmem
    by_cases hx : o.block.1 = x
    · refine .inl ⟨fun hmem => ?_, fun o' ho' hy entry' htaken => ?_⟩
      · obtain ⟨-, -, hfree⟩ := (hleft.links y x).1 hmem
        exact hfree (by rw [← hlinks, hx]; exact hj.forth) hx.symm
      · rw [hother ho' (by rw [hy, hx]; exact hxy) (.inr hy)] at htaken
        exact absurd htaken (by simp)
    by_cases hy : o.block.1 = y
    · refine .inr (.inl ⟨fun hmem => ?_, fun o' ho' hx' entry' htaken => ?_⟩)
      · obtain ⟨-, -, hfree⟩ := (hleft.links x y).1 hmem
        exact hfree (by rw [← hlinks, hy]; exact hj.back) hy.symm
      · rw [hother ho' (by rw [hx', hy]; exact Ne.symm hxy) (.inl hx')] at htaken
        exact absurd htaken (by simp)
    · refine .inr (.inr ⟨⟨?_, ?_, fun o' ho' hmem => hother ho' ?_ hmem⟩, fun _ => hx⟩)
      · exact (hleft.links x y).2 ⟨hj.forth, Ne.symm hx, fun _ => Ne.symm hy⟩
      · exact (hleft.links y x).2 ⟨hj.back, Ne.symm hy, fun _ => Ne.symm hx⟩
      · rcases hmem with hmem | hmem
        · rw [hmem]
          exact Ne.symm hx
        · rw [hmem]
          exact Ne.symm hy
  · have hsame := step_true_unmoved (c := c) hs happend hzero
    refine .inr (.inr ⟨⟨?_, ?_, fun o' ho' hmem => ?_⟩, fun hfalse => absurd hfalse hzero⟩)
    · rw [hsame.linksOf_eq]
      exact hj.forth
    · rw [hsame.linksOf_eq]
      exact hj.back
    · rw [removedGapEntry_step h ho ho' fun _ => hsame.taken]
      exact hj.entries o' ho' hmem

end

section

variable (h : Rippleable g ops) (happend : ∀ o ∈ ops, o.appendGap = false) (ho : o ∈ ops)
  (hzero : o.length c.movementMode c.rippleMovement = 0)

include h happend ho hzero

/-- The links of a block that leaves the graph are lost on one side. -/
theorem Rippleable.severed (hforth : y ∈ g.linksOf o.block.1) (hback : o.block.1 ∈ g.linksOf y)
    (hne : y ≠ o.block.1) :
    Severed ops o.block.1 y (pass c ops false (pass c ops true (fun _ => .default, g))) ∨
      Severed ops y o.block.1 (pass c ops false (pass c ops true (fun _ => .default, g))) := by
  have hkeep : ∀ o' ∈ ops, ∀ s : RippleState F β, Track s.2 o'.track o'.t o'.blocks →
      Severed ops o.block.1 y s ∨ Severed ops y o.block.1 s →
        Severed ops o.block.1 y (c.step true s o'.info) ∨
          Severed ops y o.block.1 (c.step true s o'.info) := by
    rintro o' ho' s hs (hv | hv)
    · exact .inl (hv.step_true h ho' hs (happend o' ho'))
    · exact .inr (hv.step_true h ho' hs (happend o' ho'))
  have hjoined : Joined ops o.block.1 y ((fun _ => .default, g) : RippleState F β) :=
    ⟨hforth, hback, fun _ _ _ => rfl⟩
  have hredo := foldl_post (fun _ s => Joined ops o.block.1 y s ∨
      (Severed ops o.block.1 y s ∨ Severed ops y o.block.1 s))
    (fun o' s => o' = o → Severed ops o.block.1 y s ∨ Severed ops y o.block.1 s) h.ops_nodup
    (fun o' ho' _ s hinv (hs : Track s.2 o'.track o'.t o'.blocks) => by
      rcases hinv with hj | hv
      · rcases hj.step_true (c := c) h ho' hne hs (happend o' ho') with hv | hv | ⟨hj, -⟩
        · exact .inr (.inl hv)
        · exact .inr (.inr hv)
        · exact .inl hj
      · exact .inr (hkeep o' ho' s hs hv))
    (fun o' ho' _ s hinv hs heq => by
      rcases hinv with hj | hv
      · rcases hj.step_true (c := c) h ho' hne hs (happend o' ho') with hv | hv | ⟨-, hx⟩
        · exact .inl hv
        · exact .inr hv
        · exact absurd (heq ▸ rfl) (hx (heq ▸ hzero))
      · exact hkeep o' ho' s hs hv)
    (fun o₁ ho₁ o₂ ho₂ hne _ s _ => h.track_step_true happend ho₁ ho₂ hne)
    (fun o₁ ho₁ o₂ _ _ _ s _ hs hpost heq => hkeep o₁ ho₁ s hs (hpost heq)) (.inl hjoined) h.track
    o ho rfl
  refine foldl_keep (fun _ _ => True)
    (fun s => Severed ops o.block.1 y s ∨ Severed ops y o.block.1 s) h.ops_nodup
    (fun _ _ _ _ _ _ => trivial)
    (fun _ ho _ ho' hne _ _ _ => h.rippled_step_false happend ho ho' hne)
    (fun o' ho' _ s _ hs hv => ?_) trivial (h.pass_redo happend h.track).1 hredo
  rcases hv with hv | hv
  · exact .inl (hv.step_false h ho' hs (happend o' ho'))
  · exact .inr (hv.step_false h ho' hs (happend o' ho'))

theorem Rippleable.edges_lost {e : Edge}
    (he : e ∈ (pass c ops false (pass c ops true (fun _ => .default, g))).2.edges) :
    e.source ≠ o.block.1 ∧ e.target ≠ o.block.1 := by
  have hredo := foldl_post (fun _ _ => True) (fun (o : RippleOp F β) (s : RippleState F β) =>
      o.length c.movementMode c.rippleMovement = 0 →
        e ∈ s.2.edges → e.source ≠ o.block.1 ∧ e.target ≠ o.block.1) h.ops_nodup
    (fun _ _ _ _ _ _ => trivial)
    (fun o' ho' _ s _ (hs : Track s.2 o'.track o'.t o'.blocks) hzero he => by
      obtain ⟨entry, hleft⟩ := step_true_left (c := c) hs (happend o' ho') hzero
      exact ((hleft.edges e).1 he).2)
    (fun o₁ ho₁ o₂ ho₂ hne _ s _ => h.track_step_true happend ho₁ ho₂ hne)
    (fun o₁ ho₁ o₂ _ _ _ s _ hs hpost hzero he => hpost hzero (by
      by_cases hzero₁ : o₁.length c.movementMode c.rippleMovement = 0
      · obtain ⟨entry, hleft⟩ := step_true_left (c := c) hs (happend o₁ ho₁) hzero₁
        exact ((hleft.edges e).1 he).1
      · rwa [(step_true_unmoved (c := c) hs (happend o₁ ho₁) hzero₁).edges] at he))
    (s := ((fun _ => .default, g) : RippleState F β)) trivial h.track o ho hzero
  refine hredo ?_
  by_contra hnot
  refine absurd he (foldl_keep (fun _ _ => True) (fun s : RippleState F β => e ∉ s.2.edges)
    h.ops_nodup (fun _ _ _ _ _ _ => trivial)
    (fun _ ho _ ho' hne _ _ _ => h.rippled_step_false happend ho ho' hne)
    (fun o' ho' _ s _ hs hv => ?_) trivial (h.pass_redo happend h.track).1 hnot)
  by_cases hzero' : o'.length c.movementMode c.rippleMovement = 0
  · obtain ⟨entry, hremoved⟩ := hs.1 hzero'
    rwa [(step_false_returned (c := c) hremoved (happend o' ho')).edges]
  · obtain ⟨core, hcore, -⟩ := (h.track o' ho').exists_core (x := o'.block.1) (b := o'.block.2)
    rwa [(step_false_unmoved (c := c) (hs.2 hzero') (happend o' ho') ⟨core, hcore⟩).edges]

end

/-! ### Back and forth -/

/-- After `redo`, and then `n` times `undo` and `redo`. -/
def rounds (c : TrackListRippleToolCommand F β) (ops : List (RippleOp F β))
    (g : ProjectGraph F β) : ℕ → RippleState F β
  | 0 => pass c ops true (fun _ => .default, g)
  | n + 1 => pass c ops true (pass c ops false (rounds c ops g n))

/-- Undo and redo go back and forth between two graphs. -/
def Returns (c : TrackListRippleToolCommand F β) (ops : List (RippleOp F β))
    (g : ProjectGraph F β) : Prop :=
  ∀ n, SameGraph (rounds c ops g 0).2 (rounds c ops g n).2 ∧
    SameGraph g (pass c ops false (rounds c ops g n)).2

/-- Exactly when undo and redo go back and forth. -/
theorem returns_iff (h : Rippleable g ops) (happend : ∀ o ∈ ops, o.appendGap = false) :
    Returns c ops g ↔ ∀ o ∈ ops, Reversible g c.movementMode c.rippleMovement o := by
  constructor
  · intro hreturns o ho
    obtain ⟨-, hget, hedges⟩ := hreturns 0
    simp only [rounds] at hget hedges
    have hlinks (y : NodeId) : (pass c ops false (pass c ops true (fun _ => .default, g))).2.linksOf
        y = g.linksOf y := Graph.linksOf_congr (hget y)
    have hundone : o.length c.movementMode c.rippleMovement ≠ 0 →
        ∀ core, o.block.2.blockCore = some core →
          undone c.movementMode (rippleAmount c.movementMode c.rippleMovement) core = core := by
      intro hne core hcore
      have hredo := (h.pass_redo (c := c) (s := (fun _ => .default, g)) happend h.track).1
      have hback := ((h.pass_undo happend hredo).1 o ho).2 hne
      have hb := hback.behaviorOf
      rw [Graph.behaviorOf, hget, ← Graph.behaviorOf,
        (h.track o ho).behaviorOf (x := o.block.1) (b := o.block.2)] at hb
      have hcores := congrArg Behavior.blockCore (Option.some.inj hb)
      rw [Behavior.blockCore_modifyCore, hcore, Option.map_some] at hcores
      exact (Option.some.inj hcores).symm
    obtain ⟨core, hcore, -⟩ := (h.track o ho).exists_core (x := o.block.1) (b := o.block.2)
    have hlt := (h.sorted o ho).1 o.block o.mem_blocks
    rw [inOf_eq hcore, outOf_eq hcore] at hlt
    refine ⟨?_, fun hzero => ⟨fun e he => ?_, fun y hy hyx hback => ?_⟩,
      fun hne hmode core' hc => ?_⟩
    · by_cases hzero : o.length c.movementMode c.rippleMovement = 0
      · exact hzero.ge
      · have heq := hundone hzero core hcore
        rw [RippleOp.length_eq hcore] at hzero ⊢
        exact ((resizedBack_eq_iff hlt hzero).1 heq).1.le
    · exact h.edges_lost happend ho hzero (hedges ▸ he)
    · rcases h.severed happend ho hzero hy hback hyx with hv | hv
      · exact hv.links (by rw [hlinks]; exact hback)
      · exact hv.links (by rw [hlinks]; exact hy)
    · obtain rfl := Option.some.inj (hcore.symm.trans hc)
      have heq := hundone hne core hcore
      rw [RippleOp.length_eq hcore] at hne
      exact ((resizedBack_eq_iff hlt hne).1 heq).2.resolve_left hmode
  · intro hr n
    have hrun (n : ℕ) : After c.movementMode c.rippleMovement g ops (rounds c ops g n) := by
      induction n with
      | zero => exact h.before_start.redo h happend hr
      | succ n ih => exact (ih.undo h happend hr).redo h happend hr
    exact ⟨(hrun 0).sameGraph (hrun n), ((hrun n).undo h happend hr).sameGraph h⟩

end Exact

end Oak.Timeline
