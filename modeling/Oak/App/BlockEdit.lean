import Oak.App.TrimClip
import Oak.Timeline.Order

/-!
# Edits made of range changes

`ripple_trim_clip` and `slide_clip` of `oak-app/src/oakui/graphops.rs` push one composite of
closures, each of which changes the range of one block and has the old range to go back to.

* `BlockClosure`: a length change of `trim_command`, or a new in point.
* `changed`, `reverted`: what the closures of a list make of the core of one block.
* `clipOnTrack`: the queries that both functions begin with, and their errors.

## Main results

* `behaviorOf_redone_closures`, `behaviorOf_undone_closures`: the graph after a composite.
* `Track.redone`: the track after a composite has the same blocks, with changed cores.
-/

namespace Oak.App

open Oak.Core Oak.Node Oak.Timeline Oak.Undo

variable {F β : Type*}

/-! ### Closures on one block -/

/-- The pair of closures of an edit: a length change, or a new in point. -/
inductive BlockClosure where
  | trim (c : TrimCommand)
  | setIn (block : NodeId) (old new : Rational)
  deriving DecidableEq, Repr

namespace BlockClosure

/-- The block that is changed. -/
def block : BlockClosure → NodeId
  | .trim c => c.clip
  | .setIn block _ _ => block

/-- What the first closure does. -/
def change : BlockClosure → BlockCore F → BlockCore F
  | .trim c => c.setLength c.new
  | .setIn _ _ new => fun core => core.setIn new

/-- What the second closure does. -/
def revert : BlockClosure → BlockCore F → BlockCore F
  | .trim c => c.setLength c.old
  | .setIn _ old _ => fun core => core.setIn old

instance : Command BlockClosure (ProjectGraph F β) where
  redo c g := (c, modifyBlock g c.change c.block)
  undo c g := (c, modifyBlock g c.revert c.block)

theorem isClosure (c : BlockClosure) : IsClosure c (ProjectGraph F β) :=
  ⟨fun _ => rfl, fun _ => rfl⟩

theorem track_setLength (c : TrimCommand) (length : Rational) (core : BlockCore F) :
    (c.setLength length core).track = core.track := by
  rw [TrimCommand.setLength]
  split_ifs <;> rfl

theorem track_change (c : BlockClosure) (core : BlockCore F) :
    (c.change core).track = core.track := by
  cases c with
  | trim c => exact track_setLength c _ core
  | setIn block old new => rfl

end BlockClosure

/-! ### Composites of them -/

/-- The core of the block `y` after the closures were run. -/
def changed (cs : List BlockClosure) (y : NodeId) (core : BlockCore F) : BlockCore F :=
  cs.foldl (fun core c => if c.block = y then c.change core else core) core

/-- The core of the block `y` after the closures were taken back. -/
def reverted (cs : List BlockClosure) (y : NodeId) (core : BlockCore F) : BlockCore F :=
  cs.foldr (fun c core => if c.block = y then c.revert core else core) core

variable {cs : List BlockClosure} {y : NodeId}

theorem changed_of_notMem (hy : y ∉ cs.map BlockClosure.block) (core : BlockCore F) :
    changed cs y core = core := by
  induction cs with
  | nil => rfl
  | cons c cs ih =>
    rw [List.map_cons, List.mem_cons, not_or] at hy
    rw [changed, List.foldl_cons, if_neg (Ne.symm hy.1)]
    exact ih hy.2

theorem reverted_of_notMem (hy : y ∉ cs.map BlockClosure.block) (core : BlockCore F) :
    reverted cs y core = core := by
  induction cs with
  | nil => rfl
  | cons c cs ih =>
    rw [List.map_cons, List.mem_cons, not_or] at hy
    rw [reverted, List.foldr_cons, if_neg (Ne.symm hy.1)]
    exact ih hy.2

theorem changed_append (cs cs' : List BlockClosure) (y : NodeId) (core : BlockCore F) :
    changed (cs ++ cs') y core = changed cs' y (changed cs y core) := List.foldl_append ..

theorem reverted_append (cs cs' : List BlockClosure) (y : NodeId) (core : BlockCore F) :
    reverted (cs ++ cs') y core = reverted cs y (reverted cs' y core) := List.foldr_append ..

section

variable (hnodup : (cs.map BlockClosure.block).Nodup) {c : BlockClosure} (hc : c ∈ cs)
  (hy : c.block = y) (core : BlockCore F)

include hnodup hc hy

theorem changed_of_mem : changed cs y core = c.change core := by
  subst hy
  obtain ⟨l, r, rfl⟩ := List.append_of_mem hc
  rw [List.map_append, List.map_cons, List.nodup_middle, List.nodup_cons, List.mem_append,
    not_or] at hnodup
  rw [changed_append, changed_of_notMem hnodup.1.1]
  change changed r c.block (if c.block = c.block then c.change core else core) = _
  rw [if_pos rfl, changed_of_notMem hnodup.1.2]

theorem reverted_of_mem : reverted cs y core = c.revert core := by
  subst hy
  obtain ⟨l, r, rfl⟩ := List.append_of_mem hc
  rw [List.map_append, List.map_cons, List.nodup_middle, List.nodup_cons, List.mem_append,
    not_or] at hnodup
  rw [reverted_append, reverted_of_notMem hnodup.1.1]
  change (if c.block = c.block then c.revert (reverted r c.block core) else _) = _
  rw [if_pos rfl, reverted_of_notMem hnodup.1.2]

end

theorem track_changed (cs : List BlockClosure) (y : NodeId) (core : BlockCore F) :
    (changed cs y core).track = core.track := by
  induction cs generalizing core with
  | nil => rfl
  | cons c cs ih =>
    rw [changed, List.foldl_cons]
    refine (ih _).trans ?_
    split_ifs
    · exact c.track_change core
    · rfl

section Graph

variable {g : ProjectGraph F β}

theorem behaviorOf_modifyBlock_map (f : BlockCore F → BlockCore F) (x y : NodeId) :
    (modifyBlock g f x).behaviorOf y =
      (g.behaviorOf y).map (Behavior.modifyCore fun core => if x = y then f core else core) := by
  rw [behaviorOf_modifyBlock]
  split_ifs with hy hx hx
  · rfl
  · exact absurd hy.symm hx
  · exact absurd hx.symm hy
  · change _ = (g.behaviorOf y).map (Behavior.modifyCore id)
    cases g.behaviorOf y <;> simp

theorem behaviorOf_foldl_redo (cs : List BlockClosure) (g : ProjectGraph F β) (y : NodeId) :
    (cs.foldl (fun g c => (Command.redo c g).2) g).behaviorOf y =
      (g.behaviorOf y).map (Behavior.modifyCore (changed cs y)) := by
  induction cs generalizing g with
  | nil =>
    change _ = (g.behaviorOf y).map (Behavior.modifyCore id)
    cases h : g.behaviorOf y <;> simp [h]
  | cons c cs ih =>
    rw [List.foldl_cons, ih]
    change ((modifyBlock g c.change c.block).behaviorOf y).map _ = _
    rw [behaviorOf_modifyBlock_map, Option.map_map]
    refine congrArg (fun f => (g.behaviorOf y).map f) (funext fun b => ?_)
    exact Behavior.modifyCore_modifyCore ..

theorem behaviorOf_foldr_undo (cs : List BlockClosure) (g : ProjectGraph F β) (y : NodeId) :
    (cs.foldr (fun c g => (Command.undo c g).2) g).behaviorOf y =
      (g.behaviorOf y).map (Behavior.modifyCore (reverted cs y)) := by
  induction cs with
  | nil =>
    change _ = (g.behaviorOf y).map (Behavior.modifyCore id)
    cases h : g.behaviorOf y <;> simp [h]
  | cons c cs ih =>
    rw [List.foldr_cons]
    change (modifyBlock _ c.revert c.block).behaviorOf y = _
    rw [behaviorOf_modifyBlock_map, ih, Option.map_map]
    refine congrArg (fun f => (g.behaviorOf y).map f) (funext fun b => ?_)
    exact Behavior.modifyCore_modifyCore ..

theorem behaviorOf_redone_closures (cs : List BlockClosure) (g : ProjectGraph F β) (y : NodeId) :
    (redone g (pushMulti cs)).behaviorOf y =
      (g.behaviorOf y).map (Behavior.modifyCore (changed cs y)) := by
  rw [redone_pushMulti fun c _ => c.isClosure, behaviorOf_foldl_redo]

theorem behaviorOf_undone_closures (cs : List BlockClosure) (g : ProjectGraph F β) (y : NodeId) :
    (undone g (pushMulti cs)).behaviorOf y =
      (g.behaviorOf y).map (Behavior.modifyCore (reverted cs y ∘ changed cs y)) := by
  rw [undone_pushMulti fun c _ => c.isClosure, behaviorOf_foldr_undo, behaviorOf_redone_closures,
    Option.map_map]
  exact congrArg (fun f => (g.behaviorOf y).map f) (funext fun b => Behavior.modifyCore_modifyCore ..)

/-- The blocks of a track after a composite. -/
def changedBlocks (cs : List BlockClosure) (blocks : List (NodeId × Behavior F β)) :
    List (NodeId × Behavior F β) :=
  blocks.map fun p => (p.1, p.2.modifyCore (changed cs p.1))

theorem track_redone {track : NodeId} {t : TrackBehavior F} {blocks : List (NodeId × Behavior F β)}
    (h : Track g track t blocks) (cs : List BlockClosure) :
    Track (redone g (pushMulti cs)) track t (changedBlocks cs blocks) where
  behavior := by
    rw [behaviorOf_redone_closures, h.behavior]
    rfl
  order := by
    rw [h.order, changedBlocks, List.map_map]
    rfl
  nodup := by
    have hnodup := h.nodup
    rw [changedBlocks, List.map_map]
    exact hnodup
  block p hp := by
    obtain ⟨q, hq, rfl⟩ := List.mem_map.1 hp
    obtain ⟨hb, core, hcore, htrack⟩ := h.block q hq
    refine ⟨by rw [behaviorOf_redone_closures, hb, Option.map_some], changed cs q.1 core, ?_, ?_⟩
    · rw [Behavior.blockCore_modifyCore, hcore, Option.map_some]
    · rw [track_changed, htrack]

/-! ### The clip of an edit -/

/-- What `ripple_trim_clip` and `slide_clip` ask for first: the frame duration, the core of the
clip, and the blocks of its track with the place of the clip among them. -/
def clipOnTrack (rate : NodeId → Option Rational) (g : ProjectGraph F β) (clip : NodeId) :
    Except String (TimeBase × BlockCore F × List NodeId × ℕ) :=
  match (sequenceOf g clip).bind (sequenceTimeBase rate) with
  | none => .error "the clip's sequence has no valid frame rate"
  | some tb =>
    match blockCoreOf g clip with
    | none => .error "the node is not a clip"
    | some core =>
      match blockTrack g clip with
      | none => .error "the clip is not on a track"
      | some track =>
        let blocks := ((trackBehaviorOf g track).map TrackBehavior.blocks).getD []
        match blocks.idxOf? clip with
        | none => .error "the clip is not on its track"
        | some index => .ok (tb, core, blocks, index)

theorem clipOnTrack_eq {rate : NodeId → Option Rational} {tb : TimeBase} {track x : NodeId}
    {t : TrackBehavior F} {b : Behavior F β} {core : BlockCore F}
    {pre post : List (NodeId × Behavior F β)} (h : Track g track t (pre ++ (x, b) :: post))
    (hcore : b.blockCore = some core)
    (htb : (sequenceOf g x).bind (sequenceTimeBase rate) = some tb) :
    clipOnTrack rate g x = .ok (tb, core, t.blocks, pre.length) := by
  obtain ⟨core', hcore', hblock, htrack⟩ := h.exists_core
  obtain rfl := Option.some.inj (hcore.symm.trans hcore')
  have hblocks : ((trackBehaviorOf g track).map TrackBehavior.blocks).getD [] = t.blocks := by
    rw [trackBehaviorOf_eq_some_iff.2 h.behavior]
    rfl
  simp only [clipOnTrack, htb, hblock, blockTrack_eq hblock, htrack, hblocks, h.idxOf?_eq]

end Graph

/-! ### Taking an edit back -/

/-- Every block has the range and the media in point that it had. -/
def Restored (g g' : ProjectGraph F β) : Prop :=
  ∀ y core, blockCoreOf g y = some core → ∃ core', blockCoreOf g' y = some core' ∧
    core'.range = core.range ∧ core'.mediaIn = core.mediaIn

/-- A composite that changes each block once is taken back block by block. -/
theorem restored_undone_iff {g : ProjectGraph F β} (hnodup : (cs.map BlockClosure.block).Nodup) :
    Restored g (undone g (pushMulti cs)) ↔
      ∀ c ∈ cs, ∀ core, blockCoreOf g c.block = some core →
        (c.revert (c.change core)).range = core.range ∧
          (c.revert (c.change core)).mediaIn = core.mediaIn := by
  have hundone (y : NodeId) : blockCoreOf (undone g (pushMulti cs)) y =
      (blockCoreOf g y).map fun core => reverted cs y (changed cs y core) := by
    rw [blockCoreOf, blockCoreOf, behaviorOf_undone_closures]
    cases g.behaviorOf y with
    | none => rfl
    | some b => exact Behavior.blockCore_modifyCore ..
  have hblock {c : BlockClosure} (hc : c ∈ cs) (core : BlockCore F) :
      reverted cs c.block (changed cs c.block core) = c.revert (c.change core) := by
    rw [changed_of_mem hnodup hc rfl, reverted_of_mem hnodup hc rfl]
  constructor
  · intro h c hc core hcore
    obtain ⟨core', hcore', hkept⟩ := h c.block core hcore
    rw [hundone, hcore, Option.map_some, hblock hc] at hcore'
    rw [Option.some.inj hcore']
    exact hkept
  · intro h y core hcore
    refine ⟨_, by rw [hundone, hcore, Option.map_some], ?_⟩
    by_cases hmem : y ∈ cs.map BlockClosure.block
    · obtain ⟨c, hc, rfl⟩ := List.mem_map.1 hmem
      rw [hblock hc]
      exact h c hc core hcore
    · rw [changed_of_notMem hmem, reverted_of_notMem hmem]
      exact ⟨rfl, rfl⟩

/-! ### Two clips -/

/-- A clip of ten seconds at `in_`, which begins with its media at its own in point. -/
def anchoredClip (in_ : Rational) : Behavior ℚ Plain :=
  .clip ⟨⟨⟨in_, in_ + 10⟩, in_, 1, false, [], true, false, 0, some ⟨2, 0⟩⟩, none⟩

/-- A sequence with one video track, which holds two clips that touch. -/
def twoClips : ProjectGraph ℚ Plain :=
  (((((Graph.new.addNode .new (.sequence ⟨[⟨1, 0⟩]⟩)).1.addNode .new
    (.trackList ⟨.video, [⟨2, 0⟩], some ⟨0, 0⟩, 0⟩)).1.addNode .new
    (.track ⟨.video, [⟨3, 0⟩, ⟨4, 0⟩], false, false, 3, 0, some ⟨1, 0⟩⟩)).1.addNode .new
    (anchoredClip 0)).1.addNode .new (anchoredClip 10)).1

theorem track_twoClips : Track twoClips ⟨2, 0⟩
    ⟨.video, [⟨3, 0⟩, ⟨4, 0⟩], false, false, 3, 0, some ⟨1, 0⟩⟩
    ([] ++ (⟨3, 0⟩, anchoredClip 0) :: [(⟨4, 0⟩, anchoredClip 10)]) where
  behavior := rfl
  order := rfl
  nodup := by decide
  block p hp := by
    obtain rfl | rfl : p = (⟨3, 0⟩, anchoredClip 0) ∨ p = (⟨4, 0⟩, anchoredClip 10) := by
      simpa using hp
    · exact ⟨rfl, _, rfl, rfl⟩
    · exact ⟨rfl, _, rfl, rfl⟩

theorem sorted_twoClips : Timeline.Sorted
    ([] ++ (⟨3, 0⟩, anchoredClip 0) :: [(⟨4, 0⟩, anchoredClip 10)]) := by
  constructor
  · intro p hp
    obtain rfl | rfl : p = (⟨3, 0⟩, anchoredClip 0) ∨ p = (⟨4, 0⟩, anchoredClip 10) := by
      simpa using hp
    all_goals norm_num [inOf, outOf, anchoredClip, Behavior.blockCore, BlockCore.in_, BlockCore.out]
  · simp [inOf, outOf, anchoredClip, Behavior.blockCore, BlockCore.in_, BlockCore.out]

theorem timeBase_twoClips :
    (sequenceOf twoClips ⟨3, 0⟩).bind (sequenceTimeBase fun _ => some 10) = some (1, 10) := by
  decide

end Oak.App
