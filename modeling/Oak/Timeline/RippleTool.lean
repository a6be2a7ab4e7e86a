import Oak.Lib.Zones
import Oak.Timeline.ReplaceGap
import Oak.Timeline.Trim

/-!
# The ripple tool

`TrackListRippleToolCommand` of `oak-timeline/src/undoripple.rs`: on each of the listed tracks a
block gets longer or shorter, or a gap is inserted before it. One function goes in both directions.
A block whose length falls to zero leaves its track.

What follows on the track is meant to be shifted. Positions are stored on the blocks, and nothing
but the block itself is changed.

## Main results

* `removeBlock_spec`, `restoreBlock_spec` : a block leaves its track and the graph, and comes back.
* `insertGap_spec` : a new gap in front of a block.
-/

namespace Oak.Timeline

open Oak.Core Oak.Node Oak.Undo

variable {F β : Type*}

/-! ### The command -/

/-- `RippleInfo`. -/
structure RippleInfo where
  block : NodeId
  /-- Whether a gap is inserted instead. -/
  appendGap : Bool

/-- `WorkingData`. -/
structure WorkingData (F β : Type*) where
  createdGap : Option NodeId
  /-- The entry of the created gap while it is detached. -/
  createdGapEntry : Option (NodeEntry F (Behavior F β))
  removedGap : Option NodeId
  /-- The entry of the removed gap while it is detached. -/
  removedGapEntry : Option (NodeEntry F (Behavior F β))
  removedGapAfter : Option NodeId
  oldLength : Rational
  earliestPointOfChange : Rational

/-- `default`. -/
def WorkingData.default : WorkingData F β := ⟨none, none, none, none, none, 0, 0⟩

/-- `TrackListRippleToolCommand`. -/
structure TrackListRippleToolCommand (F β : Type*) where
  trackList : NodeId
  info : List (NodeId × RippleInfo)
  rippleMovement : Rational
  movementMode : MovementMode
  /-- The data of every track, which are the default before its first use. -/
  workingData : NodeId → WorkingData F β

/-- `track_prepend_block`. -/
def trackPrependBlock (g : ProjectGraph F β) (track block : NodeId) : ProjectGraph F β :=
  match trackBehaviorOf g track with
  | none => g
  | some t =>
    setTrack (g.modifyBehavior (fun _ => .track (t.prependBlock block)) track) block (some track)

namespace TrackListRippleToolCommand

/-- `new`. -/
def new (trackList : NodeId) (info : List (NodeId × RippleInfo)) (rippleMovement : Rational)
    (movementMode : MovementMode) : TrackListRippleToolCommand F β :=
  ⟨trackList, info, rippleMovement, movementMode, fun _ => .default⟩

variable (c : TrackListRippleToolCommand F β)

/-- The change of the length of a block, forward or backward. -/
def operationMovement (redo : Bool) : Rational :=
  let movement := if c.movementMode = .trimIn then -c.rippleMovement else c.rippleMovement
  if redo then movement else -movement

/-- The gap that is inserted, which is created once. -/
def createGap [ClipSpeed F] (b : NodeId) (wd : WorkingData F β) (g : ProjectGraph F β) :
    NodeId × ProjectGraph F β :=
  match wd.createdGap with
  | some gap => (gap, g)
  | none =>
    let created := blockGapCreate g
    let g := blockSetIn created.1 created.2 (blockIn created.1 b)
    (created.2, blockSetLengthAndMediaIn g created.2
      (if c.rippleMovement < 0 then -c.rippleMovement else c.rippleMovement))

/-- A gap is inserted before the block. -/
def insertGap [ClipSpeed F] (track b : NodeId) (wd : WorkingData F β) (g : ProjectGraph F β) :
    WorkingData F β × ProjectGraph F β :=
  let created := c.createGap b wd g
  let g := blockAddToGraph created.2 created.1 wd.createdGapEntry
  let g :=
    match blockPrevious g b with
    | some previous => trackInsertBlockAfter g track created.1 (some previous)
    | none => trackPrependBlock g track created.1
  ({ wd with
      createdGap := some created.1
      createdGapEntry := none
      earliestPointOfChange := blockIn g created.1 }, g)

/-- The gap that was inserted leaves its track and the graph. -/
def takeGap (track : NodeId) (wd : WorkingData F β) (g : ProjectGraph F β) :
    WorkingData F β × ProjectGraph F β :=
  match wd.createdGap with
  | none => (wd, g)
  | some gap =>
    let g := trackRippleRemoveBlock g track gap
    match wd.createdGapEntry with
    | some _ => (wd, g)
    | none =>
      ({ wd with createdGapEntry := (blockRemoveFromGraph g gap).1 }, (blockRemoveFromGraph g gap).2)

/-- A block without length leaves its track and the graph. -/
def removeBlock (track b : NodeId) (wd : WorkingData F β) (g : ProjectGraph F β) :
    WorkingData F β × ProjectGraph F β :=
  let removed := blockRemoveFromGraph (trackRippleRemoveBlock g track b) b
  ({ wd with
      removedGap := some b
      removedGapEntry := removed.1
      removedGapAfter := blockPrevious g b
      earliestPointOfChange := blockIn g b }, removed.2)

/-- The block that was removed comes back. -/
def restoreBlock (track : NodeId) (wd : WorkingData F β) (g : ProjectGraph F β) :
    WorkingData F β × ProjectGraph F β :=
  match wd.removedGap with
  | none => (wd, g)
  | some gap =>
    let g := trackInsertBlockAfter (blockAddToGraph g gap wd.removedGapEntry) track gap
      wd.removedGapAfter
    ({ wd with
        removedGapEntry := none
        earliestPointOfChange := blockIn g gap }, g)

/-- A block gets another length. -/
def resizeBlock (b : NodeId) (length : Rational) (wd : WorkingData F β) (g : ProjectGraph F β) :
    WorkingData F β × ProjectGraph F β :=
  if c.movementMode = .trimIn then
    ({ wd with
        oldLength := blockLength g b
        earliestPointOfChange := blockIn g b }, blockSetLengthAndMediaIn g b length)
  else
    ({ wd with
        oldLength := blockLength g b
        earliestPointOfChange := blockOut g b }, blockSetLengthAndMediaOut g b length)

/-- The loop of `ripple`, for one track. -/
def rippleTrack [ClipSpeed F] (redo : Bool) (track : NodeId) (info : RippleInfo)
    (wd : WorkingData F β) (g : ProjectGraph F β) : WorkingData F β × ProjectGraph F β :=
  let newBlockLength := blockLength g info.block + c.operationMovement redo
  if info.appendGap then
    if redo then c.insertGap track info.block wd g else takeGap track wd g
  else if (redo ∧ newBlockLength = 0) ∨ (¬ redo ∧ (blockTrack g info.block).isNone) then
    if redo then removeBlock track info.block wd g else restoreBlock track wd g
  else c.resizeBlock info.block newBlockLength wd g

/-- The data of the tracks and the graph after one of the tracks. -/
def step [ClipSpeed F] (redo : Bool) (s : (NodeId → WorkingData F β) × ProjectGraph F β)
    (p : NodeId × RippleInfo) : (NodeId → WorkingData F β) × ProjectGraph F β :=
  let r := c.rippleTrack redo p.1 p.2 (s.1 p.1) s.2
  (Function.update s.1 p.1 r.1, r.2)

/-- `ripple`. -/
def ripple [ClipSpeed F] (redo : Bool) (g : ProjectGraph F β) :
    TrackListRippleToolCommand F β × ProjectGraph F β :=
  let run := c.info.foldl (c.step redo) (c.workingData, g)
  ({ c with workingData := run.1 }, run.2)

/-- `redo`. -/
def redo [ClipSpeed F] (g : ProjectGraph F β) :
    TrackListRippleToolCommand F β × ProjectGraph F β := c.ripple true g

/-- `undo`. -/
def undo [ClipSpeed F] (g : ProjectGraph F β) :
    TrackListRippleToolCommand F β × ProjectGraph F β := c.ripple false g

end TrackListRippleToolCommand

open TrackListRippleToolCommand

/-! ### One track -/

section Steps

variable {g : ProjectGraph F β} {track x : NodeId} {t : TrackBehavior F} {b : Behavior F β}
  {core : BlockCore F} {pre post : List (NodeId × Behavior F β)}
  {c : TrackListRippleToolCommand F β} {wd : WorkingData F β} {length : Rational}

/-- A core with another length. -/
def resized (mode : MovementMode) (length : Rational) (c : BlockCore F) : BlockCore F :=
  if mode = .trimIn then c.setLengthAndMediaIn length else c.setLengthAndMediaOut length

theorem resized_track (mode : MovementMode) (length : Rational) (c : BlockCore F) :
    (resized mode length c).track = c.track := by
  rw [resized]
  split_ifs <;> rfl

theorem resizeBlock_snd (c : TrackListRippleToolCommand F β) (x : NodeId) (length : Rational)
    (wd : WorkingData F β) (g : ProjectGraph F β) :
    (c.resizeBlock x length wd g).2 = modifyBlock g (resized c.movementMode length) x := by
  rw [resizeBlock]
  split_ifs with hmode
  · have hcore : resized c.movementMode length =
        fun k : BlockCore F => k.setLengthAndMediaIn length := by
      funext k
      rw [resized, if_pos hmode]
    rw [hcore]
    rfl
  · have hcore : resized c.movementMode length =
        fun k : BlockCore F => k.setLengthAndMediaOut length := by
      funext k
      rw [resized, if_neg hmode]
    rw [hcore]
    rfl

/-- A block leaves its track and the graph. -/
theorem removeBlock_spec (h : Track g track t (pre ++ (x, b) :: post)) (wd : WorkingData F β) :
    ∃ entry g', (removeBlock track x wd g).2 = g' ∧
      (removeBlock track x wd g).1.removedGap = some x ∧
      (removeBlock track x wd g).1.removedGapEntry = some entry ∧
      (removeBlock track x wd g).1.removedGapAfter =
        (pre.map Prod.fst).getLast? ∧
      entry.behavior = b.modifyCore withoutTrack ∧ Detached g' x entry ∧
      (∀ y e, Detached g y e → Detached g' y e) ∧
      ∀ y, g'.behaviorOf y =
        if y = track then some (.track { t with blocks := (pre ++ post).map Prod.fst })
        else if y = x then none else g.behaviorOf y := by
  have hxtrack : x ≠ track := h.ne_track (p := (x, b)) (by simp)
  have hremove := h.behaviorOf_remove
  have hx : (trackRippleRemoveBlock g track x).behaviorOf x = some (b.modifyCore withoutTrack) := by
    rw [hremove, if_neg hxtrack, if_pos rfl, h.behaviorOf, Option.map_some]
  obtain ⟨entry, g', htake, hentry, hdetached, hbehavior, hkept⟩ := blockRemoveFromGraph_spec hx
  refine ⟨entry, g', ?_, rfl, ?_, h.blockPrevious_eq, hentry, hdetached, fun y e hy => ?_,
    fun y => ?_⟩
  · rw [removeBlock, htake]
  · rw [removeBlock, htake]
  · exact hkept y e (hy.congr fun n hn => ⟨n, vacant_trackRippleRemoveBlock.2 hn⟩)
  · rw [hbehavior, hremove]
    by_cases hy : y = track
    · rw [if_pos hy, if_pos hy, if_neg (hy ▸ Ne.symm hxtrack)]
    rw [if_neg hy, if_neg hy]
    split_ifs
    · rfl
    · rfl

/-- The block is back in its place. -/
theorem restoreBlock_spec {g₀ : ProjectGraph F β} {entry : NodeEntry F (Behavior F β)}
    (h : Track g₀ track t (pre ++ (x, b) :: post))
    (hg : Track g track { t with blocks := (pre ++ post).map Prod.fst } (pre ++ post))
    (hgap : wd.removedGap = some x) (hentry : wd.removedGapEntry = some entry)
    (hafter : wd.removedGapAfter = (pre.map Prod.fst).getLast?)
    (hbehavior : entry.behavior = b.modifyCore withoutTrack) (hdetached : Detached g x entry)
    (y : NodeId) :
    (restoreBlock track wd g).2.behaviorOf y =
      if y = track then some (.track t) else if y = x then some b else g.behaviorOf y := by
  have hxtrack : x ≠ track := h.ne_track (p := (x, b)) (by simp)
  have hback := hdetached.behaviorOf_blockAddToGraph
  have htrack : (blockAddToGraph g x (some entry)).behaviorOf track =
      some (.track { t with blocks := (pre ++ post).map Prod.fst }) := by
    rw [hback, if_neg (Ne.symm hxtrack), hg.behavior]
  have hnodup : (pre.map Prod.fst).Nodup := by
    have hall := hg.nodup
    rw [List.map_append] at hall
    exact (List.nodup_append.1 hall).1
  have horder : { t with blocks := pre.map Prod.fst ++ x :: post.map Prod.fst } = t := by
    have heq : t.blocks = pre.map Prod.fst ++ x :: post.map Prod.fst := by
      rw [h.order, List.map_append, List.map_cons]
    rw [← heq]
  simp only [restoreBlock, hgap, hentry, hafter]
  rw [behaviorOf_trackInsertBlockAfter htrack (by rw [List.map_append]) hnodup hxtrack]
  simp only [horder]
  by_cases hy : y = track
  · rw [if_pos hy, if_pos hy]
  rw [if_neg hy, if_neg hy]
  by_cases hyx : y = x
  · obtain ⟨core, hcore, -, howner⟩ := h.exists_core
    rw [if_pos hyx, if_pos hyx, hyx, hback, if_pos rfl, hbehavior, Option.map_some,
      Behavior.modifyCore_modifyCore]
    refine congrArg some (Behavior.modifyCore_eq_self hcore ?_)
    rw [Function.comp_apply, withoutTrack, ← howner]
  · rw [if_neg hyx, if_neg hyx, hback, if_neg hyx]

theorem trackPrependBlock_eq (g : ProjectGraph F β) (track x : NodeId) :
    trackPrependBlock g track x = trackInsertBlockAfter g track x none := by
  rw [trackPrependBlock, trackInsertBlockAfter]
  rcases trackBehaviorOf g track with _ | t <;> rfl

/-- There is room for `n` more nodes. -/
def Roomy (n : ℕ) (g : ProjectGraph F β) : Prop :=
  ∃ carried, g.Sound carried ∧ g.entries.length + n < u32Size

namespace Roomy

variable {n m : ℕ}

theorem mono (h : Roomy n g) (hle : m ≤ n) : Roomy m g := by
  obtain ⟨carried, hsound, hroom⟩ := h
  exact ⟨carried, hsound, by omega⟩

theorem modifyBehavior (h : Roomy n g) (f : Behavior F β → Behavior F β) (y : NodeId) :
    Roomy n (g.modifyBehavior f y) := by
  obtain ⟨carried, hsound, hroom⟩ := h
  exact ⟨carried, hsound.modifyBehavior f y, by rwa [Graph.length_modifyBehavior]⟩

theorem setTrack (h : Roomy n g) (f : Behavior F β → Behavior F β) (y z : NodeId)
    (owner : Option NodeId) : Roomy n (setTrack (g.modifyBehavior f y) z owner) :=
  (h.modifyBehavior f y).modifyBehavior _ z

theorem trackInsertBlockAfter (h : Roomy n g) (track x : NodeId) (before : Option NodeId) :
    Roomy n (trackInsertBlockAfter g track x before) := by
  rw [Timeline.trackInsertBlockAfter]
  split
  · exact h
  split
  · exact h
  · exact h.setTrack _ _ _ _

theorem trackRippleRemoveBlock (h : Roomy n g) (track x : NodeId) :
    Roomy n (trackRippleRemoveBlock g track x) := by
  rw [Timeline.trackRippleRemoveBlock]
  split
  · exact h
  · exact h.setTrack _ _ _ _

theorem blockRemoveFromGraph (h : Roomy n g) (x : NodeId) :
    Roomy n (blockRemoveFromGraph g x).2 := by
  obtain ⟨carried, hsound, hroom⟩ := h
  rcases htake : g.takeNode x with _ | ⟨g', entry⟩
  · rw [Timeline.blockRemoveFromGraph, htake]
    exact ⟨carried, hsound, hroom⟩
  · rw [Timeline.blockRemoveFromGraph, htake]
    refine ⟨_, hsound.takeNode htake, ?_⟩
    obtain ⟨-, hshells, -⟩ := Graph.takeNode_spec htake
    have hlength := congrArg List.length hshells
    rw [Graph.length_shells, List.length_set, Graph.length_shells] at hlength
    change g'.entries.length + n < u32Size
    omega

end Roomy

theorem createGap_spec [ClipSpeed F] {n : ℕ} (h : Track g track t (pre ++ (x, b) :: post))
    (hnone : wd.createdGap = none) (hroom : Roomy (n + 1) g) :
    Roomy n (c.createGap x wd g).2 ∧ g.behaviorOf (c.createGap x wd g).1 = none ∧
      ∀ y, (c.createGap x wd g).2.behaviorOf y = if y = (c.createGap x wd g).1 then
        some (.gap ⟨newGapCore (inOf b) |c.rippleMovement|⟩) else g.behaviorOf y := by
  obtain ⟨carried, hsound, hroom⟩ := hroom
  obtain ⟨hfresh, hcreated⟩ := Graph.behaviorOf_allocate hsound.freeVacant (by omega)
    NodeCore.new (.gap ⟨.default⟩ : Behavior F β)
  have hlength := Graph.length_allocate_le (g := g) NodeCore.new (.gap ⟨.default⟩ : Behavior F β)
  have hnew : Roomy n (blockGapCreate g).1 :=
    ⟨_, hsound.allocate NodeCore.new (.gap ⟨.default⟩ : Behavior F β), by
      change (g.allocate NodeCore.new (.gap ⟨.default⟩ : Behavior F β)).1.entries.length + n < _
      omega⟩
  obtain ⟨core, hcore, hxcore, -⟩ := h.exists_core
  have hne : x ≠ (blockGapCreate g).2 := by
    intro heq
    have hnot := h.behaviorOf
    rw [heq] at hnot
    exact absurd (hfresh.symm.trans hnot) (by simp)
  have hblockIn : blockIn (blockGapCreate g).1 x = inOf b := by
    rw [inOf_eq hcore]
    refine blockIn_eq ?_
    rw [← hxcore, blockCoreOf, blockCoreOf]
    exact congrArg (fun b : Option (Behavior F β) => b.bind Behavior.blockCore)
      ((hcreated x).trans (if_neg hne))
  have habs : (if c.rippleMovement < 0 then -c.rippleMovement else c.rippleMovement) =
      |c.rippleMovement| := by
    split_ifs with hneg
    · rw [abs_of_neg hneg]
    · rw [abs_of_nonneg (not_lt.1 hneg)]
  have heq : c.createGap x wd g = ((blockGapCreate g).2, blockSetLengthAndMediaIn
      (blockSetIn (blockGapCreate g).1 (blockGapCreate g).2 (inOf b)) (blockGapCreate g).2
        |c.rippleMovement|) := by
    simp only [createGap, hnone, habs, hblockIn]
  rw [heq]
  refine ⟨(hnew.modifyBehavior _ _).modifyBehavior _ _, hfresh, fun y => ?_⟩
  have hbehavior : (blockGapCreate g).1.behaviorOf y = if y = (blockGapCreate g).2 then
      some (.gap ⟨.default⟩) else g.behaviorOf y := hcreated y
  rw [blockSetLengthAndMediaIn, behaviorOf_modifyBlock, blockSetIn, behaviorOf_modifyBlock,
    hbehavior]
  split_ifs
  · rw [Option.map_some, Option.map_some, Behavior.modifyCore, Behavior.modifyCore,
      setLength_setIn_default (abs_nonneg _)]
  · rfl

/-- A new gap comes before the block. -/
theorem insertGap_spec [ClipSpeed F] {n : ℕ} (h : Track g track t (pre ++ (x, b) :: post))
    (hnone : wd.createdGap = none) (hentry : wd.createdGapEntry = none)
    (hroom : Roomy (n + 1) g) :
    Roomy n (c.insertGap track x wd g).2 ∧ ∃ gap, g.behaviorOf gap = none ∧
      ∀ y, (c.insertGap track x wd g).2.behaviorOf y =
        if y = track then some (.track
          { t with blocks := pre.map Prod.fst ++ gap :: x :: post.map Prod.fst })
        else if y = gap then some (.gap ⟨{ newGapCore (inOf b) |c.rippleMovement| with
          track := some track }⟩)
        else g.behaviorOf y := by
  obtain ⟨hnew, hfresh, hcreated⟩ := createGap_spec (c := c) h hnone hroom
  have hkept {y : NodeId} {b' : Behavior F β} (hy : g.behaviorOf y = some b') :
      y ≠ (c.createGap x wd g).1 := by
    rintro rfl
    exact absurd (hfresh.symm.trans hy) (by simp)
  have htrack : Track (c.createGap x wd g).2 track t (pre ++ (x, b) :: post) :=
    h.congr (by rw [hcreated, if_neg (hkept h.behavior)]) fun p hp => by
      rw [hcreated, if_neg (hkept (h.block p hp).1)]
  have hgap : (c.createGap x wd g).1 ≠ track := Ne.symm (hkept h.behavior)
  have hinsert : (c.insertGap track x wd g).2 = trackInsertBlockAfter (c.createGap x wd g).2 track
      (c.createGap x wd g).1 (pre.map Prod.fst).getLast? := by
    rw [insertGap]
    simp only [hentry]
    change (match blockPrevious (c.createGap x wd g).2 x with
      | some previous => trackInsertBlockAfter (c.createGap x wd g).2 track _ (some previous)
      | none => trackPrependBlock (c.createGap x wd g).2 track _) = _
    rw [htrack.blockPrevious_eq]
    rcases (pre.map Prod.fst).getLast? with _ | previous
    · exact trackPrependBlock_eq _ _ _
    · rfl
  have horder : t.blocks = pre.map Prod.fst ++ x :: post.map Prod.fst := by
    rw [h.order, List.map_append, List.map_cons]
  have hnodup : (pre.map Prod.fst).Nodup := by
    have hall := h.nodup
    rw [List.map_append] at hall
    exact (List.nodup_append.1 hall).1
  rw [hinsert]
  refine ⟨hnew.trackInsertBlockAfter _ _ _, (c.createGap x wd g).1, hfresh, fun y => ?_⟩
  rw [behaviorOf_trackInsertBlockAfter htrack.behavior horder hnodup hgap, hcreated]
  by_cases hy : y = track
  · rw [if_pos hy, if_pos hy]
  rw [if_neg hy, if_neg hy]
  split_ifs
  · rfl
  · rfl

end Steps

end Oak.Timeline
