import Oak.Timeline.RippleTool

/-!
# A pass of the ripple tool

What `TrackListRippleToolCommand` does on one track does not depend on the other tracks. A pass in
either direction is told by what it leaves on each track.

* `RippleOp` : what is asked of one track.
* `Rippled` : what a block and its track become.

## Main results

* `pass_redo`, `pass_undo` : what the two directions leave on every track.
* `pass_append` : a gap that is appended is on its track, in front of the block.
-/

namespace Oak.Timeline

open Oak.Core Oak.Node Oak.Lib
open TrackListRippleToolCommand

variable {F β : Type*}

/-! ### Operations -/

/-- What is asked of one track. -/
structure RippleOp (F β : Type*) where
  track : NodeId
  t : TrackBehavior F
  before : List (NodeId × Behavior F β)
  block : NodeId × Behavior F β
  behind : List (NodeId × Behavior F β)
  /-- Whether a gap is inserted instead. -/
  appendGap : Bool

/-- What a length changes by. -/
def rippleAmount (mode : MovementMode) (movement : Rational) : Rational :=
  if mode = .trimIn then -movement else movement

namespace RippleOp

variable (o : RippleOp F β)

/-- The blocks of the track. -/
def blocks : List (NodeId × Behavior F β) := o.before ++ o.block :: o.behind

/-- The entry for the track. -/
def info : NodeId × RippleInfo := (o.track, ⟨o.block.1, o.appendGap⟩)

/-- The length that the block is to have. -/
def length (mode : MovementMode) (movement : Rational) : Rational :=
  outOf o.block.2 - inOf o.block.2 + rippleAmount mode movement

/-- The times of the operation: the span of the block, and its length in both directions. -/
def times (mode : MovementMode) (movement : Rational) : List Rational :=
  let (i, e, n) := (inOf o.block.2, outOf o.block.2, o.length mode movement)
  [i, e, e - i, movement, n, n + n - (e - i), i + n, e - n, i + 1, i + |movement|]

/-- The track and its blocks. -/
def Zone (y : NodeId) : Prop := y = o.track ∨ y ∈ o.blocks.map Prod.fst

/-- The track without the block. -/
def without : TrackBehavior F := { o.t with blocks := (o.before ++ o.behind).map Prod.fst }

theorem mem_blocks : o.block ∈ o.blocks := by simp [blocks]

end RippleOp

/-- The operations are on tracks of their own, and the tracks are well formed. -/
structure Rippleable (g : ProjectGraph F β) (ops : List (RippleOp F β)) : Prop where
  nodup : (ops.map RippleOp.track).Nodup
  track : ∀ o ∈ ops, Track g o.track o.t o.blocks
  sorted : ∀ o ∈ ops, Sorted o.blocks
  room : Roomy ops.length g

theorem Track.disjoint {g : ProjectGraph F β} {track track' : NodeId} {t t' : TrackBehavior F}
    {blocks blocks' : List (NodeId × Behavior F β)} (h : Track g track t blocks)
    (h' : Track g track' t' blocks') (hne : track ≠ track') {y : NodeId}
    (hy : y = track' ∨ y ∈ blocks'.map Prod.fst) :
    y ≠ track ∧ y ∉ blocks.map Prod.fst := by
  rcases hy with rfl | hy
  · refine ⟨Ne.symm hne, fun hmem => ?_⟩
    obtain ⟨p, hp, rfl⟩ := List.mem_map.1 hmem
    obtain ⟨hb, core, hcore, -⟩ := h.block p hp
    exact (ne_of_blockCore h'.behavior hb hcore) rfl
  · obtain ⟨p, hp, rfl⟩ := List.mem_map.1 hy
    obtain ⟨hb, core, hcore, howner⟩ := h'.block p hp
    refine ⟨ne_of_blockCore h.behavior hb hcore, fun hmem => ?_⟩
    obtain ⟨q, hq, heq⟩ := List.mem_map.1 hmem
    obtain ⟨hqb, qcore, hqcore, hqowner⟩ := h.block q hq
    rw [heq, hb] at hqb
    rw [← Option.some.inj hqb, hcore] at hqcore
    rw [← Option.some.inj hqcore, howner] at hqowner
    exact hne (Option.some.inj hqowner).symm

namespace Rippleable

variable {g : ProjectGraph F β} {ops : List (RippleOp F β)} {o o' : RippleOp F β}

section

variable (h : Rippleable g ops) (ho : o ∈ ops)

include h ho

theorem track_ne (ho' : o' ∈ ops) (hne : o ≠ o') : o.track ≠ o'.track :=
  fun heq => hne (List.inj_on_of_nodup_map h.nodup ho ho' heq)

theorem zone_disjoint (ho' : o' ∈ ops) (hne : o ≠ o') {y : NodeId} (hy : o'.Zone y) :
    ¬ o.Zone y := by
  obtain ⟨hytrack, hyblocks⟩ := (h.track o ho).disjoint (h.track o' ho') (h.track_ne ho ho' hne) hy
  exact fun hzone => hzone.elim hytrack hyblocks

theorem isValid : g.isValid o.block.1 = true :=
  Graph.isValid_of_behaviorOf ((h.track o ho).block o.block o.mem_blocks).1

theorem index_ne (ho' : o' ∈ ops) (hne : o ≠ o') : o.block.1.index ≠ o'.block.1.index := by
  intro hindex
  have heq := isValid_congr_index (h.isValid ho) (h.isValid ho') hindex
  refine h.zone_disjoint ho ho' hne (y := o.block.1) ?_ ?_
  · rw [heq]
    exact .inr (List.mem_map_of_mem o'.mem_blocks)
  · exact .inr (List.mem_map_of_mem o.mem_blocks)

end

theorem ops_nodup (h : Rippleable g ops) : ops.Nodup := h.nodup.of_map

end Rippleable

/-! ### What a pass leaves -/

/-- The data of the tracks and the graph. -/
abbrev RippleState (F β : Type*) := (NodeId → WorkingData F β) × ProjectGraph F β

/-- The block is out of the graph, and can come back. -/
structure Removed (o : RippleOp F β) (s : RippleState F β)
    (entry : NodeEntry F (Behavior F β)) : Prop where
  gap : (s.1 o.track).removedGap = some o.block.1
  taken : (s.1 o.track).removedGapEntry = some entry
  after : (s.1 o.track).removedGapAfter = (o.before.map Prod.fst).getLast?
  behavior : entry.behavior = o.block.2.modifyCore withoutTrack
  detached : Detached s.2 o.block.1 entry
  track : Track s.2 o.track o.without (o.before ++ o.behind)

/-- The block has the core that `f` makes of it. -/
def Changed (f : BlockCore F → BlockCore F) (o : RippleOp F β) (s : RippleState F β) : Prop :=
  Track s.2 o.track o.t (o.before ++ (o.block.1, o.block.2.modifyCore f) :: o.behind)

/-- After `redo`. -/
def Rippled (mode : MovementMode) (movement : Rational) (o : RippleOp F β)
    (s : RippleState F β) : Prop :=
  (o.length mode movement = 0 → ∃ entry, Removed o s entry) ∧
    (o.length mode movement ≠ 0 → Changed (resized mode (o.length mode movement)) o s)

/-- A core that was resized, and then resized back. -/
def undone (mode : MovementMode) (amount : Rational) (c : BlockCore F) : BlockCore F :=
  resized mode ((resized mode (c.length + amount) c).length - amount)
    (resized mode (c.length + amount) c)

/-- After `undo`. -/
def Restored (mode : MovementMode) (movement : Rational) (o : RippleOp F β)
    (s : RippleState F β) : Prop :=
  (o.length mode movement = 0 → Track s.2 o.track o.t o.blocks) ∧
    (o.length mode movement ≠ 0 → Changed (undone mode (rippleAmount mode movement)) o s)

/-- Two states are the same for an operation. -/
structure SameFor (o : RippleOp F β) (s s' : RippleState F β) : Prop where
  data : s'.1 o.track = s.1 o.track
  behavior : ∀ y, o.Zone y → s'.2.behaviorOf y = s.2.behaviorOf y
  detached : ∀ entry, Detached s.2 o.block.1 entry → Detached s'.2 o.block.1 entry

variable {entry : NodeEntry F (Behavior F β)} {f : BlockCore F → BlockCore F}

section SameFor

variable {o : RippleOp F β} {s s' : RippleState F β} {mode : MovementMode} {movement : Rational}

theorem SameFor.track (h : SameFor o s s') {t : TrackBehavior F}
    {blocks : List (NodeId × Behavior F β)} (hsub : ∀ p ∈ blocks, p.1 ∈ o.blocks.map Prod.fst)
    (htrack : Track s.2 o.track t blocks) : Track s'.2 o.track t blocks :=
  htrack.congr (h.behavior _ (.inl rfl)) fun p hp => h.behavior _ (.inr (hsub p hp))

theorem SameFor.removed (h : SameFor o s s') (hs : Removed o s entry) : Removed o s' entry where
  gap := by rw [h.data, hs.gap]
  taken := by rw [h.data, hs.taken]
  after := by rw [h.data, hs.after]
  behavior := hs.behavior
  detached := h.detached entry hs.detached
  track := h.track (fun p hp => by
    refine List.mem_map_of_mem ?_
    rcases List.mem_append.1 hp with hp | hp
    · exact List.mem_append_left _ hp
    · exact List.mem_append_right _ (List.mem_cons_of_mem _ hp)) hs.track

theorem SameFor.changed (h : SameFor o s s') (hs : Changed f o s) : Changed f o s' :=
  h.track (fun p hp => by
    have hids : p.1 ∈ (o.before ++ (o.block.1, o.block.2.modifyCore f) :: o.behind).map Prod.fst :=
      List.mem_map_of_mem hp
    simpa [RippleOp.blocks] using hids) hs

theorem SameFor.rippled (h : SameFor o s s') (hs : Rippled mode movement o s) :
    Rippled mode movement o s' :=
  ⟨fun hzero => (hs.1 hzero).imp fun _ => h.removed, fun hne => h.changed (hs.2 hne)⟩

theorem SameFor.restored (h : SameFor o s s') (hs : Restored mode movement o s) :
    Restored mode movement o s' :=
  ⟨fun hzero => h.track (fun _ hp => List.mem_map_of_mem hp) (hs.1 hzero),
    fun hne => h.changed (hs.2 hne)⟩

end SameFor

/-! ### One step -/

theorem Track.blockLength_eq {g : ProjectGraph F β} {track x : NodeId} {t : TrackBehavior F}
    {b : Behavior F β} {pre post : List (NodeId × Behavior F β)}
    (h : Track g track t (pre ++ (x, b) :: post)) : blockLength g x = outOf b - inOf b := by
  obtain ⟨core, hcore, hxcore, -⟩ := h.exists_core
  rw [Timeline.blockLength_eq hxcore, BlockCore.length_eq, inOf_eq hcore, outOf_eq hcore]

section Step

variable [ClipSpeed F] {c : TrackListRippleToolCommand F β} {o : RippleOp F β}
  {s : RippleState F β}

omit [ClipSpeed F] in
theorem operationMovement_true :
    c.operationMovement true = rippleAmount c.movementMode c.rippleMovement := rfl

omit [ClipSpeed F] in
theorem operationMovement_false :
    c.operationMovement false = -rippleAmount c.movementMode c.rippleMovement := rfl

theorem step_fst_of_ne (redo : Bool) {k : NodeId} (hk : k ≠ o.track) :
    (c.step redo s o.info).1 k = s.1 k :=
  Function.update_of_ne hk _ _

section

variable (h : Track s.2 o.track o.t o.blocks) (happend : o.appendGap = false)

include h happend

/-- A step of `redo` without a new gap. -/
theorem step_true_eq :
    c.step true s o.info =
      if o.length c.movementMode c.rippleMovement = 0 then
        (Function.update s.1 o.track
          (removeBlock o.track o.block.1 (s.1 o.track) s.2).1,
          (removeBlock o.track o.block.1 (s.1 o.track) s.2).2)
      else
        (Function.update s.1 o.track (c.resizeBlock o.block.1
          (o.length c.movementMode c.rippleMovement) (s.1 o.track) s.2).1,
          modifyBlock s.2 (resized c.movementMode (o.length c.movementMode c.rippleMovement))
            o.block.1) := by
  have hlength : blockLength s.2 o.block.1 + c.operationMovement true =
      o.length c.movementMode c.rippleMovement := by
    rw [h.blockLength_eq (x := o.block.1) (b := o.block.2), operationMovement_true]
    rfl
  rw [step, RippleOp.info]
  simp only [rippleTrack, hlength, happend, Bool.false_eq_true, if_false,
    true_and, not_true_eq_false, false_and, or_false, if_true]
  split_ifs
  · rfl
  · rw [resizeBlock_snd]

theorem step_true_rippled : Rippled c.movementMode c.rippleMovement o (c.step true s o.info) := by
  rw [step_true_eq h happend]
  refine ⟨fun hzero => ?_, fun hne => ?_⟩
  · obtain ⟨entry, g', hrun, hgap, htaken, hafter, hbehavior, hdetached, -, hg'⟩ :=
      removeBlock_spec (x := o.block.1) (b := o.block.2) h (s.1 o.track)
    rw [if_pos hzero]
    refine ⟨entry, ?_, ?_, ?_, hbehavior, ?_, ?_⟩
    · dsimp only
      rw [Function.update_self, hgap]
    · dsimp only
      rw [Function.update_self, htaken]
    · dsimp only
      rw [Function.update_self, hafter]
    · rwa [hrun]
    · rw [hrun]
      refine ⟨by rw [hg', if_pos rfl]; rfl, rfl, ?_, fun p hp => ?_⟩
      · have hnodup := h.nodup
        rw [RippleOp.blocks, List.map_append, List.map_cons, List.nodup_middle, List.nodup_cons]
          at hnodup
        rw [List.map_append]
        exact hnodup.2
      · have hmem : p ∈ o.blocks := by
          rcases List.mem_append.1 hp with hp | hp
          · exact List.mem_append_left _ hp
          · exact List.mem_append_right _ (List.mem_cons_of_mem _ hp)
        rw [hg', if_neg (h.ne_track hmem), if_neg (h.fst_ne (x := o.block.1) (b := o.block.2) hp)]
        exact h.block p hmem
  · rw [if_neg hne]
    exact h.modifyBlock (x := o.block.1) (b := o.block.2) (resized_track _ _)

theorem step_true_frame :
    (∀ y, ¬ o.Zone y → (c.step true s o.info).2.behaviorOf y = s.2.behaviorOf y) ∧
      ∀ y entry, Detached s.2 y entry → Detached (c.step true s o.info).2 y entry := by
  rw [step_true_eq h happend]
  split_ifs
  · obtain ⟨entry, g', hrun, -, -, -, -, -, hkept, hg'⟩ :=
      removeBlock_spec (x := o.block.1) (b := o.block.2) h (s.1 o.track)
    rw [hrun]
    refine ⟨fun y hy => ?_, hkept⟩
    rw [hg', if_neg fun heq => hy (.inl heq), if_neg fun heq => hy (.inr ?_)]
    rw [heq]
    exact List.mem_map_of_mem o.mem_blocks
  · refine ⟨fun y hy => ?_, fun y entry hy => hy.congr fun n hn =>
      ⟨n, (vacant_modifyBlock _).2 hn⟩⟩
    rw [behaviorOf_modifyBlock, if_neg fun heq => hy (.inr ?_)]
    rw [heq]
    exact List.mem_map_of_mem o.mem_blocks

end

theorem step_false_removed (h : Removed o s entry) (happend : o.appendGap = false) :
    c.step false s o.info = (Function.update s.1 o.track
      (restoreBlock o.track (s.1 o.track) s.2).1,
      (restoreBlock o.track (s.1 o.track) s.2).2) := by
  have hnone : blockTrack s.2 o.block.1 = none := by
    rw [blockTrack, blockCoreOf, h.detached.behaviorOf_eq_none]
    rfl
  rw [step, RippleOp.info]
  simp only [rippleTrack, happend, hnone, Bool.false_eq_true, if_false,
    Option.isNone_none, not_false_eq_true, and_self, or_true, if_true]

theorem step_false_changed (h : Changed f o s) (happend : o.appendGap = false) {core : BlockCore F}
    (hcore : o.block.2.blockCore = some core) :
    c.step false s o.info = (Function.update s.1 o.track (c.resizeBlock o.block.1
      ((f core).length - rippleAmount c.movementMode c.rippleMovement) (s.1 o.track) s.2).1,
      modifyBlock s.2 (resized c.movementMode
        ((f core).length - rippleAmount c.movementMode c.rippleMovement)) o.block.1) := by
  obtain ⟨core', hcore', hxcore, howner⟩ := h.exists_core
  rw [Behavior.blockCore_modifyCore, hcore, Option.map_some] at hcore'
  obtain rfl := Option.some.inj hcore'
  have hsome : blockTrack s.2 o.block.1 = some o.track := by
    rw [blockTrack_eq hxcore, howner]
  have hlength : blockLength s.2 o.block.1 + c.operationMovement false =
      (f core).length - rippleAmount c.movementMode c.rippleMovement := by
    rw [blockLength_eq hxcore, operationMovement_false, sub_eq_add_neg]
  rw [step, RippleOp.info]
  simp only [rippleTrack, hlength, happend, hsome, Bool.false_eq_true,
    if_false, Option.isNone_some, not_false_eq_true, and_false, false_and, or_false]
  rw [resizeBlock_snd]

section

variable {g : ProjectGraph F β} (h₀ : Track g o.track o.t o.blocks)
  (h : Rippled c.movementMode c.rippleMovement o s) (happend : o.appendGap = false)

include h₀ h happend

theorem step_false_restored :
    Restored c.movementMode c.rippleMovement o (c.step false s o.info) := by
  refine ⟨fun hzero => ?_, fun hne => ?_⟩
  · obtain ⟨entry, hs⟩ := h.1 hzero
    rw [step_false_removed hs happend]
    have hback := restoreBlock_spec (x := o.block.1) (b := o.block.2) h₀ hs.track hs.gap hs.taken
      hs.after hs.behavior hs.detached
    refine ⟨by rw [hback, if_pos rfl], h₀.order, h₀.nodup, fun p hp => ⟨?_, (h₀.block p hp).2⟩⟩
    rw [hback, if_neg (h₀.ne_track hp)]
    rcases List.mem_append.1 hp with hp' | hp'
    · have hmem := List.mem_append_left o.behind hp'
      rw [if_neg (h₀.fst_ne (x := o.block.1) (b := o.block.2) hmem)]
      exact (hs.track.block p hmem).1
    rcases List.mem_cons.1 hp' with rfl | hp'
    · rw [if_pos rfl]
    · have hmem := List.mem_append_right o.before hp'
      rw [if_neg (h₀.fst_ne (x := o.block.1) (b := o.block.2) hmem)]
      exact (hs.track.block p hmem).1
  · obtain ⟨core, hcore, -, -⟩ := h₀.exists_core (x := o.block.1) (b := o.block.2)
    have hs := h.2 hne
    have hlength : o.length c.movementMode c.rippleMovement =
        core.length + rippleAmount c.movementMode c.rippleMovement := by
      rw [RippleOp.length, inOf_eq hcore, outOf_eq hcore, BlockCore.length_eq]
    rw [step_false_changed hs happend hcore]
    have hback := hs.modifyBlock (resized_track c.movementMode
      ((resized c.movementMode (o.length c.movementMode c.rippleMovement) core).length -
        rippleAmount c.movementMode c.rippleMovement))
    have hsame : (o.block.2.modifyCore (resized c.movementMode
        (o.length c.movementMode c.rippleMovement))).modifyCore (resized c.movementMode
          ((resized c.movementMode (o.length c.movementMode c.rippleMovement) core).length -
            rippleAmount c.movementMode c.rippleMovement)) =
        o.block.2.modifyCore (undone c.movementMode
          (rippleAmount c.movementMode c.rippleMovement)) := by
      rw [Behavior.modifyCore_modifyCore]
      refine Behavior.modifyCore_congr hcore ?_
      rw [Function.comp_apply, undone, hlength]
    rwa [hsame] at hback

theorem step_false_frame :
    (∀ y, ¬ o.Zone y → (c.step false s o.info).2.behaviorOf y = s.2.behaviorOf y) ∧
      ∀ y entry, y.index ≠ o.block.1.index → Detached s.2 y entry →
        Detached (c.step false s o.info).2 y entry := by
  have hx {y : NodeId} (hy : ¬ o.Zone y) : y ≠ o.block.1 := by
    rintro rfl
    exact hy (.inr (List.mem_map_of_mem o.mem_blocks))
  by_cases hzero : o.length c.movementMode c.rippleMovement = 0
  · obtain ⟨entry, hs⟩ := h.1 hzero
    rw [step_false_removed hs happend]
    have hback := restoreBlock_spec (x := o.block.1) (b := o.block.2) h₀ hs.track hs.gap hs.taken
      hs.after hs.behavior hs.detached
    refine ⟨fun y hy => ?_, fun y entry' hindex hy => ?_⟩
    · rw [hback, if_neg fun heq => hy (.inl heq), if_neg (hx hy)]
    · simp only [restoreBlock, hs.gap, hs.taken]
      exact (hy.blockAddToGraph hs.detached hindex).congr fun n hn =>
        ⟨n, (vacant_trackInsertBlockAfter _).2 hn⟩
  · obtain ⟨core, hcore, -, -⟩ := h₀.exists_core (x := o.block.1) (b := o.block.2)
    rw [step_false_changed (h.2 hzero) happend hcore]
    refine ⟨fun y hy => ?_, fun y entry' _ hy => hy.congr fun n hn =>
      ⟨n, (vacant_modifyBlock _).2 hn⟩⟩
    rw [behaviorOf_modifyBlock, if_neg (hx hy)]

end

end Step

/-! ### All steps -/

section Pass

variable [ClipSpeed F] {c : TrackListRippleToolCommand F β} {g : ProjectGraph F β}
  {ops : List (RippleOp F β)} {o o' : RippleOp F β} {s : RippleState F β}

/-- A pass in one direction. -/
def pass (c : TrackListRippleToolCommand F β) (ops : List (RippleOp F β)) (redo : Bool)
    (s : RippleState F β) : RippleState F β :=
  ops.foldl (fun s o => c.step redo s o.info) s

theorem Rippleable.sameFor_step_true (h : Rippleable g ops) (ho : o ∈ ops) (ho' : o' ∈ ops)
    (hne : o ≠ o') (hs : Track s.2 o.track o.t o.blocks) (happend : o.appendGap = false) :
    SameFor o' s (c.step true s o.info) where
  data := step_fst_of_ne true (Ne.symm (h.track_ne ho ho' hne))
  behavior y hy := (step_true_frame hs happend).1 y (h.zone_disjoint ho ho' hne hy)
  detached entry := (step_true_frame hs happend).2 _ entry

theorem Rippleable.sameFor_step_false (h : Rippleable g ops) (ho : o ∈ ops) (ho' : o' ∈ ops)
    (hne : o ≠ o') (hs : Rippled c.movementMode c.rippleMovement o s)
    (happend : o.appendGap = false) : SameFor o' s (c.step false s o.info) where
  data := step_fst_of_ne false (Ne.symm (h.track_ne ho ho' hne))
  behavior y hy := (step_false_frame (h.track o ho) hs happend).1 y (h.zone_disjoint ho ho' hne hy)
  detached entry := (step_false_frame (h.track o ho) hs happend).2 _ entry
    (h.index_ne ho' ho (Ne.symm hne))

section

variable (h : Rippleable g ops) (happend : ∀ o ∈ ops, o.appendGap = false)

include h happend

theorem Rippleable.track_step_true (ho : o ∈ ops) (ho' : o' ∈ ops) (hne : o ≠ o')
    (hs : Track s.2 o.track o.t o.blocks) (hs' : Track s.2 o'.track o'.t o'.blocks) :
    Track (c.step true s o.info).2 o'.track o'.t o'.blocks :=
  (h.sameFor_step_true ho ho' hne hs (happend o ho)).track (fun _ hp => List.mem_map_of_mem hp) hs'

/-- A step of `undo` leaves the other tracks as they are. -/
theorem Rippleable.rippled_step_false (ho : o ∈ ops) (ho' : o' ∈ ops) (hne : o ≠ o')
    (hs : Rippled c.movementMode c.rippleMovement o s)
    (hs' : Rippled c.movementMode c.rippleMovement o' s) :
    Rippled c.movementMode c.rippleMovement o' (c.step false s o.info) :=
  (h.sameFor_step_false ho ho' hne hs (happend o ho)).rippled hs'

/-- What `redo` leaves on every track, where no gap is new. -/
theorem Rippleable.pass_redo (hs : ∀ o ∈ ops, Track s.2 o.track o.t o.blocks) :
    (∀ o ∈ ops, Rippled c.movementMode c.rippleMovement o (pass c ops true s)) ∧
      ∀ y, (∀ o ∈ ops, ¬ o.Zone y) → (pass c ops true s).2.behaviorOf y = s.2.behaviorOf y := by
  have hpre := fun o (ho : o ∈ ops) o' (ho' : o' ∈ ops) (hne : o ≠ o') (_ : ℕ)
      (s : RippleState F β) (_ : True) => h.track_step_true (c := c) (s := s) happend ho ho' hne
  refine ⟨foldl_post (fun _ _ => True) (Rippled c.movementMode c.rippleMovement) h.ops_nodup
    (fun _ _ _ _ _ _ => trivial)
    (fun o ho _ _ _ hso => step_true_rippled hso (happend o ho)) hpre
    (fun o ho o' ho' hne _ _ _ hso hso' =>
      (h.sameFor_step_true ho ho' hne hso (happend o ho)).rippled hso') trivial hs, fun y hy => ?_⟩
  exact foldl_keep (fun _ _ => True) (fun s' : RippleState F β =>
    s'.2.behaviorOf y = s.2.behaviorOf y) h.ops_nodup (fun _ _ _ _ _ _ => trivial) hpre
    (fun o ho _ _ _ hso hq => ((step_true_frame hso (happend o ho)).1 y (hy o ho)).trans hq)
    trivial hs rfl

/-- What `undo` leaves on every track. -/
theorem Rippleable.pass_undo (hs : ∀ o ∈ ops, Rippled c.movementMode c.rippleMovement o s) :
    (∀ o ∈ ops, Restored c.movementMode c.rippleMovement o (pass c ops false s)) ∧
      ∀ y, (∀ o ∈ ops, ¬ o.Zone y) → (pass c ops false s).2.behaviorOf y = s.2.behaviorOf y := by
  have hpre := fun o (ho : o ∈ ops) o' (ho' : o' ∈ ops) (hne : o ≠ o') (_ : ℕ)
      (s : RippleState F β) (_ : True) => h.rippled_step_false (c := c) (s := s) happend ho ho' hne
  refine ⟨foldl_post (fun _ _ => True) (Restored c.movementMode c.rippleMovement) h.ops_nodup
    (fun _ _ _ _ _ _ => trivial)
    (fun o ho _ _ _ hso => step_false_restored (h.track o ho) hso (happend o ho)) hpre
    (fun o ho o' ho' hne _ _ _ hso hso' =>
      (h.sameFor_step_false ho ho' hne hso (happend o ho)).restored hso') trivial hs,
    fun y hy => ?_⟩
  exact foldl_keep (fun _ _ => True) (fun s' : RippleState F β =>
    s'.2.behaviorOf y = s.2.behaviorOf y) h.ops_nodup (fun _ _ _ _ _ _ => trivial) hpre
    (fun o ho _ _ _ hso hq => ((step_false_frame (h.track o ho) hso (happend o ho)).1 y
      (hy o ho)).trans hq) trivial hs rfl

end

/-- A step of `redo`, with or without a new gap, as far as it is seen from other tracks. -/
theorem step_true_live {n : ℕ} (h : Track s.2 o.track o.t o.blocks)
    (hdata : s.1 o.track = .default) (hroom : Roomy (n + 1) s.2) :
    Roomy n (c.step true s o.info).2 ∧ ∀ y b, ¬ o.Zone y → s.2.behaviorOf y = some b →
      (c.step true s o.info).2.behaviorOf y = some b := by
  rcases happend : o.appendGap with _ | _
  · refine ⟨?_, fun y b hy hb => ((step_true_frame h happend).1 y hy).trans hb⟩
    rw [step_true_eq h happend]
    split_ifs
    · exact ((hroom.mono n.le_succ).trackRippleRemoveBlock _ _).blockRemoveFromGraph _
    · exact (hroom.mono n.le_succ).modifyBehavior _ _
  · have hstep : (c.step true s o.info).2 =
        (c.insertGap o.track o.block.1 (s.1 o.track) s.2).2 := by
      rw [step, RippleOp.info]
      simp only [rippleTrack, happend, if_true]
    obtain ⟨hnew, gap, hfresh, hbehavior⟩ := insertGap_spec (c := c) (x := o.block.1)
      (b := o.block.2) h
      (show (s.1 o.track).createdGap = none by rw [hdata]; rfl) (by rw [hdata]; rfl) hroom
    rw [hstep]
    refine ⟨hnew, fun y b hy hb => ?_⟩
    rw [hbehavior, if_neg fun heq => hy (.inl heq), if_neg ?_, hb]
    rintro rfl
    exact absurd (hfresh.symm.trans hb) (by simp)

/-- The track with a gap in front of the block. -/
def Appended (movement : Rational) (o : RippleOp F β) (s : RippleState F β) : Prop :=
  ∃ gap, Track s.2 o.track
    { o.t with blocks := o.before.map Prod.fst ++ gap :: o.block.1 :: o.behind.map Prod.fst }
    (o.before ++ (gap, .gap ⟨{ newGapCore (inOf o.block.2) |movement| with
      track := some o.track }⟩) :: o.block :: o.behind)

theorem step_true_appended {n : ℕ} (h : Track s.2 o.track o.t o.blocks)
    (hdata : s.1 o.track = .default) (hroom : Roomy (n + 1) s.2) (happend : o.appendGap = true) :
    Appended c.rippleMovement o (c.step true s o.info) := by
  have hstep : (c.step true s o.info).2 =
      (c.insertGap o.track o.block.1 (s.1 o.track) s.2).2 := by
    rw [step, RippleOp.info]
    simp only [rippleTrack, happend, if_true]
  obtain ⟨-, gap, hfresh, hbehavior⟩ := insertGap_spec (c := c) (x := o.block.1)
    (b := o.block.2) h
      (show (s.1 o.track).createdGap = none by rw [hdata]; rfl) (by rw [hdata]; rfl) hroom
  have hlive {p : NodeId × Behavior F β} (hp : p ∈ o.blocks) : p.1 ≠ gap := by
    rintro rfl
    exact absurd (hfresh.symm.trans (h.block p hp).1) (by simp)
  have hgap : gap ≠ o.track := by
    rintro rfl
    exact absurd (hfresh.symm.trans h.behavior) (by simp)
  have hnodup := h.nodup
  rw [RippleOp.blocks, List.map_append, List.map_cons] at hnodup
  refine ⟨gap, by rw [hstep, hbehavior, if_pos rfl], by simp, ?_, fun p hp => ?_⟩
  · rw [List.map_append, List.map_cons, List.map_cons, List.nodup_middle, List.nodup_cons]
    refine ⟨fun hmem => ?_, hnodup⟩
    rw [← List.map_cons, ← List.map_append] at hmem
    obtain ⟨p, hp, heq⟩ := List.mem_map.1 hmem
    exact hlive hp heq
  · have hold (hp : p ∈ o.blocks) : (c.step true s o.info).2.behaviorOf p.1 = some p.2 ∧
        ∃ core, p.2.blockCore = some core ∧ core.track = some o.track := by
      rw [hstep, hbehavior, if_neg (h.ne_track hp), if_neg (hlive hp)]
      exact h.block p hp
    rcases List.mem_append.1 hp with hp' | hp'
    · exact hold (List.mem_append_left _ hp')
    rcases List.mem_cons.1 hp' with rfl | hp'
    · rw [hstep, hbehavior, if_neg hgap, if_pos rfl]
      exact ⟨rfl, _, rfl, rfl⟩
    · exact hold (List.mem_append_right _ hp')

/-- A gap that is appended is in front of its block. -/
theorem Rippleable.pass_append (h : Rippleable g ops) (ho : o ∈ ops)
    (happend : o.appendGap = true) :
    Appended c.rippleMovement o (pass c ops true (fun _ => .default, g)) := by
  -- a track that a step is not about stays as it is
  have hkept {n : ℕ} {s : RippleState F β} {o o' : RippleOp F β} (ho : o ∈ ops) (ho' : o' ∈ ops)
      (hne : o ≠ o') (hroom : Roomy (n + 1) s.2) (hs : Track s.2 o.track o.t o.blocks)
      (hdata : s.1 o.track = .default) {t : TrackBehavior F}
      {blocks : List (NodeId × Behavior F β)} (htrack : Track s.2 o'.track t blocks) :
      Track (c.step true s o.info).2 o'.track t blocks := by
    have hlive := (step_true_live (c := c) hs hdata hroom).2
    have hapart {y : NodeId} (hy : y = o'.track ∨ y ∈ blocks.map Prod.fst) : ¬ o.Zone y := by
      obtain ⟨hytrack, hyblocks⟩ := hs.disjoint htrack (h.track_ne ho ho' hne) hy
      exact fun hzone => hzone.elim hytrack hyblocks
    refine htrack.congr ?_ fun p hp => ?_
    · rw [hlive _ _ (hapart (.inl rfl)) htrack.behavior, htrack.behavior]
    · rw [hlive _ _ (hapart (.inr (List.mem_map_of_mem hp))) (htrack.block p hp).1,
        (htrack.block p hp).1]
  have hpost : ∀ o ∈ ops, o.appendGap = true → Appended c.rippleMovement o
      (pass c ops true (fun _ => .default, g)) := by
    refine foldl_post (s := ((fun _ => .default, g) : RippleState F β))
      (fun n (s : RippleState F β) => Roomy n s.2)
      (fun o s => o.appendGap = true → Appended c.rippleMovement o s) h.ops_nodup
      (fun o _ n s hroom (hs : Track s.2 o.track o.t o.blocks ∧ s.1 o.track = .default) =>
        (step_true_live hs.1 hs.2 hroom).1)
      (fun o _ n s hroom hs => step_true_appended hs.1 hs.2 hroom)
      (fun o ho o' ho' hne n s hroom hs hs' => ⟨hkept ho ho' hne hroom hs.1 hs.2 hs'.1, ?_⟩)
      (fun o ho o' ho' hne n s hroom hs hpost hgap => ?_) h.room
      (fun o ho => ⟨h.track o ho, rfl⟩)
    · rw [step_fst_of_ne true (Ne.symm (h.track_ne ho ho' hne)), hs'.2]
    · obtain ⟨gap, htrack⟩ := hpost hgap
      exact ⟨gap, hkept ho ho' hne hroom hs.1 hs.2 htrack⟩
  exact hpost o ho happend

end Pass

end Oak.Timeline
