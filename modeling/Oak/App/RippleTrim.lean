import Oak.App.BlockEdit

/-!
# Ripple trimming

`ripple_trim_clip` of `oak-app/src/oakui/graphops.rs`: one edge of a clip is moved to a frame, and
the blocks behind the clip are moved by the same amount.

* `rippleTrimClip` is the composite that is pushed: a length change of the clip, and a new in point
  for each later block.
* The trim of the end keeps the in point of the clip. The trim of the start keeps its out point,
  while the later blocks move all the same.

## Main results

* `ripplesExactly_iff`: exactly when a ripple trim keeps the seams and can be undone.
-/

namespace Oak.App

open Oak.Core Oak.Node Oak.Timeline Oak.Undo
open BlockCore

variable {F β : Type*}

/-- How far the later blocks move. -/
def rippleDelta (startEdge : Bool) (core : BlockCore F) (new : Rational) : Rational :=
  if startEdge then new - core.in_ else new - core.out

/-- The length change of `clip`: a trim of the start keeps the out point. -/
def rippleTrim (clip : NodeId) (startEdge : Bool) (core : BlockCore F) (new : Rational) :
    TrimCommand :=
  ⟨clip, startEdge, core.out - core.in_, if startEdge then core.out - new else new - core.in_⟩

/-- The closures of a ripple trim of `clip` to `new`; the blocks of `tail` are behind it. -/
def rippleChildren (g : ProjectGraph F β) (clip : NodeId) (startEdge : Bool) (core : BlockCore F)
    (new : Rational) (tail : List NodeId) : List BlockClosure :=
  .trim (rippleTrim clip startEdge core new) ::
    tail.map fun b => .setIn b (blockIn g b) (blockIn g b + rippleDelta startEdge core new)

/-- `ripple_trim_clip`: the command that is pushed, if any. -/
def rippleTrimClip (rate : NodeId → Option Rational) (g : ProjectGraph F β) (clip : NodeId)
    (startEdge : Bool) (newFrame : ℤ) : Except String (Option (UndoCommand BlockClosure)) :=
  match clipOnTrack rate g clip with
  | .error e => .error e
  | .ok (tb, core, blocks, index) =>
    let new := tsToRational newFrame tb
    if rippleDelta startEdge core new = 0 then .ok none
    else .ok (pushMulti (rippleChildren g clip startEdge core new (blocks.drop (index + 1))))

/-- The times of a ripple trim of a clip; the blocks of `post` are behind it. -/
def rippleTimes (startEdge : Bool) (core : BlockCore F) (new : Rational)
    (post : List (NodeId × Behavior F β)) : List Rational :=
  let delta := rippleDelta startEdge core new
  [core.in_, core.out, core.length, new, delta, new - core.in_, core.out - new] ++
    post.flatMap fun p =>
      [inOf p.2, outOf p.2, outOf p.2 - inOf p.2, inOf p.2 + delta, outOf p.2 + delta]

/-! ### What a ripple trim keeps -/

variable {p : NodeId × Behavior F β}

section Keeps

variable [ClipSpeed F]

/-- A block that was moved plays at each distance from its start what it played there. -/
def PlaysMoved (b b' : Behavior F β) : Prop :=
  ∀ clip, b = .clip clip → ∃ clip', b' = .clip clip' ∧
    ∀ d, clip'.shownAt (clip'.core.in_ + d) = clip.shownAt (clip.core.in_ + d)

/-- A ripple trim of a block of a track: the blocks stay in order without overlap, those that
touched still do, and the blocks of `post` were moved as they are. -/
structure Rippled (g' : ProjectGraph F β) (track : NodeId) (t : TrackBehavior F)
    (blocks post : List (NodeId × Behavior F β)) : Prop where
  wellFormed : ∃ blocks', Track g' track t blocks' ∧ Timeline.Sorted blocks'
  seams : ∀ l p q r, blocks = l ++ p :: q :: r → outOf p.2 = inOf q.2 →
    blockOut g' p.1 = blockIn g' q.1
  later : ∀ p ∈ post, ∃ b', g'.behaviorOf p.1 = some b' ∧
    outOf b' - inOf b' = outOf p.2 - inOf p.2 ∧ PlaysMoved p.2 b'

/-- A ripple trim keeps the seams, and one undo restores every block. -/
def RipplesExactly (rate : NodeId → Option Rational) (g : ProjectGraph F β) (track : NodeId)
    (t : TrackBehavior F) (pre : List (NodeId × Behavior F β)) (x : NodeId) (b : Behavior F β)
    (post : List (NodeId × Behavior F β)) (startEdge : Bool) (newFrame : ℤ) : Prop :=
  ∃ cmd, rippleTrimClip rate g x startEdge newFrame = .ok cmd ∧
    Rippled (redone g cmd) track t (pre ++ (x, b) :: post) post ∧ Restored g (undone g cmd)

omit [ClipSpeed F] in
/-- A trim of the start to `new` finds room on both sides: the clip touches neither of its
neighbours, the block before it ends at `new` at the latest, and the block behind it does not run
into it. -/
structure FreeStart (pre : List (NodeId × Behavior F β)) (core : BlockCore F)
    (post : List (NodeId × Behavior F β)) (new : Rational) : Prop where
  anchored : core.mediaIn = core.in_
  before : ∀ p ∈ pre.getLast?, outOf p.2 ≤ new ∧ outOf p.2 ≠ core.in_
  behind : ∀ p ∈ post.head?, core.out ≤ inOf p.2 + (new - core.in_) ∧ inOf p.2 ≠ core.out

variable {g : ProjectGraph F β} {track x : NodeId} {t : TrackBehavior F} {b : Behavior F β}
  {core : BlockCore F} {pre post : List (NodeId × Behavior F β)} {startEdge : Bool}
  {new : Rational}

/-- The range that the clip is trimmed to. -/
def rippledRange (startEdge : Bool) (core : BlockCore F) (new : Rational) : TimeRange :=
  if startEdge then ⟨new, core.out⟩ else ⟨core.in_, new⟩

omit [ClipSpeed F] in
theorem range_rippleTrim (hpos : (rippledRange startEdge core new).in_ <
    (rippledRange startEdge core new).out) :
    ((rippleTrim x startEdge core new).setLength (rippleTrim x startEdge core new).new core).range =
      rippledRange startEdge core new := by
  cases startEdge with
  | false =>
    simp only [rippledRange, Bool.false_eq_true, if_false] at hpos
    simp only [rippleTrim, TrimCommand.setLength, rippledRange, Bool.false_eq_true, if_false]
    rw [setLengthAndMediaIn_of_le _ (by linarith), add_sub_cancel]
  | true =>
    simp only [rippledRange, if_true] at hpos
    simp only [rippleTrim, TrimCommand.setLength, rippledRange, if_true]
    rw [setLengthAndMediaOut_of_le _ (by linarith), sub_sub_cancel]

/-- A moved clip shows at each distance from its start what it showed there. -/
theorem playsMoved_movedBy (hp : inOf p.2 < outOf p.2) (delta : Rational) :
    PlaysMoved p.2 (movedBy delta p).2 := by
  rintro clip hclip
  have hcore : p.2.blockCore = some clip.core := by rw [hclip]; rfl
  have hle : clip.core.in_ ≤ clip.core.out := by
    rw [← inOf_eq hcore, ← outOf_eq hcore]
    exact hp.le
  refine ⟨{ clip with core := clip.core.setIn (inOf p.2 + delta) }, ?_, fun d => ?_⟩
  · rw [movedBy, hclip]
    rfl
  · rw [setIn_of_le _ _ hle]
    simp only [ClipBlockBehavior.shownAt, ClipBlockBehavior.inputTimeAdjustment_point,
      ClipBlockBehavior.mediaAt, in_, add_sub_cancel_left, length,
      TimeRange.length, elapsed]

/-! ### The closures of a ripple trim -/

omit [ClipSpeed F] in
theorem map_block_rippleChildren (tail : List NodeId) :
    (rippleChildren g x startEdge core new tail).map BlockClosure.block = x :: tail := by
  rw [rippleChildren, List.map_cons, List.map_map]
  exact congrArg (x :: ·) (List.map_id tail)

omit [ClipSpeed F] in
theorem nodup_rippleChildren (h : Track g track t (pre ++ (x, b) :: post)) :
    ((rippleChildren g x startEdge core new (post.map Prod.fst)).map BlockClosure.block).Nodup := by
  rw [map_block_rippleChildren]
  have hnodup := h.nodup
  rw [List.map_append] at hnodup
  exact (List.nodup_append.1 hnodup).2.1

omit [ClipSpeed F] in
theorem mem_rippleChildren (hp : p ∈ post) (hblock : g.behaviorOf p.1 = some p.2) :
    BlockClosure.setIn p.1 (inOf p.2) (inOf p.2 + rippleDelta startEdge core new) ∈
      rippleChildren g x startEdge core new (post.map Prod.fst) := by
  refine List.mem_cons_of_mem _ (List.mem_map.2 ⟨p.1, List.mem_map_of_mem hp, ?_⟩)
  rw [blockIn_eq_inOf hblock]

omit [ClipSpeed F] in
theorem changedBlocks_ripple (h : Track g track t (pre ++ (x, b) :: post)) :
    changedBlocks (rippleChildren g x startEdge core new (post.map Prod.fst))
        (pre ++ (x, b) :: post) =
      pre ++ (x, b.modifyCore ((rippleTrim x startEdge core new).setLength
          (rippleTrim x startEdge core new).new)) ::
        post.map (movedBy (rippleDelta startEdge core new)) := by
  set cs := rippleChildren g x startEdge core new (post.map Prod.fst) with hcs
  have hnodup : (cs.map BlockClosure.block).Nodup := nodup_rippleChildren h
  have hpre : ∀ p ∈ pre, (p.1, p.2.modifyCore (changed cs p.1)) = p := by
    intro p hp
    have hmem : p.1 ∉ cs.map BlockClosure.block := by
      rw [hcs, map_block_rippleChildren]
      have hall := h.nodup
      rw [List.map_append] at hall
      exact fun hp' => (List.nodup_append.1 hall).2.2 p.1 (List.mem_map_of_mem hp) p.1 hp' rfl
    have hid : changed cs p.1 = (id : BlockCore F → BlockCore F) := funext (changed_of_notMem hmem)
    rw [hid, Behavior.modifyCore_id]
  have hclip : changed cs x = (rippleTrim x startEdge core new).setLength (F := F)
      (rippleTrim x startEdge core new).new := funext (changed_of_mem hnodup List.mem_cons_self rfl)
  have hpost : ∀ p ∈ post, (p.1, p.2.modifyCore (changed cs p.1)) =
      movedBy (rippleDelta startEdge core new) p := by
    intro p hp
    have hblock := (h.block p (by simp [hp])).1
    exact Prod.ext rfl (congrArg (fun f => p.2.modifyCore f)
      (funext (changed_of_mem hnodup (mem_rippleChildren hp hblock) rfl)))
  rw [changedBlocks, List.map_append, List.map_cons, hclip, List.map_congr_left hpost]
  refine congrArg (· ++ _) ?_
  conv_rhs => rw [← List.map_id pre]
  exact List.map_congr_left hpre

omit [ClipSpeed F] in
theorem setLength_old_new (hcore : core.in_ ≤ core.out)
    (hpos : (rippledRange startEdge core new).in_ < (rippledRange startEdge core new).out) :
    (rippleTrim x startEdge core new).setLength (rippleTrim x startEdge core new).old
        ((rippleTrim x startEdge core new).setLength (rippleTrim x startEdge core new).new core) =
      { core with mediaIn := if startEdge then core.in_ else core.mediaIn } := by
  cases startEdge with
  | false =>
    simp only [rippledRange, Bool.false_eq_true, if_false] at hpos
    simp only [rippleTrim, TrimCommand.setLength, Bool.false_eq_true, if_false]
    rw [setLengthAndMediaIn_of_le core (by linarith),
      setLengthAndMediaIn_of_le _ (by linarith)]
    simp only [in_, out, add_sub_cancel]
  | true =>
    simp only [rippledRange, if_true] at hpos
    simp only [rippleTrim, TrimCommand.setLength, if_true]
    rw [setLengthAndMediaOut_of_le core (by linarith),
      setLengthAndMediaOut_of_le _ (by linarith)]
    simp only [in_, out, sub_sub_cancel]

omit [ClipSpeed F] in
theorem restored_ripple_iff (h : Track g track t (pre ++ (x, b) :: post))
    (hsorted : Timeline.Sorted (pre ++ (x, b) :: post)) (hcore : b.blockCore = some core)
    (hpos : (rippledRange startEdge core new).in_ < (rippledRange startEdge core new).out) :
    Restored g (undone g (pushMulti (rippleChildren g x startEdge core new
      (post.map Prod.fst)))) ↔ (startEdge = true → core.mediaIn = core.in_) := by
  have hle : core.in_ ≤ core.out := by
    rw [← inOf_eq hcore, ← outOf_eq hcore]
    exact (hsorted.1 (x, b) (by simp)).le
  have hx : blockCoreOf g x = some core := by rw [blockCoreOf_eq h.behaviorOf, hcore]
  have htrim : (((rippleTrim x startEdge core new).setLength (rippleTrim x startEdge core new).old
      ((rippleTrim x startEdge core new).setLength (rippleTrim x startEdge core new).new
        core)).range = core.range ∧
      ((rippleTrim x startEdge core new).setLength (rippleTrim x startEdge core new).old
      ((rippleTrim x startEdge core new).setLength (rippleTrim x startEdge core new).new
        core)).mediaIn = core.mediaIn) ↔ (startEdge = true → core.mediaIn = core.in_) := by
    rw [setLength_old_new hle hpos]
    cases startEdge <;> simp [eq_comm]
  rw [restored_undone_iff (nodup_rippleChildren h), rippleChildren, List.forall_mem_cons]
  refine ⟨fun hall => htrim.1 (hall.1 core hx), fun hanchored => ⟨fun core' hcore' => ?_, ?_⟩⟩
  · obtain rfl := Option.some.inj (hx.symm.trans hcore')
    exact htrim.2 hanchored
  · intro c hc core' hcore'
    obtain ⟨y, hy, rfl⟩ := List.mem_map.1 hc
    obtain ⟨p, hp, rfl⟩ := List.mem_map.1 hy
    have hp' : p ∈ pre ++ (x, b) :: post := by simp [hp]
    have hlt := hsorted.1 p hp'
    obtain ⟨hblock, -⟩ := h.block p hp'
    have hpcore : p.2.blockCore = some core' := by rw [← hcore', BlockClosure.block,
      blockCoreOf_eq hblock]
    rw [inOf_eq hpcore, outOf_eq hpcore] at hlt
    have hback : (core'.setIn (blockIn g p.1 + rippleDelta startEdge core new)).setIn
        (blockIn g p.1) = core' := by
      rw [blockIn_eq_inOf hblock, inOf_eq hpcore]
      exact setIn_setIn hlt.le _
    exact ⟨congrArg range hback, congrArg mediaIn hback⟩

omit [ClipSpeed F] in
/-- The places where two blocks follow each other around one of them. -/
theorem seam_cases {pre post l r : List (NodeId × Behavior F β)} {o p q : NodeId × Behavior F β}
    (h : pre ++ o :: post = l ++ p :: q :: r) :
    (∃ m, pre = l ++ p :: q :: m) ∨ (pre = l ++ [p] ∧ o = q) ∨ (o = p ∧ post.head? = some q) ∨
      ∃ m, post = m ++ p :: q :: r := by
  obtain ⟨m, hl, hm⟩ | ⟨m, hpre, hm⟩ := List.append_eq_append_iff.1 h
  · cases m with
    | nil =>
      obtain ⟨rfl, rfl⟩ := List.cons.inj hm
      exact .inr (.inr (.inl ⟨rfl, rfl⟩))
    | cons o' m => exact .inr (.inr (.inr ⟨m, (List.cons.inj hm).2⟩))
  · rcases m with _ | ⟨p', _ | ⟨q', m⟩⟩
    · obtain ⟨rfl, rfl⟩ := List.cons.inj hm
      exact .inr (.inr (.inl ⟨rfl, rfl⟩))
    · simp only [List.cons_append, List.nil_append, List.cons.injEq] at hm
      exact .inr (.inl ⟨hm.1 ▸ hpre, hm.2.1.symm⟩)
    · simp only [List.cons_append, List.cons.injEq] at hm
      obtain ⟨rfl, rfl, -⟩ := hm
      exact .inl ⟨m, hpre⟩

/-- When a ripple trim keeps the seams. -/
theorem rippled_iff (h : Track g track t (pre ++ (x, b) :: post))
    (hsorted : Timeline.Sorted (pre ++ (x, b) :: post)) (hcore : b.blockCore = some core)
    (hpos : (rippledRange startEdge core new).in_ < (rippledRange startEdge core new).out) :
    Rippled (redone g (pushMulti (rippleChildren g x startEdge core new (post.map Prod.fst))))
        track t (pre ++ (x, b) :: post) post ↔
      (∀ p ∈ pre.getLast?, outOf p.2 ≤ (rippledRange startEdge core new).in_ ∧
        (outOf p.2 = core.in_ → outOf p.2 = (rippledRange startEdge core new).in_)) ∧
      ∀ p ∈ post.head?,
        (rippledRange startEdge core new).out ≤ inOf p.2 + rippleDelta startEdge core new ∧
        (core.out = inOf p.2 →
          (rippledRange startEdge core new).out = inOf p.2 + rippleDelta startEdge core new) := by
  set range := rippledRange startEdge core new with hrange
  set delta := rippleDelta startEdge core new
  set g' := redone g (pushMulti (rippleChildren g x startEdge core new (post.map Prod.fst)))
  have htrack : Track g' track t _ := track_redone h _
  rw [changedBlocks_ripple h] at htrack
  set b' := b.modifyCore ((rippleTrim x startEdge core new).setLength
    (rippleTrim x startEdge core new).new) with hb'
  have hin' : inOf b' = range.in_ := by
    rw [hb', inOf_modifyCore hcore, in_, range_rippleTrim hpos]
  have hout' : outOf b' = range.out := by
    rw [hb', outOf_modifyCore hcore, out, range_rippleTrim hpos]
  have hpre : Timeline.Sorted pre := hsorted.sublist (List.sublist_append_left ..)
  have hpost : Timeline.Sorted post := (sorted_cons.1 (sorted_append.1 hsorted).2.1).2.1
  have hsorted' : Timeline.Sorted (pre ++ (x, b') :: post.map (movedBy delta)) ↔
      (∀ p ∈ pre.getLast?, outOf p.2 ≤ range.in_) ∧
        ∀ p ∈ post.head?, range.out ≤ inOf p.2 + delta := by
    rw [sorted_middle_iff hpre (sorted_movedBy hpost delta), hin', hout', List.head?_map]
    constructor
    · rintro ⟨-, hlast, hhead⟩
      refine ⟨hlast, fun p hp => ?_⟩
      rw [← inOf_movedBy (hpost.1 p (List.mem_of_head? hp))]
      exact hhead _ (Option.mem_map_of_mem _ hp)
    · rintro ⟨hlast, hhead⟩
      refine ⟨hpos, hlast, fun q hq => ?_⟩
      obtain ⟨p, hp, rfl⟩ := Option.mem_map.1 hq
      rw [inOf_movedBy (hpost.1 p (List.mem_of_head? hp))]
      exact hhead p hp
  have hx' : g'.behaviorOf x = some b' := htrack.behaviorOf
  have hbefore : ∀ p ∈ pre, blockOut g' p.1 = outOf p.2 ∧ blockIn g' p.1 = inOf p.2 := by
    intro p hp
    have hp' : g'.behaviorOf p.1 = some p.2 := (htrack.block p (by simp [hp])).1
    exact ⟨blockOut_eq_outOf hp', blockIn_eq_inOf hp'⟩
  have hmoved : ∀ p ∈ post, g'.behaviorOf p.1 = some (movedBy delta p).2 := fun p hp =>
    (htrack.block (movedBy delta p) (List.mem_append_right _
      (List.mem_cons_of_mem _ (List.mem_map_of_mem hp)))).1
  have hbehind : ∀ p ∈ post, blockOut g' p.1 = outOf p.2 + delta ∧
      blockIn g' p.1 = inOf p.2 + delta := by
    intro p hp
    rw [blockOut_eq_outOf (hmoved p hp), blockIn_eq_inOf (hmoved p hp),
      outOf_movedBy (hpost.1 p hp), inOf_movedBy (hpost.1 p hp)]
    exact ⟨rfl, rfl⟩
  have hclip : blockOut g' x = range.out ∧ blockIn g' x = range.in_ := by
    rw [blockOut_eq_outOf hx', blockIn_eq_inOf hx', hin', hout']
    exact ⟨rfl, rfl⟩
  constructor
  · rintro ⟨⟨blocks', htrack', hblocks'⟩, hseams, -⟩
    rw [track_unique htrack' htrack, hsorted'] at hblocks'
    refine ⟨fun p hp => ⟨hblocks'.1 p hp, fun heq => ?_⟩,
      fun p hp => ⟨hblocks'.2 p hp, fun heq => ?_⟩⟩
    · obtain ⟨init, rfl⟩ := List.getLast?_eq_some_iff.1 hp
      have hseam := hseams init p (x, b) post (by simp) (heq.trans (inOf_eq hcore).symm)
      rw [(hbefore p (by simp)).1, hclip.2] at hseam
      exact hseam
    · obtain ⟨rest, rfl⟩ := List.head?_eq_some_iff.1 hp
      have hseam := hseams pre (x, b) p rest rfl ((outOf_eq hcore).trans heq)
      rw [hclip.1, (hbehind p (by simp)).2] at hseam
      exact hseam
  · rintro ⟨hlast, hhead⟩
    refine ⟨⟨_, htrack, hsorted'.2 ⟨fun p hp => (hlast p hp).1, fun p hp => (hhead p hp).1⟩⟩,
      fun l p q r hsplit hmeet => ?_, fun p hp => ⟨_, hmoved p hp, ?_, ?_⟩⟩
    · obtain ⟨m, rfl⟩ | ⟨rfl, rfl⟩ | ⟨rfl, hq⟩ | ⟨m, rfl⟩ := seam_cases hsplit
      · rw [(hbefore p (by simp)).1, (hbefore q (by simp)).2, hmeet]
      · rw [(hbefore p (by simp)).1, hclip.2]
        exact (hlast p (by simp)).2 (hmeet.trans (inOf_eq hcore))
      · rw [hclip.1, (hbehind q (List.mem_of_head? hq)).2]
        exact (hhead q hq).2 ((outOf_eq hcore).symm.trans hmeet)
      · rw [(hbehind p (by simp)).1, (hbehind q (by simp)).2, hmeet]
    · rw [outOf_movedBy (hpost.1 p hp), inOf_movedBy (hpost.1 p hp), add_sub_add_right_eq_sub]
    · exact playsMoved_movedBy (hpost.1 p hp) delta

/-! ### A ripple trim by frames -/

section Frames

variable {rate : NodeId → Option Rational} {tb : TimeBase} {newFrame : ℤ}

omit [ClipSpeed F] in
theorem rippleTrimClip_eq (h : Track g track t (pre ++ (x, b) :: post))
    (hcore : b.blockCore = some core)
    (htb : (sequenceOf g x).bind (sequenceTimeBase rate) = some tb) :
    rippleTrimClip rate g x startEdge newFrame =
      if rippleDelta startEdge core (tsToRational newFrame tb) = 0 then .ok none
      else .ok (pushMulti (rippleChildren g x startEdge core (tsToRational newFrame tb)
        (post.map Prod.fst))) := by
  have hdrop : t.blocks.drop (pre.length + 1) = post.map Prod.fst := by
    rw [h.order, List.map_append, List.map_cons, List.drop_append]
    simp
  delta rippleTrimClip
  rw [clipOnTrack_eq h hcore htb]
  simp only [hdrop]

section

variable (h : Track g track t (pre ++ (x, b) :: post))
  (hsorted : Timeline.Sorted (pre ++ (x, b) :: post)) (hcore : b.blockCore = some core)
  (htb : (sequenceOf g x).bind (sequenceTimeBase rate) = some tb)

include h hsorted hcore htb

theorem ripplesExactly_of_unmoved
    (hdelta : rippleDelta startEdge core (tsToRational newFrame tb) = 0) :
    RipplesExactly rate g track t pre x b post startEdge newFrame := by
  refine ⟨none, by rw [rippleTrimClip_eq h hcore htb, if_pos hdelta], ⟨⟨_, h, hsorted⟩, ?_, ?_⟩, ?_⟩
  · intro l p q r hsplit hmeet
    have hp : g.behaviorOf p.1 = some p.2 := (h.block p (by rw [hsplit]; simp)).1
    have hq : g.behaviorOf q.1 = some q.2 := (h.block q (by rw [hsplit]; simp)).1
    change blockOut g p.1 = blockIn g q.1
    rw [blockOut_eq_outOf hp, blockIn_eq_inOf hq, hmeet]
  · exact fun p hp => ⟨p.2, (h.block p (by simp [hp])).1, rfl,
      fun clip hclip => ⟨clip, hclip, fun _ => rfl⟩⟩
  · exact fun y core hy => ⟨core, hy, rfl, rfl⟩

/-- A trim that moves the edge, in numbers. -/
theorem ripplesExactly_of_moved (hnew : tsToRational newFrame tb = new)
    (hpos : (rippledRange startEdge core new).in_ < (rippledRange startEdge core new).out)
    (hdelta : rippleDelta startEdge core new ≠ 0) :
    RipplesExactly rate g track t pre x b post startEdge newFrame ↔
      ((∀ p ∈ pre.getLast?, outOf p.2 ≤ (rippledRange startEdge core new).in_ ∧
        (outOf p.2 = core.in_ → outOf p.2 = (rippledRange startEdge core new).in_)) ∧
      ∀ p ∈ post.head?,
        (rippledRange startEdge core new).out ≤ inOf p.2 + rippleDelta startEdge core new ∧
        (core.out = inOf p.2 →
          (rippledRange startEdge core new).out = inOf p.2 + rippleDelta startEdge core new)) ∧
      (startEdge = true → core.mediaIn = core.in_) := by
  rw [← rippled_iff h hsorted hcore hpos, ← restored_ripple_iff h hsorted hcore hpos,
    RipplesExactly, rippleTrimClip_eq h hcore htb, hnew, if_neg hdelta]
  constructor
  · rintro ⟨cmd, hcmd, hkept⟩
    rwa [← Except.ok.inj hcmd] at hkept
  · exact fun hkept => ⟨_, rfl, hkept⟩

end

/-- **When a ripple trim keeps the seams.** Where its times are exact, the trim of an end does. The
trim of a start does when it moves nothing, or when the clip has room on both sides. -/
theorem ripplesExactly_iff (h : Track g track t (pre ++ (x, b) :: post))
    (hsorted : Timeline.Sorted (pre ++ (x, b) :: post)) (hcore : b.blockCore = some core)
    (htb : (sequenceOf g x).bind (sequenceTimeBase rate) = some tb)
    (hpos : (rippledRange startEdge core (tsToRational newFrame tb)).in_ <
      (rippledRange startEdge core (tsToRational newFrame tb)).out)
    (_ : Exacts (rippleTimes startEdge core (tsToRational newFrame tb) post)) :
    RipplesExactly rate g track t pre x b post startEdge newFrame ↔
      (startEdge = true → tsToRational newFrame tb ≠ core.in_ →
        FreeStart pre core post (tsToRational newFrame tb)) := by
  by_cases hdelta : rippleDelta startEdge core (tsToRational newFrame tb) = 0
  · refine iff_of_true (ripplesExactly_of_unmoved h hsorted hcore htb hdelta) ?_
    rintro rfl hne
    exact absurd (sub_eq_zero.1 hdelta) hne
  · rw [ripplesExactly_of_moved h hsorted hcore htb rfl hpos hdelta]
    generalize tsToRational newFrame tb = new at hpos hdelta ⊢
    cases startEdge with
    | false =>
      -- the later blocks follow the end of the clip
      simp only [rippledRange, rippleDelta, Bool.false_eq_true, if_false, false_imp_iff, and_true,
        iff_true]
      obtain ⟨-, hmid, hbefore⟩ := sorted_append.1 hsorted
      refine ⟨fun p hp => ⟨?_, id⟩, fun p hp => ⟨?_, fun heq => ?_⟩⟩
      · rw [← inOf_eq hcore]
        exact hbefore p (List.mem_of_getLast? hp) (x, b) List.mem_cons_self
      · have hle := (sorted_cons.1 hmid).2.2 p (List.mem_of_head? hp)
        rw [outOf_eq hcore] at hle
        linarith
      · rw [heq]
        ring
    | true =>
      simp only [rippledRange, rippleDelta, if_true, true_imp_iff] at hdelta ⊢
      have hne : new ≠ core.in_ := fun heq => hdelta (sub_eq_zero.2 heq)
      constructor
      · rintro ⟨⟨hlast, hhead⟩, hanchored⟩ -
        refine ⟨hanchored, fun p hp => ⟨(hlast p hp).1, fun heq => ?_⟩,
          fun p hp => ⟨(hhead p hp).1, fun heq => ?_⟩⟩
        · exact hne (heq ▸ (hlast p hp).2 heq).symm
        · have hseam := (hhead p hp).2 heq.symm
          rw [heq] at hseam
          exact hdelta (by linarith)
      · intro hfree
        obtain ⟨hanchored, hlast, hhead⟩ := hfree hne
        exact ⟨⟨fun p hp => ⟨(hlast p hp).1, fun heq => absurd heq (hlast p hp).2⟩,
          fun p hp => ⟨(hhead p hp).1, fun heq => absurd heq.symm (hhead p hp).2⟩⟩, hanchored⟩

end Frames

end Keeps

/-! ### Two clips -/

/-- The end of the first clip is trimmed to the fifth second, at ten frames a second. -/
theorem ripplesExactly_iff_end : RipplesExactly (fun _ => some 10) twoClips ⟨2, 0⟩
    ⟨.video, [⟨3, 0⟩, ⟨4, 0⟩], false, false, 3, 0, some ⟨1, 0⟩⟩ [] ⟨3, 0⟩ (anchoredClip 0)
    [(⟨4, 0⟩, anchoredClip 10)] false 50 := by
  refine (ripplesExactly_iff track_twoClips sorted_twoClips rfl timeBase_twoClips ?_ ?_).2 ?_
  · norm_num [rippledRange, tsToRational, BlockCore.in_]
  · decide +kernel
  · exact fun h => absurd h (by decide)

/-- The start of the first clip is trimmed to the fifth second: the second clip moves away. -/
theorem ripple_start_opens : ¬ RipplesExactly (fun _ => some 10) twoClips ⟨2, 0⟩
    ⟨.video, [⟨3, 0⟩, ⟨4, 0⟩], false, false, 3, 0, some ⟨1, 0⟩⟩ [] ⟨3, 0⟩ (anchoredClip 0)
    [(⟨4, 0⟩, anchoredClip 10)] true 50 := by
  have hnew : tsToRational 50 (1, 10) = 5 := by norm_num [tsToRational]
  rw [ripplesExactly_of_moved track_twoClips sorted_twoClips rfl timeBase_twoClips hnew
    (by norm_num [rippledRange, BlockCore.out]) (by norm_num [rippleDelta, BlockCore.in_])]
  rintro ⟨⟨-, hhead⟩, -⟩
  have hseam := (hhead (⟨4, 0⟩, anchoredClip 10) rfl).2 (by
    norm_num [inOf, anchoredClip, Behavior.blockCore, BlockCore.in_, BlockCore.out])
  norm_num [rippledRange, rippleDelta, inOf, anchoredClip, Behavior.blockCore, BlockCore.in_,
    BlockCore.out] at hseam

end Oak.App
