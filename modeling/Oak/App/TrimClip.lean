import Oak.Timeline.Util
import Oak.Undo.Command

/-!
# Trimming a clip

`trim_clip` of `oak-app/src/oakui/graphops.rs`: a clip is trimmed to a range of frames by one or two
length changes, which are pushed on the undo stack as one composite.

* `rationalToTs`, `tsToRational`: frames and seconds.
* `TrimCommand`: the pair of closures of `trim_command`.
* `trimClip`: the composite that is pushed.

## Main results

* `redone_pushMulti`, `undone_pushMulti`: what a composite of closures does.
* `trimsExactly_iff`: exactly when a trim leaves the media in place and can be undone.
-/

namespace Oak.App

open Oak.Core Oak.Node Oak.Timeline Oak.Undo
open UndoCommand

variable {F β : Type*}

/-! ### Frames -/

/-- The duration of a frame, as numerator and denominator. -/
abbrev TimeBase := ℤ × ℤ

/-- `rational_to_ts`: the nearest frame, half a frame away from zero. -/
def rationalToTs (r : Rational) (tb : TimeBase) : ℤ :=
  if (r.den : ℤ) = 0 ∨ tb.1 = 0 ∨ tb.2 = 0 then 0
  else
    let n := r.num * tb.2
    let d := (r.den : ℤ) * tb.1
    let q := n.tdiv d
    if |d| ≤ |n.tmod d| * 2 then q + if n < 0 then -1 else 1 else q

/-- `ts_to_rational`. -/
def tsToRational (ts : ℤ) (tb : TimeBase) : Rational := ts * tb.1 / tb.2

theorem tsToRational_lt {a b : ℤ} {tb : TimeBase} (hnum : 0 < tb.1) (hden : 0 < tb.2)
    (hab : a < b) : tsToRational a tb < tsToRational b tb := by
  have hnum' : (0 : ℚ) < tb.1 := by exact_mod_cast hnum
  have hden' : (0 : ℚ) < tb.2 := by exact_mod_cast hden
  have hab' : (a : ℚ) < b := by exact_mod_cast hab
  rw [tsToRational, tsToRational]
  exact div_lt_div_of_pos_right (mul_lt_mul_of_pos_right hab' hnum') hden'

/-! ### Composites of closures -/

section Closures

variable {C D : Type*} [Command C D]

/-- `push_multi`: the composite that is pushed, none when there are no children. -/
def pushMulti (children : List C) : Option (UndoCommand C) :=
  if children.isEmpty then none
  else some ((children.map new).foldl multiAddChild newMulti)

/-- A closure that was run. -/
def ran (c : C) : UndoCommand C := .plain c { Flags.fresh with done := true }

/-- The document after a command was pushed. -/
def redone (d : D) : Option (UndoCommand C) → D
  | none => d
  | some c => (redoNow c d).2

/-- The document after a command was pushed and taken back. -/
def undone (d : D) : Option (UndoCommand C) → D
  | none => d
  | some c => (undoNow (redoNow c d).1 (redoNow c d).2).2

/-- Closures do not change when they are run. -/
def IsClosure (c : C) (D : Type*) [Command C D] : Prop :=
  (∀ d : D, (Command.redo c d).1 = c) ∧ ∀ d : D, (Command.undo c d).1 = c

variable {cs : List C}

theorem redoAll_new (hcs : ∀ c ∈ cs, IsClosure c D) (d : D) :
    redoAll (cs.map .new) d =
      (cs.map ran, cs.foldl (fun d c => (Command.redo c d).2) d) := by
  induction cs generalizing d with
  | nil => rfl
  | cons c cs ih =>
    obtain ⟨hc, hcs⟩ := List.forall_mem_cons.1 hcs
    simp only [List.map_cons, redoAll, new, redoNow,
      Flags.fresh, Bool.false_eq_true, if_false, hc.1 d, List.foldl_cons]
    rw [ih hcs]
    rfl

theorem undoAll_ran (cs : List C) (d : D) :
    (undoAll (cs.map ran) d).2 = cs.foldr (fun c d => (Command.undo c d).2) d := by
  induction cs with
  | nil => rfl
  | cons c cs ih =>
    rw [List.map_cons, undoAll, ih]
    rfl

theorem foldl_multiAddChild (cs ds : List (UndoCommand C)) (f : Flags) :
    cs.foldl multiAddChild (.multi ds f) = .multi (ds ++ cs) f := by
  induction cs generalizing ds with
  | nil => rw [List.append_nil, List.foldl_nil]
  | cons c cs ih => rw [List.foldl_cons, multiAddChild, ih, List.append_assoc]; rfl

theorem redone_pushMulti (hcs : ∀ c ∈ cs, IsClosure c D) (d : D) :
    redone d (pushMulti cs) = cs.foldl (fun d c => (Command.redo c d).2) d := by
  rcases cs with _ | ⟨c, cs⟩
  · rfl
  · rw [pushMulti, if_neg (by simp), redone, newMulti, foldl_multiAddChild,
      List.nil_append, redoNow, if_neg (by simp [Flags.fresh]), redoAll_new hcs]

theorem undone_pushMulti (hcs : ∀ c ∈ cs, IsClosure c D) (d : D) :
    undone d (pushMulti cs) =
      cs.foldr (fun c d => (Command.undo c d).2) (redone d (pushMulti cs)) := by
  rw [redone_pushMulti hcs]
  rcases cs with _ | ⟨c, cs⟩
  · rfl
  · rw [pushMulti, if_neg (by simp), undone, newMulti, foldl_multiAddChild,
      List.nil_append, redoNow, if_neg (by simp [Flags.fresh]), redoAll_new hcs,
      undoNow, if_pos rfl, undoAll_ran]

end Closures

/-! ### The trim -/

/-- The closures of `trim_command`. -/
structure TrimCommand where
  clip : NodeId
  /-- Whether the out point stays. -/
  outAnchored : Bool
  old : Rational
  new : Rational
  deriving DecidableEq, Repr

namespace TrimCommand

/-- The length change of a block. -/
def setLength (c : TrimCommand) (length : Rational) (core : BlockCore F) : BlockCore F :=
  if c.outAnchored then core.setLengthAndMediaOut length else core.setLengthAndMediaIn length

instance : Command TrimCommand (ProjectGraph F β) where
  redo c g := (c, modifyBlock g (c.setLength c.new) c.clip)
  undo c g := (c, modifyBlock g (c.setLength c.old) c.clip)

theorem isClosure (c : TrimCommand) : IsClosure c (ProjectGraph F β) := ⟨fun _ => rfl, fun _ => rfl⟩

end TrimCommand

/-- `track_list_behavior`. -/
def trackListBehavior (g : ProjectGraph F β) (id : NodeId) : Option TrackListBehavior :=
  (g.behaviorOf id).bind fun b =>
    match b with
    | .trackList l => some l
    | _ => none

/-- The sequence that a clip is in. -/
def sequenceOf (g : ProjectGraph F β) (clip : NodeId) : Option NodeId :=
  (((blockTrack g clip).bind (trackBehaviorOf g)).bind TrackBehavior.trackList).bind fun l =>
    (trackListBehavior g l).bind TrackListBehavior.sequence

/-- `sequence_time_base`; `rate` has the frame rates of the sequences' first video streams. -/
def sequenceTimeBase (rate : NodeId → Option Rational) (sequence : NodeId) : Option TimeBase :=
  (rate sequence).bind fun r =>
    if r.num ≤ 0 ∨ (r.den : ℤ) ≤ 0 then none else some (r.den, r.num)

theorem sequenceTimeBase_pos {rate : NodeId → Option Rational} {sequence : NodeId} {tb : TimeBase}
    (h : sequenceTimeBase rate sequence = some tb) : 0 < tb.1 ∧ 0 < tb.2 := by
  obtain ⟨r, -, hr⟩ := Option.bind_eq_some_iff.1 h
  split_ifs at hr with hsign
  obtain rfl := Option.some.inj hr
  exact ⟨not_le.1 fun hle => hsign (.inr hle), not_le.1 fun hle => hsign (.inl hle)⟩

/-- The length changes of a trim from `[oldIn, oldOut)` to `[newIn, newOut)`. -/
def trimChildren (clip : NodeId) (oldIn oldOut newIn newOut : Rational) : List TrimCommand :=
  (if newIn = oldIn then [] else [⟨clip, true, oldOut - oldIn, oldOut - newIn⟩]) ++
    -- when both ends move, the old length is the one the first change leaves
    if newOut = oldOut then [] else [⟨clip, false, oldOut - newIn, newOut - newIn⟩]

/-- `trim_clip`: the command that is pushed, if any. -/
def trimClip (rate : NodeId → Option Rational) (g : ProjectGraph F β) (clip : NodeId)
    (newInTs newOutTs : ℤ) : Except String (Option (UndoCommand TrimCommand)) :=
  if newInTs < 0 ∨ newOutTs ≤ newInTs then
    .error "invalid trim range (need 0 <= new_in < new_out)"
  else
    match (sequenceOf g clip).bind (sequenceTimeBase rate) with
    | none => .error "the clip's sequence has no valid frame rate"
    | some tb =>
      match blockCoreOf g clip with
      | none => .error "the node is not a clip"
      | some core =>
        if newInTs = rationalToTs core.in_ tb ∧ newOutTs = rationalToTs core.out tb then .ok none
        else
          .ok (pushMulti (trimChildren clip core.in_ core.out (tsToRational newInTs tb)
            (tsToRational newOutTs tb)))

/-- The times of the trim of a clip. -/
def trimTimes (core : BlockCore F) (newIn newOut : Rational) : List Rational :=
  [core.in_, core.out, core.length, newIn, newOut, core.out - newIn, newOut - newIn,
    core.out + (newOut - newIn)]

/-! ### What a trim keeps -/

section Keeps

variable {core : BlockCore F} {oldIn oldOut newIn newOut : Rational}

/-- The core of a block after its trim. -/
def trimmedCore (core : BlockCore F) (newIn newOut : Rational) : BlockCore F :=
  let c := if newIn = core.in_ then core else core.setLengthAndMediaOut (core.out - newIn)
  if newOut = core.out then c else c.setLengthAndMediaIn (newOut - newIn)

/-- The core of a block after its trim was taken back. -/
def untrimmedCore (core : BlockCore F) (newIn newOut : Rational) : BlockCore F :=
  let c := trimmedCore core newIn newOut
  let c := if newOut = core.out then c else c.setLengthAndMediaIn (core.out - newIn)
  if newIn = core.in_ then c else c.setLengthAndMediaOut (core.out - core.in_)

theorem isClosure_trimChildren {clip : NodeId} :
    ∀ c ∈ trimChildren clip oldIn oldOut newIn newOut, IsClosure c (ProjectGraph F β) :=
  fun c _ => c.isClosure

section

variable {g : ProjectGraph F β} {x : NodeId} {b : Behavior F β} (hb : g.behaviorOf x = some b)
  (hcore : b.blockCore = some core)

include hb hcore

theorem behaviorOf_redone (newIn newOut : Rational) :
    (redone g (pushMulti (trimChildren x core.in_ core.out newIn newOut))).behaviorOf x =
      some (b.modifyCore fun _ => trimmedCore core newIn newOut) := by
  rw [redone_pushMulti isClosure_trimChildren, trimChildren]
  split_ifs with hin hout hout
  all_goals simp only [List.nil_append, List.append_nil, List.cons_append, List.foldl_cons,
    List.foldl_nil, Command.redo, behaviorOf_modifyBlock, if_true, hb, Option.map_some,
    Behavior.modifyCore_modifyCore]
  all_goals refine congrArg some ?_
  · exact ((Behavior.modifyCore_congr hcore (by simp [trimmedCore, hin, hout])).trans
      (Behavior.modifyCore_id b)).symm
  all_goals refine Behavior.modifyCore_congr hcore ?_
  all_goals simp [trimmedCore, TrimCommand.setLength, hin, hout]

theorem behaviorOf_undone (newIn newOut : Rational) :
    (undone g (pushMulti (trimChildren x core.in_ core.out newIn newOut))).behaviorOf x =
      some (b.modifyCore fun _ => untrimmedCore core newIn newOut) := by
  have hredone := behaviorOf_redone hb hcore newIn newOut
  rw [undone_pushMulti isClosure_trimChildren]
  generalize redone g (pushMulti (trimChildren x core.in_ core.out newIn newOut)) = h at hredone
  rw [trimChildren]
  split_ifs with hin hout hout
  all_goals simp only [List.nil_append, List.append_nil, List.cons_append, List.foldr_cons,
    List.foldr_nil, Command.undo, behaviorOf_modifyBlock, if_true, hredone, Option.map_some,
    Behavior.modifyCore_modifyCore]
  all_goals refine congrArg some (Behavior.modifyCore_congr hcore ?_)
  all_goals simp [untrimmedCore, TrimCommand.setLength, hin, hout]

end

variable [ClipSpeed F] {clip : ClipBlockBehavior F}

/-- A clip was trimmed to a range, and shows what it showed at the times that it kept. -/
structure Trimmed (clip clip' : ClipBlockBehavior F) (range : TimeRange) : Prop where
  exact_range : clip'.core.range = range
  media : ∀ t, clip.core.range.contains t = true → range.contains t = true →
    clip'.shownAt t = clip.shownAt t

/-- The trim leaves the media in place: the in point stays, or the clip began with the media at
its own in point and is not trimmed to begin behind its out point; and a clip that is reversed
loses at one end what it gains at the other, unless nothing of it stays. -/
structure KeepsMedia (core : BlockCore F) (newIn newOut : Rational) : Prop where
  anchored : newIn ≠ core.in_ → newIn ≤ core.out ∧ core.mediaIn = core.in_
  reversed : core.reversed = true → max core.in_ newIn < min core.out newOut →
    newIn + newOut = core.in_ + core.out

omit [ClipSpeed F] in
theorem trimmedCore_of_le (hle : newIn ≤ core.out) (hlt : newIn < newOut) :
    trimmedCore core newIn newOut = { core with
      range := ⟨newIn, newOut⟩
      mediaIn := if newIn = core.in_ then core.mediaIn else newIn } := by
  have hin {c : BlockCore F} (hc : c.in_ = newIn) :
      c.setLengthAndMediaIn (newOut - newIn) = { c with range := ⟨newIn, newOut⟩ } := by
    rw [BlockCore.setLengthAndMediaIn_of_le _ (by linarith), hc, add_sub_cancel]
  by_cases hsame : newIn = core.in_
  · rw [trimmedCore, if_pos hsame, if_pos hsame]
    split_ifs with hout
    · rw [hsame, hout]
      rfl
    · exact hin hsame.symm
  · rw [trimmedCore, if_neg hsame, if_neg hsame,
      BlockCore.setLengthAndMediaOut_of_le _ (by linarith), sub_sub_cancel]
    split_ifs with hout
    · rw [hout]
    · exact hin rfl

omit [ClipSpeed F] in
theorem untrimmedCore_of_le (hcore : core.in_ ≤ core.out) (hle : newIn ≤ core.out)
    (hlt : newIn < newOut) :
    untrimmedCore core newIn newOut = { core with
      mediaIn := if newIn = core.in_ then core.mediaIn else core.in_ } := by
  have hin (media : Rational) :
      (if newOut = core.out then { core with range := ⟨newIn, newOut⟩, mediaIn := media }
        else BlockCore.setLengthAndMediaIn { core with
          range := ⟨newIn, newOut⟩
          mediaIn := media } (core.out - newIn)) =
        { core with range := ⟨newIn, core.out⟩, mediaIn := media } := by
    split_ifs with hout
    · rw [hout]
    · rw [BlockCore.setLengthAndMediaIn_of_le _ (by linarith)]
      simp only [BlockCore.in_, add_sub_cancel]
  rw [untrimmedCore, trimmedCore_of_le hle hlt, hin]
  split_ifs with hsame
  · rw [hsame]
    rfl
  · rw [BlockCore.setLengthAndMediaOut_of_le _ (by linarith)]
    simp only [BlockCore.out, sub_sub_cancel]
    rfl

omit [ClipSpeed F] in
/-- A clip that is to begin behind its out point begins at it. -/
theorem in_trimmedCore_of_lt (hcore : core.in_ ≤ core.out) (hlt : newIn < newOut)
    (hbehind : core.out < newIn) : (trimmedCore core newIn newOut).range.in_ = core.out := by
  have hne : newIn ≠ core.in_ := (hcore.trans_lt hbehind).ne'
  have hout : newOut ≠ core.out := (hbehind.trans hlt).ne'
  have hswapped : (core.setLengthAndMediaOut (core.out - newIn)).in_ = core.out := by
    rw [BlockCore.setLengthAndMediaOut, BlockCore.in_add_length, sub_sub_cancel]
    simp only [BlockCore.in_, TimeRange.new, if_pos hbehind]
  rw [trimmedCore, if_neg hne, if_neg hout, BlockCore.setLengthAndMediaIn_of_le _ (by linarith)]
  exact hswapped

theorem trimmed_iff (hspeed : ClipSpeed.isNormal clip.core.speed = true)
    (hcore : clip.core.in_ ≤ clip.core.out) (hlt : newIn < newOut) :
    (Trimmed clip { clip with core := trimmedCore clip.core newIn newOut } ⟨newIn, newOut⟩ ∧
      (untrimmedCore clip.core newIn newOut).range = clip.core.range ∧
      (untrimmedCore clip.core newIn newOut).mediaIn = clip.core.mediaIn) ↔
    KeepsMedia clip.core newIn newOut := by
  by_cases hle : newIn ≤ clip.core.out
  · have hshown (t : Rational) :
        ClipBlockBehavior.shownAt { clip with core := trimmedCore clip.core newIn newOut } t =
          (if clip.core.reversed then newOut - t else t - newIn) +
            if newIn = clip.core.in_ then clip.core.mediaIn else newIn := by
      rw [trimmedCore_of_le hle hlt]
      exact ClipBlockBehavior.shownAt_eq _ (by exact hspeed) t
    have huntrimmed : (untrimmedCore clip.core newIn newOut).mediaIn = clip.core.mediaIn ↔
        (newIn ≠ clip.core.in_ → clip.core.mediaIn = clip.core.in_) := by
      rw [untrimmedCore_of_le hcore hle hlt]
      dsimp only
      split_ifs with hsame
      · simp [hsame]
      · simp [hsame, eq_comm]
    have hrange : (untrimmedCore clip.core newIn newOut).range = clip.core.range := by
      rw [untrimmedCore_of_le hcore hle hlt]
    rw [huntrimmed]
    simp only [hrange, true_and]
    constructor
    · rintro ⟨⟨-, hmedia⟩, hanchored⟩
      refine ⟨fun hne => ⟨hle, hanchored hne⟩, fun hreversed hmeet => ?_⟩
      -- the first time that the clip keeps
      obtain ⟨hold, hnew⟩ := lt_min_iff.1 hmeet
      have hfirst := hmedia (max clip.core.in_ newIn)
        (TimeRange.contains_iff.2 ⟨le_max_left _ _, hold⟩)
        (TimeRange.contains_iff.2 ⟨le_max_right _ _, hnew⟩)
      rw [hshown, ClipBlockBehavior.shownAt_eq _ hspeed, if_pos hreversed,
        if_pos hreversed] at hfirst
      split_ifs at hfirst with hsame
      · rw [hsame]
        linarith
      · have := hanchored hsame
        linarith
    · rintro ⟨hanchored, hreversed⟩
      refine ⟨⟨by rw [trimmedCore_of_le hle hlt], fun t hold hnew => ?_⟩, fun hne =>
        (hanchored hne).2⟩
      obtain ⟨hold, hold'⟩ : clip.core.in_ ≤ t ∧ t < clip.core.out :=
        TimeRange.contains_iff.1 hold
      obtain ⟨hnew, hnew'⟩ : newIn ≤ t ∧ t < newOut := TimeRange.contains_iff.1 hnew
      rw [hshown, ClipBlockBehavior.shownAt_eq _ hspeed]
      by_cases hrev : clip.core.reversed = true
      · have hsum := hreversed hrev ((max_le hold hnew).trans_lt (lt_min hold' hnew'))
        rw [if_pos hrev, if_pos hrev]
        split_ifs with hsame
        · linarith
        · have := (hanchored hsame).2
          linarith
      · rw [if_neg hrev, if_neg hrev]
        split_ifs with hsame
        · rw [hsame]
        · have := (hanchored hsame).2
          linarith
  · have hbehind : clip.core.out < newIn := not_le.1 hle
    constructor
    · rintro ⟨⟨hrange, -⟩, -⟩
      have hin := in_trimmedCore_of_lt hcore hlt hbehind
      rw [show (trimmedCore clip.core newIn newOut).range = ⟨newIn, newOut⟩ from hrange] at hin
      exact absurd hin hbehind.ne'
    · intro hkeeps
      exact absurd (hkeeps.anchored (hcore.trans_lt hbehind).ne').1 hle

end Keeps

/-! ### A trim by frames -/

section Frames

variable [ClipSpeed F] {rate : NodeId → Option Rational} {g : ProjectGraph F β} {x : NodeId}
  {clip : ClipBlockBehavior F} {tb : TimeBase} {newInTs newOutTs : ℤ}

/-- A clip is trimmed to a range, and one undo restores its range and its media in point. -/
def TrimsExactly (rate : NodeId → Option Rational) (g : ProjectGraph F β) (x : NodeId)
    (clip : ClipBlockBehavior F) (newInTs newOutTs : ℤ) (range : TimeRange) : Prop :=
  ∃ cmd after before, trimClip rate g x newInTs newOutTs = .ok cmd ∧
    (redone g cmd).behaviorOf x = some (.clip after) ∧ Trimmed clip after range ∧
    (undone g cmd).behaviorOf x = some (.clip before) ∧ before.core.range = clip.core.range ∧
    before.core.mediaIn = clip.core.mediaIn

/-- A trim by frames whose times are exact is exact when it leaves the media in place. The range
that the source takes for unchanged, because its ends round to the frames asked for, has to be that
of the frames. -/
theorem trimsExactly_iff (hclip : g.behaviorOf x = some (.clip clip))
    (hspeed : ClipSpeed.isNormal clip.core.speed = true)
    (hcore : clip.core.in_ ≤ clip.core.out)
    (htb : (sequenceOf g x).bind (sequenceTimeBase rate) = some tb)
    (hin : 0 ≤ newInTs) (hlt : newInTs < newOutTs)
    (_ : Exacts (trimTimes clip.core (tsToRational newInTs tb) (tsToRational newOutTs tb))) :
    TrimsExactly rate g x clip newInTs newOutTs
        ⟨tsToRational newInTs tb, tsToRational newOutTs tb⟩ ↔
      KeepsMedia clip.core (tsToRational newInTs tb) (tsToRational newOutTs tb) ∧
        (newInTs = rationalToTs clip.core.in_ tb ∧ newOutTs = rationalToTs clip.core.out tb →
          tsToRational newInTs tb = clip.core.in_ ∧ tsToRational newOutTs tb = clip.core.out) := by
  obtain ⟨sequence, -, hsequence⟩ := Option.bind_eq_some_iff.1 htb
  obtain ⟨hnum, hden⟩ := sequenceTimeBase_pos hsequence
  have hnew := tsToRational_lt hnum hden hlt
  have hblock : blockCoreOf g x = some clip.core := by
    rw [blockCoreOf_eq hclip]
    rfl
  rw [TrimsExactly, trimClip, if_neg (by omega), htb]
  simp only [hblock]
  by_cases hsame : newInTs = rationalToTs clip.core.in_ tb ∧
      newOutTs = rationalToTs clip.core.out tb
  · -- nothing is pushed
    rw [if_pos hsame]
    simp only [hsame, and_self, true_imp_iff]
    rw [← hsame.1, ← hsame.2]
    constructor
    · rintro ⟨cmd, after, before, hcmd, hafter, ⟨hrange, -⟩, -⟩
      obtain rfl := Except.ok.inj hcmd
      obtain rfl := Behavior.clip.inj (Option.some.inj (hclip.symm.trans hafter))
      have hends : clip.core.in_ = tsToRational newInTs tb ∧
          clip.core.out = tsToRational newOutTs tb :=
        ⟨congrArg TimeRange.in_ hrange, congrArg TimeRange.out hrange⟩
      exact ⟨⟨fun hne => absurd hends.1.symm hne, fun _ _ => by rw [hends.1, hends.2]⟩,
        hends.1.symm, hends.2.symm⟩
    · rintro ⟨-, hends⟩
      exact ⟨none, clip, clip, rfl, hclip, ⟨by rw [hends.1, hends.2]; rfl, fun _ _ _ => rfl⟩,
        hclip, rfl, rfl⟩
  · rw [if_neg hsame]
    simp only [hsame, false_imp_iff, and_true]
    rw [← trimmed_iff hspeed hcore hnew]
    have hredone := behaviorOf_redone hclip rfl (tsToRational newInTs tb) (tsToRational newOutTs tb)
    have hundone := behaviorOf_undone hclip rfl (tsToRational newInTs tb) (tsToRational newOutTs tb)
    constructor
    · rintro ⟨cmd, after, before, hcmd, hafter, htrimmed, hbefore, hrange, hmedia⟩
      obtain rfl := Except.ok.inj hcmd
      obtain rfl := Behavior.clip.inj (Option.some.inj (hredone.symm.trans hafter))
      obtain rfl := Behavior.clip.inj (Option.some.inj (hundone.symm.trans hbefore))
      exact ⟨htrimmed, hrange, hmedia⟩
    · rintro ⟨htrimmed, hrange, hmedia⟩
      exact ⟨_, _, _, rfl, hredone, htrimmed, hundone, hrange, hmedia⟩

/-- A sequence with one video track, which holds a clip of ten seconds at ten seconds, whose media
begin at `media`. -/
def oneTrack (media : Rational) : ProjectGraph ℚ Plain :=
  ((((Graph.new.addNode .new (.sequence ⟨[⟨1, 0⟩]⟩)).1.addNode .new
    (.trackList ⟨.video, [⟨2, 0⟩], some ⟨0, 0⟩, 0⟩)).1.addNode .new
    (.track ⟨.video, [⟨3, 0⟩], false, false, 3, 0, some ⟨1, 0⟩⟩)).1.addNode .new
    (.clip ⟨⟨⟨10, 20⟩, media, 1, false, [], true, false, 0, some ⟨2, 0⟩⟩, none⟩)).1

/-- A clip that begins with the media at its own in point is trimmed from the tenth to the twelfth
second at both ends, at ten frames a second. -/
theorem trimsExactly_iff_anchored :
    TrimsExactly (fun _ => some 10) (oneTrack 10) ⟨3, 0⟩
      ⟨⟨⟨10, 20⟩, 10, 1, false, [], true, false, 0, some ⟨2, 0⟩⟩, none⟩ 120 180
      ⟨tsToRational 120 (1, 10), tsToRational 180 (1, 10)⟩ :=
  (trimsExactly_iff rfl (by decide +kernel) (by decide +kernel) (by decide +kernel)
    (by decide) (by decide) (by decide +kernel)).2
    ⟨⟨fun _ => ⟨by decide +kernel, rfl⟩, fun h => absurd h (by decide)⟩,
      fun h => absurd h.1 (by decide)⟩

/-- A clip that was moved plays its media from the start. Trimmed to begin at twelve seconds, it
shows the twelfth second of the media there, where it showed the second. -/
theorem trim_moves_media :
    ¬ TrimsExactly (fun _ => some 10) (oneTrack 0) ⟨3, 0⟩
      ⟨⟨⟨10, 20⟩, 0, 1, false, [], true, false, 0, some ⟨2, 0⟩⟩, none⟩ 120 200
      ⟨tsToRational 120 (1, 10), tsToRational 200 (1, 10)⟩ := by
  rintro ⟨cmd, after, before, hcmd, hafter, ⟨-, hmedia⟩, -⟩
  have htb : (sequenceOf (oneTrack 0) ⟨3, 0⟩).bind (sequenceTimeBase fun _ => some 10) =
      some (1, 10) := by decide
  have hcore : blockCoreOf (oneTrack 0) ⟨3, 0⟩ =
      some ⟨⟨10, 20⟩, 0, 1, false, [], true, false, 0, some ⟨2, 0⟩⟩ := by decide
  have hchildren : trimChildren ⟨3, 0⟩ 10 20 (tsToRational 120 (1, 10)) (tsToRational 200 (1, 10)) =
      [⟨⟨3, 0⟩, true, 10, 8⟩] := by decide +kernel
  have hpushed : trimClip (fun _ => some 10) (oneTrack 0) ⟨3, 0⟩ 120 200 =
      .ok (pushMulti [⟨⟨3, 0⟩, true, 10, 8⟩]) := by
    rw [trimClip, if_neg (by decide), htb]
    simp only [hcore]
    rw [if_neg (by decide)]
    exact congrArg (fun children => Except.ok (pushMulti children)) hchildren
  obtain rfl := Except.ok.inj (hpushed.symm.trans hcmd)
  have hclip : (redone (oneTrack 0)
      (pushMulti [(⟨⟨3, 0⟩, true, 10, 8⟩ : TrimCommand)])).behaviorOf ⟨3, 0⟩ =
      some (.clip ⟨⟨⟨12, 20⟩, 12, 1, false, [], true, false, 0, some ⟨2, 0⟩⟩, none⟩) := by
    decide +kernel
  obtain rfl := Behavior.clip.inj (Option.some.inj (hclip.symm.trans hafter))
  exact absurd (hmedia 15 (by decide +kernel) (by decide +kernel)) (by decide +kernel)

end Frames

end Oak.App
