import Oak.Timeline.Content
import Oak.Timeline.RippleUndo
import Mathlib.Data.Set.Finite.Lemmas

/-!
# What the ripple tool moves

Behind the ripple point the content of a track is to be shifted, before it the content is to stay.
`TrackListRippleToolCommand` shifts nothing: it resizes or removes the block itself, and it appends
a gap on top of a block.

## Main results

* `ripplesTracks_iff` : exactly when every track is rippled, and undo and redo go back and forth
  between the two graphs.
-/

namespace Oak.Timeline

open Oak.Core Oak.Node

variable {F β : Type*} [ClipSpeed F]

/-! ### The ripple of a track -/

namespace RippleOp

variable (o : RippleOp F β) (mode : MovementMode) (movement : Rational)

/-- What is before this time stays. -/
def start : Rational :=
  if o.appendGap ∨ mode = .trimIn then inOf o.block.2
  else outOf o.block.2 + min 0 (rippleAmount mode movement)

/-- What is not before this time is shifted. -/
def stop : Rational :=
  if o.appendGap then inOf o.block.2
  else if mode = .trimIn then inOf o.block.2 + max 0 (-rippleAmount mode movement)
  else outOf o.block.2

/-- The time that it is shifted by. -/
def shift : Rational := if o.appendGap then |movement| else rippleAmount mode movement

end RippleOp

open RippleOp

/-- The content before `start` has stayed, and the content from `stop` on is later by `shift`. -/
def Moves (blocks blocks' : List (NodeId × Behavior F β)) (start stop shift : Rational) : Prop :=
  ∀ p ∈ blocks, isGapBlock p.2 = false → ∀ time, inOf p.2 ≤ time → time < outOf p.2 →
    (time < start → Plays blocks' time p.2 (mediaTime p.2 time)) ∧
      (stop ≤ time → Plays blocks' (time + shift) p.2 (mediaTime p.2 time))

/-- The track is rippled. -/
def RippledOn (g' : ProjectGraph F β) (mode : MovementMode) (movement : Rational)
    (o : RippleOp F β) : Prop :=
  ∃ blocks', Track g' o.track { o.t with blocks := blocks'.map Prod.fst } blocks' ∧
    Sorted blocks' ∧ Moves o.blocks blocks' (o.start mode movement) (o.stop mode movement)
      (o.shift mode movement)

/-- After `redo`, and then `n` times `undo` and `redo`. -/
def TrackListRippleToolCommand.rounds (c : TrackListRippleToolCommand F β) (g : ProjectGraph F β) :
    ℕ → TrackListRippleToolCommand F β × ProjectGraph F β
  | 0 => c.redo g
  | n + 1 =>
    let undone := (c.rounds g n).1.undo (c.rounds g n).2
    undone.1.redo undone.2

/-- Every track is rippled, and undo and redo go back and forth between the two graphs. -/
def RipplesTracks (g : ProjectGraph F β) (trackList : NodeId) (ops : List (RippleOp F β))
    (mode : MovementMode) (movement : Rational) : Prop :=
  let c : TrackListRippleToolCommand F β := .new trackList (ops.map info) movement mode
  (∀ o ∈ ops, RippledOn (c.redo g).2 mode movement o) ∧
    ∀ n, SameGraph (c.redo g).2 (c.rounds g n).2 ∧
      SameGraph g ((c.rounds g n).1.undo (c.rounds g n).2).2

/-- What the block itself needs where its out point stays behind its in point, `TrimIn`. -/
def FitsIn (o : RippleOp F β) (length amount : Rational) : Prop :=
  (∀ r ∈ o.behind.head?, inOf o.block.2 + length ≤ inOf r.2) ∧
    (isGapBlock o.block.2 = true ∨ ∀ time, inOf o.block.2 + max 0 (-amount) ≤ time →
      time < outOf o.block.2 →
        mediaTime (o.block.2.modifyCore fun c => { c with range := ⟨c.in_, c.in_ + length⟩ })
          (time + amount) = mediaTime o.block.2 time)

/-- What the block itself needs where its in point moves. -/
def FitsOut (o : RippleOp F β) (length amount : Rational) : Prop :=
  (∀ r ∈ o.before.getLast?, outOf r.2 ≤ outOf o.block.2 - length) ∧
    (isGapBlock o.block.2 = true ∨ (0 ≤ amount ∧ ∀ time, inOf o.block.2 ≤ time →
      time < outOf o.block.2 → mediaTime (o.block.2.modifyCore fun c => { c with
        range := ⟨c.out - length, c.out⟩
        mediaIn := c.out - length }) time = mediaTime o.block.2 time))

/-- No gap is appended, nothing has to be shifted, and the block has room and shows what it has
shown. -/
structure Clear (mode : MovementMode) (movement : Rational) (o : RippleOp F β) : Prop where
  append : o.appendGap = false
  behind : rippleAmount mode movement = 0 ∨ ∀ p ∈ o.behind, isGapBlock p.2 = true
  fitsIn : o.length mode movement ≠ 0 → mode = .trimIn →
    FitsIn o (o.length mode movement) (rippleAmount mode movement)
  fitsOut : o.length mode movement ≠ 0 → mode ≠ .trimIn →
    FitsOut o (o.length mode movement) (rippleAmount mode movement)

/-! ### Content of sorted blocks -/

variable {f : BlockCore F → BlockCore F}

section Content

variable {blocks blocks' pre post : List (NodeId × Behavior F β)} {p : NodeId × Behavior F β}
  {b : Behavior F β} {media : Option Rational} {time start stop shift : Rational}

theorem plays_self (hp : p ∈ blocks) (hgap : isGapBlock p.2 = false) (hin : inOf p.2 ≤ time)
    (hout : time < outOf p.2) : Plays blocks time p.2 (mediaTime p.2 time) :=
  ⟨p, hp, hgap, hin, hout, rfl, rfl⟩

omit [ClipSpeed F] in
theorem eq_of_covers {q : NodeId × Behavior F β} (h : Sorted (pre ++ p :: post))
    (hq : q ∈ pre ++ p :: post) (hin : inOf p.2 ≤ time) (hout : time < outOf p.2)
    (hqin : inOf q.2 ≤ time) (hqout : time < outOf q.2) : q = p := by
  obtain ⟨-, hbehind, hbefore⟩ := sorted_append.1 h
  obtain ⟨-, -, hbehind⟩ := sorted_cons.1 hbehind
  rcases List.mem_append.1 hq with hq | hq
  · exact absurd (hbefore q hq p List.mem_cons_self) (not_le.2 (hin.trans_lt hqout))
  rcases List.mem_cons.1 hq with rfl | hq
  · rfl
  · exact absurd (hbehind q hq) (not_le.2 (hqin.trans_lt hout))

/-- What is shown at a time is shown by the block that covers the time. -/
theorem plays_iff (h : Sorted (pre ++ p :: post)) (hin : inOf p.2 ≤ time)
    (hout : time < outOf p.2) : Plays (pre ++ p :: post) time b media ↔
      isGapBlock p.2 = false ∧ p.2.modifyCore unplaced = b.modifyCore unplaced ∧
        mediaTime p.2 time = media := by
  constructor
  · rintro ⟨q, hq, hgap, hqin, hqout, hsame, hmedia⟩
    obtain rfl := eq_of_covers h hq hin hout hqin hqout
    exact ⟨hgap, hsame, hmedia⟩
  · rintro ⟨hgap, hsame, hmedia⟩
    exact ⟨p, by simp, hgap, hin, hout, hsame, hmedia⟩

/-- Content that has to be elsewhere, and is where it was, is not there. -/
theorem forall_gap_of_shift (hshift : shift ≠ 0)
    (hplays : ∀ p ∈ post, isGapBlock p.2 = false → ∀ time, inOf p.2 ≤ time → time < outOf p.2 →
      Plays blocks' (time + shift) p.2 (mediaTime p.2 time))
    (hpos : ∀ p ∈ post, inOf p.2 < outOf p.2)
    (hothers : ∀ q ∈ blocks', isGapBlock q.2 = false → q ∈ post ∨
      ∀ p ∈ post, outOf q.2 ≤ inOf p.2 ∧ outOf q.2 ≤ inOf p.2 + shift) :
    ∀ p ∈ post, isGapBlock p.2 = true := by
  by_contra hnot
  simp only [not_forall, Bool.not_eq_true] at hnot
  obtain ⟨p, hp, hgap⟩ := hnot
  have hfinite : {p | p ∈ post ∧ isGapBlock p.2 = false}.Finite :=
    post.finite_toSet.subset fun p hp => hp.1
  rcases lt_or_gt_of_ne hshift with hneg | hshift
  · -- the first content has nothing before it to be shown there
    obtain ⟨m, ⟨hm, hmgap⟩, hmin⟩ := Set.exists_min_image
      {p | p ∈ post ∧ isGapBlock p.2 = false} (fun p => inOf p.2) hfinite ⟨p, hp, hgap⟩
    obtain ⟨q, hq, hqgap, hqin, hqout, -⟩ := hplays m hm hmgap (inOf m.2) le_rfl (hpos m hm)
    rcases hothers q hq hqgap with hqpost | hbefore
    · have hle : inOf m.2 ≤ inOf q.2 := hmin q ⟨hqpost, hqgap⟩
      linarith
    · have hle := (hbefore m hm).2
      linarith
  · -- the last content has nothing behind it to be shown there
    obtain ⟨m, ⟨hm, hmgap⟩, hmax⟩ := Set.exists_max_image
      {p | p ∈ post ∧ isGapBlock p.2 = false} (fun p => outOf p.2) hfinite ⟨p, hp, hgap⟩
    have htime : max (inOf m.2) (outOf m.2 - shift) < outOf m.2 :=
      max_lt (hpos m hm) (by linarith)
    obtain ⟨q, hq, hqgap, -, hqout, -⟩ := hplays m hm hmgap _ (le_max_left _ _) htime
    have hge := le_max_right (inOf m.2) (outOf m.2 - shift)
    have hge' := le_max_left (inOf m.2) (outOf m.2 - shift)
    rcases hothers q hq hqgap with hqpost | hbefore
    · have hle : outOf q.2 ≤ outOf m.2 := hmax q ⟨hqpost, hqgap⟩
      linarith
    · have hle := (hbefore m hm).1
      linarith

/-- The content before a block and behind it, and its own, with the blocks `m` in its place. -/
theorem moves_iff {m : List (NodeId × Behavior F β)} (h : Sorted (pre ++ p :: post))
    (hstart : inOf p.2 ≤ start) (hstart' : start ≤ outOf p.2) (hstop : inOf p.2 ≤ stop)
    (hstop' : stop ≤ outOf p.2) (hlength : 0 ≤ outOf p.2 - inOf p.2 + shift)
    (hm : ∀ q ∈ m, isGapBlock q.2 = false →
      ∀ r ∈ post, outOf q.2 ≤ inOf r.2 ∧ outOf q.2 ≤ inOf r.2 + shift) :
    Moves (pre ++ p :: post) (pre ++ (m ++ post)) start stop shift ↔
      (shift = 0 ∨ ∀ q ∈ post, isGapBlock q.2 = true) ∧
        Moves [p] (pre ++ (m ++ post)) start stop shift := by
  obtain ⟨-, hbehind, hbefore⟩ := sorted_append.1 h
  obtain ⟨-, hsorted, hbehind⟩ := sorted_cons.1 hbehind
  have hothers (q : NodeId × Behavior F β) (hq : q ∈ pre ++ (m ++ post))
      (hgap : isGapBlock q.2 = false) :
      q ∈ post ∨ ∀ r ∈ post, outOf q.2 ≤ inOf r.2 ∧ outOf q.2 ≤ inOf r.2 + shift := by
    rcases List.mem_append.1 hq with hq | hq
    · refine .inr fun r hr => ?_
      have hle := hbefore q hq p List.mem_cons_self
      have hle' := hbehind r hr
      exact ⟨by linarith, by linarith⟩
    · exact (List.mem_append.1 hq).symm.imp_right fun hq => hm q hq hgap
  constructor
  · intro hmoves
    refine ⟨?_, fun q hq => hmoves q (by simp [List.mem_singleton.1 hq])⟩
    by_cases hshift : shift = 0
    · exact .inl hshift
    · refine .inr (forall_gap_of_shift hshift (fun q hq hgap time hin hout => ?_) hsorted.1 hothers)
      exact (hmoves q (by simp [hq]) hgap time hin hout).2 (hstop'.trans ((hbehind q hq).trans hin))
  · rintro ⟨hrest, hown⟩ q hq hgap time hin hout
    rcases List.mem_append.1 hq with hq | hq
    · have hle := hbefore q hq p List.mem_cons_self
      refine ⟨fun _ => plays_self (List.mem_append_left _ hq) hgap hin hout, fun hfalse => ?_⟩
      linarith
    rcases List.mem_cons.1 hq with rfl | hq
    · exact hown q List.mem_cons_self hgap time hin hout
    · have hle := hbehind q hq
      refine ⟨fun hfalse => by linarith, fun _ => ?_⟩
      rcases hrest with hzero | hgaps
      · rw [hzero, add_zero]
        exact plays_self (by simp [hq]) hgap hin hout
      · exact absurd ((hgaps q hq).symm.trans hgap) (by simp)

theorem moves_removed_iff (h : Sorted (pre ++ p :: post))
    (hshift : outOf p.2 - inOf p.2 + shift = 0) :
    Moves (pre ++ p :: post) (pre ++ post) (inOf p.2) (outOf p.2) shift ↔
      ∀ q ∈ post, isGapBlock q.2 = true := by
  have hlt := h.1 p (by simp)
  have hne : shift ≠ 0 := by linarith
  refine (moves_iff (m := []) h le_rfl hlt.le hlt.le le_rfl hshift.ge (by simp)).trans ?_
  rw [or_iff_right hne, and_iff_left]
  intro q hq _ time hin hout
  obtain rfl := List.mem_singleton.1 hq
  exact ⟨fun hfalse => absurd hin (not_le.2 hfalse), fun hfalse => absurd hout (not_lt.2 hfalse)⟩

variable (shift) in
/-- A block that has kept its in point. -/
theorem moves_in_iff {x : NodeId} {core : BlockCore F} (h : Sorted (pre ++ (x, b) :: post))
    (hcore : b.blockCore = some core) (hf : unplaced (f core) = unplaced core)
    (hin' : inOf (b.modifyCore f) = inOf b) (hout' : outOf (b.modifyCore f) = outOf b + shift)
    (hpos : 0 < outOf b - inOf b + shift) (h' : Sorted (pre ++ (x, b.modifyCore f) :: post)) :
    Moves (pre ++ (x, b) :: post) (pre ++ (x, b.modifyCore f) :: post) (inOf b)
        (inOf b + max 0 (-shift)) shift ↔
      (shift = 0 ∨ ∀ q ∈ post, isGapBlock q.2 = true) ∧ (isGapBlock b = true ∨
        ∀ time, inOf b + max 0 (-shift) ≤ time → time < outOf b →
          mediaTime (b.modifyCore f) (time + shift) = mediaTime b time) := by
  have hlt : inOf b < outOf b := h.1 (x, b) (by simp)
  have hbehind := (sorted_cons.1 (sorted_append.1 h).2.1).2.2
  have hbehind' := (sorted_cons.1 (sorted_append.1 h').2.1).2.2
  have hmax : max 0 (-shift) ≤ outOf b - inOf b := max_le (by linarith) (by linarith)
  have hmax' := le_max_left 0 (-shift)
  have hmax'' := le_max_right 0 (-shift)
  refine (moves_iff (m := [(x, b.modifyCore f)]) h le_rfl hlt.le (by linarith) (by linarith) hpos.le
    ?_).trans ?_
  · intro q hq _ r hr
    obtain rfl := List.mem_singleton.1 hq
    have hle' : outOf b ≤ inOf r.2 := hbehind r hr
    exact ⟨hbehind' r hr, by linarith⟩
  · refine and_congr_right fun _ => ?_
    have hplays {time : Rational} (hin : inOf b + max 0 (-shift) ≤ time) (hout : time < outOf b) :
        Plays (pre ++ (x, b.modifyCore f) :: post) (time + shift) b (mediaTime b time) ↔
          isGapBlock b = false ∧
            mediaTime (b.modifyCore f) (time + shift) = mediaTime b time := by
      have hsame : (b.modifyCore f).modifyCore unplaced = b.modifyCore unplaced := by
        rw [Behavior.modifyCore_modifyCore]
        exact Behavior.modifyCore_congr hcore hf
      rw [plays_iff h' (by dsimp only; linarith) (by dsimp only; linarith), isGapBlock_modifyCore,
        and_iff_right hsame]
    constructor
    · intro hmoves
      rcases hgap : isGapBlock b with _ | _
      · refine .inr fun time hin hout => ((hplays hin hout).1 ?_).2
        exact (hmoves (x, b) List.mem_cons_self hgap time (by dsimp only; linarith) hout).2 hin
      · exact .inl rfl
    · intro hown q hq hgap time hin hout
      obtain rfl := List.mem_singleton.1 hq
      refine ⟨fun hfalse => absurd hin (not_le.2 hfalse), fun hstop => (hplays hstop hout).2
        ⟨hgap, ?_⟩⟩
      exact (hown.resolve_left (by simp [hgap])) time hstop hout

variable (shift) in
/-- A block that has kept its out point. -/
theorem moves_out_iff {x : NodeId} {core : BlockCore F} (h : Sorted (pre ++ (x, b) :: post))
    (hcore : b.blockCore = some core) (hf : unplaced (f core) = unplaced core)
    (hin' : inOf (b.modifyCore f) = inOf b - shift) (hout' : outOf (b.modifyCore f) = outOf b)
    (hpos : 0 < outOf b - inOf b + shift) (h' : Sorted (pre ++ (x, b.modifyCore f) :: post)) :
    Moves (pre ++ (x, b) :: post) (pre ++ (x, b.modifyCore f) :: post) (outOf b + min 0 shift)
        (outOf b) shift ↔
      (shift = 0 ∨ ∀ q ∈ post, isGapBlock q.2 = true) ∧ (isGapBlock b = true ∨ (0 ≤ shift ∧
        ∀ time, inOf b ≤ time → time < outOf b →
          mediaTime (b.modifyCore f) time = mediaTime b time)) := by
  have hlt : inOf b < outOf b := h.1 (x, b) (by simp)
  obtain ⟨-, hbehind, hbefore⟩ := sorted_append.1 h
  obtain ⟨-, -, hbehind⟩ := sorted_cons.1 hbehind
  by_cases hcase : isGapBlock b = false ∧ shift < 0
  · -- the head of the block has to stay, and it is gone
    obtain ⟨hgap, hneg⟩ := hcase
    refine iff_of_false (fun hmoves => ?_) fun hfalse => ?_
    · have hstart : inOf b < outOf b + min 0 shift := by
        rw [min_eq_right hneg.le]
        linarith
      obtain ⟨q, hq, -, hqin, hqout, -⟩ :=
        (hmoves (x, b) (by simp) hgap (inOf b) le_rfl hlt).1 hstart
      rcases List.mem_append.1 hq with hq | hq
      · exact absurd (hbefore q hq (x, b) List.mem_cons_self) (not_le.2 hqout)
      rcases List.mem_cons.1 hq with rfl | hq
      · dsimp only at hqin
        linarith
      · have hle : outOf b ≤ inOf q.2 := hbehind q hq
        linarith
    · rcases hfalse.2 with hfalse | hfalse
      · exact absurd (hgap.symm.trans hfalse) (by simp)
      · exact absurd hfalse.1 (not_le.2 hneg)
  have hcase' (hgap : isGapBlock b = false) : 0 ≤ shift :=
    not_lt.1 fun hneg => hcase ⟨hgap, hneg⟩
  have hmin := min_le_left 0 shift
  have hmin' : -(outOf b - inOf b) ≤ min 0 shift := le_min (by linarith) (by linarith)
  refine (moves_iff (m := [(x, b.modifyCore f)]) h (by linarith) (by linarith) hlt.le le_rfl hpos.le
    ?_).trans ?_
  · intro q hq hgap r hr
    obtain rfl := List.mem_singleton.1 hq
    rw [isGapBlock_modifyCore] at hgap
    have hle : outOf b ≤ inOf r.2 := hbehind r hr
    have hshift := hcase' hgap
    exact ⟨by linarith, by linarith⟩
  · refine and_congr_right fun _ => ?_
    have hplays {time : Rational} (hgap : isGapBlock b = false) (hin : inOf b ≤ time)
        (hout : time < outOf b) : Plays (pre ++ (x, b.modifyCore f) :: post) time b
          (mediaTime b time) ↔ mediaTime (b.modifyCore f) time = mediaTime b time := by
      have hsame : (b.modifyCore f).modifyCore unplaced = b.modifyCore unplaced := by
        rw [Behavior.modifyCore_modifyCore]
        exact Behavior.modifyCore_congr hcore hf
      have hle := hcase' hgap
      rw [plays_iff h' (by dsimp only; linarith) (by dsimp only; linarith), isGapBlock_modifyCore,
        and_iff_right hgap, and_iff_right hsame]
    constructor
    · intro hmoves
      rcases hgap : isGapBlock b with _ | _
      · refine .inr ⟨hcase' hgap, fun time hin hout => (hplays hgap hin hout).1 ?_⟩
        refine (hmoves (x, b) List.mem_cons_self hgap time hin hout).1 ?_
        rwa [min_eq_left (hcase' hgap), add_zero]
      · exact .inl rfl
    · intro hown q hq hgap time hin hout
      obtain rfl := List.mem_singleton.1 hq
      refine ⟨fun _ => (hplays hgap hin hout).2 ?_, fun hfalse => absurd hout (not_lt.2 hfalse)⟩
      exact (hown.resolve_left (by simp [hgap])).2 time hin hout

end Content

/-! ### One track -/

section Track

variable {g g' : ProjectGraph F β} {o : RippleOp F β} {mode : MovementMode} {movement : Rational}
  {s : RippleState F β}

theorem rippledOn_iff_of_track {blocks' : List (NodeId × Behavior F β)}
    (h : Track g' o.track { o.t with blocks := blocks'.map Prod.fst } blocks') :
    RippledOn g' mode movement o ↔ Sorted blocks' ∧ Moves o.blocks blocks'
      (o.start mode movement) (o.stop mode movement) (o.shift mode movement) := by
  constructor
  · rintro ⟨new, h', hsorted, hmoves⟩
    have hsame := Behavior.track.inj (Option.some.inj (h'.behavior.symm.trans h.behavior))
    rw [hsame] at h'
    obtain rfl := Timeline.track_unique h' h
    exact ⟨hsorted, hmoves⟩
  · exact fun hmoves => ⟨blocks', h, hmoves⟩

theorem not_rippledOn_of_appended (h : Appended movement o s) : ¬ RippledOn s.2 mode movement o := by
  obtain ⟨gap, htrack⟩ := h
  have hids : o.before.map Prod.fst ++ gap :: o.block.1 :: o.behind.map Prod.fst =
      (o.before ++ (gap, (.gap ⟨{ newGapCore (inOf o.block.2) |movement| with
        track := some o.track }⟩ : Behavior F β)) :: o.block :: o.behind).map Prod.fst := by
    simp
  rw [hids] at htrack
  rw [rippledOn_iff_of_track htrack]
  rintro ⟨hsorted, -⟩
  obtain ⟨-, hbehind, -⟩ := sorted_append.1 hsorted
  obtain ⟨hpos, -, hle⟩ := sorted_cons.1 hbehind
  have hle' := hle o.block List.mem_cons_self
  exact absurd (hpos.trans_le hle') (lt_irrefl _)

/-- A track whose block has left is rippled exactly if nothing is behind it but gaps. -/
theorem rippledOn_removed_iff (hsorted : Sorted o.blocks) (happend : o.appendGap = false)
    (hzero : o.length mode movement = 0) (hs : Rippled mode movement o s) :
    RippledOn s.2 mode movement o ↔ ∀ p ∈ o.behind, isGapBlock p.2 = true := by
  obtain ⟨entry, hremoved⟩ := hs.1 hzero
  have hlt := hsorted.1 o.block o.mem_blocks
  have hshift : outOf o.block.2 - inOf o.block.2 + o.shift mode movement = 0 := by
    rw [shift, happend, if_neg Bool.false_ne_true]
    exact hzero
  have hamount : rippleAmount mode movement = -(outOf o.block.2 - inOf o.block.2) := by
    rw [length] at hzero
    linarith
  have hstart : o.start mode movement = inOf o.block.2 := by
    rw [start]
    split_ifs
    · rfl
    · rw [hamount, min_eq_right (by linarith)]
      ring
  have hstop : o.stop mode movement = outOf o.block.2 := by
    rw [stop, happend, if_neg Bool.false_ne_true]
    split_ifs
    · rw [hamount, neg_neg, max_eq_right (by linarith)]
      ring
    · rfl
  have hrest : Sorted (o.before ++ o.behind) :=
    hsorted.sublist ((List.sublist_cons_self _ _).append_left o.before)
  rw [rippledOn_iff_of_track (show Track s.2 o.track { o.t with
    blocks := (o.before ++ o.behind).map Prod.fst } (o.before ++ o.behind) from hremoved.track),
    hstart, hstop, and_iff_right hrest]
  exact moves_removed_iff hsorted hshift

theorem rippledOn_resized_iff (hs : Rippled mode movement o s) (hpos : 0 < o.length mode movement) :
    RippledOn s.2 mode movement o ↔
      Sorted (o.before ++ (o.block.1, o.block.2.modifyCore
        (resized mode (o.length mode movement))) :: o.behind) ∧
      Moves o.blocks (o.before ++ (o.block.1, o.block.2.modifyCore
        (resized mode (o.length mode movement))) :: o.behind)
        (o.start mode movement) (o.stop mode movement) (o.shift mode movement) := by
  have htrack := hs.2 hpos.ne'
  refine rippledOn_iff_of_track ?_
  rw [← htrack.order]
  exact htrack

section

variable (hsorted : Sorted o.blocks) (hcore : ∃ core, o.block.2.blockCore = some core)
  (happend : o.appendGap = false)

include hsorted hcore happend

theorem rippledOn_in_iff (hpos : 0 < o.length mode movement) (hmode : mode = .trimIn)
    (hs : Rippled mode movement o s) :
    RippledOn s.2 mode movement o ↔
      (rippleAmount mode movement = 0 ∨ ∀ p ∈ o.behind, isGapBlock p.2 = true) ∧
        FitsIn o (o.length mode movement) (rippleAmount mode movement) := by
  obtain ⟨core, hcore⟩ := hcore
  have hresized : resized mode (o.length mode movement) core =
      { core with range := ⟨core.in_, core.in_ + o.length mode movement⟩ } := by
    rw [resized, if_pos hmode, BlockCore.setLengthAndMediaIn_of_le core hpos.le]
  have hmedia : o.block.2.modifyCore (resized mode (o.length mode movement)) =
      o.block.2.modifyCore fun c =>
        { c with range := ⟨c.in_, c.in_ + o.length mode movement⟩ } :=
    Behavior.modifyCore_congr hcore hresized
  have hin : inOf (o.block.2.modifyCore (resized mode (o.length mode movement))) =
      inOf o.block.2 := by
    rw [inOf_modifyCore hcore, hresized, inOf_eq hcore]
    rfl
  have hout : outOf (o.block.2.modifyCore (resized mode (o.length mode movement))) =
      inOf o.block.2 + o.length mode movement := by
    rw [outOf_modifyCore hcore, hresized, inOf_eq hcore]
    rfl
  have hfits : Sorted (o.before ++ (o.block.1, o.block.2.modifyCore
      (resized mode (o.length mode movement))) :: o.behind) ↔
        ∀ r ∈ o.behind.head?, inOf o.block.2 + o.length mode movement ≤ inOf r.2 := by
    have hold := hsorted
    rw [blocks, sorted_around_iff] at hold
    rw [sorted_around_iff, hin, hout, and_iff_right hold.1,
      and_iff_right (by linarith), and_iff_right hold.2.2.1]
  rw [rippledOn_resized_iff hs hpos, hfits, FitsIn, and_left_comm]
  refine and_congr_right fun hhead => ?_
  have hmoves := moves_in_iff (rippleAmount mode movement) (x := o.block.1) hsorted hcore
    (f := resized mode (o.length mode movement)) (by rw [hresized]; rfl) hin
    (by rw [hout, length]; ring) hpos (hfits.2 hhead)
  rw [start, if_pos (.inr hmode), stop, happend, if_neg Bool.false_ne_true,
    if_pos hmode, shift, happend, if_neg Bool.false_ne_true, ← hmedia]
  exact hmoves

theorem rippledOn_out_iff (hpos : 0 < o.length mode movement) (hmode : mode ≠ .trimIn)
    (hs : Rippled mode movement o s) :
    RippledOn s.2 mode movement o ↔
      (rippleAmount mode movement = 0 ∨ ∀ p ∈ o.behind, isGapBlock p.2 = true) ∧
        FitsOut o (o.length mode movement) (rippleAmount mode movement) := by
  obtain ⟨core, hcore⟩ := hcore
  have hresized : resized mode (o.length mode movement) core = { core with
      range := ⟨core.out - o.length mode movement, core.out⟩
      mediaIn := core.out - o.length mode movement } := by
    rw [resized, if_neg hmode, BlockCore.setLengthAndMediaOut_of_le core hpos.le]
  have hmedia : o.block.2.modifyCore (resized mode (o.length mode movement)) =
      o.block.2.modifyCore fun c => { c with
        range := ⟨c.out - o.length mode movement, c.out⟩
        mediaIn := c.out - o.length mode movement } :=
    Behavior.modifyCore_congr hcore hresized
  have hin : inOf (o.block.2.modifyCore (resized mode (o.length mode movement))) =
      outOf o.block.2 - o.length mode movement := by
    rw [inOf_modifyCore hcore, hresized, outOf_eq hcore]
    rfl
  have hout : outOf (o.block.2.modifyCore (resized mode (o.length mode movement))) =
      outOf o.block.2 := by
    rw [outOf_modifyCore hcore, hresized, outOf_eq hcore]
    rfl
  have hfits : Sorted (o.before ++ (o.block.1, o.block.2.modifyCore
      (resized mode (o.length mode movement))) :: o.behind) ↔
        ∀ r ∈ o.before.getLast?, outOf r.2 ≤ outOf o.block.2 - o.length mode movement := by
    have hold := hsorted
    rw [blocks, sorted_around_iff] at hold
    rw [sorted_around_iff, hin, hout, and_iff_right hold.1.1, and_iff_left]
    exact ⟨by linarith, hold.2.2⟩
  rw [rippledOn_resized_iff hs hpos, hfits, FitsOut, and_left_comm]
  refine and_congr_right fun hlast => ?_
  have hmoves := moves_out_iff (rippleAmount mode movement) (x := o.block.1) hsorted hcore
    (f := resized mode (o.length mode movement)) (by rw [hresized]; rfl)
    (by rw [hin, length]; ring) hout hpos (hfits.2 hlast)
  rw [start, if_neg (by simp [happend, hmode]), stop, happend,
    if_neg Bool.false_ne_true, if_neg hmode, shift, happend, if_neg Bool.false_ne_true,
    ← hmedia]
  exact hmoves

theorem rippledOn_iff (hlength : 0 ≤ o.length mode movement) (hs : Rippled mode movement o s) :
    RippledOn s.2 mode movement o ↔ Clear mode movement o := by
  by_cases hzero : o.length mode movement = 0
  · rw [rippledOn_removed_iff hsorted happend hzero hs]
    have hne : rippleAmount mode movement ≠ 0 := by
      have hlt := hsorted.1 o.block o.mem_blocks
      rw [length] at hzero
      linarith
    exact ⟨fun hgaps => ⟨happend, .inr hgaps, fun hfalse => absurd hzero hfalse,
      fun hfalse => absurd hzero hfalse⟩, fun hclear => hclear.behind.resolve_left hne⟩
  have hpos := lt_of_le_of_ne hlength (Ne.symm hzero)
  by_cases hmode : mode = .trimIn
  · rw [rippledOn_in_iff hsorted hcore happend hpos hmode hs]
    exact ⟨fun hall => ⟨happend, hall.1, fun _ _ => hall.2, fun _ hfalse => absurd hmode hfalse⟩,
      fun hclear => ⟨hclear.behind, hclear.fitsIn hzero hmode⟩⟩
  · rw [rippledOn_out_iff hsorted hcore happend hpos hmode hs]
    exact ⟨fun hall => ⟨happend, hall.1, fun _ hfalse => absurd hfalse hmode, fun _ _ => hall.2⟩,
      fun hclear => ⟨hclear.behind, hclear.fitsOut hzero hmode⟩⟩

end

end Track

/-! ### All tracks -/

section Result

variable {g : ProjectGraph F β} {trackList : NodeId} {ops : List (RippleOp F β)}
  {mode : MovementMode} {movement : Rational}

variable (trackList ops mode movement) in
theorem ripple_eq (redo : Bool) (s : RippleState F β) :
    TrackListRippleToolCommand.ripple
        { (.new trackList (ops.map info) movement mode : TrackListRippleToolCommand F β)
          with workingData := s.1 } redo s.2 =
      ({ (.new trackList (ops.map info) movement mode : TrackListRippleToolCommand F β)
          with workingData := (pass (.new trackList (ops.map info) movement mode) ops redo
            s).1 },
        (pass (.new trackList (ops.map info) movement mode) ops redo s).2) := by
  rw [TrackListRippleToolCommand.ripple]
  dsimp only [TrackListRippleToolCommand.new]
  rw [List.foldl_map]
  rfl

theorem rounds_eq (n : ℕ) :
    (TrackListRippleToolCommand.new trackList (ops.map info) movement mode).rounds g n =
      ({ (.new trackList (ops.map info) movement mode : TrackListRippleToolCommand F β)
          with workingData := (rounds (.new trackList (ops.map info) movement mode) ops g
            n).1 },
        (rounds (.new trackList (ops.map info) movement mode) ops g n).2) := by
  induction n with
  | zero => exact ripple_eq trackList ops mode movement true (fun _ => .default, g)
  | succ n ih =>
    rw [TrackListRippleToolCommand.rounds, ih]
    dsimp only
    rw [TrackListRippleToolCommand.undo, ripple_eq]
    dsimp only
    rw [TrackListRippleToolCommand.redo, ripple_eq]
    rfl

theorem ripplesTracks_iff_pass : RipplesTracks g trackList ops mode movement ↔
    (∀ o ∈ ops, RippledOn (pass (.new trackList (ops.map info) movement mode) ops true
      (fun _ => .default, g)).2 mode movement o) ∧
        Returns (.new trackList (ops.map info) movement mode) ops g := by
  have hundo (n : ℕ) := ripple_eq trackList ops mode movement false
    (rounds (.new trackList (ops.map info) movement mode) ops g n)
  have hredo : (TrackListRippleToolCommand.new trackList (ops.map info) movement
      mode).redo g = _ := ripple_eq trackList ops mode movement true (fun _ => .default, g)
  simp only [RipplesTracks, Returns, rounds_eq, hredo, TrackListRippleToolCommand.undo, hundo]
  rfl

theorem Rippleable.rippledOn_pass_iff (h : Rippleable g ops) (trackList : NodeId)
    (happend : ∀ o ∈ ops, o.appendGap = false) (hr : ∀ o ∈ ops, Reversible g mode movement o)
    {o : RippleOp F β} (ho : o ∈ ops) :
    RippledOn (pass (.new trackList (ops.map info) movement mode) ops true
      (fun _ => .default, g)).2 mode movement o ↔ Clear mode movement o := by
  obtain ⟨core, hcore, -⟩ := (h.track o ho).exists_core (x := o.block.1) (b := o.block.2)
  exact rippledOn_iff (h.sorted o ho) ⟨core, hcore⟩ (happend o ho) (hr o ho).length
    ((h.pass_redo (c := .new trackList (ops.map info) movement mode)
      (s := (fun _ => .default, g)) happend h.track).1 o ho)

theorem RipplesTracks.clear (hexact : RipplesTracks g trackList ops mode movement)
    (h : Rippleable g ops) : ∀ o ∈ ops, Clear mode movement o ∧ Reversible g mode movement o := by
  obtain ⟨hrippled, hreturns⟩ := ripplesTracks_iff_pass.1 hexact
  have happend : ∀ o ∈ ops, o.appendGap = false := by
    intro o ho
    rcases happend : o.appendGap with _ | _
    · rfl
    · exact absurd (hrippled o ho) (not_rippledOn_of_appended (h.pass_append ho happend))
  have hr := (returns_iff h happend).1 hreturns
  exact fun o ho => ⟨(h.rippledOn_pass_iff trackList happend hr ho).1 (hrippled o ho), hr o ho⟩

/-- **The ripple tool.** Where the times are exact, every track is rippled, and undo and redo go
back and forth between the two graphs, exactly where nothing has to be shifted and every block can
be undone. -/
theorem ripplesTracks_iff (h : Rippleable g ops)
    (_ : ∀ o ∈ ops, Exacts (o.times mode movement)) : RipplesTracks g trackList ops mode movement ↔
    ∀ o ∈ ops, Clear mode movement o ∧ Reversible g mode movement o := by
  refine ⟨fun hexact => hexact.clear h, fun hall => ripplesTracks_iff_pass.2 ?_⟩
  have happend : ∀ o ∈ ops, o.appendGap = false := fun o ho => (hall o ho).1.append
  have hr : ∀ o ∈ ops, Reversible g mode movement o := fun o ho => (hall o ho).2
  exact ⟨fun o ho => (h.rippledOn_pass_iff trackList happend hr ho).2 (hall o ho).1,
    (returns_iff h happend).2 hr⟩

end Result

section Examples

/-- The last clip of the track. -/
def lastClip : RippleOp ℚ Plain :=
  ⟨⟨0, 0⟩, ⟨.video, [⟨1, 0⟩, ⟨2, 0⟩, ⟨3, 0⟩, ⟨4, 0⟩], false, false, 3, 0, none⟩,
    gapBetweenBlocks.take 3, (⟨4, 0⟩, .clip ⟨tenFrom 30, none⟩), [], false⟩

/-- The gap between the clips. -/
def middleGap : RippleOp ℚ Plain :=
  ⟨⟨0, 0⟩, ⟨.video, [⟨1, 0⟩, ⟨2, 0⟩, ⟨3, 0⟩, ⟨4, 0⟩], false, false, 3, 0, none⟩,
    gapBetweenBlocks.take 1, (⟨2, 0⟩, .gap ⟨tenFrom 10⟩), gapBetweenBlocks.drop 2, false⟩

theorem rippleable_gapBetween {o : RippleOp ℚ Plain} (hblocks : o.blocks = gapBetweenBlocks)
    (htrack : o.track = ⟨0, 0⟩) (ht : o.t =
      ⟨.video, [⟨1, 0⟩, ⟨2, 0⟩, ⟨3, 0⟩, ⟨4, 0⟩], false, false, 3, 0, none⟩) :
    Rippleable gapBetween [o] where
  nodup := List.nodup_singleton _
  track o' ho' := by
    obtain rfl := List.mem_singleton.1 ho'
    have hall : Replaceable gapBetween ⟨0, 0⟩
        ⟨.video, [⟨1, 0⟩, ⟨2, 0⟩, ⟨3, 0⟩, ⟨4, 0⟩], false, false, 3, 0, none⟩ [] ⟨1, 0⟩
        (.clip ⟨tenFrom 0, none⟩) (gapBetweenBlocks.drop 1) := replaceable_gapBetween rfl
    rw [hblocks, htrack, ht]
    exact hall.track
  sorted o' ho' := by
    obtain rfl := List.mem_singleton.1 ho'
    rw [hblocks]
    exact sorted_gapBetween
  room := ⟨[], ((((Graph.sound_new.allocate _ _).allocate _ _).allocate _ _).allocate _ _).allocate
    _ _, by
      rw [List.length_singleton]
      decide⟩

/-- The last clip loses its whole length, and nothing is behind it. -/
theorem ripplesTracks_iff_last :
    RipplesTracks gapBetween ⟨9, 0⟩ [lastClip] .trimIn 10 := by
  have hzero : lastClip.length .trimIn 10 = 0 := by
    norm_num [RippleOp.length, lastClip, rippleAmount, inOf, outOf, tenFrom, Behavior.blockCore,
      BlockCore.in_, BlockCore.out]
  refine (ripplesTracks_iff (rippleable_gapBetween rfl rfl rfl) fun o ho => ?_).2 fun o ho => ?_
  · obtain rfl := List.mem_singleton.1 ho
    decide +kernel
  obtain rfl := List.mem_singleton.1 ho
  exact ⟨⟨rfl, .inr fun p hp => absurd hp List.not_mem_nil, fun hne => absurd hzero hne,
    fun hne => absurd hzero hne⟩, hzero.ge,
    fun _ => ⟨fun e he => absurd he (Lib.OrdSet.notMem_empty e),
      fun y hy => absurd hy List.not_mem_nil⟩, fun hne => absurd hzero hne⟩

/-- The gap gets longer, and the clips behind it stay where they are. -/
theorem not_ripplesTracks_middle :
    ¬ ∀ (g : ProjectGraph ℚ Plain) trackList ops mode (movement : Rational),
      Rippleable g ops → RipplesTracks g trackList ops mode movement := by
  intro hall
  have hrippleable : Rippleable gapBetween [middleGap] := rippleable_gapBetween rfl rfl rfl
  have hexact := hall gapBetween ⟨9, 0⟩ [middleGap] .trimOut 5 hrippleable
  have hbehind := (hexact.clear hrippleable middleGap List.mem_cons_self).1.behind
  rcases hbehind with hzero | hgaps
  · have hamount : rippleAmount .trimOut 5 = 5 := if_neg (by simp)
    rw [hamount] at hzero
    norm_num at hzero
  · exact absurd (hgaps (⟨3, 0⟩, .clip ⟨tenFrom 20, none⟩) (by simp [middleGap, gapBetweenBlocks]))
      (by simp [isGapBlock])

end Examples

end Oak.Timeline
