import Oak.Lib.Lane
import Oak.Timeline.Content
import Oak.Timeline.Order

/-!
# What blocks show

Blocks are compared by what they show at each time: content, and its media time. A block that is
trimmed at one of its ends shows there what it showed only when its media in point fits.

* `shown blocks t` is what blocks show at a time, as a lane.
* `trimEnd a p` and `trimStart c p` are the block of `p`, trimmed to end at `a` or to begin at `c`.

## Main results

* `shown_eq_none_iff`: nothing is shown behind a time when all content ends before it.
* `shown_trimEnd_iff`: when a trim at the end of a block leaves what was shown before.
* `shown_resumed_iff`: when a block that begins anew resumes what was shown.
-/

namespace Oak.Timeline

open Oak.Core Oak.Lib Oak.Node

variable {F β : Type*} [ClipSpeed F] {x : NodeId} {b : Behavior F β} {core : BlockCore F}
  {p : NodeId × Behavior F β} {blocks blocks' : List (NodeId × Behavior F β)}
  {a c shift time : Rational}

/-- The content of a track as a lane. -/
def lane (blocks : List (NodeId × Behavior F β)) :
    List (Segment Rational (Behavior F β × Option Rational)) :=
  (content blocks).map fun p =>
    ⟨inOf p.2, outOf p.2, fun time => (p.2.modifyCore unplaced, mediaTime p.2 time)⟩

/-- What blocks show at a time: content, and the media time at which it is shown. -/
def shown (blocks : List (NodeId × Behavior F β)) (time : Rational) :
    Option (Behavior F β × Option Rational) := Segment.cover (lane blocks) time

theorem shown_append (l l' : List (NodeId × Behavior F β)) :
    shown (l ++ l') time = (shown l time).or (shown l' time) := by
  rw [shown, lane, content, List.filter_append, List.map_append, Segment.cover_append]
  rfl

theorem shown_singleton : shown [p] time =
    if isGapBlock p.2 = false ∧ inOf p.2 ≤ time ∧ time < outOf p.2 then
      some (p.2.modifyCore unplaced, mediaTime p.2 time)
    else none := by
  rcases hgap : isGapBlock p.2
  · have hlane : lane [p] = [⟨inOf p.2, outOf p.2,
        fun time => (p.2.modifyCore unplaced, mediaTime p.2 time)⟩] := by
      simp [lane, content, hgap]
    rw [shown, hlane, Segment.cover_cons, Segment.cover_nil]
    simp only [true_and]
    exact if_congr Iff.rfl rfl rfl
  · simp [shown, lane, content, hgap, Segment.cover_nil]

theorem shown_cons (l : List (NodeId × Behavior F β)) :
    shown (p :: l) time = (shown [p] time).or (shown l time) := shown_append [p] l

theorem shown_of_content_eq (h : content blocks' = content blocks) :
    shown blocks' time = shown blocks time := by
  rw [shown, lane, h]
  rfl

theorem shown_of_out_le (h : ∀ p ∈ content blocks, outOf p.2 ≤ time) : shown blocks time = none :=
  Segment.cover_of_le fun s hs => by
    obtain ⟨p, hp, rfl⟩ := List.mem_map.1 hs
    exact h p hp

theorem shown_of_lt (h : ∀ p ∈ content blocks, time < inOf p.2) : shown blocks time = none :=
  Segment.cover_of_lt fun s hs => by
    obtain ⟨p, hp, rfl⟩ := List.mem_map.1 hs
    exact h p hp

theorem shown_of_content_nil (h : content blocks = []) (time : Rational) :
    shown blocks time = none := by
  rw [shown, lane, h]
  rfl

omit [ClipSpeed F] in
theorem mem_content : p ∈ content blocks ↔ p ∈ blocks ∧ isGapBlock p.2 = false := by
  rw [content, List.mem_filter, Bool.not_eq_true']

theorem inOrder_lane (h : Sorted blocks) : Segment.InOrder (lane blocks) := by
  have hcontent : Sorted (content blocks) := h.sublist List.filter_sublist
  refine ⟨fun s hs => ?_, List.pairwise_map.2 hcontent.2⟩
  obtain ⟨p, hp, rfl⟩ := List.mem_map.1 hs
  exact hcontent.1 p hp

theorem shown_of_mem (h : Sorted blocks) (hp : p ∈ content blocks) (hin : inOf p.2 ≤ time)
    (hout : time < outOf p.2) :
    shown blocks time = some (p.2.modifyCore unplaced, mediaTime p.2 time) :=
  Segment.cover_of_mem (inOrder_lane h) (List.mem_map_of_mem hp) ⟨hin, hout⟩

/-- From `c` on nothing is shown exactly when no content ends behind `c`. -/
theorem shown_eq_none_iff (h : Sorted blocks) :
    (∀ time, c ≤ time → shown blocks time = none) ↔ ∀ p ∈ content blocks, outOf p.2 ≤ c := by
  constructor
  · intro hnone p hp
    by_contra hout
    rw [not_le] at hout
    have hpos := h.1 p (mem_content.1 hp).1
    have hshown := shown_of_mem h hp (le_max_left _ _) (max_lt hpos hout)
    rw [hnone _ (le_max_right _ _)] at hshown
    exact absurd hshown (by simp)
  · exact fun hout time htime => shown_of_out_le fun p hp => (hout p hp).trans htime

/-- Nothing is shown between `a` and `c` exactly when all content ends before or begins behind. -/
theorem shown_between_eq_none_iff (h : Sorted blocks) (hac : a < c) :
    (∀ time, a ≤ time → time < c → shown blocks time = none) ↔
      ∀ p ∈ content blocks, outOf p.2 ≤ a ∨ c ≤ inOf p.2 := by
  constructor
  · intro hnone p hp
    by_contra hmeets
    obtain ⟨hout, hin⟩ := not_or.1 hmeets
    rw [not_le] at hout hin
    have hpos := h.1 p (mem_content.1 hp).1
    have hshown := shown_of_mem h hp (le_max_left _ _) (max_lt hpos hout)
    rw [hnone _ (le_max_right _ _) (max_lt hin hac)] at hshown
    exact absurd hshown (by simp)
  · intro hfree time ha hc
    refine Segment.cover_eq_none_iff.2 fun s hs hover => ?_
    obtain ⟨p, hp, rfl⟩ := List.mem_map.1 hs
    rcases hfree p hp with hout | hin
    · exact absurd (hover.2.trans_le hout) (not_lt.2 ha)
    · exact absurd (hc.trans_le hin) (not_lt.2 hover.1)

/-- Blocks that show the same everywhere a while later show nothing. -/
theorem shown_eq_none_of_shift (hshift : 0 < shift)
    (h : ∀ time, c ≤ time → (shown blocks time).isSome = (shown blocks (time + shift)).isSome)
    (htime : c ≤ time) : shown blocks time = none :=
  Segment.eq_none_of_shift hshift h htime

/-! ### The trims -/

/-- A block that is trimmed to end at `a`. -/
def trimEnd (a : Rational) (p : NodeId × Behavior F β) : NodeId × Behavior F β :=
  (p.1, p.2.modifyCore fun core => core.setLengthAndMediaIn (a - inOf p.2))

/-- A block that is trimmed to begin at `c`. -/
def trimStart (c : Rational) (p : NodeId × Behavior F β) : NodeId × Behavior F β :=
  (p.1, p.2.modifyCore fun core => core.setLengthAndMediaOut (outOf p.2 - c))

/-- The core at another place. -/
def replaced (range : TimeRange) (media : Rational) (core : BlockCore F) : BlockCore F :=
  { core with
    range := range
    mediaIn := media }

/-- The node `new` with the block of `p` from `c` on, which begins at `a` with the media at `a`. -/
def resumed (a c : Rational) (new : NodeId) (p : NodeId × Behavior F β) : NodeId × Behavior F β :=
  (new, p.2.modifyCore (replaced ⟨a, outOf p.2 - (c - a)⟩ a))

omit [ClipSpeed F] in
theorem trimEnd_eq (hcore : p.2.blockCore = some core) (ha : inOf p.2 ≤ a) :
    trimEnd a p = (p.1, p.2.modifyCore (replaced ⟨inOf p.2, a⟩ core.mediaIn)) := by
  refine congrArg (Prod.mk p.1) (Behavior.modifyCore_congr hcore ?_)
  rw [inOf_eq hcore] at ha ⊢
  rw [BlockCore.setLengthAndMediaIn_of_le _ (sub_nonneg.2 ha), add_sub_cancel]
  rfl

omit [ClipSpeed F] in
theorem trimStart_eq (hcore : p.2.blockCore = some core) (hc : c ≤ outOf p.2) :
    trimStart c p = (p.1, p.2.modifyCore (replaced ⟨c, outOf p.2⟩ c)) := by
  refine congrArg (Prod.mk p.1) (Behavior.modifyCore_congr hcore ?_)
  rw [outOf_eq hcore] at hc ⊢
  rw [BlockCore.setLengthAndMediaOut_of_le _ (sub_nonneg.2 hc), sub_sub_cancel]
  rfl

section

variable (hp : inOf p.2 < outOf p.2)

include hp

omit [ClipSpeed F] in
theorem inOf_trimEnd (ha : inOf p.2 ≤ a) : inOf (trimEnd a p).2 = inOf p.2 := by
  obtain ⟨core, hcore⟩ := exists_core_of_lt hp
  rw [trimEnd_eq hcore ha, inOf_modifyCore hcore]
  rfl

omit [ClipSpeed F] in
theorem outOf_trimEnd (ha : inOf p.2 ≤ a) : outOf (trimEnd a p).2 = a := by
  obtain ⟨core, hcore⟩ := exists_core_of_lt hp
  rw [trimEnd_eq hcore ha, outOf_modifyCore hcore]
  rfl

omit [ClipSpeed F] in
theorem inOf_trimStart (hc : c ≤ outOf p.2) : inOf (trimStart c p).2 = c := by
  obtain ⟨core, hcore⟩ := exists_core_of_lt hp
  rw [trimStart_eq hcore hc, inOf_modifyCore hcore]
  rfl

omit [ClipSpeed F] in
theorem outOf_trimStart (hc : c ≤ outOf p.2) : outOf (trimStart c p).2 = outOf p.2 := by
  obtain ⟨core, hcore⟩ := exists_core_of_lt hp
  rw [trimStart_eq hcore hc, outOf_modifyCore hcore]
  rfl

omit [ClipSpeed F] in
theorem inOf_resumed (new : NodeId) : inOf (resumed a c new p).2 = a := by
  obtain ⟨core, hcore⟩ := exists_core_of_lt hp
  rw [resumed, inOf_modifyCore hcore]
  rfl

omit [ClipSpeed F] in
theorem outOf_resumed (new : NodeId) : outOf (resumed a c new p).2 = outOf p.2 - (c - a) := by
  obtain ⟨core, hcore⟩ := exists_core_of_lt hp
  rw [resumed, outOf_modifyCore hcore]
  rfl

end

theorem shown_replaced (hcore : b.blockCore = some core) (range : TimeRange) (media : Rational) :
    shown [(x, b.modifyCore (replaced range media))] time =
      if isGapBlock b = false ∧ range.in_ ≤ time ∧ time < range.out then
        some (b.modifyCore unplaced, mediaTime (b.modifyCore (replaced range media)) time)
      else none := by
  have hunplaced : (b.modifyCore (replaced range media)).modifyCore unplaced =
      b.modifyCore unplaced := by
    rw [Behavior.modifyCore_modifyCore]
    rfl
  rw [shown_singleton, isGapBlock_modifyCore, inOf_modifyCore hcore, outOf_modifyCore hcore,
    hunplaced]
  rfl

variable {clip : ClipBlockBehavior F}

theorem mediaTime_replaced (range : TimeRange) (media : Rational) :
    mediaTime ((.clip clip : Behavior F β).modifyCore (replaced range media)) time =
      some ((if clip.core.reversed then
          range.out - range.in_ - clip.core.elapsed (time - range.in_)
        else clip.core.elapsed (time - range.in_)) + media) := rfl

theorem mediaTime_modifyCore_of_ne (hclip : ∀ clip, b ≠ .clip clip) (f : BlockCore F → BlockCore F)
    (time' : Rational) : mediaTime (b.modifyCore f) time = mediaTime b time' := by
  cases b with
  | clip clip => exact absurd rfl (hclip clip)
  | _ => rfl

/-- A block that can be trimmed to end at `a`: it reaches `a`, and is no reversed clip that is
cut there. -/
def Trimmable (a : Rational) (p : NodeId × Behavior F β) : Prop :=
  isGapBlock p.2 = false → a ≤ outOf p.2 ∧
    ∀ clip, p.2 = .clip clip → clip.core.reversed = true → outOf p.2 ≤ a

/-- A block that is trimmed at its end shows until then what it showed exactly when it can be
trimmed. -/
theorem shown_trimEnd_iff (hp : inOf p.2 < outOf p.2) (ha : inOf p.2 < a) :
    (∀ time, time < a → shown [trimEnd a p] time = shown [p] time) ↔ Trimmable a p := by
  obtain ⟨core, hcore⟩ := exists_core_of_lt hp
  rw [trimEnd_eq hcore ha.le]
  simp only [shown_replaced hcore, shown_singleton]
  constructor
  · intro h hgap
    have hreach : a ≤ outOf p.2 := by
      by_contra hout
      rw [not_le] at hout
      have hat := h (outOf p.2) hout
      rw [if_pos ⟨hgap, hp.le, hout⟩, if_neg fun h => lt_irrefl _ h.2.2] at hat
      exact absurd hat (by simp)
    refine ⟨hreach, fun clip hclip hreversed => ?_⟩
    have hat := h (inOf p.2) ha
    rw [if_pos ⟨hgap, le_rfl, ha⟩, if_pos ⟨hgap, le_rfl, hp⟩] at hat
    have hmedia := congrArg Prod.snd (Option.some.inj hat)
    obtain rfl : clip.core = core := Option.some.inj (by rw [← hcore, hclip]; rfl)
    have hin : inOf p.2 = clip.core.in_ := inOf_eq hcore
    have hout : outOf p.2 = clip.core.out := outOf_eq hcore
    rw [hclip, mediaTime_replaced] at hmedia
    have hsame := Option.some.inj hmedia
    rw [ClipBlockBehavior.mediaAt, if_pos hreversed, if_pos hreversed, ← hclip, hin,
      BlockCore.length_eq] at hsame
    rw [hout]
    linarith
  · intro h time htime
    by_cases hgap : isGapBlock p.2 = false
    · obtain ⟨hreach, hforward⟩ := h hgap
      by_cases hin : inOf p.2 ≤ time
      · rw [if_pos ⟨hgap, hin, htime⟩, if_pos ⟨hgap, hin, htime.trans_le hreach⟩]
        refine congrArg (fun m => some (p.2.modifyCore unplaced, m)) ?_
        by_cases hclip : ∃ clip, p.2 = .clip clip
        · obtain ⟨clip, hclip⟩ := hclip
          obtain rfl : clip.core = core := Option.some.inj (by rw [← hcore, hclip]; rfl)
          have hend : clip.core.reversed = true → outOf p.2 = a := fun hreversed =>
            le_antisymm (hforward clip hclip hreversed) hreach
          rw [outOf_eq hcore] at hend
          rw [inOf_eq hcore, hclip, mediaTime_replaced]
          refine congrArg some ?_
          rw [ClipBlockBehavior.mediaAt, BlockCore.length_eq]
          split_ifs with hreversed
          · rw [hend hreversed]
          · rfl
        · exact mediaTime_modifyCore_of_ne (fun clip h => hclip ⟨clip, h⟩) _ _
      · rw [if_neg fun h => hin h.2.1, if_neg fun h => hin h.2.1]
    · rw [if_neg fun h => hgap h.1, if_neg fun h => hgap h.1]

/-- A clip that begins at `a` with the media at `a`, and lies earlier by what it is to skip, so that
it resumes what was at `c`. -/
theorem mediaTime_resumed_iff : mediaTime ((.clip clip :
      Behavior F β).modifyCore (replaced ⟨a, clip.core.out - (c - a)⟩ a)) (time - (c - a)) =
        mediaTime (.clip clip : Behavior F β) time ↔
      if clip.core.reversed then clip.core.out - c - clip.core.elapsed (time - c) + a =
        clip.core.length - clip.core.elapsed (time - clip.core.in_) + clip.core.mediaIn
      else clip.core.elapsed (time - c) + a =
        clip.core.elapsed (time - clip.core.in_) + clip.core.mediaIn := by
  have hstart : time - (c - a) - a = time - c := by ring
  have hlength : clip.core.out - (c - a) - a = clip.core.out - c := by ring
  rw [mediaTime_replaced, hstart, hlength]
  show some _ = some _ ↔ _
  rw [Option.some.injEq, ClipBlockBehavior.mediaAt]
  split_ifs <;> rfl

/-- A block that begins at `a` with the media at `a` shows from there on what it showed from `c` on
exactly when it plays so. -/
theorem shown_resumed_iff (hp : inOf p.2 < outOf p.2) (hin : inOf p.2 < c) (new : NodeId) :
    (∀ time, a ≤ time → shown [resumed a c new p] time = shown [p] (time + (c - a))) ↔
      ∀ clip, p.2 = .clip clip → clip.core.PlaysFrom c a := by
  obtain ⟨core, hcore⟩ := exists_core_of_lt hp
  simp only [resumed, shown_replaced hcore, shown_singleton]
  constructor
  · rintro h clip hclip time htime hend
    obtain rfl : clip.core = core := Option.some.inj (by rw [← hcore, hclip]; rfl)
    have hgap : isGapBlock p.2 = false := by rw [hclip]; rfl
    have hat := h (time - (c - a)) (by linarith)
    rw [outOf_eq hcore, inOf_eq hcore] at *
    rw [sub_add_cancel, if_pos ⟨hgap, by linarith, by linarith⟩,
      if_pos ⟨hgap, by linarith, hend⟩] at hat
    have hmedia : mediaTime (p.2.modifyCore (replaced ⟨a, clip.core.out - (c - a)⟩ a))
        (time - (c - a)) = mediaTime p.2 time := congrArg Prod.snd (Option.some.inj hat)
    rw [hclip] at hmedia
    exact mediaTime_resumed_iff.1 hmedia
  · intro h time htime
    by_cases hover : isGapBlock p.2 = false ∧ time + (c - a) < outOf p.2
    · obtain ⟨hgap, hend⟩ := hover
      rw [if_pos ⟨hgap, htime, by linarith⟩, if_pos ⟨hgap, by linarith, hend⟩]
      refine congrArg (fun m => some (p.2.modifyCore unplaced, m)) ?_
      by_cases hclip : ∃ clip, p.2 = .clip clip
      · obtain ⟨clip, hclip⟩ := hclip
        obtain rfl : clip.core = core := Option.some.inj (by rw [← hcore, hclip]; rfl)
        rw [outOf_eq hcore] at hend ⊢
        have hplays := h clip hclip (time + (c - a)) (by linarith) hend
        rw [hclip, ← mediaTime_resumed_iff.2 hplays, add_sub_cancel_right]
      · exact mediaTime_modifyCore_of_ne (fun clip h => hclip ⟨clip, h⟩) _ _
    · rw [if_neg fun h => hover ⟨h.1, by linarith [h.2.2]⟩, if_neg fun h => hover ⟨h.1, h.2.2⟩]

/-- A block that is trimmed at its beginning shows from there on what it showed exactly when it
plays so. -/
theorem shown_trimStart_iff (hp : inOf p.2 < outOf p.2) (hin : inOf p.2 < c)
    (hout : c ≤ outOf p.2) : (∀ time, c ≤ time → shown [trimStart c p] time = shown [p] time) ↔
      ∀ clip, p.2 = .clip clip → clip.core.PlaysFrom c c := by
  obtain ⟨core, hcore⟩ := exists_core_of_lt hp
  have hresumed := shown_resumed_iff (a := c) hp hin p.1
  simp only [resumed, sub_self, sub_zero, add_zero] at hresumed
  rw [trimStart_eq hcore hout]
  exact hresumed

/-- A block that is trimmed at its beginning still shows something from there on. -/
theorem isSome_shown_trimStart (hp : inOf p.2 < outOf p.2) (hin : inOf p.2 ≤ c)
    (hout : c ≤ outOf p.2) (htime : c ≤ time) :
    (shown [trimStart c p] time).isSome = (shown [p] time).isSome := by
  obtain ⟨core, hcore⟩ := exists_core_of_lt hp
  rw [trimStart_eq hcore hout, shown_replaced hcore, shown_singleton]
  simp only [htime, hin.trans htime, true_and]
  split_ifs <;> rfl

variable {pre post : List (NodeId × Behavior F β)}

/-- What is shown before a time, is shown by the blocks that begin before it. -/
theorem shown_append_of_lt (h : ∀ q ∈ post, a ≤ inOf q.2) (htime : time < a) :
    shown (pre ++ post) time = shown pre time := by
  rw [shown_append, shown_of_lt fun q hq => htime.trans_le (h q (mem_content.1 hq).1),
    Option.or_none]

/-- What is shown from a time on, is shown by the blocks that end behind it. -/
theorem shown_append_of_le (h : ∀ p ∈ pre, outOf p.2 ≤ a) (htime : a ≤ time) :
    shown (pre ++ post) time = shown post time := by
  rw [shown_append, shown_of_out_le fun p hp => (h p (mem_content.1 hp).1).trans htime,
    Option.none_or]

theorem shown_concat_trimEnd_iff {pre : List (NodeId × Behavior F β)} (h : Sorted (pre ++ [p]))
    (ha : inOf p.2 < a) : (∀ time, time < a → shown (pre ++ [trimEnd a p]) time =
      shown (pre ++ [p]) time) ↔ Trimmable a p := by
  obtain ⟨-, hlast, hbehind⟩ := sorted_append.1 h
  have hp := hlast.1 p List.mem_cons_self
  have hpre : ∀ q ∈ pre, outOf q.2 ≤ inOf p.2 := fun q hq => hbehind q hq p List.mem_cons_self
  rw [← shown_trimEnd_iff hp ha]
  refine forall_congr' fun time => imp_congr_right fun _ => ?_
  by_cases hin : inOf p.2 ≤ time
  · rw [shown_append_of_le hpre hin, shown_append_of_le hpre hin]
  · -- before the block both halves show nothing
    rw [not_le] at hin
    have hnone : shown [p] time = none := shown_of_lt fun q hq => by
      obtain rfl := List.mem_singleton.1 (mem_content.1 hq).1
      exact hin
    have hnone' : shown [trimEnd a p] time = none := shown_of_lt fun q hq => by
      obtain rfl := List.mem_singleton.1 (mem_content.1 hq).1
      rw [inOf_trimEnd hp ha.le]
      exact hin
    rw [shown_append, shown_append, hnone, hnone']
    simp only [Option.or_none]

end Oak.Timeline
