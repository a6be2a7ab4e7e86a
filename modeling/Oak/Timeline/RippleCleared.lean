import Oak.Timeline.RippleArea

/-!
# When an area is cleared

`TrackRippleRemoveAreaCommand` removes an area of a track, to close it (what lies behind it is to
be shifted to its start) or to clear it (what lies behind it is to stay). The command is the same:
it moves nothing, except for the second half of a block that it splices.

* `AreaRemoved blocks blocks' range shift`: the blocks show what they showed, without the range, and
  what was shown behind it is earlier by `shift`.
* `Clearable` and `Closable`: how blocks have to lie for an area to be cleared or to be closed.

## Main results

* `Outcome.cleared_iff`, `Outcome.closed_iff`: what the outcome shows, for every way in which the
  blocks lie around the area.
* `removesArea_iff`: exactly when an area is cleared, and exactly when it is closed.
-/

namespace Oak.Timeline

open Oak.Core Oak.Node Oak.Undo TrackRippleRemoveAreaCommand

variable {F β : Type*} [ClipSpeed F] {g : ProjectGraph F β} {track : NodeId}
  {t : TrackBehavior F} {p : NodeId × Behavior F β}
  {blocks blocks' pre post head mid cut rest : List (NodeId × Behavior F β)} {a c : Rational}

/-! ### What is to be left -/

/-- The blocks `blocks'` show what `blocks` showed, without the range, and what was shown behind
the range is earlier by `shift`. -/
def AreaRemoved (blocks blocks' : List (NodeId × Behavior F β)) (range : TimeRange)
    (shift : Rational) : Prop :=
  ∀ time, shown blocks' time =
    if time < range.in_ then shown blocks time
    else if time < range.out - shift then none
    else shown blocks (time + shift)

/-- After an area of a track was removed, its blocks are still in order. -/
def RemovesArea (g' : ProjectGraph F β) (track : NodeId) (t : TrackBehavior F)
    (blocks : List (NodeId × Behavior F β)) (range : TimeRange) (shift : Rational) : Prop :=
  ∃ blocks', Track g' track { t with blocks := blocks'.map Prod.fst } blocks' ∧ Sorted blocks' ∧
    AreaRemoved blocks blocks' range shift

/-- The blocks before the area can stay as they are: a block begins at the area or before it, or
no content begins before its end; content that begins before the area reaches it, or another block
begins behind it; and no reversed clip is cut. -/
structure Reached (blocks : List (NodeId × Behavior F β)) (a c : Rational) : Prop where
  begins : ∀ p ∈ content blocks, inOf p.2 < c → ∃ q ∈ blocks, inOf q.2 ≤ a
  touches : ∀ p ∈ content blocks, inOf p.2 < a → outOf p.2 < a →
    ∃ q ∈ blocks, inOf p.2 < inOf q.2 ∧ inOf q.2 ≤ a
  forward : ∀ x clip, (x, .clip clip) ∈ blocks → clip.core.reversed = true → clip.core.in_ < a →
    clip.core.out ≤ a

/-- The area can be cleared: no content spans it, and a clip that begins in it plays from its end
on what it plays when its media begin there. -/
structure Clearable (blocks : List (NodeId × Behavior F β)) (a c : Rational) : Prop where
  reached : Reached blocks a c
  free : ∀ p ∈ content blocks, inOf p.2 < a → outOf p.2 ≤ c
  resumes : ∀ x clip, (x, .clip clip) ∈ blocks → a ≤ clip.core.in_ → clip.core.in_ < c →
    c < clip.core.out → clip.core.PlaysFrom c c

/-- The area can be closed: no content ends behind it but a block that spans it and can be
copied, and a clip that spans it plays from its end on what it plays when its media begin with the
start of the area. -/
structure Closable (g : ProjectGraph F β) [NodeBehavior F β]
    (blocks : List (NodeId × Behavior F β)) (a c : Rational) : Prop where
  reached : Reached blocks a c
  last : ∀ p ∈ content blocks, c < outOf p.2 → inOf p.2 < a ∧ g.Copyable p.1
  resumes : ∀ x clip, (x, .clip clip) ∈ blocks → clip.core.in_ < a → c < clip.core.out →
    clip.core.PlaysFrom c a

/-- The times of the removal of the area from `a` to `c`, its undo and its next redo. -/
def areaTimes (blocks : List (NodeId × Behavior F β)) (a c : Rational) : List Rational :=
  let d := c - a
  [a, c, d, a - d, d + d] ++ blocks.flatMap fun p =>
    [inOf p.2, outOf p.2, outOf p.2 - inOf p.2, outOf p.2 - inOf p.2 - d, outOf p.2 - a,
      a - inOf p.2, c - inOf p.2, outOf p.2 - c, outOf p.2 - d] ++
      -- the second half of a splice, trimmed once more
      [outOf p.2 - a - (d + d), outOf p.2 - d - (d + d)]

variable [NodeBehavior F β] (order : List NodeId → List NodeId)
  {carried : List (NodeId × NodeId)} {range : TimeRange} (allow : Bool)

/-! ### When the blocks before the area can stay -/

section Conditions

omit [ClipSpeed F] [NodeBehavior F β]

/-- The blocks of an area and those behind it begin with it or later. -/
theorem Area.le_in (harea : Area head mid cut rest a c) (hac : a < c) :
    ∀ q ∈ mid ++ (cut ++ rest), a ≤ inOf q.2 := by
  refine List.forall_mem_append.2 ⟨harea.mid_in, List.forall_mem_append.2 ⟨harea.cut_in, ?_⟩⟩
  exact fun q hq => hac.le.trans (harea.rest_in q hq)

theorem lt_in_of_not_first (h : Sorted post) (hle : ∀ q ∈ post, a ≤ inOf q.2)
    (hfirst : ¬ FirstAt a post) : ∀ q ∈ post, a < inOf q.2 := by
  rcases post with _ | ⟨q, post⟩
  · simp
  · obtain ⟨hq, -, hbehind⟩ := sorted_cons.1 h
    have hlt : a < inOf q.2 :=
      lt_of_le_of_ne (hle q List.mem_cons_self) fun heq => hfirst ⟨q, rfl, heq.symm⟩
    exact List.forall_mem_cons.2 ⟨hlt, fun r hr => (hlt.trans hq).trans_le (hbehind r hr)⟩

theorem out_le_of_first (h : Sorted (head ++ post)) (hfirst : FirstAt a post) :
    ∀ p ∈ head, outOf p.2 ≤ a := by
  obtain ⟨q, hq, hin⟩ := hfirst
  exact fun p hp => hin ▸ (sorted_append.1 h).2.2 p hp q (List.mem_of_mem_head? hq)

theorem reached_iff_of_lt (hlt : ∀ p ∈ blocks, a < inOf p.2) :
    Reached blocks a c ↔ ∀ p ∈ content blocks, c ≤ inOf p.2 := by
  constructor
  · intro h p hp
    by_contra hin
    obtain ⟨q, hq, hle⟩ := h.begins p hp (not_le.1 hin)
    exact absurd hle (not_le.2 (hlt q hq))
  · intro h
    have hlate (x : NodeId) (clip : ClipBlockBehavior F) (hmem : (x, .clip clip) ∈ blocks) :
        a < clip.core.in_ := hlt (x, .clip clip) hmem
    exact ⟨fun p hp hin => absurd hin (not_lt.2 (h p hp)),
      fun p hp hin => absurd hin (hlt p (mem_content.1 hp).1).not_gt,
      fun x clip hmem _ hin => absurd hin (hlate x clip hmem).not_gt⟩

theorem reached_of_first (h : Sorted (head ++ post)) (hpost : ∀ p ∈ post, a ≤ inOf p.2)
    (hfirst : FirstAt a post) : Reached (head ++ post) a c := by
  have hbefore : ∀ p ∈ head ++ post, inOf p.2 < a → outOf p.2 ≤ a := by
    intro p hp hlt
    rcases List.mem_append.1 hp with hp | hp
    · exact out_le_of_first h hfirst p hp
    · exact absurd hlt (not_lt.2 (hpost p hp))
  obtain ⟨q, hq, hin⟩ := hfirst
  have hmem : q ∈ head ++ post := List.mem_append_right _ (List.mem_of_mem_head? hq)
  exact ⟨fun _ _ _ => ⟨q, hmem, hin.le⟩, fun p _ hlt _ => ⟨q, hmem, hlt.trans_eq hin.symm, hin.le⟩,
    fun x clip hclip _ hlt => hbefore _ hclip hlt⟩

/-- A block begins before the area, and all that follow begin behind its start. -/
theorem reached_iff_of_last (h : Sorted (pre ++ p :: post)) (hin : inOf p.2 < a)
    (hpost : ∀ q ∈ post, a < inOf q.2) : Reached (pre ++ p :: post) a c ↔ Trimmable a p := by
  obtain ⟨hpre, -, hbehind⟩ := sorted_append.1 h
  have hmem : p ∈ pre ++ p :: post := by simp
  have hbefore : ∀ q ∈ pre, inOf q.2 < inOf p.2 ∧ outOf q.2 ≤ inOf p.2 := by
    intro q hq
    have hle := hbehind q hq p List.mem_cons_self
    exact ⟨(hpre.1 q hq).trans_le hle, hle⟩
  have hcases : ∀ q ∈ pre ++ p :: post, q ∈ pre ∨ q = p ∨ q ∈ post := by
    intro q hq
    rwa [List.mem_append, List.mem_cons] at hq
  constructor
  · intro hreached hgap
    refine ⟨?_, fun clip hclip hreversed => ?_⟩
    · by_contra hout
      obtain ⟨q, hq, hlt, hle⟩ :=
        hreached.touches p (mem_content.2 ⟨hmem, hgap⟩) hin (not_le.1 hout)
      rcases hcases q hq with hq | rfl | hq
      · exact absurd hlt (hbefore q hq).1.not_gt
      · exact lt_irrefl _ hlt
      · exact absurd hle (not_le.2 (hpost q hq))
    · obtain ⟨x, b⟩ := p
      obtain rfl : b = .clip clip := hclip
      exact hreached.forward x clip hmem hreversed hin
  · intro htrim
    refine ⟨fun _ _ _ => ⟨p, hmem, hin.le⟩, fun q hq hlt hout => ?_,
      fun x clip hclip hreversed hlt => ?_⟩
    · obtain ⟨hq, hgap⟩ := mem_content.1 hq
      rcases hcases q hq with hq | rfl | hq
      · exact ⟨p, hmem, (hbefore q hq).1, hin.le⟩
      · exact absurd hout (not_lt.2 (htrim hgap).1)
      · exact absurd hlt (hpost q hq).not_gt
    · rcases hcases _ hclip with hq | rfl | hq
      · exact (hbefore _ hq).2.trans hin.le
      · exact (htrim rfl).2 clip rfl hreversed
      · exact absurd hlt (not_lt.2 (hpost _ hq).le)

end Conditions

/-! ### When the area can be cleared or closed -/

/-- A clip that begins at `c` with the media at `media` resumes what the block of `p` plays. -/
def Resumable (c media : Rational) (p : NodeId × Behavior F β) : Prop :=
  ∀ clip, p.2 = .clip clip → clip.core.PlaysFrom c media

omit [NodeBehavior F β] in
theorem clearable_iff_of_lt (hlt : ∀ p ∈ blocks, a < inOf p.2) :
    Clearable blocks a c ↔ ∀ p ∈ content blocks, c ≤ inOf p.2 := by
  rw [← reached_iff_of_lt hlt]
  refine ⟨fun h => h.reached, fun h => ⟨h, fun p hp hin => ?_, fun x clip hclip _ hin _ => ?_⟩⟩
  · exact absurd hin (hlt p (mem_content.1 hp).1).not_gt
  · have hlate := (reached_iff_of_lt hlt).1 h _ (mem_content.2 ⟨hclip, rfl⟩)
    exact absurd hin (not_lt.2 hlate)

theorem closable_iff_of_lt (h : Sorted blocks) (hlt : ∀ p ∈ blocks, a < inOf p.2) :
    Closable g blocks a c ↔ content blocks = [] := by
  constructor
  · refine fun hclosable => List.eq_nil_iff_forall_not_mem.2 fun p hp => ?_
    have hmem := (mem_content.1 hp).1
    have hin := (reached_iff_of_lt hlt).1 hclosable.reached p hp
    exact absurd (hclosable.last p hp (hin.trans_lt (h.1 p hmem))).1 (hlt p hmem).not_gt
  · intro hnil
    refine ⟨(reached_iff_of_lt hlt).2 fun p hp => ?_, fun p hp => ?_, fun x clip hclip hin => ?_⟩
    · rw [hnil] at hp
      exact absurd hp List.not_mem_nil
    · rw [hnil] at hp
      exact absurd hp List.not_mem_nil
    · exact absurd hin (hlt _ hclip).not_gt

omit [ClipSpeed F] [NodeBehavior F β] in
theorem mem_area : p ∈ head ++ (mid ++ (cut ++ rest)) ↔
    p ∈ head ∨ p ∈ mid ∨ p ∈ cut ∨ p ∈ rest := by
  rw [List.mem_append, List.mem_append, List.mem_append]

omit [NodeBehavior F β] in
theorem clearable_iff_of_area (harea : Area head mid cut rest a c) (hac : a < c) :
    Clearable (head ++ (mid ++ (cut ++ rest))) a c ↔
      Reached (head ++ (mid ++ (cut ++ rest))) a c ∧ ∀ q ∈ cut, Resumable c c q := by
  constructor
  · intro h
    refine ⟨h.reached, fun q hq clip hclip => ?_⟩
    obtain ⟨x, b⟩ := q
    obtain rfl : b = .clip clip := hclip
    obtain ⟨hin, hout⟩ := harea.cut_out _ hq
    exact h.resumes x clip (by simp [hq]) (harea.cut_in _ hq) hin hout
  · rintro ⟨hreached, hresumable⟩
    refine ⟨hreached, fun p hp hin => ?_, fun x clip hclip ha hc hout => ?_⟩
    · rcases mem_area.1 (mem_content.1 hp).1 with hp | hp | hp | hp
      · exact harea.head_out p hp
      · exact absurd hin (not_lt.2 (harea.mid_in p hp))
      · exact absurd hin (not_lt.2 (harea.cut_in p hp))
      · exact absurd hin (not_lt.2 (hac.le.trans (harea.rest_in p hp)))
    · rcases mem_area.1 hclip with hp | hp | hp | hp
      · exact absurd ha (not_le.2 (harea.head_in _ hp))
      · exact absurd hout (not_lt.2 (harea.mid_out _ hp).2)
      · exact hresumable _ hp clip rfl
      · exact absurd hc (not_lt.2 (harea.rest_in _ hp))

theorem closable_iff_of_area (h : Sorted (head ++ (mid ++ (cut ++ rest))))
    (harea : Area head mid cut rest a c) (hac : a < c) :
    Closable g (head ++ (mid ++ (cut ++ rest))) a c ↔
      Reached (head ++ (mid ++ (cut ++ rest))) a c ∧ content (cut ++ rest) = [] := by
  have hlate : ∀ p ∈ cut ++ rest, a ≤ inOf p.2 ∧ c < outOf p.2 := by
    intro p hp
    have hpos := h.1 p (by simp only [List.mem_append] at hp ⊢; tauto)
    rcases List.mem_append.1 hp with hp | hp
    · exact ⟨harea.cut_in p hp, (harea.cut_out p hp).2⟩
    · exact ⟨hac.le.trans (harea.rest_in p hp), (harea.rest_in p hp).trans_lt hpos⟩
  have hearly : ∀ p ∈ head ++ (mid ++ (cut ++ rest)), c < outOf p.2 → p ∈ cut ++ rest := by
    intro p hp hout
    rcases mem_area.1 hp with hp | hp | hp | hp
    · exact absurd hout (not_lt.2 (harea.head_out p hp))
    · exact absurd hout (not_lt.2 (harea.mid_out p hp).2)
    · exact List.mem_append_left _ hp
    · exact List.mem_append_right _ hp
  constructor
  · intro hclosable
    refine ⟨hclosable.reached, List.eq_nil_iff_forall_not_mem.2 fun p hp => ?_⟩
    obtain ⟨hp, hgap⟩ := mem_content.1 hp
    have hmem : p ∈ head ++ (mid ++ (cut ++ rest)) :=
      List.mem_append_right _ (List.mem_append_right _ hp)
    have hin := (hclosable.last p (mem_content.2 ⟨hmem, hgap⟩) (hlate p hp).2).1
    exact absurd hin (not_lt.2 (hlate p hp).1)
  · rintro ⟨hreached, hnil⟩
    have hnone : ∀ p ∈ head ++ (mid ++ (cut ++ rest)), isGapBlock p.2 = false →
        ¬ c < outOf p.2 := by
      intro p hp hgap hout
      have hcontent := mem_content.2 ⟨hearly p hp hout, hgap⟩
      rw [hnil] at hcontent
      exact absurd hcontent List.not_mem_nil
    exact ⟨hreached, fun p hp hout =>
        absurd hout (hnone p (mem_content.1 hp).1 (mem_content.1 hp).2),
      fun x clip hclip _ hout => absurd hout (hnone _ hclip rfl)⟩

omit [NodeBehavior F β] in
theorem clearable_iff_of_span (h : Sorted (pre ++ p :: post)) (hin : inOf p.2 < a)
    (hout : c < outOf p.2) (hac : a < c) :
    Clearable (pre ++ p :: post) a c ↔ isGapBlock p.2 = true := by
  obtain ⟨hpre, hpost⟩ := around_span h hin hout
  constructor
  · intro hclearable
    by_contra hgap
    have hcontent : p ∈ content (pre ++ p :: post) :=
      mem_content.2 ⟨by simp, Bool.eq_false_iff.2 hgap⟩
    exact absurd (hclearable.free p hcontent hin) (not_le.2 hout)
  · intro hgap
    have hreached : Reached (pre ++ p :: post) a c :=
      (reached_iff_of_last h hin fun q hq => hac.trans (hpost q hq).1).2 fun hfalse =>
        absurd (hgap.symm.trans hfalse) (by decide)
    refine ⟨hreached, fun q hq hlt => ?_, fun x clip hclip ha hc _ => ?_⟩
    · obtain ⟨hq, hcontent⟩ := mem_content.1 hq
      rcases List.mem_append.1 hq with hq | hq
      · exact (hpre q hq).2.le.trans hac.le
      rcases List.mem_cons.1 hq with rfl | hq
      · exact absurd (hgap.symm.trans hcontent) (by decide)
      · exact absurd hlt (hac.trans (hpost q hq).1).not_gt
    · rcases List.mem_append.1 hclip with hq | hq
      · exact absurd ha (not_le.2 ((hpre _ hq).1.trans (hpre _ hq).2))
      rcases List.mem_cons.1 hq with rfl | hq
      · exact absurd hgap Bool.false_ne_true
      · exact absurd hc (hpost _ hq).1.not_gt

theorem closable_iff_of_span (h : Sorted (pre ++ p :: post)) (hin : inOf p.2 < a)
    (hout : c < outOf p.2) (hac : a < c) :
    Closable g (pre ++ p :: post) a c ↔
      (isGapBlock p.2 = false → g.Copyable p.1 ∧ Trimmable a p ∧ Resumable c a p) ∧
        content post = [] := by
  obtain ⟨hpre, hpost⟩ := around_span h hin hout
  have hreached := reached_iff_of_last (c := c) h hin fun q hq => hac.trans (hpost q hq).1
  have hmem : p ∈ pre ++ p :: post := by simp
  constructor
  · intro hclosable
    refine ⟨fun hgap => ⟨?_, hreached.1 hclosable.reached, fun clip hclip => ?_⟩,
      List.eq_nil_iff_forall_not_mem.2 fun q hq => ?_⟩
    · exact (hclosable.last p (mem_content.2 ⟨hmem, hgap⟩) hout).2
    · obtain ⟨x, b⟩ := p
      obtain rfl : b = .clip clip := hclip
      exact hclosable.resumes x clip hmem hin hout
    · obtain ⟨hq, hgap⟩ := mem_content.1 hq
      have hcontent : q ∈ content (pre ++ p :: post) :=
        mem_content.2 ⟨List.mem_append_right _ (List.mem_cons_of_mem _ hq), hgap⟩
      obtain ⟨hlate, hpos⟩ := hpost q hq
      exact absurd (hclosable.last q hcontent (hlate.trans hpos)).1 (hac.trans hlate).not_gt
  · rintro ⟨hspan, hnil⟩
    have honly : ∀ q ∈ content (pre ++ p :: post), c < outOf q.2 → q = p := by
      intro q hq hlate
      obtain ⟨hq, hgap⟩ := mem_content.1 hq
      rcases List.mem_append.1 hq with hq | hq
      · exact absurd hlate ((hpre q hq).2.trans hac).not_gt
      rcases List.mem_cons.1 hq with hq | hq
      · exact hq
      · have hcontent := mem_content.2 ⟨hq, hgap⟩
        rw [hnil] at hcontent
        exact absurd hcontent List.not_mem_nil
    refine ⟨hreached.2 fun hgap => (hspan hgap).2.1 hgap, fun q hq hlate => ?_,
      fun x clip hclip _ hlate => ?_⟩
    · obtain rfl := honly q hq hlate
      exact ⟨hin, (hspan (mem_content.1 hq).2).1⟩
    · obtain rfl := honly _ (mem_content.2 ⟨hclip, rfl⟩) hlate
      exact (hspan rfl).2.2 clip rfl

/-! ### What the blocks show -/

omit [NodeBehavior F β] in
/-- An area is cleared when nothing is left of it and nothing else changes. -/
theorem areaRemoved_zero_iff (hac : a < c) : AreaRemoved blocks blocks' ⟨a, c⟩ 0 ↔
    (∀ time, time < a → shown blocks' time = shown blocks time) ∧
      (∀ time, a ≤ time → time < c → shown blocks' time = none) ∧
        ∀ time, c ≤ time → shown blocks' time = shown blocks time := by
  constructor
  · intro h
    refine ⟨fun time htime => ?_, fun time ha hc => ?_, fun time hc => ?_⟩
    · rw [h time, if_pos htime]
    · rw [h time, if_neg (not_lt.2 ha), sub_zero, if_pos hc]
    · rw [h time, if_neg (not_lt.2 (hac.le.trans hc)), sub_zero, if_neg (not_lt.2 hc), add_zero]
  · rintro ⟨hbefore, hbetween, hbehind⟩ time
    rw [sub_zero, add_zero]
    split_ifs with ha hc
    · exact hbefore time ha
    · exact hbetween time (not_lt.1 ha) hc
    · exact hbehind time (not_lt.1 hc)

omit [NodeBehavior F β] in
/-- An area is closed when what is behind it begins with it. -/
theorem areaRemoved_length_iff : AreaRemoved blocks blocks' ⟨a, c⟩ (c - a) ↔
    (∀ time, time < a → shown blocks' time = shown blocks time) ∧
      ∀ time, a ≤ time → shown blocks' time = shown blocks (time + (c - a)) := by
  simp only [AreaRemoved, sub_sub_cancel]
  constructor
  · intro h
    refine ⟨fun time htime => ?_, fun time htime => ?_⟩
    · rw [h time, if_pos htime]
    · rw [h time, if_neg (not_lt.2 htime), if_neg (not_lt.2 htime)]
  · rintro ⟨hbefore, hbehind⟩ time
    split_ifs with htime
    · exact hbefore time htime
    · exact hbehind time (not_lt.1 htime)

omit [NodeBehavior F β] in
theorem areaRemoved_zero_iff_of_same (h : Sorted blocks) (hac : a < c)
    (hsame : ∀ time, shown blocks' time = shown blocks time) :
    AreaRemoved blocks blocks' ⟨a, c⟩ 0 ↔
      ∀ p ∈ content blocks, outOf p.2 ≤ a ∨ c ≤ inOf p.2 := by
  rw [areaRemoved_zero_iff hac, ← shown_between_eq_none_iff h hac]
  simp only [hsame, implies_true, true_and, and_true]

omit [NodeBehavior F β] in
theorem areaRemoved_length_iff_of_same (h : Sorted blocks) (hac : a < c)
    (hsame : ∀ time, shown blocks' time = shown blocks time) :
    AreaRemoved blocks blocks' ⟨a, c⟩ (c - a) ↔ ∀ p ∈ content blocks, outOf p.2 ≤ a := by
  rw [areaRemoved_length_iff, ← shown_eq_none_iff h]
  simp only [hsame, implies_true, true_and]
  constructor
  · intro hshift time htime
    exact shown_eq_none_of_shift (sub_pos.2 hac) (fun time htime => by rw [hshift time htime]) htime
  · intro hnone time htime
    rw [hnone time htime, hnone _ (by linarith)]

/-! ### An area that no block spans -/

variable {front : List (NodeId × Behavior F β)}

section Behind

omit [NodeBehavior F β]

theorem shown_behind_iff (h : Sorted (mid ++ (cut ++ rest))) (harea : Area head mid cut rest a c) :
    (∀ time, c ≤ time → shown (cut.map (trimStart c) ++ rest) time = shown (cut ++ rest) time) ↔
      ∀ q ∈ cut, Resumable c c q := by
  obtain ⟨-, hcutrest, -⟩ := sorted_append.1 h
  obtain ⟨hcut, -, hbehind⟩ := sorted_append.1 hcutrest
  rcases cut with _ | ⟨q, _ | ⟨q', cut⟩⟩
  · simp
  · obtain ⟨hin, hout⟩ := harea.cut_out q List.mem_cons_self
    have hq := hcut.1 q List.mem_cons_self
    have hnext : ∀ r ∈ rest, outOf q.2 ≤ inOf r.2 := hbehind q List.mem_cons_self
    rw [List.forall_mem_singleton, List.map_singleton, Resumable,
      ← shown_trimStart_iff hq hin hout.le]
    refine forall_congr' fun time => imp_congr_right fun _ => ?_
    by_cases hlate : time < outOf q.2
    · rw [shown_append_of_lt hnext hlate, shown_append_of_lt hnext hlate]
    · -- behind the block both halves show nothing
      rw [not_lt] at hlate
      have hnone : shown [q] time = none := shown_of_out_le fun r hr => by
        obtain rfl := List.mem_singleton.1 (mem_content.1 hr).1
        exact hlate
      have hnone' : shown [trimStart c q] time = none := shown_of_out_le fun r hr => by
        obtain rfl := List.mem_singleton.1 (mem_content.1 hr).1
        rw [outOf_trimStart hq hout.le]
        exact hlate
      rw [shown_append, shown_append, hnone, hnone']
      simp only [Option.none_or]
  · exact absurd harea.cut_length (by simp)

/-- Behind an area something is shown exactly when something was. -/
theorem isSome_shown_behind (h : Sorted (mid ++ (cut ++ rest)))
    (harea : Area head mid cut rest a c) (htime : c ≤ time) :
    (shown (cut.map (trimStart c) ++ rest) time).isSome = (shown (cut ++ rest) time).isSome := by
  rcases cut with _ | ⟨q, _ | ⟨q', cut⟩⟩
  · rfl
  · obtain ⟨hin, hout⟩ := harea.cut_out q List.mem_cons_self
    have hq := h.1 q (by simp)
    rw [List.map_singleton, shown_append, shown_append, Option.isSome_or, Option.isSome_or,
      isSome_shown_trimStart hq hin.le hout.le htime]
  · exact absurd harea.cut_length (by simp)

section

variable (htail : Sorted (mid ++ (cut ++ rest))) (harea : Area head mid cut rest a c) (hac : a < c)

include htail harea hac

/-- Before an area the blocks show what the blocks before it show. -/
theorem shown_before_iff :
    (∀ time, time < a → shown (front ++ (cut.map (trimStart c) ++ rest)) time =
        shown (head ++ (mid ++ (cut ++ rest))) time) ↔
      ∀ time, time < a → shown front time = shown head time := by
  obtain ⟨-, hlate⟩ := sorted_behind htail harea
  refine forall_congr' fun time => imp_congr_right fun htime => ?_
  rw [shown_append_of_lt (fun q hq => hac.le.trans (hlate q hq)) htime,
    shown_append_of_lt (harea.le_in hac) htime]

/-- An area that no block spans is cleared when the blocks before it stay, and the cut block
resumes. -/
theorem areaRemoved_zero_iff_of_area (hfront : ∀ p ∈ front, outOf p.2 ≤ a) :
    AreaRemoved (head ++ (mid ++ (cut ++ rest))) (front ++ (cut.map (trimStart c) ++ rest))
        ⟨a, c⟩ 0 ↔
      (∀ time, time < a → shown front time = shown head time) ∧ ∀ q ∈ cut, Resumable c c q := by
  obtain ⟨-, hlate⟩ := sorted_behind htail harea
  have hbetween : ∀ time, a ≤ time → time < c →
      shown (front ++ (cut.map (trimStart c) ++ rest)) time = none := by
    intro time ha hc
    rw [shown_append_of_le hfront ha]
    exact shown_of_lt fun q hq => hc.trans_le (hlate q (mem_content.1 hq).1)
  rw [areaRemoved_zero_iff hac, ← shown_behind_iff htail harea, shown_before_iff htail harea hac,
    and_iff_right hbetween]
  refine and_congr_right fun _ => forall_congr' fun time => imp_congr_right fun htime => ?_
  rw [shown_append_of_le hfront (hac.le.trans htime), shown_append_of_le harea.head_out htime,
    shown_append_of_le (fun q hq => (harea.mid_out q hq).2) htime]

/-- It is closed when the blocks before it stay, and no content is behind it. -/
theorem areaRemoved_length_iff_of_area (hfront : ∀ p ∈ front, outOf p.2 ≤ a) :
    AreaRemoved (head ++ (mid ++ (cut ++ rest))) (front ++ (cut.map (trimStart c) ++ rest))
        ⟨a, c⟩ (c - a) ↔
      (∀ time, time < a → shown front time = shown head time) ∧ content (cut ++ rest) = [] := by
  obtain ⟨-, hlate⟩ := sorted_behind htail harea
  obtain ⟨-, hcutrest, -⟩ := sorted_append.1 htail
  have hfrom : ∀ time, a ≤ time → shown (front ++ (cut.map (trimStart c) ++ rest)) time =
      shown (cut.map (trimStart c) ++ rest) time := fun time htime =>
    shown_append_of_le hfront htime
  have hold : ∀ time, a ≤ time → shown (head ++ (mid ++ (cut ++ rest))) (time + (c - a)) =
      shown (cut ++ rest) (time + (c - a)) := by
    intro time htime
    have hc : c ≤ time + (c - a) := by linarith
    rw [shown_append_of_le harea.head_out hc,
      shown_append_of_le (fun q hq => (harea.mid_out q hq).2) hc]
  rw [areaRemoved_length_iff, shown_before_iff htail harea hac]
  refine and_congr_right fun _ => ⟨fun hshift => ?_, fun hnil time htime => ?_⟩
  · have hmoved : ∀ time, a ≤ time → shown (cut.map (trimStart c) ++ rest) time =
        shown (cut ++ rest) (time + (c - a)) := fun time htime =>
      (hfrom time htime).symm.trans ((hshift time htime).trans (hold time htime))
    -- what is behind the area shows the same a while later
    have hnone : ∀ time, a ≤ time → shown (cut.map (trimStart c) ++ rest) time = none := by
      intro time htime
      refine shown_eq_none_of_shift (sub_pos.2 hac) (fun time htime => ?_) htime
      rw [hmoved time htime, isSome_shown_behind htail harea (by linarith)]
    have hout : ∀ p ∈ content (cut ++ rest), outOf p.2 ≤ c := by
      refine (shown_eq_none_iff hcutrest).1 fun time htime => ?_
      have hearly : a ≤ time - (c - a) := by linarith
      have hsame := hmoved _ hearly
      rw [sub_add_cancel, hnone _ hearly] at hsame
      exact hsame.symm
    refine List.eq_nil_iff_forall_not_mem.2 fun p hp => not_lt.2 (hout p hp) ?_
    rcases List.mem_append.1 (mem_content.1 hp).1 with hmem | hmem
    · exact (harea.cut_out p hmem).2
    · exact (harea.rest_in p hmem).trans_lt (hcutrest.1 p (List.mem_append_right _ hmem))
  · have hempty : ∀ time, shown (cut ++ rest) time = none := shown_of_content_nil hnil
    rw [hfrom time htime, hold time htime, hempty]
    by_cases hc : c ≤ time
    · have hsome := isSome_shown_behind htail harea hc
      rw [hempty] at hsome
      exact Option.isNone_iff_eq_none.1 (Option.isSome_eq_false_iff.1 hsome)
    · exact shown_of_lt fun q hq => (not_le.1 hc).trans_le (hlate q (mem_content.1 hq).1)

end

end Behind

/-! ### A block that spans the area -/

section Span

omit [NodeBehavior F β]

omit [ClipSpeed F] in
theorem out_le_trimEnd (hp : inOf p.2 < outOf p.2) (hin : inOf p.2 < a)
    (hpre : ∀ q ∈ pre, outOf q.2 ≤ a) : ∀ q ∈ pre ++ [trimEnd a p], outOf q.2 ≤ a := by
  refine List.forall_mem_append.2 ⟨hpre, fun q hq => ?_⟩
  obtain rfl := List.mem_singleton.1 hq
  exact (outOf_trimEnd hp hin.le).le

section

variable (h : Sorted (pre ++ p :: post)) (hin : inOf p.2 < a) (hout : c < outOf p.2) (hac : a < c)
  (hsame : ∀ time, shown blocks' time = shown (pre ++ p :: post) time)

include h hin hout hac hsame

/-- Blocks of which none shows anything else: the area is cleared when a gap spans it. -/
theorem areaRemoved_zero_iff_of_span :
    AreaRemoved (pre ++ p :: post) blocks' ⟨a, c⟩ 0 ↔ isGapBlock p.2 = true := by
  obtain ⟨hpre, hpost⟩ := around_span h hin hout
  rw [areaRemoved_zero_iff_of_same h hac hsame]
  constructor
  · intro hfree
    by_contra hgap
    rcases hfree p (mem_content.2 ⟨by simp, Bool.eq_false_iff.2 hgap⟩) with hle | hle
    · exact absurd hle (not_le.2 (hac.trans hout))
    · exact absurd hle (not_le.2 (hin.trans hac))
  · intro hgap q hq
    obtain ⟨hq, hcontent⟩ := mem_content.1 hq
    rcases List.mem_append.1 hq with hq | hq
    · exact .inl (hpre q hq).2.le
    rcases List.mem_cons.1 hq with rfl | hq
    · exact absurd (hgap.symm.trans hcontent) (by decide)
    · exact .inr (hpost q hq).1.le

theorem areaRemoved_length_iff_of_span :
    AreaRemoved (pre ++ p :: post) blocks' ⟨a, c⟩ (c - a) ↔
      isGapBlock p.2 = true ∧ content post = [] := by
  obtain ⟨hpre, hpost⟩ := around_span h hin hout
  rw [areaRemoved_length_iff_of_same h hac hsame]
  constructor
  · intro hends
    refine ⟨?_, List.eq_nil_iff_forall_not_mem.2 fun q hq => ?_⟩
    · by_contra hgap
      have hle := hends p (mem_content.2 ⟨by simp, Bool.eq_false_iff.2 hgap⟩)
      exact absurd hle (not_le.2 (hac.trans hout))
    · obtain ⟨hq, hcontent⟩ := mem_content.1 hq
      have hmem : q ∈ pre ++ p :: post := List.mem_append_right _ (List.mem_cons_of_mem _ hq)
      have hle := hends q (mem_content.2 ⟨hmem, hcontent⟩)
      exact absurd hle (not_le.2 (hac.trans ((hpost q hq).1.trans (hpost q hq).2)))
  · rintro ⟨hgap, hnil⟩ q hq
    obtain ⟨hq, hcontent⟩ := mem_content.1 hq
    rcases List.mem_append.1 hq with hq | hq
    · exact (hpre q hq).2.le
    rcases List.mem_cons.1 hq with rfl | hq
    · exact absurd (hgap.symm.trans hcontent) (by decide)
    · have hmem := mem_content.2 ⟨hq, hcontent⟩
      rw [hnil] at hmem
      exact absurd hmem List.not_mem_nil

end

theorem shown_splice_of_gap (hgap : isGapBlock p.2 = true) (new : NodeId) (time : Rational) :
    shown (pre ++ trimEnd a p :: resumed a c new p :: post) time =
      shown (pre ++ p :: post) time := by
  refine shown_of_content_eq ?_
  simp [content, trimEnd, resumed, isGapBlock_modifyCore, hgap]

section

variable (h : Sorted (pre ++ p :: post)) (hin : inOf p.2 < a) (hout : c < outOf p.2) (hac : a < c)
  (new : NodeId)

include h hin hout hac

/-- A block that is spliced is content of the area, unless it is a gap. -/
theorem areaRemoved_zero_iff_of_splice :
    AreaRemoved (pre ++ p :: post) (pre ++ trimEnd a p :: resumed a c new p :: post) ⟨a, c⟩ 0 ↔
      isGapBlock p.2 = true := by
  obtain ⟨hpre, hpost⟩ := around_span h hin hout
  have hp := h.1 p (by simp)
  constructor
  · intro hremoved
    by_contra hgap
    have hnone := ((areaRemoved_zero_iff hac).1 hremoved).2.1 a le_rfl hac
    have hfront := out_le_trimEnd hp hin fun q hq => (hpre q hq).2.le
    obtain ⟨core, hcore⟩ := exists_core_of_lt hp
    have hshown : (shown [resumed a c new p] a).isSome = true := by
      have hlate : a < outOf p.2 - (c - a) := by linarith
      rw [resumed, shown_replaced hcore, if_pos ⟨Bool.eq_false_iff.2 hgap, le_rfl, hlate⟩]
      rfl
    rw [List.append_cons, shown_append_of_le hfront le_rfl, shown_cons, Option.or_eq_none_iff]
      at hnone
    rw [hnone.1] at hshown
    exact Bool.false_ne_true hshown
  · intro hgap
    exact (areaRemoved_zero_iff_of_span h hin hout hac (shown_splice_of_gap hgap new)).2 hgap

/-- A spliced area is closed when the block is trimmed and resumed well, and is the last one. -/
theorem areaRemoved_length_iff_of_splice :
    AreaRemoved (pre ++ p :: post) (pre ++ trimEnd a p :: resumed a c new p :: post) ⟨a, c⟩
        (c - a) ↔ Trimmable a p ∧ Resumable c a p ∧ content post = [] := by
  obtain ⟨hpre, hpost⟩ := around_span h hin hout
  have hp := h.1 p (by simp)
  have hconcat : Sorted (pre ++ [p]) := h.sublist (by simp)
  have hsorted : Sorted post := h.sublist (by simp)
  have hnext : ∀ q ∈ post, outOf p.2 ≤ inOf q.2 :=
    (sorted_cons.1 (sorted_append.1 h).2.1).2.2
  have hbefore : (∀ time, time < a → shown (pre ++ trimEnd a p :: resumed a c new p :: post) time =
      shown (pre ++ p :: post) time) ↔ Trimmable a p := by
    rw [← shown_concat_trimEnd_iff hconcat hin]
    refine forall_congr' fun time => imp_congr_right fun htime => ?_
    have htail : ∀ q ∈ resumed a c new p :: post, a ≤ inOf q.2 :=
      List.forall_mem_cons.2 ⟨(inOf_resumed hp new).ge, fun q hq => (hac.trans (hpost q hq).1).le⟩
    rw [List.append_cons pre (trimEnd a p), List.append_cons pre p, shown_append_of_lt htail htime,
      shown_append_of_lt (fun q hq => (hac.trans (hpost q hq).1).le) htime]
  have hnew : ∀ time, a ≤ time → shown (pre ++ trimEnd a p :: resumed a c new p :: post) time =
      (shown [resumed a c new p] time).or (shown post time) := by
    intro time htime
    have hfront := out_le_trimEnd hp hin fun q hq => (hpre q hq).2.le
    rw [List.append_cons, shown_append_of_le hfront htime, shown_cons]
  have hold : ∀ time, a ≤ time → shown (pre ++ p :: post) (time + (c - a)) =
      (shown [p] (time + (c - a))).or (shown post (time + (c - a))) := by
    intro time htime
    have hearly : a ≤ time + (c - a) := by linarith
    rw [shown_append_of_le (fun q hq => (hpre q hq).2.le) hearly, shown_cons]
  rw [areaRemoved_length_iff, hbefore]
  refine and_congr_right fun _ => ⟨fun hshift => ?_, ?_⟩
  · have hmoved : ∀ time, a ≤ time → (shown [resumed a c new p] time).or (shown post time) =
        (shown [p] (time + (c - a))).or (shown post (time + (c - a))) := fun time htime =>
      (hnew time htime).symm.trans ((hshift time htime).trans (hold time htime))
    have hnone : ∀ time, a ≤ time → shown post time = none := by
      intro time htime
      refine shown_eq_none_of_shift (sub_pos.2 hac) (fun time htime => ?_) htime
      by_cases hlate : time + (c - a) < outOf p.2
      · -- the block or its second half is still shown
        rw [shown_of_lt fun q hq => ?_, shown_of_lt fun q hq => ?_]
        · exact hlate.trans_le (hnext q (mem_content.1 hq).1)
        · have hle := hnext q (mem_content.1 hq).1
          linarith
      · have hblock : shown [p] (time + (c - a)) = none := shown_of_out_le fun q hq => by
          obtain rfl := List.mem_singleton.1 (mem_content.1 hq).1
          exact not_lt.1 hlate
        have hhalf : shown [resumed a c new p] time = none := shown_of_out_le fun q hq => by
          obtain rfl := List.mem_singleton.1 (mem_content.1 hq).1
          rw [outOf_resumed hp]
          linarith
        have hsame := hmoved time htime
        rw [hblock, hhalf, Option.none_or, Option.none_or] at hsame
        rw [hsame]
    have hnil : content post = [] := by
      refine List.eq_nil_iff_forall_not_mem.2 fun q hq => ?_
      have hlate := (hpost q (mem_content.1 hq).1)
      have hle := (shown_eq_none_iff hsorted).1 hnone q hq
      exact absurd hle (not_le.2 (hac.trans (hlate.1.trans hlate.2)))
    refine ⟨(shown_resumed_iff hp (hin.trans hac) new).1 fun time htime => ?_, hnil⟩
    have hsame := hmoved time htime
    rwa [shown_of_content_nil hnil, shown_of_content_nil hnil, Option.or_none, Option.or_none]
      at hsame
  · rintro ⟨hresumable, hnil⟩ time htime
    rw [hnew time htime, hold time htime, shown_of_content_nil hnil, shown_of_content_nil hnil,
      (shown_resumed_iff hp (hin.trans hac) new).2 hresumable time htime]

end

end Span

/-! ### Exactly when an area is removed -/

omit [NodeBehavior F β] in
/-- The last block before an area, when it is trimmed to end there. -/
theorem trimmed_around (h : Sorted (pre ++ [p] ++ post)) (hin : inOf p.2 < a)
    (hpost : ∀ q ∈ post, a < inOf q.2) :
    (∀ q ∈ pre ++ [trimEnd a p], outOf q.2 ≤ a) ∧
      ((∀ time, time < a → shown (pre ++ [trimEnd a p]) time = shown (pre ++ [p]) time) ↔
        Reached (pre ++ [p] ++ post) a c) := by
  obtain ⟨hconcat, -, -⟩ := sorted_append.1 h
  obtain ⟨-, -, hbehind⟩ := sorted_append.1 hconcat
  have hp := hconcat.1 p (by simp)
  constructor
  · exact out_le_trimEnd hp hin fun q hq => (hbehind q hq p List.mem_cons_self).trans hin.le
  · rw [← List.append_cons] at h ⊢
    rw [shown_concat_trimEnd_iff hconcat hin, reached_iff_of_last h hin hpost]

theorem Outcome.cleared_iff (ho : Outcome g a c blocks blocks') (hac : a < c) (h : Sorted blocks) :
    AreaRemoved blocks blocks' ⟨a, c⟩ 0 ↔ Clearable blocks a c := by
  cases ho with
  | hole hlt =>
    rw [areaRemoved_zero_iff_of_same h hac fun _ => rfl, clearable_iff_of_lt hlt]
    refine forall_congr' fun p => imp_congr_right fun hp => or_iff_right fun hout => ?_
    have hmem := (mem_content.1 hp).1
    exact absurd (hout.trans_lt (hlt p hmem)) (h.1 p hmem).not_gt
  | kept harea hfirst =>
    obtain ⟨-, htail, -⟩ := sorted_append.1 h
    have hreached := reached_of_first (c := c) h (harea.le_in hac) hfirst
    rw [areaRemoved_zero_iff_of_area htail harea hac (out_le_of_first h hfirst),
      clearable_iff_of_area harea hac]
    exact and_congr_left fun _ => iff_of_true (fun _ _ => rfl) hreached
  | trimmed harea hfirst =>
    obtain ⟨-, htail, -⟩ := sorted_append.1 h
    have hlate := lt_in_of_not_first htail (harea.le_in hac) hfirst
    obtain ⟨hfront, hiff⟩ := trimmed_around (c := c) h (harea.head_in _ (by simp)) hlate
    rw [areaRemoved_zero_iff_of_area htail harea hac hfront, clearable_iff_of_area harea hac, hiff]
  | gap hin hout hgap =>
    rw [areaRemoved_zero_iff_of_span h hin hout hac fun _ => shown_of_content_eq ?_,
      clearable_iff_of_span h hin hout hac]
    simp [content, trimEnd, isGapBlock_modifyCore, hgap]
  | refused hin hout hcopy =>
    rw [areaRemoved_zero_iff_of_span h hin hout hac fun _ => rfl,
      clearable_iff_of_span h hin hout hac]
  | splice new hin hout hcopy =>
    rw [areaRemoved_zero_iff_of_splice h hin hout hac, clearable_iff_of_span h hin hout hac]

theorem Outcome.closed_iff (ho : Outcome g a c blocks blocks') (hac : a < c) (h : Sorted blocks) :
    AreaRemoved blocks blocks' ⟨a, c⟩ (c - a) ↔ Closable g blocks a c := by
  cases ho with
  | hole hlt =>
    rw [areaRemoved_length_iff_of_same h hac fun _ => rfl, closable_iff_of_lt h hlt]
    constructor
    · refine fun hends => List.eq_nil_iff_forall_not_mem.2 fun p hp => ?_
      have hmem := (mem_content.1 hp).1
      exact absurd ((hends p hp).trans_lt (hlt p hmem)) (h.1 p hmem).not_gt
    · intro hnil p hp
      rw [hnil] at hp
      exact absurd hp List.not_mem_nil
  | kept harea hfirst =>
    obtain ⟨-, htail, -⟩ := sorted_append.1 h
    have hreached := reached_of_first (c := c) h (harea.le_in hac) hfirst
    rw [areaRemoved_length_iff_of_area htail harea hac (out_le_of_first h hfirst),
      closable_iff_of_area h harea hac]
    exact and_congr_left fun _ => iff_of_true (fun _ _ => rfl) hreached
  | trimmed harea hfirst =>
    obtain ⟨-, htail, -⟩ := sorted_append.1 h
    have hlate := lt_in_of_not_first htail (harea.le_in hac) hfirst
    obtain ⟨hfront, hiff⟩ := trimmed_around (c := c) h (harea.head_in _ (by simp)) hlate
    rw [areaRemoved_length_iff_of_area htail harea hac hfront, closable_iff_of_area h harea hac,
      hiff]
  | gap hin hout hgap =>
    rw [areaRemoved_length_iff_of_span h hin hout hac fun _ => shown_of_content_eq ?_,
      closable_iff_of_span h hin hout hac]
    · exact and_congr_left fun _ => iff_of_true hgap fun hfalse =>
        absurd (hgap.symm.trans hfalse) (by decide)
    · simp [content, trimEnd, isGapBlock_modifyCore, hgap]
  | refused hin hout hcopy =>
    rw [areaRemoved_length_iff_of_span h hin hout hac fun _ => rfl,
      closable_iff_of_span h hin hout hac]
    refine and_congr_left fun _ => ⟨fun hgap hfalse => ?_, fun hspan => ?_⟩
    · exact absurd (hgap.symm.trans hfalse) (by decide)
    · by_contra hgap
      exact hcopy (hspan (Bool.eq_false_iff.2 hgap)).1
  | @splice pre post p new hin hout hcopy =>
    rw [areaRemoved_length_iff_of_splice h hin hout hac, closable_iff_of_span h hin hout hac,
      ← and_assoc]
    refine and_congr_left fun _ => ⟨fun hspan _ => ⟨hcopy, hspan⟩, fun hspan => ?_⟩
    rcases hgap : isGapBlock p.2
    · exact (hspan hgap).2
    · refine ⟨fun hfalse => absurd (hgap.symm.trans hfalse) (by decide), fun clip hclip => ?_⟩
      rw [hclip] at hgap
      exact absurd hgap Bool.false_ne_true

omit [NodeBehavior F β] in
theorem removesArea_iff_of_track {g' : ProjectGraph F β}
    (h : Track g' track { t with blocks := blocks'.map Prod.fst } blocks')
    (hsorted : Sorted blocks') (range : TimeRange) (shift : Rational) :
    RemovesArea g' track t blocks range shift ↔ AreaRemoved blocks blocks' range shift := by
  constructor
  · rintro ⟨blocks'', h', -, hremoved⟩
    have hsame := Behavior.track.inj (Option.some.inj (h.behavior.symm.trans h'.behavior))
    rw [hsame] at h
    rwa [track_unique h h']
  · exact fun hremoved => ⟨blocks', h, hsorted, hremoved⟩

/-- Where the times are exact, the first redo clears an area exactly when the blocks before it can
stay, no content spans it, and a clip that is cut at its end resumes there. It closes the area
exactly when no content is behind it, but for a block that spans it. -/
theorem removesArea_iff (hsound : g.Sound carried) (hroom : g.HasRoom)
    (h : Track g track t blocks) (hsorted : Sorted blocks) (hrange : range.in_ < range.out)
    (hitems : ∀ p ∈ blocks, ∀ entry, g.get p.1 = some entry →
      entry.core.flags &&& NodeFlags.isItem = 0)
    (_ : Exacts (areaTimes blocks range.in_ range.out)) :
    (RemovesArea ((new track range allow : TrackRippleRemoveAreaCommand F β).redo order g).2 track t
        blocks range 0 ↔ Clearable blocks range.in_ range.out) ∧
      (RemovesArea ((new track range allow : TrackRippleRemoveAreaCommand F β).redo order g).2 track
        t blocks range range.length ↔ Closable g blocks range.in_ range.out) := by
  obtain ⟨blocks', ho, htrack⟩ :=
    exists_outcome order allow hsound hroom h hsorted hrange hitems
  have hsorted' := ho.sorted hrange hsorted
  exact ⟨(removesArea_iff_of_track htrack hsorted' range 0).trans (ho.cleared_iff hrange hsorted),
    (removesArea_iff_of_track htrack hsorted' range range.length).trans
      (ho.closed_iff hrange hsorted)⟩

/-! ### A clip and two areas -/

section OneClip

/-- The track of the clip. -/
def clipTrack : TrackBehavior ℚ := ⟨.video, [⟨1, 0⟩], false, false, 3, 0, none⟩

/-- Its only block. -/
def clipBlocks : List (NodeId × Behavior ℚ Plain) := [(⟨1, 0⟩, .clip (tenSeconds 0))]

/-- The project after the removal of a range. -/
def clipRemoved (range : TimeRange) : ProjectGraph ℚ Plain :=
  ((new ⟨0, 0⟩ range false : TrackRippleRemoveAreaCommand ℚ Plain).redo id (oneClip 0)).2

theorem track_oneClip : Track (oneClip 0) ⟨0, 0⟩ clipTrack clipBlocks :=
  (splittable_oneClip 0).track

theorem range_clipBlocks : ∀ p ∈ clipBlocks,
    p.2 = .clip (tenSeconds 0) ∧ inOf p.2 = 10 ∧ outOf p.2 = 20 := by
  intro p hp
  obtain rfl := List.mem_singleton.1 hp
  exact ⟨rfl, rfl, rfl⟩

theorem sorted_clipBlocks : Sorted clipBlocks := by
  refine ⟨fun p hp => ?_, List.pairwise_singleton _ _⟩
  obtain ⟨-, hin, hout⟩ := range_clipBlocks p hp
  rw [hin, hout]
  norm_num

theorem reached_clipBlocks : Reached clipBlocks 15 25 := by
  refine ⟨fun p hp _ => ⟨p, (mem_content.1 hp).1, ?_⟩, fun p hp _ hout => ?_,
    fun x clip hclip hreversed _ => ?_⟩
  · rw [(range_clipBlocks p (mem_content.1 hp).1).2.1]
    norm_num
  · rw [(range_clipBlocks p (mem_content.1 hp).1).2.2] at hout
    exact absurd hout (by norm_num)
  · obtain rfl := Behavior.clip.inj (range_clipBlocks _ hclip).1
    exact absurd hreversed Bool.false_ne_true

/-- The end of the clip is cut off, and there is nothing behind it. -/
theorem removesArea_iff_oneClip :
    RemovesArea (clipRemoved ⟨15, 25⟩) ⟨0, 0⟩ clipTrack clipBlocks ⟨15, 25⟩ 0 ∧
      RemovesArea (clipRemoved ⟨15, 25⟩) ⟨0, 0⟩ clipTrack clipBlocks ⟨15, 25⟩
        (TimeRange.length ⟨15, 25⟩) := by
  have hrange : (⟨15, 25⟩ : TimeRange).in_ < (⟨15, 25⟩ : TimeRange).out := by
    show (15 : ℚ) < 25
    norm_num
  have hout : ∀ p ∈ clipBlocks, outOf p.2 ≤ 25 := by
    intro p hp
    rw [(range_clipBlocks p hp).2.2]
    norm_num
  have hiff := removesArea_iff id false (splittable_oneClip 0).sound (splittable_oneClip 0).room
    track_oneClip sorted_clipBlocks hrange (fun p hp => ?_) (by decide +kernel)
  · refine ⟨hiff.1.2 ⟨reached_clipBlocks, fun p hp _ => hout p (mem_content.1 hp).1,
        fun x clip hclip _ _ hlate => absurd (hout _ hclip) (not_le.2 hlate)⟩,
      hiff.2.2 ⟨reached_clipBlocks, fun p hp hlate => ?_,
        fun x clip hclip _ hlate => absurd (hout _ hclip) (not_le.2 hlate)⟩⟩
    exact absurd (hout p (mem_content.1 hp).1) (not_le.2 hlate)
  · obtain rfl := List.mem_singleton.1 hp
    exact (splittable_oneClip 0).notItem

/-- A clip in the area stays, when no block begins before the area. -/
theorem area_before_kept :
    ¬ RemovesArea (clipRemoved ⟨5, 15⟩) ⟨0, 0⟩ clipTrack clipBlocks ⟨5, 15⟩ 0 ∧
      ¬ RemovesArea (clipRemoved ⟨5, 15⟩) ⟨0, 0⟩ clipTrack clipBlocks ⟨5, 15⟩
        (TimeRange.length ⟨5, 15⟩) := by
  have hredo : clipRemoved ⟨5, 15⟩ = oneClip 0 := by
    rw [clipRemoved, redo_of_lt id false track_oneClip sorted_clipBlocks fun p hp => ?_]
    rw [(range_clipBlocks p hp).2.1]
    norm_num
  have hshown : shown clipBlocks 12 ≠ none := by
    have hmem : ((⟨1, 0⟩ : NodeId), (.clip (tenSeconds 0) : Behavior ℚ Plain)) ∈
        content clipBlocks := mem_content.2 ⟨List.mem_cons_self, rfl⟩
    obtain ⟨-, hin, hout⟩ := range_clipBlocks _ (mem_content.1 hmem).1
    rw [shown_of_mem sorted_clipBlocks hmem (by rw [hin]; norm_num) (by rw [hout]; norm_num)]
    exact Option.some_ne_none _
  have hlater : shown clipBlocks 22 = none := shown_of_out_le fun p hp => by
    rw [(range_clipBlocks p (mem_content.1 hp).1).2.2]
    norm_num
  have hremoves (shift : Rational) : RemovesArea (clipRemoved ⟨5, 15⟩) ⟨0, 0⟩ clipTrack clipBlocks
      ⟨5, 15⟩ shift ↔ AreaRemoved clipBlocks clipBlocks ⟨5, 15⟩ shift :=
    removesArea_iff_of_track (hredo ▸ track_oneClip) sorted_clipBlocks _ _
  rw [hremoves, hremoves]
  refine ⟨fun h => hshown ?_, fun h => hshown ?_⟩
  · rw [h 12, if_neg (by norm_num), if_pos (by norm_num)]
  · rw [h 12, if_neg (by norm_num), if_neg (by norm_num [TimeRange.length])]
    norm_num [TimeRange.length]
    exact hlater

end OneClip

end Oak.Timeline
