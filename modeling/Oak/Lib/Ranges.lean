import Mathlib.Order.MinMax
import Mathlib.Data.List.Pairwise
import Mathlib.Data.List.Infix

/-!
# Lists of ranges that are kept apart

Half-open ranges of a linear order. A list of ranges none of which touches another stands for a set;
a range is inserted by merging it with all that it touches, and the merged range goes to the end of
the list.

* `Range` is a range with its ends in order; `covers`, `touches` and `combined` compare two of them.
* `insert` and `remove` add and subtract a range, as loops over the list.
* `Apart l` says that no two ranges of `l` touch, `Parted l` that any two share at most an end, and
  `Ascending l` that each one ends before the next ones begin.

## Main results

* `covered_insertRange`: an insertion covers what was covered, and the new range.
* `covered_removeRange`: a subtraction covers what was covered outside the range.
* `Apart.insert`, `Apart.remove`: the ranges stay apart.
* `Parted.covered_removeAll`: subtractions of any ranges, empty ones among them.
* `ascending_insertRange_iff`, `ascending_removeRange_iff`: when the ranges stay in ascending order.
* `insertAll_eq_iff`: inserting the ranges of a list gives that list exactly when every range that
  was there is covered by one of them, and those that were there are its first ones in their order.
-/

namespace Oak.Lib

variable {τ : Type*} [LinearOrder τ]

/-- The points from `in_` up to, but not including, `out`. -/
@[ext] structure Range (τ : Type*) [LinearOrder τ] where
  in_ : τ
  out : τ
  le : in_ ≤ out
  deriving DecidableEq

namespace Range

/-- The ends are swapped when they are in the wrong order. -/
def new (a b : τ) : Range τ := if h : b < a then ⟨b, a, h.le⟩ else ⟨a, b, not_lt.1 h⟩

def contains (r : Range τ) (t : τ) : Bool := r.in_ ≤ t && t < r.out

def covers (r c : Range τ) : Bool := r.in_ ≤ c.in_ && c.out ≤ r.out

def coversInside (r c : Range τ) : Bool := r.in_ < c.in_ && c.out < r.out

def touches (r c : Range τ) : Bool := r.in_ ≤ c.out && c.in_ ≤ r.out

def combined (r c : Range τ) : Range τ where
  in_ := min r.in_ c.in_
  out := max r.out c.out
  le := (min_le_left _ _).trans (r.le.trans (le_max_left _ _))

variable {r c d : Range τ} {t : τ}

@[simp] theorem contains_iff : r.contains t = true ↔ r.in_ ≤ t ∧ t < r.out := by
  simp [contains]

@[simp] theorem covers_iff : r.covers c = true ↔ r.in_ ≤ c.in_ ∧ c.out ≤ r.out := by
  simp [covers]

@[simp] theorem coversInside_iff : r.coversInside c = true ↔ r.in_ < c.in_ ∧ c.out < r.out := by
  simp [coversInside]

@[simp] theorem touches_iff : r.touches c = true ↔ r.in_ ≤ c.out ∧ c.in_ ≤ r.out := by
  simp [touches]

theorem new_of_le {a b : τ} (h : a ≤ b) : new a b = ⟨a, b, h⟩ := by
  rw [new, dif_neg (not_lt.2 h)]

@[simp] theorem new_in_out : new r.in_ r.out = r := new_of_le r.le

theorem covers_refl : r.covers r = true := covers_iff.2 ⟨le_rfl, le_rfl⟩

theorem covers_trans (h : r.covers c = true) (h' : c.covers d = true) : r.covers d = true := by
  rw [covers_iff] at h h' ⊢
  exact ⟨h.1.trans h'.1, h'.2.trans h.2⟩

theorem covers_antisymm (h : r.covers c = true) (h' : c.covers r = true) : r = c := by
  rw [covers_iff] at h h'
  exact Range.ext (le_antisymm h.1 h'.1) (le_antisymm h'.2 h.2)

theorem touches_comm : r.touches c = c.touches r := by
  rw [touches, touches, Bool.and_comm]

theorem touches_self : r.touches r = true := touches_iff.2 ⟨r.le, r.le⟩

theorem touches_of_covers (hcovers : r.covers c = true) (h : c.touches d = true) :
    r.touches d = true := by
  rw [covers_iff] at hcovers
  rw [touches_iff] at h ⊢
  exact ⟨hcovers.1.trans h.1, h.2.trans hcovers.2⟩

theorem covers_combined_left : (r.combined c).covers r = true :=
  covers_iff.2 ⟨min_le_left _ _, le_max_left _ _⟩

theorem covers_combined_right : (r.combined c).covers c = true :=
  covers_iff.2 ⟨min_le_right _ _, le_max_right _ _⟩

theorem combined_of_covers (h : c.covers r = true) : r.combined c = c := by
  rw [covers_iff] at h
  exact Range.ext (min_eq_right h.1) (max_eq_right h.2)

theorem contains_combined (h : r.touches c = true) :
    (r.combined c).contains t = true ↔ r.contains t = true ∨ c.contains t = true := by
  rw [touches_iff] at h
  have hr := r.le
  have hc := c.le
  simp only [contains_iff, combined, min_le_iff, lt_max_iff]
  constructor
  · rintro ⟨hin, hout⟩
    by_contra hnone
    simp only [not_or, not_and, not_lt] at hnone
    obtain ⟨hleft, hright⟩ := hnone
    rcases hin with hin | hin
    · have hafter := hleft hin
      rcases hout with hout | hout
      · exact absurd hout (not_lt.2 hafter)
      · exact absurd hout (not_lt.2 (hright (h.2.trans hafter)))
    · have hafter := hright hin
      rcases hout with hout | hout
      · exact absurd hout (not_lt.2 (hleft (h.1.trans hafter)))
      · exact absurd hout (not_lt.2 hafter)
  · rintro (⟨hin, hout⟩ | ⟨hin, hout⟩)
    · exact ⟨.inl hin, .inl hout⟩
    · exact ⟨.inr hin, .inr hout⟩

/-- What touches neither of two ranges that touch does not touch their union. -/
theorem not_touches_combined (h : r.touches c = true) (hr : d.touches r = false)
    (hc : d.touches c = false) : d.touches (r.combined c) = false := by
  rw [touches_iff] at h
  rw [← Bool.not_eq_true, touches_iff, not_and_or, not_le, not_le] at hr hc ⊢
  have hd := d.le
  simp only [combined, max_lt_iff, lt_min_iff]
  rcases hr with hr | hr
  · rcases hc with hc | hc
    · exact .inl ⟨hr, hc⟩
    · exact absurd ((h.2.trans_lt hr).trans_le hd) (not_lt.2 hc.le)
  · rcases hc with hc | hc
    · exact absurd ((h.1.trans_lt hc).trans_le hd) (not_lt.2 hr.le)
    · exact .inr ⟨hr, hc⟩

end Range

open Range

/-! ### The loops -/

/-- The ranges of the list that do not touch the new one, and the new one combined with those that
do. -/
def absorb : List (Range τ) → Range τ → List (Range τ) × Range τ
  | [], r => ([], r)
  | c :: l, r =>
    if c.touches r then absorb l (c.combined r)
    else (c :: (absorb l r).1, (absorb l r).2)

/-- A range is added, unless some range of the list covers it. -/
def insertRange (l : List (Range τ)) (r : Range τ) : List (Range τ) :=
  if l.any fun c => c.covers r then l else (absorb l r).1 ++ [(absorb l r).2]

/-- The end of `c` that lies in `r` is cut off. -/
def Range.trimmed (r c : Range τ) : Range τ :=
  if c.in_ < r.in_ ∧ r.in_ < c.out then .new c.in_ r.in_
  else if c.in_ < r.out ∧ r.out < c.out then .new r.out c.out
  else c

/-- What is left of the list when a range is taken out, and the second half of a range that is cut
in two; the loop ends there. -/
def cut (r : Range τ) : List (Range τ) → List (Range τ) × List (Range τ)
  | [] => ([], [])
  | c :: l =>
    if r.covers c then cut r l
    else if c.coversInside r then (.new c.in_ r.in_ :: l, [.new r.out c.out])
    else (r.trimmed c :: (cut r l).1, (cut r l).2)

/-- A range is subtracted. -/
def removeRange (l : List (Range τ)) (r : Range τ) : List (Range τ) := (cut r l).1 ++ (cut r l).2

/-- No two ranges of the list touch. -/
def Apart (l : List (Range τ)) : Prop := l.Pairwise fun c d => c.touches d = false

/-- Any two ranges of the list share at most an end. -/
def Parted (l : List (Range τ)) : Prop := l.Pairwise fun c d => c.out ≤ d.in_ ∨ d.out ≤ c.in_

/-- Some range of the list contains the point. -/
def Covered (l : List (Range τ)) (t : τ) : Prop := ∃ r ∈ l, r.contains t = true

variable {l : List (Range τ)} {r : Range τ} {t : τ}

@[simp] theorem covered_nil : ¬ Covered ([] : List (Range τ)) t := by simp [Covered]

@[simp] theorem covered_cons {c : Range τ} :
    Covered (c :: l) t ↔ c.contains t = true ∨ Covered l t := by simp [Covered]

@[simp] theorem covered_append {l' : List (Range τ)} :
    Covered (l ++ l') t ↔ Covered l t ∨ Covered l' t := by
  simp only [Covered, List.mem_append, or_and_right, exists_or]

/-! ### Insertion -/

theorem covered_absorb : Covered (absorb l r).1 t ∨ (absorb l r).2.contains t = true ↔
    Covered l t ∨ r.contains t = true := by
  induction l generalizing r with
  | nil => simp [absorb]
  | cons c l ih =>
    rw [absorb]
    split_ifs with htouches
    · rw [ih, contains_combined htouches, covered_cons]
      tauto
    · rw [covered_cons, covered_cons, or_assoc, ih, or_assoc]

/-- An insertion covers what was covered, and the new range. -/
theorem covered_insertRange : Covered (insertRange l r) t ↔ Covered l t ∨ r.contains t = true := by
  rw [insertRange]
  split_ifs with hany
  · refine (or_iff_left_of_imp fun hr => ?_).symm
    obtain ⟨c, hc, hcovers⟩ := List.any_eq_true.1 hany
    rw [covers_iff] at hcovers
    rw [contains_iff] at hr
    exact ⟨c, hc, contains_iff.2 ⟨hcovers.1.trans hr.1, hr.2.trans_le hcovers.2⟩⟩
  · rw [covered_append, covered_cons, or_iff_left covered_nil, covered_absorb]

variable {rs : List (Range τ)}

theorem covered_insertAll : Covered (rs.foldl insertRange l) t ↔ Covered l t ∨ Covered rs t := by
  induction rs generalizing l with
  | nil => simp
  | cons r rs ih => rw [List.foldl_cons, ih, covered_insertRange, covered_cons, or_assoc]

/-- What touches neither the list nor the new range does not touch what the loop makes of it. -/
theorem not_touches_absorb {d : Range τ} (hl : ∀ c ∈ l, d.touches c = false)
    (hr : d.touches r = false) : d.touches (absorb l r).2 = false := by
  induction l generalizing r with
  | nil => exact hr
  | cons c l ih =>
    rw [absorb]
    have hrest := fun x hx => hl x (List.mem_cons_of_mem c hx)
    split_ifs with htouches
    · exact ih hrest (not_touches_combined htouches (hl c List.mem_cons_self) hr)
    · exact ih hrest hr

theorem absorb_sublist : (absorb l r).1.Sublist l := by
  induction l generalizing r with
  | nil => exact List.Sublist.slnil
  | cons c l ih =>
    rw [absorb]
    split_ifs
    · exact ih.cons c
    · exact ih.cons_cons c

theorem covers_absorb : (absorb l r).2.covers r = true := by
  induction l generalizing r with
  | nil => exact covers_refl
  | cons c l ih =>
    rw [absorb]
    split_ifs
    · exact covers_trans ih covers_combined_right
    · exact ih

theorem Apart.not_touches_of_mem_absorb (h : Apart l) {d : Range τ} (hd : d ∈ (absorb l r).1) :
    d.touches (absorb l r).2 = false := by
  induction l generalizing r with
  | nil => cases hd
  | cons c l ih =>
    obtain ⟨hc, hl⟩ := List.pairwise_cons.1 h
    rw [absorb] at hd ⊢
    split_ifs at hd ⊢ with htouches
    · exact ih hl hd
    · obtain rfl | hd := List.mem_cons.1 hd
      · exact not_touches_absorb hc (Bool.eq_false_iff.2 htouches)
      · exact ih hl hd

theorem Apart.insert (h : Apart l) (r : Range τ) : Apart (insertRange l r) := by
  rw [insertRange]
  split_ifs
  · exact h
  · refine List.pairwise_append.2 ⟨h.sublist absorb_sublist, List.pairwise_singleton _ _, ?_⟩
    intro c hc d hd
    rw [List.mem_singleton] at hd
    exact hd ▸ h.not_touches_of_mem_absorb hc

/-! ### Subtraction -/

theorem Range.covers_trimmed {r c : Range τ} : c.covers (r.trimmed c) = true := by
  rw [trimmed]
  split_ifs with hleft hright
  · rw [new_of_le hleft.1.le]
    exact covers_iff.2 ⟨le_rfl, hleft.2.le⟩
  · rw [new_of_le hright.2.le]
    exact covers_iff.2 ⟨hright.1.le, le_rfl⟩
  · exact covers_refl

theorem exists_covers_of_mem_cut {d : Range τ} (hd : d ∈ (cut r l).1 ∨ d ∈ (cut r l).2) :
    ∃ c ∈ l, c.covers d = true := by
  induction l with
  | nil => simp [cut] at hd
  | cons c l ih =>
    rw [cut] at hd
    have hrest (hd : d ∈ (cut r l).1 ∨ d ∈ (cut r l).2) : ∃ c' ∈ c :: l, c'.covers d = true := by
      obtain ⟨c', hc', hcovers⟩ := ih hd
      exact ⟨c', List.mem_cons_of_mem c hc', hcovers⟩
    split_ifs at hd with hcovers hinside
    · exact hrest hd
    · rw [coversInside_iff] at hinside
      obtain hd | hd := hd
      · obtain rfl | hd := List.mem_cons.1 hd
        · refine ⟨c, List.mem_cons_self, ?_⟩
          rw [new_of_le hinside.1.le]
          exact covers_iff.2 ⟨le_rfl, r.le.trans hinside.2.le⟩
        · exact ⟨d, List.mem_cons_of_mem c hd, covers_refl⟩
      · rw [List.mem_singleton] at hd
        subst hd
        refine ⟨c, List.mem_cons_self, ?_⟩
        rw [new_of_le hinside.2.le]
        exact covers_iff.2 ⟨hinside.1.le.trans r.le, le_rfl⟩
    · obtain hd | hd := hd
      · obtain rfl | hd := List.mem_cons.1 hd
        · exact ⟨c, List.mem_cons_self, covers_trimmed⟩
        · exact hrest (.inl hd)
      · exact hrest (.inr hd)

theorem Range.not_touches_of_covers {c d c' d' : Range τ} (h : c.touches d = false)
    (hc : c.covers c' = true) (hd : d.covers d' = true) : c'.touches d' = false := by
  rw [← Bool.not_eq_true] at h ⊢
  intro htouches
  have hleft := touches_of_covers hc htouches
  rw [touches_comm] at hleft
  have hboth := touches_of_covers hd hleft
  rw [touches_comm] at hboth
  exact h hboth

/-- A relation between any two ranges of the list, and between the halves of one that is cut, holds
between any two that are left. -/
theorem pairwise_cut {R : Range τ → Range τ → Prop} (hsymm : ∀ c d, R c d → R d c)
    (hpart : ∀ c c' d, R c d → c.covers c' = true → R c' d)
    (hhalves : ∀ c : Range τ, c.coversInside r = true → R (.new c.in_ r.in_) (.new r.out c.out))
    (h : l.Pairwise R) : ((cut r l).1 ++ (cut r l).2).Pairwise R := by
  induction l with
  | nil => exact List.Pairwise.nil
  | cons c l ih =>
    obtain ⟨hc, hl⟩ := List.pairwise_cons.1 h
    rw [cut]
    split_ifs with hcovers hinside
    · exact ih hl
    · have hsplit := hhalves c hinside
      rw [coversInside_iff] at hinside
      have hleft : c.covers (new c.in_ r.in_) = true := by
        rw [new_of_le hinside.1.le]
        exact covers_iff.2 ⟨le_rfl, r.le.trans hinside.2.le⟩
      have hright : c.covers (new r.out c.out) = true := by
        rw [new_of_le hinside.2.le]
        exact covers_iff.2 ⟨hinside.1.le.trans r.le, le_rfl⟩
      refine List.pairwise_append.2 ⟨List.pairwise_cons.2 ⟨fun d hd => ?_, hl⟩,
        List.pairwise_singleton _ _, fun d hd d' hd' => ?_⟩
      · exact hpart c _ d (hc d hd) hleft
      · rw [List.mem_singleton] at hd'
        subst hd'
        obtain rfl | hd := List.mem_cons.1 hd
        · exact hsplit
        · exact hsymm _ _ (hpart c _ d (hc d hd) hright)
    · refine List.pairwise_cons.2 ⟨fun d hd => ?_, ih hl⟩
      obtain ⟨d', hd', hcovers'⟩ := exists_covers_of_mem_cut (List.mem_append.1 hd)
      have htrimmed := hpart c _ d' (hc d' hd') (covers_trimmed (r := r))
      exact hsymm _ _ (hpart d' d _ (hsymm _ _ htrimmed) hcovers')

theorem Apart.cut (h : Apart l) (hr : r.in_ < r.out) : Apart ((cut r l).1 ++ (cut r l).2) := by
  refine pairwise_cut (fun c d hcd => ?_) (fun c c' d hcd hc => ?_) (fun c hinside => ?_) h
  · rwa [touches_comm]
  · exact not_touches_of_covers hcd hc covers_refl
  · rw [coversInside_iff] at hinside
    rw [← Bool.not_eq_true, touches_iff, new_of_le hinside.1.le,
      new_of_le hinside.2.le]
    exact fun htouches => absurd hr (not_lt.2 htouches.2)

theorem Apart.remove (h : Apart l) (hr : r.in_ < r.out) : Apart (removeRange l r) := h.cut hr

/-- What is left of a range that is neither covered nor cut in two. -/
theorem Range.contains_trimmed {r c : Range τ} (hcovers : r.covers c = false)
    (hinside : c.coversInside r = false) :
    (r.trimmed c).contains t = true ↔ c.contains t = true ∧ ¬ r.contains t = true := by
  have hr := r.le
  rw [← Bool.not_eq_true, covers_iff, not_and_or, not_le, not_le] at hcovers
  rw [← Bool.not_eq_true, coversInside_iff, not_and_or, not_lt, not_lt] at hinside
  rw [trimmed]
  split_ifs with hleft hright
  · have hout : c.out ≤ r.out := hinside.resolve_left (not_le.2 hleft.1)
    rw [new_of_le hleft.1.le, contains_iff, contains_iff, contains_iff, not_and_or, not_le, not_lt]
    constructor
    · rintro ⟨hin, hlt⟩
      exact ⟨⟨hin, hlt.trans hleft.2⟩, .inl hlt⟩
    · rintro ⟨⟨hin, hlt⟩, hbefore | hafter⟩
      · exact ⟨hin, hbefore⟩
      · exact absurd (hlt.trans_le hout) (not_lt.2 hafter)
  · have hin : r.in_ ≤ c.in_ := by
      refine le_of_not_gt fun hlt => hleft ⟨hlt, ?_⟩
      exact hr.trans_lt hright.2
    rw [new_of_le hright.2.le, contains_iff, contains_iff, contains_iff, not_and_or, not_le, not_lt]
    constructor
    · rintro ⟨hafter, hlt⟩
      exact ⟨⟨hright.1.le.trans hafter, hlt⟩, .inr hafter⟩
    · rintro ⟨⟨hge, hlt⟩, hbefore | hafter⟩
      · exact absurd (hin.trans hge) (not_le.2 hbefore)
      · exact ⟨hafter, hlt⟩
  · refine (and_iff_left_of_imp fun hc => ?_).symm
    rw [contains_iff] at hc ⊢
    rintro ⟨hin, hout⟩
    rcases hcovers with hlt | hlt
    · exact hleft ⟨hlt, hin.trans_lt hc.2⟩
    · exact hright ⟨hc.1.trans_lt hout, hlt⟩

/-- The ranges next to one that is cut in two share no point with what is taken out. -/
theorem Range.not_contains_of_coversInside {r c d : Range τ} (hinside : c.coversInside r = true)
    (h : c.out ≤ d.in_ ∨ d.out ≤ c.in_) (hd : d.contains t = true) : ¬ r.contains t = true := by
  rw [coversInside_iff] at hinside
  rw [contains_iff] at hd ⊢
  rintro ⟨hin, hout⟩
  rcases h with hafter | hbefore
  · exact absurd (hout.trans (hinside.2.trans_le (hafter.trans hd.1))) (lt_irrefl t)
  · exact absurd (hd.2.trans (hbefore.trans_lt (hinside.1.trans_le hin))) (lt_irrefl t)

/-- A subtraction covers what was covered outside the range. -/
theorem Parted.covered_removeRange (h : Parted l) :
    Covered (removeRange l r) t ↔ Covered l t ∧ ¬ r.contains t = true := by
  rw [removeRange]
  induction l with
  | nil => simp [cut]
  | cons c l ih =>
    obtain ⟨hc, hl⟩ := List.pairwise_cons.1 h
    rw [cut, covered_cons]
    split_ifs with hcovers hinside
    · rw [ih hl, or_and_right, iff_or_self]
      rintro ⟨hcontains, hnot⟩
      rw [covers_iff] at hcovers
      rw [contains_iff] at hcontains hnot
      exact absurd ⟨hcovers.1.trans hcontains.1, hcontains.2.trans_le hcovers.2⟩ hnot
    · -- the loop ends here, and none of the other ranges meets `r`
      have hrest : ∀ d ∈ l, d.contains t = true → ¬ r.contains t = true :=
        fun d hd => not_contains_of_coversInside hinside (hc d hd)
      rw [coversInside_iff] at hinside
      rw [covered_append, covered_cons, covered_cons, or_iff_left covered_nil,
        new_of_le hinside.1.le, new_of_le hinside.2.le, or_right_comm, or_and_right]
      refine or_congr ?_ ?_
      · simp only [contains_iff, not_and_or, not_le, not_lt]
        constructor
        · rintro (⟨hin, hlt⟩ | ⟨hge, hlt⟩)
          · exact ⟨⟨hin, hlt.trans_le (r.le.trans hinside.2.le)⟩, .inl hlt⟩
          · exact ⟨⟨(hinside.1.le.trans r.le).trans hge, hlt⟩, .inr hge⟩
        · rintro ⟨⟨hin, hlt⟩, hbefore | hafter⟩
          · exact .inl ⟨hin, hbefore⟩
          · exact .inr ⟨hafter, hlt⟩
      · refine (and_iff_left_of_imp ?_).symm
        rintro ⟨d, hd, hcontains⟩
        exact hrest d hd hcontains
    · rw [List.cons_append, covered_cons, ih hl, or_and_right, contains_trimmed
        (Bool.eq_false_iff.2 hcovers) (Bool.eq_false_iff.2 hinside)]

/-- Ranges that share at most an end stay so. -/
theorem Parted.remove (h : Parted l) (r : Range τ) : Parted (removeRange l r) := by
  refine pairwise_cut (fun c d hcd => hcd.symm) (fun c c' d hcd hc => ?_) (fun c hinside => ?_) h
  · rw [covers_iff] at hc
    exact hcd.imp hc.2.trans fun hbefore => hbefore.trans hc.1
  · rw [coversInside_iff] at hinside
    rw [new_of_le hinside.1.le, new_of_le hinside.2.le]
    exact Or.inl r.le

/-- Subtractions of any ranges cover what was covered outside all of them. -/
theorem Parted.covered_removeAll (h : Parted l) :
    Parted (rs.foldl removeRange l) ∧
      (Covered (rs.foldl removeRange l) t ↔ Covered l t ∧ ¬ Covered rs t) := by
  induction rs generalizing l with
  | nil => exact ⟨h, (and_iff_left covered_nil).symm⟩
  | cons r rs ih =>
    obtain ⟨hparted, hcovered⟩ := ih (h.remove r)
    refine ⟨hparted, hcovered.trans ?_⟩
    rw [h.covered_removeRange, covered_cons, not_or, and_assoc]

theorem Apart.parted (h : Apart l) : Parted l := by
  refine h.imp fun {c d} hcd => ?_
  rw [← Bool.not_eq_true, touches_iff, not_and_or, not_le, not_le] at hcd
  exact hcd.symm.imp le_of_lt le_of_lt

theorem covered_removeRange (h : Apart l) :
    Covered (removeRange l r) t ↔ Covered l t ∧ ¬ r.contains t = true :=
  h.parted.covered_removeRange

/-! ### Ascending order -/

/-- Each range ends before the next ones begin. -/
def Ascending (l : List (Range τ)) : Prop := l.Pairwise fun c d => c.out < d.in_

instance : Decidable (Ascending l) := inferInstanceAs (Decidable (l.Pairwise _))

theorem Range.not_touches_of_lt {c d : Range τ} (h : c.out < d.in_) : c.touches d = false := by
  rw [← Bool.not_eq_true, touches_iff]
  exact fun htouches => absurd htouches.2 (not_le.2 h)

theorem Ascending.apart (h : Ascending l) : Apart l := h.imp not_touches_of_lt

theorem Range.lt_or_lt_of_not_touches {c d : Range τ} (h : c.touches d = false) :
    c.out < d.in_ ∨ d.out < c.in_ := by
  rw [← Bool.not_eq_true, touches_iff, not_and_or, not_le, not_le] at h
  exact h.symm

/-- Ranges that are apart ascend when they are sorted by their begins. -/
theorem ascending_iff : Ascending l ↔ l.Pairwise (fun c d => c.in_ ≤ d.in_) ∧ Apart l := by
  refine ⟨fun h => ⟨h.imp fun {c d} hlt => c.le.trans hlt.le, h.apart⟩, fun ⟨hsorted, hapart⟩ => ?_⟩
  refine hsorted.imp₂ (fun c d hle htouches => ?_) hapart
  refine (lt_or_lt_of_not_touches htouches).resolve_right fun hlt => ?_
  exact absurd (hle.trans d.le) (not_le.2 hlt)

theorem Apart.mem_absorb (h : Apart l) {c : Range τ} (hc : c ∈ l) (hr : c.touches r = false) :
    c ∈ (absorb l r).1 := by
  induction l generalizing r with
  | nil => cases hc
  | cons d l ih =>
    obtain ⟨hd, hl⟩ := List.pairwise_cons.1 h
    rw [absorb]
    obtain rfl | hc := List.mem_cons.1 hc
    · rw [if_neg (by simp [hr])]
      exact List.mem_cons_self
    · split_ifs with htouches
      · have hapart := hd c hc
        rw [touches_comm] at hapart
        exact ih hl hc (not_touches_combined htouches hapart hr)
      · exact List.mem_cons_of_mem d (ih hl hc hr)

/-- The new range goes to the end of the list, so nothing may begin behind it. -/
theorem ascending_insertRange_iff (h : Ascending l) : Ascending (insertRange l r) ↔
    (∃ c ∈ l, c.covers r = true) ∨ ∀ c ∈ l, c.in_ ≤ r.out := by
  rw [insertRange]
  split_ifs with hany
  · exact iff_of_true h (.inl (List.any_eq_true.1 hany))
  rw [List.any_eq_true] at hany
  rw [or_iff_right hany, Ascending, List.pairwise_append]
  have hcovers := (covers_iff (r := (absorb l r).2) (c := r)).1 covers_absorb
  constructor
  · rintro ⟨-, -, hlast⟩ c hc
    by_contra hlt
    rw [not_le] at hlt
    have hkept : c ∈ (absorb l r).1 := h.apart.mem_absorb hc <| by
      rw [touches_comm]
      exact not_touches_of_lt hlt
    have hbefore := hlast c hkept _ List.mem_cons_self
    exact absurd ((c.le.trans_lt hbefore).trans_le hcovers.1) (not_lt.2 (r.le.trans hlt.le))
  · intro hbegin
    refine ⟨h.sublist absorb_sublist, List.pairwise_singleton _ _, fun c hc d hd => ?_⟩
    rw [List.mem_singleton] at hd
    subst hd
    refine (lt_or_lt_of_not_touches (h.apart.not_touches_of_mem_absorb hc)).resolve_right ?_
    exact not_lt.2 ((hbegin c (absorb_sublist.subset hc)).trans hcovers.2)

/-- The second half of a range that is cut in two goes to the end of the list. -/
theorem ascending_removeRange_iff (h : Ascending l) (hr : r.in_ < r.out) :
    Ascending (removeRange l r) ↔
      ∀ before c after, l = before ++ c :: after → c.coversInside r = true → after = [] := by
  rw [removeRange]
  induction l with
  | nil => exact iff_of_true List.Pairwise.nil fun _ _ _ heq => by simp at heq
  | cons c l ih =>
    obtain ⟨hc, hl⟩ := List.pairwise_cons.1 h
    have hsplit : (∀ before d after, c :: l = before ++ d :: after → d.coversInside r = true →
        after = []) ↔ (c.coversInside r = true → l = []) ∧
          ∀ before d after, l = before ++ d :: after → d.coversInside r = true → after = [] := by
      refine ⟨fun hall => ⟨hall [] c l rfl, fun before d after heq =>
        hall (c :: before) d after (by rw [heq, List.cons_append])⟩, fun ⟨hfirst, hrest⟩ => ?_⟩
      rintro (_ | ⟨b, before⟩) d after heq
      · obtain ⟨rfl, rfl⟩ := List.cons.inj heq
        exact hfirst
      · exact hrest before d after (List.cons.inj heq).2
    rw [hsplit, cut]
    split_ifs with hcovers hinside
    · rw [ih hl, iff_and_self]
      intro _ hinside
      rw [covers_iff] at hcovers
      rw [coversInside_iff] at hinside
      exact absurd hcovers.1 (not_le.2 hinside.1)
    · rw [coversInside_iff] at hinside
      rw [new_of_le hinside.1.le, new_of_le hinside.2.le]
      have hnone : ∀ before d after, l = before ++ d :: after → d.coversInside r = true →
          after = [] := by
        intro before d after heq hd
        rw [coversInside_iff] at hd
        have hlt := hc d (by simp [heq])
        exact absurd ((r.le.trans_lt hinside.2).trans hlt) (not_lt.2 hd.1.le)
      rw [and_iff_left hnone, coversInside_iff, forall_prop_of_true hinside]
      constructor
      · intro hall
        rcases l with _ | ⟨d, l⟩
        · rfl
        · have hlt := (List.pairwise_append.1 hall).2.2 d (by simp) _ List.mem_cons_self
          have hbefore := (hinside.2.trans (hc d List.mem_cons_self)).trans_le d.le
          exact absurd hlt (not_lt.2 hbefore.le)
      · rintro rfl
        exact List.pairwise_pair.2 hr
    · rw [and_iff_right fun h => absurd h hinside, ← ih hl, List.cons_append, Ascending,
        List.pairwise_cons, and_iff_right]
      · rfl
      intro d hd
      obtain ⟨d', hd', hcovers'⟩ := exists_covers_of_mem_cut (List.mem_append.1 hd)
      rw [covers_iff] at hcovers'
      have htrimmed := (covers_iff (r := c) (c := r.trimmed c)).1 covers_trimmed
      exact (htrimmed.2.trans_lt (hc d' hd')).trans_le hcovers'.1

/-! ### Inserting the ranges of a list -/

theorem mem_or_covers_absorb {c : Range τ} (hc : c ∈ l) :
    c ∈ (absorb l r).1 ∨ (absorb l r).2.covers c = true := by
  induction l generalizing r with
  | nil => cases hc
  | cons d l ih =>
    rw [absorb]
    split_ifs
    · obtain rfl | hc := List.mem_cons.1 hc
      · exact .inr (covers_trans covers_absorb covers_combined_left)
      · exact ih hc
    · obtain rfl | hc := List.mem_cons.1 hc
      · exact .inl List.mem_cons_self
      · exact (ih hc).imp_left (List.mem_cons_of_mem d)

theorem exists_covers_insertRange {c : Range τ} (hc : c ∈ l) :
    ∃ d ∈ insertRange l r, d.covers c = true := by
  rw [insertRange]
  split_ifs
  · exact ⟨c, hc, covers_refl⟩
  · obtain hkept | hcovers := mem_or_covers_absorb (r := r) hc
    · exact ⟨c, List.mem_append_left _ hkept, covers_refl⟩
    · exact ⟨_, List.mem_append_right _ List.mem_cons_self, hcovers⟩

theorem exists_covers_insertAll (rs : List (Range τ)) {c : Range τ}
    (hc : ∃ d ∈ l, d.covers c = true) : ∃ d ∈ rs.foldl insertRange l, d.covers c = true := by
  induction rs generalizing l with
  | nil => exact hc
  | cons r rs ih =>
    obtain ⟨d, hd, hcovers⟩ := hc
    obtain ⟨d', hd', hcovers'⟩ := exists_covers_insertRange (r := r) hd
    exact ih ⟨d', hd', covers_trans hcovers' hcovers⟩

theorem absorb_of_covers (h : ∀ c ∈ l, c.touches r = true → r.covers c = true) :
    absorb l r = (l.filter fun c => !c.touches r, r) := by
  induction l with
  | nil => rfl
  | cons c l ih =>
    have hrest := ih fun d hd => h d (List.mem_cons_of_mem c hd)
    rw [absorb]
    split_ifs with htouches
    · rw [combined_of_covers (h c List.mem_cons_self htouches), hrest,
        List.filter_cons_of_neg (by simp [htouches])]
    · rw [hrest, List.filter_cons_of_pos (by simp [htouches])]

/-- The ranges of `l` that are not part of a range of `rs` other than themselves. -/
def leftOver (l rs : List (Range τ)) : List (Range τ) :=
  l.filter fun c => rs.all fun r => !r.covers c || decide (c = r)

theorem Apart.eq_of_touches (h : Apart l) {c d : Range τ} (hc : c ∈ l) (hd : d ∈ l)
    (htouches : c.touches d = true) : c = d := by
  induction l with
  | nil => cases hc
  | cons e l ih =>
    obtain ⟨he, hl⟩ := List.pairwise_cons.1 h
    obtain hc' | hc' := List.mem_cons.1 hc
    · obtain hd' | hd' := List.mem_cons.1 hd
      · rw [hc', hd']
      · exact absurd ((hc' ▸ he d hd').symm.trans htouches) (by decide)
    · obtain hd' | hd' := List.mem_cons.1 hd
      · rw [touches_comm] at htouches
        exact absurd ((hd' ▸ he c hc').symm.trans htouches) (by decide)
      · exact ih hl hc' hd'

theorem Range.touches_of_covers_self {r c : Range τ} (h : r.covers c = true) :
    c.touches r = true := by
  rw [touches_comm]
  exact touches_of_covers h touches_self

/-- The next range of a list whose ranges are apart is inserted. -/
theorem insertRange_leftOver (hl : Apart l) (hrs : Apart (rs ++ [r]))
    (hcovered : ∀ c ∈ l, c.touches r = true → r.covers c = true) :
    insertRange (leftOver l rs ++ rs.filter fun d => d ∉ l) r =
      leftOver l (rs ++ [r]) ++ (rs ++ [r]).filter fun d => d ∉ l := by
  have hold (d : Range τ) (hd : d ∈ rs) : d.touches r = false :=
    (List.pairwise_append.1 hrs).2.2 d hd r List.mem_cons_self
  have htouching (c : Range τ) (hc : c ∈ leftOver l rs ++ rs.filter fun d => d ∉ l)
      (htouches : c.touches r = true) : c ∈ l ∧ r.covers c = true := by
    obtain hc | hc := List.mem_append.1 hc
    · have hmem := (List.mem_filter.1 hc).1
      exact ⟨hmem, hcovered c hmem htouches⟩
    · exact absurd ((hold c (List.mem_filter.1 hc).1).symm.trans htouches) (by decide)
  by_cases hmem : r ∈ l
  · -- `r` is there already, and nothing else touches it
    have hkept : r ∈ leftOver l rs := by
      refine List.mem_filter.2 ⟨hmem, List.all_eq_true.2 fun d hd => ?_⟩
      have hnot : d.covers r = false := by
        rw [← Bool.not_eq_true]
        intro hcovers
        have htouches := touches_of_covers_self hcovers
        rw [touches_comm] at htouches
        exact absurd ((hold d hd).symm.trans htouches) (by decide)
      rw [hnot]
      rfl
    have hsame : leftOver l (rs ++ [r]) = leftOver l rs := by
      refine List.filter_congr fun c hc => ?_
      have hself : (!r.covers c || decide (c = r)) = true := by
        by_cases hcovers : r.covers c = true
        · simp [hl.eq_of_touches hc hmem (touches_of_covers_self hcovers)]
        · simp [hcovers]
      rw [List.all_append, List.all_cons, hself, List.all_nil]
      simp
    have hany : ((leftOver l rs ++ rs.filter fun d => d ∉ l).any fun c => c.covers r) = true :=
      List.any_eq_true.2 ⟨r, List.mem_append_left _ hkept, covers_refl⟩
    rw [insertRange, if_pos hany, hsame, List.filter_append,
      List.filter_cons_of_neg (by simp [hmem]),
      List.filter_nil, List.append_nil]
  · -- what touches `r` is part of it, and `r` replaces it
    rw [insertRange, if_neg]
    · rw [absorb_of_covers fun c hc htouches => (htouching c hc htouches).2]
      dsimp only
      rw [List.filter_append, List.filter_append, List.filter_cons_of_pos (by simp [hmem]),
        List.filter_nil, ← List.append_assoc]
      congr 2
      · rw [leftOver, List.filter_filter]
        refine List.filter_congr fun c hc => ?_
        have hne : c ≠ r := fun heq => hmem (heq ▸ hc)
        have hiff : c.touches r = r.covers c := by
          rw [Bool.eq_iff_iff]
          exact ⟨hcovered c hc, touches_of_covers_self⟩
        rw [List.all_append, List.all_cons, List.all_nil, hiff]
        simp [hne, Bool.and_comm]
      · refine List.filter_eq_self.2 fun d hd => ?_
        rw [hold d (List.mem_filter.1 hd).1]
        rfl
    · intro hany
      obtain ⟨c, hc, hcovers⟩ := List.any_eq_true.1 hany
      have htouches := touches_of_covers_self hcovers
      rw [touches_comm] at htouches
      obtain ⟨hcl, hback⟩ := htouching c hc htouches
      exact hmem (covers_antisymm hcovers hback ▸ hcl)

/-- The ranges of `l` are parts of those of `rs`. -/
def Within (l rs : List (Range τ)) : Prop := ∀ c ∈ l, ∃ r ∈ rs, r.covers c = true

theorem insertAll_leftOver (rs : List (Range τ)) {rest : List (Range τ)} (hl : Apart l)
    (hrs : Apart (rs ++ rest)) (hwithin : Within l (rs ++ rest)) :
    rest.foldl insertRange (leftOver l rs ++ rs.filter fun d => d ∉ l) =
      leftOver l (rs ++ rest) ++ (rs ++ rest).filter fun d => d ∉ l := by
  induction rest generalizing rs with
  | nil => rw [List.append_nil, List.foldl_nil]
  | cons r rest ih =>
    have hsplit : rs ++ r :: rest = rs ++ [r] ++ rest := by simp
    rw [hsplit] at hrs hwithin ⊢
    rw [List.foldl_cons, insertRange_leftOver hl (List.pairwise_append.1 hrs).1]
    · exact ih _ hrs hwithin
    · intro c hc htouches
      obtain ⟨d, hd, hcovers⟩ := hwithin c hc
      have heq : d = r := hrs.eq_of_touches hd (by simp) (touches_of_covers hcovers htouches)
      exact heq ▸ hcovers

/-- Inserting ranges that are apart gives just these exactly when what was there is covered, and
what was there of them came first. -/
theorem insertAll_eq_iff (hl : Apart l) (hrs : Apart rs) :
    rs.foldl insertRange l = rs ↔ Within l rs ∧ (l.filter fun c => c ∈ rs) <+: rs := by
  have hresult (hwithin : Within l rs) : rs.foldl insertRange l =
      (l.filter fun c => c ∈ rs) ++ rs.filter fun d => d ∉ l := by
    have hstart : leftOver l [] ++ ([] : List (Range τ)).filter (fun d => d ∉ l) = l := by
      simp [leftOver]
    have hall := insertAll_leftOver [] hl hrs hwithin
    rw [hstart, List.nil_append] at hall
    rw [hall]
    congr 1
    refine List.filter_congr fun c hc => ?_
    rw [Bool.eq_iff_iff, List.all_eq_true, decide_eq_true_iff]
    constructor
    · intro hparts
      obtain ⟨r, hr, hcovers⟩ := hwithin c hc
      have heq : c = r := by simpa [hcovers] using hparts r hr
      exact heq ▸ hr
    · intro hmem r hr
      by_cases hcovers : r.covers c = true
      · simp [hrs.eq_of_touches hmem hr (touches_of_covers_self hcovers)]
      · simp [hcovers]
  constructor
  · intro heq
    have hwithin : Within l rs := fun c hc => by
      obtain ⟨d, hd, hcovers⟩ := exists_covers_insertAll rs ⟨c, hc, covers_refl⟩
      rw [heq] at hd
      exact ⟨d, hd, hcovers⟩
    exact ⟨hwithin, _, (hresult hwithin).symm.trans heq⟩
  · rintro ⟨hwithin, rest, hprefix⟩
    rw [hresult hwithin]
    conv_rhs => rw [← hprefix]
    congr 1
    have hrest : rs.filter (fun d => d ∉ l) = rest := by
      rw [← hprefix, List.filter_append, List.filter_eq_nil_iff.2, List.nil_append,
        List.filter_eq_self.2]
      · intro d hd
        rw [decide_eq_true_iff]
        intro hmem
        have hfirst : d ∈ l.filter fun c => c ∈ rs := by
          refine List.mem_filter.2 ⟨hmem, decide_eq_true ?_⟩
          rw [← hprefix]
          exact List.mem_append_right _ hd
        rw [← hprefix] at hrs
        have hnot := (List.pairwise_append.1 hrs).2.2 d hfirst d hd
        exact absurd (hnot.symm.trans touches_self) (by decide)
      · intro d hd
        simp [(List.mem_filter.1 hd).1]
    exact hrest

theorem insertAll_nil (hrs : Apart rs) : rs.foldl insertRange [] = rs :=
  (insertAll_eq_iff List.Pairwise.nil hrs).2 ⟨fun _ hc => absurd hc List.not_mem_nil, rs, rfl⟩

end Oak.Lib
