import Mathlib.Algebra.Order.Archimedean.Basic
import Mathlib.Data.List.Basic

/-!
# Lanes

A lane is a list of half-open segments, one behind the other, each with a value at every one of
its points. What the lane shows at a point is the value of the segment over it.

* `InOrder l`: no segment is empty, and each ends before the next begins.
* `cover l t`: what the lane shows at `t`.

## Main results

* `cover_of_mem`: in a lane in order, what is shown at a point is the value of any segment over it.
* `exists_append_of_pairwise`: where to cut a list in two.
* `eq_none_of_shift`: a lane that shows the same everywhere a fixed distance later shows nothing.
-/

namespace Oak.Lib

/-- A half-open segment with a value at each of its points. -/
structure Segment (α V : Type*) where
  lo : α
  hi : α
  val : α → V

namespace Segment

variable {α V : Type*} [LinearOrder α]

/-- The point lies on the segment. -/
def Over (s : Segment α V) (t : α) : Prop := s.lo ≤ t ∧ t < s.hi

instance (s : Segment α V) (t : α) : Decidable (s.Over t) :=
  inferInstanceAs (Decidable (_ ∧ _))

/-- No segment is empty, and each ends before the next begins. -/
def InOrder (l : List (Segment α V)) : Prop :=
  (∀ s ∈ l, s.lo < s.hi) ∧ l.Pairwise fun s s' => s.hi ≤ s'.lo

/-- What a lane shows at a point. -/
def cover (l : List (Segment α V)) (t : α) : Option V :=
  (l.find? fun s => s.Over t).map fun s => s.val t

variable {l l' : List (Segment α V)} {s : Segment α V} {t : α}

theorem cover_nil (t : α) : cover ([] : List (Segment α V)) t = none := rfl

theorem cover_append (l l' : List (Segment α V)) (t : α) :
    cover (l ++ l') t = (cover l t).or (cover l' t) := by
  rw [cover, cover, cover, List.find?_append]
  cases l.find? fun s => decide (s.Over t) <;> rfl

theorem cover_cons (s : Segment α V) (l : List (Segment α V)) (t : α) :
    cover (s :: l) t = if s.Over t then some (s.val t) else cover l t := by
  by_cases h : s.Over t <;> simp [cover, h]

theorem cover_eq_none_iff : cover l t = none ↔ ∀ s ∈ l, ¬ s.Over t := by
  simp [cover]

theorem cover_of_lt (h : ∀ s ∈ l, t < s.lo) : cover l t = none :=
  cover_eq_none_iff.2 fun s hs hover => absurd hover.1 (not_le.2 (h s hs))

theorem cover_of_le (h : ∀ s ∈ l, s.hi ≤ t) : cover l t = none :=
  cover_eq_none_iff.2 fun s hs hover => absurd hover.2 (not_lt.2 (h s hs))

theorem inOrder_cons : InOrder (s :: l) ↔ s.lo < s.hi ∧ InOrder l ∧ ∀ s' ∈ l, s.hi ≤ s'.lo := by
  simp only [InOrder, List.forall_mem_cons, List.pairwise_cons]
  tauto

/-- In a lane in order, what is shown at a point is the value of any segment over it. -/
theorem cover_of_mem (h : InOrder l) (hs : s ∈ l) (hover : s.Over t) :
    cover l t = some (s.val t) := by
  induction l with
  | nil => exact absurd hs List.not_mem_nil
  | cons r l ih =>
    obtain ⟨-, hl, hr⟩ := inOrder_cons.1 h
    rw [cover_cons]
    rcases List.mem_cons.1 hs with rfl | hs
    · rw [if_pos hover]
    · rw [if_neg fun hrt => absurd (hrt.2.trans_le (hr s hs)) (not_lt.2 hover.1)]
      exact ih hl hs

theorem exists_cover_eq_none [Nonempty α] (l : List (Segment α V)) :
    ∃ b, ∀ t, b ≤ t → cover l t = none := by
  induction l with
  | nil => exact ⟨Classical.arbitrary α, fun t _ => rfl⟩
  | cons s l ih =>
    obtain ⟨b, hb⟩ := ih
    refine ⟨max b s.hi, fun t ht => ?_⟩
    rw [cover_cons, if_neg fun hover => absurd hover.2 (not_lt.2 (le_trans (le_max_right _ _) ht))]
    exact hb t (le_trans (le_max_left _ _) ht)

/-- A list of which every element with a property comes before all elements without it. -/
theorem exists_append_of_pairwise {γ : Type*} (p : γ → Prop) {l : List γ}
    (h : l.Pairwise fun a b => p b → p a) :
    ∃ l₁ l₂, l = l₁ ++ l₂ ∧ (∀ a ∈ l₁, p a) ∧ ∀ a ∈ l₂, ¬ p a := by
  induction l with
  | nil => exact ⟨[], [], rfl, by simp, by simp⟩
  | cons a l ih =>
    obtain ⟨ha, hl⟩ := List.pairwise_cons.1 h
    obtain ⟨l₁, l₂, rfl, h₁, h₂⟩ := ih hl
    by_cases hpa : p a
    · exact ⟨a :: l₁, l₂, rfl, List.forall_mem_cons.2 ⟨hpa, h₁⟩, h₂⟩
    · refine ⟨[], a :: (l₁ ++ l₂), rfl, by simp, List.forall_mem_cons.2 ⟨hpa, fun b hb hpb => ?_⟩⟩
      exact hpa (ha b hb hpb)

section Shift

variable {α V : Type*} [AddCommGroup α] [LinearOrder α] [IsOrderedAddMonoid α] [Archimedean α]
  {l : List (Segment α V)} {a d : α}

/-- A lane that shows the same everywhere a fixed distance later shows nothing. -/
theorem eq_none_of_shift (hd : 0 < d)
    (h : ∀ t, a ≤ t → (cover l t).isSome = (cover l (t + d)).isSome) {t : α} (ht : a ≤ t) :
    cover l t = none := by
  have hshift (n : ℕ) : (cover l t).isSome = (cover l (t + n • d)).isSome := by
    induction n with
    | zero => rw [zero_nsmul, add_zero]
    | succ n ih =>
      rw [ih, h _ (ht.trans (le_add_of_nonneg_right (nsmul_nonneg hd.le n))), succ_nsmul, add_assoc]
  obtain ⟨b, hb⟩ := exists_cover_eq_none l
  obtain ⟨n, hn⟩ := Archimedean.arch (b - t) hd
  have hfar : b ≤ t + n • d := by rwa [sub_le_iff_le_add'] at hn
  have hnone := hshift n
  rw [hb _ hfar, Option.isSome_none, Option.isSome_eq_false_iff, Option.isNone_iff_eq_none] at hnone
  exact hnone

end Shift

end Segment

end Oak.Lib
