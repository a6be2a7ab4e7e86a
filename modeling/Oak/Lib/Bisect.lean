import Mathlib.Data.List.Basic
import Mathlib.Data.Nat.Notation

/-!
# Binary search

The place in a list up to which a test holds, found by halving.

## Main results

* `partitionPoint_eq`: the search finds the place when there is one.
-/

namespace Oak.Lib

variable {α : Type*} {p : α → Bool} {l : List α} {m : ℕ}

/-- The loop of the search, with `size` elements left from `base` on. -/
def bisect (p : α → Bool) (l : List α) (base size : ℕ) : ℕ :=
  if 1 < size then
    let half := size / 2
    let mid := base + half
    bisect p l (if l[mid]?.any p then mid else base) (size - half)
  else if l[base]?.any p then base + 1
  else base
termination_by size

/-- The place up to which a test holds. -/
def partitionPoint (p : α → Bool) (l : List α) : ℕ :=
  if l.length = 0 then 0 else bisect p l 0 l.length

/-- The test holds up to a place, and from there on it does not. -/
def IsPartition (p : α → Bool) (l : List α) (m : ℕ) : Prop :=
  m ≤ l.length ∧ ∀ i a, l[i]? = some a → (p a = true ↔ i < m)

theorem IsPartition.any (h : IsPartition p l m) {i : ℕ} (hi : i < l.length) :
    l[i]?.any p = true ↔ i < m := by
  rw [List.getElem?_eq_getElem hi, Option.any_some]
  exact h.2 i _ (List.getElem?_eq_getElem hi)

/-- The place stays between `base` and the end of what is left. -/
theorem bisect_eq (h : IsPartition p l m) {base size : ℕ} (hpos : 0 < size)
    (hend : base + size ≤ l.length) (hlower : base ≤ m) (hupper : m ≤ base + size) :
    bisect p l base size = m := by
  fun_induction bisect p l base size with
  | case1 base size hsize half mid ih =>
    refine ih (by omega) ?_ ?_ ?_
    · split_ifs <;> omega
    · split_ifs with hany
      · exact Nat.le_of_lt ((h.any (by omega)).1 hany)
      · exact hlower
    · split_ifs with hany
      · omega
      · have hnot := mt (h.any (by omega)).2 hany
        omega
  | case2 base size hsize hany =>
    have hlt := (h.any (by omega)).1 hany
    omega
  | case3 base size hsize hany =>
    have hnot := mt (h.any (by omega)).2 hany
    omega

/-- The search finds the place. -/
theorem partitionPoint_eq (h : IsPartition p l m) : partitionPoint p l = m := by
  have hle := h.1
  rw [partitionPoint]
  split_ifs with hempty
  · omega
  · exact bisect_eq h (by omega) (by omega) (by omega) (by omega)

/-- In an ascending list a test that holds for the smaller ones has a place. -/
theorem exists_isPartition {r : α → α → Prop} (hsorted : l.Pairwise r)
    (hp : ∀ a b, r a b → p b = true → p a = true) :
    IsPartition p l (l.takeWhile p).length := by
  induction l with
  | nil => exact ⟨Nat.le_refl _, fun i a ha => by simp at ha⟩
  | cons b l ih =>
    obtain ⟨hhead, htail⟩ := List.pairwise_cons.1 hsorted
    by_cases hb : p b = true
    · rw [List.takeWhile_cons_of_pos hb]
      obtain ⟨hle, hiff⟩ := ih htail
      refine ⟨Nat.succ_le_succ hle, fun i a ha => ?_⟩
      rcases i with _ | i
      · rw [List.getElem?_cons_zero] at ha
        rw [← Option.some.inj ha]
        exact iff_of_true hb (Nat.succ_pos _)
      · rw [List.getElem?_cons_succ] at ha
        exact (hiff i a ha).trans Nat.succ_lt_succ_iff.symm
    · rw [List.takeWhile_cons_of_neg hb]
      refine ⟨Nat.zero_le _, fun i a ha => iff_of_false (fun hpa => hb ?_) (Nat.not_lt_zero i)⟩
      rcases List.mem_cons.1 (List.mem_of_getElem? ha) with rfl | hmem
      · exact hpa
      · exact hp b a (hhead a hmem) hpa

theorem insertIdx_append {α : Type*} (l l' : List α) (a : α) :
    (l ++ l').insertIdx l.length a = l ++ a :: l' := by
  induction l with
  | nil => rfl
  | cons z l ih => rw [List.cons_append, List.length_cons, List.insertIdx_succ_cons, ih]; rfl

end Oak.Lib
