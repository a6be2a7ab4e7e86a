import Mathlib.Order.Lattice
import Mathlib.Data.List.Basic

/-!
# Ordered sets

Finite sets as strictly increasing lists, as an ordered set container iterates them.

* `OrdSet.insert`, `erase` and `filter` are the operations; membership is membership in the list.

## Main results

* `OrdSet.mem_insert`, `mem_erase`, `mem_filter`: the operations as sets.
* `OrdSet.ext_mem`: two ordered sets with the same elements are equal.
-/

namespace Oak.Lib

/-- A finite set as the strictly increasing list of its elements. -/
@[ext] structure OrdSet (α : Type*) [LT α] where
  toList : List α
  sorted : toList.Pairwise (· < ·)

namespace OrdSet

variable {α : Type*} [LinearOrder α]

instance : Membership α (OrdSet α) := ⟨fun s a => a ∈ s.toList⟩

variable {s : OrdSet α} {a : α}

theorem mem_toList : a ∈ s.toList ↔ a ∈ s := Iff.rfl

instance (a : α) (s : OrdSet α) : Decidable (a ∈ s) :=
  inferInstanceAs (Decidable (a ∈ s.toList))

instance : DecidableEq (OrdSet α) := fun s t =>
  decidable_of_iff (s.toList = t.toList) OrdSet.ext_iff.symm

/-- The empty set. -/
def empty : OrdSet α := ⟨[], .nil⟩

instance : EmptyCollection (OrdSet α) := ⟨empty⟩

@[simp] theorem notMem_empty (a : α) : a ∉ (∅ : OrdSet α) := List.not_mem_nil

/-- Put `a` in its place, unless it is there. -/
def insertList (a : α) : List α → List α
  | [] => [a]
  | b :: l => if a < b then a :: b :: l else if a = b then b :: l else b :: insertList a l

theorem mem_insertList {a b : α} {l : List α} : b ∈ insertList a l ↔ b = a ∨ b ∈ l := by
  induction l with
  | nil => simp [insertList]
  | cons c l ih =>
    rw [insertList]
    split_ifs with hlt heq
    · rw [List.mem_cons]
    · simp [heq]
    · rw [List.mem_cons, ih, List.mem_cons]
      tauto

theorem sorted_insertList {l : List α} (hl : l.Pairwise (· < ·)) :
    (insertList a l).Pairwise (· < ·) := by
  induction l with
  | nil => simp [insertList]
  | cons c l ih =>
    rw [List.pairwise_cons] at hl
    rw [insertList]
    split_ifs with hlt heq
    · rw [List.pairwise_cons, List.pairwise_cons]
      refine ⟨fun b hb => ?_, hl⟩
      rcases List.mem_cons.1 hb with rfl | hb
      · exact hlt
      · exact hlt.trans (hl.1 b hb)
    · exact List.pairwise_cons.2 hl
    · refine List.pairwise_cons.2 ⟨fun b hb => ?_, ih hl.2⟩
      rcases mem_insertList.1 hb with rfl | hb
      · exact lt_of_le_of_ne (not_lt.1 hlt) (Ne.symm heq)
      · exact hl.1 b hb

/-- Insert an element. -/
def insert (s : OrdSet α) (a : α) : OrdSet α := ⟨insertList a s.toList, sorted_insertList s.sorted⟩

/-- The elements that satisfy `p`. -/
def filter (s : OrdSet α) (p : α → Bool) : OrdSet α := ⟨s.toList.filter p, s.sorted.filter p⟩

/-- Remove an element. -/
def erase (s : OrdSet α) (a : α) : OrdSet α := s.filter fun b => b ≠ a

@[simp] theorem mem_insert {a b : α} : b ∈ s.insert a ↔ b = a ∨ b ∈ s :=
  mem_insertList

@[simp] theorem mem_filter {p : α → Bool} : a ∈ s.filter p ↔ a ∈ s ∧ p a = true := List.mem_filter

@[simp] theorem mem_erase {a b : α} : b ∈ s.erase a ↔ b ∈ s ∧ b ≠ a := by
  simp [erase]

theorem filter_insert_of_neg {p : α → Bool} (ha : p a = false) :
    (s.insert a).toList.filter p = s.toList.filter p := by
  have hlist (l : List α) : (insertList a l).filter p = l.filter p := by
    induction l with
    | nil => simp [insertList, ha]
    | cons b l ih =>
      rw [insertList]
      split_ifs with hlt heq
      · rw [List.filter_cons_of_neg (by simp [ha])]
      · rfl
      · rw [List.filter_cons, List.filter_cons, ih]
  exact hlist s.toList

/-- Two ordered sets with the same elements are equal. -/
theorem ext_mem {s t : OrdSet α} (h : ∀ a, a ∈ s ↔ a ∈ t) : s = t := by
  have hperm : s.toList.Perm t.toList :=
    (List.perm_ext_iff_of_nodup (s.sorted.imp ne_of_lt) (t.sorted.imp ne_of_lt)).2 h
  exact OrdSet.ext (hperm.eq_of_pairwise (fun _ _ _ _ hab hba => absurd hab hba.asymm)
    s.sorted t.sorted)

end OrdSet

end Oak.Lib
