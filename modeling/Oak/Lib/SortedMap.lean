import Mathlib.Data.List.Lex
import Mathlib.Data.List.Nodup
import Mathlib.Order.Lattice
import Oak.Lib.Assoc

/-!
# Maps that are sorted by their keys

A map is the list of its entries, in the order of their keys.

## Main results

* `lookup_insertKey`: what is found after an insertion.
* `sorted_insertKey`: an insertion keeps the order.
* `foldl_eq_of_unchanged`, `exists_foldl_middle`: what a loop leaves alone, and what only one of its
  rounds touches.
-/

namespace Oak.Lib

section SortedMap

variable {κ γ : Type*} [LinearOrder κ] {k a : κ} {v : γ} {m : List (κ × γ)}

/-- The entry of a key is set. -/
def insertKey (k : κ) (v : γ) : List (κ × γ) → List (κ × γ)
  | [] => [(k, v)]
  | x :: m =>
    if k < x.1 then (k, v) :: x :: m
    else if k = x.1 then (k, v) :: m
    else x :: insertKey k v m

/-- The keys ascend. -/
def Sorted (m : List (κ × γ)) : Prop := (m.map Prod.fst).Pairwise (· < ·)

theorem sorted_nil : Sorted ([] : List (κ × γ)) := List.Pairwise.nil

theorem Sorted.nodup (h : Sorted m) : (m.map Prod.fst).Nodup := List.Pairwise.imp ne_of_lt h

theorem mem_insertKey {x : κ × γ} (h : x ∈ insertKey k v m) : x = (k, v) ∨ x ∈ m := by
  induction m with
  | nil => exact .inl (List.mem_singleton.1 h)
  | cons y m ih =>
    rw [insertKey] at h
    split_ifs at h with hlt heq
    · exact List.mem_cons.1 h
    · exact (List.mem_cons.1 h).imp id (List.mem_cons_of_mem y)
    · rcases List.mem_cons.1 h with rfl | h
      · exact .inr List.mem_cons_self
      · exact (ih h).imp id (List.mem_cons_of_mem y)

/-- An insertion keeps the order. -/
theorem sorted_insertKey (h : Sorted m) (k : κ) (v : γ) : Sorted (insertKey k v m) := by
  induction m with
  | nil => exact List.pairwise_singleton _ k
  | cons x m ih =>
    have hcons := h
    rw [Sorted, List.map_cons, List.pairwise_cons] at hcons
    obtain ⟨hhead, htail⟩ := hcons
    rw [insertKey]
    split_ifs with hlt heq
    · rw [Sorted, List.map_cons, List.pairwise_cons]
      refine ⟨fun b hb => ?_, h⟩
      rcases List.mem_cons.1 hb with rfl | hb
      · exact hlt
      · exact hlt.trans (hhead b hb)
    · rw [Sorted, List.map_cons, List.pairwise_cons]
      exact ⟨fun b hb => heq ▸ hhead b hb, htail⟩
    · rw [Sorted, List.map_cons, List.pairwise_cons]
      refine ⟨fun b hb => ?_, ih htail⟩
      obtain ⟨y, hy, rfl⟩ := List.mem_map.1 hb
      rcases mem_insertKey hy with rfl | hy
      · exact lt_of_le_of_ne (not_lt.1 hlt) (Ne.symm heq)
      · exact hhead _ (List.mem_map_of_mem hy)

/-- What is found after an insertion. -/
theorem lookup_insertKey [BEq κ] [LawfulBEq κ] (k a : κ) (v : γ) (m : List (κ × γ)) :
    (insertKey k v m).lookup a = if a = k then some v else m.lookup a := by
  have hcons (x : κ × γ) (m : List (κ × γ)) :
      List.lookup a (x :: m) = if a = x.1 then some x.2 else m.lookup a := by
    rw [List.lookup_cons]
    by_cases ha : a = x.1
    · rw [beq_iff_eq.2 ha, if_pos ha]
    · rw [beq_eq_false_iff_ne.2 ha, if_neg ha]
  induction m with
  | nil => exact hcons (k, v) []
  | cons x m ih =>
    rw [insertKey]
    by_cases hlt : k < x.1
    · rw [if_pos hlt, hcons]
    rw [if_neg hlt]
    by_cases heq : k = x.1
    · rw [if_pos heq, hcons, hcons]
      split_ifs with ha
      · rfl
      · exact absurd (heq ▸ ‹a = x.1›) ha
      · rfl
    · rw [if_neg heq, hcons, hcons, ih]
      split_ifs with ha hk
      · exact absurd (hk.symm.trans ha) heq
      · rfl
      · rfl
      · rfl

end SortedMap

section Loop

variable {σ α ω : Type*} {f : σ → α → σ} {g : σ → ω} {l : List α}

/-- What no round touches stays. -/
theorem foldl_eq_of_unchanged (h : ∀ x ∈ l, ∀ s, g (f s x) = g s) (s : σ) :
    g (l.foldl f s) = g s := by
  induction l generalizing s with
  | nil => rfl
  | cons x l ih =>
    rw [List.foldl_cons, ih fun y hy => h y (List.mem_cons_of_mem x hy)]
    exact h x List.mem_cons_self s

/-- What only one round touches is what this round makes of it. -/
theorem exists_foldl_middle {x : α} {l' : List α} (h : ∀ y ∈ l, ∀ s, g (f s y) = g s)
    (h' : ∀ y ∈ l', ∀ s, g (f s y) = g s) (s : σ) :
    ∃ t, g t = g s ∧ g ((l ++ x :: l').foldl f s) = g (f t x) := by
  refine ⟨l.foldl f s, foldl_eq_of_unchanged h s, ?_⟩
  rw [List.foldl_append, List.foldl_cons, foldl_eq_of_unchanged h']

end Loop

end Oak.Lib
