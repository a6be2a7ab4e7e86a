import Mathlib.Data.List.Basic
import Mathlib.Data.List.GetD
import Mathlib.Algebra.Order.Group.Unbundled.Int
import Mathlib.Data.Nat.Cast.Order.Basic

/-!
# Signals in pieces

A list of samples is a signal on all integers, with silence before its first sample and behind its
last one.

* `valueAt silence xs n` is the sample at `n`, `window f a n` are the values of `f` at the `n`
  integers from `a` on.
* `overwrite dest k xs` is `dest` with `xs` in place of its samples from `k` on; `modifyFrom` changes
  samples where they are.
* `startOf pieces k` is where the piece `k` of a list of pieces begins, when they are put one
  behind the other.

## Main results

* `window_append`: consecutive windows make one window.
* `getD_overwrite`, `getD_modifyFrom`: what is where after a change.
* `valueAt_flatten`: the samples of a piece are found where the piece begins.
* `startOf_succ`, `flatten_drop_startOf`: where the pieces begin.
-/

namespace Oak.Lib

variable {α : Type*} {silence : α}

/-- The sample at `n`. -/
def valueAt (silence : α) (xs : List α) (n : ℤ) : α :=
  if n < 0 then silence else xs.getD n.toNat silence

variable {xs : List α}

theorem valueAt_of_neg {n : ℤ} (h : n < 0) : valueAt silence xs n = silence :=
  if_pos h

@[simp] theorem valueAt_natCast (xs : List α) (n : ℕ) :
    valueAt silence xs n = xs.getD n silence := by
  rw [valueAt, if_neg (by omega), Int.toNat_natCast]

theorem valueAt_of_length_le {n : ℤ} (h : (xs.length : ℤ) ≤ n) :
    valueAt silence xs n = silence := by
  obtain ⟨m, rfl⟩ := Int.eq_ofNat_of_zero_le (show 0 ≤ n by omega)
  rw [valueAt_natCast]
  exact List.getD_eq_default _ _ (by omega)

/-! ### Windows -/

/-- The values at the `n` integers from `start` on. -/
def window (f : ℤ → α) (start : ℤ) (n : ℕ) : List α := (List.range n).map fun i : ℕ => f (start + i)

@[simp] theorem length_window (f : ℤ → α) (start : ℤ) (n : ℕ) : (window f start n).length = n := by
  rw [window, List.length_map, List.length_range]

theorem getD_window {f : ℤ → α} {start : ℤ} {n i : ℕ} (hi : i < n) :
    (window f start n).getD i silence = f (start + i) := by
  simp [window, hi]

theorem window_append (f : ℤ → α) (start : ℤ) (m n : ℕ) :
    window f start m ++ window f (start + m) n = window f start (m + n) := by
  rw [window, window, window, List.range_add, List.map_append, List.map_map]
  congr 1
  refine List.map_congr_left fun i _ => ?_
  rw [Function.comp_apply, Int.natCast_add, add_assoc]

/-- A list is a window when it has its length and its values. -/
theorem eq_window (silence : α) {f : ℤ → α} {start : ℤ} {n : ℕ} (hlength : xs.length = n)
    (hvalue : ∀ i < n, xs.getD i silence = f (start + i)) : xs = window f start n := by
  refine List.ext_getElem (by rw [hlength, length_window]) fun i h₁ h₂ => ?_
  have hi : i < n := hlength ▸ h₁
  rw [← List.getD_eq_getElem _ silence h₁, ← List.getD_eq_getElem _ silence h₂, hvalue i hi,
    getD_window hi]

/-! ### Overwriting -/

/-- The list `xs` in place of the samples from `k` on. -/
def overwrite (dest : List α) (k : ℕ) (xs : List α) : List α :=
  dest.take k ++ xs ++ dest.drop (k + xs.length)

theorem length_overwrite {dest xs : List α} {k : ℕ} (h : k + xs.length ≤ dest.length) :
    (overwrite dest k xs).length = dest.length := by
  simp only [overwrite, List.length_append, List.length_take, List.length_drop]
  omega

theorem getD_overwrite {dest xs : List α} {k i : ℕ} (h : k + xs.length ≤ dest.length) :
    (overwrite dest k xs).getD i silence =
      if k ≤ i ∧ i < k + xs.length then xs.getD (i - k) silence else dest.getD i silence := by
  have htake : (dest.take k).length = k := by
    rw [List.length_take]
    omega
  rw [overwrite, List.append_assoc]
  rcases lt_or_ge i k with hik | hik
  · rw [if_neg (by omega), List.getD_append _ _ _ _ (by omega), List.getD_eq_getElem?_getD,
      List.getD_eq_getElem?_getD, List.getElem?_take_of_lt hik]
  rw [List.getD_append_right _ _ _ _ (by omega), htake]
  rcases lt_or_ge i (k + xs.length) with hlt | hge
  · rw [if_pos ⟨hik, hlt⟩, List.getD_append _ _ _ _ (by omega)]
  · rw [if_neg (by omega), List.getD_append_right _ _ _ _ (by omega), List.getD_eq_getElem?_getD,
      List.getD_eq_getElem?_getD, List.getElem?_drop]
    congr 2
    omega

/-! ### Changing samples in place -/

variable (f : ℕ → α → α)

/-- The `n` samples from `k` on, the sample at `k + i` changed by `f i`. -/
def modifyFrom (k n : ℕ) (dest : List α) : List α :=
  (List.range n).foldl (fun dest i => dest.modify (k + i) (f i)) dest

theorem modifyFrom_succ (k n : ℕ) (dest : List α) :
    modifyFrom f k (n + 1) dest = (modifyFrom f k n dest).modify (k + n) (f n) := by
  rw [modifyFrom, List.range_succ, List.foldl_concat, modifyFrom]

@[simp] theorem length_modifyFrom (k n : ℕ) (dest : List α) :
    (modifyFrom f k n dest).length = dest.length := by
  induction n with
  | zero => rfl
  | succ n ih => rw [modifyFrom_succ, List.length_modify, ih]

theorem getD_modifyFrom {f : ℕ → α → α} {k n j : ℕ} {dest : List α} (hj : j < dest.length) :
    (modifyFrom f k n dest).getD j silence =
      if k ≤ j ∧ j < k + n then f (j - k) (dest.getD j silence) else dest.getD j silence := by
  induction n with
  | zero => rw [if_neg (by omega), modifyFrom, List.range_zero, List.foldl_nil]
  | succ n ih =>
    have hlt : j < (modifyFrom f k n dest).length := by rwa [length_modifyFrom]
    have hstep : ((modifyFrom f k n dest).modify (k + n) (f n)).getD j silence =
        if k + n = j then f n ((modifyFrom f k n dest).getD j silence)
        else (modifyFrom f k n dest).getD j silence := by
      rw [List.getD_eq_getElem?_getD, List.getElem?_modify, List.getD_eq_getElem?_getD,
        List.getElem?_eq_getElem hlt]
      split_ifs <;> rfl
    rw [modifyFrom_succ, hstep, ih]
    rcases eq_or_ne (k + n) j with rfl | hne
    · rw [if_pos rfl, if_neg (by omega), if_pos (by omega), Nat.add_sub_cancel_left]
    · rw [if_neg hne]
      exact if_congr (by omega) rfl rfl

/-! ### Pieces -/

variable (pieces : List (List α))

/-- Where the piece `k` begins. -/
def startOf (k : ℕ) : ℕ := (pieces.take k).flatten.length

@[simp] theorem startOf_zero : startOf pieces 0 = 0 := by
  rw [startOf, List.take_zero, List.flatten_nil, List.length_nil]

theorem startOf_succ {pieces : List (List α)} {k : ℕ} {piece : List α}
    (h : pieces[k]? = some piece) : startOf pieces (k + 1) = startOf pieces k + piece.length := by
  rw [startOf, startOf, List.take_add_one, h, Option.toList_some, List.flatten_append,
    List.length_append, List.flatten_cons, List.flatten_nil, List.append_nil]

theorem startOf_of_length_le {pieces : List (List α)} {k : ℕ} (h : pieces.length ≤ k) :
    startOf pieces k = pieces.flatten.length := by
  rw [startOf, List.take_of_length_le h]

theorem flatten_drop_startOf (k : ℕ) :
    pieces.flatten.drop (startOf pieces k) = (pieces.drop k).flatten := by
  have hsplit : pieces.flatten = (pieces.take k).flatten ++ (pieces.drop k).flatten := by
    rw [← List.flatten_append, List.take_append_drop]
  rw [hsplit]
  exact List.drop_left

/-- The samples of a piece are found where the piece begins. -/
theorem valueAt_flatten {pieces : List (List α)} {k i : ℕ} {piece : List α}
    (h : pieces[k]? = some piece) (hi : i < piece.length) :
    valueAt silence pieces.flatten (startOf pieces k + i : ℕ) = piece.getD i silence := by
  have hdrop := flatten_drop_startOf pieces k
  rw [List.drop_eq_getElem_cons (List.getElem?_eq_some_iff.1 h).1, List.flatten_cons,
    (List.getElem?_eq_some_iff.1 h).2] at hdrop
  rw [valueAt_natCast, List.getD_eq_getElem?_getD, ← List.getElem?_drop, hdrop,
    ← List.getD_eq_getElem?_getD, List.getD_append _ _ _ _ hi]

end Oak.Lib
