import Mathlib.Algebra.Ring.Nat
import Mathlib.Data.List.Basic
import Oak.Lib.Signal

/-!
# Lists that are written over, and their halves

A list is a line of cells that grows as it is written to. Its half has one cell for every two of
its cells; a last cell without a partner has none.

* `growTo`, `resizeTo`, `writeFrom`: a list is padded, brought to a length, written over from a
  place on.
* `halve merge l` has the merged pairs of `l`.

## Main results

* `getElem?_writeFrom`, `writeFrom_append`: what is in the cells, and writing in pieces.
* `halve_writeFrom`, `halve_resizeTo`, `halve_drop`: the half of a list is written to, resized and
  dropped from as the list is, as long as no pair is cut.
-/

namespace Oak.Lib

variable {α : Type*}

/-! ### Writing over a list -/

/-- Pad a list that is shorter than `n`. -/
def growTo (n : ℕ) (pad : α) (l : List α) : List α := l ++ List.replicate (n - l.length) pad

/-- Bring a list to the length `n`. -/
def resizeTo (n : ℕ) (pad : α) (l : List α) : List α := (growTo n pad l).take n

/-- Write `seg` over the cells from `a` on; the list grows if they end behind it. -/
def writeFrom (pad : α) (a : ℕ) (seg l : List α) : List α :=
  overwrite (growTo (a + seg.length) pad l) a seg

variable {pad x : α} {l seg : List α} {a n i : ℕ}

theorem length_growTo : (growTo n pad l).length = max n l.length := by
  rw [growTo, List.length_append, List.length_replicate]
  omega

@[simp] theorem length_resizeTo : (resizeTo n pad l).length = n := by
  rw [resizeTo, List.length_take, length_growTo]
  omega

@[simp] theorem length_writeFrom :
    (writeFrom pad a seg l).length = max l.length (a + seg.length) := by
  simp only [writeFrom, overwrite, List.length_append, List.length_take, List.length_drop,
    length_growTo]
  omega

theorem growTo_of_le (h : n ≤ l.length) : growTo n pad l = l := by
  rw [growTo, Nat.sub_eq_zero_of_le h, List.replicate_zero, List.append_nil]

theorem resizeTo_of_le (h : n ≤ l.length) : resizeTo n pad l = l.take n := by
  rw [resizeTo, growTo_of_le h]

theorem resizeTo_of_ge (h : l.length ≤ n) :
    resizeTo n pad l = l ++ List.replicate (n - l.length) pad := by
  rw [resizeTo, List.take_of_length_le (by rw [length_growTo]; omega), growTo]

/-- The cells before the segment, the segment, and the cells behind it. -/
theorem writeFrom_eq :
    writeFrom pad a seg l = resizeTo a pad l ++ seg ++ l.drop (a + seg.length) := by
  rw [writeFrom, overwrite, resizeTo]
  congr 1
  · congr 1
    rw [growTo, growTo]
    rcases Nat.le_total a l.length with h | h
    · rw [List.take_append_of_le_length h, List.take_append_of_le_length h]
    · rw [List.take_append, List.take_append, List.take_replicate, List.take_replicate]
      congr 2
      omega
  · rw [growTo, List.drop_append, List.drop_replicate,
      Nat.sub_eq_zero_of_le (by omega), List.replicate_zero, List.append_nil]

theorem getElem?_resizeTo_of_some (h : l[i]? = some x) (hi : i < n) :
    (resizeTo n pad l)[i]? = some x := by
  rw [resizeTo, List.getElem?_take_of_lt hi, growTo,
    List.getElem?_append_left (List.getElem?_eq_some_iff.1 h).1, h]

/-- The cells that are written. -/
theorem getElem?_writeFrom (hi : i < seg.length) :
    (writeFrom pad a seg l)[a + i]? = seg[i]? := by
  rw [writeFrom_eq, List.getElem?_append_left, List.getElem?_append_right, length_resizeTo,
    Nat.add_sub_cancel_left]
  · rw [length_resizeTo]
    omega
  · rw [List.length_append, length_resizeTo]
    omega

theorem getElem?_writeFrom_of_some (h : l[i]? = some x) (hi : i < a ∨ a + seg.length ≤ i) :
    (writeFrom pad a seg l)[i]? = some x := by
  rw [writeFrom_eq, List.append_assoc]
  rcases hi with hi | hi
  · rw [List.getElem?_append_left (by rwa [length_resizeTo])]
    exact getElem?_resizeTo_of_some h hi
  · rw [List.getElem?_append_right (by rw [length_resizeTo]; omega), length_resizeTo,
      List.getElem?_append_right (by omega), List.getElem?_drop, ← h]
    congr 1
    omega

/-- A segment may be written in pieces. -/
theorem writeFrom_append (seg' : List α) :
    writeFrom pad a (seg ++ seg') l =
      writeFrom pad (a + seg.length) seg' (writeFrom pad a seg l) := by
  have hlength : (resizeTo a pad l ++ seg).length = a + seg.length := by
    rw [List.length_append, length_resizeTo]
  have hbefore : resizeTo (a + seg.length) pad (writeFrom pad a seg l) =
      resizeTo a pad l ++ seg := by
    rw [resizeTo_of_le (by rw [length_writeFrom]; omega), writeFrom_eq, ← hlength,
      List.take_left]
  have hbehind : (writeFrom pad a seg l).drop (a + seg.length + seg'.length) =
      l.drop (a + (seg ++ seg').length) := by
    rw [writeFrom_eq, ← List.drop_drop, ← hlength, List.drop_left, hlength, List.drop_drop,
      List.length_append, Nat.add_assoc]
  calc writeFrom pad a (seg ++ seg') l
      = resizeTo a pad l ++ (seg ++ seg') ++ l.drop (a + (seg ++ seg').length) := writeFrom_eq
    _ = resizeTo (a + seg.length) pad (writeFrom pad a seg l) ++ seg' ++
          (writeFrom pad a seg l).drop (a + seg.length + seg'.length) := by
      rw [hbefore, hbehind, List.append_assoc _ seg seg']
    _ = writeFrom pad (a + seg.length) seg' (writeFrom pad a seg l) := writeFrom_eq.symm

/-! ### Halves -/

section Halve

variable {merge : α → α → α}

/-- The merged pairs of a list. -/
def halve (merge : α → α → α) : List α → List α
  | a :: b :: l => merge a b :: halve merge l
  | _ => []

theorem length_halve (merge : α → α → α) (l : List α) :
    (halve merge l).length = l.length / 2 := by
  induction l using halve.induct with
  | case1 a b l ih =>
    rw [halve, List.length_cons, ih]
    simp only [List.length_cons]
    omega
  | case2 l h =>
    match l, h with
    | [], _ => simp [halve]
    | [_], _ => simp [halve]
    | a :: b :: l, h => exact absurd rfl (h a b l)

theorem getElem?_halve (merge : α → α → α) (l : List α) (i : ℕ) :
    (halve merge l)[i]? = l[2 * i]?.bind fun a => l[2 * i + 1]?.map (merge a) := by
  induction l using halve.induct generalizing i with
  | case1 a b l ih =>
    cases i with
    | zero => rfl
    | succ i => exact ih i
  | case2 l h =>
    match l, h with
    | [], _ => rfl
    | [a], _ => cases i <;> rfl
    | a :: b :: l, h => exact absurd rfl (h a b l)

theorem halve_eq_nil (h : l.length ≤ 1) : halve merge l = [] := by
  rw [← List.length_eq_zero_iff, length_halve]
  omega

theorem halve_append (h : 2 ∣ l.length) (l' : List α) :
    halve merge (l ++ l') = halve merge l ++ halve merge l' := by
  induction l using halve.induct with
  | case1 a b l ih =>
    have hl : 2 ∣ l.length := by
      simp only [List.length_cons] at h
      omega
    rw [List.cons_append, List.cons_append, halve, halve, ih hl, List.cons_append]
  | case2 l hshort =>
    match l, hshort with
    | [], _ => rfl
    | [_], _ =>
      rw [List.length_singleton] at h
      omega
    | a :: b :: l, hshort => exact absurd rfl (hshort a b l)

theorem halve_take (n : ℕ) (l : List α) :
    halve merge (l.take n) = (halve merge l).take (n / 2) := by
  refine List.ext_getElem? fun i => ?_
  rw [getElem?_halve, List.getElem?_take, List.getElem?_take, List.getElem?_take, getElem?_halve]
  by_cases h : i < n / 2
  · rw [if_pos (by omega), if_pos (by omega), if_pos h]
  · rw [if_neg h]
    by_cases h' : 2 * i < n
    · rw [if_neg (show ¬ 2 * i + 1 < n by omega)]
      cases (if 2 * i < n then l[2 * i]? else none) <;> rfl
    · rw [if_neg h']
      rfl

theorem halve_drop (h : 2 ∣ n) (l : List α) :
    halve merge (l.drop n) = (halve merge l).drop (n / 2) := by
  refine List.ext_getElem? fun i => ?_
  obtain ⟨m, rfl⟩ := h
  rw [getElem?_halve, List.getElem?_drop, List.getElem?_drop, List.getElem?_drop, getElem?_halve,
    Nat.mul_div_cancel_left m (by decide), Nat.mul_add, ← Nat.add_assoc]

theorem halve_replicate (h : merge pad pad = pad) (n : ℕ) :
    halve merge (List.replicate n pad) = List.replicate (n / 2) pad := by
  induction n using Nat.twoStepInduction with
  | zero => rfl
  | one => rfl
  | more n ih _ =>
    have hdiv : (n + 2) / 2 = n / 2 + 1 := by omega
    rw [List.replicate_succ, List.replicate_succ, halve, ih, h, hdiv, List.replicate_succ]

variable (hpad : merge pad pad = pad)
include hpad

/-- A list is brought to a length together with its half, unless a last cell gets a partner. -/
theorem halve_resizeTo (h : n ≤ l.length ∨ 2 ∣ l.length) :
    halve merge (resizeTo n pad l) = resizeTo (n / 2) pad (halve merge l) := by
  have hhalf := length_halve merge l
  by_cases hle : n ≤ l.length
  · rw [resizeTo_of_le hle, resizeTo_of_le (by omega), halve_take]
  · have heven := h.resolve_left hle
    rw [resizeTo_of_ge (by omega), resizeTo_of_ge (by omega), halve_append heven,
      halve_replicate hpad, hhalf]
    congr 2
    omega

/-- A list is written over together with its half, if the segment starts with a pair, does not
leave a stale partner behind its end and gives no partner to a last cell. -/
theorem halve_writeFrom (hstart : 2 ∣ a) (hend : 2 ∣ seg.length ∨ l.length ≤ a + seg.length)
    (hgap : a ≤ l.length ∨ 2 ∣ l.length) :
    halve merge (writeFrom pad a seg l) =
      writeFrom pad (a / 2) (halve merge seg) (halve merge l) := by
  have hhalf := length_halve merge l
  have hseg := length_halve merge seg
  rw [writeFrom_eq, writeFrom_eq, List.append_assoc, halve_append (by rwa [length_resizeTo]),
    halve_resizeTo hpad hgap, List.append_assoc]
  congr 1
  rcases hend with heven | hbehind
  · rw [halve_append heven, halve_drop (Nat.dvd_add hstart heven), hseg]
    congr 2
    omega
  · rw [List.drop_of_length_le hbehind, List.drop_of_length_le (by omega), List.append_nil,
      List.append_nil]

end Halve

end Oak.Lib
