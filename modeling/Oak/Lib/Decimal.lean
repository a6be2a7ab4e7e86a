import Mathlib.Algebra.Order.Field.Rat
import Mathlib.Data.Int.Notation
import Mathlib.Data.List.DropRight
import Mathlib.Data.Nat.Notation

/-!
# Numbers as text

Decimal integers and fractions are read from lists of characters. Numbers have no bound here, and
fractions are exact.

## Main results

* `parseInt_toString`: an integer is read from its own text.
-/

namespace Oak.Lib

/-- White space of Unicode. -/
def isWhitespace (c : Char) : Bool :=
  let n := c.toNat
  (9 ≤ n && n ≤ 13) || n = 0x20 || n = 0x85 || n = 0xa0 || n = 0x1680 ||
    (0x2000 ≤ n && n ≤ 0x200a) || n = 0x2028 || n = 0x2029 || n = 0x202f || n = 0x205f ||
    n = 0x3000

variable (s : List Char)

/-- A text without the white space at its ends. -/
def trim : List Char := (s.dropWhile isWhitespace).rdropWhile isWhitespace

/-- What stands before and after the first occurrence of a character. -/
def splitOnce (c : Char) : List Char → Option (List Char × List Char)
  | [] => none
  | d :: s => if d = c then some ([], s) else (splitOnce c s).map fun p => (d :: p.1, p.2)

/-- A number from its digits. -/
def parseNat : Option ℕ :=
  if s ≠ [] ∧ s.all Char.isDigit then some (Nat.ofDigitChars 10 s 0) else none

/-- An integer from its digits, with a sign before them or none. -/
def parseInt : List Char → Option ℤ
  | '-' :: s => (parseNat s).map fun n : ℕ => -(n : ℤ)
  | '+' :: s => (parseNat s).map Nat.cast
  | s => (parseNat s).map Nat.cast

/-- The digits before and after the point. One side may be empty. -/
def parseMantissa : Option ℚ :=
  match splitOnce '.' s with
  | none => (parseNat s).map Nat.cast
  | some (whole, frac) =>
    (parseNat (whole ++ frac)).map fun n => (n : ℚ) / 10 ^ frac.length

/-- A mantissa with a power of ten behind it or none. -/
def parseUnsigned : Option ℚ :=
  match s.span (fun c => c ≠ 'e' ∧ c ≠ 'E') with
  | (mantissa, []) => parseMantissa mantissa
  | (mantissa, _ :: exponent) => do
    let m ← parseMantissa mantissa
    let e ← parseInt exponent
    some (m * 10 ^ e)

/-- A number of a floating-point type; `some none` for an infinity or a value that is no number. -/
def parseFloat : Option (Option ℚ) :=
  let (negative, s) := match s with
    | '-' :: s => (true, s)
    | '+' :: s => (false, s)
    | s => (false, s)
  let word := String.ofList (s.map Char.toLower)
  if word = "inf" ∨ word = "infinity" ∨ word = "nan" then some none
  else (parseUnsigned s).map fun q => some (if negative then -q else q)

/-! ### Texts of integers -/

variable {c : Char}

theorem isWhitespace_of_isDigit (h : c.isDigit = true) : isWhitespace c = false := by
  have hc : 48 ≤ c.toNat ∧ c.toNat ≤ 57 := by
    simpa [Char.isDigit, UInt32.le_iff_toNat_le] using h
  simp only [isWhitespace, Bool.or_eq_false_iff, Bool.and_eq_false_iff, decide_eq_false_iff_not]
  omega

theorem parseNat_toDigits (n : ℕ) : parseNat (Nat.toDigits 10 n) = some n := by
  have hdigits : (Nat.toDigits 10 n).all Char.isDigit = true :=
    List.all_eq_true.2 fun c hc => Nat.isDigit_of_mem_toDigits (by decide) (by decide) hc
  rw [parseNat, if_pos ⟨Nat.toDigits_ne_nil, hdigits⟩, Nat.ofDigitChars_ten_toDigits]

theorem parseInt_of_isDigit {s : List Char} (h : c.isDigit = true) :
    parseInt (c :: s) = (parseNat (c :: s)).map Nat.cast := by
  rw [parseInt]
  · rintro t ⟨rfl, -⟩
    exact absurd h (by decide)
  · rintro t ⟨rfl, -⟩
    exact absurd h (by decide)

theorem parseInt_toDigits (n : ℕ) : parseInt (Nat.toDigits 10 n) = some (n : ℤ) := by
  obtain ⟨c, s, hs⟩ := List.exists_cons_of_ne_nil (Nat.toDigits_ne_nil : Nat.toDigits 10 n ≠ [])
  have hc : c.isDigit = true :=
    Nat.isDigit_of_mem_toDigits (b := 10) (n := n) (by decide) (by decide)
      (hs ▸ List.mem_cons_self)
  rw [hs, parseInt_of_isDigit hc, ← hs, parseNat_toDigits, Option.map_some]

/-- The text of an integer: its digits, with a minus sign before them or none. -/
theorem toList_toString_int (i : ℤ) :
    (toString i).toList =
      if 0 ≤ i then Nat.toDigits 10 i.toNat else '-' :: Nat.toDigits 10 (-i).toNat := by
  rw [Int.toString_eq_repr, Int.repr_eq_if]
  split_ifs
  · rw [Nat.toList_repr]
  · rw [String.toList_append, Nat.toList_repr]
    rfl

/-- An integer is read from its own text. -/
@[simp] theorem parseInt_toString (i : ℤ) : parseInt (toString i).toList = some i := by
  rw [toList_toString_int]
  split_ifs with hi
  · rw [parseInt_toDigits, Int.toNat_of_nonneg hi]
  · rw [parseInt, parseNat_toDigits, Option.map_some, Int.toNat_of_nonneg (by omega), neg_neg]

theorem of_mem_toString_int {i : ℤ} (h : c ∈ (toString i).toList) : c = '-' ∨ c.isDigit = true := by
  have hdigit {n : ℕ} (hn : c ∈ Nat.toDigits 10 n) : c.isDigit = true :=
    Nat.isDigit_of_mem_toDigits (by decide) (by decide) hn
  rw [toList_toString_int] at h
  split_ifs at h
  · exact Or.inr (hdigit h)
  · exact (List.mem_cons.1 h).imp id hdigit

theorem toString_int_ne_nil (i : ℤ) : (toString i).toList ≠ [] := by
  intro h
  have hread := parseInt_toString i
  rw [h] at hread
  cases hread

/-! ### Texts without white space -/

theorem trim_of_forall {s : List Char} (h : ∀ c ∈ s, isWhitespace c = false) : trim s = s := by
  have hdrop : s.dropWhile isWhitespace = s := by
    cases s with
    | nil => rfl
    | cons c s => simp [h c List.mem_cons_self]
  rw [trim, hdrop]
  rcases s.eq_nil_or_concat' with rfl | ⟨s, c, rfl⟩
  · rfl
  · rw [List.rdropWhile_concat_neg]
    simp [h c (by simp)]

theorem splitOnce_append {s : List Char} (h : c ∉ s) (t : List Char) :
    splitOnce c (s ++ c :: t) = some (s, t) := by
  induction s with
  | nil => simp [splitOnce]
  | cons d s ih =>
    simp only [List.mem_cons, not_or] at h
    rw [List.cons_append, splitOnce, if_neg (Ne.symm h.1), ih h.2, Option.map_some]

end Oak.Lib
