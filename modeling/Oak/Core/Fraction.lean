import Oak.Core.ReduceFraction
import Oak.Lib.Decimal

/-!
# Rationals with their integers

`Rational` of `oak-core/src/rational.rs` with its two fields of 64 bits, its operators, its texts
and its order.

* `Fraction` is the pair of fields, and `Fraction.Valid` what the operations keep of it.
* `Passed` are the pairs that the operations hand to `reduce_fraction`.
* `Expression` is a sequence of operations on rationals that are built or read.

## Main results

* `reduceFraction_passed`: what is handed to `reduce_fraction` is reduced to the nearest fraction.
* `Fraction.cmp_eq_compare_value`: the order of the rationals is the one of their values.
* `Expression.rational_iff`: which expressions give a rational without an overflow.
-/

namespace Oak.Core

open Oak.Lib

/-- The range of `i64`. -/
def InI64 (z : ℤ) : Prop := -2 ^ 63 ≤ z ∧ z < 2 ^ 63

instance : DecidablePred InI64 := fun _ => inferInstanceAs (Decidable (_ ∧ _))

/-- A value of `i64`. -/
abbrev I64 := { z : ℤ // InI64 z }

/-- `as i64`. -/
def asI64 (z : ℤ) : ℤ := z.bmod (2 ^ 64)

/-- `Rational`. -/
structure Fraction where
  num : ℤ
  den : ℤ
  deriving DecidableEq

/-- `fix_signs`. Both sides are negated in 64 bits. -/
def fixSigns (num den : ℤ) : Option (ℤ × ℤ) :=
  if den < 0 then
    if InI64 (-den) ∧ InI64 (-num) then some (-num, -den) else none
  else if den = 0 then some (0, den)
  else if num = 0 then some (num, 1)
  else some (num, den)

/-- `from_reduced`. -/
def fromReduced (num den : ℤ) : Option Fraction :=
  (fixSigns (asI64 num) (asI64 den)).map fun p => ⟨p.1, p.2⟩

/-- `reduce_fraction` with the bound of all rationals, as the operators use it. -/
def reduced (num den : ℤ) : Option Fraction :=
  (reduceFraction num den reduceMax).bind fun p => fromReduced p.1 p.2

/-- `to_int`. -/
def toInt (s : List Char) : ℤ :=
  match parseInt (trim s) with
  | some z => if InI64 z then z else 0
  | none => 0

/-- `compare_fractions`. -/
def compareFractions (an ad bn bd : ℤ) : ℤ :=
  let tmp := an * bd - bn * ad
  if tmp ≠ 0 then if 0 < tmp then 1 else -1
  else if bd ≠ 0 ∧ ad ≠ 0 then 0
  else if an ≠ 0 ∧ bn ≠ 0 then (an / 2 ^ 31 - bn / 2 ^ 31).bmod (2 ^ 32)
  else -2 ^ 31

namespace Fraction

/-- `NULL`. -/
def null : Fraction := ⟨0, 0⟩

/-- `new`. -/
def new (num den : ℤ) : Option Fraction := do
  let (num, den) ← fixSigns num den
  let (num, den) ← reduceFraction num den reduceMax
  some ⟨asI64 num, asI64 den⟩

/-- `is_nan`. -/
def isNan (r : Fraction) : Bool := r.den = 0

/-- `is_minmax`: the values `RATIONAL_MIN` and `RATIONAL_MAX`. -/
def isMinmax (r : Fraction) : Bool := r = ⟨-2147483647, 1⟩ || r = ⟨2147483647, 1⟩

/-- `from_string`. -/
def fromString (s : String) : Option Fraction :=
  match s.toList.splitOn '/' with
  | [num] => new (toInt num) 1
  | [num, den] => new (toInt num) (toInt den)
  | _ => some null

/-- `to_display_string`. -/
def toDisplayString (r : Fraction) : String := toString r.num ++ "/" ++ toString r.den

variable (a b : Fraction)

/-- What each operator does before it reduces its result. -/
def operator (result : Option Fraction) : Option Fraction :=
  if a.isMinmax || b.isMinmax then some null
  else if a.isNan then some a
  else if b.isNan then some null
  else result

/-- `Add`. -/
def add : Option Fraction :=
  operator a b <|
    checked [a.num * b.den, b.num * a.den, a.num * b.den + b.num * a.den, a.den * b.den] <|
      reduced (a.num * b.den + b.num * a.den) (a.den * b.den)

/-- `Sub`. -/
def sub : Option Fraction :=
  operator a b <|
    checked [a.num * b.den, b.num * a.den, a.num * b.den - b.num * a.den, a.den * b.den] <|
      reduced (a.num * b.den - b.num * a.den) (a.den * b.den)

/-- `Mul`. -/
def mul : Option Fraction :=
  operator a b <|
    checked [a.num * b.num, a.den * b.den] <| reduced (a.num * b.num) (a.den * b.den)

/-- `Div`. -/
def div : Option Fraction :=
  operator a b <|
    checked [a.num * b.den, a.den * b.num] <| reduced (a.num * b.den) (a.den * b.num)

/-- `cmp`. -/
def cmp : Ordering :=
  match decide (a.den = 0), decide (b.den = 0) with
  | true, true => .eq
  | true, false => .lt
  | false, true => .gt
  | false, false =>
    let order := compareFractions a.num a.den b.num b.den
    if order = 0 then .eq else if order = 1 then .gt else .lt

/-- A reduced fraction within the bound, or `0/0`. -/
def Valid (r : Fraction) : Prop :=
  r = null ∨ InBox reduceMax (r.num, r.den) ∧ IsCoprime r.num r.den

end Fraction

/-- Operands whose result is reduced. -/
structure Operands (a b : Fraction) : Prop where
  valid : a.Valid ∧ b.Valid
  minmax : a.isMinmax = false ∧ b.isMinmax = false
  nan : a.isNan = false ∧ b.isNan = false

/-- The numerators and denominators that are handed to `reduce_fraction`. -/
inductive Passed : ℤ → ℤ → Prop
  | new (num den : I64) {n d : ℤ} (h : fixSigns num den = some (n, d)) : Passed n d
  /-- `new` with the least denominator, whose negation wraps around in a build without checks. -/
  | wrapped (num : I64) : Passed num (-2 ^ 63)
  | add {a b : Fraction} (h : Operands a b) :
      Passed (a.num * b.den + b.num * a.den) (a.den * b.den)
  | sub {a b : Fraction} (h : Operands a b) :
      Passed (a.num * b.den - b.num * a.den) (a.den * b.den)
  | mul {a b : Fraction} (h : Operands a b) : Passed (a.num * b.num) (a.den * b.den)
  | div {a b : Fraction} (h : Operands a b) : Passed (a.num * b.den) (a.den * b.num)
  /-- `timestamp_to_time`. -/
  | timestamp (ts : I64) {timebase : Fraction} (h : timebase.Valid) :
      Passed (timebase.num * ts) timebase.den
  /-- `from_double`, whose exponent is at most `31` for the values that it takes. -/
  | double (num : I64) {exponent : ℕ} (h : exponent ≤ 31) : Passed num (2 ^ (62 - exponent))
  /-- The second try of `from_double`. -/
  | precise (num : I64) : Passed num (2 ^ 63 - 1)

/-! ### What is handed to the reduction -/

theorem fixSigns_spec {num den n d : ℤ} (hnum : InI64 num) (hden : InI64 den)
    (h : fixSigns num den = some (n, d)) : InI64 n ∧ InI64 d ∧ 0 ≤ d := by
  rw [fixSigns] at h
  split_ifs at h with hneg hfits hzero hnull
  · cases h
    exact ⟨hfits.2, hfits.1, by omega⟩
  · cases h
    exact ⟨by decide, hden, hzero.ge⟩
  · cases h
    exact ⟨hnum, by decide, by decide⟩
  · cases h
    exact ⟨hnum, hden, not_lt.1 hneg⟩

variable {r : Fraction}

theorem Fraction.Valid.magnitude_le (h : r.Valid) :
    |r.num| ≤ 2 ^ 31 ∧ 0 ≤ r.den ∧ |r.den| ≤ 2 ^ 31 := by
  rw [abs_le, abs_le]
  rcases h with rfl | ⟨⟨hle, hnum, hpos, hden⟩, -⟩
  · simp [null]
  · simp only [reduceMax] at *
    omega

theorem abs_mul_le {x y : ℤ} (hx : |x| ≤ 2 ^ 31) (hy : |y| ≤ 2 ^ 63) : |x * y| ≤ 2 ^ 94 := by
  rw [abs_mul]
  exact (mul_le_mul hx hy (abs_nonneg y) (by norm_num)).trans (by norm_num)

variable {z : ℤ}

theorem InI64.abs_le_pow (h : InI64 z) : |z| ≤ 2 ^ 63 := by
  rw [InI64] at h
  rw [abs_le]
  omega

/-- Sums and products of valid fractions are far within the range of `i128`. -/
theorem fits_of_operands (h : |z| ≤ 2 ^ 95) : Fits z ∧ |z| ≤ maxInput := by
  rw [abs_le] at *
  rw [Fits, maxInput]
  omega

theorem Operands.products_le {a b : Fraction} (h : Operands a b) :
    |a.num * b.den| ≤ 2 ^ 94 ∧ |b.num * a.den| ≤ 2 ^ 94 ∧ |a.den * b.den| ≤ 2 ^ 94 ∧
      |a.num * b.num| ≤ 2 ^ 94 ∧ |a.den * b.num| ≤ 2 ^ 94 := by
  obtain ⟨ha, -, ha'⟩ := h.valid.1.magnitude_le
  obtain ⟨hb, -, hb'⟩ := h.valid.2.magnitude_le
  have hwide {x : ℤ} (hx : |x| ≤ 2 ^ 31) : |x| ≤ 2 ^ 63 := hx.trans (by norm_num)
  exact ⟨abs_mul_le ha (hwide hb'), abs_mul_le hb (hwide ha'), abs_mul_le ha' (hwide hb'),
    abs_mul_le ha (hwide hb), abs_mul_le ha' (hwide hb)⟩

variable {n d : ℤ}

theorem Passed.magnitude_le (h : Passed n d) : |n| ≤ 2 ^ 95 ∧ |d| ≤ 2 ^ 95 := by
  have hwide {x : ℤ} (hx : |x| ≤ 2 ^ 94) : |x| ≤ 2 ^ 95 := hx.trans (by norm_num)
  have hi64 {x : ℤ} (hx : InI64 x) : |x| ≤ 2 ^ 95 := hx.abs_le_pow.trans (by norm_num)
  cases h with
  | new num den h =>
    obtain ⟨hn, hd, -⟩ := fixSigns_spec num.2 den.2 h
    exact ⟨hi64 hn, hi64 hd⟩
  | wrapped num => exact ⟨hi64 num.2, by norm_num⟩
  | add h =>
    obtain ⟨hab, hba, hdd, -⟩ := h.products_le
    exact ⟨(abs_add_le _ _).trans ((add_le_add hab hba).trans (by norm_num)), hwide hdd⟩
  | sub h =>
    obtain ⟨hab, hba, hdd, -⟩ := h.products_le
    exact ⟨(abs_sub _ _).trans ((add_le_add hab hba).trans (by norm_num)), hwide hdd⟩
  | mul h =>
    obtain ⟨-, -, hdd, hnn, -⟩ := h.products_le
    exact ⟨hwide hnn, hwide hdd⟩
  | div h =>
    obtain ⟨hab, -, -, -, hdn⟩ := h.products_le
    exact ⟨hwide hab, hwide hdn⟩
  | timestamp ts h =>
    obtain ⟨hnum, -, hden⟩ := h.magnitude_le
    exact ⟨hwide (abs_mul_le hnum ts.2.abs_le_pow), hden.trans (by norm_num)⟩
  | @double num exponent h =>
    refine ⟨hi64 num.2, ?_⟩
    rw [abs_of_nonneg (by positivity)]
    exact (pow_le_pow_right₀ one_le_two (Nat.sub_le 62 exponent)).trans (by norm_num)
  | precise num => exact ⟨hi64 num.2, by norm_num⟩

theorem reduceFraction_reduceMax (h : Passed n d) (hd : d ≠ 0) :
    ∃ c, reduceFraction n d reduceMax = some c ∧ Nearest reduceMax (n / d) c :=
  reduceFraction_nearest (by norm_num [reduceMax]) (by norm_num [reduceMax, maxInput])
    (fits_of_operands h.magnitude_le.1).2 (fits_of_operands h.magnitude_le.2).2 hd

/-- What is handed to `reduce_fraction` with a denominator is reduced to a fraction within the
bound that is nearest to it, without an overflow. -/
theorem reduceFraction_passed {n d : ℤ} (h : Passed n d) (hd : d ≠ 0) :
    ∃ p q : ℤ, reduceFraction n d reduceMax = some (p, q) ∧ IsCoprime p q ∧
      1 ≤ q ∧ q ≤ reduceMax ∧ |p| ≤ reduceMax ∧
      ((n / d : ℚ).num.natAbs ≤ reduceMax ∧ (n / d : ℚ).den ≤ reduceMax →
        (p / q : ℚ) = n / d) ∧
      ∀ r s : ℤ, |r| ≤ reduceMax → 1 ≤ s → s ≤ reduceMax →
        |(n / d : ℚ) - p / q| ≤ |(n / d : ℚ) - r / s| := by
  obtain ⟨⟨p, q⟩, hreduce, hnearest⟩ := reduceFraction_reduceMax h hd
  obtain ⟨hle, hnum, hpos, hden⟩ := hnearest.inBox
  refine ⟨p, q, hreduce, hnearest.coprime, hpos, hden, abs_le.2 ⟨hle, hnum⟩, ?_, ?_⟩
  · rintro ⟨hnum', hden'⟩
    have hpos' := (n / d : ℚ).den_pos
    have hbox : InBox reduceMax ((n / d : ℚ).num, ((n / d : ℚ).den : ℤ)) :=
      ⟨by dsimp only; omega, by dsimp only; omega, by dsimp only; omega, by dsimp only; omega⟩
    exact hnearest.ratOf_eq hbox (Rat.num_div_den _)
  · intro r s hr hs hs'
    obtain ⟨hr1, hr2⟩ := abs_le.1 hr
    exact hnearest.le (r, s) ⟨hr1, hr2, hs, hs'⟩

theorem Fraction.valid_one : Fraction.Valid ⟨1, 1⟩ :=
  Or.inr ⟨⟨by decide, by decide, by decide, by decide⟩, isCoprime_one_left⟩

theorem Fraction.valid_zero : Fraction.Valid ⟨0, 1⟩ :=
  Or.inr ⟨⟨by decide, by decide, by decide, by decide⟩, isCoprime_one_right⟩

theorem reduceFraction_passed_tiny :
    ∃ p q : ℤ, reduceFraction 1 4294967296 reduceMax = some (p, q) ∧ IsCoprime p q ∧
      1 ≤ q ∧ q ≤ reduceMax ∧ |p| ≤ reduceMax ∧
      (((1 : ℤ) / (4294967296 : ℤ) : ℚ).num.natAbs ≤ reduceMax ∧
          ((1 : ℤ) / (4294967296 : ℤ) : ℚ).den ≤ reduceMax →
        (p / q : ℚ) = (1 : ℤ) / (4294967296 : ℤ)) ∧
      ∀ r s : ℤ, |r| ≤ reduceMax → 1 ≤ s → s ≤ reduceMax →
        |((1 : ℤ) / (4294967296 : ℤ) : ℚ) - p / q| ≤ |((1 : ℤ) / (4294967296 : ℤ) : ℚ) - r / s| :=
  reduceFraction_passed (Passed.new ⟨1, by decide⟩ ⟨4294967296, by decide⟩ (by decide)) (by decide)

/-- A division by zero hands over a zero denominator, which is no fraction of the bound. -/
theorem reduceFraction_zero_denominator :
    Passed 1 0 ∧ reduceFraction 1 0 reduceMax = some (0, 0) := by
  refine ⟨?_, rfl⟩
  exact Passed.div (a := ⟨1, 1⟩) (b := ⟨0, 1⟩)
    ⟨⟨Fraction.valid_one, Fraction.valid_zero⟩, ⟨by decide, by decide⟩, ⟨by decide, by decide⟩⟩

/-! ### What the operations keep -/

@[simp] theorem asI64_eq (h : InI64 z) : asI64 z = z := by
  rw [InI64] at h
  exact Int.bmod_eq_of_le (by norm_num; omega) (by norm_num; omega)

theorem InBox.inI64 {c : ℤ × ℤ} (h : InBox reduceMax c) : InI64 c.1 ∧ InI64 c.2 := by
  obtain ⟨hle, hnum, hpos, hden⟩ := h
  simp only [InI64, reduceMax] at *
  omega

variable {num den : ℤ}

theorem fixSigns_of_pos (hpos : 0 < den) (hzero : num = 0 → den = 1) :
    fixSigns num den = some (num, den) := by
  rw [fixSigns, if_neg hpos.not_gt, if_neg hpos.ne']
  split_ifs with hnum
  · rw [hzero hnum]
  · rfl

theorem den_eq_one (hpos : 0 < den) (h : IsCoprime num den) (hnum : num = 0) : den = 1 := by
  rw [hnum, isCoprime_zero_left] at h
  rcases Int.isUnit_iff.1 h with hone | hone
  · exact hone
  · omega

/-- The reduction of what is handed over is a valid rational, in both ways of using it. -/
theorem reduceFraction_valid (h : Passed n d) :
    ∃ r : Fraction, r.Valid ∧ reduceFraction n d reduceMax = some (r.num, r.den) ∧
      InI64 r.num ∧ InI64 r.den ∧ fixSigns r.num r.den = some (r.num, r.den) := by
  rcases eq_or_ne d 0 with rfl | hd
  · exact ⟨Fraction.null, Or.inl rfl, by rw [reduceFraction, if_pos rfl]; rfl, by decide, by decide,
      by decide⟩
  · obtain ⟨c, hreduce, hnearest⟩ := reduceFraction_reduceMax h hd
    have hpos : 0 < c.2 := hnearest.inBox.one_le_den
    have hrange := InBox.inI64 hnearest.inBox
    exact ⟨⟨c.1, c.2⟩, Or.inr ⟨hnearest.inBox, hnearest.coprime⟩, hreduce, hrange.1, hrange.2,
      fixSigns_of_pos hpos (den_eq_one hpos hnearest.coprime)⟩

theorem reduced_valid (h : Passed n d) : ∃ r, reduced n d = some r ∧ r.Valid := by
  obtain ⟨r, hvalid, hreduce, hnum, hden, hsigns⟩ := reduceFraction_valid h
  refine ⟨r, ?_, hvalid⟩
  rw [reduced, hreduce, Option.bind_some, fromReduced, asI64_eq hnum, asI64_eq hden, hsigns,
    Option.map_some]

/-- When `fix_signs` negates without an overflow. -/
def SignsFit (num den : ℤ) : Prop := den ≠ -2 ^ 63 ∧ (den < 0 → num ≠ -2 ^ 63)

theorem exists_fixSigns (hnum : InI64 num) (hden : InI64 den) (h : SignsFit num den) :
    ∃ p, fixSigns num den = some p := by
  rw [fixSigns]
  split_ifs with hneg hfits
  · exact ⟨_, rfl⟩
  · obtain ⟨hden', hnum'⟩ := h
    have hnum'' := hnum' hneg
    simp only [InI64] at *
    omega
  all_goals exact ⟨_, rfl⟩

theorem fixSigns_eq_none (h : ¬ SignsFit num den) : fixSigns num den = none := by
  have hcase : den < 0 ∧ ¬ (InI64 (-den) ∧ InI64 (-num)) := by
    simp only [SignsFit, InI64] at *
    omega
  rw [fixSigns, if_pos hcase.1, if_neg hcase.2]

namespace Fraction

theorem new_valid (hnum : InI64 num) (hden : InI64 den) (h : SignsFit num den) :
    ∃ r, new num den = some r ∧ r.Valid := by
  obtain ⟨⟨n, d⟩, hsigns⟩ := exists_fixSigns hnum hden h
  obtain ⟨r, hvalid, hreduce, hn, hd, -⟩ :=
    reduceFraction_valid (Passed.new ⟨num, hnum⟩ ⟨den, hden⟩ hsigns)
  refine ⟨r, ?_, hvalid⟩
  rw [new, hsigns]
  simp only [Option.bind_eq_bind, Option.bind_some, hreduce, asI64_eq hn, asI64_eq hd]

theorem exists_new_nearest (hnum : InI64 num) (hden : InI64 den) (hpos : 0 < den) :
    ∃ r, new num den = some r ∧ Nearest reduceMax (num / den) (r.num, r.den) := by
  obtain ⟨d, hsigns, hd, hvalue⟩ : ∃ d : ℤ, fixSigns num den = some (num, d) ∧ d ≠ 0 ∧
      (num / d : ℚ) = num / den := by
    rcases eq_or_ne num 0 with rfl | hne
    · exact ⟨1, by rw [fixSigns, if_neg hpos.not_gt, if_neg hpos.ne', if_pos rfl], one_ne_zero,
        by simp⟩
    · exact ⟨den, by rw [fixSigns, if_neg hpos.not_gt, if_neg hpos.ne', if_neg hne], hpos.ne', rfl⟩
  obtain ⟨c, hreduce, hnearest⟩ :=
    reduceFraction_reduceMax (Passed.new ⟨num, hnum⟩ ⟨den, hden⟩ hsigns) hd
  have hrange := InBox.inI64 hnearest.inBox
  refine ⟨⟨c.1, c.2⟩, ?_, hvalue ▸ hnearest⟩
  rw [new, hsigns]
  simp only [Option.bind_eq_bind, Option.bind_some, hreduce, asI64_eq hrange.1, asI64_eq hrange.2]

theorem new_eq_none (h : ¬ SignsFit num den) : new num den = none := by
  rw [new, fixSigns_eq_none h]
  rfl

theorem operator_valid {a b : Fraction} {result : Option Fraction} (ha : a.Valid) (hb : b.Valid)
    (h : Operands a b → ∃ r, result = some r ∧ r.Valid) :
    ∃ r, operator a b result = some r ∧ r.Valid := by
  rw [operator]
  split_ifs with hminmax hnan hnan'
  · exact ⟨null, rfl, Or.inl rfl⟩
  · exact ⟨a, rfl, ha⟩
  · exact ⟨null, rfl, Or.inl rfl⟩
  · rw [Bool.or_eq_true, not_or, Bool.not_eq_true, Bool.not_eq_true] at hminmax
    rw [Bool.not_eq_true] at hnan hnan'
    exact h ⟨⟨ha, hb⟩, hminmax, hnan, hnan'⟩

theorem checked_reduced_valid {values : List ℤ} (h : Passed n d)
    (hvalues : ∀ z ∈ values, |z| ≤ 2 ^ 95) :
    ∃ r, checked values (reduced n d) = some r ∧ r.Valid := by
  rw [checked_eq fun z hz => (fits_of_operands (hvalues z hz)).1]
  exact reduced_valid h

section operators

variable {a b : Fraction} (ha : a.Valid) (hb : b.Valid)

include ha hb

theorem add_valid : ∃ r, a.add b = some r ∧ r.Valid := by
  refine operator_valid ha hb fun h => checked_reduced_valid (Passed.add h) ?_
  obtain ⟨hab, hba, -⟩ := h.products_le
  obtain ⟨hnum, hden⟩ := (Passed.add h).magnitude_le
  simp only [List.forall_mem_cons, List.not_mem_nil, false_imp_iff, implies_true, and_true]
  exact ⟨hab.trans (by norm_num), hba.trans (by norm_num), hnum, hden⟩

theorem sub_valid : ∃ r, a.sub b = some r ∧ r.Valid := by
  refine operator_valid ha hb fun h => checked_reduced_valid (Passed.sub h) ?_
  obtain ⟨hab, hba, -⟩ := h.products_le
  obtain ⟨hnum, hden⟩ := (Passed.sub h).magnitude_le
  simp only [List.forall_mem_cons, List.not_mem_nil, false_imp_iff, implies_true, and_true]
  exact ⟨hab.trans (by norm_num), hba.trans (by norm_num), hnum, hden⟩

theorem mul_valid : ∃ r, a.mul b = some r ∧ r.Valid := by
  refine operator_valid ha hb fun h => checked_reduced_valid (Passed.mul h) ?_
  obtain ⟨hnum, hden⟩ := (Passed.mul h).magnitude_le
  simp only [List.forall_mem_cons, List.not_mem_nil, false_imp_iff, implies_true, and_true]
  exact ⟨hnum, hden⟩

theorem div_valid : ∃ r, a.div b = some r ∧ r.Valid := by
  refine operator_valid ha hb fun h => checked_reduced_valid (Passed.div h) ?_
  obtain ⟨hnum, hden⟩ := (Passed.div h).magnitude_le
  simp only [List.forall_mem_cons, List.not_mem_nil, false_imp_iff, implies_true, and_true]
  exact ⟨hnum, hden⟩

end operators

/-! ### Texts -/

theorem Valid.inI64 (h : r.Valid) : InI64 r.num ∧ InI64 r.den := by
  rcases h with rfl | ⟨hbox, -⟩
  · decide
  · exact InBox.inI64 hbox

theorem toInt_toString (h : InI64 z) : toInt (toString z).toList = z := by
  have htrim : trim (toString z).toList = (toString z).toList := by
    refine trim_of_forall fun c hc => ?_
    rcases of_mem_toString_int hc with rfl | hdigit
    · rfl
    · exact isWhitespace_of_isDigit hdigit
  rw [toInt, htrim, parseInt_toString]
  exact if_pos h

theorem slash_notMem (z : ℤ) : '/' ∉ (toString z).toList := by
  intro hmem
  rcases of_mem_toString_int hmem with hslash | hdigit
  · exact absurd hslash (by decide)
  · exact absurd hdigit (by decide)

theorem fromString_toDisplayString (h : r.Valid) :
    fromString r.toDisplayString = new r.num r.den := by
  have hsplit : r.toDisplayString.toList.splitOn '/' =
      [(toString r.num).toList, (toString r.den).toList] := by
    have htext : r.toDisplayString.toList =
        ['/'].intercalate [(toString r.num).toList, (toString r.den).toList] := by
      simp [toDisplayString, List.intercalate]
    rw [htext]
    refine List.splitOn_intercalate _ ?_ (List.cons_ne_nil _ _)
    simp only [List.forall_mem_cons, List.not_mem_nil, false_imp_iff, implies_true, and_true]
    exact ⟨slash_notMem r.num, slash_notMem r.den⟩
  rw [fromString, hsplit]
  simp only [toInt_toString h.inI64.1, toInt_toString h.inI64.2]

theorem new_self (h : r.Valid) : new r.num r.den = some r := by
  obtain ⟨hnum, hden⟩ := h.inI64
  rcases h with rfl | ⟨hbox, hcoprime⟩
  · rfl
  · have hpos : 0 < r.den := hbox.one_le_den
    have hsigns := fixSigns_of_pos hpos (den_eq_one hpos hcoprime)
    obtain ⟨c, hreduce, hnearest⟩ :=
      reduceFraction_reduceMax (Passed.new ⟨r.num, hnum⟩ ⟨r.den, hden⟩ hsigns) hpos.ne'
    have hvalue := hnearest.ratOf_eq hbox rfl
    obtain ⟨hc1, hc2⟩ := Rat.div_int_inj hnearest.inBox.one_le_den hpos
      (Int.isCoprime_iff_gcd_eq_one.1 hnearest.coprime) (Int.isCoprime_iff_gcd_eq_one.1 hcoprime)
      hvalue
    rw [new, hsigns]
    simp only [Option.bind_eq_bind, Option.bind_some, hreduce, hc1, hc2, asI64_eq hnum,
      asI64_eq hden]

/-! ### The order -/

/-- The number of a rational. There is none for `0/0`, which stands below all. -/
def value (r : Fraction) : WithBot ℚ := if r.den = 0 then ⊥ else ((r.num / r.den : ℚ) : WithBot ℚ)

theorem Valid.den_pos (h : r.Valid) (hnan : r.isNan = false) : 0 < r.den := by
  rcases h with rfl | ⟨hbox, -⟩
  · exact absurd hnan (by decide)
  · exact hbox.one_le_den

@[simp] theorem value_null : null.value = ⊥ := if_pos rfl

theorem value_of_pos (h : 0 < r.den) : r.value = ((r.num / r.den : ℚ) : WithBot ℚ) :=
  if_neg h.ne'

/-- The numbers of fractions in lowest terms tell them apart. -/
theorem Valid.value_inj {a b : Fraction} (ha : a.Valid) (hb : b.Valid) (h : a.value = b.value) :
    a = b := by
  rcases ha with rfl | ⟨hboxa, hcoprimea⟩ <;> rcases hb with rfl | ⟨hboxb, hcoprimeb⟩
  · rfl
  · rw [value_null, value_of_pos hboxb.one_le_den] at h
    exact absurd h.symm WithBot.coe_ne_bot
  · rw [value_null, value_of_pos hboxa.one_le_den] at h
    exact absurd h WithBot.coe_ne_bot
  · rw [value_of_pos hboxa.one_le_den, value_of_pos hboxb.one_le_den, WithBot.coe_inj] at h
    obtain ⟨hnum, hden⟩ := Rat.div_int_inj hboxa.one_le_den hboxb.one_le_den
      (Int.isCoprime_iff_gcd_eq_one.1 hcoprimea) (Int.isCoprime_iff_gcd_eq_one.1 hcoprimeb) h
    cases a
    cases b
    exact congrArg₂ mk hnum hden

theorem cmp_of_pos {a b : Fraction} (ha : 0 < a.den) (hb : 0 < b.den) :
    a.cmp b = compare (a.num / a.den : ℚ) (b.num / b.den) := by
  have ha' : (0 : ℚ) < a.den := Int.cast_pos.2 ha
  have hb' : (0 : ℚ) < b.den := Int.cast_pos.2 hb
  have hlt : (a.num / a.den : ℚ) < b.num / b.den ↔ a.num * b.den < b.num * a.den := by
    rw [div_lt_div_iff₀ ha' hb']
    exact_mod_cast Iff.rfl
  have hgt : (b.num / b.den : ℚ) < a.num / a.den ↔ b.num * a.den < a.num * b.den := by
    rw [div_lt_div_iff₀ hb' ha']
    exact_mod_cast Iff.rfl
  simp only [cmp, ha.ne', hb.ne', decide_false, compareFractions, sub_ne_zero, sub_pos]
  rcases lt_trichotomy (a.num * b.den) (b.num * a.den) with horder | horder | horder
  · rw [compare_lt_iff_lt.2 (hlt.2 horder), if_pos horder.ne, if_neg horder.not_gt]
    rfl
  · have heq : (a.num / a.den : ℚ) = b.num / b.den := by
      rw [div_eq_div_iff ha'.ne' hb'.ne']
      exact_mod_cast horder
    rw [compare_eq_iff_eq.2 heq]
    simp [horder, ha.ne', hb.ne']
  · rw [compare_gt_iff_gt.2 (hgt.2 horder), if_pos horder.ne', if_pos horder]
    rfl

theorem cmp_eq_compare_value {a b : Fraction} (ha : a.Valid) (hb : b.Valid) :
    a.cmp b = compare a.value b.value := by
  rcases ha with rfl | ⟨hboxa, -⟩ <;> rcases hb with rfl | ⟨hboxb, -⟩
  · rfl
  · have hpos : 0 < b.den := hboxb.one_le_den
    rw [value_null, value_of_pos hpos, compare_lt_iff_lt.2 (WithBot.bot_lt_coe _)]
    simp [cmp, null, hpos.ne']
  · have hpos : 0 < a.den := hboxa.one_le_den
    rw [value_null, value_of_pos hpos, compare_gt_iff_gt.2 (WithBot.bot_lt_coe _)]
    simp [cmp, null, hpos.ne']
  · rw [cmp_of_pos hboxa.one_le_den hboxb.one_le_den, value_of_pos hboxa.one_le_den,
      value_of_pos hboxb.one_le_den, ← cmp_eq_compare, ← cmp_eq_compare]
    exact (WithBot.coe_strictMono.cmp_map_eq _ _).symm

/-- The laws of the order on three rationals. -/
structure OrderLaws (a b c : Fraction) : Prop where
  eq_iff : a.cmp b = .eq ↔ a = b
  swap : a.cmp b = (b.cmp a).swap
  trans : a.cmp b ≠ .gt → b.cmp c ≠ .gt → a.cmp c ≠ .gt
  numeric : a.isNan = false → b.isNan = false →
    a.cmp b = compare (a.num / a.den : ℚ) (b.num / b.den)

theorem orderLaws {a b c : Fraction} (ha : a.Valid) (hb : b.Valid) (hc : c.Valid) :
    OrderLaws a b c where
  eq_iff := by
    rw [cmp_eq_compare_value ha hb, compare_eq_iff_eq]
    exact ⟨ha.value_inj hb, congrArg value⟩
  swap := by
    rw [cmp_eq_compare_value ha hb, cmp_eq_compare_value hb ha, ← cmp_eq_compare, ← cmp_eq_compare]
    exact (cmp_swap _ _).symm
  trans := by
    rw [cmp_eq_compare_value ha hb, cmp_eq_compare_value hb hc, cmp_eq_compare_value ha hc]
    simp only [ne_eq, compare_gt_iff_gt, not_lt]
    exact le_trans
  numeric hnana hnanb := cmp_of_pos (ha.den_pos hnana) (hb.den_pos hnanb)

end Fraction

/-! ### Whole computations -/

/-- The operators of rationals. -/
inductive Operator
  | add
  | sub
  | mul
  | div

/-- What an operator computes. -/
def Operator.apply : Operator → Fraction → Fraction → Option Fraction
  | add => Fraction.add
  | sub => Fraction.sub
  | mul => Fraction.mul
  | div => Fraction.div

theorem Operator.apply_valid (o : Operator) {a b : Fraction} (ha : a.Valid) (hb : b.Valid) :
    ∃ r, o.apply a b = some r ∧ r.Valid := by
  cases o with
  | add => exact Fraction.add_valid ha hb
  | sub => exact Fraction.sub_valid ha hb
  | mul => exact Fraction.mul_valid ha hb
  | div => exact Fraction.div_valid ha hb

/-- A computation on rationals. -/
inductive Expression
  | new (num den : I64)
  | fromString (s : String)
  | apply (o : Operator) (a b : Expression)

namespace Expression

/-- The value of a computation. There is none when it overflows. -/
def eval : Expression → Option Fraction
  | new num den => Fraction.new num den
  | fromString s => Fraction.fromString s
  | apply o a b => do o.apply (← a.eval) (← b.eval)

/-- The signs of all fractions that are built or read can be moved. -/
def SignsFit : Expression → Prop
  | new num den => Core.SignsFit num den
  | fromString s =>
    match s.toList.splitOn '/' with
    | [num, den] => Core.SignsFit (toInt num) (toInt den)
    | _ => True
  | apply _ a b => a.SignsFit ∧ b.SignsFit

theorem inI64_toInt (s : List Char) : InI64 (toInt s) := by
  rw [toInt]
  split
  · split_ifs with h
    · exact h
    · decide
  · decide

theorem signsFit_one (num : ℤ) : Core.SignsFit num 1 :=
  ⟨by decide, fun h => absurd h (by decide)⟩

theorem fromString_valid {s : String} (h : (fromString s).SignsFit) :
    ∃ r, Fraction.fromString s = some r ∧ r.Valid := by
  rw [Fraction.fromString]
  rw [SignsFit] at h
  split
  · exact Fraction.new_valid (inI64_toInt _) (by decide) (signsFit_one _)
  next num den hsplit =>
    rw [hsplit] at h
    exact Fraction.new_valid (inI64_toInt num) (inI64_toInt den) h
  · exact ⟨Fraction.null, rfl, Or.inl rfl⟩

theorem fromString_eq_none {s : String} (h : ¬ (fromString s).SignsFit) :
    Fraction.fromString s = none := by
  rw [Fraction.fromString]
  rw [SignsFit] at h
  split at h
  next num den hsplit =>
    rw [hsplit]
    exact Fraction.new_eq_none h
  · exact absurd trivial h

/-- A computation whose signs can be moved has a valid value. -/
theorem eval_valid {e : Expression} (h : e.SignsFit) : ∃ r, e.eval = some r ∧ r.Valid := by
  induction e with
  | new num den => exact Fraction.new_valid num.2 den.2 h
  | fromString s => exact fromString_valid h
  | apply o a b iha ihb =>
    obtain ⟨x, hx, hvalidx⟩ := iha h.1
    obtain ⟨y, hy, hvalidy⟩ := ihb h.2
    rw [eval, hx, hy]
    exact o.apply_valid hvalidx hvalidy

theorem eval_eq_none {e : Expression} (h : ¬ e.SignsFit) : e.eval = none := by
  induction e with
  | new num den => exact Fraction.new_eq_none h
  | fromString s => exact fromString_eq_none h
  | apply o a b iha ihb =>
    rw [eval]
    by_cases ha : a.SignsFit
    · rw [ihb fun hb => h ⟨ha, hb⟩]
      obtain ⟨x, hx, -⟩ := eval_valid ha
      rw [hx]
      rfl
    · rw [iha ha]
      rfl

/-- A computation gives a rational that keeps the invariant, compares with all others in one order
and is read back from its text, if and only if no sign overflows where a fraction is built. -/
theorem rational_iff (e : Expression) :
    (∃ r, e.eval = some r ∧ r.Valid ∧
      (∀ b c : Fraction, b.Valid → c.Valid → Fraction.OrderLaws r b c) ∧
      Fraction.fromString r.toDisplayString = some r) ↔ e.SignsFit := by
  constructor
  · rintro ⟨r, hr, -⟩
    by_contra h
    rw [eval_eq_none h] at hr
    cases hr
  · intro h
    obtain ⟨r, hr, hvalid⟩ := eval_valid h
    refine ⟨r, hr, hvalid, fun b c hb hc => Fraction.orderLaws hvalid hb hc, ?_⟩
    rw [Fraction.fromString_toDisplayString hvalid, Fraction.new_self hvalid]

/-- The least denominator cannot be negated. -/
theorem rational_min_denominator :
    (new ⟨1, by decide⟩ ⟨-2 ^ 63, by decide⟩).eval = none := rfl

end Expression

end Oak.Core
