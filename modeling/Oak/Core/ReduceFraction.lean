import Mathlib.RingTheory.Coprime.Lemmas
import Oak.Core.Ratio
import Oak.Lib.BestApproximation

/-!
# Reducing fractions

`reduce_fraction` of `oak-core/src/rational.rs` with its 128-bit arithmetic: a fraction is divided
by its greatest common divisor, and one that is still too large is replaced by a convergent or a
semiconvergent of its continued fraction.

* `checked` is a computation on `i128`, which has no result when one of its values overflows.
* `convergents` is the loop of the continued fraction, and `reduceFraction` the function.

## Main results

* `i64Gcd_eq`: the loop of `i64_gcd` computes the greatest common divisor.
* `reduceFraction_nearest`: a fraction with a denominator is reduced to the nearest one within the
  bound, and nothing overflows.
-/

namespace Oak.Core

open Oak.Lib

/-- A value of `i128`. -/
def Fits (z : ℤ) : Prop := -2 ^ 127 ≤ z ∧ z < 2 ^ 127

instance : DecidablePred Fits := fun _ => inferInstanceAs (Decidable (_ ∧ _))

/-- A result with the values that are computed for it, all of which are values of `i128`. -/
def checked {α : Type} (values : List ℤ) (result : Option α) : Option α :=
  if ∀ z ∈ values, Fits z then result else none

theorem checked_eq {α : Type} {values : List ℤ} {result : Option α} (h : ∀ z ∈ values, Fits z) :
    checked values result = result := if_pos h

/-- The magnitude that the source computes with a branch on the sign. -/
def magnitude (z : ℤ) : ℤ := if z < 0 then -z else z

theorem magnitude_eq_abs (z : ℤ) : magnitude z = |z| := by
  rw [magnitude]
  split_ifs with hz
  · rw [abs_of_neg hz]
  · rw [abs_of_nonneg (not_lt.1 hz)]

theorem natAbs_tmod_lt (a : ℤ) {b : ℤ} (h : b ≠ 0) : (a.tmod b).natAbs < b.natAbs := by
  rw [Int.natAbs_tmod]
  exact Nat.mod_lt _ (Int.natAbs_pos.2 h)

/-- The loop of `i64_gcd`. -/
def gcdLoop (a b : ℤ) : ℤ :=
  if _ : b = 0 then a
  else gcdLoop b (a.tmod b)
termination_by b.natAbs
decreasing_by exact natAbs_tmod_lt a ‹_›

/-- `i64_gcd`. -/
def i64Gcd (a b : ℤ) : Option ℤ :=
  checked [magnitude a, magnitude b] (some (gcdLoop (magnitude a) (magnitude b)))

/-- The factor with which the loop leaves: the quotient `x` as far as both sides of
`x * a₁ + a₀` stay within the bound. -/
def largestFactor (max x : ℤ) (a₀ a₁ : ℤ × ℤ) : ℤ :=
  let x := if a₁.1 ≠ 0 then (max - a₀.1).tdiv a₁.1 else x
  if a₁.2 ≠ 0 ∧ (max - a₀.2).tdiv a₁.2 < x then (max - a₀.2).tdiv a₁.2 else x

/-- The loop of `reduce_fraction`, with the last two convergents `a₀` and `a₁`. -/
def convergents (max n d : ℤ) (a₀ a₁ : ℤ × ℤ) : Option (ℤ × ℤ) :=
  if _ : d = 0 then some a₁
  else
    let x := n.tdiv d
    let a₂ := combine x a₁ a₀
    checked [d * x, n - d * x, x * a₁.1, a₂.1, x * a₁.2, a₂.2] <|
      if max < a₂.1 ∨ max < a₂.2 then
        let x := largestFactor max x a₀ a₁
        checked [max - a₀.1, max - a₀.2, 2 * x, 2 * x * a₁.2, 2 * x * a₁.2 + a₀.2,
            d * (2 * x * a₁.2 + a₀.2), n * a₁.2] <|
          if n * a₁.2 < d * (2 * x * a₁.2 + a₀.2) then
            let a₁' := combine x a₁ a₀
            checked [x * a₁.1, a₁'.1, x * a₁.2, a₁'.2] (some a₁')
          else some a₁
      else convergents max d (n - d * x) a₁ a₂
termination_by d.natAbs
decreasing_by
  rw [← Int.tmod_def]
  exact natAbs_tmod_lt n ‹_›

/-- A magnitude with its sign again. -/
def signed (sign : Bool) (z : ℤ) : ℤ := if sign then -z else z

/-- `reduce_fraction`. There is no result when a value overflows. -/
def reduceFraction (num den max : ℤ) : Option (ℤ × ℤ) :=
  if den = 0 then some (0, 0)
  else do
    let sign := decide (num < 0) != decide (den < 0)
    let gcd ← i64Gcd num den
    let (num, den) :=
      if gcd ≠ 0 then ((magnitude num).tdiv gcd, (magnitude den).tdiv gcd) else (num, den)
    if num ≤ max ∧ den ≤ max then checked [signed sign num] (some (signed sign num, den))
    else
      let a ← convergents max num den (0, 1) (1, 0)
      checked [signed sign a.1] (some (signed sign a.1, a.2))

/-! ### The greatest common divisor -/

theorem gcdLoop_eq {a b : ℤ} (ha : 0 ≤ a) (hb : 0 ≤ b) : gcdLoop a b = Int.gcd a b := by
  induction a, b using gcdLoop.induct with
  | case1 a =>
    rw [gcdLoop, dif_pos rfl, Int.gcd_zero_right, Int.natAbs_of_nonneg ha]
  | case2 a b hne ih =>
    rw [gcdLoop, dif_neg hne, ih hb (Int.tmod_nonneg b ha), Int.tmod_eq_emod_of_nonneg ha,
      Int.gcd_comm, Int.gcd_emod]

/-- Half of the range of `i128` is enough for every value of the computation. -/
def maxInput : ℤ := 2 ^ 120

theorem fits_of_abs_le {z : ℤ} (h : |z| ≤ 8 * maxInput) : Fits z := by
  rw [abs_le, maxInput] at h
  rw [Fits]
  omega

/-- The greatest common divisor is computed. -/
theorem i64Gcd_eq {a b : ℤ} (ha : |a| ≤ maxInput) (hb : |b| ≤ maxInput) :
    i64Gcd a b = some (Int.gcd a b : ℤ) := by
  have hfits {z : ℤ} (hz : |z| ≤ maxInput) : Fits (magnitude z) := by
    apply fits_of_abs_le
    rw [magnitude_eq_abs, abs_abs]
    exact hz.trans (by rw [maxInput]; omega)
  rw [i64Gcd, checked_eq (by simp [hfits ha, hfits hb]), magnitude_eq_abs, magnitude_eq_abs,
    gcdLoop_eq (abs_nonneg a) (abs_nonneg b), Int.gcd, Int.natAbs_abs, Int.natAbs_abs, Int.gcd]

/-! ### The factor with which the loop leaves -/

section largestFactor

variable {M x : ℤ} {a₀ a₁ : ℤ × ℤ}

theorem mul_add_le_iff {p q y : ℤ} (hp : 0 ≤ p) (hq : q ≤ M) :
    y * p + q ≤ M ↔ (p ≠ 0 → y ≤ (M - q).tdiv p) := by
  rcases hp.eq_or_lt with rfl | hpos
  · simpa using hq
  · rw [Int.tdiv_eq_ediv_of_nonneg (sub_nonneg.2 hq), Int.le_ediv_iff_mul_le hpos, le_sub_iff_add_le]
    exact ⟨fun hle _ => hle, fun hle => hle hpos.ne'⟩

theorem inSquare_combine_iff (h₀ : InSquare M a₀) (h₁ : InSquare M a₁) (hx : 0 ≤ x) :
    InSquare M (combine x a₁ a₀) ↔
      (a₁.1 ≠ 0 → x ≤ (M - a₀.1).tdiv a₁.1) ∧ (a₁.2 ≠ 0 → x ≤ (M - a₀.2).tdiv a₁.2) := by
  rw [← mul_add_le_iff h₁.num_nonneg h₀.num_le, ← mul_add_le_iff h₁.den_nonneg h₀.den_le]
  constructor
  · intro h
    exact ⟨h.num_le, h.den_le⟩
  · rintro ⟨hnum, hden⟩
    exact
      { num_nonneg := add_nonneg (mul_nonneg hx h₁.num_nonneg) h₀.num_nonneg
        num_le := hnum
        den_nonneg := add_nonneg (mul_nonneg hx h₁.den_nonneg) h₀.den_nonneg
        den_le := hden }

/-- The factor is the largest one for which both sides stay in the bound. -/
theorem largestFactor_spec (h₀ : InSquare M a₀) (h₁ : InSquare M a₁) (hx : 0 ≤ x)
    (hlarge : ¬ InSquare M (combine x a₁ a₀)) :
    0 ≤ largestFactor M x a₀ a₁ ∧ largestFactor M x a₀ a₁ ≤ x ∧
      InSquare M (combine (largestFactor M x a₀ a₁) a₁ a₀) ∧
      ¬ InSquare M (combine (largestFactor M x a₀ a₁ + 1) a₁ a₀) := by
  have hnum : 0 ≤ (M - a₀.1).tdiv a₁.1 := Int.tdiv_nonneg (sub_nonneg.2 h₀.num_le) h₁.num_nonneg
  have hden : 0 ≤ (M - a₀.2).tdiv a₁.2 := Int.tdiv_nonneg (sub_nonneg.2 h₀.den_le) h₁.den_nonneg
  have hnonneg : 0 ≤ largestFactor M x a₀ a₁ := by
    simp only [largestFactor]
    split_ifs <;> assumption
  rw [inSquare_combine_iff h₀ h₁ hx] at hlarge
  rw [inSquare_combine_iff h₀ h₁ hnonneg, inSquare_combine_iff h₀ h₁ (by omega)]
  refine ⟨hnonneg, ?_⟩
  simp only [largestFactor]
  split_ifs <;> omega

end largestFactor

/-! ### The loop -/

section loop

variable {M A B n d x : ℤ} {a₀ a₁ : ℤ × ℤ} (hM : M ≤ maxInput) (hA : A ≤ maxInput)
  (hB : B ≤ maxInput) (h : Convergents M A B n d a₀ a₁) (hd : 0 < d) (hx0 : 0 ≤ x)
  (hx : d * x ≤ n)

include hA hB h hd hx0 hx

theorem fits_combine : ∀ z ∈ [d * x, n - d * x, x * a₁.1, (combine x a₁ a₀).1, x * a₁.2,
    (combine x a₁ a₀).2], Fits z := by
  have hn := h.n_le hA hB
  have hn0 := h.n_nonneg
  have hdx := mul_nonneg hd.le hx0
  have hnum := h.combine_num_le hd hx0 hx
  have hden := h.combine_den_le hd hx0 hx
  have hnum0 := mul_nonneg hx0 h.within₁.num_nonneg
  have hden0 := mul_nonneg hx0 h.within₁.den_nonneg
  have hnum₀ := h.within₀.num_nonneg
  have hden₀ := h.within₀.den_nonneg
  simp only [combine, List.forall_mem_cons, List.not_mem_nil, false_imp_iff, implies_true, and_true,
    Fits, maxInput] at *
  omega

include hM

theorem fits_comparison : ∀ z ∈ [M - a₀.1, M - a₀.2, 2 * x, 2 * x * a₁.2, 2 * x * a₁.2 + a₀.2,
    d * (2 * x * a₁.2 + a₀.2), n * a₁.2], Fits z := by
  have hn := h.n_le hA hB
  have hxn : x ≤ n := (le_mul_of_one_le_left hx0 hd).trans hx
  have htwice : 2 * x * a₁.2 = 2 * (x * a₁.2) := mul_assoc 2 x a₁.2
  have hcompare : d * (2 * x * a₁.2 + a₀.2) = 2 * (d * (combine x a₁ a₀).2) - d * a₀.2 := by
    rw [combine]
    ring
  have hden : x * a₁.2 + a₀.2 ≤ B := h.combine_den_le hd hx0 hx
  have hmul := h.mul_combine_den_le hx
  have hlast := h.mul_den_le
  have hden0 := mul_nonneg hx0 h.within₁.den_nonneg
  have hlast0 := mul_nonneg h.n_nonneg h.within₁.den_nonneg
  have hcompare0 : 0 ≤ d * (2 * x * a₁.2 + a₀.2) := by
    refine mul_nonneg hd.le (add_nonneg ?_ h.within₀.den_nonneg)
    rw [htwice]
    exact mul_nonneg zero_le_two hden0
  have hd0 := mul_nonneg hd.le h.within₀.den_nonneg
  obtain ⟨hnum₀, hnumM, hden₀, hdenM⟩ := h.within₀
  simp only [List.forall_mem_cons, List.not_mem_nil, false_imp_iff, implies_true, and_true,
    Fits, maxInput] at *
  omega

end loop

/-- The loop of the continued fraction finds the nearest fraction of the box. -/
theorem convergents_nearest {M A B n d : ℤ} {a₀ a₁ : ℤ × ℤ} (hM : M ≤ maxInput)
    (hA : A ≤ maxInput) (hBmax : B ≤ maxInput) (hB : 0 < B) (h : Convergents M A B n d a₀ a₁) :
    ∃ c, convergents M n d a₀ a₁ = some c ∧ Nearest M (A / B) c := by
  induction n, d, a₀, a₁ using convergents.induct with
  | case1 n a₀ a₁ =>
    rw [convergents, dif_pos rfl]
    exact ⟨a₁, rfl, h.nearest_of_eq_zero hB rfl⟩
  | case2 n d a₀ a₁ hne x a₂ ih =>
    have hd : 0 < d := lt_of_le_of_ne h.d_nonneg (Ne.symm hne)
    have hxdiv : x = n / d := Int.tdiv_eq_ediv_of_nonneg h.n_nonneg
    have hx0 : 0 ≤ x := Int.tdiv_nonneg h.n_nonneg hd.le
    have hx : d * x ≤ n := hxdiv ▸ Int.mul_ediv_self_le hne
    have hsquare : InSquare M a₂ ↔ ¬ (M < a₂.1 ∨ M < a₂.2) := by
      rw [not_or, not_lt, not_lt]
      exact ⟨fun hs => ⟨hs.num_le, hs.den_le⟩, fun hle =>
        { num_nonneg := add_nonneg (mul_nonneg hx0 h.within₁.num_nonneg) h.within₀.num_nonneg
          num_le := hle.1
          den_nonneg := add_nonneg (mul_nonneg hx0 h.within₁.den_nonneg) h.within₀.den_nonneg
          den_le := hle.2 }⟩
    rw [convergents, dif_neg hne]
    dsimp only
    rw [checked_eq (fits_combine hA hBmax h hd hx0 hx)]
    by_cases hlarge : M < a₂.1 ∨ M < a₂.2
    · obtain ⟨hy0, hyx, hs, hnext⟩ :=
        largestFactor_spec h.within₀ h.within₁ hx0 fun hs => hsquare.1 hs hlarge
      have hy : d * largestFactor M x a₀ a₁ ≤ n :=
        (mul_le_mul_of_nonneg_left hyx hd.le).trans hx
      have hnearest := h.nearest_semiconvergent hB hd hy hs hnext
      rw [if_pos hlarge, checked_eq (fits_comparison hM hA hBmax h hd hy0 hy)]
      split_ifs at hnearest ⊢
      · rw [checked_eq]
        · exact ⟨_, rfl, hnearest⟩
        · intro z hz
          have htail := List.mem_cons_of_mem (n - d * largestFactor M x a₀ a₁) hz
          exact fits_combine hA hBmax h hd hy0 hy z (List.mem_cons_of_mem _ htail)
      · exact ⟨_, rfl, hnearest⟩
    · rw [if_neg hlarge]
      have hnext := h.next hd (hxdiv ▸ hsquare.2 hlarge)
      rw [← hxdiv] at hnext
      exact ih hnext

/-! ### The reduced fraction -/

theorem fits_signed {M z : ℤ} {sign : Bool} (hM : M ≤ maxInput) (h0 : -M ≤ z) (hz : z ≤ M) :
    ∀ y ∈ [signed sign z], Fits y := by
  simp only [List.forall_mem_cons, List.not_mem_nil, false_imp_iff, implies_true, and_true, signed,
    Fits, maxInput] at *
  split_ifs <;> omega

/-- A magnitude that is nearest to the magnitude of a number is nearest to it with its sign. -/
theorem nearest_signed {M : ℤ} {v : ℚ} {sign : Bool} {c : ℤ × ℤ} (h : Nearest M v c) :
    Nearest M (if sign then -v else v) (signed sign c.1, c.2) := by
  cases sign
  · exact h
  · exact h.neg

theorem div_eq_signed {num den g A B : ℤ} (hg : g ≠ 0) (hA : |num| = A * g) (hB : |den| = B * g) :
    (num / den : ℚ) =
      if (decide (num < 0) != decide (den < 0)) = true then -(A / B : ℚ) else (A / B : ℚ) := by
  have hmagnitude : (A / B : ℚ) = |(num : ℚ)| / |(den : ℚ)| := by
    have hg' : (g : ℚ) ≠ 0 := Int.cast_ne_zero.2 hg
    rw [← Int.cast_abs, ← Int.cast_abs, hA, hB, Int.cast_mul, Int.cast_mul,
      mul_div_mul_right _ _ hg']
  have hcast {z : ℤ} (hz : z < 0) : |(z : ℚ)| = -z := abs_of_neg (Int.cast_lt_zero.2 hz)
  have hcast' {z : ℤ} (hz : 0 ≤ z) : |(z : ℚ)| = z := abs_of_nonneg (Int.cast_nonneg hz)
  rw [hmagnitude]
  rcases lt_or_ge num 0 with hnum | hnum <;> rcases lt_or_ge den 0 with hden | hden
  · rw [hcast hnum, hcast hden]
    simp [hnum, hden, neg_div_neg_eq]
  · rw [hcast hnum, hcast' hden]
    simp [hnum, hden.not_gt, neg_div]
  · rw [hcast' hnum, hcast hden]
    simp [hnum.not_gt, hden, div_neg]
  · rw [hcast' hnum, hcast' hden]
    simp [hnum.not_gt, hden.not_gt]

/-- A fraction with a denominator is reduced to the nearest one, and nothing overflows. -/
theorem reduceFraction_nearest {num den max : ℤ} (hmax1 : 1 ≤ max) (hmax : max ≤ maxInput)
    (hnum : |num| ≤ maxInput) (hden : |den| ≤ maxInput) (hne : den ≠ 0) :
    ∃ c, reduceFraction num den max = some c ∧ Nearest max (num / den) c := by
  have hg : 0 < (Int.gcd num den : ℤ) := Int.natCast_pos.2 (Int.gcd_pos_of_ne_zero_right num hne)
  obtain ⟨A, hA⟩ : ∃ A, |num| = A * (Int.gcd num den : ℤ) :=
    exists_eq_mul_left_of_dvd ((dvd_abs _ _).2 (Int.gcd_dvd_left num den))
  obtain ⟨B, hB⟩ : ∃ B, |den| = B * (Int.gcd num den : ℤ) :=
    exists_eq_mul_left_of_dvd ((dvd_abs _ _).2 (Int.gcd_dvd_right num den))
  have hA0 : 0 ≤ A := nonneg_of_mul_nonneg_left (hA ▸ abs_nonneg num) hg
  have hB0 : 0 < B := pos_of_mul_pos_left (hB ▸ abs_pos.2 hne) hg.le
  have hAmax : A ≤ maxInput := (le_mul_of_one_le_right hA0 hg).trans (hA ▸ hnum)
  have hBmax : B ≤ maxInput := (le_mul_of_one_le_right hB0.le hg).trans (hB ▸ hden)
  have hcoprime : IsCoprime A B := by
    rw [Int.isCoprime_iff_gcd_eq_one]
    have hgcd : Int.gcd |num| |den| = Int.gcd num den := by
      rw [Int.gcd, Int.natAbs_abs, Int.natAbs_abs, Int.gcd]
    rw [hA, hB, Int.gcd_mul_right, Int.natAbs_natCast] at hgcd
    exact Nat.eq_of_mul_eq_mul_right (Int.natCast_pos.1 hg) (hgcd.trans (one_mul _).symm)
  have hquotient {z C : ℤ} (hC : |z| = C * (Int.gcd num den : ℤ)) :
      (magnitude z).tdiv (Int.gcd num den) = C := by
    rw [magnitude_eq_abs, hC, Int.mul_tdiv_cancel _ hg.ne']
  rw [div_eq_signed hg.ne' hA hB, reduceFraction, if_neg hne, i64Gcd_eq hnum hden]
  simp only [Option.bind_eq_bind, Option.bind_some, ne_eq, hg.ne', not_false_eq_true, if_true,
    hquotient hA, hquotient hB]
  generalize (decide (num < 0) != decide (den < 0)) = sign
  by_cases hsmall : A ≤ max ∧ B ≤ max
  · rw [if_pos hsmall, checked_eq (fits_signed hmax (by omega) hsmall.1)]
    refine ⟨_, rfl, nearest_signed (nearest_self ?_ hcoprime)⟩
    exact InSquare.inBox ⟨hA0, hsmall.1, hB0.le, hsmall.2⟩ hB0
  · rw [if_neg hsmall]
    obtain ⟨c, hc, hnearest⟩ :=
      convergents_nearest hmax hAmax hBmax hB0 (Convergents.start hmax1 hA0 hB0.le)
    rw [hc, Option.bind_some,
      checked_eq (fits_signed hmax hnearest.inBox.le_num hnearest.inBox.num_le)]
    exact ⟨_, rfl, nearest_signed hnearest⟩

end Oak.Core
