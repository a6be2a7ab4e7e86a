import Mathlib.Algebra.Order.Field.Basic
import Mathlib.Algebra.Order.Field.Rat
import Mathlib.Algebra.Order.Ring.Abs
import Mathlib.Algebra.Order.Round
import Mathlib.Data.Rat.Floor
import Mathlib.RingTheory.Coprime.Basic
import Mathlib.Tactic.FieldSimp
import Mathlib.Tactic.Linarith
import Mathlib.Tactic.Ring

/-!
# Best approximations in a box

Which fraction with a bounded numerator and a bounded denominator is nearest to `A / B`. Fractions
are pairs of integers, and the continued fraction of `A / B` is followed in its remainders `n` and
`d` and its last two convergents `a₀` and `a₁`.

* `Nearest` says that a fraction of the box is at least as close as every other one.
* `Convergents` is what holds of the remainders and the convergents at each step.

## Main results

* `Convergents.next`: a step of the continued fraction whose convergent is in the bounds.
* `Convergents.nearest_of_eq_zero`: at the end the last convergent is the number itself.
* `Convergents.nearest_semiconvergent`: when the next convergent is out of bounds, the largest
  semiconvergent or the last convergent is nearest.
-/

namespace Oak.Lib

/-- A fraction is within a bound. -/
structure InBox (M : ℤ) (c : ℤ × ℤ) : Prop where
  le_num : -M ≤ c.1
  num_le : c.1 ≤ M
  one_le_den : 1 ≤ c.2
  den_le : c.2 ≤ M

/-- The rational of a fraction. -/
def ratOf (c : ℤ × ℤ) : ℚ := c.1 / c.2

/-- A fraction of the box to which no other is nearer. -/
structure Nearest (M : ℤ) (v : ℚ) (c : ℤ × ℤ) : Prop where
  inBox : InBox M c
  coprime : IsCoprime c.1 c.2
  le : ∀ c', InBox M c' → |v - ratOf c| ≤ |v - ratOf c'|

variable {c : ℤ × ℤ}

theorem InBox.neg {M : ℤ} (h : InBox M c) : InBox M (-c.1, c.2) :=
  ⟨neg_le_neg h.num_le, neg_le.1 h.le_num, h.one_le_den, h.den_le⟩

theorem ratOf_neg (c : ℤ × ℤ) : ratOf (-c.1, c.2) = -ratOf c := by
  rw [ratOf, ratOf, Int.cast_neg, neg_div]

theorem abs_neg_sub_ratOf (v : ℚ) (c : ℤ × ℤ) :
    |-v - ratOf c| = |v - ratOf (-c.1, c.2)| := by
  have heq : v - ratOf (-c.1, c.2) = -(-v - ratOf c) := by
    rw [ratOf_neg]
    ring
  rw [heq, abs_neg]

variable {v : ℚ}

theorem Nearest.neg {M : ℤ} (h : Nearest M v c) :
    Nearest M (-v) (-c.1, c.2) where
  inBox := h.inBox.neg
  coprime := h.coprime.neg_left
  le c' hc' := by
    rw [abs_neg_sub_ratOf, abs_neg_sub_ratOf, neg_neg]
    exact h.le _ hc'.neg

/-- The distance of `A / B` and a fraction, times both denominators. -/
def gap (A B : ℤ) (c : ℤ × ℤ) : ℤ := |A * c.2 - c.1 * B|

theorem abs_sub_ratOf {A B : ℤ} (hB : 0 < B) (hc : 0 < c.2) :
    |(A : ℚ) / B - ratOf c| = gap A B c / (B * c.2) := by
  have hB' : (0 : ℚ) < B := Int.cast_pos.2 hB
  have hc' : (0 : ℚ) < c.2 := Int.cast_pos.2 hc
  rw [ratOf, div_sub_div _ _ hB'.ne' hc'.ne', abs_div, abs_of_pos (mul_pos hB' hc'), gap,
    mul_comm (B : ℚ) (c.1 : ℚ)]
  push_cast
  rfl

theorem abs_sub_le_of_gap {A B : ℤ} {c c' : ℤ × ℤ} (hB : 0 < B) (hc : 0 < c.2) (hc' : 0 < c'.2)
    (h : gap A B c * c'.2 ≤ gap A B c' * c.2) :
    |(A : ℚ) / B - ratOf c| ≤ |(A : ℚ) / B - ratOf c'| := by
  rw [abs_sub_ratOf hB hc, abs_sub_ratOf hB hc']
  have hB' : (0 : ℚ) < B := Int.cast_pos.2 hB
  have hcq : (0 : ℚ) < c.2 := Int.cast_pos.2 hc
  have hcq' : (0 : ℚ) < c'.2 := Int.cast_pos.2 hc'
  have hcast : (gap A B c : ℚ) * c'.2 ≤ gap A B c' * c.2 := by exact_mod_cast h
  rw [div_le_div_iff₀ (mul_pos hB' hcq) (mul_pos hB' hcq')]
  calc (gap A B c : ℚ) * (B * c'.2) = B * (gap A B c * c'.2) := by ring
    _ ≤ B * (gap A B c' * c.2) := mul_le_mul_of_nonneg_left hcast hB'.le
    _ = gap A B c' * (B * c.2) := by ring

theorem nearest_of_gap_eq_zero {M A B : ℤ} (hB : 0 < B) (hbox : InBox M c)
    (hcoprime : IsCoprime c.1 c.2) (h : gap A B c = 0) : Nearest M (A / B) c := by
  refine ⟨hbox, hcoprime, fun c' hc' => ?_⟩
  rw [abs_sub_ratOf hB hbox.one_le_den, h, Int.cast_zero, zero_div]
  exact abs_nonneg _

theorem nearest_self {M A B : ℤ} (hbox : InBox M (A, B)) (hcoprime : IsCoprime A B) :
    Nearest M (A / B) (A, B) :=
  nearest_of_gap_eq_zero hbox.one_le_den hbox hcoprime (by rw [gap, sub_self, abs_zero])

/-- When a fraction of the box has a value, the nearest one has it too. -/
theorem Nearest.ratOf_eq {M : ℤ} {c c' : ℤ × ℤ} (h : Nearest M v c) (hc' : InBox M c')
    (hv : ratOf c' = v) : ratOf c = v := by
  have hle := h.le c' hc'
  rw [hv, sub_self, abs_zero] at hle
  exact (sub_eq_zero.1 (abs_nonpos_iff.1 hle)).symm

theorem Nearest.eq_bound {M : ℤ} (h : Nearest M v c) (hM : 1 ≤ M) (hv : (M : ℚ) ≤ v) :
    ratOf c = M := by
  have hbound : ratOf (M, 1) = M := by rw [ratOf, Int.cast_one, div_one]
  have hden : (1 : ℚ) ≤ c.2 := by exact_mod_cast h.inBox.one_le_den
  have hle : ratOf c ≤ M := by
    rw [ratOf, div_le_iff₀ (zero_lt_one.trans_le hden)]
    refine le_trans (by exact_mod_cast h.inBox.num_le) (le_mul_of_one_le_right ?_ hden)
    exact_mod_cast zero_le_one.trans hM
  have hnear := h.le (M, 1) ⟨by omega, le_rfl, le_rfl, hM⟩
  rw [hbound, abs_of_nonneg (by linarith), abs_of_nonneg (by linarith)] at hnear
  linarith

theorem Nearest.pos {M : ℤ} (h : Nearest M v c) (hM : 1 ≤ M) (hv : 1 / M ≤ v) : 0 < ratOf c := by
  have hfirst : ratOf (1, M) = 1 / M := by rw [ratOf, Int.cast_one]
  have hpos : (0 : ℚ) < 1 / M := one_div_pos.2 (Int.cast_pos.2 hM)
  by_contra hneg
  have hnear := h.le (1, M) ⟨by omega, hM, hM, le_rfl⟩
  rw [hfirst, abs_of_nonneg (by linarith), abs_of_nonneg (by linarith)] at hnear
  linarith

/-- A number whose distance is not small in proportion to `v` is not the nearest fraction. -/
theorem Nearest.ne {M : ℤ} {v z : ℚ} (h : Nearest M v c) (hone : 1 ≤ |v|) (hv : |v| ≤ M)
    (hz : |v| / M ≤ |v - z|) : ratOf c ≠ z := by
  rintro rfl
  have hv0 : 0 < |v| := zero_lt_one.trans_le hone
  have hM : (0 : ℚ) < M := hv0.trans_le hv
  have hq : 1 ≤ ⌊(M : ℚ) / |v|⌋ :=
    Int.le_floor.2 (by rwa [Int.cast_one, le_div_iff₀ hv0, one_mul])
  have hle : ⌊(M : ℚ) / |v|⌋ * |v| ≤ M := (le_div_iff₀ hv0).1 (Int.floor_le _)
  have hlt : (M : ℚ) < (⌊(M : ℚ) / |v|⌋ + 1) * |v| := (div_lt_iff₀ hv0).1 (Int.lt_floor_add_one _)
  generalize ⌊(M : ℚ) / |v|⌋ = q at hq hle hlt
  have hq1 : (1 : ℚ) ≤ q := by exact_mod_cast hq
  have hq0 : (0 : ℚ) < q := zero_lt_one.trans_le hq1
  have hround := abs_sub_round (v * q)
  have hp : |round (v * q)| ≤ M := by
    have hsub := abs_sub_abs_le_abs_sub (round (v * q) : ℚ) (v * q)
    rw [abs_sub_comm, abs_mul, abs_of_pos hq0] at hsub
    have hlt' : |(round (v * q) : ℚ)| < M + 1 := by linarith
    exact Int.lt_add_one_iff.1 (by exact_mod_cast hlt')
  have hbox : InBox M (round (v * q), q) := by
    obtain ⟨hlow, hhigh⟩ := abs_le.1 hp
    exact ⟨hlow, hhigh, hq, by exact_mod_cast (le_mul_of_one_le_right hq0.le hone).trans hle⟩
  have hnear : |v - ratOf (round (v * q), q)| ≤ 1 / 2 / q := by
    rw [le_div_iff₀ hq0, ← abs_of_pos hq0, ← abs_mul, abs_of_pos hq0, sub_mul, ratOf,
      div_mul_cancel₀ _ hq0.ne']
    exact hround
  have hhalf : 1 / 2 / (q : ℚ) < |v| / M := by
    rw [div_lt_div_iff₀ hq0 hM]
    have hself : |v| ≤ q * |v| := le_mul_of_one_le_left hv0.le hq1
    linarith
  exact absurd (h.le _ hbox) (not_le.2 ((hnear.trans_lt hhalf).trans_le hz))

/-- `x` times a fraction and another one, each side on its own. -/
def combine (x : ℤ) (a₁ a₀ : ℤ × ℤ) : ℤ × ℤ := (x * a₁.1 + a₀.1, x * a₁.2 + a₀.2)

/-- Both sides of a fraction are between zero and a bound. -/
structure InSquare (M : ℤ) (c : ℤ × ℤ) : Prop where
  num_nonneg : 0 ≤ c.1
  num_le : c.1 ≤ M
  den_nonneg : 0 ≤ c.2
  den_le : c.2 ≤ M

theorem InSquare.inBox {M : ℤ} (h : InSquare M c) (hden : 1 ≤ c.2) : InBox M c :=
  ⟨by have := h.num_nonneg; have := h.num_le; omega, h.num_le, hden, h.den_le⟩

/-- The remainders `n` and `d` of a continued fraction with its last two convergents. -/
structure Convergents (M A B n d : ℤ) (a₀ a₁ : ℤ × ℤ) : Prop where
  n_nonneg : 0 ≤ n
  d_nonneg : 0 ≤ d
  within₀ : InSquare M a₀
  within₁ : InSquare M a₁
  det : a₁.1 * a₀.2 - a₀.1 * a₁.2 = 1 ∨ a₁.1 * a₀.2 - a₀.1 * a₁.2 = -1
  num_eq : A = n * a₁.1 + d * a₀.1
  den_eq : B = n * a₁.2 + d * a₀.2

theorem Convergents.start {M A B : ℤ} (hM : 1 ≤ M) (hA : 0 ≤ A) (hB : 0 ≤ B) :
    Convergents M A B A B (0, 1) (1, 0) where
  n_nonneg := hA
  d_nonneg := hB
  within₀ := ⟨le_rfl, by dsimp only; omega, by dsimp only; omega, hM⟩
  within₁ := ⟨by dsimp only; omega, hM, le_rfl, by dsimp only; omega⟩
  det := Or.inl (by norm_num)
  num_eq := by ring
  den_eq := by ring

theorem isCoprime_of_det {c c' : ℤ × ℤ}
    (h : c.1 * c'.2 - c'.1 * c.2 = 1 ∨ c.1 * c'.2 - c'.1 * c.2 = -1) : IsCoprime c.1 c.2 := by
  rcases h with h | h
  · exact ⟨c'.2, -c'.1, by rw [← h]; ring⟩
  · exact ⟨-c'.2, c'.1, by rw [← neg_eq_iff_eq_neg.2 h]; ring⟩

variable {α β : ℤ}

namespace Convergents

variable {M A B n d : ℤ} {a₀ a₁ : ℤ × ℤ} (h : Convergents M A B n d a₀ a₁)

include h

theorem isCoprime : IsCoprime a₁.1 a₁.2 := isCoprime_of_det h.det

/-- A combination with the last convergent is one of a different basis. -/
theorem det_combine (x : ℤ) :
    (combine x a₁ a₀).1 * a₁.2 - a₁.1 * (combine x a₁ a₀).2 = 1 ∨
      (combine x a₁ a₀).1 * a₁.2 - a₁.1 * (combine x a₁ a₀).2 = -1 := by
  have heq : (combine x a₁ a₀).1 * a₁.2 - a₁.1 * (combine x a₁ a₀).2 =
      -(a₁.1 * a₀.2 - a₀.1 * a₁.2) := by
    simp only [combine]
    ring
  rw [heq, neg_eq_iff_eq_neg, neg_inj]
  exact h.det.symm

/-- A step of the continued fraction. -/
theorem next (hd : 0 < d) (hsquare : InSquare M (combine (n / d) a₁ a₀)) :
    Convergents M A B d (n - d * (n / d)) a₁ (combine (n / d) a₁ a₀) where
  n_nonneg := h.d_nonneg
  d_nonneg := sub_nonneg.2 (Int.mul_ediv_self_le hd.ne')
  within₀ := h.within₁
  within₁ := hsquare
  det := h.det_combine _
  num_eq := by
    rw [h.num_eq, combine]
    ring
  den_eq := by
    rw [h.den_eq, combine]
    ring

/-- Without a remainder the last convergent is the number itself. -/
theorem nearest_of_eq_zero (hB : 0 < B) (hd : d = 0) : Nearest M (A / B) a₁ := by
  subst hd
  have hden : B = n * a₁.2 := by rw [h.den_eq, zero_mul, add_zero]
  have hpos : 1 ≤ a₁.2 := by
    rcases h.within₁.den_nonneg.lt_or_eq with hpos | hzero
    · exact hpos
    · rw [← hzero, mul_zero] at hden
      omega
  refine nearest_of_gap_eq_zero hB (h.within₁.inBox hpos) h.isCoprime ?_
  rw [gap, abs_eq_zero, h.num_eq, h.den_eq]
  ring

/-! ### How large the values are -/

theorem mul_den_le : n * a₁.2 ≤ B := by
  rw [h.den_eq]
  exact le_add_of_nonneg_right (mul_nonneg h.d_nonneg h.within₀.den_nonneg)

theorem mul_num_le : n * a₁.1 ≤ A := by
  rw [h.num_eq]
  exact le_add_of_nonneg_right (mul_nonneg h.d_nonneg h.within₀.num_nonneg)

theorem n_le {N : ℤ} (hA : A ≤ N) (hB : B ≤ N) : n ≤ N := by
  rcases h.within₁.num_nonneg.lt_or_eq with hnum | hnum
  · exact (le_mul_of_one_le_right h.n_nonneg hnum).trans (h.mul_num_le.trans hA)
  · rcases h.within₁.den_nonneg.lt_or_eq with hden | hden
    · exact (le_mul_of_one_le_right h.n_nonneg hden).trans (h.mul_den_le.trans hB)
    · have hdet := h.det
      rw [← hnum, ← hden, zero_mul, mul_zero] at hdet
      omega

variable {x : ℤ}

theorem mul_combine_num_le (hx : d * x ≤ n) : d * (combine x a₁ a₀).1 ≤ A := by
  have hle := mul_le_mul_of_nonneg_right hx h.within₁.num_nonneg
  calc d * (combine x a₁ a₀).1 = d * x * a₁.1 + d * a₀.1 := by rw [combine]; ring
    _ ≤ n * a₁.1 + d * a₀.1 := by omega
    _ = A := h.num_eq.symm

theorem mul_combine_den_le (hx : d * x ≤ n) : d * (combine x a₁ a₀).2 ≤ B := by
  have hle := mul_le_mul_of_nonneg_right hx h.within₁.den_nonneg
  calc d * (combine x a₁ a₀).2 = d * x * a₁.2 + d * a₀.2 := by rw [combine]; ring
    _ ≤ n * a₁.2 + d * a₀.2 := by omega
    _ = B := h.den_eq.symm

theorem combine_num_le (hd : 0 < d) (hx0 : 0 ≤ x) (hx : d * x ≤ n) :
    (combine x a₁ a₀).1 ≤ A := by
  refine (le_mul_of_one_le_left ?_ hd).trans (h.mul_combine_num_le hx)
  exact add_nonneg (mul_nonneg hx0 h.within₁.num_nonneg) h.within₀.num_nonneg

theorem combine_den_le (hd : 0 < d) (hx0 : 0 ≤ x) (hx : d * x ≤ n) :
    (combine x a₁ a₀).2 ≤ B := by
  refine (le_mul_of_one_le_left ?_ hd).trans (h.mul_combine_den_le hx)
  exact add_nonneg (mul_nonneg hx0 h.within₁.den_nonneg) h.within₀.den_nonneg

/-! ### The last step -/

/-- Where a fraction stands in the basis of the last convergent and a semiconvergent. -/
theorem exists_coordinates (x : ℤ) (c : ℤ × ℤ) :
    ∃ α β : ℤ, c.1 = α * a₁.1 + β * (combine x a₁ a₀).1 ∧
      c.2 = α * a₁.2 + β * (combine x a₁ a₀).2 := by
  obtain ⟨s, hs⟩ : ∃ s, s = combine x a₁ a₀ := ⟨_, rfl⟩
  have hdet := h.det_combine x
  rw [← hs] at hdet ⊢
  rcases hdet with hdet | hdet
  · refine ⟨s.1 * c.2 - c.1 * s.2, c.1 * a₁.2 - a₁.1 * c.2, ?_, ?_⟩
    · calc c.1 = c.1 * (s.1 * a₁.2 - a₁.1 * s.2) := by rw [hdet, mul_one]
        _ = _ := by ring
    · calc c.2 = c.2 * (s.1 * a₁.2 - a₁.1 * s.2) := by rw [hdet, mul_one]
        _ = _ := by ring
  · refine ⟨c.1 * s.2 - s.1 * c.2, a₁.1 * c.2 - c.1 * a₁.2, ?_, ?_⟩
    · calc c.1 = c.1 * -(s.1 * a₁.2 - a₁.1 * s.2) := by rw [hdet, neg_neg, mul_one]
        _ = _ := by ring
    · calc c.2 = c.2 * -(s.1 * a₁.2 - a₁.1 * s.2) := by rw [hdet, neg_neg, mul_one]
        _ = _ := by ring

theorem gap_coordinates (x α β : ℤ) :
    gap A B (α * a₁.1 + β * (combine x a₁ a₀).1, α * a₁.2 + β * (combine x a₁ a₀).2) =
      |(n - d * x) * β - d * α| := by
  have heq : A * (α * a₁.2 + β * (combine x a₁ a₀).2) -
      (α * a₁.1 + β * (combine x a₁ a₀).1) * B =
      ((n - d * x) * β - d * α) * (a₁.1 * a₀.2 - a₀.1 * a₁.2) := by
    rw [h.num_eq, h.den_eq, combine]
    ring
  rw [gap, heq, abs_mul]
  rcases h.det with hdet | hdet <;> rw [hdet] <;> simp

theorem gap_last : gap A B a₁ = d := by
  have hgap := h.gap_coordinates 0 1 0
  simp only [one_mul, zero_mul, add_zero, mul_zero, mul_one, zero_sub, abs_neg] at hgap
  rw [hgap, abs_of_nonneg h.d_nonneg]

theorem gap_combine (hx : d * x ≤ n) : gap A B (combine x a₁ a₀) = n - d * x := by
  have hgap := h.gap_coordinates x 0 1
  simp only [one_mul, zero_mul, zero_add, mul_zero, mul_one, sub_zero] at hgap
  rw [hgap, abs_of_nonneg (by omega)]

/-- What is on the side of the last convergent is no nearer than it. -/
theorem gap_last_mul_le (hx : d * x ≤ n) (hs : InSquare M (combine x a₁ a₀)) (hβ : β ≤ 0)
    (hnum : c.1 = α * a₁.1 + β * (combine x a₁ a₀).1)
    (hden : c.2 = α * a₁.2 + β * (combine x a₁ a₀).2) :
    c.2 ≤ α * a₁.2 ∧ gap A B a₁ * c.2 ≤ gap A B c * a₁.2 := by
  have hle : c.2 ≤ α * a₁.2 := by
    have := mul_nonpos_of_nonpos_of_nonneg hβ hs.den_nonneg
    omega
  have hgap : d * α ≤ gap A B c := by
    have hc : c = (α * a₁.1 + β * (combine x a₁ a₀).1, α * a₁.2 + β * (combine x a₁ a₀).2) :=
      Prod.ext hnum hden
    rw [hc, h.gap_coordinates]
    have hrest := mul_nonpos_of_nonneg_of_nonpos (sub_nonneg.2 hx) hβ
    exact le_trans (by omega) (neg_le_abs _)
  refine ⟨hle, ?_⟩
  calc gap A B a₁ * c.2 = d * c.2 := by rw [h.gap_last]
    _ ≤ d * (α * a₁.2) := mul_le_mul_of_nonneg_left hle h.d_nonneg
    _ = d * α * a₁.2 := by ring
    _ ≤ gap A B c * a₁.2 := mul_le_mul_of_nonneg_right hgap h.within₁.den_nonneg

/-- What is on the side of the semiconvergent is no nearer than it. -/
theorem gap_combine_mul_le (hx : d * x ≤ n) (hs : InSquare M (combine x a₁ a₀)) (hα : α ≤ 0)
    (hnum : c.1 = α * a₁.1 + β * (combine x a₁ a₀).1)
    (hden : c.2 = α * a₁.2 + β * (combine x a₁ a₀).2) :
    c.2 ≤ β * (combine x a₁ a₀).2 ∧
      gap A B (combine x a₁ a₀) * c.2 ≤ gap A B c * (combine x a₁ a₀).2 := by
  have hle : c.2 ≤ β * (combine x a₁ a₀).2 := by
    have := mul_nonpos_of_nonpos_of_nonneg hα h.within₁.den_nonneg
    omega
  have hgap : (n - d * x) * β ≤ gap A B c := by
    have hc : c = (α * a₁.1 + β * (combine x a₁ a₀).1, α * a₁.2 + β * (combine x a₁ a₀).2) :=
      Prod.ext hnum hden
    rw [hc, h.gap_coordinates]
    have hrest := mul_nonpos_of_nonneg_of_nonpos h.d_nonneg hα
    exact le_trans (by omega) (le_abs_self _)
  refine ⟨hle, ?_⟩
  calc gap A B (combine x a₁ a₀) * c.2 = (n - d * x) * c.2 := by rw [h.gap_combine hx]
    _ ≤ (n - d * x) * (β * (combine x a₁ a₀).2) :=
      mul_le_mul_of_nonneg_left hle (sub_nonneg.2 hx)
    _ = (n - d * x) * β * (combine x a₁ a₀).2 := by ring
    _ ≤ gap A B c * (combine x a₁ a₀).2 := mul_le_mul_of_nonneg_right hgap hs.den_nonneg

/-- No fraction of the box is a sum of the last convergent and a semiconvergent. -/
theorem nonpos_of_inBox (hs : InSquare M (combine x a₁ a₀))
    (hlarge : ¬ InSquare M (combine (x + 1) a₁ a₀)) (hc : InBox M c)
    (hnum : c.1 = α * a₁.1 + β * (combine x a₁ a₀).1)
    (hden : c.2 = α * a₁.2 + β * (combine x a₁ a₀).2) : α ≤ 0 ∨ β ≤ 0 := by
  by_contra hpos
  simp only [not_or, not_le] at hpos
  obtain ⟨hα, hβ⟩ := hpos
  have hnext : combine (x + 1) a₁ a₀ =
      (a₁.1 + (combine x a₁ a₀).1, a₁.2 + (combine x a₁ a₀).2) := by
    simp only [combine]
    congr 1 <;> ring
  have hle {p q : ℤ} (hp : 0 ≤ p) (hq : 0 ≤ q) : p + q ≤ α * p + β * q :=
    add_le_add (le_mul_of_one_le_left hp hα) (le_mul_of_one_le_left hq hβ)
  apply hlarge
  rw [hnext]
  exact
    { num_nonneg := add_nonneg h.within₁.num_nonneg hs.num_nonneg
      num_le := (hle h.within₁.num_nonneg hs.num_nonneg).trans (hnum ▸ hc.num_le)
      den_nonneg := add_nonneg h.within₁.den_nonneg hs.den_nonneg
      den_le := (hle h.within₁.den_nonneg hs.den_nonneg).trans (hden ▸ hc.den_le) }

/-- The comparison of the loop says which of the two candidates is nearer. -/
theorem gap_combine_lt_iff (hx : d * x ≤ n) :
    gap A B (combine x a₁ a₀) * a₁.2 < gap A B a₁ * (combine x a₁ a₀).2 ↔
      n * a₁.2 < d * (2 * x * a₁.2 + a₀.2) := by
  rw [h.gap_combine hx, h.gap_last, combine]
  constructor <;> intro hlt <;> nlinarith only [hlt]

/-- The semiconvergent is nearest when it is nearer than the last convergent. -/
theorem nearest_combine (hB : 0 < B) (hx : d * x ≤ n) (hs : InSquare M (combine x a₁ a₀))
    (hlarge : ¬ InSquare M (combine (x + 1) a₁ a₀))
    (hlt : gap A B (combine x a₁ a₀) * a₁.2 < gap A B a₁ * (combine x a₁ a₀).2) :
    Nearest M (A / B) (combine x a₁ a₀) := by
  have hpos : 1 ≤ (combine x a₁ a₀).2 := by
    by_contra hzero
    have hden : (combine x a₁ a₀).2 = 0 := le_antisymm (by omega) hs.den_nonneg
    rw [hden, mul_zero] at hlt
    exact hlt.not_ge (mul_nonneg (abs_nonneg _) h.within₁.den_nonneg)
  refine ⟨hs.inBox hpos, isCoprime_of_det (h.det_combine x), fun c hc => ?_⟩
  refine abs_sub_le_of_gap hB hpos hc.one_le_den ?_
  obtain ⟨α, β, hnum, hden⟩ := h.exists_coordinates x c
  rcases h.nonpos_of_inBox hs hlarge hc hnum hden with hα | hβ
  · exact (h.gap_combine_mul_le hx hs hα hnum hden).2
  · -- The last convergent lies between, and the semiconvergent is nearer than it.
    obtain ⟨hle, hfar⟩ := h.gap_last_mul_le hx hs hβ hnum hden
    have hc2 : 0 < c.2 := hc.one_le_den
    have ha₁ : 0 < a₁.2 := by
      rcases h.within₁.den_nonneg.lt_or_eq with ha₁ | ha₁
      · exact ha₁
      · rw [← ha₁, mul_zero] at hle
        omega
    refine le_of_mul_le_mul_right ?_ ha₁
    calc gap A B (combine x a₁ a₀) * c.2 * a₁.2
        = gap A B (combine x a₁ a₀) * a₁.2 * c.2 := by ring
      _ ≤ gap A B a₁ * (combine x a₁ a₀).2 * c.2 := mul_le_mul_of_nonneg_right hlt.le hc2.le
      _ = gap A B a₁ * c.2 * (combine x a₁ a₀).2 := by ring
      _ ≤ gap A B c * a₁.2 * (combine x a₁ a₀).2 := mul_le_mul_of_nonneg_right hfar hs.den_nonneg
      _ = gap A B c * (combine x a₁ a₀).2 * a₁.2 := by ring

section

variable (hB : 0 < B) (hd : 0 < d) (hx : d * x ≤ n) (hs : InSquare M (combine x a₁ a₀))
  (hlarge : ¬ InSquare M (combine (x + 1) a₁ a₀))

include hB hd hx hs hlarge

/-- The last convergent is nearest when the semiconvergent is not nearer. -/
theorem nearest_last (hle : gap A B a₁ * (combine x a₁ a₀).2 ≤ gap A B (combine x a₁ a₀) * a₁.2) :
    Nearest M (A / B) a₁ := by
  have hpos : 1 ≤ a₁.2 := by
    by_contra hzero
    have hden : a₁.2 = 0 := le_antisymm (by omega) h.within₁.den_nonneg
    rw [h.gap_last, hden, mul_zero] at hle
    have hs2 : (combine x a₁ a₀).2 = 0 := by
      refine le_antisymm ?_ hs.den_nonneg
      exact le_of_mul_le_mul_left (hle.trans (mul_zero d).ge) hd
    have hdet := h.det_combine x
    rw [hden, hs2, mul_zero, mul_zero, sub_zero] at hdet
    omega
  refine ⟨h.within₁.inBox hpos, h.isCoprime, fun c hc => ?_⟩
  refine abs_sub_le_of_gap hB hpos hc.one_le_den ?_
  obtain ⟨α, β, hnum, hden⟩ := h.exists_coordinates x c
  rcases h.nonpos_of_inBox hs hlarge hc hnum hden with hα | hβ
  · -- The semiconvergent lies between, and the last convergent is no farther than it.
    obtain ⟨hle', hfar⟩ := h.gap_combine_mul_le hx hs hα hnum hden
    have hc2 : 0 < c.2 := hc.one_le_den
    have hs2 : 0 < (combine x a₁ a₀).2 := by
      rcases hs.den_nonneg.lt_or_eq with hs2 | hs2
      · exact hs2
      · rw [← hs2, mul_zero] at hle'
        omega
    refine le_of_mul_le_mul_right ?_ hs2
    calc gap A B a₁ * c.2 * (combine x a₁ a₀).2
        = gap A B a₁ * (combine x a₁ a₀).2 * c.2 := by ring
      _ ≤ gap A B (combine x a₁ a₀) * a₁.2 * c.2 := mul_le_mul_of_nonneg_right hle hc2.le
      _ = gap A B (combine x a₁ a₀) * c.2 * a₁.2 := by ring
      _ ≤ gap A B c * (combine x a₁ a₀).2 * a₁.2 :=
        mul_le_mul_of_nonneg_right hfar h.within₁.den_nonneg
      _ = gap A B c * a₁.2 * (combine x a₁ a₀).2 := by ring
  · exact (h.gap_last_mul_le hx hs hβ hnum hden).2

/-- When the next semiconvergent is out of bounds, the nearer one of the last two is nearest. -/
theorem nearest_semiconvergent :
    Nearest M (A / B)
      (if n * a₁.2 < d * (2 * x * a₁.2 + a₀.2) then combine x a₁ a₀ else a₁) := by
  split_ifs with hlt
  · exact h.nearest_combine hB hx hs hlarge ((h.gap_combine_lt_iff hx).2 hlt)
  · refine h.nearest_last hB hd hx hs hlarge (not_lt.1 fun hgap => hlt ?_)
    exact (h.gap_combine_lt_iff hx).1 hgap

end

end Convergents

end Oak.Lib
