import Mathlib.Data.Rat.Floor
import Mathlib.Algebra.Order.Ring.Abs

/-!
# Rounding away from zero

`roundAway x` is the integer that is nearest to `x`, and of two that are equally near the one that
is further away from zero.

## Main results

* `roundAway_intCast`, `roundAway_le`: it keeps the integers and the order.
* `roundAway_add_nat`: it commutes with the addition of a natural number above zero.
-/

namespace Oak.Lib

/-- The nearest integer; halves are rounded away from zero. -/
def roundAway (x : ℚ) : ℤ := if x < 0 then -⌊-x + 1 / 2⌋ else ⌊x + 1 / 2⌋

theorem roundAway_of_nonneg {x : ℚ} (hx : 0 ≤ x) : roundAway x = ⌊x + 1 / 2⌋ :=
  if_neg (not_lt.2 hx)

theorem roundAway_neg (x : ℚ) : roundAway (-x) = -roundAway x := by
  rcases lt_trichotomy x 0 with hx | rfl | hx
  · rw [roundAway, roundAway, if_pos hx, if_neg (by linarith), neg_neg]
  · norm_num [roundAway]
  · rw [roundAway, roundAway, if_neg (not_lt.2 hx.le), if_pos (by linarith), neg_neg]

theorem roundAway_add_nat {x : ℚ} (hx : 0 ≤ x) (n : ℕ) : roundAway (x + n) = roundAway x + n := by
  rw [roundAway_of_nonneg hx, roundAway_of_nonneg (by positivity), add_right_comm,
    Int.floor_add_natCast]

@[simp] theorem roundAway_natCast (n : ℕ) : roundAway n = n := by
  have h := roundAway_add_nat le_rfl n
  have hzero : roundAway 0 = 0 := by norm_num [roundAway]
  rwa [zero_add, hzero, zero_add] at h

@[simp] theorem roundAway_intCast (n : ℤ) : roundAway n = n := by
  obtain ⟨m, rfl | rfl⟩ := n.eq_nat_or_neg
  · exact_mod_cast roundAway_natCast m
  · rw [Int.cast_neg, roundAway_neg]
    exact_mod_cast congrArg (-·) (roundAway_natCast m)

theorem roundAway_nonneg {x : ℚ} (hx : 0 ≤ x) : 0 ≤ roundAway x := by
  rw [roundAway_of_nonneg hx]
  exact Int.floor_nonneg.2 (by linarith)

theorem roundAway_le {x y : ℚ} (hxy : x ≤ y) : roundAway x ≤ roundAway y := by
  have hnonneg {x y : ℚ} (hx : 0 ≤ x) (hxy : x ≤ y) : roundAway x ≤ roundAway y := by
    rw [roundAway_of_nonneg hx, roundAway_of_nonneg (hx.trans hxy)]
    exact Int.floor_le_floor (by linarith)
  rcases le_total 0 x with hx | hx
  · exact hnonneg hx hxy
  rcases le_total 0 y with hy | hy
  · refine le_trans ?_ (roundAway_nonneg hy)
    have hneg := roundAway_nonneg (neg_nonneg.2 hx)
    rw [roundAway_neg] at hneg
    omega
  · have hneg := hnonneg (neg_nonneg.2 hy) (neg_le_neg hxy)
    rw [roundAway_neg, roundAway_neg] at hneg
    omega

theorem abs_roundAway_sub_le (x : ℚ) : |roundAway x - x| ≤ 1 / 2 := by
  have hnonneg {x : ℚ} (hx : 0 ≤ x) : |roundAway x - x| ≤ 1 / 2 := by
    rw [roundAway_of_nonneg hx, abs_le]
    have hle := Int.floor_le (x + 1 / 2)
    have hlt := Int.lt_floor_add_one (x + 1 / 2)
    constructor <;> linarith
  rcases le_total 0 x with hx | hx
  · exact hnonneg hx
  · have hneg := hnonneg (neg_nonneg.2 hx)
    rwa [roundAway_neg, Int.cast_neg, neg_sub_neg, abs_sub_comm] at hneg

end Oak.Lib
