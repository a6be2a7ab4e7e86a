import Mathlib.Algebra.Polynomial.Derivative
import Mathlib.Tactic.ComputeDegree
import Mathlib.Tactic.FieldSimp
import Mathlib.Tactic.Ring

/-!
# Cubic interpolation

Between two places a cubic is given by its values and its slopes there.

## Main results

* `exists_isHermite`: such a cubic, by the basis functions of Hermite.
-/

namespace Oak.Lib

open Polynomial

variable {K : Type*} [Field K] {x₀ y₀ m₀ x₁ y₁ m₁ : K}

/-- A cubic with values `y₀`, `y₁` and slopes `m₀`, `m₁` at `x₀`, `x₁`. -/
structure IsHermite (x₀ y₀ m₀ x₁ y₁ m₁ : K) (P : K[X]) : Prop where
  degree : P.natDegree ≤ 3
  left : P.eval x₀ = y₀
  right : P.eval x₁ = y₁
  slope_left : (derivative P).eval x₀ = m₀
  slope_right : (derivative P).eval x₁ = m₁

/-- The value at the place `t` of the way from `x₀` to `x₁`. -/
def hermite (y₀ m₀ y₁ m₁ h t : K) : K :=
  let t2 := t * t
  let t3 := t2 * t
  let h00 := 2 * t3 - 3 * t2 + 1
  let h01 := -2 * t3 + 3 * t2
  let h10 := t3 - 2 * t2 + t
  let h11 := t3 - t2
  h00 * y₀ + h01 * y₁ + h * (h10 * m₀ + h11 * m₁)

/-- The basis functions of Hermite give the cubic. -/
theorem exists_isHermite (y₀ m₀ y₁ m₁ : K) (hne : x₁ ≠ x₀) :
    ∃ P : K[X], IsHermite x₀ y₀ m₀ x₁ y₁ m₁ P ∧
      ∀ x, P.eval x = hermite y₀ m₀ y₁ m₁ (x₁ - x₀) ((x - x₀) / (x₁ - x₀)) := by
  have hsub : x₁ - x₀ ≠ 0 := sub_ne_zero.2 hne
  let u : K[X] := X - C x₀
  let h := x₁ - x₀
  refine ⟨C y₀ + C m₀ * u + C ((3 * (y₁ - y₀) - h * (2 * m₀ + m₁)) / h ^ 2) * u ^ 2 +
    C ((2 * (y₀ - y₁) + h * (m₀ + m₁)) / h ^ 3) * u ^ 3, ⟨?_, ?_, ?_, ?_, ?_⟩, fun x => ?_⟩
  · have hdegree : u.natDegree = 1 := natDegree_X_sub_C x₀
    compute_degree
    rw [hdegree]
    exact max_le (by decide) le_rfl
  · simp [u]
  · simp only [u, h, eval_add, eval_mul, eval_C, eval_pow, eval_sub, eval_X]
    field_simp
    ring
  · simp [u, derivative_pow]
  · simp only [u, h, derivative_add, derivative_C, derivative_C_mul, derivative_X_sub_C_pow,
      derivative_sub, derivative_X, eval_add, eval_mul, eval_C, eval_pow, eval_sub, eval_X]
    norm_num
    field_simp
    ring
  · simp only [u, h, hermite, eval_add, eval_mul, eval_C, eval_pow, eval_sub, eval_X]
    field_simp
    ring

end Oak.Lib
