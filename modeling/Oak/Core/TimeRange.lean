import Mathlib.Algebra.Order.Field.Rat

/-!
# Times and time ranges

`oak-core/src/rational.rs` and `oak-core/src/timerange.rs`, as far as times are finite: a finite
`Rational` is a rational number. Its operators are those of rational numbers where all times are
exact (`Oak.Core.Exact`); elsewhere the source rounds them, or gives `0/0`.
The value `0/0`, which the source orders below every number, is left out.
-/

namespace Oak.Core

/-- A finite `Rational`. -/
abbrev Rational := ℚ

/-- `TimeRange`: the times from `in_` up to, but not including, `out`. -/
@[ext] structure TimeRange where
  in_ : Rational
  out : Rational
  deriving DecidableEq, Repr

namespace TimeRange

/-- `TimeRange::new`: the two ends are swapped when they are given in the wrong order. -/
def new (in_ out : Rational) : TimeRange := if out < in_ then ⟨out, in_⟩ else ⟨in_, out⟩

/-- `length`. -/
def length (r : TimeRange) : Rational := r.out - r.in_

/-- `contains`: `t` lies in the half-open range. -/
def contains (r : TimeRange) (t : Rational) : Bool := r.in_ ≤ t && t < r.out

theorem contains_iff {r : TimeRange} {t : Rational} :
    r.contains t = true ↔ r.in_ ≤ t ∧ t < r.out := by
  simp [contains]

theorem new_of_le {a b : Rational} (h : a ≤ b) : new a b = ⟨a, b⟩ := if_neg (not_lt.2 h)

@[simp] theorem new_self (a : Rational) : new a a = ⟨a, a⟩ := new_of_le le_rfl

end TimeRange

end Oak.Core
