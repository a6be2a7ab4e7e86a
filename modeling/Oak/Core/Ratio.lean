import Mathlib.Algebra.Order.Field.Rat
import Mathlib.Order.WithBot
import Mathlib.Tactic.Linarith

/-!
# Rationals with their null value

`Rational` of `oak-core/src/rational.rs` as it is stored and compared: a reduced fraction whose
numerator and denominator are at most `i32::MAX`, or `0/0`, which is below every fraction. The
arithmetic is left out.

* `Ratio` is a rational, or `⊥` for `0/0`, with the bound.
* `approximate` is the continued fraction of `reduce_fraction`, for what is above the bound.

## Main results

* `new_numerator_denominator`: a rational is what `Rational::new` makes of its numerator and
  denominator.
-/

namespace Oak.Core

/-- `REDUCE_MAX`. -/
def reduceMax : ℕ := 2147483647

/-- A fraction is within the bound. -/
def Representable (x : WithBot ℚ) : Prop :=
  ∀ q : ℚ, x = q → q.num.natAbs ≤ reduceMax ∧ q.den ≤ reduceMax

/-- `Rational`. -/
abbrev Ratio := { x : WithBot ℚ // Representable x }

/-- The loop of `reduce_fraction`: `a₀` and `a₁` are the last two convergents of `n / d`. -/
def approximate (n d : ℕ) (a₀ a₁ : ℕ × ℕ) : ℕ × ℕ :=
  if h : d = 0 then a₁
  else
    let x := n / d
    let a₂ := (x * a₁.1 + a₀.1, x * a₁.2 + a₀.2)
    if reduceMax < a₂.1 ∨ reduceMax < a₂.2 then
      let x := if a₁.1 ≠ 0 then (reduceMax - a₀.1) / a₁.1 else x
      let x := if a₁.2 ≠ 0 ∧ (reduceMax - a₀.2) / a₁.2 < x then (reduceMax - a₀.2) / a₁.2 else x
      if n * a₁.2 < d * (2 * x * a₁.2 + a₀.2) then (x * a₁.1 + a₀.1, x * a₁.2 + a₀.2) else a₁
    else
      have : n % d < d := Nat.mod_lt n (Nat.pos_of_ne_zero h)
      approximate d (n % d) a₁ a₂
termination_by d

/-- A convergent is within the bound. -/
def Bounded (a : ℕ × ℕ) : Prop := a.1 ≤ reduceMax ∧ a.2 ≤ reduceMax

theorem mul_add_le_reduceMax {x a b : ℕ} (hb : b ≤ reduceMax)
    (hx : a ≠ 0 → x ≤ (reduceMax - b) / a) : x * a + b ≤ reduceMax := by
  rcases Nat.eq_zero_or_pos a with rfl | ha
  · simpa using hb
  · have hmul := (Nat.le_div_iff_mul_le ha).1 (hx ha.ne')
    omega

theorem approximate_bounded (n d : ℕ) {a₀ a₁ : ℕ × ℕ} (h₀ : Bounded a₀) (h₁ : Bounded a₁) :
    Bounded (approximate n d a₀ a₁) := by
  induction d using Nat.strongRecOn generalizing n a₀ a₁ with
  | ind d ih =>
    rw [approximate]
    split
    next => exact h₁
    next hd =>
      dsimp only
      by_cases hlarge : reduceMax < n / d * a₁.1 + a₀.1 ∨ reduceMax < n / d * a₁.2 + a₀.2
      · rw [if_pos hlarge]
        split_ifs
        all_goals first
          | exact h₁
          | exact ⟨mul_add_le_reduceMax h₀.1 fun _ => by omega,
              mul_add_le_reduceMax h₀.2 fun _ => by omega⟩
      · rw [if_neg hlarge]
        simp only [not_or, not_lt] at hlarge
        exact ih _ (Nat.mod_lt n (Nat.pos_of_ne_zero hd)) _ h₁ hlarge

/-- The reduced form of a bounded fraction is within the bound. -/
theorem representable_divInt {num : ℤ} {den : ℕ} (hnum : num.natAbs ≤ reduceMax)
    (hden : den ≤ reduceMax) : Representable (Rat.divInt num den : ℚ) := by
  intro q hq
  rw [WithBot.coe_inj] at hq
  subst hq
  rcases Nat.eq_zero_or_pos den with rfl | hpos
  · simp [reduceMax]
  · have hne : (den : ℤ) ≠ 0 := Int.natCast_ne_zero.2 hpos.ne'
    constructor
    · rcases eq_or_ne num 0 with rfl | hzero
      · simp
      · have hdvd := Int.natAbs_dvd_natAbs.2 (Rat.num_dvd num hne)
        exact (Nat.le_of_dvd (Int.natAbs_pos.2 hzero) hdvd).trans hnum
    · have hdvd := Int.natCast_dvd_natCast.1 (Rat.den_dvd num den)
      exact (Nat.le_of_dvd hpos hdvd).trans hden

variable (x : Ratio)

namespace Ratio

/-- `0/0`. -/
def null : Ratio := ⟨⊥, fun _ h => absurd h WithBot.bot_ne_coe⟩

/-- `Rational::new`. -/
def new (num den : ℤ) : Ratio :=
  if den = 0 then null
  else
    let q := Rat.divInt num den
    if h : q.num.natAbs ≤ reduceMax ∧ q.den ≤ reduceMax then
      ⟨q, fun _ hq => WithBot.coe_inj.1 hq ▸ h⟩
    else
      let a := approximate q.num.natAbs q.den (0, 1) (1, 0)
      ⟨(Rat.divInt (q.num.sign * a.1) a.2 : ℚ), by
        have hbounded : Bounded a :=
          approximate_bounded _ _ ⟨Nat.zero_le _, by decide⟩ ⟨by decide, Nat.zero_le _⟩
        refine representable_divInt ?_ hbounded.2
        rw [Int.natAbs_mul, Int.natAbs_natCast]
        refine le_trans ?_ hbounded.1
        rcases Int.sign_trichotomy q.num with hsign | hsign | hsign <;> simp [hsign]⟩

/-- `numerator`. -/
def numerator : ℤ := WithBot.recBotCoe 0 (fun q : ℚ => q.num) x.1

/-- `denominator`, which is `0` for `0/0`. -/
def denominator : ℤ := WithBot.recBotCoe 0 (fun q : ℚ => (q.den : ℤ)) x.1

theorem abs_numerator_le : -2147483647 ≤ x.numerator ∧ x.numerator ≤ 2147483647 := by
  obtain ⟨x, hx⟩ := x
  induction x using WithBot.recBotCoe with
  | bot => simp [numerator]
  | coe q =>
    have hnum := (hx q rfl).1
    rw [reduceMax] at hnum
    simp only [numerator, WithBot.recBotCoe_coe]
    omega

theorem denominator_le : 0 ≤ x.denominator ∧ x.denominator ≤ 2147483647 := by
  obtain ⟨x, hx⟩ := x
  induction x using WithBot.recBotCoe with
  | bot => simp [denominator]
  | coe q =>
    have hden := (hx q rfl).2
    rw [reduceMax] at hden
    simp only [denominator, WithBot.recBotCoe_coe]
    omega

/-- A rational is made of its numerator and denominator again. -/
theorem new_numerator_denominator : new x.numerator x.denominator = x := by
  obtain ⟨x, hx⟩ := x
  induction x using WithBot.recBotCoe with
  | bot => rfl
  | coe q =>
    have hden : (q.den : ℤ) ≠ 0 := Int.natCast_ne_zero.2 q.den_nz
    show new q.num q.den = ⟨q, hx⟩
    rw [new, if_neg hden]
    dsimp only
    rw [dif_pos]
    · exact Subtype.ext (WithBot.coe_inj.2 (Rat.num_divInt_den q))
    · rw [Rat.num_divInt_den]
      exact hx q rfl

end Ratio

end Oak.Core
