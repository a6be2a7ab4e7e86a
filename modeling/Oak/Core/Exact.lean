import Oak.Core.Fraction
import Oak.Core.TimeRange

/-!
# Exact times

The finite times of `Oak.Core.Rational` as they are stored. An operator of `Rational` is exact where
its operands and its result are fractions of 31 bits and neither operand is `RATIONAL_MIN` or
`RATIONAL_MAX`. A computation all of whose times are exact is therefore the one on rational numbers.

* `Exact t` says that `t` is such a time, `Exacts times` says so of the times of a computation.
* `Fraction.ofRat t` is the stored rational.

## Main results

* `Fraction.add_ofRat`, `Fraction.sub_ofRat`, `Fraction.cmp_ofRat`: sums, differences and
  comparisons of exact times.
-/

namespace Oak.Core

open Oak.Lib

/-- A time that is stored as it is, and that no operator takes for a bound. -/
def Exact (t : Rational) : Prop := t.num.natAbs < reduceMax ∧ t.den ≤ reduceMax

instance : DecidablePred Exact := fun _ => inferInstanceAs (Decidable (_ ∧ _))

/-- The times that a computation reads and makes are exact. -/
def Exacts (times : List Rational) : Prop := ∀ t ∈ times, Exact t

instance : DecidablePred Exacts := fun times => inferInstanceAs (Decidable (∀ t ∈ times, Exact t))

variable {s t : Rational} {times : List Rational}

@[simp] theorem exacts_nil : Exacts [] := fun _ ht => absurd ht List.not_mem_nil

@[simp] theorem exacts_cons : Exacts (t :: times) ↔ Exact t ∧ Exacts times := List.forall_mem_cons

theorem Exact.neg (h : Exact t) : Exact (-t) := by
  rwa [Exact, Rat.num_neg_eq_neg_num, Int.natAbs_neg, Rat.den_neg_eq_den]

namespace Fraction

/-- A rational number as it is stored. -/
def ofRat (t : Rational) : Fraction := ⟨t.num, t.den⟩

theorem ofRat_den_pos (t : Rational) : 0 < (ofRat t).den := Int.natCast_pos.2 t.den_pos

theorem isNan_ofRat (t : Rational) : (ofRat t).isNan = false :=
  decide_eq_false (ofRat_den_pos t).ne'

theorem den_ne_zero (t : Rational) : ((ofRat t).den : ℚ) ≠ 0 :=
  Int.cast_ne_zero.2 (ofRat_den_pos t).ne'

theorem num_div_ofRat (t : Rational) : ((ofRat t).num / (ofRat t).den : ℚ) = t := Rat.num_div_den t

/-- Stored times are compared as numbers. -/
theorem cmp_ofRat (s t : Rational) : (ofRat s).cmp (ofRat t) = compare s t := by
  rw [cmp_of_pos (ofRat_den_pos s) (ofRat_den_pos t), num_div_ofRat, num_div_ofRat]

theorem inBox_ofRat (h : Exact t) : InBox reduceMax ((ofRat t).num, (ofRat t).den) := by
  obtain ⟨hnum, hden⟩ := h
  have hpos := t.den_pos
  refine ⟨?_, ?_, ?_, ?_⟩ <;> simp only [ofRat] <;> omega

theorem valid_ofRat (h : Exact t) : (ofRat t).Valid :=
  Or.inr ⟨inBox_ofRat h, Int.isCoprime_iff_gcd_eq_one.2 t.reduced⟩

theorem isMinmax_ofRat (h : Exact t) : (ofRat t).isMinmax = false := by
  have hnum := h.1
  rw [reduceMax] at hnum
  simp only [isMinmax, ofRat, Bool.or_eq_false_iff, decide_eq_false_iff_not, mk.injEq]
  omega

theorem operands_ofRat (hs : Exact s) (ht : Exact t) : Operands (ofRat s) (ofRat t) :=
  ⟨⟨valid_ofRat hs, valid_ofRat ht⟩, ⟨isMinmax_ofRat hs, isMinmax_ofRat ht⟩,
    ⟨isNan_ofRat s, isNan_ofRat t⟩⟩

theorem operator_ofRat (hs : Exact s) (ht : Exact t) (result : Option Fraction) :
    operator (ofRat s) (ofRat t) result = result := by
  simp [operator, isMinmax_ofRat hs, isMinmax_ofRat ht, isNan_ofRat]

variable {n d : ℤ} {values : List ℤ}

theorem checked_reduced_of_exact (h : Passed n d) (hvalues : ∀ z ∈ values, |z| ≤ 2 ^ 95)
    (hd : d ≠ 0) (hvalue : t = n / d) (ht : Exact t) :
    checked values (reduced n d) = some (ofRat t) := by
  obtain ⟨c, hreduce, hnearest⟩ := reduceFraction_reduceMax h hd
  have hbox := inBox_ofRat ht
  have hpos : 0 < c.2 := hnearest.inBox.one_le_den
  have hrat : ratOf c = ratOf ((ofRat t).num, (ofRat t).den) :=
    (hnearest.ratOf_eq hbox ((num_div_ofRat t).trans hvalue)).trans
      (hvalue.symm.trans (num_div_ofRat t).symm)
  obtain ⟨hc1, hc2⟩ := Rat.div_int_inj hpos (ofRat_den_pos t)
    (Int.isCoprime_iff_gcd_eq_one.1 hnearest.coprime) t.reduced hrat
  have hrange := InBox.inI64 hnearest.inBox
  rw [checked_eq fun z hz => (fits_of_operands (hvalues z hz)).1, reduced, hreduce,
    Option.bind_some, fromReduced, asI64_eq hrange.1, asI64_eq hrange.2,
    fixSigns_of_pos hpos (den_eq_one hpos hnearest.coprime), Option.map_some, hc1, hc2]
  rfl

section

variable (hs : Exact s) (ht : Exact t)

include hs ht

/-- The sum of exact times. -/
theorem add_ofRat (h : Exact (s + t)) : (ofRat s).add (ofRat t) = some (ofRat (s + t)) := by
  have hoperands := operands_ofRat hs ht
  obtain ⟨hst, hts, -⟩ := hoperands.products_le
  obtain ⟨hnum, hden⟩ := (Passed.add hoperands).magnitude_le
  rw [add, operator_ofRat hs ht]
  refine checked_reduced_of_exact (Passed.add hoperands) ?_
    (mul_pos (ofRat_den_pos s) (ofRat_den_pos t)).ne' ?_ h
  · simp only [List.forall_mem_cons, List.not_mem_nil, false_imp_iff, implies_true, and_true]
    exact ⟨hst.trans (by norm_num), hts.trans (by norm_num), hnum, hden⟩
  · conv_lhs => rw [← num_div_ofRat s, ← num_div_ofRat t,
      div_add_div _ _ (den_ne_zero s) (den_ne_zero t), mul_comm ((ofRat s).den : ℚ)]
    push_cast
    rfl

/-- The difference of exact times. -/
theorem sub_ofRat (h : Exact (s - t)) : (ofRat s).sub (ofRat t) = some (ofRat (s - t)) := by
  have hoperands := operands_ofRat hs ht
  obtain ⟨hst, hts, -⟩ := hoperands.products_le
  obtain ⟨hnum, hden⟩ := (Passed.sub hoperands).magnitude_le
  rw [sub, operator_ofRat hs ht]
  refine checked_reduced_of_exact (Passed.sub hoperands) ?_
    (mul_pos (ofRat_den_pos s) (ofRat_den_pos t)).ne' ?_ h
  · simp only [List.forall_mem_cons, List.not_mem_nil, false_imp_iff, implies_true, and_true]
    exact ⟨hst.trans (by norm_num), hts.trans (by norm_num), hnum, hden⟩
  · conv_lhs => rw [← num_div_ofRat s, ← num_div_ofRat t,
      div_sub_div _ _ (den_ne_zero s) (den_ne_zero t), mul_comm ((ofRat s).den : ℚ)]
    push_cast
    rfl

end

end Fraction

end Oak.Core
