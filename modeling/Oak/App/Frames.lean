import Oak.Core.Fraction
import Oak.Lib.Rounding

/-!
# Frames and seconds

`rational_to_ts` and `ts_to_rational` of `oak-app/src/oakui/graphops.rs`: the frame that is nearest
to a time, and the time of a frame, with their arithmetic of 64 and 128 bits. A panic is `none`.

## Main results

* `rationalToTs_eq`: the nearest frame, half away from zero.
* `frame_roundTrip`: a frame whose time is a rational comes back from it.
-/

namespace Oak.App.Frames

open Oak.Core Oak.Lib

/-- `gcd`, which is one for two zeros. -/
def gcd (a b : ℤ) : Option ℤ :=
  if InI64 (magnitude a) ∧ InI64 (magnitude b) then
    let g := gcdLoop (magnitude a) (magnitude b)
    some (if g = 0 then 1 else g)
  else none

/-- `rational_to_ts`. -/
def rationalToTs (r : Fraction) (tb : ℤ × ℤ) : Option ℤ :=
  if r.den = 0 ∨ tb.1 = 0 ∨ tb.2 = 0 then some 0
  else
    let n := r.num * tb.2
    let d := r.den * tb.1
    let q := n.tdiv d
    let rr := magnitude (n.tmod d)
    let dd := magnitude d
    let away := q + if n < 0 then -1 else 1
    checked [n, d, q, rr, dd, rr * 2, away] (some (asI64 (if dd ≤ rr * 2 then away else q)))

/-- `ts_to_rational`. -/
def tsToRational (ts : ℤ) (tb : ℤ × ℤ) : Option Fraction :=
  let num := ts * tb.1
  let den := tb.2
  if den = 0 then none
  else checked [num] do
    let g ← gcd (asI64 (num.tmod den)) (asI64 den)
    Fraction.new (asI64 (num.tdiv g)) (asI64 (den.tdiv g))

/-- A time base with both sides above zero and within `i32`. -/
structure IsTimeBase (tb : ℤ × ℤ) : Prop where
  num_pos : 0 < tb.1
  num_lt : tb.1 < 2 ^ 31
  den_pos : 0 < tb.2
  den_lt : tb.2 < 2 ^ 31

/-! ### From seconds to frames -/

theorem roundAway_zero : roundAway 0 = 0 := by
  exact_mod_cast roundAway_natCast 0

theorem abs_tmod_lt (n : ℤ) {d : ℤ} (hd : 0 < d) : |n.tmod d| < d := by
  have hlt := natAbs_tmod_lt n hd.ne'
  rw [Int.abs_eq_natAbs]
  omega

/-- The quotient that is moved away from zero when half of the divisor or more is left. -/
theorem roundAway_div {n d : ℤ} (hn : 0 ≤ n) (hd : 0 < d) :
    roundAway (n / d) = if d ≤ n.tmod d * 2 then n.tdiv d + 1 else n.tdiv d := by
  have hd' : (0 : ℚ) < d := Int.cast_pos.2 hd
  have hn' : (0 : ℚ) ≤ n := Int.cast_nonneg hn
  rw [Int.tmod_eq_emod_of_nonneg hn, Int.tdiv_eq_ediv_of_nonneg hn,
    roundAway_of_nonneg (div_nonneg hn' hd'.le)]
  have hsplit : (n : ℚ) = d * (n / d : ℤ) + (n % d : ℤ) := by
    exact_mod_cast (Int.mul_ediv_add_emod n d).symm
  have hdiv : (n / d : ℚ) = (n / d : ℤ) + (n % d : ℤ) / d := by
    conv_lhs => rw [hsplit]
    rw [add_div, mul_div_cancel_left₀ _ hd'.ne']
  have hnonneg : (0 : ℚ) ≤ (n % d : ℤ) / d :=
    div_nonneg (Int.cast_nonneg (Int.emod_nonneg n hd.ne')) hd'.le
  have hlt : ((n % d : ℤ) / d : ℚ) < 1 :=
    (div_lt_one hd').2 (Int.cast_lt.2 (Int.emod_lt_of_pos n hd))
  rw [hdiv, Int.floor_eq_iff]
  split_ifs with hhalf
  · have hle : (1 / 2 : ℚ) ≤ (n % d : ℤ) / d := by
      rw [le_div_iff₀ hd']
      have : (d : ℚ) ≤ (n % d : ℤ) * 2 := by exact_mod_cast hhalf
      linarith
    push_cast
    constructor <;> linarith
  · have hle : ((n % d : ℤ) / d : ℚ) < 1 / 2 := by
      rw [div_lt_iff₀ hd']
      have : ((n % d : ℤ) * 2 : ℚ) < d := by exact_mod_cast not_le.1 hhalf
      linarith
    constructor <;> linarith

/-- The rounding of the source, with its branch on the sign. -/
theorem roundAway_quotient (n : ℤ) {d : ℤ} (hd : 0 < d) :
    roundAway (n / d) =
      if magnitude d ≤ magnitude (n.tmod d) * 2 then n.tdiv d + if n < 0 then -1 else 1
      else n.tdiv d := by
  rw [magnitude_eq_abs, magnitude_eq_abs, abs_of_pos hd]
  rcases lt_or_ge n 0 with hn | hn
  · have hneg := roundAway_div (neg_nonneg.2 hn.le) hd
    have hmod : |n.tmod d| = (-n).tmod d := by
      rw [← abs_neg, ← Int.neg_tmod, abs_of_nonneg (Int.tmod_nonneg d (neg_nonneg.2 hn.le))]
    rw [Int.cast_neg, neg_div, roundAway_neg, Int.neg_tdiv, neg_eq_iff_eq_neg] at hneg
    rw [hneg, hmod, if_pos hn]
    split_ifs <;> ring
  · rw [roundAway_div hn hd, abs_of_nonneg (Int.tmod_nonneg d hn), if_neg (not_lt.2 hn)]

/-- The frame that is nearest to a time, half away from zero; nothing overflows. -/
theorem rationalToTs_eq {r : Fraction} (hr : r.Valid) {tb : ℤ × ℤ} (htb : IsTimeBase tb) :
    rationalToTs r tb = some (roundAway (r.num / r.den * tb.2 / tb.1)) := by
  obtain ⟨hnum, hden, hden'⟩ := hr.magnitude_le
  rcases hden.eq_or_lt with hzero | hpos
  · have hval : (r.num / r.den * tb.2 / tb.1 : ℚ) = 0 := by rw [← hzero]; simp
    rw [rationalToTs, if_pos (.inl hzero.symm), hval]
    exact congrArg some roundAway_zero.symm
  have hd : 0 < r.den * tb.1 := mul_pos hpos htb.num_pos
  have hn : |r.num * tb.2| ≤ 2 ^ 62 := by
    rw [abs_mul, abs_of_pos htb.den_pos]
    exact (mul_le_mul hnum htb.den_lt.le htb.den_pos.le (by norm_num)).trans (by norm_num)
  have hd' : r.den * tb.1 ≤ 2 ^ 62 :=
    (mul_le_mul ((le_abs_self _).trans hden') htb.num_lt.le htb.num_pos.le (by norm_num)).trans
      (by norm_num)
  have hval : (r.num / r.den * tb.2 / tb.1 : ℚ) = (r.num * tb.2 : ℤ) / (r.den * tb.1 : ℤ) := by
    push_cast
    rw [div_mul_eq_mul_div, div_div]
  have hq : |(r.num * tb.2).tdiv (r.den * tb.1)| ≤ 2 ^ 62 := by
    refine le_trans ?_ hn
    rw [Int.abs_eq_natAbs, Int.abs_eq_natAbs, Int.natAbs_tdiv]
    exact_mod_cast Nat.div_le_self _ _
  have hrem : |(r.num * tb.2).tmod (r.den * tb.1)| < r.den * tb.1 := abs_tmod_lt _ hd
  have hrem' := abs_nonneg ((r.num * tb.2).tmod (r.den * tb.1))
  have hround := roundAway_quotient (r.num * tb.2) hd
  rw [rationalToTs, if_neg (by rw [not_or, not_or]; exact ⟨hpos.ne', htb.num_pos.ne',
    htb.den_pos.ne'⟩), hval, hround]
  dsimp only
  rw [magnitude_eq_abs, magnitude_eq_abs, abs_of_pos hd] at *
  rw [abs_le] at hn hq
  rw [checked_eq, asI64_eq]
  · rw [InI64]
    split_ifs <;> omega
  · have hsign : (if r.num * tb.2 < 0 then -1 else 1 : ℤ) = -1 ∨
        (if r.num * tb.2 < 0 then -1 else 1 : ℤ) = 1 := by
      split_ifs <;> simp
    simp only [List.forall_mem_cons, List.not_mem_nil, false_imp_iff, implies_true, and_true, Fits]
    omega

/-! ### From frames to seconds -/

theorem gcd_eq {a b : ℤ} (ha : |a| < 2 ^ 31) (hb : |b| < 2 ^ 31) (hne : b ≠ 0) :
    gcd a b = some (Int.gcd a b : ℤ) := by
  have hpos : (Int.gcd a b : ℤ) ≠ 0 := by
    exact_mod_cast (Int.gcd_pos_of_ne_zero_right a hne).ne'
  have hloop : gcdLoop |a| |b| = Int.gcd a b := by
    rw [gcdLoop_eq (abs_nonneg a) (abs_nonneg b), Int.gcd, Int.natAbs_abs, Int.natAbs_abs, Int.gcd]
  have ha' := abs_nonneg a
  have hb' := abs_nonneg b
  rw [gcd, magnitude_eq_abs, magnitude_eq_abs, hloop, if_pos]
  · dsimp only
    rw [if_neg hpos]
  · rw [InI64, InI64]
    omega

theorem tsToRational_eq (ts : I64) {tb : ℤ × ℤ} (htb : IsTimeBase tb)
    (h : Representable (ts.1 * tb.1 / tb.2 : ℚ)) :
    ∃ r, tsToRational ts tb = some r ∧ r.Valid ∧ 0 < r.den ∧
      (r.num / r.den : ℚ) = ts.1 * tb.1 / tb.2 := by
  obtain ⟨hnum, hden⟩ := h _ rfl
  have hb : (0 : ℤ) < tb.2 := htb.den_pos
  have hg : 0 < (Int.gcd (ts.1 * tb.1) tb.2 : ℤ) :=
    Int.natCast_pos.2 (Int.gcd_pos_of_ne_zero_right _ hb.ne')
  have hts := ts.2.abs_le_pow
  have hprod : |ts.1 * tb.1| ≤ 2 ^ 94 := by
    rw [mul_comm]
    exact abs_mul_le (by rw [abs_of_pos htb.num_pos]; exact htb.num_lt.le) hts
  have hmod : |(ts.1 * tb.1).tmod tb.2| < 2 ^ 31 :=
    (abs_tmod_lt _ hb).trans htb.den_lt
  have hgcd : Int.gcd ((ts.1 * tb.1).tmod tb.2) tb.2 = Int.gcd (ts.1 * tb.1) tb.2 := by
    conv_rhs => rw [← Int.tmod_add_mul_tdiv (ts.1 * tb.1) tb.2]
    rw [Int.gcd_add_mul_left_left]
  have hcoprime := Int.isCoprime_iff_gcd_eq_one.2
    (Int.gcd_ediv_gcd_ediv_gcd (Int.natCast_pos.1 hg))
  obtain ⟨a, ha⟩ := Int.gcd_dvd_left (ts.1 * tb.1) tb.2
  obtain ⟨b, hb'⟩ := Int.gcd_dvd_right (ts.1 * tb.1) tb.2
  have hgcd' := gcd_eq hmod (by rw [abs_of_pos hb]; exact htb.den_lt) hb.ne'
  rw [hgcd] at hgcd'
  generalize (Int.gcd (ts.1 * tb.1) tb.2 : ℤ) = g at *
  rw [ha, hb', Int.mul_ediv_cancel_left _ hg.ne', Int.mul_ediv_cancel_left _ hg.ne'] at hcoprime
  have hbpos : 0 < b := pos_of_mul_pos_right (hb' ▸ hb) hg.le
  have hvalue : (a / b : ℚ) = ts.1 * tb.1 / tb.2 := by
    rw [← Int.cast_mul, ha, hb']
    push_cast
    rw [mul_div_mul_left _ _ (Int.cast_ne_zero.2 hg.ne')]
  have ha' : (a / b : ℚ).num = a := Rat.num_div_eq_of_coprime hbpos
    (Int.isCoprime_iff_gcd_eq_one.1 hcoprime)
  have hb'' : ((a / b : ℚ).den : ℤ) = b := Rat.den_div_eq_of_coprime hbpos
    (Int.isCoprime_iff_gcd_eq_one.1 hcoprime)
  rw [← hvalue, ha'] at hnum
  rw [← hvalue] at hden
  have hbox : InBox reduceMax (a, b) :=
    ⟨by dsimp only; omega, by dsimp only; omega, hbpos, by dsimp only; omega⟩
  have hvalid : Fraction.Valid ⟨a, b⟩ := Or.inr ⟨hbox, hcoprime⟩
  refine ⟨⟨a, b⟩, ?_, hvalid, hbpos, hvalue⟩
  have hrange := InBox.inI64 hbox
  have hmodI : InI64 ((ts.1 * tb.1).tmod tb.2) := by
    rw [abs_lt] at hmod
    rw [InI64]
    omega
  have hdenI : InI64 tb.2 := by
    have := htb.den_lt
    rw [InI64]
    omega
  rw [tsToRational, if_neg hb.ne', checked_eq, asI64_eq hmodI, asI64_eq hdenI, hgcd']
  · simp only [Option.bind_eq_bind, Option.bind_some]
    rw [ha, hb', Int.mul_tdiv_cancel_left _ hg.ne', Int.mul_tdiv_cancel_left _ hg.ne',
      asI64_eq hrange.1, asI64_eq hrange.2]
    exact Fraction.new_self hvalid
  · rw [List.forall_mem_singleton, Fits]
    rw [abs_le] at hprod
    omega

/-- A frame whose time is a rational comes back from it. A time gives the nearest frame, half away
from zero, later times give no earlier frames, and nothing overflows. -/
theorem frame_roundTrip {tb : ℤ × ℤ} (htb : IsTimeBase tb) :
    (∀ ts : I64, Representable (ts.1 * tb.1 / tb.2 : ℚ) →
      ∃ r, tsToRational ts tb = some r ∧ (r.num / r.den : ℚ) = ts.1 * tb.1 / tb.2 ∧
        rationalToTs r tb = some ts.1) ∧
    (∀ r : Fraction, r.Valid →
      rationalToTs r tb = some (roundAway (r.num / r.den * tb.2 / tb.1))) ∧
    ∀ r s : Fraction, r.Valid → s.Valid → (r.num / r.den : ℚ) ≤ s.num / s.den →
      ∃ m n, rationalToTs r tb = some m ∧ rationalToTs s tb = some n ∧ m ≤ n := by
  have hnum : (0 : ℚ) < tb.1 := Int.cast_pos.2 htb.num_pos
  have hden : (0 : ℚ) < tb.2 := Int.cast_pos.2 htb.den_pos
  refine ⟨fun ts h => ?_, fun r hr => rationalToTs_eq hr htb, fun r s hr hs hle => ?_⟩
  · obtain ⟨r, hr, hvalid, -, hvalue⟩ := tsToRational_eq ts htb h
    refine ⟨r, hr, hvalue, ?_⟩
    have hback : (r.num / r.den * tb.2 / tb.1 : ℚ) = ts.1 := by
      rw [hvalue, div_mul_cancel₀ _ hden.ne', mul_div_cancel_right₀ _ hnum.ne']
    rw [rationalToTs_eq hvalid htb, hback, roundAway_intCast]
  · refine ⟨_, _, rationalToTs_eq hr htb, rationalToTs_eq hs htb, roundAway_le ?_⟩
    gcongr

theorem frame_roundTrip_dropFrame :
    (∃ r, tsToRational (-1800) (1001, 30000) = some r ∧
      (r.num / r.den : ℚ) = (-1800 : ℤ) * (1001 : ℤ) / (30000 : ℤ) ∧
      rationalToTs r (1001, 30000) = some (-1800)) ∧
    rationalToTs ⟨1001, 60000⟩ (1001, 30000) = some 1 :=
  have htb : IsTimeBase (1001, 30000) := ⟨by decide, by decide, by decide, by decide⟩
  have h := frame_roundTrip htb
  ⟨h.1 ⟨-1800, by decide⟩ (by
      rintro q ⟨⟩
      decide +kernel), by decide⟩

end Oak.App.Frames
