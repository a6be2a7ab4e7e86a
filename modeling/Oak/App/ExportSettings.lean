import Oak.Core.Fraction
import Oak.Lib.Rounding
import Oak.Task.Export

/-!
# Export settings

`encoding_params_with_settings` of `oak-app/src/oakui/renderops.rs`: the time base, the range and
the length that an export is given, from the rate of the sequence, the settings of the dialog and the
work area. Floating-point values are exact; a panic is `none`. `Oak.Task.Export` has the range that
the task makes of the parameters.

* `Kept` says that a frame of the sequence has the same time at the rate of the output.

## Main results

* `exports_iff`: which spans are exported, and with the right length.
-/

namespace Oak.App

open Oak.Core Oak.Lib
open Oak.Task.Export (EncodingParams Viewer exportRange)

/-! ### The code -/

/-- The fields of `ExportSettings` that times depend on. -/
structure ExportSettings where
  frameRate : ℚ
  range : Option (ℚ × ℚ)

/-- The fields of `EncodingParams` that times depend on. -/
structure ExportParams extends EncodingParams where
  exportLengthNum : ℤ
  exportLengthDen : ℤ

/-- `rate_num` and `rate_den`. -/
def outputRate (rate : Fraction) (frameRate : ℚ) : ℤ × ℤ :=
  if 0 < frameRate then (min (max (roundAway frameRate) 1) (2 ^ 31 - 1), 1)
  else ((max rate.num 1).bmod (2 ^ 32), (max rate.den 1).bmod (2 ^ 32))

/-- The time of some frames at a rate. -/
def frameTime (out : ℤ × ℤ) (frames : ℤ) : Option Fraction :=
  if InI64 frames ∧ InI64 (frames * max out.2 1) then
    Fraction.new (frames * max out.2 1) (max out.1 1)
  else none

/-- The time of the frame next to some seconds. The numerator of the rate is the rate. -/
def secondsTime (out : ℤ × ℤ) (seconds : ℚ) : Option Fraction :=
  let fps := max out.1 1
  Fraction.new (min (max (roundAway (seconds * fps)) 0) (2 ^ 63 - 1)) fps

/-- The range in seconds, when it is one. -/
def ExportSettings.seconds (settings : ExportSettings) : Option (ℚ × ℚ) :=
  settings.range.filter fun r => r.1 < r.2 ∧ 0 ≤ r.1

def exportParams (out : ℤ × ℤ) (hasCustomRange : Bool) (rangeIn rangeOut length : Fraction) :
    ExportParams where
  videoTimeBaseNum := (max out.2 1).toNat
  videoTimeBaseDen := (max out.1 1).toNat
  num_pos := by omega
  den_pos := by omega
  audioSampleRate := 48000
  hasCustomRange := hasCustomRange
  customRangeInNum := rangeIn.num
  customRangeInDen := rangeIn.den
  customRangeOutNum := rangeOut.num
  customRangeOutDen := rangeOut.den
  exportLengthNum := length.num
  exportLengthDen := length.den

/-- The parameters of a custom range. -/
def customParams (out : ℤ × ℤ) (rangeIn rangeOut length : Option Fraction) :
    Option ExportParams :=
  rangeIn.bind fun a => rangeOut.bind fun b => length.map fun c => exportParams out true a b c

/-- `encoding_params_with_settings`, for a sequence with a frame rate. -/
def encodingParamsWithSettings (rate : Fraction) (settings : ExportSettings)
    (workarea : Option (ℤ × ℤ)) (lengthFrames : ℤ) : Option ExportParams :=
  let out := outputRate rate settings.frameRate
  match settings.seconds, workarea.filter fun w => w.1 < w.2 with
  | some (inS, outS), _ =>
    customParams out (secondsTime out inS) (secondsTime out outS) (secondsTime out (outS - inS))
  | none, some (inTs, outTs) =>
    customParams out (frameTime out inTs) (frameTime out outTs) (frameTime out (outTs - inTs))
  | none, none =>
    (frameTime out (max lengthFrames 0)).map fun c => exportParams out false ⟨0, 1⟩ ⟨0, 1⟩ c

/-! ### What is asked for -/

/-- The parameters make a task render a range that is as it should be, and hold its length. -/
def Exports (params : Option ExportParams) (viewer : Viewer) (asked : TimeRange → Prop) : Prop :=
  ∃ p, params = some p ∧ asked (exportRange viewer p.toEncodingParams) ∧
    (p.exportLengthNum / p.exportLengthDen : ℚ) = (exportRange viewer p.toEncodingParams).length

/-- The range is some seconds to within half an output frame. -/
def NearSeconds (out : ℤ × ℤ) (inS outS : ℚ) (range : TimeRange) : Prop :=
  |range.in_ - inS| ≤ out.2 / (2 * out.1) ∧ |range.out - outS| ≤ out.2 / (2 * out.1)

/-- The time of a frame of the sequence. -/
def frameSeconds (rate : Fraction) (frame : ℤ) : ℚ := frame * rate.den / rate.num

/-- The time of a frame of the sequence is a rational, and that of the same frame of the output: the
rates are the same, or it is the first frame, or both times are at the end of all rationals. -/
def Kept (rate : Fraction) (out : ℤ × ℤ) (frame : ℤ) : Prop :=
  Representable (frameSeconds rate frame) ∧
    (out.1 * rate.den = rate.num * out.2 ∨ frame = 0 ∨
      |frameSeconds rate frame| = reduceMax ∧ (reduceMax : ℚ) ≤ |(frame * out.2 / out.1 : ℚ)|)

/-! ### Frames -/

section Frames

variable {rate : Fraction} {out : ℤ × ℤ} {frame : ℤ}

/-- A rate above zero. -/
structure IsRate (r : ℤ × ℤ) : Prop where
  num_pos : 1 ≤ r.1
  num_le : r.1 ≤ reduceMax
  den_pos : 1 ≤ r.2
  den_le : r.2 ≤ reduceMax

/-- The output has the rate of the sequence, or a whole one. -/
theorem outputRate_cases (hrate : IsRate (rate.num, rate.den)) (frameRate : ℚ) :
    IsRate (outputRate rate frameRate) ∧ (outputRate rate frameRate = (rate.num, rate.den) ∨
      (outputRate rate frameRate).2 = 1) := by
  obtain ⟨hnum, hnum', hden, hden'⟩ := hrate
  dsimp only [reduceMax] at *
  rw [outputRate]
  split_ifs
  · refine ⟨⟨?_, ?_, le_rfl, by norm_num [reduceMax]⟩, .inr rfl⟩
    · dsimp only
      omega
    · dsimp only [reduceMax]
      omega
  · rw [max_eq_left hnum, max_eq_left hden, Int.bmod_eq_of_le (by omega) (by omega),
      Int.bmod_eq_of_le (by omega) (by omega)]
    exact ⟨⟨hnum, hnum', hden, hden'⟩, .inl rfl⟩

/-- A computed time, and what it is. -/
def IsTime (time : Option Fraction) (x : ℚ) : Prop :=
  ∃ r, time = some r ∧ r.den ≠ 0 ∧ (r.num / r.den : ℚ) = x

theorem one_le_reduceMax : (1 : ℤ) ≤ reduceMax := by decide

theorem representable_div {p q : ℤ} (h : InBox reduceMax (p, q)) : Representable (p / q : ℚ) := by
  obtain ⟨hle, hle', hpos, hden⟩ := h
  dsimp only at *
  have hrep : Representable (Rat.divInt p q.toNat : ℚ) :=
    representable_divInt (by omega) (by omega)
  rwa [Rat.divInt_eq_div, Int.toNat_of_nonneg (by omega)] at hrep

theorem exists_inBox {x : ℚ} (h : Representable x) :
    ∃ c : ℤ × ℤ, InBox reduceMax c ∧ ratOf c = x := by
  obtain ⟨hnum, hden⟩ := h x rfl
  have hpos := x.den_pos
  refine ⟨(x.num, x.den), ⟨?_, ?_, ?_, ?_⟩, Rat.num_div_den x⟩ <;> dsimp only <;> omega

theorem abs_le_of_representable {x : ℚ} (h : Representable x) : |x| ≤ reduceMax := by
  obtain ⟨c, hc, rfl⟩ := exists_inBox h
  have hden : (1 : ℚ) ≤ c.2 := by exact_mod_cast hc.one_le_den
  rw [ratOf, abs_div, abs_of_pos (zero_lt_one.trans_le hden)]
  refine (div_le_self (abs_nonneg _) hden).trans ?_
  exact_mod_cast abs_le.2 ⟨hc.le_num, hc.num_le⟩

/-- The computed time of a frame is the rational that is nearest to it. -/
theorem exists_frameTime (hout : IsRate out) (hframe : InI64 frame) (hfits : InI64 (frame * out.2)) :
    ∃ y, IsTime (frameTime out frame) y ∧
      ∃ c, Nearest reduceMax (frame * out.2 / out.1) c ∧ ratOf c = y := by
  have hden : InI64 out.1 := by
    have := hout.num_pos
    have := hout.num_le
    simp only [InI64, reduceMax] at *
    omega
  obtain ⟨r, hr, hnearest⟩ := Fraction.exists_new_nearest hfits hden hout.num_pos
  rw [Int.cast_mul] at hnearest
  have hpos : 0 < r.den := hnearest.inBox.one_le_den
  refine ⟨_, ⟨r, ?_, hpos.ne', rfl⟩, _, hnearest, rfl⟩
  rw [frameTime, max_eq_left hout.den_pos, max_eq_left hout.num_pos, if_pos ⟨hframe, hfits⟩, hr]

theorem nearest_of_frameTime (hout : IsRate out) {r : Fraction}
    (hr : frameTime out frame = some r) :
    ∃ y, IsTime (frameTime out frame) y ∧
      ∃ c, Nearest reduceMax (frame * out.2 / out.1) c ∧ ratOf c = y := by
  by_cases hfits : InI64 frame ∧ InI64 (frame * out.2)
  · exact exists_frameTime hout hfits.1 hfits.2
  · rw [frameTime, max_eq_left hout.den_pos, if_neg hfits] at hr
    cases hr

theorem frameTime_isTime_iff {y : ℚ} (h : IsTime (frameTime out frame) y) {x : ℚ} :
    IsTime (frameTime out frame) x ↔ x = y := by
  constructor
  · rintro ⟨r, hr, -, rfl⟩
    obtain ⟨r', hr', -, rfl⟩ := h
    rw [Option.some.inj (hr.symm.trans hr')]
  · rintro rfl
    exact h

theorem inI64_of_representable (hrate : IsRate (rate.num, rate.den))
    (h : Representable (frameSeconds rate frame)) : InI64 frame ∧ InI64 (frame * rate.den) := by
  have hnum : (0 : ℚ) < rate.num := Int.cast_pos.2 hrate.num_pos
  have hbound : |frame * rate.den| ≤ reduceMax * rate.num := by
    have hle := abs_le_of_representable h
    rw [frameSeconds, abs_div, abs_of_pos hnum, div_le_iff₀ hnum] at hle
    exact_mod_cast hle
  have hframe : |frame| ≤ reduceMax * rate.num := by
    refine le_trans ?_ hbound
    rw [abs_mul]
    exact le_mul_of_one_le_right (abs_nonneg _) (hrate.den_pos.trans (le_abs_self _))
  have hnum' := hrate.num_le
  simp only [InI64, reduceMax, abs_le] at *
  omega

/-- The times of a frame at two rates are as far apart as the rates. -/
theorem div_le_abs_sub (hrate : IsRate (rate.num, rate.den)) (hout : IsRate out) (hone : out.2 = 1)
    (hne : out.1 * rate.den ≠ rate.num * out.2) (frame : ℤ) :
    |(frame * out.2 / out.1 : ℚ)| / reduceMax ≤
      |frame * out.2 / out.1 - frameSeconds rate frame| := by
  have hnum : (0 : ℚ) < rate.num := Int.cast_pos.2 hrate.num_pos
  have hnum' : (rate.num : ℚ) ≤ reduceMax := by exact_mod_cast hrate.num_le
  have hout' : (0 : ℚ) < out.1 := Int.cast_pos.2 hout.num_pos
  have hdiff : (1 : ℚ) ≤ |((rate.num - out.1 * rate.den : ℤ) : ℚ)| := by
    rw [hone, mul_one] at hne
    exact_mod_cast Int.one_le_abs (sub_ne_zero.2 hne.symm)
  have heq : (frame * out.2 / out.1 - frameSeconds rate frame : ℚ) =
      frame / out.1 * ((rate.num - out.1 * rate.den : ℤ) / rate.num) := by
    rw [frameSeconds, hone]
    push_cast
    field_simp
  rw [heq, hone, Int.cast_one, mul_one, abs_mul, abs_div _ (rate.num : ℚ), abs_of_pos hnum,
    div_eq_mul_one_div]
  gcongr

/-- The time of a frame of the output is that of the frame of the sequence. -/
theorem isTime_frameTime_iff (hrate : IsRate (rate.num, rate.den)) (hout : IsRate out)
    (hcases : out = (rate.num, rate.den) ∨ out.2 = 1) :
    IsTime (frameTime out frame) (frameSeconds rate frame) ↔ Kept rate out frame := by
  have hout' : (0 : ℚ) < out.1 := Int.cast_pos.2 hout.num_pos
  have houtDen : (0 : ℚ) < out.2 := Int.cast_pos.2 hout.den_pos
  have hnum : (0 : ℚ) < rate.num := Int.cast_pos.2 hrate.num_pos
  have hrateDen : (0 : ℚ) < rate.den := Int.cast_pos.2 hrate.den_pos
  constructor
  · intro h
    obtain ⟨y, hy, c, hnearest, hc⟩ := nearest_of_frameTime hout h.choose_spec.1
    obtain rfl := (frameTime_isTime_iff hy).1 h
    refine ⟨hc ▸ representable_div hnearest.inBox, ?_⟩
    by_contra hnot
    obtain ⟨hrates, hnot⟩ := not_or.1 hnot
    obtain ⟨hzero, hend⟩ := not_or.1 hnot
    have hone : out.2 = 1 := hcases.resolve_left fun h => hrates (by rw [h])
    have hfar := div_le_abs_sub hrate hout hone hrates frame
    have hx : (frame * out.2 / out.1 : ℚ) = frame / out.1 := by rw [hone, Int.cast_one, mul_one]
    rcases le_or_gt |frame| reduceMax with hsmall | hlarge
    · -- a frame below the bound has a time of its own at a whole rate
      have hbox : InBox reduceMax (frame, out.1) :=
        ⟨(abs_le.1 hsmall).1, (abs_le.1 hsmall).2, hout.num_pos, hout.num_le⟩
      rw [← hc, hnearest.ratOf_eq hbox hx.symm, sub_self, abs_zero] at hfar
      refine absurd hfar (not_le.2 (div_pos (abs_pos.2 ?_) (by norm_num [reduceMax])))
      rw [hx]
      exact div_ne_zero (Int.cast_ne_zero.2 hzero) hout'.ne'
    · have hlow : 1 ≤ |(frame * out.2 / out.1 : ℚ)| := by
        rw [hx, abs_div, abs_of_pos hout', le_div_iff₀ hout', one_mul]
        exact_mod_cast hout.num_le.trans hlarge.le
      rcases le_or_gt |(frame * out.2 / out.1 : ℚ)| reduceMax with hle | hgt
      · exact hnearest.ne hlow hle hfar hc
      · refine hend ⟨?_, hgt.le⟩
        rcases lt_abs.1 hgt with hpos | hneg
        · rw [← hc, hnearest.eq_bound one_le_reduceMax hpos.le, Int.cast_natCast, Nat.abs_cast]
        · rw [← hc, ← abs_neg, ← ratOf_neg, hnearest.neg.eq_bound one_le_reduceMax hneg.le,
            Int.cast_natCast, Nat.abs_cast]
  · rintro ⟨hrep, hcase⟩
    have hfits := inI64_of_representable hrate hrep
    have hfits : InI64 frame ∧ InI64 (frame * out.2) := by
      refine ⟨hfits.1, ?_⟩
      rcases hcases with rfl | hone
      · exact hfits.2
      · rw [hone, mul_one]
        exact hfits.1
    obtain ⟨y, hy, c, hnearest, rfl⟩ := exists_frameTime hout hfits.1 hfits.2
    refine (frameTime_isTime_iff hy).2 ?_
    obtain ⟨c', hbox, hc'⟩ := exists_inBox hrep
    rcases hcase with hrates | rfl | ⟨hmax, hend⟩
    · have hsame : (frame * out.2 / out.1 : ℚ) = frameSeconds rate frame := by
        rw [frameSeconds, div_eq_div_iff hout'.ne' hnum.ne']
        have : (out.1 * rate.den : ℚ) = rate.num * out.2 := by exact_mod_cast hrates
        linear_combination (-frame : ℚ) * this
      exact (hnearest.ratOf_eq hbox (hc'.trans hsame.symm)).symm ▸ hsame.symm
    · have hzero : frameSeconds rate 0 = (0 : ℤ) * out.2 / out.1 := by simp [frameSeconds]
      exact (hnearest.ratOf_eq hbox (hc'.trans hzero)).symm ▸ hzero
    · rcases lt_trichotomy frame 0 with hneg | rfl | hpos
      · have hneg' : (frame : ℚ) < 0 := Int.cast_lt_zero.2 hneg
        have hz : frameSeconds rate frame ≤ 0 := by
          rw [frameSeconds, div_le_iff₀ hnum, zero_mul]
          exact mul_nonpos_of_nonpos_of_nonneg hneg'.le hrateDen.le
        have hx : (frame * out.2 / out.1 : ℚ) ≤ 0 := by
          rw [div_le_iff₀ hout', zero_mul]
          exact mul_nonpos_of_nonpos_of_nonneg hneg'.le houtDen.le
        rw [abs_of_nonpos hz] at hmax
        rw [abs_of_nonpos hx] at hend
        rw [← neg_inj, ← ratOf_neg, hnearest.neg.eq_bound one_le_reduceMax hend, Int.cast_natCast]
        exact hmax
      · simp [frameSeconds, reduceMax] at hmax
      · have hpos' : (0 : ℚ) < frame := Int.cast_pos.2 hpos
        rw [abs_of_nonneg (by unfold frameSeconds; positivity)] at hmax
        rw [abs_of_nonneg (by positivity)] at hend
        rw [hnearest.eq_bound one_le_reduceMax hend, Int.cast_natCast]
        exact hmax

end Frames

/-! ### Spans -/

variable {a b c : Option Fraction}

section Spans

variable {rate : Fraction} {settings : ExportSettings} {workarea : Option (ℤ × ℤ)}
  {lengthFrames : ℤ} {viewer : Viewer} {out : ℤ × ℤ} {asked : TimeRange → Prop}

/-- What is exported of a custom range: everything when it is empty. -/
def customRange (viewer : Viewer) (x y : ℚ) : TimeRange :=
  if x < y then ⟨x, y⟩ else TimeRange.new 0 viewer.length

theorem exports_customParams_iff {x y z : ℚ} (ha : IsTime a x) (hb : IsTime b y) (hc : IsTime c z) :
    Exports (customParams out a b c) viewer asked ↔
      asked (customRange viewer x y) ∧ z = (customRange viewer x y).length := by
  obtain ⟨a, rfl, ha0, rfl⟩ := ha
  obtain ⟨b, rfl, hb0, rfl⟩ := hb
  obtain ⟨c, rfl, -, rfl⟩ := hc
  have hrange : exportRange viewer (exportParams out true a b c).toEncodingParams =
      customRange viewer (a.num / a.den) (b.num / b.den) := by
    rw [exportRange, exportParams, customRange]
    dsimp only
    by_cases hlt : (a.num / a.den : ℚ) < b.num / b.den
    · rw [if_pos ⟨rfl, ha0, hb0, hlt⟩, if_pos hlt, TimeRange.new, if_neg hlt.not_gt]
    · rw [if_neg fun h => hlt h.2.2.2, if_neg hlt]
  rw [← hrange]
  constructor
  · rintro ⟨p, hp, h⟩
    obtain rfl := Option.some.inj hp
    exact h
  · exact fun h => ⟨_, rfl, h⟩

theorem exists_of_customParams (h : Exports (customParams out a b c) viewer asked) :
    (∃ r, a = some r) ∧ (∃ r, b = some r) ∧ ∃ r, c = some r := by
  obtain ⟨p, hp, -⟩ := h
  obtain ⟨a, ha, hp⟩ := Option.bind_eq_some_iff.1 hp
  obtain ⟨b, hb, hp⟩ := Option.bind_eq_some_iff.1 hp
  obtain ⟨c, hc, -⟩ := Option.map_eq_some_iff.1 hp
  exact ⟨⟨a, ha⟩, ⟨b, hb⟩, c, hc⟩

theorem frameSeconds_sub (i j : ℤ) :
    frameSeconds rate (j - i) = frameSeconds rate j - frameSeconds rate i := by
  rw [frameSeconds, frameSeconds, frameSeconds]
  push_cast
  ring

theorem one_div_le_frame (hout : IsRate out) {frame : ℤ} (hframe : 0 < frame) :
    (1 / reduceMax : ℚ) ≤ frame * out.2 / out.1 := by
  have hnum : (0 : ℚ) < out.1 := Int.cast_pos.2 hout.num_pos
  have hle : (1 : ℚ) ≤ frame * out.2 := by
    exact_mod_cast one_le_mul_of_one_le_of_one_le hframe hout.den_pos
  refine div_le_div₀ (zero_le_one.trans hle) hle hnum ?_
  exact_mod_cast hout.num_le

section

variable (hrate : IsRate (rate.num, rate.den))

include hrate

theorem frameSeconds_eq_zero_iff {i : ℤ} : frameSeconds rate i = 0 ↔ i = 0 := by
  have hnum : (rate.num : ℚ) ≠ 0 := (Int.cast_pos.2 hrate.num_pos).ne'
  have hden : (rate.den : ℚ) ≠ 0 := (Int.cast_pos.2 hrate.den_pos).ne'
  rw [frameSeconds, div_eq_zero_iff, mul_eq_zero, or_iff_left hnum, or_iff_left hden,
    Int.cast_eq_zero]

theorem frameSeconds_lt {i j : ℤ} (hij : i < j) : frameSeconds rate i < frameSeconds rate j := by
  have hnum : (0 : ℚ) < rate.num := Int.cast_pos.2 hrate.num_pos
  have hden : (0 : ℚ) < rate.den := Int.cast_pos.2 hrate.den_pos
  have hij' : (i : ℚ) < j := by exact_mod_cast hij
  unfold frameSeconds
  gcongr

/-- A work area is exported as it is when its frames, and their number, are kept. -/
theorem workarea_iff (hnone : settings.seconds = none) {inTs outTs : ℤ} (hlt : inTs < outTs)
    (hlength : 0 ≤ viewer.length) :
    Exports (encodingParamsWithSettings rate settings (some (inTs, outTs)) lengthFrames) viewer
        (· = ⟨frameSeconds rate inTs, frameSeconds rate outTs⟩) ↔
      ∀ frame ∈ [inTs, outTs, outTs - inTs],
        Kept rate (outputRate rate settings.frameRate) frame := by
  obtain ⟨hout, hcases⟩ := outputRate_cases hrate settings.frameRate
  have hfilter : (some (inTs, outTs)).filter (fun w : ℤ × ℤ => w.1 < w.2) = some (inTs, outTs) :=
    Option.filter_some_pos (decide_eq_true hlt)
  rw [encodingParamsWithSettings, hnone, hfilter]
  generalize outputRate rate settings.frameRate = out at hout hcases ⊢
  simp only [List.forall_mem_cons, List.not_mem_nil, false_imp_iff, implies_true, and_true,
    ← isTime_frameTime_iff hrate hout hcases]
  have hless := frameSeconds_lt hrate hlt
  constructor
  · intro h
    obtain ⟨⟨a, ha⟩, ⟨b, hb⟩, c, hc⟩ := exists_of_customParams h
    obtain ⟨x, hx, c₁, hxnear, hc₁⟩ := nearest_of_frameTime hout ha
    obtain ⟨y, hy, c₂, hynear, rfl⟩ := nearest_of_frameTime hout hb
    obtain ⟨z, hz, -⟩ := nearest_of_frameTime hout hc
    obtain ⟨hrange, hlen⟩ := (exports_customParams_iff hx hy hz).1 h
    rw [hrange, TimeRange.length, ← frameSeconds_sub] at hlen
    rw [customRange] at hrange
    split_ifs at hrange with hxy
    · rw [TimeRange.mk.injEq] at hrange
      exact ⟨hrange.1 ▸ hx, hrange.2 ▸ hy, hlen ▸ hz⟩
    · -- everything begins at the first frame, of which the range would not be empty
      rw [TimeRange.new, if_neg hlength.not_gt, TimeRange.mk.injEq] at hrange
      obtain rfl : inTs = 0 := (frameSeconds_eq_zero_iff hrate).1 hrange.1.symm
      have hzero : x = 0 := by
        have hbox : InBox reduceMax (0, 1) := by constructor <;> norm_num [reduceMax]
        rw [← hc₁, hxnear.ratOf_eq hbox (by simp [ratOf]), Int.cast_zero, zero_mul, zero_div]
      exact absurd (hzero ▸ hynear.pos one_le_reduceMax (one_div_le_frame hout hlt)) hxy
  · rintro ⟨ha, hb, hc⟩
    have hrange : customRange viewer (frameSeconds rate inTs) (frameSeconds rate outTs) =
        ⟨frameSeconds rate inTs, frameSeconds rate outTs⟩ := if_pos hless
    rw [exports_customParams_iff ha hb hc, hrange]
    exact ⟨rfl, frameSeconds_sub inTs outTs⟩

/-- The whole sequence is exported; its length is recorded when the last frame is kept. -/
theorem whole_iff (hnone : settings.seconds = none)
    (hworkarea : workarea.filter (fun w => w.1 < w.2) = none) (hframes : 0 ≤ lengthFrames)
    (hviewer : viewer.length = frameSeconds rate lengthFrames) (hlength : 0 ≤ viewer.length) :
    Exports (encodingParamsWithSettings rate settings workarea lengthFrames) viewer
        (· = ⟨0, viewer.length⟩) ↔ Kept rate (outputRate rate settings.frameRate) lengthFrames := by
  obtain ⟨hout, hcases⟩ := outputRate_cases hrate settings.frameRate
  rw [encodingParamsWithSettings, hnone, hworkarea]
  generalize outputRate rate settings.frameRate = out at hout hcases ⊢
  have hrange (c : Fraction) : exportRange viewer
      (exportParams out false ⟨0, 1⟩ ⟨0, 1⟩ c).toEncodingParams = ⟨0, viewer.length⟩ := by
    rw [exportRange, if_neg fun h => Bool.false_ne_true h.1, TimeRange.new, if_neg hlength.not_gt]
  rw [← isTime_frameTime_iff hrate hout hcases, max_eq_left hframes, ← hviewer]
  constructor
  · rintro ⟨p, hp, -, hlen⟩
    obtain ⟨c, hc, rfl⟩ := Option.map_eq_some_iff.1 hp
    obtain ⟨z, hz, -⟩ := nearest_of_frameTime hout hc
    rw [hrange, TimeRange.length, sub_zero] at hlen
    obtain ⟨c', hc', hne, -⟩ := hz
    rw [hc, Option.some_inj] at hc'
    exact ⟨c, hc, hc' ▸ hne, hlen⟩
  · rintro ⟨c, hc, -, hlen⟩
    refine ⟨_, by rw [hc]; rfl, hrange c, ?_⟩
    rw [hrange, TimeRange.length, sub_zero]
    exact hlen

end

/-- Some seconds as a number of output frames. -/
def inFrames (out : ℤ × ℤ) (seconds : ℚ) : ℤ := roundAway (seconds * out.1)

theorem isTime_secondsTime (hout : IsRate out) {s : ℚ} (hs : 0 ≤ s)
    (hrep : Representable (inFrames out s / out.1 : ℚ)) :
    IsTime (secondsTime out s) (inFrames out s / out.1) := by
  have hnum : (0 : ℚ) < out.1 := Int.cast_pos.2 hout.num_pos
  have hpos : 0 ≤ inFrames out s := roundAway_nonneg (mul_nonneg hs hnum.le)
  have hle : inFrames out s ≤ reduceMax * out.1 := by
    have := (le_abs_self _).trans (abs_le_of_representable hrep)
    rw [div_le_iff₀ hnum] at this
    exact_mod_cast this
  have hmax := hout.num_le
  have hone := hout.num_pos
  have hfits : inFrames out s ≤ 2 ^ 63 - 1 ∧ InI64 (inFrames out s) ∧ InI64 out.1 := by
    simp only [InI64, reduceMax] at *
    omega
  obtain ⟨r, hr, hnearest⟩ := Fraction.exists_new_nearest hfits.2.1 hfits.2.2 hone
  obtain ⟨c, hbox, hc⟩ := exists_inBox hrep
  have hpos' : 0 < r.den := hnearest.inBox.one_le_den
  refine ⟨r, ?_, hpos'.ne', hnearest.ratOf_eq hbox hc⟩
  rw [secondsTime, max_eq_left hone]
  change Fraction.new (min (max (inFrames out s) 0) _) _ = _
  rw [max_eq_left hpos, min_eq_left hfits.1, hr]

theorem abs_inFrames_sub_le (hout : IsRate out) (s : ℚ) :
    |(inFrames out s / out.1 - s : ℚ)| ≤ out.2 / (2 * out.1) := by
  have hnum : (0 : ℚ) < out.1 := Int.cast_pos.2 hout.num_pos
  have hden : (1 : ℚ) ≤ out.2 := by exact_mod_cast hout.den_pos
  have hround := abs_roundAway_sub_le (s * out.1)
  have hsub : (inFrames out s / out.1 - s : ℚ) = (inFrames out s - s * out.1) / out.1 := by
    rw [sub_div, mul_div_cancel_right₀ _ hnum.ne']
  rw [hsub, abs_div, abs_of_pos hnum, ← div_div]
  exact div_le_div_of_nonneg_right (hround.trans (by linarith)) hnum.le

/-- Some seconds are exported to within half a frame unless the range is empty in frames. The
length is rounded on its own. -/
theorem seconds_iff (hrate : IsRate (rate.num, rate.den)) {inS outS : ℚ}
    (hseconds : settings.seconds = some (inS, outS))
    (hrep : ∀ s ∈ [inS, outS, outS - inS],
      Representable (inFrames (outputRate rate settings.frameRate) s /
        (outputRate rate settings.frameRate).1 : ℚ)) :
    let out := outputRate rate settings.frameRate
    Exports (encodingParamsWithSettings rate settings workarea lengthFrames) viewer
        (NearSeconds out inS outS) ↔
      inFrames out inS < inFrames out outS ∧
          inFrames out (outS - inS) = inFrames out outS - inFrames out inS ∨
        inFrames out inS = inFrames out outS ∧
          NearSeconds out inS outS (TimeRange.new 0 viewer.length) ∧
          (inFrames out (outS - inS) / out.1 : ℚ) = (TimeRange.new 0 viewer.length).length := by
  have hrange : 0 ≤ inS ∧ inS < outS := by
    have := (Option.filter_eq_some_iff.1 hseconds).2
    simpa [and_comm] using this
  have hout := (outputRate_cases hrate settings.frameRate).1
  rw [encodingParamsWithSettings, hseconds]
  generalize outputRate rate settings.frameRate = out at hout hrep ⊢
  simp only [List.forall_mem_cons, List.not_mem_nil, false_imp_iff, implies_true, and_true] at hrep
  have hnum : (0 : ℚ) < out.1 := Int.cast_pos.2 hout.num_pos
  have hle : inFrames out inS ≤ inFrames out outS :=
    roundAway_le (mul_le_mul_of_nonneg_right hrange.2.le hnum.le)
  dsimp only
  rw [exports_customParams_iff (isTime_secondsTime hout hrange.1 hrep.1)
    (isTime_secondsTime hout (hrange.1.trans hrange.2.le) hrep.2.1)
    (isTime_secondsTime hout (sub_nonneg.2 hrange.2.le) hrep.2.2), customRange]
  rcases hle.lt_or_eq with hlt | heq
  · have hlt' : (inFrames out inS / out.1 : ℚ) < inFrames out outS / out.1 := by
      have : (inFrames out inS : ℚ) < inFrames out outS := by exact_mod_cast hlt
      gcongr
    rw [if_pos hlt', or_iff_left fun h => hlt.ne h.1, and_iff_right hlt, TimeRange.length,
      and_iff_right ⟨abs_inFrames_sub_le hout inS, abs_inFrames_sub_le hout outS⟩, ← sub_div,
      div_left_inj' hnum.ne']
    exact_mod_cast Iff.rfl
  · rw [if_neg (by rw [heq]; exact lt_irrefl _), or_iff_right fun h => h.1.ne heq,
      and_iff_right heq]

end Spans

/-- Some seconds are exported to within half an output frame, with their length, when they begin and
end in different frames and their number of frames is that between the two; a work area and the
whole sequence when their times are those of the same frames of the output. -/
theorem exports_iff {rate : Fraction} (hrate : IsRate (rate.num, rate.den)) {viewer : Viewer}
    (hlength : 0 ≤ viewer.length) (settings : ExportSettings) :
    let out := outputRate rate settings.frameRate
    let params := encodingParamsWithSettings rate settings
    (∀ inS outS workarea lengthFrames, settings.seconds = some (inS, outS) →
      (∀ s ∈ [inS, outS, outS - inS], Representable (inFrames out s / out.1 : ℚ)) →
      (Exports (params workarea lengthFrames) viewer (NearSeconds out inS outS) ↔
        inFrames out inS < inFrames out outS ∧
            inFrames out (outS - inS) = inFrames out outS - inFrames out inS ∨
          inFrames out inS = inFrames out outS ∧
            NearSeconds out inS outS (TimeRange.new 0 viewer.length) ∧
            (inFrames out (outS - inS) / out.1 : ℚ) = (TimeRange.new 0 viewer.length).length)) ∧
    (settings.seconds = none → ∀ inTs outTs lengthFrames, inTs < outTs →
      (Exports (params (some (inTs, outTs)) lengthFrames) viewer
          (· = ⟨frameSeconds rate inTs, frameSeconds rate outTs⟩) ↔
        ∀ frame ∈ [inTs, outTs, outTs - inTs], Kept rate out frame)) ∧
    (settings.seconds = none → ∀ workarea lengthFrames,
      workarea.filter (fun w => w.1 < w.2) = none → 0 ≤ lengthFrames →
      viewer.length = frameSeconds rate lengthFrames →
      (Exports (params workarea lengthFrames) viewer (· = ⟨0, viewer.length⟩) ↔
        Kept rate out lengthFrames)) :=
  ⟨fun _ _ _ _ hseconds hrep => seconds_iff hrate hseconds hrep,
    fun hnone _ _ _ hlt => workarea_iff hrate hnone hlt hlength,
    fun hnone _ _ hworkarea hframes hviewer =>
      whole_iff hrate hnone hworkarea hframes hviewer hlength⟩

/-- A sequence of four seconds. -/
def fourSeconds : Viewer where
  identity := 0
  length := 4
  frameRateAsTimeBase := some (1, 24)
  sampleRate := 48000
  channelLayout := 3
  audioClips := []

theorem exports_iff_film :
    (Exports (encodingParamsWithSettings ⟨24, 1⟩ ⟨0, none⟩ (some (24, 48)) 96) fourSeconds
        (· = ⟨frameSeconds ⟨24, 1⟩ 24, frameSeconds ⟨24, 1⟩ 48⟩) ↔
      ∀ frame ∈ [24, 48, 48 - 24], Kept ⟨24, 1⟩ (outputRate ⟨24, 1⟩ 0) frame) ∧
    (Exports (encodingParamsWithSettings ⟨24, 1⟩ ⟨0, none⟩ none 96) fourSeconds
        (· = ⟨0, fourSeconds.length⟩) ↔ Kept ⟨24, 1⟩ (outputRate ⟨24, 1⟩ 0) 96) :=
  have hrate : IsRate ((⟨24, 1⟩ : Fraction).num, (⟨24, 1⟩ : Fraction).den) :=
    ⟨by decide, by decide, by decide, by decide⟩
  have hlength : 0 ≤ fourSeconds.length := by norm_num [fourSeconds]
  have h := exports_iff hrate hlength ⟨0, none⟩
  ⟨h.2.1 rfl 24 48 96 (by decide), h.2.2 rfl none 96 rfl (by decide)
    (by norm_num [fourSeconds, frameSeconds])⟩

/-- Frames 24 to 48 of a sequence with 24 frames a second, exported at 30 frames. -/
theorem not_exports :
    ¬ Exports (encodingParamsWithSettings ⟨24, 1⟩ ⟨30, none⟩ (some (24, 48)) 96) fourSeconds
      (· = ⟨1, 2⟩) := by
  rintro ⟨p, hp, hrange, -⟩
  have htimes : (encodingParamsWithSettings ⟨24, 1⟩ ⟨30, none⟩ (some (24, 48)) 96).map (fun p =>
      (p.hasCustomRange, p.customRangeInNum, p.customRangeInDen, p.customRangeOutNum,
        p.customRangeOutDen)) = some (true, 4, 5, 8, 5) := by decide +kernel
  rw [hp, Option.map_some, Option.some_inj, Prod.mk.injEq, Prod.mk.injEq, Prod.mk.injEq,
    Prod.mk.injEq] at htimes
  obtain ⟨hcustom, hin, hin', hout, hout'⟩ := htimes
  rw [exportRange, hcustom, hin, hin', hout, hout'] at hrange
  norm_num [TimeRange.new] at hrange

end Oak.App
