import Oak.Audio.Waveform

/-!
# Consistent levels

When the levels of a waveform stay consistent: each point has the extremes of the two points of the
finer level that it covers, and the points inside the spans that have been written are written.

## Main results

* `overwriteLevels_eq`: what is written to a level is the half of what is written to the finer one.
* `Kept.write`, `Kept.reset`, `Kept.trim`, `Kept.resize`: what the operations preserve.
* `Kept.act`: a legal operation keeps the levels consistent.
-/

namespace Oak.Audio

open Oak.Lib

/-! ### Counting points -/

theorem rate_pos (level : ℕ) : 0 < rate level := by
  rw [rate]
  positivity

theorem rate_le (level : ℕ) : rate level ≤ 1024 :=
  div_le_self (by norm_num) (one_le_pow₀ one_le_two)

theorem timeToSamples_succ (x : ℚ) (level : ℕ) :
    timeToSamples x (rate (level + 1)) = timeToSamples x (rate level) / 2 := by
  have hhalf : x * rate (level + 1) = x * rate level / (2 : ℕ) := by
    rw [rate, rate, pow_succ]
    push_cast
    field_simp
  rw [timeToSamples, timeToSamples, hhalf, Nat.floor_div_natCast]

theorem timeToSamples_eq_div (x : ℚ) (level : ℕ) :
    timeToSamples x (rate level) = timeToSamples x (rate 0) / 2 ^ level := by
  induction level with
  | zero => rw [pow_zero, Nat.div_one]
  | succ level ih => rw [timeToSamples_succ, ih, Nat.div_div_eq_div_mul, pow_succ]

theorem timeToSamples_of_nonpos {x : ℚ} (h : x ≤ 0) (level : ℕ) :
    timeToSamples x (rate level) = 0 :=
  Nat.floor_of_nonpos (mul_nonpos_of_nonpos_of_nonneg h (rate_pos level).le)

theorem timeToSamples_max_zero (x : ℚ) (level : ℕ) :
    timeToSamples (Max.max x 0) (rate level) = timeToSamples x (rate level) := by
  rcases le_total x 0 with h | h
  · rw [max_eq_right h, timeToSamples_of_nonpos le_rfl, timeToSamples_of_nonpos h]
  · rw [max_eq_left h]

/-- The points of the finest level up to a time. -/
def points (x : ℚ) : ℤ := ⌊x * 1024⌋

theorem toNat_points (x : ℚ) : (points x).toNat = timeToSamples x (rate 0) := by
  rw [points, timeToSamples, rate, pow_zero, div_one, Int.floor_toNat]

theorem points_add_eight_mul (x : ℚ) (m : ℤ) : points (x + 8 * m) = points x + 8192 * m := by
  have heq : (x + 8 * m) * 1024 = x * 1024 + ((8192 * m : ℤ) : ℚ) := by
    push_cast
    ring
  rw [points, heq, Int.floor_add_intCast, points]

theorem points_eight_mul (m : ℤ) : points (8 * m) = 8192 * m := by
  have hzero : points 0 = 0 := by rw [points, zero_mul, Int.floor_zero]
  have hadd := points_add_eight_mul 0 m
  rwa [zero_add, hzero, zero_add] at hadd

theorem points_mono {x y : ℚ} (h : x ≤ y) : points x ≤ points y :=
  Int.floor_le_floor (by linarith)

/-- A time that is a multiple of the distance between the points of the coarsest level. -/
def Boundary (x : ℚ) : Prop := ∃ m : ℤ, x = 8 * m

namespace Boundary

variable {x y : ℚ}

theorem zero : Boundary 0 := ⟨0, by norm_num⟩

theorem add (hx : Boundary x) (hy : Boundary y) : Boundary (x + y) := by
  obtain ⟨m, rfl⟩ := hx
  obtain ⟨n, rfl⟩ := hy
  exact ⟨m + n, by push_cast; ring⟩

theorem neg (hx : Boundary x) : Boundary (-x) := by
  obtain ⟨m, rfl⟩ := hx
  exact ⟨-m, by push_cast; ring⟩

theorem sub (hx : Boundary x) (hy : Boundary y) : Boundary (x - y) := by
  rw [sub_eq_add_neg]
  exact hx.add hy.neg

theorem dvd (h : Boundary x) : 8192 ∣ timeToSamples x (rate 0) := by
  obtain ⟨m, rfl⟩ := h
  rw [← toNat_points, points_eight_mul]
  omega

theorem points_add (h : Boundary y) (x : ℚ) : points (x + y) = points x + points y := by
  obtain ⟨m, rfl⟩ := h
  rw [points_add_eight_mul, points_eight_mul]

theorem points_sub (h : Boundary y) (x : ℚ) : points (x - y) = points x - points y := by
  have hadd := h.points_add (x - y)
  rw [sub_add_cancel] at hadd
  omega

/-- Every level has a whole number of points up to a boundary. -/
theorem cast_timeToSamples (h : Boundary x) (hx : 0 ≤ x) {level : ℕ} (hlevel : level < levelCount) :
    (timeToSamples x (rate level) : ℚ) = x * rate level := by
  obtain ⟨m, rfl⟩ := h
  have hpow : (2 : ℚ) ^ (13 - level) * 2 ^ level = 8192 := by
    rw [← pow_add, Nat.sub_add_cancel (Nat.le_of_lt_succ hlevel)]
    norm_num
  have heq : 8 * (m : ℚ) * rate level = ((m * 2 ^ (13 - level) : ℤ) : ℚ) := by
    rw [rate]
    push_cast
    field_simp
    rw [mul_assoc (m : ℚ), mul_comm (2 ^ level : ℚ), hpow]
    ring
  have hnonneg : 0 ≤ 8 * (m : ℚ) * rate level := mul_nonneg hx (rate_pos level).le
  rw [timeToSamples, natCast_floor_eq_intCast_floor hnonneg, heq, Int.floor_intCast]

end Boundary

/-- A number of points that is a multiple of those between two points of the coarsest level halves
at every level. -/
theorem two_dvd_div {n level : ℕ} (h : 8192 ∣ n) (hlevel : level + 1 < levelCount) :
    2 ∣ n / 2 ^ level := by
  have hlt : level + 1 < 14 := hlevel
  have hpow : 8192 = 2 ^ level * (2 * 2 ^ (12 - level)) := by
    rw [← pow_succ', ← pow_add, show level + (12 - level + 1) = 13 by omega]
    rfl
  obtain ⟨k, rfl⟩ := h
  rw [hpow, Nat.mul_assoc, Nat.mul_div_cancel_left _ (Nat.two_pow_pos level), Nat.mul_assoc]
  exact Nat.dvd_mul_right ..

/-! ### What an overwrite writes -/

section Levels

variable {F : Type*} [LinearOrder F] [Zero F] {channels : ℕ}

omit [Zero F] in
theorem Sample.merge_self (p : Sample F channels) : p.merge p = p := by
  funext ch
  rw [Sample.merge, SamplePerChannel.expand, ite_self, ite_self]

theorem reSumSamples_two {samples : List (Sample F channels)} {k : ℕ} {p q : Sample F channels}
    (hp : samples[k]? = some p) (hq : samples[k + 1]? = some q) :
    reSumSamples (samples.drop k) 2 = p.merge q := by
  obtain ⟨hk, rfl⟩ := List.getElem?_eq_some_iff.1 hp
  obtain ⟨hk', rfl⟩ := List.getElem?_eq_some_iff.1 hq
  rw [List.drop_eq_getElem_cons hk, List.drop_eq_getElem_cons hk', reSumSamples]
  simp only [List.take_succ_cons, List.take_zero, List.foldl_cons, List.foldl_nil,
    Sample.merge_self]

/-- The levels over a segment. -/
def halves (seg : List (Sample F channels)) : ℕ → List (Sample F channels)
  | 0 => seg
  | level + 1 => halve Sample.merge (halves seg level)

variable [NeZero channels]

/-- What is written to a level is the half of what is written to the finer one. -/
theorem overwriteLevels_eq (planar : Fin channels → List (Amplitude F)) (sampleRate : ℕ) (start : ℚ)
    (data : ℕ → List (Sample F channels)) (level : ℕ) :
    overwriteLevels planar sampleRate start data level =
      let seg := halves (summaries planar sampleRate (rate 0)
        (timeToSamples (sampleCount planar / sampleRate) (rate 0))) level
      (writeFrom default (timeToSamples start (rate level)) seg (data level),
        timeToSamples start (rate level), seg.length) := by
  induction level with
  | zero =>
    simp [overwriteLevels, overwriteSamplesFromBuffer, halves, summaries]
  | succ level ih =>
    rw [overwriteLevels, ih]
    simp only [halves]
    generalize halves (summaries planar sampleRate (rate 0)
        (timeToSamples (sampleCount planar / sampleRate) (rate 0))) level = seg
    have hpos : (0 : ℚ) < rate level := rate_pos level
    have hhalf : rate level = 2 * rate (level + 1) := by
      rw [rate, rate, pow_succ]
      field_simp
    have hchunk : ⌊rate level / rate (level + 1)⌋₊ = 2 := by
      rw [hhalf, mul_div_cancel_right₀ _ (rate_pos (level + 1)).ne']
      exact Nat.floor_ofNat 2
    have hlength : timeToSamples ((seg.length : ℚ) / rate level) (rate (level + 1)) =
        seg.length / 2 := by
      rw [timeToSamples_succ, timeToSamples, div_mul_cancel₀ _ hpos.ne', Nat.floor_natCast]
    have hseg : ((List.range (seg.length / 2)).map fun i =>
        reSumSamples ((writeFrom default (timeToSamples start (rate level)) seg (data level)).drop
          (timeToSamples start (rate level) + i * 2)) 2) = halve Sample.merge seg := by
      refine List.ext_getElem? fun i => ?_
      rw [getElem?_halve, List.getElem?_map]
      by_cases hi : i < seg.length / 2
      · have hcell (k : ℕ) (hk : k < seg.length) :
            (writeFrom default (timeToSamples start (rate level)) seg (data level))[
              timeToSamples start (rate level) + k]? = seg[k]? := getElem?_writeFrom hk
        rw [List.getElem?_range hi, Option.map_some, List.getElem?_eq_getElem
          (show 2 * i < seg.length by omega), List.getElem?_eq_getElem
          (show 2 * i + 1 < seg.length by omega), Option.bind_some, Option.map_some, Nat.mul_comm i]
        refine congrArg some (reSumSamples_two ?_ ?_)
        · rw [hcell _ (by omega), List.getElem?_eq_getElem (by omega)]
        · rw [Nat.add_assoc, hcell _ (by omega), List.getElem?_eq_getElem (by omega)]
      · rw [List.getElem?_eq_none (by rw [List.length_range]; omega),
          List.getElem?_eq_none (show seg.length ≤ 2 * i + 1 by omega)]
        cases seg[2 * i]? <;> rfl
    rw [overwriteSamplesFromMipmap]
    simp only [hchunk, hlength, hseg, length_halve]

end Levels

/-! ### The invariant -/

variable {start : ℚ}

section Kept

variable {F : Type*} {channels : ℕ}

/-- Where a point of a level starts. -/
def AudioVisualWaveform.pointStart (w : AudioVisualWaveform F channels) (level index : ℕ) : ℚ :=
  w.origin + index / rate level

/-- The number of points of the finest level. -/
def AudioVisualWaveform.stored (w : AudioVisualWaveform F channels) : ℕ :=
  (w.mipmappedData 0).length

theorem pointStart_lt (w : AudioVisualWaveform F channels) (level index : ℕ) :
    w.pointStart level index < w.pointStart level (index + 1) := by
  rw [AudioVisualWaveform.pointStart, AudioVisualWaveform.pointStart]
  have hpos := rate_pos level
  push_cast
  gcongr
  linarith

variable [LinearOrder F]

/-- Every level is the half of the finer one. The spans that are written start at boundaries, and
each of their points is stored and written. Without a virtual start there are none. -/
structure Kept (w : AudioVisualWaveform F channels) (h : Record) : Prop where
  halves : ∀ level, level + 1 < levelCount →
    w.mipmappedData (level + 1) = halve Sample.merge (w.mipmappedData level)
  cells : ∀ level, (h.cells level).length = (w.mipmappedData level).length
  placed : h.spans ≠ [] → w.virtualStart ≠ none
  start : ∀ p ∈ h.spans, p.1 < p.2 → w.origin ≤ p.1 ∧ Boundary (p.1 - w.origin)
  stop : ∀ p ∈ h.spans, p.1 < p.2 → points (p.2 - w.origin) ≤ w.stored
  written : ∀ p ∈ h.spans, ∀ level < levelCount, ∀ index, p.1 ≤ w.pointStart level index →
    w.pointStart level (index + 1) ≤ p.2 → (h.cells level)[index]? = some true

theorem kept_new : Kept (AudioVisualWaveform.new F channels) Record.new where
  halves _ _ := by simp [AudioVisualWaveform.new, halve]
  cells _ := rfl
  placed h := absurd rfl h
  start _ hp := absurd hp List.not_mem_nil
  stop _ hp := absurd hp List.not_mem_nil
  written _ hp := absurd hp List.not_mem_nil

variable {w : AudioVisualWaveform F channels} {h : Record} {length : ℚ}

theorem Kept.length_level (hkept : Kept w h) {level : ℕ} (hlevel : level < levelCount) :
    (w.mipmappedData level).length = w.stored / 2 ^ level := by
  induction level with
  | zero => rw [pow_zero, Nat.div_one, AudioVisualWaveform.stored]
  | succ level ih =>
    rw [hkept.halves level hlevel, length_halve, ih (Nat.lt_of_succ_lt hlevel),
      Nat.div_div_eq_div_mul, pow_succ]

/-! ### Trimming -/

/-- The virtual start of a waveform on which nothing is written is of no account. -/
theorem Kept.reset (hkept : Kept w h) (hempty : ∀ p ∈ h.spans, p.2 ≤ p.1) {start : Option ℚ}
    (hplaced : w.virtualStart ≠ none → start ≠ none) (newLength : Option ℚ) :
    Kept { w with virtualStart := start, length := newLength } h where
  halves := hkept.halves
  cells := hkept.cells
  placed hne := hplaced (hkept.placed hne)
  start p hp hlt := absurd hlt (not_lt.2 (hempty p hp))
  stop p hp hlt := absurd hlt (not_lt.2 (hempty p hp))
  written p hp _ _ _ hfirst hlast :=
    absurd (hfirst.trans_lt ((pointStart_lt _ _ _).trans_le hlast)) (not_lt.2 (hempty p hp))

omit [LinearOrder F] in
theorem trimLevels_of_neg {α : Type*} (hlength : length < 0) (data : ℕ → List α) :
    trimLevels length data = data := by
  funext level
  rw [trimLevels, if_pos hlength]

/-- A negative length moves a waveform on which nothing is written. -/
theorem Kept.moveBack (hkept : Kept w h) (hlength : length < 0)
    (hempty : ∀ p ∈ h.spans, p.2 ≤ p.1) : Kept (w.trimIn length) (h.trimIn w length) := by
  rw [AudioVisualWaveform.trimIn, if_neg hlength.ne, Record.trimIn, if_pos hlength, if_pos hlength,
    trimLevels_of_neg hlength, trimLevels_of_neg hlength]
  exact hkept.reset hempty (by simp) w.length

section Trim

variable (hlength : 0 < length)

include hlength

omit [LinearOrder F] in
theorem mipmappedData_trimIn (level : ℕ) : (w.trimIn length).mipmappedData level =
    (w.mipmappedData level).drop (timeToSamples length (rate level)) := by
  rw [AudioVisualWaveform.trimIn, if_neg hlength.ne']
  exact if_neg (not_lt.2 hlength.le)

omit [LinearOrder F] in
theorem cells_trimIn (level : ℕ) : (h.trimIn w length).cells level =
    (h.cells level).drop (timeToSamples length (rate level)) :=
  if_neg (not_lt.2 hlength.le)

omit [LinearOrder F] in
theorem spans_trimIn : (h.trimIn w length).spans =
    h.spans.map fun p => (Max.max p.1 (w.origin + length), p.2) :=
  if_neg (not_lt.2 hlength.le)

omit [LinearOrder F] in
theorem virtualStart_trimIn :
    (w.trimIn length).virtualStart = w.virtualStart.map (· + length) := by
  rw [AudioVisualWaveform.trimIn, if_neg hlength.ne']

variable (hkept : Kept w h)

include hkept

theorem Kept.placed_trimIn (hne : (h.trimIn w length).spans ≠ []) :
    (w.trimIn length).virtualStart ≠ none := by
  rw [spans_trimIn hlength] at hne
  rw [virtualStart_trimIn hlength, ne_eq, Option.map_eq_none_iff]
  exact hkept.placed fun hnil => hne (by rw [hnil, List.map_nil])

/-- A waveform on which something is written starts later when it was trimmed. -/
theorem Kept.origin_trimIn {p : ℚ × ℚ} (hp : p ∈ h.spans) :
    (w.trimIn length).origin = w.origin + length := by
  obtain ⟨start, hstart⟩ := Option.ne_none_iff_exists'.1 (hkept.placed (List.ne_nil_of_mem hp))
  rw [AudioVisualWaveform.origin, virtualStart_trimIn hlength, AudioVisualWaveform.origin, hstart,
    Option.map_some, Option.getD_some, Option.getD_some]

/-- The waveform is trimmed at a boundary. -/
theorem Kept.trim (hboundary : Boundary length) : Kept (w.trimIn length) (h.trimIn w length) where
  halves level hlevel := by
    have hdvd := two_dvd_div hboundary.dvd hlevel
    rw [← timeToSamples_eq_div] at hdvd
    rw [mipmappedData_trimIn hlength, mipmappedData_trimIn hlength, halve_drop hdvd,
      timeToSamples_succ, hkept.halves level hlevel]
  cells level := by
    rw [mipmappedData_trimIn hlength, cells_trimIn hlength, List.length_drop, List.length_drop,
      hkept.cells level]
  placed := hkept.placed_trimIn hlength
  start p' hp' hlt := by
    rw [spans_trimIn hlength] at hp'
    obtain ⟨p, hp, rfl⟩ := List.mem_map.1 hp'
    obtain ⟨-, hb⟩ := hkept.start p hp ((le_max_left ..).trans_lt hlt)
    rw [hkept.origin_trimIn hlength hp]
    refine ⟨le_max_right .., ?_⟩
    rcases le_total p.1 (w.origin + length) with hle | hle
    · rw [max_eq_right hle, sub_self]
      exact Boundary.zero
    · rw [max_eq_left hle, ← sub_sub]
      exact hb.sub hboundary
  stop p' hp' hlt := by
    rw [spans_trimIn hlength] at hp'
    obtain ⟨p, hp, rfl⟩ := List.mem_map.1 hp'
    have hstop := hkept.stop p hp ((le_max_left ..).trans_lt hlt)
    have hpoints := toNat_points length
    have hzero : 0 ≤ points length := Int.floor_nonneg.2 (by linarith)
    rw [hkept.origin_trimIn hlength hp, ← sub_sub, hboundary.points_sub]
    rw [AudioVisualWaveform.stored] at hstop ⊢
    rw [mipmappedData_trimIn hlength, List.length_drop]
    dsimp only
    omega
  written p' hp' level hlevel index hstart hstop := by
    rw [spans_trimIn hlength] at hp'
    obtain ⟨p, hp, rfl⟩ := List.mem_map.1 hp'
    have hcast := hboundary.cast_timeToSamples hlength.le hlevel
    have hrate := rate_pos level
    have hshift (k : ℕ) : (w.trimIn length).pointStart level k =
        w.pointStart level (timeToSamples length (rate level) + k) := by
      rw [AudioVisualWaveform.pointStart, AudioVisualWaveform.pointStart,
        hkept.origin_trimIn hlength hp, Nat.cast_add, hcast]
      field_simp
      ring
    rw [hshift] at hstart hstop
    rw [cells_trimIn hlength, List.getElem?_drop]
    exact hkept.written p hp level hlevel _ ((le_max_left ..).trans hstart) hstop

theorem Kept.trim_all (hall : (w.stored : ℤ) ≤ points length) :
    Kept (w.trimIn length) (h.trimIn w length) := by
  have hpoints := toNat_points length
  have hempty {level : ℕ} (hlevel : level < levelCount) :
      (w.trimIn length).mipmappedData level = [] := by
    rw [mipmappedData_trimIn hlength, List.drop_eq_nil_iff, hkept.length_level hlevel,
      timeToSamples_eq_div]
    exact Nat.div_le_div_right (by omega)
  -- what is left of a span is shorter than a point
  have hshort {p : ℚ × ℚ} (hp : p ∈ h.spans) (hlt : p.1 < p.2) :
      p.2 - w.origin - length < 1 / 1024 := by
    have hstop := (hkept.stop p hp hlt).trans hall
    have hfloor : (points length : ℚ) ≤ length * 1024 := Int.floor_le _
    have hupper : (p.2 - w.origin) * 1024 < points length + 1 := Int.floor_le_iff.1 hstop
    linarith
  exact
    { halves := fun level hlevel => by
        rw [hempty hlevel, hempty (Nat.lt_of_succ_lt hlevel), halve_eq_nil (by simp)]
      cells := fun level => by
        rw [mipmappedData_trimIn hlength, cells_trimIn hlength, List.length_drop,
          List.length_drop, hkept.cells level]
      placed := hkept.placed_trimIn hlength
      start := fun p' hp' hlt => by
        rw [spans_trimIn hlength] at hp'
        obtain ⟨p, hp, rfl⟩ := List.mem_map.1 hp'
        have hlt' := (le_max_left ..).trans_lt hlt
        obtain ⟨-, m, hm⟩ := hkept.start p hp hlt'
        have hstop := (hkept.stop p hp hlt').trans hall
        have hbefore := (points_mono (sub_le_sub_right hlt'.le w.origin)).trans hstop
        have hle : p.1 ≤ w.origin + length := by
          rw [hm, points_eight_mul] at hbefore
          have hfloor : (points length : ℚ) ≤ length * 1024 := Int.floor_le _
          have hbefore : (8192 * m : ℚ) ≤ points length := by exact_mod_cast hbefore
          linarith
        rw [hkept.origin_trimIn hlength hp, max_eq_right hle, sub_self]
        exact ⟨le_rfl, Boundary.zero⟩
      stop := fun p' hp' hlt => by
        rw [spans_trimIn hlength] at hp'
        obtain ⟨p, hp, rfl⟩ := List.mem_map.1 hp'
        have hrest := hshort hp ((le_max_left ..).trans_lt hlt)
        have hzero : points (p.2 - (w.origin + length)) ≤ 0 :=
          Int.floor_le_iff.2 (by push_cast; linarith)
        rw [hkept.origin_trimIn hlength hp]
        exact hzero.trans (Int.natCast_nonneg _)
      written := fun p' hp' level hlevel index hstart hstop => by
        rw [spans_trimIn hlength] at hp'
        obtain ⟨p, hp, rfl⟩ := List.mem_map.1 hp'
        have hlt := (le_max_left ..).trans_lt
          (hstart.trans_lt ((pointStart_lt _ level index).trans_le hstop))
        have hrest := hshort hp hlt
        have hpoint : 1 / 1024 ≤ ((index + 1 : ℕ) : ℚ) / rate level :=
          div_le_div₀ (Nat.cast_nonneg _) (by exact_mod_cast Nat.le_add_left 1 index)
            (rate_pos level) (rate_le level)
        rw [AudioVisualWaveform.pointStart, hkept.origin_trimIn hlength hp] at hstop
        linarith }

end Trim

/-! ### Resizing -/

variable [Zero F]

theorem Kept.resize (hkept : Kept w h)
    (hlegal : w.length = some length ∨ points length ≤ w.stored ∨ 8192 ∣ w.stored) :
    Kept (w.resize length) (h.resize w length) := by
  by_cases hsame : w.length = some length
  · rwa [AudioVisualWaveform.resize, if_pos hsame, Record.resize, if_pos hsame]
  have hpoints := toNat_points length
  rw [AudioVisualWaveform.resize, if_neg hsame, Record.resize, if_neg hsame]
  exact
    { halves := fun level hlevel => by
        have hpair : timeToSamples length (rate level) ≤ (w.mipmappedData level).length ∨
            2 ∣ (w.mipmappedData level).length := by
          rw [hkept.length_level (Nat.lt_of_succ_lt hlevel), timeToSamples_eq_div]
          rcases hlegal.resolve_left hsame with hle | hdvd
          · exact .inl (Nat.div_le_div_right (by omega))
          · exact .inr (two_dvd_div hdvd hlevel)
        simp only
        rw [halve_resizeTo (Sample.merge_self _) hpair, timeToSamples_succ,
          hkept.halves level hlevel]
      cells := fun level => by simp only [length_resizeTo]
      placed := fun hne => hkept.placed fun hnil => hne (by simp only [hnil, List.map_nil])
      start := fun p' hp' hlt => by
        obtain ⟨p, hp, rfl⟩ := List.mem_map.1 hp'
        exact hkept.start p hp (hlt.trans_le (min_le_left ..))
      stop := fun p' hp' hlt => by
        obtain ⟨p, hp, rfl⟩ := List.mem_map.1 hp'
        have hle := points_mono
          (sub_le_sub_right (min_le_right p.2 (w.origin + length)) w.origin)
        rw [add_sub_cancel_left] at hle
        change points (Min.min p.2 (w.origin + length) - w.origin) ≤ _
        simp only [AudioVisualWaveform.stored, length_resizeTo]
        omega
      written := fun p' hp' level hlevel index hstart hstop => by
        obtain ⟨p, hp, rfl⟩ := List.mem_map.1 hp'
        have hcell := hkept.written p hp level hlevel index hstart
          (hstop.trans (min_le_left ..))
        refine getElem?_resizeTo_of_some hcell (Nat.le_floor ?_)
        have hle : w.origin + ((index + 1 : ℕ) : ℚ) / rate level ≤ w.origin + length :=
          hstop.trans (min_le_right ..)
        exact (div_le_iff₀ (rate_pos level)).1 (le_of_add_le_add_left hle) }

/-! ### Writing -/

/-- A segment is written to all levels, from a boundary on. It ends at a boundary or nothing is
stored behind it, and it starts within what is stored or that ends at a boundary. -/
theorem Kept.write (hkept : Kept w h) (hplaced : w.virtualStart ≠ none)
    {seg : ℕ → List (Sample F channels)}
    (hseg : ∀ level, seg (level + 1) = halve Sample.merge (seg level))
    (hlength : (seg 0).length = timeToSamples length (rate 0)) (hstart : Boundary start)
    (hnonneg : 0 ≤ start)
    (hend : 8192 ∣ timeToSamples length (rate 0) ∨
      w.stored ≤ timeToSamples start (rate 0) + timeToSamples length (rate 0))
    (hgap : timeToSamples start (rate 0) ≤ w.stored ∨ 8192 ∣ w.stored) (newLength : Option ℚ) :
    Kept
      { w with
        length := newLength
        mipmappedData := fun level =>
          writeFrom default (timeToSamples start (rate level)) (seg level) (w.mipmappedData level) }
      (h.overwrite (w.origin + start) length fun level =>
        (timeToSamples start (rate level), (seg level).length)) := by
  have horigin (data : ℕ → List (Sample F channels)) :
      (AudioVisualWaveform.mk w.virtualStart newLength data).origin = w.origin := rfl
  have hlevels (level : ℕ) : (seg level).length = timeToSamples length (rate level) := by
    induction level with
    | zero => exact hlength
    | succ level ih => rw [hseg, length_halve, ih, timeToSamples_succ]
  have hpoints : 0 < length → (timeToSamples start (rate 0) + timeToSamples length (rate 0) : ℤ) =
      points (start + length) := fun hpos => by
    have hzero : 0 ≤ points start := Int.floor_nonneg.2 (by linarith)
    have hzero' : 0 ≤ points length := Int.floor_nonneg.2 (by linarith)
    rw [← toNat_points, ← toNat_points, add_comm start, hstart.points_add]
    omega
  exact
    { halves := fun level hlevel => by
        have hlt := Nat.lt_of_succ_lt hlevel
        have hfrom := two_dvd_div hstart.dvd hlevel
        have hto : 2 ∣ (seg level).length ∨ (w.mipmappedData level).length ≤
            timeToSamples start (rate level) + (seg level).length := by
          rw [hlevels, hkept.length_level hlt, timeToSamples_eq_div start level,
            timeToSamples_eq_div length level]
          refine hend.imp (fun hdvd => two_dvd_div hdvd hlevel) fun hle => ?_
          have hpos := Nat.two_pow_pos level
          obtain ⟨k, hk⟩ := (pow_dvd_pow 2 (Nat.le_of_lt_succ hlt)).trans hstart.dvd
          rw [hk] at hle ⊢
          rw [Nat.mul_div_cancel_left _ hpos, ← Nat.mul_add_div hpos]
          exact Nat.div_le_div_right hle
        have hpair : timeToSamples start (rate level) ≤ (w.mipmappedData level).length ∨
            2 ∣ (w.mipmappedData level).length := by
          rw [hkept.length_level hlt, timeToSamples_eq_div]
          exact hgap.imp Nat.div_le_div_right fun hdvd => two_dvd_div hdvd hlevel
        rw [← timeToSamples_eq_div] at hfrom
        simp only
        rw [halve_writeFrom (Sample.merge_self _) hfrom hto hpair, timeToSamples_succ, hseg,
          hkept.halves level hlevel]
      cells := fun level => by
        simp only [Record.overwrite, length_writeFrom, List.length_replicate, hkept.cells level]
      placed := fun _ => hplaced
      start := fun p hp hlt => by
        rcases List.mem_cons.1 hp with rfl | hp
        · rw [horigin, add_sub_cancel_left]
          exact ⟨by linarith, hstart⟩
        · exact hkept.start p hp hlt
      stop := fun p hp hlt => by
        simp only [AudioVisualWaveform.stored, length_writeFrom, hlevels]
        rcases List.mem_cons.1 hp with rfl | hp
        · have hpos : 0 < length := by linarith
          rw [horigin, add_assoc, add_sub_cancel_left, ← hpoints hpos]
          omega
        · have hstop := hkept.stop p hp hlt
          rw [AudioVisualWaveform.stored] at hstop
          rw [horigin]
          omega
      written := fun p hp level hlevel index hfirst hlast => by
        have hrange {k : ℕ} (hk : k < timeToSamples length (rate level)) :
            (writeFrom false (timeToSamples start (rate level))
              (List.replicate (seg level).length true) (h.cells level))[
                timeToSamples start (rate level) + k]? = some true := by
          rw [getElem?_writeFrom (by rwa [List.length_replicate, hlevels]),
            List.getElem?_replicate_of_lt (by rwa [hlevels])]
        rcases List.mem_cons.1 hp with rfl | hp
        · have hcast := hstart.cast_timeToSamples hnonneg hlevel
          have hrate := rate_pos level
          simp only [AudioVisualWaveform.pointStart, horigin] at hfirst hlast
          have hle : timeToSamples start (rate level) ≤ index := by
            have hindex := (le_div_iff₀ hrate).1 (le_of_add_le_add_left hfirst)
            rw [← hcast] at hindex
            exact_mod_cast hindex
          obtain ⟨k, rfl⟩ := Nat.exists_eq_add_of_le hle
          refine hrange (Nat.le_floor ?_)
          rw [add_assoc w.origin] at hlast
          have hindex := (div_le_iff₀ hrate).1 (le_of_add_le_add_left hlast)
          push_cast at hindex ⊢
          linarith
        · have hcell := hkept.written p hp level hlevel index hfirst hlast
          by_cases hin : timeToSamples start (rate level) ≤ index ∧
              index < timeToSamples start (rate level) + timeToSamples length (rate level)
          · obtain ⟨k, rfl⟩ := Nat.exists_eq_add_of_le hin.1
            exact hrange (by omega)
          · refine getElem?_writeFrom_of_some hcell ?_
            simp only [List.length_replicate, hlevels]
            omega }

/-! ### Legal operations -/

/-- A write at `start` moves the virtual start there: of a waveform of no length, or back. -/
def AudioVisualWaveform.Moves (w : AudioVisualWaveform F channels) (start : ℚ) : Prop :=
  w.IsNull ∨ ∃ s ∈ w.virtualStart, start < s

instance (start : ℚ) : Decidable (w.Moves start) := inferInstanceAs (Decidable (_ ∨ _))

/-- Where a write starts, from the virtual start that it finds. -/
def AudioVisualWaveform.offset (w : AudioVisualWaveform F channels) (start : ℚ) : ℚ :=
  if w.Moves start then 0 else start - w.origin

/-- A write cuts and moves no point of any level. -/
structure LegalWrite (w : AudioVisualWaveform F channels) (h : Record) (start length : ℚ) :
    Prop where
  /-- The waveform has its place in time, or gets it. -/
  placed : w.Moves start ∨ w.virtualStart ≠ none
  /-- What is moved has nothing written, or was there. -/
  fresh : w.Moves start → w.virtualStart = some start ∨ ∀ p ∈ h.spans, p.2 ≤ p.1
  /-- The write starts at a boundary. -/
  boundary : Boundary (w.offset start)
  /-- It ends at one too, or nothing is stored behind its end. -/
  stop : Boundary (Max.max length 0) ∨
    (w.stored : ℤ) ≤ points (w.offset start + Max.max length 0)
  /-- It starts within what is stored, or what is stored ends at a boundary. -/
  gap : points (w.offset start) ≤ w.stored ∨ 8192 ∣ w.stored

/-- An operation moves and cuts no point of any level. -/
def Legal [NeZero channels] (s : AudioVisualWaveform F channels × Record) :
    WaveformOp F channels → Prop
  | .overwriteSamples planar sampleRate start =>
    0 < sampleRate ∧ LegalWrite s.1 s.2 start (sampleCount planar / sampleRate)
  | .overwriteSilence start length => LegalWrite s.1 s.2 start length
  | .trimIn length =>
    if length < 0 then ∀ p ∈ s.2.spans, p.2 ≤ p.1
    else Boundary length ∨ (s.1.stored : ℤ) ≤ points length
  | .resize length => s.1.length = some length ∨ points length ≤ s.1.stored ∨ 8192 ∣ s.1.stored

/-- The waveform as the write finds it. -/
structure Ready (w : AudioVisualWaveform F channels) (h : Record) (start length : ℚ) : Prop where
  kept : Kept w h
  placed : w.virtualStart ≠ none
  nonneg : 0 ≤ w.fromStart start
  boundary : Boundary (w.fromStart start)
  stop : 8192 ∣ timeToSamples length (rate 0) ∨ w.stored ≤
    timeToSamples (w.fromStart start) (rate 0) + timeToSamples length (rate 0)
  gap : timeToSamples (w.fromStart start) (rate 0) ≤ w.stored ∨ 8192 ∣ w.stored

omit [LinearOrder F] [Zero F] in
theorem fromStart_of_placed (hplaced : w.virtualStart ≠ none) (time : ℚ) :
    w.fromStart time = time - w.origin := by
  obtain ⟨s, hs⟩ := Option.ne_none_iff_exists'.1 hplaced
  rw [AudioVisualWaveform.fromStart, AudioVisualWaveform.origin, hs]
  rfl

omit [LinearOrder F] [Zero F] in
theorem validateVirtualStart_eq (start : ℚ) : w.validateVirtualStart start =
    { w with virtualStart := if w.Moves start then some start else w.virtualStart } := by
  rw [AudioVisualWaveform.validateVirtualStart]
  by_cases hnull : w.IsNull
  · rw [if_pos hnull, if_pos (.inl hnull)]
  rw [if_neg hnull]
  rcases hstart : w.virtualStart with _ | s
  · have hmoves : ¬ w.Moves start := by simp [AudioVisualWaveform.Moves, hnull, hstart]
    show w = _
    rw [if_neg hmoves, ← hstart]
  have hmoves : w.Moves start ↔ start < s := by simp [AudioVisualWaveform.Moves, hnull, hstart]
  simp only [hmoves]
  split_ifs with hlt
  · have hneg : start - s < 0 := sub_neg.2 hlt
    rw [AudioVisualWaveform.trimIn, if_neg hneg.ne, if_pos hneg, trimLevels_of_neg hneg, hstart,
      Option.map_some, add_sub_cancel]
  · rw [← hstart]

omit [Zero F] in
theorem Kept.validate (hkept : Kept w h) (hlegal : LegalWrite w h start length) :
    Ready (w.validateVirtualStart start) h start length := by
  have hlength := timeToSamples_max_zero length 0
  have hpoints := toNat_points (Max.max length 0)
  have hfull : Boundary (Max.max length 0) → 8192 ∣ timeToSamples length (rate 0) := fun hb =>
    hlength ▸ hb.dvd
  have hkept' : Kept (w.validateVirtualStart start) h := by
    rw [validateVirtualStart_eq]
    split_ifs with hmoves
    · rcases hlegal.fresh hmoves with hsame | hempty
      · rw [← hsame]
        exact hkept
      · exact hkept.reset hempty (fun _ => by simp) w.length
    · exact hkept
  have hplaced : (w.validateVirtualStart start).virtualStart ≠ none := by
    rw [validateVirtualStart_eq]
    split_ifs with hmoves
    · exact Option.some_ne_none start
    · exact hlegal.placed.resolve_left hmoves
  have hstored : (w.validateVirtualStart start).stored = w.stored := by
    rw [validateVirtualStart_eq]
    rfl
  have hoffset : (w.validateVirtualStart start).fromStart start = w.offset start := by
    rw [fromStart_of_placed hplaced, validateVirtualStart_eq, AudioVisualWaveform.offset]
    split_ifs
    · exact sub_self start
    · rfl
  have hnonneg : 0 ≤ w.offset start := by
    rw [AudioVisualWaveform.offset]
    split_ifs with hmoves
    · exact le_rfl
    · obtain ⟨s, hs⟩ := Option.ne_none_iff_exists'.1 (hlegal.placed.resolve_left hmoves)
      rw [AudioVisualWaveform.origin, hs, Option.getD_some, sub_nonneg, ← not_lt]
      exact fun hlt => hmoves (.inr ⟨s, hs, hlt⟩)
  have hstart := toNat_points (w.offset start)
  refine ⟨hkept', hplaced, hoffset ▸ hnonneg, hoffset ▸ hlegal.boundary, ?_, ?_⟩
  · rw [hoffset, hstored]
    refine hlegal.stop.imp hfull fun hle => ?_
    rw [add_comm, hlegal.boundary.points_add] at hle
    omega
  · rw [hoffset, hstored]
    refine hlegal.gap.imp_left fun hle => ?_
    omega

/-! ### A legal operation -/

theorem halves_replicate (n level : ℕ) :
    halves (List.replicate n (default : Sample F channels)) level =
      List.replicate (n / 2 ^ level) default := by
  induction level with
  | zero => rw [halves, pow_zero, Nat.div_one]
  | succ level ih =>
    rw [halves, ih, halve_replicate (Sample.merge_self _), Nat.div_div_eq_div_mul, pow_succ]

theorem Ready.write (hready : Ready w h start length) {seg : List (Sample F channels)}
    (hlength : seg.length = timeToSamples length (rate 0)) (newLength : Option ℚ) :
    Kept
      { w with
        length := newLength
        mipmappedData := fun level =>
          writeFrom default (timeToSamples (w.fromStart start) (rate level)) (halves seg level)
            (w.mipmappedData level) }
      (h.overwrite start length fun level =>
        (timeToSamples (w.fromStart start) (rate level), (halves seg level).length)) := by
  have hseg (level : ℕ) : halves seg (level + 1) = halve Sample.merge (halves seg level) := rfl
  have hwrite := hready.kept.write hready.placed hseg hlength hready.boundary hready.nonneg
    hready.stop hready.gap newLength
  have hstart : w.origin + w.fromStart start = start := by
    rw [fromStart_of_placed hready.placed, add_sub_cancel]
  rwa [hstart] at hwrite

/-- A legal operation keeps the levels consistent. -/
theorem Kept.act [NeZero channels] (hkept : Kept w h) {op : WaveformOp F channels}
    (hop : Legal (w, h) op) : Kept (w.act op) (Record.update (w, h) op) := by
  cases op with
  | overwriteSamples planar sampleRate start =>
    have hready := hkept.validate hop.2
    have hsum : (summaries planar sampleRate (rate 0)
        (timeToSamples (sampleCount planar / sampleRate) (rate 0))).length =
          timeToSamples (sampleCount planar / sampleRate) (rate 0) := by
      rw [summaries, List.length_map, List.length_range]
    simp only [AudioVisualWaveform.act, AudioVisualWaveform.overwriteSamples, Record.update,
      overwriteLevels_eq]
    exact hready.write hsum _
  | overwriteSilence start length =>
    have hready := hkept.validate hop
    have hsilence : (List.replicate (timeToSamples length (rate 0))
        (default : Sample F channels)).length = _ := List.length_replicate
    have hwrite := hready.write hsilence
      (some ((w.validateVirtualStart start).lengthTo (start + length)))
    simp only [halves_replicate, ← timeToSamples_eq_div, List.length_replicate] at hwrite
    exact hwrite
  | trimIn length =>
    show Kept (w.trimIn length) (if length = 0 then h else h.trimIn w length)
    rw [Legal] at hop
    rcases lt_trichotomy length 0 with hneg | rfl | hpos
    · rw [if_pos hneg] at hop
      rw [if_neg hneg.ne]
      exact hkept.moveBack hneg hop
    · rwa [if_pos rfl, AudioVisualWaveform.trimIn, if_pos rfl]
    · rw [if_neg (not_lt.2 hpos.le)] at hop
      rw [if_neg hpos.ne']
      exact hop.elim (hkept.trim hpos) (hkept.trim_all hpos)
  | resize length => exact hkept.resize hop

end Kept

end Oak.Audio
