import Oak.Audio.WaveformLevels

/-!
# Runs on a waveform

What holds of the levels of a waveform after every run of operations that are legal, and what does
not after two short writes.

* `Consistent w`: each stored point has the extremes of the two finer points that it covers.
* `Covered w h`: each point inside the spans that have been written is stored and was written.
* `InPieces w h`: a buffer that is written in two pieces leaves the levels as it does at once.

## Main results

* `levels_run`: all three hold after every run of legal operations.
* `short_writes`: after two writes of one sample, a point inside what was written is missing.
-/

namespace Oak.Audio

open Oak.Lib
open AudioVisualWaveform

variable {F : Type*} {channels : ℕ}

/-- Each stored point has the extremes of the two points of the finer level that it covers. -/
def Consistent [LinearOrder F] (w : AudioVisualWaveform F channels) : Prop :=
  ∀ level, level + 1 < levelCount → ∀ index p, (w.mipmappedData (level + 1))[index]? = some p →
    ∃ a b, (w.mipmappedData level)[2 * index]? = some a ∧
      (w.mipmappedData level)[2 * index + 1]? = some b ∧ p = a.merge b

/-- Each point that lies inside the spans that have been written is stored and was written. -/
def Covered (w : AudioVisualWaveform F channels) (h : Record) : Prop :=
  ∀ level < levelCount, (h.cells level).length = (w.mipmappedData level).length ∧
    ∀ index, (∀ t, w.pointStart level index ≤ t → t < w.pointStart level (index + 1) →
      ∃ p ∈ h.spans, p.1 ≤ t ∧ t < p.2) → (h.cells level)[index]? = some true

/-- Intervals that cover `[lo, hi)`, none of which starts inside of it, contain one that covers it
alone. -/
theorem exists_span_of_covered {spans : List (ℚ × ℚ)} {lo hi : ℚ} (hlt : lo < hi)
    (hstart : ∀ p ∈ spans, p.1 < p.2 → p.1 < hi → p.1 ≤ lo)
    (hcover : ∀ t, lo ≤ t → t < hi → ∃ p ∈ spans, p.1 ≤ t ∧ t < p.2) :
    ∃ p ∈ spans, p.1 ≤ lo ∧ hi ≤ p.2 := by
  induction spans generalizing lo with
  | nil =>
    obtain ⟨p, hp, -⟩ := hcover lo le_rfl hlt
    exact absurd hp List.not_mem_nil
  | cons q spans ih =>
    by_cases hq : q.1 ≤ lo ∧ hi ≤ q.2
    · exact ⟨q, List.mem_cons_self, hq⟩
    have htail : ∀ p ∈ spans, p.1 < p.2 → p.1 < hi → p.1 ≤ lo := fun p hp =>
      hstart p (List.mem_cons_of_mem q hp)
    by_cases hcut : q.1 < q.2 ∧ q.1 < hi
    · -- the first interval covers the beginning only
      have hle := hstart q List.mem_cons_self hcut.1 hcut.2
      have hend : q.2 < hi := not_le.1 fun hend => hq ⟨hle, hend⟩
      obtain ⟨p, hp, hfirst, hlast⟩ := ih (max_lt hlt hend)
        (fun p hp hne hin => (htail p hp hne hin).trans (le_max_left ..)) fun t ht hthi => by
          obtain ⟨p, hp, hpt, htp⟩ := hcover t ((le_max_left ..).trans ht) hthi
          rcases List.mem_cons.1 hp with rfl | hp
          · exact absurd htp (not_lt.2 ((le_max_right ..).trans ht))
          · exact ⟨p, hp, hpt, htp⟩
      have hin := hfirst.trans_lt (max_lt hlt hend)
      exact ⟨p, List.mem_cons_of_mem q hp, htail p hp (hin.trans_le hlast) hin, hlast⟩
    · obtain ⟨p, hp, hp'⟩ := ih hlt htail fun t ht hthi => by
        obtain ⟨p, hp, hpt, htp⟩ := hcover t ht hthi
        rcases List.mem_cons.1 hp with rfl | hp
        · exact absurd ⟨hpt.trans_lt htp, hpt.trans_lt hthi⟩ hcut
        · exact ⟨p, hp, hpt, htp⟩
      exact ⟨p, List.mem_cons_of_mem q hp, hp'⟩

section Properties

variable [LinearOrder F] {w : AudioVisualWaveform F channels} {h : Record}

theorem Kept.consistent (hkept : Kept w h) : Consistent w := by
  intro level hlevel index p hp
  rw [hkept.halves level hlevel, getElem?_halve] at hp
  obtain ⟨a, ha, hp⟩ := Option.bind_eq_some_iff.1 hp
  obtain ⟨b, hb, rfl⟩ := Option.map_eq_some_iff.1 hp
  exact ⟨a, b, ha, hb, rfl⟩

theorem Kept.covered (hkept : Kept w h) : Covered w h := by
  refine fun level hlevel => ⟨hkept.cells level, fun index hcover => ?_⟩
  have hrate := rate_pos level
  -- a span starts where a point starts
  have hstart : ∀ p ∈ h.spans, p.1 < p.2 → p.1 < w.pointStart level (index + 1) →
      p.1 ≤ w.pointStart level index := by
    intro p hp hne hin
    obtain ⟨hle, hb⟩ := hkept.start p hp hne
    have hcast := hb.cast_timeToSamples (sub_nonneg.2 hle) hlevel
    have hlt : p.1 - w.origin < ((index + 1 : ℕ) : ℚ) / rate level := by
      rw [pointStart] at hin
      linarith
    rw [lt_div_iff₀ hrate, ← hcast, Nat.cast_lt] at hlt
    have hindex : (timeToSamples (p.1 - w.origin) (rate level) : ℚ) ≤ index :=
      Nat.cast_le.2 (Nat.le_of_lt_succ hlt)
    rw [hcast, ← le_div_iff₀ hrate] at hindex
    rw [pointStart]
    linarith
  obtain ⟨p, hp, hfirst, hlast⟩ :=
    exists_span_of_covered (pointStart_lt w level index) hstart hcover
  exact hkept.written p hp level hlevel index hfirst hlast

end Properties

/-! ### Writing in pieces -/

section Pieces

variable [LinearOrder F] [Zero F] [NeZero channels]

/-- A buffer that is written in two pieces leaves the levels as it does at once. -/
def InPieces (w : AudioVisualWaveform F channels) (h : Record) : Prop :=
  ∀ (planar : Fin channels → List (Amplitude F)) (sampleRate : ℕ) (start : ℚ) (n : ℕ),
    0 < n → n ≤ sampleCount planar →
    let first : WaveformOp F channels :=
      .overwriteSamples (fun ch => (planar ch).take n) sampleRate start
    let second : WaveformOp F channels :=
      .overwriteSamples (fun ch => (planar ch).drop n) sampleRate (start + n / sampleRate)
    Legal (w, h) first → Legal (w.act first, Record.update (w, h) first) second →
    ∀ level < levelCount, ((w.act first).act second).mipmappedData level =
      (w.overwriteSamples planar sampleRate start).mipmappedData level

variable {planar : Fin channels → List (Amplitude F)} {sampleRate n : ℕ}

omit [Zero F] [NeZero channels] in
theorem length_halves (seg : List (Sample F channels)) (level : ℕ) :
    (halves seg level).length = seg.length / 2 ^ level := by
  induction level with
  | zero => rw [halves, pow_zero, Nat.div_one]
  | succ level ih => rw [halves, length_halve, ih, Nat.div_div_eq_div_mul, pow_succ]

omit [Zero F] [NeZero channels] in
theorem halves_append {seg : List (Sample F channels)} (hseg : 8192 ∣ seg.length)
    (seg' : List (Sample F channels)) {level : ℕ} (hlevel : level < levelCount) :
    halves (seg ++ seg') level = halves seg level ++ halves seg' level := by
  induction level with
  | zero => rfl
  | succ level ih =>
    have hpair : 2 ∣ (halves seg level).length := by
      rw [length_halves]
      exact two_dvd_div hseg hlevel
    rw [halves, ih (Nat.lt_of_succ_lt hlevel), halve_append hpair, halves, halves]

omit [NeZero channels] in
theorem sumSamples_take (planar : Fin channels → List (Amplitude F)) {a e n : ℕ} (he : e ≤ n) :
    sumSamples (fun ch => (planar ch).take n) a (e - a) = sumSamples planar a (e - a) := by
  funext ch
  have hpart : (((planar ch).take n).drop a).take (e - a) = ((planar ch).drop a).take (e - a) := by
    rw [List.drop_take, List.take_take, Nat.min_eq_left (Nat.sub_le_sub_right he a)]
  rw [sumSamples, sumSamples, sumChannel, sumChannel, hpart]

omit [NeZero channels] in
theorem sumSamples_drop (planar : Fin channels → List (Amplitude F)) (n a len : ℕ) :
    sumSamples (fun ch => (planar ch).drop n) a len = sumSamples planar (n + a) len := by
  funext ch
  rw [sumSamples, sumSamples, sumChannel, sumChannel, List.drop_drop]

/-- The points of the first piece and those of the second one. -/
theorem summaries_append {r : ℚ} {m : ℕ} (hn : n ≤ sampleCount planar)
    (hwhole : (m : ℚ) * (sampleRate / r) = n) (hr : 0 < r) (len : ℕ) :
    summaries planar sampleRate r (m + len) =
      summaries (fun ch => (planar ch).take n) sampleRate r m ++
        summaries (fun ch => (planar ch).drop n) sampleRate r len := by
  have hchunk : 0 ≤ (sampleRate : ℚ) / r := by positivity
  have hchannels : 0 < channels := Nat.pos_of_neZero channels
  have hfirst : sampleCount (fun ch => (planar ch).take n) = n := by
    rw [sampleCount, List.length_take]
    exact Nat.min_eq_left hn
  have hsecond : sampleCount (fun ch => (planar ch).drop n) = sampleCount planar - n := by
    rw [sampleCount, List.length_drop, sampleCount]
  rw [summaries, summaries, summaries, List.range_add, List.map_append, List.map_map, hfirst,
    hsecond]
  congr 1
  · refine List.map_congr_left fun i hi => ?_
    -- the point ends before the piece does
    have hend : (roundAway ((i * channels + channels : ℕ) * ((sampleRate : ℚ) / r))).toNat /
        channels ≤ n := by
      have hle : ((i * channels + channels : ℕ) : ℚ) * (sampleRate / r) ≤
          ((channels * n : ℕ) : ℚ) := by
        rw [Nat.cast_mul, ← hwhole, ← mul_assoc]
        refine mul_le_mul_of_nonneg_right ?_ hchunk
        have hi' : i + 1 ≤ m := List.mem_range.1 hi
        rw [← Nat.succ_mul, mul_comm (channels : ℚ)]
        exact_mod_cast Nat.mul_le_mul_right channels hi'
      have hround := roundAway_le hle
      rw [roundAway_natCast] at hround
      exact Nat.div_le_of_le_mul (by omega)
    simp only
    rw [Nat.min_eq_left hend, Nat.min_eq_left (hend.trans hn), sumSamples_take planar hend]
  · refine List.map_congr_left fun i _ => ?_
    -- the places are those in the second piece, `n` samples further
    have hshift (k : ℕ) : (roundAway (((m * channels + k : ℕ) : ℚ) * (sampleRate / r))).toNat /
        channels = n + (roundAway ((k : ℚ) * (sampleRate / r))).toNat / channels := by
      have heq : ((m * channels + k : ℕ) : ℚ) * (sampleRate / r) =
          k * (sampleRate / r) + ((channels * n : ℕ) : ℚ) := by
        rw [Nat.cast_mul channels, ← hwhole]
        push_cast
        ring
      have hnonneg : 0 ≤ (k : ℚ) * (sampleRate / r) := mul_nonneg (Nat.cast_nonneg k) hchunk
      have hround := roundAway_nonneg hnonneg
      rw [heq, roundAway_add_nat hnonneg, Int.toNat_add hround (Int.natCast_nonneg _),
        Int.toNat_natCast, Nat.add_mul_div_left _ _ hchannels, Nat.add_comm]
    simp only [Function.comp_apply]
    rw [Nat.add_mul, Nat.add_assoc, hshift, hshift, sumSamples_drop]
    congr 1
    omega

/-- From a boundary on, the points are counted as from zero on. -/
theorem Boundary.timeToSamples_add {x y : ℚ} (h : Boundary x) (hx : 0 ≤ x) (hy : 0 ≤ y)
    {level : ℕ} (hlevel : level < levelCount) :
    timeToSamples (x + y) (rate level) =
      timeToSamples x (rate level) + timeToSamples y (rate level) := by
  have hnonneg : 0 ≤ y * rate level := mul_nonneg hy (rate_pos level).le
  rw [timeToSamples, add_mul, ← h.cast_timeToSamples hx hlevel, add_comm,
    Nat.floor_add_natCast hnonneg, add_comm, timeToSamples, timeToSamples]

theorem Kept.inPieces {w : AudioVisualWaveform F channels} {h : Record} (hkept : Kept w h) :
    InPieces w h := by
  intro planar sampleRate start n hn hle first second hfirst hsecond level hlevel
  have hrate : (0 : ℚ) < sampleRate := Nat.cast_pos.2 hfirst.1
  have htake : sampleCount (fun ch => (planar ch).take n) = n := by
    rw [sampleCount, List.length_take]
    exact Nat.min_eq_left hle
  have hdrop : sampleCount (fun ch => (planar ch).drop n) = sampleCount planar - n := by
    rw [sampleCount, List.length_drop, sampleCount]
  have hpos : 0 < (n : ℚ) / sampleRate := div_pos (Nat.cast_pos.2 hn) hrate
  have hready := hkept.validate hfirst.2
  set v := w.validateVirtualStart start
  have hfrom := fromStart_of_placed hready.placed
  -- the second piece finds the virtual start that the first one leaves
  have hmoves : ¬ (w.act first).Moves (start + n / sampleRate) := by
    intro hmoves
    rcases hsecond.2.fresh hmoves with hstart | hempty
    · have horigin : v.origin = start + n / sampleRate := by
        show v.virtualStart.getD 0 = _
        rw [show v.virtualStart = some _ from hstart, Option.getD_some]
      have hle := hready.nonneg
      rw [hfrom, horigin] at hle
      linarith
    · have hspan := hempty _ List.mem_cons_self
      simp only [htake] at hspan
      linarith
  have hvalid : (w.act first).validateVirtualStart (start + n / sampleRate) = w.act first := by
    rw [validateVirtualStart_eq, if_neg hmoves]
  have hstart : (w.act first).fromStart (start + n / sampleRate) =
      v.fromStart start + n / sampleRate := by
    show v.fromStart _ = _
    rw [hfrom, hfrom]
    ring
  have hboundary : Boundary ((n : ℚ) / sampleRate) := by
    have hoffset := hsecond.2.boundary
    rw [offset, if_neg hmoves] at hoffset
    have hdiff := hoffset.sub hready.boundary
    have heq : start + n / sampleRate - (w.act first).origin - v.fromStart start =
        n / sampleRate := by
      show start + n / sampleRate - v.origin - v.fromStart start = n / sampleRate
      rw [hfrom]
      ring
    rwa [heq] at hdiff
  obtain ⟨k, hk⟩ := Nat.exists_eq_add_of_le hle
  have hrest : 0 ≤ (k : ℚ) / sampleRate := div_nonneg (Nat.cast_nonneg k) hrate.le
  -- the points of the buffer are those of the pieces
  have hwhole : (timeToSamples (n / sampleRate) (rate 0) : ℚ) * (sampleRate / rate 0) = n := by
    rw [hboundary.cast_timeToSamples hpos.le (by decide)]
    have hrate' := rate_pos 0
    field_simp
  have hcount : timeToSamples (((n + k : ℕ) : ℚ) / sampleRate) (rate 0) =
      timeToSamples (n / sampleRate) (rate 0) + timeToSamples (k / sampleRate) (rate 0) := by
    rw [Nat.cast_add, add_div, hboundary.timeToSamples_add hpos.le hrest (by decide)]
  have hsum := summaries_append hle hwhole (rate_pos 0) (timeToSamples (k / sampleRate) (rate 0))
  have hlen : (summaries (fun ch => (planar ch).take n) sampleRate (rate 0)
      (timeToSamples (n / sampleRate) (rate 0))).length =
        timeToSamples (n / sampleRate) (rate 0) := by
    rw [summaries, List.length_map, List.length_range]
  have hdvd : 8192 ∣ (summaries (fun ch => (planar ch).take n) sampleRate (rate 0)
      (timeToSamples (n / sampleRate) (rate 0))).length := by
    rw [hlen]
    exact hboundary.dvd
  show (overwriteLevels _ _ _ _ level).1 = (overwriteLevels _ _ _ _ level).1
  rw [hvalid, overwriteLevels_eq, overwriteLevels_eq, hstart]
  show writeFrom default (timeToSamples (v.fromStart start + n / sampleRate) (rate level)) _
      (overwriteLevels _ _ _ _ level).1 = _
  rw [overwriteLevels_eq, hdrop, htake, hk, Nat.add_sub_cancel_left, hcount, hsum,
    halves_append hdvd _ hlevel]
  dsimp only
  rw [writeFrom_append, length_halves, hlen, ← timeToSamples_eq_div,
    hready.boundary.timeToSamples_add hready.nonneg hpos.le hlevel]

end Pieces

/-! ### Runs -/

section Run

variable [LinearOrder F] [Zero F] [NeZero channels]

/-- A waveform with the record of what was written to it. -/
def step : AudioVisualWaveform F channels × Record → WaveformOp F channels →
    AudioVisualWaveform F channels × Record :=
  shadow act Record.update

theorem kept_run {ops : List (WaveformOp F channels)}
    (hops : Permitted step Legal (new F channels, Record.new) ops) :
    Kept (run step (new F channels, Record.new) ops).1
      (run step (new F channels, Record.new) ops).2 := by
  have hstep (s : AudioVisualWaveform F channels × Record) (op : WaveformOp F channels)
      (hs : Kept s.1 s.2) (hop : Legal s op) : Kept (step s op).1 (step s op).2 := hs.act hop
  exact invariant_run (I := fun s => Kept s.1 s.2) hstep kept_new hops

/-- After every run of legal operations the levels are consistent, what was written is stored, and
a buffer may be written in pieces. -/
theorem levels_run {ops : List (WaveformOp F channels)}
    (hops : Permitted step Legal (AudioVisualWaveform.new F channels, Record.new) ops) :
    Consistent (run step (AudioVisualWaveform.new F channels, Record.new) ops).1 ∧
      Covered (run step (AudioVisualWaveform.new F channels, Record.new) ops).1
        (run step (AudioVisualWaveform.new F channels, Record.new) ops).2 ∧
      InPieces (run step (AudioVisualWaveform.new F channels, Record.new) ops).1
        (run step (AudioVisualWaveform.new F channels, Record.new) ops).2 :=
  ⟨(kept_run hops).consistent, (kept_run hops).covered, (kept_run hops).inPieces⟩

end Run

/-- One sample at the rate of the finest level. -/
def oneSample (a : ℤ) : Fin 1 → List (Amplitude ℤ) := fun _ => [some a]

/-- Ten seconds of silence, of which the first eight are trimmed. -/
theorem levels_run_silence :
    Consistent (run step (AudioVisualWaveform.new ℤ 1, Record.new)
      [.overwriteSilence 3 10, .trimIn 8]).1 := by
  have hten : points (0 + Max.max 10 0) = 10240 := by decide +kernel
  have hzero : points 0 = 0 := by decide +kernel
  have hops : Permitted step Legal (AudioVisualWaveform.new ℤ 1, Record.new)
      [.overwriteSilence 3 10, .trimIn 8] :=
    ⟨{ placed := .inl (by decide)
       fresh := fun _ => .inr fun _ hp => absurd hp List.not_mem_nil
       boundary := Boundary.zero
       stop := .inr (hten ▸ by decide)
       gap := .inl (hzero ▸ by decide) }, .inl ⟨1, by norm_num⟩, trivial⟩
  exact (levels_run hops).1

/-- Two writes of one sample each. The point of 512 in a second that they fill is not stored; it
is when both samples are written at once. -/
theorem short_writes :
    let s : AudioVisualWaveform ℤ 1 × Record :=
      run step (AudioVisualWaveform.new ℤ 1, Record.new)
        [.overwriteSamples (oneSample 3) 1024 0, .overwriteSamples (oneSample 5) 1024 (1 / 1024)]
    ¬ Covered s.1 s.2 ∧ (s.1.mipmappedData 1).length = 0 ∧
      (((AudioVisualWaveform.new ℤ 1).overwriteSamples (fun _ => [some 3, some 5]) 1024
        0).mipmappedData 1).length = 1 := by
  intro s
  have hlength : (s.1.mipmappedData 1).length = 0 := by decide +kernel
  have hspans : s.2.spans = [(1 / 1024, 2 / 1024), (0, 1 / 1024)] := by decide +kernel
  have hfrom : s.1.pointStart 1 0 = 0 := by decide +kernel
  have hto : s.1.pointStart 1 (0 + 1) = 2 / 1024 := by decide +kernel
  refine ⟨fun hcovered => ?_, hlength, by decide +kernel⟩
  obtain ⟨hcells, hpoint⟩ := hcovered 1 (by decide)
  have htrue := hpoint 0 fun t ht hlt => by
    rw [hfrom] at ht
    rw [hto] at hlt
    rw [hspans]
    by_cases hsecond : 1 / 1024 ≤ t
    · exact ⟨_, List.mem_cons_self, hsecond, hlt⟩
    · exact ⟨_, List.mem_cons_of_mem _ List.mem_cons_self, ht, not_le.1 hsecond⟩
  rw [List.eq_nil_of_length_eq_zero (hcells.trans hlength)] at htrue
  exact absurd htrue (by simp)

end Oak.Audio
