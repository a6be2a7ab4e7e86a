import Oak.Audio.Extract
import Oak.Lib.Machine
import Oak.Lib.Pyramid
import Oak.Lib.Rounding
import Mathlib.Algebra.Order.Floor.Semifield

/-!
# The levels of a waveform

`AudioVisualWaveform` of `oak-audio/src/waveform.rs`: the minima and maxima of a signal at 14 rates,
each half of the one before it. A level is a list of samples, one entry for all channels, where the
source has the entries of the channels one behind the other. Times are exact; `0/0`, which a new
waveform has for its start and its length, is none.

* `overwriteSamples`, `overwriteSilence`, `trimIn`, `resize`: the operations.
* `Record`: the times that have been written, and which points of the levels were.
-/

namespace Oak.Audio

open Oak.Lib

variable {F : Type*}

namespace Amplitude

/-- `a < b`; a NaN is not compared. -/
def lt [LinearOrder F] : Amplitude F → Amplitude F → Bool
  | some a, some b => a < b
  | _, _ => false

end Amplitude

/-- The extremes take in another pair. -/
def SamplePerChannel.expand [LinearOrder F] (summed sample : SamplePerChannel F) :
    SamplePerChannel F :=
  ⟨if sample.min.lt summed.min then sample.min else summed.min,
    if summed.max.lt sample.max then sample.max else summed.max⟩

/-- One pair for each channel. -/
abbrev Sample (F : Type*) (channels : ℕ) := Fin channels → SamplePerChannel F

/-- Two samples, channel by channel. -/
def Sample.merge [LinearOrder F] {channels : ℕ} (p q : Sample F channels) : Sample F channels :=
  fun ch => (p ch).expand (q ch)

/-- The levels of a waveform; level `j` has `1024 / 2 ^ j` points a second. -/
structure AudioVisualWaveform (F : Type*) (channels : ℕ) where
  virtualStart : Option ℚ
  length : Option ℚ
  mipmappedData : ℕ → List (Sample F channels)

/-- The number of levels, from 1024 points a second to one in 8 seconds. -/
def levelCount : ℕ := 14

/-- The points of a level in a second. -/
def rate (level : ℕ) : ℚ := 1024 / 2 ^ level

/-- The points of a level in a time; none if it is negative. -/
def timeToSamples (time sampleRate : ℚ) : ℕ := ⌊time * sampleRate⌋₊

section Summaries

variable [LinearOrder F] [Zero F] {channels : ℕ}

/-- The extremes of a part of one plane. -/
def sumChannel (data : List (Amplitude F)) (startIndex length : ℕ) : SamplePerChannel F :=
  match (data.drop startIndex).take length with
  | [] => default
  | first :: rest => rest.foldl (fun p s => p.expand ⟨s, s⟩) ⟨first, first⟩

variable (planar : Fin channels → List (Amplitude F))

/-- The extremes of a part of planar samples. -/
def sumSamples (startIndex length : ℕ) : Sample F channels :=
  fun ch => sumChannel (planar ch) startIndex length

/-- The extremes of the first samples. -/
def reSumSamples (samples : List (Sample F channels)) (nbSamples : ℕ) : Sample F channels :=
  match samples.take nbSamples with
  | [] => default
  | first :: rest => (first :: rest).foldl Sample.merge first

/-- The first plane has as many samples as are written. -/
def sampleCount [NeZero channels] : ℕ :=
  (planar 0).length

/-- The summaries of the samples, `len` points from the first one on. The place of a point is
rounded among the samples of all channels. -/
def summaries [NeZero channels] (sampleRate : ℕ) (targetRate : ℚ) (len : ℕ) :
    List (Sample F channels) :=
  let chunkSize : ℚ := sampleRate / targetRate
  (List.range len).map fun i =>
    let srcStart := (roundAway ((i * channels : ℕ) * chunkSize)).toNat / channels
    let srcEnd := Min.min ((roundAway ((i * channels + channels : ℕ) * chunkSize)).toNat / channels)
      (sampleCount planar)
    sumSamples planar srcStart (srcEnd - srcStart)

/-- Write the summaries of the samples, and return where, and how many they are. -/
def overwriteSamplesFromBuffer [NeZero channels] (sampleRate : ℕ) (start targetRate : ℚ)
    (data : List (Sample F channels)) : List (Sample F channels) × ℕ × ℕ :=
  let startIndex := timeToSamples start targetRate
  let samplesLength := timeToSamples (sampleCount planar / sampleRate) targetRate
  (writeFrom default startIndex (summaries planar sampleRate targetRate samplesLength) data,
    startIndex, samplesLength)

/-- Write the summaries of the points that were written in the level before. -/
def overwriteSamplesFromMipmap (input : List (Sample F channels)) (inputSampleRate start : ℚ)
    (outputRate : ℚ) (outputData : List (Sample F channels)) (inputStart inputLength : ℕ) :
    List (Sample F channels) × ℕ × ℕ :=
  let startIndex := timeToSamples start outputRate
  let samplesLength := timeToSamples (inputLength / inputSampleRate) outputRate
  let chunkSize := ⌊inputSampleRate / outputRate⌋₊
  (writeFrom default startIndex ((List.range samplesLength).map fun i =>
      reSumSamples (input.drop (inputStart + i * chunkSize)) chunkSize) outputData,
    startIndex, samplesLength)

/-- Write to the levels, the finest one first. -/
def overwriteLevels [NeZero channels] (planar : Fin channels → List (Amplitude F))
    (sampleRate : ℕ) (start : ℚ) (data : ℕ → List (Sample F channels)) :
    ℕ → List (Sample F channels) × ℕ × ℕ
  | 0 => overwriteSamplesFromBuffer planar sampleRate start (rate 0) (data 0)
  | level + 1 =>
    let (input, inputStart, inputLength) :=
      overwriteLevels planar sampleRate start data level
    overwriteSamplesFromMipmap input (rate level) start (rate (level + 1)) (data (level + 1))
      inputStart inputLength

end Summaries

/-- Trim the start of all levels by `length`. The points to prepend for a negative length come from
`0/0 - length`, which is `0/0`: there are none. -/
def trimLevels {α : Type*} (length : ℚ) (data : ℕ → List α) (level : ℕ) : List α :=
  if length < 0 then data level else (data level).drop (timeToSamples length (rate level))

namespace AudioVisualWaveform

variable {channels : ℕ}

/-- An empty waveform. -/
def new (F : Type*) (channels : ℕ) : AudioVisualWaveform F channels := ⟨none, none, fun _ => []⟩

variable (w : AudioVisualWaveform F channels)

/-- `length.is_null()`, of `0/0` and of zero. -/
def IsNull : Prop := w.length.getD 0 = 0

instance : Decidable w.IsNull := inferInstanceAs (Decidable (_ = _))

/-- The virtual start; a waveform without one has no place in time. -/
def origin : ℚ := w.virtualStart.getD 0

/-- A time from the virtual start. From `0/0` it is `0/0`, to which the levels have as few points as
to zero. -/
def fromStart (time : ℚ) : ℚ := (w.virtualStart.map fun start => time - start).getD 0

/-- The length, at least to `stop`. -/
def lengthTo (stop : ℚ) : ℚ := w.length.elim stop (Max.max · stop)

/-- Trim the start. A negative length moves the virtual start only. -/
def trimIn (length : ℚ) : AudioVisualWaveform F channels :=
  if length = 0 then w
  else
    { virtualStart := w.virtualStart.map (· + length)
      length := if length < 0 then w.length
        else some (w.length.elim 0 fun l => Max.max 0 (l - length))
      mipmappedData := trimLevels length w.mipmappedData }

/-- Keep the virtual start consistent with a new write position. -/
def validateVirtualStart (newStart : ℚ) : AudioVisualWaveform F channels :=
  if w.IsNull then { w with virtualStart := some newStart }
  else
    match w.virtualStart with
    | none => w
    | some start => if newStart < start then w.trimIn (newStart - start) else w

variable [LinearOrder F] [Zero F]

/-- Write planar samples. -/
def overwriteSamples [NeZero channels] (planar : Fin channels → List (Amplitude F))
    (sampleRate : ℕ) (start : ℚ) : AudioVisualWaveform F channels :=
  let w := w.validateVirtualStart start
  { w with
    length := some (w.lengthTo (start + sampleCount planar / sampleRate))
    mipmappedData := fun level =>
      (overwriteLevels planar sampleRate (w.fromStart start) w.mipmappedData level).1 }

/-- Write silence. -/
def overwriteSilence (start length : ℚ) : AudioVisualWaveform F channels :=
  let w := w.validateVirtualStart start
  { w with
    length := some (w.lengthTo (start + length))
    mipmappedData := fun level =>
      writeFrom default (timeToSamples (w.fromStart start) (rate level))
        (List.replicate (timeToSamples length (rate level)) default) (w.mipmappedData level) }

/-- Truncate, or pad with silence. -/
def resize (length : ℚ) : AudioVisualWaveform F channels :=
  if w.length = some length then w
  else
    { w with
      length := some length
      mipmappedData := fun level =>
        resizeTo (timeToSamples length (rate level)) default (w.mipmappedData level) }

end AudioVisualWaveform

/-- An operation on a waveform. -/
inductive WaveformOp (F : Type*) (channels : ℕ)
  | overwriteSamples (planar : Fin channels → List (Amplitude F)) (sampleRate : ℕ) (start : ℚ)
  | overwriteSilence (start length : ℚ)
  | trimIn (length : ℚ)
  | resize (length : ℚ)

/-! ### What has been written -/

/-- Which points of the levels have been written since they were there, and the spans of time that
have been written and that the waveform still covers, as their starts and ends. -/
structure Record where
  cells : ℕ → List Bool
  spans : List (ℚ × ℚ)

namespace Record

variable {channels : ℕ} (w : AudioVisualWaveform F channels) (h : Record)

def new : Record := ⟨fun _ => [], []⟩

/-- What is trimmed is no longer covered. -/
def trimIn (length : ℚ) : Record where
  cells := trimLevels length h.cells
  spans := if length < 0 then h.spans
    else h.spans.map fun p => (Max.max p.1 (w.origin + length), p.2)

/-- A span is written, and in each level a number of points from some index on. -/
def overwrite (start length : ℚ) (points : ℕ → ℕ × ℕ) : Record where
  cells level := writeFrom false (points level).1 (List.replicate (points level).2 true)
    (h.cells level)
  spans := (start, start + length) :: h.spans

def resize (length : ℚ) : Record :=
  if w.length = some length then h
  else
    { cells := fun level => resizeTo (timeToSamples length (rate level)) false (h.cells level)
      spans := h.spans.map fun p => (p.1, Min.min p.2 (w.origin + length)) }

end Record

section Machine

variable [LinearOrder F] [Zero F] {channels : ℕ} [NeZero channels]

def AudioVisualWaveform.act (w : AudioVisualWaveform F channels) :
    WaveformOp F channels → AudioVisualWaveform F channels
  | .overwriteSamples planar sampleRate start => w.overwriteSamples planar sampleRate start
  | .overwriteSilence start length => w.overwriteSilence start length
  | .trimIn length => w.trimIn length
  | .resize length => w.resize length

/-- What an operation writes. -/
def Record.update (s : AudioVisualWaveform F channels × Record) : WaveformOp F channels → Record
  | .overwriteSamples planar sampleRate start =>
    let w := s.1.validateVirtualStart start
    s.2.overwrite start (sampleCount planar / sampleRate) fun level =>
      (overwriteLevels planar sampleRate (w.fromStart start) w.mipmappedData level).2
  | .overwriteSilence start length =>
    let w := s.1.validateVirtualStart start
    s.2.overwrite start length fun level =>
      (timeToSamples (w.fromStart start) (rate level), timeToSamples length (rate level))
  | .trimIn length => if length = 0 then s.2 else s.2.trimIn s.1 length
  | .resize length => s.2.resize s.1 length

end Machine

end Oak.Audio
