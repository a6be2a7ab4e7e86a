import Oak.Core.TimeRange
import Oak.Lib.Rounding
import Oak.Lib.Signal
import Oak.Render.Ipc
import Mathlib.Algebra.BigOperators.Group.List.Basic
import Mathlib.Order.Monotone.Basic
import Mathlib.Tactic.LinearCombination

/-!
# Mixing audio

`render_audio_samples` of `oak-render/src/eval.rs`, with `silence_for` of
`oak-app/src/oakui/audio_thread.rs`. The samples of the channels are interleaved. The length of a
chunk is counted on the samples of the sequence; where a clip begins and ends in it is rounded from
the start of the chunk.

A stream is known at the rate and in the layout of the ticket, and the decoder gives its samples
from the one that is nearest to the start of a range on. Samples and times are exact.

* `AudioTicketParams.sampleAt` is the sample nearest to a time.
* `AudioTicketParams.chunks` cuts a range.
* `spanSignal` is what a clip is heard as, `Aligned` says that the roundings of one chunk agree with
  the samples of the sequence, and `ChunkIndependent` that the chunks make the whole.

## Main results

* `mixClip_eq_window_iff`: a clip is heard in a chunk when it is aligned.
* `renderAudioSamples_chunks`: chunks make the whole when every clip is aligned in each of them.
* `renderAudioSamples_dropFrame`: at 29.97 frames a second, a sample is lost between two frames.
-/

namespace Oak.Mix

open Oak.Core Oak.Lib
open Oak.Render.Ipc (MontageClip)

/-- The samples of every stream of a file at a rate and in a layout, those of the channels one
behind the other. -/
abbrev Streams := String → ℤ → ℤ → BitVec 64 → ℤ → ℚ

structure AudioTicketParams where
  viewer : ℕ
  range : TimeRange
  sampleRate : ℤ
  channelLayout : BitVec 64
  montage : List (MontageClip ℚ)

structure AudioSamples where
  samples : List ℚ
  sampleRate : ℤ
  channelLayout : BitVec 64
  channelCount : ℕ

structure RenderedAudio where
  data : List ℚ
  sampleRate : ℤ
  channelCount : ℕ

/-! ### The code -/

namespace AudioTicketParams

variable (p : AudioTicketParams)

def rate : ℤ := max p.sampleRate 1

def channels : ℕ := max p.channelLayout.cpop.toNat 1

/-- `(time * rate).round()`. -/
def sampleAt (time : Rational) : ℤ := roundAway (time * p.rate)

/-- The sample frames of the range. -/
def totalFrames : ℕ := (p.sampleAt p.range.out - p.sampleAt p.range.in_).toNat

variable (clip : MontageClip ℚ)

/-- Where a clip begins in the range, and where it ends. -/
def clipIn : Rational := max p.range.in_ clip.inTime

def clipOut : Rational := min p.range.out clip.outTime

end AudioTicketParams

open AudioTicketParams

/-- `audio_layout`: `none` is `Error::Invalid`. -/
def audioLayout (p : AudioTicketParams) : Option (ℤ × BitVec 64 × ℕ × ℕ) :=
  let seconds := p.range.out - p.range.in_
  if seconds ≤ 0 ∨ 3600 < seconds then none
  else some (p.rate, p.channelLayout, p.channels, p.totalFrames)

/-- What `retrieve_audio` writes into a buffer. -/
def retrieveAudio (stream : ℤ → ℚ) (p : AudioTicketParams) (range : TimeRange) (length : ℕ) :
    List ℚ :=
  window stream (p.sampleAt range.in_ * p.channels) length

/-- The sample frames of a chunk that a clip is mixed into, and the range of its media. -/
structure Placement where
  startFrame : ℕ
  frames : ℕ
  range : TimeRange

/-- The overlap of a clip with the range; `none` where the loop continues with the next clip. -/
def placement (p : AudioTicketParams) (clip : MontageClip ℚ) : Option Placement :=
  let inTime := p.clipIn clip
  let outTime := p.clipOut clip
  let startFrame := (p.sampleAt (inTime - p.range.in_)).toNat
  let endFrame := (p.sampleAt (outTime - p.range.in_)).toNat
  let frames := min (endFrame - startFrame) (p.totalFrames - startFrame)
  let mediaStart := clip.mediaIn + (inTime - clip.inTime)
  let mediaEnd := mediaStart + (outTime - inTime)
  if outTime ≤ inTime ∨ p.totalFrames ≤ startFrame ∨ frames = 0 then none
  else some ⟨startFrame, frames, TimeRange.new mediaStart mediaEnd⟩

/-- One round of the loop of `mix_audio_montage`. -/
def mixClip (streams : Streams) (p : AudioTicketParams) (acc : List ℚ) (clip : MontageClip ℚ) :
    List ℚ :=
  match placement p clip with
  | none => acc
  | some q =>
    let stream := streams clip.filename clip.streamIndex p.rate p.channelLayout
    let buf := retrieveAudio stream p q.range (q.frames * p.channels)
    modifyFrom (fun i sample => sample + buf.getD i 0 * clip.gain) (q.startFrame * p.channels)
      (q.frames * p.channels) acc

/-- `sample.clamp(-1.0, 1.0)`. -/
def clampSample (sample : ℚ) : ℚ := max (-1) (min sample 1)

def mixAudioMontage (streams : Streams) (p : AudioTicketParams) (acc : List ℚ) : List ℚ :=
  (p.montage.foldl (mixClip streams p) acc).map clampSample

/-- What a buffer holds at first. -/
def silent (p : AudioTicketParams) : List ℚ := List.replicate (p.totalFrames * p.channels) 0

def renderAudioSamples (streams : Streams) (p : AudioTicketParams) : Option AudioSamples :=
  (audioLayout p).map fun (rate, layout, channels, _) =>
    { samples := mixAudioMontage streams p (silent p)
      sampleRate := rate
      channelLayout := layout
      channelCount := channels }

/-- `silence_for`. -/
def silenceFor (p : AudioTicketParams) : RenderedAudio where
  data := List.replicate (p.totalFrames * p.channels) 0
  sampleRate := p.rate
  channelCount := p.channels

/-! ### Cutting a range -/

/-- The ranges `[t, t₁)`, `[t₁, t₂)` and so on, for the cuts `t₁`, `t₂` and so on. -/
def ranges : Rational → List Rational → List TimeRange
  | _, [] => []
  | t, cut :: cuts => ⟨t, cut⟩ :: ranges cut cuts

/-- The cuts ascend from one time to another. -/
def Ascend : Rational → List Rational → Rational → Prop
  | t, [], out => t = out
  | t, cut :: cuts, out => t < cut ∧ Ascend cut cuts out

namespace AudioTicketParams

variable (p : AudioTicketParams)

/-- The same ticket for another range. -/
def during (range : TimeRange) : AudioTicketParams := { p with range := range }

def chunks (cuts : List Rational) : List AudioTicketParams := (ranges p.range.in_ cuts).map p.during

end AudioTicketParams

/-- What a clip is heard as: the samples of its span are those of its stream, `shift` sample frames
later, with its gain. -/
def spanSignal (streams : Streams) (p : AudioTicketParams) (clip : MontageClip ℚ) (shift n : ℤ) :
    ℚ :=
  if p.sampleAt clip.inTime ≤ n / p.channels ∧ n / p.channels < p.sampleAt clip.outTime then
    streams clip.filename clip.streamIndex p.rate p.channelLayout (n + shift * p.channels) *
      clip.gain
  else 0

/-- Counted from the start of the range, the clip begins and ends at the samples where it begins and
ends in the sequence, and its media is `shift` sample frames later. -/
def Aligned (p : AudioTicketParams) (clip : MontageClip ℚ) (shift : ℤ) : Prop :=
  let inTime := p.clipIn clip
  let outTime := p.clipOut clip
  let origin := p.sampleAt p.range.in_
  let startFrame := p.sampleAt (inTime - p.range.in_)
  let endFrame := min (p.sampleAt (outTime - p.range.in_)) (p.sampleAt p.range.out - origin)
  inTime < outTime →
    if p.sampleAt inTime = p.sampleAt outTime then endFrame ≤ startFrame
    else
      startFrame = p.sampleAt inTime - origin ∧ endFrame = p.sampleAt outTime - origin ∧
        p.sampleAt (clip.mediaIn + (inTime - clip.inTime)) = p.sampleAt inTime + shift

instance (p : AudioTicketParams) (clip : MontageClip ℚ) (shift : ℤ) :
    Decidable (Aligned p clip shift) := by
  unfold Aligned
  infer_instance

/-- Chunks are as good as the whole: they are rendered, each has the length of the silence for it,
their samples are those of the whole, and every clip is heard the same way in all of them. -/
structure ChunkIndependent (p : AudioTicketParams) (cuts : List Rational) : Prop where
  rendered : ∀ streams, ∃ whole parts,
    renderAudioSamples streams p = some whole ∧
      List.Forall₂ (fun q part => renderAudioSamples streams q = some part ∧
        part.samples.length = (silenceFor q).data.length) (p.chunks cuts) parts ∧
      parts.flatMap AudioSamples.samples = whole.samples ∧
      (whole.samples.length : ℤ) =
        (p.sampleAt p.range.out - p.sampleAt p.range.in_) * p.channels
  heard : ∀ clip ∈ p.montage, ∃ shift, ∀ q ∈ p :: p.chunks cuts, ∀ streams,
    mixClip streams q (silent q) clip =
      window (spanSignal streams p clip shift) (p.sampleAt q.range.in_ * p.channels)
        (q.totalFrames * p.channels)

/-! ### One clip -/

section Clip

variable {p : AudioTicketParams} {clip : MontageClip ℚ} {streams : Streams} {acc : List ℚ} {j : ℕ}

theorem channels_pos (p : AudioTicketParams) : 0 < p.channels := lt_max_of_lt_right Nat.one_pos

theorem sampleAt_le {s t : Rational} (h : s ≤ t) : p.sampleAt s ≤ p.sampleAt t := by
  have hrate : (0 : ℚ) ≤ p.rate := by
    exact_mod_cast Int.le_of_lt (lt_max_of_lt_right Int.one_pos)
  exact roundAway_le (mul_le_mul_of_nonneg_right h hrate)

theorem sampleAt_nonneg {t : Rational} (h : 0 ≤ t) : 0 ≤ p.sampleAt t := by
  have hzero : p.sampleAt 0 = 0 := by
    rw [sampleAt, zero_mul, ← Int.cast_zero, roundAway_intCast]
  exact hzero ▸ sampleAt_le h

theorem in_le_clipIn : p.range.in_ ≤ p.clipIn clip := le_max_left _ _

/-- What a clip adds to the sample `j` of a chunk. -/
def mixedSample (streams : Streams) (p : AudioTicketParams) (clip : MontageClip ℚ) (j : ℕ) : ℚ :=
  let startFrame := p.sampleAt (p.clipIn clip - p.range.in_)
  let endFrame := p.sampleAt (p.clipOut clip - p.range.in_)
  let mediaStart := p.sampleAt (clip.mediaIn + (p.clipIn clip - clip.inTime))
  if p.clipIn clip < p.clipOut clip ∧ startFrame ≤ (j / p.channels : ℕ) ∧
      (j / p.channels : ℕ) < endFrame then
    streams clip.filename clip.streamIndex p.rate p.channelLayout
      (j + (mediaStart - startFrame) * p.channels) * clip.gain
  else 0

@[simp] theorem length_mixClip : (mixClip streams p acc clip).length = acc.length := by
  delta mixClip
  split
  · rfl
  · exact length_modifyFrom _ _ _ _

theorem mul_le_and_lt_mul_iff {c k n : ℕ} (hc : 0 < c) :
    k * c ≤ j ∧ j < k * c + n * c ↔ k ≤ j / c ∧ j / c < k + n := by
  rw [← add_mul, Nat.le_div_iff_mul_le hc, Nat.div_lt_iff_lt_mul hc]

/-- Where a clip is mixed in, and from where in its media. -/
theorem placement_eq_some {q : Placement} (h : placement p clip = some q) :
    p.clipIn clip < p.clipOut clip ∧
      q.startFrame = (p.sampleAt (p.clipIn clip - p.range.in_)).toNat ∧
      q.startFrame + q.frames =
        min (p.sampleAt (p.clipOut clip - p.range.in_)).toNat p.totalFrames ∧
      q.range.in_ = clip.mediaIn + (p.clipIn clip - clip.inTime) := by
  simp only [placement, ite_eq_iff, Option.some.injEq, reduceCtorEq, and_false, false_or,
    not_or, not_le] at h
  obtain ⟨⟨hlt, hstart, hframes⟩, rfl⟩ := h
  refine ⟨hlt, rfl, by dsimp only; omega, ?_⟩
  dsimp only
  rw [TimeRange.new_of_le (le_add_of_nonneg_right (sub_nonneg.2 hlt.le))]

theorem placement_eq_none (h : placement p clip = none) (hlt : p.clipIn clip < p.clipOut clip) :
    min (p.sampleAt (p.clipOut clip - p.range.in_)).toNat p.totalFrames ≤
      (p.sampleAt (p.clipIn clip - p.range.in_)).toNat := by
  simp only [placement, ite_eq_left_iff, reduceCtorEq, imp_false, not_not] at h
  rcases h with h | h | h
  · exact absurd hlt (not_lt.2 h)
  · omega
  · omega

theorem getD_mixClip (hacc : acc.length = p.totalFrames * p.channels) (hj : j < acc.length) :
    (mixClip streams p acc clip).getD j 0 = acc.getD j 0 + mixedSample streams p clip j := by
  have hch := channels_pos p
  have hframe : j / p.channels < p.totalFrames := Nat.div_lt_of_lt_mul (by rwa [mul_comm, ← hacc])
  have hpos : 0 ≤ p.sampleAt (p.clipIn clip - p.range.in_) :=
    sampleAt_nonneg (sub_nonneg.2 in_le_clipIn)
  delta mixClip mixedSample
  rcases hplace : placement p clip with _ | q
  · rw [if_neg, add_zero]
    rintro ⟨hlt, hge, hend⟩
    have hle := placement_eq_none hplace hlt
    omega
  · obtain ⟨hlt, hstart, hend, hmedia⟩ := placement_eq_some hplace
    have hstart' : (q.startFrame : ℤ) = p.sampleAt (p.clipIn clip - p.range.in_) := by omega
    have hiff := @mul_le_and_lt_mul_iff j p.channels q.startFrame q.frames hch
    simp only
    rw [getD_modifyFrom hj]
    by_cases hin : q.startFrame ≤ j / p.channels ∧ j / p.channels < q.startFrame + q.frames
    · have hmul := hiff.2 hin
      rw [if_pos hmul, if_pos ⟨hlt, by omega, by omega⟩, retrieveAudio,
        getD_window (by omega), hmedia, ← hstart']
      congr 3
      rw [Nat.cast_sub hmul.1]
      push_cast
      ring
    · rw [if_neg (mt hiff.1 hin), if_neg, add_zero]
      rintro ⟨-, hge, hlt⟩
      omega

/-! ### A clip on the samples of the sequence -/

theorem sampleAt_clipIn (p : AudioTicketParams) (clip : MontageClip ℚ) :
    p.sampleAt (p.clipIn clip) = max (p.sampleAt p.range.in_) (p.sampleAt clip.inTime) := by
  rw [clipIn]
  rcases le_total p.range.in_ clip.inTime with h | h
  · rw [max_eq_right h, max_eq_right (sampleAt_le h)]
  · rw [max_eq_left h, max_eq_left (sampleAt_le h)]

theorem sampleAt_clipOut (p : AudioTicketParams) (clip : MontageClip ℚ) :
    p.sampleAt (p.clipOut clip) = min (p.sampleAt p.range.out) (p.sampleAt clip.outTime) := by
  rw [clipOut]
  rcases le_total p.range.out clip.outTime with h | h
  · rw [min_eq_left h, min_eq_left (sampleAt_le h)]
  · rw [min_eq_right h, min_eq_right (sampleAt_le h)]

theorem totalFrames_eq (hrange : p.range.in_ < p.range.out) :
    (p.totalFrames : ℤ) = p.sampleAt p.range.out - p.sampleAt p.range.in_ := by
  have hle : p.sampleAt p.range.in_ ≤ p.sampleAt p.range.out := sampleAt_le hrange.le
  rw [totalFrames]
  omega

/-- The sample frames of the range that belong to the clip in the sequence. -/
def OnGrid (p : AudioTicketParams) (clip : MontageClip ℚ) (i : ℤ) : Prop :=
  p.sampleAt (p.clipIn clip) ≤ p.sampleAt p.range.in_ + i ∧
    p.sampleAt p.range.in_ + i < p.sampleAt (p.clipOut clip)

/-- The sample frames of the range that the clip is mixed into. -/
def Mixed (p : AudioTicketParams) (clip : MontageClip ℚ) (i : ℤ) : Prop :=
  p.clipIn clip < p.clipOut clip ∧ p.sampleAt (p.clipIn clip - p.range.in_) ≤ i ∧
    i < p.sampleAt (p.clipOut clip - p.range.in_)

theorem spanSignal_add (shift : ℤ) (hrange : p.range.in_ < p.range.out)
    (hj : j < p.totalFrames * p.channels) [Decidable (OnGrid p clip (j / p.channels : ℕ))] :
    spanSignal streams p clip shift (p.sampleAt p.range.in_ * p.channels + j) =
      if OnGrid p clip (j / p.channels : ℕ) then
        streams clip.filename clip.streamIndex p.rate p.channelLayout
          (p.sampleAt p.range.in_ * p.channels + j + shift * p.channels) * clip.gain
      else 0 := by
  have hch := channels_pos p
  have hframe : j / p.channels < p.totalFrames := Nat.div_lt_of_lt_mul (by rwa [mul_comm])
  have htotal := totalFrames_eq hrange
  have hdiv : (p.sampleAt p.range.in_ * p.channels + j) / (p.channels : ℤ) =
      p.sampleAt p.range.in_ + (j / p.channels : ℕ) := by
    rw [add_comm, Int.add_mul_ediv_right _ _ (by omega), add_comm, Int.natCast_ediv]
  rw [spanSignal, hdiv]
  refine if_congr ?_ rfl rfl
  rw [OnGrid, sampleAt_clipIn, sampleAt_clipOut]
  generalize j / p.channels = i at hframe
  omega

theorem mixedSample_eq [Decidable (Mixed p clip (j / p.channels : ℕ))] :
    mixedSample streams p clip j =
      if Mixed p clip (j / p.channels : ℕ) then
        streams clip.filename clip.streamIndex p.rate p.channelLayout
          (j + (p.sampleAt (clip.mediaIn + (p.clipIn clip - clip.inTime)) -
            p.sampleAt (p.clipIn clip - p.range.in_)) * p.channels) * clip.gain
      else 0 :=
  if_congr Iff.rfl rfl rfl

/-- Two intervals agree below a bound when they are both empty, or have the same ends. -/
theorem interval_agree_iff {s e a b total : ℤ} (hs : 0 ≤ s) (ha : 0 ≤ a) (hab : a ≤ b)
    (hb : b ≤ total) :
    (∀ i, 0 ≤ i → i < total → (s ≤ i ∧ i < e ↔ a ≤ i ∧ i < b)) ↔
      if a = b then min e total ≤ s else s = a ∧ min e total = b := by
  constructor
  · intro h
    have hfirst := h s
    have hlast := h (min e total - 1)
    have hfirst' := h a
    have hlast' := h (b - 1)
    split_ifs <;> omega
  · intro h i hi hlt
    split_ifs at h <;> omega

/-- A clip is aligned when it is mixed into the sample frames that belong to it, from the right one
of its media on. -/
theorem aligned_iff (hrange : p.range.in_ < p.range.out) (shift : ℤ) :
    Aligned p clip shift ↔
      (∀ i : ℤ, 0 ≤ i → i < p.totalFrames → (Mixed p clip i ↔ OnGrid p clip i)) ∧
        (p.sampleAt (p.clipIn clip) < p.sampleAt (p.clipOut clip) →
          p.sampleAt (clip.mediaIn + (p.clipIn clip - clip.inTime)) -
              p.sampleAt (p.clipIn clip - p.range.in_) =
            p.sampleAt p.range.in_ + shift) := by
  have htotal := totalFrames_eq hrange
  have hin := sampleAt_clipIn p clip
  have hout := sampleAt_clipOut p clip
  have hpos : 0 ≤ p.sampleAt (p.clipIn clip - p.range.in_) :=
    sampleAt_nonneg (sub_nonneg.2 in_le_clipIn)
  rcases lt_or_ge (p.clipIn clip) (p.clipOut clip) with hlt | hge
  · have hle : p.sampleAt (p.clipIn clip) ≤ p.sampleAt (p.clipOut clip) := sampleAt_le hlt.le
    have hframes : (∀ i : ℤ, 0 ≤ i → i < p.totalFrames → (Mixed p clip i ↔ OnGrid p clip i)) ↔
        if p.sampleAt (p.clipIn clip) - p.sampleAt p.range.in_ =
            p.sampleAt (p.clipOut clip) - p.sampleAt p.range.in_ then
          min (p.sampleAt (p.clipOut clip - p.range.in_)) p.totalFrames ≤
            p.sampleAt (p.clipIn clip - p.range.in_)
        else p.sampleAt (p.clipIn clip - p.range.in_) =
            p.sampleAt (p.clipIn clip) - p.sampleAt p.range.in_ ∧
          min (p.sampleAt (p.clipOut clip - p.range.in_)) p.totalFrames =
            p.sampleAt (p.clipOut clip) - p.sampleAt p.range.in_ := by
      rw [← interval_agree_iff hpos (by omega) (by omega) (by omega)]
      refine forall_congr' fun i => imp_congr_right fun _ => imp_congr_right fun _ => ?_
      rw [Mixed, OnGrid]
      exact iff_congr (and_iff_right hlt) (by omega)
    rw [hframes, htotal, Aligned]
    simp only [hlt, true_imp_iff, sub_left_inj]
    split_ifs with heq
    · omega
    · rw [← and_assoc]
      refine and_congr_right fun h => ?_
      rw [imp_iff_right (lt_of_le_of_ne hle heq)]
      omega
  · have hle : p.sampleAt (p.clipOut clip) ≤ p.sampleAt (p.clipIn clip) := sampleAt_le hge
    refine iff_of_true (fun hlt => absurd hlt (not_lt.2 hge)) ⟨fun i _ _ => ?_, fun hlt => ?_⟩
    · exact iff_of_false (fun h => absurd h.1 (not_lt.2 hge)) fun h => absurd hle
        (not_le.2 (h.1.trans_lt h.2))
    · exact absurd hle (not_le.2 hlt)

/-- A clip that can be heard is heard as its signal exactly when it is aligned. -/
theorem mixedSample_eq_spanSignal_iff (hrange : p.range.in_ < p.range.out) (hgain : clip.gain ≠ 0)
    (shift : ℤ) :
    (∀ streams, ∀ j < p.totalFrames * p.channels, mixedSample streams p clip j =
      spanSignal streams p clip shift (p.sampleAt p.range.in_ * p.channels + j)) ↔
      Aligned p clip shift := by
  classical
  have hch := channels_pos p
  rw [aligned_iff hrange]
  constructor
  · intro h
    have hframes (i : ℤ) (hi : 0 ≤ i) (hlt : i < p.totalFrames) :
        Mixed p clip i ↔ OnGrid p clip i := by
      obtain ⟨n, rfl⟩ := Int.eq_ofNat_of_zero_le hi
      have hj : n * p.channels < p.totalFrames * p.channels :=
        Nat.mul_lt_mul_of_pos_right (by exact_mod_cast hlt) hch
      have hone := h (fun _ _ _ _ _ => 1) _ hj
      rw [mixedSample_eq, spanSignal_add shift hrange hj, Nat.mul_div_cancel _ hch] at hone
      by_cases hmixed : Mixed p clip n <;> by_cases hgrid : OnGrid p clip n
      · exact iff_of_true hmixed hgrid
      · rw [if_pos hmixed, if_neg hgrid, one_mul] at hone
        exact absurd hone hgain
      · rw [if_neg hmixed, if_pos hgrid, one_mul] at hone
        exact absurd hone.symm hgain
      · exact iff_of_false hmixed hgrid
    refine ⟨hframes, fun hlt => ?_⟩
    have htotal := totalFrames_eq hrange
    have hin := sampleAt_clipIn p clip
    have hout := sampleAt_clipOut p clip
    obtain ⟨n, hn⟩ := Int.eq_ofNat_of_zero_le
      (show 0 ≤ p.sampleAt (p.clipIn clip) - p.sampleAt p.range.in_ by omega)
    have hlast : (n : ℤ) < p.totalFrames := by omega
    have hgrid : OnGrid p clip n := ⟨by omega, by omega⟩
    have hj : n * p.channels < p.totalFrames * p.channels :=
      Nat.mul_lt_mul_of_pos_right (by exact_mod_cast hlast) hch
    have hmedia := h (fun _ _ _ _ k => k) _ hj
    rw [mixedSample_eq, spanSignal_add shift hrange hj, Nat.mul_div_cancel _ hch, if_pos hgrid,
      if_pos ((hframes n (Int.natCast_nonneg n) hlast).2 hgrid)] at hmedia
    have hsample : ((n * p.channels : ℕ) : ℤ) + (p.sampleAt (clip.mediaIn +
        (p.clipIn clip - clip.inTime)) - p.sampleAt (p.clipIn clip - p.range.in_)) * p.channels =
        p.sampleAt p.range.in_ * p.channels + (n * p.channels : ℕ) + shift * p.channels := by
      exact_mod_cast mul_right_cancel₀ hgain hmedia
    refine mul_right_cancel₀ (show (p.channels : ℤ) ≠ 0 by omega) ?_
    linear_combination hsample
  · rintro ⟨hframes, hmedia⟩ streams j hj
    have hframe : j / p.channels < p.totalFrames := Nat.div_lt_of_lt_mul (by rwa [mul_comm])
    rw [mixedSample_eq, spanSignal_add shift hrange hj]
    have hiff := hframes (j / p.channels : ℕ) (Int.natCast_nonneg _) (by exact_mod_cast hframe)
    by_cases hgrid : OnGrid p clip (j / p.channels : ℕ)
    · rw [if_pos hgrid, if_pos (hiff.2 hgrid), hmedia (hgrid.1.trans_lt hgrid.2)]
      congr 2
      ring
    · rw [if_neg hgrid, if_neg (mt hiff.1 hgrid)]

theorem length_silent (p : AudioTicketParams) :
    (silent p).length = p.totalFrames * p.channels := List.length_replicate

theorem mixClip_eq_window (streams : Streams) (p : AudioTicketParams) (clip : MontageClip ℚ)
    (shift : ℤ) :
    mixClip streams p (silent p) clip =
        window (spanSignal streams p clip shift) (p.sampleAt p.range.in_ * p.channels)
          (p.totalFrames * p.channels) ↔
      ∀ j < p.totalFrames * p.channels, mixedSample streams p clip j =
        spanSignal streams p clip shift (p.sampleAt p.range.in_ * p.channels + j) := by
  have hlength := length_silent p
  have hsample (j : ℕ) (hj : j < p.totalFrames * p.channels) :
      (mixClip streams p (silent p) clip).getD j 0 = mixedSample streams p clip j := by
    rw [getD_mixClip hlength (hlength.symm ▸ hj), silent, List.getD_replicate _ hj, zero_add]
  constructor
  · intro h j hj
    rw [← hsample j hj, h, getD_window hj]
  · intro h
    refine eq_window 0 (by rw [length_mixClip, hlength]) fun j hj => ?_
    rw [hsample j hj, h j hj]

/-- A clip is heard in a chunk when it is aligned, or has no gain. -/
theorem mixClip_eq_window_iff (hrange : p.range.in_ < p.range.out) (shift : ℤ) :
    (∀ streams, mixClip streams p (silent p) clip =
      window (spanSignal streams p clip shift) (p.sampleAt p.range.in_ * p.channels)
        (p.totalFrames * p.channels)) ↔
      clip.gain = 0 ∨ Aligned p clip shift := by
  rcases eq_or_ne clip.gain 0 with hgain | hgain
  · refine iff_of_true (fun streams => (mixClip_eq_window _ _ _ _).2 fun j hj => ?_) (Or.inl hgain)
    rw [mixedSample, spanSignal, hgain]
    simp only [mul_zero, ite_self]
  · rw [or_iff_right hgain, ← mixedSample_eq_spanSignal_iff hrange hgain]
    exact forall_congr' fun streams => mixClip_eq_window streams p clip shift

end Clip

/-! ### The montage -/

variable {shift : MontageClip ℚ → ℤ}

section Montage

variable {p : AudioTicketParams} {streams : Streams} (clips : List (MontageClip ℚ))

theorem length_foldl_mixClip (acc : List ℚ) :
    (clips.foldl (mixClip streams p) acc).length = acc.length := by
  induction clips generalizing acc with
  | nil => rfl
  | cons clip clips ih => rw [List.foldl_cons, ih, length_mixClip]

theorem getD_foldl_mixClip {acc : List ℚ} {j : ℕ} (hacc : acc.length = p.totalFrames * p.channels)
    (hj : j < acc.length) :
    (clips.foldl (mixClip streams p) acc).getD j 0 =
      acc.getD j 0 + (clips.map fun clip => mixedSample streams p clip j).sum := by
  induction clips generalizing acc with
  | nil => rw [List.foldl_nil, List.map_nil, List.sum_nil, add_zero]
  | cons clip clips ih =>
    rw [List.foldl_cons, ih (by rw [length_mixClip, hacc]) (by rwa [length_mixClip]),
      getD_mixClip hacc hj, List.map_cons, List.sum_cons, add_assoc]

@[simp] theorem length_mixAudioMontage :
    (mixAudioMontage streams p (silent p)).length = p.totalFrames * p.channels := by
  rw [mixAudioMontage, List.length_map, length_foldl_mixClip, length_silent]

theorem getD_mixAudioMontage {j : ℕ} (hj : j < p.totalFrames * p.channels) :
    (mixAudioMontage streams p (silent p)).getD j 0 =
      clampSample (p.montage.map fun clip => mixedSample streams p clip j).sum := by
  have hlength := length_silent p
  have hzero : clampSample 0 = 0 := by decide
  have hmap := List.getD_map (p.montage.foldl (mixClip streams p) (silent p)) 0 (n := j) clampSample
  rw [hzero, getD_foldl_mixClip _ hlength (hlength.symm ▸ hj), silent, List.getD_replicate _ hj,
    zero_add] at hmap
  exact hmap

/-- What the montage is heard as. -/
def mixSignal (streams : Streams) (p : AudioTicketParams) (shift : MontageClip ℚ → ℤ) (n : ℤ) : ℚ :=
  clampSample (p.montage.map fun clip => spanSignal streams p clip (shift clip) n).sum

theorem mixAudioMontage_eq_window
    (h : ∀ clip ∈ p.montage, mixClip streams p (silent p) clip =
      window (spanSignal streams p clip (shift clip)) (p.sampleAt p.range.in_ * p.channels)
        (p.totalFrames * p.channels)) :
    mixAudioMontage streams p (silent p) =
      window (mixSignal streams p shift) (p.sampleAt p.range.in_ * p.channels)
        (p.totalFrames * p.channels) := by
  refine eq_window 0 length_mixAudioMontage fun j hj => ?_
  rw [getD_mixAudioMontage hj, mixSignal]
  congr 2
  exact List.map_congr_left fun clip hclip => (mixClip_eq_window _ _ _ _).1 (h clip hclip) j hj

theorem renderAudioSamples_eq_some (hrange : p.range.in_ < p.range.out)
    (hhour : p.range.out - p.range.in_ ≤ 3600) :
    renderAudioSamples streams p =
      some ⟨mixAudioMontage streams p (silent p), p.rate, p.channelLayout, p.channels⟩ := by
  rw [renderAudioSamples, audioLayout, if_neg]
  · rfl
  · rw [not_or, not_le, not_lt, sub_pos]
    exact ⟨hrange, hhour⟩

end Montage

/-! ### Chunks -/

variable {cuts : List Rational} {t out : Rational}

theorem Ascend.le (h : Ascend t cuts out) : t ≤ out := by
  induction cuts generalizing t with
  | nil => exact le_of_eq h
  | cons cut cuts ih => exact h.1.le.trans (ih h.2)

/-- The range of a chunk is not empty, and lies in the range that was cut. -/
theorem Ascend.of_mem_ranges (h : Ascend t cuts out) {range : TimeRange}
    (hmem : range ∈ ranges t cuts) : t ≤ range.in_ ∧ range.in_ < range.out ∧ range.out ≤ out := by
  induction cuts generalizing t with
  | nil => exact absurd hmem List.not_mem_nil
  | cons cut cuts ih =>
    obtain ⟨hlt, hcuts⟩ := h
    rcases List.mem_cons.1 hmem with rfl | hmem
    · exact ⟨le_rfl, hlt, hcuts.le⟩
    · obtain ⟨hin, hpos, hout⟩ := ih hcuts hmem
      exact ⟨hlt.le.trans hin, hpos, hout⟩

/-- Chunks that are windows of one signal make one window. -/
theorem flatMap_chunks {p : AudioTicketParams} {streams : Streams} {f : ℤ → ℚ}
    (hcuts : Ascend t cuts out)
    (h : ∀ q ∈ (ranges t cuts).map p.during, mixAudioMontage streams q (silent q) =
      window f (q.sampleAt q.range.in_ * q.channels) (q.totalFrames * q.channels)) :
    (((ranges t cuts).map p.during).flatMap fun q => mixAudioMontage streams q (silent q)) =
      window f (p.sampleAt t * p.channels)
        ((p.sampleAt out - p.sampleAt t).toNat * p.channels) := by
  induction cuts generalizing t with
  | nil =>
    obtain rfl : t = out := hcuts
    rw [ranges, List.map_nil, List.flatMap_nil, sub_self, Int.toNat_zero, zero_mul]
    rfl
  | cons cut cuts ih =>
    obtain ⟨hlt, hcuts⟩ := hcuts
    have hle : p.sampleAt t ≤ p.sampleAt cut := sampleAt_le hlt.le
    have hle' : p.sampleAt cut ≤ p.sampleAt out := sampleAt_le hcuts.le
    have hfirst : mixAudioMontage streams (p.during ⟨t, cut⟩) (silent (p.during ⟨t, cut⟩)) =
        window f (p.sampleAt t * p.channels)
          ((p.sampleAt cut - p.sampleAt t).toNat * p.channels) :=
      h _ List.mem_cons_self
    rw [ranges, List.map_cons, List.flatMap_cons, hfirst,
      ih hcuts fun q hq => h q (List.mem_cons_of_mem _ hq)]
    obtain ⟨m, hm⟩ := Int.eq_ofNat_of_zero_le (sub_nonneg.2 hle)
    obtain ⟨n, hn⟩ := Int.eq_ofNat_of_zero_le (sub_nonneg.2 hle')
    have hsum : p.sampleAt out - p.sampleAt t = (m + n : ℕ) := by
      rw [Int.natCast_add, ← hm, ← hn]
      ring
    have hstart : p.sampleAt cut * p.channels =
        p.sampleAt t * p.channels + (m * p.channels : ℕ) := by
      rw [Int.natCast_mul, ← hm]
      ring
    rw [hsum, hm, hn, Int.toNat_natCast, Int.toNat_natCast, Int.toNat_natCast, hstart,
      window_append, ← add_mul]

theorem exists_during {p q : AudioTicketParams} (hrange : p.range.in_ < p.range.out)
    (hcuts : Ascend p.range.in_ cuts p.range.out) (hq : q ∈ p :: p.chunks cuts) :
    ∃ range : TimeRange, q = p.during range ∧ range.in_ < range.out ∧
      range.out - range.in_ ≤ p.range.out - p.range.in_ := by
  rcases List.mem_cons.1 hq with rfl | hq
  · exact ⟨q.range, rfl, hrange, le_rfl⟩
  · obtain ⟨range, hmem, rfl⟩ := List.mem_map.1 hq
    obtain ⟨hin, hpos, hout⟩ := hcuts.of_mem_ranges hmem
    exact ⟨range, rfl, hpos, sub_le_sub hout hin⟩

/-- When every clip is heard in the range and in each chunk, the chunks make the whole. -/
theorem rendered_of_heard {p : AudioTicketParams} (hrange : p.range.in_ < p.range.out)
    (hhour : p.range.out - p.range.in_ ≤ 3600) (hcuts : Ascend p.range.in_ cuts p.range.out)
    (h : ∀ clip ∈ p.montage, ∀ q ∈ p :: p.chunks cuts, ∀ streams,
      mixClip streams q (silent q) clip =
        window (spanSignal streams p clip (shift clip)) (p.sampleAt q.range.in_ * p.channels)
          (q.totalFrames * p.channels)) (streams : Streams) :
    ∃ whole parts, renderAudioSamples streams p = some whole ∧
      List.Forall₂ (fun q part => renderAudioSamples streams q = some part ∧
        part.samples.length = (silenceFor q).data.length) (p.chunks cuts) parts ∧
      parts.flatMap AudioSamples.samples = whole.samples ∧
      (whole.samples.length : ℤ) =
        (p.sampleAt p.range.out - p.sampleAt p.range.in_) * p.channels := by
  have hwindow : ∀ q ∈ p :: p.chunks cuts, mixAudioMontage streams q (silent q) =
      window (mixSignal streams p shift) (q.sampleAt q.range.in_ * q.channels)
        (q.totalFrames * q.channels) := by
    intro q hq
    obtain ⟨range, rfl, -, -⟩ := exists_during hrange hcuts hq
    exact mixAudioMontage_eq_window fun clip hclip => h clip hclip _ hq streams
  refine ⟨_, (p.chunks cuts).map fun q =>
    ⟨mixAudioMontage streams q (silent q), q.rate, q.channelLayout, q.channels⟩,
    renderAudioSamples_eq_some hrange hhour, ?_, ?_, ?_⟩
  · rw [List.forall₂_map_right_iff, List.forall₂_same]
    intro q hq
    obtain ⟨range, rfl, hpos, hlen⟩ := exists_during hrange hcuts (List.mem_cons_of_mem p hq)
    refine ⟨renderAudioSamples_eq_some hpos (hlen.trans hhour), ?_⟩
    rw [length_mixAudioMontage, silenceFor, List.length_replicate]
  · rw [List.flatMap_map, hwindow p List.mem_cons_self]
    exact flatMap_chunks hcuts fun q hq => hwindow q (List.mem_cons_of_mem p hq)
  · rw [length_mixAudioMontage, Int.natCast_mul, totalFrames_eq hrange]

/-- The chunks of a range make the whole exactly when every clip that has a gain is aligned, with
the same shift, in the range and in each of its chunks. -/
theorem renderAudioSamples_chunks (p : AudioTicketParams) (cuts : List Rational)
    (hrange : p.range.in_ < p.range.out) (hhour : p.range.out - p.range.in_ ≤ 3600)
    (hcuts : Ascend p.range.in_ cuts p.range.out) :
    ChunkIndependent p cuts ↔
      ∀ clip ∈ p.montage, clip.gain = 0 ∨
        ∃ shift, ∀ q ∈ p :: p.chunks cuts, Aligned q clip shift := by
  have hheard (clip : MontageClip ℚ) (shift : ℤ) :
      (∀ q ∈ p :: p.chunks cuts, ∀ streams, mixClip streams q (silent q) clip =
        window (spanSignal streams p clip shift) (p.sampleAt q.range.in_ * p.channels)
          (q.totalFrames * p.channels)) ↔
        ∀ q ∈ p :: p.chunks cuts, clip.gain = 0 ∨ Aligned q clip shift := by
    refine forall₂_congr fun q hq => ?_
    obtain ⟨range, rfl, hpos, -⟩ := exists_during hrange hcuts hq
    exact mixClip_eq_window_iff hpos shift
  constructor
  · intro h clip hclip
    obtain ⟨shift, hshift⟩ := h.heard clip hclip
    rw [or_iff_not_imp_left]
    exact fun hgain => ⟨shift, fun q hq => ((hheard clip shift).1 hshift q hq).resolve_left hgain⟩
  · intro h
    have hshift (clip : MontageClip ℚ) (hclip : clip ∈ p.montage) :
        ∃ shift, ∀ q ∈ p :: p.chunks cuts, ∀ streams, mixClip streams q (silent q) clip =
          window (spanSignal streams p clip shift) (p.sampleAt q.range.in_ * p.channels)
            (q.totalFrames * p.channels) := by
      rcases h clip hclip with hgain | ⟨shift, hshift⟩
      · exact ⟨0, (hheard clip 0).2 fun q hq => Or.inl hgain⟩
      · exact ⟨shift, (hheard clip shift).2 fun q hq => Or.inr (hshift q hq)⟩
    refine ⟨?_, hshift⟩
    choose! shift hshift using hshift
    exact rendered_of_heard hrange hhour hcuts hshift

/-- Two frames at 29.97 frames a second and 48 kHz, from the first frame of a clip on. -/
def dropFrame : AudioTicketParams where
  viewer := 1
  range := ⟨1001 / 30000, 1001 / 10000⟩
  sampleRate := 48000
  channelLayout := 3
  montage := [⟨"a.wav", 0, 1001 / 30000, 1001 / 7500, 0, 1, []⟩]

theorem renderAudioSamples_chunks_dropFrame :
    ChunkIndependent dropFrame [1001 / 15000, 1001 / 10000] ↔
      ∀ clip ∈ dropFrame.montage, clip.gain = 0 ∨
        ∃ shift, ∀ q ∈ dropFrame :: dropFrame.chunks [1001 / 15000, 1001 / 10000],
          Aligned q clip shift :=
  renderAudioSamples_chunks dropFrame _ (by norm_num [dropFrame]) (by norm_num [dropFrame])
    (by norm_num [dropFrame, Ascend])

/-- A stream with a click in the sample frame 1601. -/
def click : Streams := fun _ _ _ _ n => if n = 3202 then 1 / 2 else 0

/-- The only clip of `dropFrame`. -/
def dropFrameClip : MontageClip ℚ := ⟨"a.wav", 0, 1001 / 30000, 1001 / 7500, 0, 1, []⟩

theorem mixedSample_dropFrame : mixedSample click dropFrame dropFrameClip 3202 = 1 / 2 := by
  have hch : dropFrame.channels = 2 := rfl
  simp only [mixedSample, hch]
  norm_num [dropFrame, dropFrameClip, clipIn, clipOut, sampleAt, rate, roundAway, click]

theorem mixedSample_dropFrame_second :
    mixedSample click (dropFrame.during ⟨1001 / 15000, 1001 / 10000⟩) dropFrameClip 0 = 0 := by
  have hch : (dropFrame.during ⟨1001 / 15000, 1001 / 10000⟩).channels = 2 := rfl
  simp only [mixedSample, hch]
  norm_num [dropFrame, dropFrameClip, during, clipIn, clipOut, sampleAt, rate, roundAway, click]

theorem ChunkIndependent.flatMap_eq {p : AudioTicketParams} (h : ChunkIndependent p cuts)
    (hrange : p.range.in_ < p.range.out) (hhour : p.range.out - p.range.in_ ≤ 3600)
    (hcuts : Ascend p.range.in_ cuts p.range.out) (streams : Streams) :
    ((p.chunks cuts).flatMap fun q => mixAudioMontage streams q (silent q)) =
      mixAudioMontage streams p (silent p) := by
  obtain ⟨whole, parts, hwhole, hparts, hconcat, -⟩ := h.rendered streams
  rw [renderAudioSamples_eq_some hrange hhour, Option.some_inj] at hwhole
  subst hwhole
  refine Eq.trans ?_ hconcat
  have hchunk : ∀ q ∈ p.chunks cuts, renderAudioSamples streams q =
      some ⟨mixAudioMontage streams q (silent q), q.rate, q.channelLayout, q.channels⟩ := by
    intro q hq
    obtain ⟨range, rfl, hpos, hlen⟩ := exists_during hrange hcuts (List.mem_cons_of_mem p hq)
    exact renderAudioSamples_eq_some hpos (hlen.trans hhour)
  clear hconcat
  generalize p.chunks cuts = chunks at hparts hchunk
  induction hparts with
  | nil => rfl
  | cons hhead htail ih =>
    have hpart := hhead.1.symm.trans (hchunk _ List.mem_cons_self)
    rw [Option.some_inj] at hpart
    rw [List.flatMap_cons, List.flatMap_cons, hpart,
      ih fun q hq => hchunk q (List.mem_cons_of_mem _ hq)]

/-- Between the two frames, the second of which starts at the sample frame 3203, the sample frame
1601 of the clip is lost. -/
theorem renderAudioSamples_dropFrame :
    ¬ ChunkIndependent dropFrame [1001 / 15000, 1001 / 10000] := by
  intro h
  have hch : dropFrame.channels = 2 := rfl
  have htotal : dropFrame.totalFrames = 3203 := by
    norm_num [totalFrames, dropFrame, sampleAt, rate, roundAway]
    rfl
  have hfirst : (dropFrame.during ⟨1001 / 30000, 1001 / 15000⟩).totalFrames = 1601 := by
    norm_num [totalFrames, dropFrame, during, sampleAt, rate, roundAway]
    rfl
  have hsecond : (dropFrame.during ⟨1001 / 15000, 1001 / 10000⟩).totalFrames = 1602 := by
    norm_num [totalFrames, dropFrame, during, sampleAt, rate, roundAway]
    rfl
  have hwhole : (mixAudioMontage click dropFrame (silent dropFrame)).getD 3202 0 = 1 / 2 := by
    rw [getD_mixAudioMontage (by rw [htotal, hch]; omega)]
    show clampSample ([mixedSample click dropFrame dropFrameClip 3202].sum) = 1 / 2
    rw [List.sum_singleton, mixedSample_dropFrame]
    norm_num [clampSample]
  have hlost : (mixAudioMontage click (dropFrame.during ⟨1001 / 15000, 1001 / 10000⟩)
      (silent (dropFrame.during ⟨1001 / 15000, 1001 / 10000⟩))).getD 0 0 = 0 := by
    rw [getD_mixAudioMontage (by rw [hsecond]; exact Nat.mul_pos (by omega) (channels_pos _))]
    show clampSample ([mixedSample click (dropFrame.during ⟨1001 / 15000, 1001 / 10000⟩)
      dropFrameClip 0].sum) = 0
    rw [List.sum_singleton, mixedSample_dropFrame_second]
    norm_num [clampSample]
  have hconcat : mixAudioMontage click (dropFrame.during ⟨1001 / 30000, 1001 / 15000⟩)
      (silent (dropFrame.during ⟨1001 / 30000, 1001 / 15000⟩)) ++
      mixAudioMontage click (dropFrame.during ⟨1001 / 15000, 1001 / 10000⟩)
        (silent (dropFrame.during ⟨1001 / 15000, 1001 / 10000⟩)) =
      mixAudioMontage click dropFrame (silent dropFrame) := by
    rw [← h.flatMap_eq (by norm_num [dropFrame]) (by norm_num [dropFrame])
      (by norm_num [dropFrame, Ascend]) click]
    exact congrArg _ (List.append_nil _).symm
  have hlength : (mixAudioMontage click (dropFrame.during ⟨1001 / 30000, 1001 / 15000⟩)
      (silent (dropFrame.during ⟨1001 / 30000, 1001 / 15000⟩))).length = 3202 := by
    rw [length_mixAudioMontage, hfirst]
    rfl
  rw [← hconcat, List.getD_append_right _ _ _ _ hlength.le, hlength, Nat.sub_self, hlost] at hwhole
  norm_num at hwhole

end Oak.Mix
