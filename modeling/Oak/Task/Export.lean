import Oak.Render.AudioMontage
import Oak.Task.Render
import Mathlib.Algebra.Order.Floor.Semiring
import Mathlib.Order.Interval.Set.LinearOrder

/-!
# Exported timestamps

The range, the tickets and the encoder of an export: `ExportTask` of `oak-task/src/export.rs`,
`build_audio_ticket` and the frame times of `oak-task/src/render.rs`, and `write_video` and
`write_audio` of `oak-codec/src/ffmpeg.rs`. The hooks of the task are called in the order of the
slots (`Oak.Task.Render`). Video packets have the time of their frame as timestamp, audio packets a
running count of samples at the rate of the encoder.

Timestamps are exact: the time base of the encoder is fine enough, and a sample of the encoder has
all channels of a sample of the sequence. Both tracks are enabled.

* `Packet` is what a file shows from one time of the file up to another, and where in the sequence
  it comes from.
* `Plays` says that a track shows the times of a range from the start of the file on.
* `Viewer.clipsHeard` are the clips that the sequence has in a sample of a range. The ticket of an
  export has those clips only that play at the start of the range.

## Main results

* `plays_videoTrack_iff`, `plays_audioTrack_iff`: when the two tracks play a range.
* `exportTask_inSync_iff`: when an export plays it.
-/

namespace Oak.Task.Export

open Oak.Core Oak.Lib
open Oak.Mix (AudioTicketParams audioLayout placement)
open Oak.Render.Ipc (MontageClip)

/-! ### The code -/

/-- The encoding parameters that times depend on. -/
structure EncodingParams where
  videoTimeBaseNum : ℕ
  videoTimeBaseDen : ℕ
  num_pos : 0 < videoTimeBaseNum
  den_pos : 0 < videoTimeBaseDen
  audioSampleRate : ℤ
  hasCustomRange : Bool
  customRangeInNum : ℤ
  customRangeInDen : ℤ
  customRangeOutNum : ℤ
  customRangeOutDen : ℤ

/-- What the task reads from the sequence: `length` is its `node_length`, `frameRateAsTimeBase` that
of its video parameters, and `audioClips` the clips of its audio tracks that have footage. -/
structure Viewer where
  identity : ℕ
  length : Rational
  frameRateAsTimeBase : Option (ℤ × ℤ)
  sampleRate : ℤ
  channelLayout : BitVec 64
  audioClips : List (MontageClip ℚ)

/-- `ExportTask::export_range`. -/
def exportRange (viewer : Viewer) (params : EncodingParams) : TimeRange :=
  let in_ : Rational := params.customRangeInNum / params.customRangeInDen
  let out : Rational := params.customRangeOutNum / params.customRangeOutDen
  if params.hasCustomRange ∧ params.customRangeInDen ≠ 0 ∧ params.customRangeOutDen ≠ 0 ∧
      in_ < out then
    TimeRange.new in_ out
  else TimeRange.new 0 viewer.length

/-- `RenderTask::timebase`. -/
def timebase (viewer : Viewer) : Rational :=
  match viewer.frameRateAsTimeBase with
  | none => 1
  | some (num, den) => if num ≤ 0 ∨ den ≤ 0 then 1 else num / den

theorem timebase_pos (viewer : Viewer) : 0 < timebase viewer := by
  rw [timebase]
  split
  · exact one_pos
  · split_ifs with h
    · exact one_pos
    · rw [not_or, not_le, not_le] at h
      exact div_pos (Int.cast_pos.2 h.1) (Int.cast_pos.2 h.2)

/-- The task after `set_render_inputs`. -/
def renderTask (viewer : Viewer) (params : EncodingParams) (maxInflight : ℕ) : RenderTask where
  exportRange := exportRange viewer params
  timebase := timebase viewer
  timebase_pos := timebase_pos viewer
  audioEnabled := true
  maxInflight := maxInflight

/-- `RenderTask::audio_montage`: the clips that play at a time. -/
def audioMontage (viewer : Viewer) (time : Rational) : List (MontageClip ℚ) :=
  viewer.audioClips.filter fun clip => clip.inTime ≤ time ∧ time < clip.outTime

def buildAudioTicket (viewer : Viewer) (range : TimeRange) : AudioTicketParams where
  viewer := viewer.identity
  range := range
  sampleRate := viewer.sampleRate
  channelLayout := viewer.channelLayout
  montage := audioMontage viewer range.in_

/-- A clip is mixed into a sample of a ticket. -/
def Heard (p : AudioTicketParams) (m : ℕ) (clip : MontageClip ℚ) : Prop :=
  ∃ q ∈ placement p clip, q.startFrame ≤ m ∧ m < q.startFrame + q.frames

instance (p : AudioTicketParams) (m : ℕ) : DecidablePred (Heard p m) := fun clip =>
  inferInstanceAs (Decidable (∃ q ∈ placement p clip, _))

/-- A rendered sample: where in the sequence it is, and the clips that are mixed into it. -/
structure Sample where
  source : TimeRange
  clips : List (MontageClip ℚ)

/-- The samples of an audio ticket. -/
def sampleSources (p : AudioTicketParams) : List Sample :=
  (List.range p.totalFrames).map fun m : ℕ =>
    { source := ⟨p.range.in_ + m / p.rate, p.range.in_ + (m + 1) / p.rate⟩
      clips := p.montage.filter fun clip => Heard p m clip }

/-- A rendered frame. -/
structure Frame where
  timestamp : Rational
  source : TimeRange

def renderFrame (viewer : Viewer) (time : Rational) : Frame := ⟨time, time, time + timebase viewer⟩

/-- The packets of an output, with their timestamps in seconds and in samples. -/
structure OutputState where
  video : List (Rational × TimeRange)
  audio : List (ℤ × Sample)
  audioPts : ℤ

/-- How `write_audio` splits the samples of a call; the encoder and the resampler decide it. -/
structure Splitting where
  split : List Sample → List (List Sample)
  flatten_split : ∀ samples, (split samples).flatten = samples

namespace OutputState

def opened : OutputState := ⟨[], [], 0⟩

def writeVideo (s : OutputState) (frame : Frame) : OutputState :=
  { s with video := s.video ++ [(frame.timestamp, frame.source)] }

/-- One round of the loop of `write_audio`. -/
def writeChunk (s : OutputState) (chunk : List Sample) : OutputState :=
  { s with
    audio := s.audio ++ chunk.mapIdx fun i sample => (s.audioPts + i, sample)
    audioPts := s.audioPts + chunk.length }

def writeAudio (splitting : Splitting) (s : OutputState) (samples : List Sample) :
    OutputState :=
  (splitting.split samples).foldl writeChunk s

/-- A ticket of the export, rendered and handed to its hook. -/
def deliver (viewer : Viewer) (range : TimeRange) (splitting : Splitting) (s : OutputState)
    (slot : DeliverySlot) : Option OutputState :=
  if slot.audio then
    let ticket := buildAudioTicket viewer range
    (audioLayout ticket).map fun _ => s.writeAudio splitting (sampleSources ticket)
  else some (s.writeVideo (renderFrame viewer slot.time))

end OutputState

/-- What the encoder is given; `none` when a ticket fails. -/
def exportTask (viewer : Viewer) (params : EncodingParams) (maxInflight : ℕ)
    (splitting : Splitting) : Option OutputState :=
  let task := renderTask viewer params maxInflight
  task.slots.foldlM (OutputState.deliver viewer task.exportRange splitting) .opened

/-- The duration that the last packet gets. -/
def frameDuration (params : EncodingParams) : Rational :=
  params.videoTimeBaseNum / params.videoTimeBaseDen

/-- The rate that the audio encoder opens with. -/
def encoderRate (params : EncodingParams) : ℤ := max params.audioSampleRate 1

/-! ### Playing a file -/

structure Packet where
  start : Rational
  stop : Rational
  source : TimeRange

/-- The packet is presented at a time of the file. -/
def Packet.Shown (p : Packet) (s : Rational) : Prop := p.start ≤ s ∧ s < p.stop

/-- The track of a list of packets. Each is shown until the next one, the last for its duration. -/
def videoTrack (lastDuration : Rational) (video : List (Rational × TimeRange)) : List Packet :=
  video.mapIdx fun k packet =>
    { start := packet.1
      stop := (video[k + 1]?).elim (packet.1 + lastDuration) Prod.fst
      source := packet.2 }

/-- The track of a list of samples. -/
def audioTrack (rate : ℤ) (audio : List (ℤ × Sample)) : List Packet :=
  audio.map fun sample => ⟨sample.1 / rate, (sample.1 + 1) / rate, sample.2.source⟩

/-- The track lasts as long as the range, and what it shows at a time of the file comes from that
time of the range. -/
structure Plays (track : List Packet) (range : TimeRange) : Prop where
  shown : ∀ s, (∃ p ∈ track, p.Shown s) ↔ 0 ≤ s ∧ s < range.length
  source : ∀ p ∈ track, ∀ s, p.Shown s → p.source.contains (range.in_ + s) = true

/-- The clips of the sequence that are heard in a sample of a range. -/
def Viewer.clipsHeard (viewer : Viewer) (range : TimeRange) (m : ℕ) : List (MontageClip ℚ) :=
  viewer.audioClips.filter fun clip => Heard (buildAudioTicket viewer range) m clip

/-- The samples, in their order, have the sound of the sequence in a range. -/
def Sounds (viewer : Viewer) (range : TimeRange) (audio : List (ℤ × Sample)) : Prop :=
  ∀ m sample, audio[m]? = some sample → sample.2.clips = viewer.clipsHeard range m

/-- The export makes a file in which both tracks play its range, with the sound of the sequence. -/
def InSync (viewer : Viewer) (params : EncodingParams) (maxInflight : ℕ) (splitting : Splitting) :
    Prop :=
  ∃ output, exportTask viewer params maxInflight splitting = some output ∧
    Plays (videoTrack (frameDuration params) output.video) (exportRange viewer params) ∧
    Plays (audioTrack (encoderRate params) output.audio) (exportRange viewer params) ∧
    Sounds viewer (exportRange viewer params) output.audio

/-! ### What the encoder is given -/

section Output

variable {viewer : Viewer} {params : EncodingParams} {splitting : Splitting} {range : TimeRange}

theorem foldl_writeChunk (chunks : List (List Sample)) (s : OutputState) :
    chunks.foldl OutputState.writeChunk s =
      { s with
        audio := s.audio ++ chunks.flatten.mapIdx fun i sample => (s.audioPts + i, sample)
        audioPts := s.audioPts + chunks.flatten.length } := by
  induction chunks generalizing s with
  | nil =>
    rw [List.foldl_nil, List.flatten_nil, List.mapIdx_nil, List.append_nil, List.length_nil,
      Int.natCast_zero, add_zero]
  | cons chunk chunks ih =>
    rw [List.foldl_cons, ih, List.flatten_cons, List.mapIdx_append, List.length_append]
    simp only [OutputState.writeChunk, List.append_assoc, OutputState.mk.injEq, true_and]
    refine ⟨?_, by omega⟩
    congr 2
    refine congrArg (List.mapIdx · _) ?_
    funext i sample
    rw [Prod.mk.injEq]
    exact ⟨by omega, rfl⟩

theorem writeAudio_opened (samples : List Sample) :
    OutputState.opened.writeAudio splitting samples =
      ⟨[], samples.mapIdx fun i sample => ((i : ℤ), sample), samples.length⟩ := by
  rw [OutputState.writeAudio, foldl_writeChunk, splitting.flatten_split]
  simp only [OutputState.opened, List.nil_append, zero_add]

theorem foldlM_writeVideo (times : List Rational) (s : OutputState) :
    (times.map fun t => DeliverySlot.mk false t).foldlM
        (OutputState.deliver viewer range splitting) s =
      some { s with
        video := s.video ++ times.map fun t => (t, ⟨t, t + timebase viewer⟩) } := by
  induction times generalizing s with
  | nil => rw [List.map_nil, List.map_nil, List.append_nil, List.foldlM_nil]; rfl
  | cons t times ih =>
    rw [List.map_cons, List.foldlM_cons, OutputState.deliver, if_neg Bool.false_ne_true]
    exact (ih _).trans (by
      rw [OutputState.writeVideo, renderFrame, List.append_assoc, List.map_cons]
      rfl)

/-- An export gives the encoder its frames and its samples, unless its audio ticket fails. -/
theorem exportTask_eq (viewer : Viewer) (params : EncodingParams) (maxInflight : ℕ)
    (splitting : Splitting) :
    exportTask viewer params maxInflight splitting =
      (audioLayout (buildAudioTicket viewer (exportRange viewer params))).map fun _ =>
        { video := (renderTask viewer params maxInflight).frameTimes.map fun t =>
            (t, ⟨t, t + timebase viewer⟩)
          audio := (sampleSources (buildAudioTicket viewer (exportRange viewer params))).mapIdx
            fun i sample => ((i : ℤ), sample)
          audioPts :=
            (sampleSources (buildAudioTicket viewer (exportRange viewer params))).length } := by
  have hslots : (renderTask viewer params maxInflight).slots =
      ⟨true, (exportRange viewer params).in_⟩ ::
        (renderTask viewer params maxInflight).frameTimes.map fun t => ⟨false, t⟩ := rfl
  have haudio (time : Rational) :
      OutputState.deliver viewer (exportRange viewer params) splitting .opened ⟨true, time⟩ =
        (audioLayout (buildAudioTicket viewer (exportRange viewer params))).map fun _ =>
          OutputState.opened.writeAudio splitting
            (sampleSources (buildAudioTicket viewer (exportRange viewer params))) := rfl
  have hrange : (renderTask viewer params maxInflight).exportRange = exportRange viewer params :=
    rfl
  rw [exportTask, hslots, hrange, List.foldlM_cons, haudio]
  rcases audioLayout (buildAudioTicket viewer (exportRange viewer params)) with _ | layout
  · rfl
  · rw [Option.map_some, Option.map_some, writeAudio_opened]
    exact foldlM_writeVideo _ _

end Output

/-! ### The audio track -/

/-- A track of `n` packets at the rate `r`, from a source at the rate `q`. -/
def evenTrack (n : ℕ) (origin r q : ℚ) : List Packet :=
  (List.range n).map fun m : ℕ => ⟨m / r, (m + 1) / r, origin + m / q, origin + (m + 1) / q⟩

section Even

variable {n : ℕ} {r q s : ℚ} {range : TimeRange}

theorem exists_cell (hr : 0 < r) :
    (∃ m < n, (m / r : ℚ) ≤ s ∧ s < (m + 1) / r) ↔ 0 ≤ s ∧ s < n / r := by
  constructor
  · rintro ⟨m, hm, hle, hlt⟩
    have hmn : ((m : ℚ) + 1) / r ≤ n / r :=
      div_le_div_of_nonneg_right (by exact_mod_cast hm) hr.le
    exact ⟨le_trans (by positivity) hle, hlt.trans_le hmn⟩
  · rintro ⟨hpos, hlt⟩
    have hfloor : 0 ≤ s * r := mul_nonneg hpos hr.le
    rw [lt_div_iff₀ hr] at hlt
    refine ⟨⌊s * r⌋₊, (Nat.floor_lt hfloor).2 hlt, ?_, ?_⟩
    · rw [div_le_iff₀ hr]
      exact Nat.floor_le hfloor
    · rw [lt_div_iff₀ hr]
      exact Nat.lt_floor_add_one _

/-- What a track shows determines where it begins and how long it lasts. -/
theorem shown_iff_of_span {track : List Packet} {a b length : ℚ} (hlength : 0 < length)
    (htrack : ∀ s, (∃ p ∈ track, p.Shown s) ↔ a ≤ s ∧ s < b) :
    (∀ s, (∃ p ∈ track, p.Shown s) ↔ 0 ≤ s ∧ s < length) ↔ a = 0 ∧ b = length := by
  rw [← Set.Ico_eq_Ico_iff (Or.inr hlength), Set.ext_iff]
  exact forall_congr' fun s => iff_congr (htrack s) Iff.rfl

/-- A cell of a grid lies in the cell of another grid with the same number. -/
theorem cell_subset_iff (hr : 0 < r) (hq : 0 < q) (m : ℕ) :
    (∀ s, (m / r : ℚ) ≤ s ∧ s < (m + 1) / r → (m / q : ℚ) ≤ s ∧ s < (m + 1) / q) ↔
      q ≤ r ∧ (m = 0 ∨ r ≤ q) := by
  have hcell : (m / r : ℚ) < (m + 1) / r := div_lt_div_of_pos_right (lt_add_one _) hr
  have hsubset : Set.Ico (m / r : ℚ) ((m + 1) / r) ⊆ Set.Ico (m / q : ℚ) ((m + 1) / q) ↔ _ :=
    Set.Ico_subset_Ico_iff hcell
  have hstop : ((m + 1) / r : ℚ) ≤ (m + 1) / q ↔ q ≤ r :=
    div_le_div_iff_of_pos_left (by positivity) hr hq
  have hstart : (m / q : ℚ) ≤ m / r ↔ m = 0 ∨ r ≤ q := by
    rcases Nat.eq_zero_or_pos m with rfl | hm
    · simp only [Nat.cast_zero, zero_div, le_refl, true_or]
    · rw [div_le_div_iff_of_pos_left (by exact_mod_cast hm) hq hr, or_iff_right hm.ne']
  rw [hstart, hstop, and_comm] at hsubset
  exact hsubset

theorem mem_evenTrack {origin : ℚ} {p : Packet} :
    p ∈ evenTrack n origin r q ↔
      ∃ m < n, p = ⟨m / r, (m + 1) / r, origin + m / q, origin + (m + 1) / q⟩ := by
  simp only [evenTrack, List.mem_map, List.mem_range, eq_comm]

theorem plays_evenTrack_iff (hr : 0 < r) (hq : 0 < q) (hlength : 0 < range.length) :
    Plays (evenTrack n range.in_ r q) range ↔
      (n : ℚ) = range.length * r ∧ (r = q ∨ n = 1 ∧ q ≤ r) := by
  have hspan (s : ℚ) :
      (∃ p ∈ evenTrack n range.in_ r q, p.Shown s) ↔ 0 ≤ s ∧ s < n / r := by
    rw [← exists_cell hr]
    constructor
    · rintro ⟨p, hp, hs⟩
      obtain ⟨m, hm, rfl⟩ := mem_evenTrack.1 hp
      exact ⟨m, hm, hs⟩
    · rintro ⟨m, hm, hs⟩
      exact ⟨_, mem_evenTrack.2 ⟨m, hm, rfl⟩, hs⟩
  have hshown : (∀ s, (∃ p ∈ evenTrack n range.in_ r q, p.Shown s) ↔ 0 ≤ s ∧ s < range.length) ↔
      (n : ℚ) = range.length * r := by
    rw [shown_iff_of_span hlength hspan, div_eq_iff hr.ne']
    exact and_iff_right rfl
  have hsource : (∀ p ∈ evenTrack n range.in_ r q, ∀ s, p.Shown s →
      p.source.contains (range.in_ + s) = true) ↔ ∀ m < n, q ≤ r ∧ (m = 0 ∨ r ≤ q) := by
    constructor
    · intro h m hm
      rw [← cell_subset_iff hr hq]
      intro s hs
      have hcontains := h _ (mem_evenTrack.2 ⟨m, hm, rfl⟩) s hs
      rw [TimeRange.contains_iff] at hcontains
      exact ⟨le_of_add_le_add_left hcontains.1, lt_of_add_lt_add_left hcontains.2⟩
    · intro h p hp s hs
      obtain ⟨m, hm, rfl⟩ := mem_evenTrack.1 hp
      obtain ⟨hle, hlt⟩ := (cell_subset_iff hr hq m).2 (h m hm) s hs
      rw [TimeRange.contains_iff]
      exact ⟨add_le_add_right hle _, add_lt_add_right hlt _⟩
  constructor
  · intro h
    have hn := hshown.1 h.shown
    have hnpos : 0 < n := by
      have hpos : (0 : ℚ) < n := hn ▸ mul_pos hlength hr
      exact_mod_cast hpos
    have hrates := hsource.1 h.source
    refine ⟨hn, ?_⟩
    rcases Nat.lt_or_ge 1 n with hmany | hone
    · exact Or.inl (le_antisymm ((hrates 1 hmany).2.resolve_left Nat.one_ne_zero)
        (hrates 0 hnpos).1)
    · exact Or.inr ⟨le_antisymm hone hnpos, (hrates 0 hnpos).1⟩
  · rintro ⟨hn, hrates⟩
    refine ⟨hshown.2 hn, hsource.2 fun m hm => ?_⟩
    rcases hrates with rfl | ⟨rfl, hle⟩
    · exact ⟨le_rfl, Or.inr le_rfl⟩
    · exact ⟨hle, Or.inl (Nat.lt_one_iff.1 hm)⟩

end Even

/-! ### The video track -/

section Video

variable {task : RenderTask} {n : ℕ} {lastDuration s : Rational}

/-- The packets for the frames of a task. -/
def framePackets (task : RenderTask) : List (Rational × TimeRange) :=
  task.frameTimes.map fun t => (t, ⟨t, t + task.timebase⟩)

theorem exists_lastFrame (task : RenderTask) (hlength : 0 < task.exportRange.length) :
    ∃ n : ℕ, (n : ℤ) = ⌈task.exportRange.length / task.timebase⌉ - 1 ∧
      ∀ k : ℕ, task.exportRange.in_ + k * task.timebase < task.exportRange.out ↔ k ≤ n := by
  have hceil : 0 < ⌈task.exportRange.length / task.timebase⌉ :=
    Int.ceil_pos.2 (div_pos hlength task.timebase_pos)
  obtain ⟨n, hn⟩ := Int.eq_ofNat_of_zero_le
    (show 0 ≤ ⌈task.exportRange.length / task.timebase⌉ - 1 by omega)
  refine ⟨n, hn.symm, fun k => ?_⟩
  have hlt : task.exportRange.in_ + k * task.timebase < task.exportRange.out ↔
      (k : ℤ) < ⌈task.exportRange.length / task.timebase⌉ := by
    rw [Int.lt_ceil, lt_div_iff₀ task.timebase_pos, TimeRange.length, lt_sub_iff_add_lt',
      Int.cast_natCast]
  rw [hlt]
  omega

/-- The packet of the frame `k`. -/
def framePacket (task : RenderTask) (lastDuration : Rational) (n k : ℕ) : Packet where
  start := task.exportRange.in_ + k * task.timebase
  stop := if k < n then task.exportRange.in_ + (k + 1) * task.timebase
    else task.exportRange.in_ + k * task.timebase + lastDuration
  source := ⟨task.exportRange.in_ + k * task.timebase,
    task.exportRange.in_ + k * task.timebase + task.timebase⟩

theorem framePacket_stop_of_lt {k : ℕ} (h : k < n) : (framePacket task lastDuration n k).stop =
    task.exportRange.in_ + (k + 1) * task.timebase := if_pos h

theorem framePacket_stop_last (task : RenderTask) (lastDuration : Rational) (n : ℕ) :
    (framePacket task lastDuration n n).stop =
      task.exportRange.in_ + n * task.timebase + lastDuration := if_neg (lt_irrefl n)

section

variable (hlast : ∀ k : ℕ, task.exportRange.in_ + k * task.timebase < task.exportRange.out ↔ k ≤ n)

include hlast

theorem mem_videoTrack {p : Packet} :
    p ∈ videoTrack lastDuration (framePackets task) ↔
      ∃ k ≤ n, p = framePacket task lastDuration n k := by
  have hget (k : ℕ) : (framePackets task)[k]? =
      if k ≤ n then some (task.exportRange.in_ + k * task.timebase,
        ⟨task.exportRange.in_ + k * task.timebase,
          task.exportRange.in_ + k * task.timebase + task.timebase⟩) else none := by
    rw [framePackets, List.getElem?_map, RenderTask.getElem?_frameTimes]
    by_cases hk : k ≤ n
    · rw [if_pos ((hlast k).2 hk), if_pos hk, Option.map_some]
    · rw [if_neg (mt (hlast k).1 hk), if_neg hk, Option.map_none]
  rw [List.mem_iff_getElem?]
  refine exists_congr fun k => ?_
  rw [videoTrack, List.getElem?_mapIdx, hget k]
  by_cases hk : k ≤ n
  · have hstop : ((framePackets task)[k + 1]?).elim
        (task.exportRange.in_ + k * task.timebase + lastDuration) Prod.fst =
          (framePacket task lastDuration n k).stop := by
      rw [hget (k + 1)]
      rcases Nat.lt_or_eq_of_le hk with hlt | rfl
      · rw [if_pos (Nat.succ_le_of_lt hlt), framePacket_stop_of_lt hlt, Option.elim_some,
          Nat.cast_succ]
      · rw [if_neg (Nat.not_succ_le_self k), framePacket_stop_last, Option.elim_none]
    rw [if_pos hk, Option.map_some, Option.some_inj, hstop, and_iff_right hk]
    exact eq_comm
  · rw [if_neg hk, Option.map_none]
    exact iff_of_false nofun fun h => hk h.1

/-- The frames are shown from the start of the range on, without a gap. -/
theorem videoTrack_span (hduration : 0 < lastDuration) :
    (∃ p ∈ videoTrack lastDuration (framePackets task), p.Shown s) ↔
      task.exportRange.in_ ≤ s ∧ s < task.exportRange.in_ + n * task.timebase + lastDuration := by
  have htb := task.timebase_pos
  constructor
  · rintro ⟨p, hp, hstart, hstop⟩
    obtain ⟨k, hk, rfl⟩ := (mem_videoTrack hlast).1 hp
    have hpos : 0 ≤ (k : ℚ) * task.timebase := by positivity
    refine ⟨(le_add_of_nonneg_right hpos).trans hstart, hstop.trans_le ?_⟩
    rcases Nat.lt_or_eq_of_le hk with hlt | rfl
    · have hle : ((k : ℚ) + 1) * task.timebase ≤ n * task.timebase :=
        mul_le_mul_of_nonneg_right (by exact_mod_cast hlt) htb.le
      rw [framePacket_stop_of_lt hlt]
      linarith
    · rw [framePacket_stop_last]
  · rintro ⟨hstart, hstop⟩
    rcases le_or_gt (task.exportRange.in_ + n * task.timebase) s with hge | hlt
    · refine ⟨_, (mem_videoTrack hlast).2 ⟨n, le_rfl, rfl⟩, hge, ?_⟩
      rwa [framePacket_stop_last]
    · obtain ⟨k, hk, hle, hlt⟩ := (exists_cell (n := n) (s := s - task.exportRange.in_)
        (inv_pos.2 htb)).2 ⟨sub_nonneg.2 hstart, by rw [div_inv_eq_mul]; linarith⟩
      rw [div_inv_eq_mul] at hle hlt
      refine ⟨_, (mem_videoTrack hlast).2 ⟨k, hk.le, rfl⟩, ?_, ?_⟩
      · exact le_sub_iff_add_le'.1 hle
      · rw [framePacket_stop_of_lt hk]
        exact sub_lt_iff_lt_add'.1 hlt

end

/-- The video track plays a range that begins at zero, and whose last frame lasts as long as the
encoder says. -/
theorem plays_videoTrack_iff (hlength : 0 < task.exportRange.length)
    (hduration : 0 < lastDuration) :
    Plays (videoTrack lastDuration (framePackets task)) task.exportRange ↔
      task.exportRange.in_ = 0 ∧
        task.exportRange.length -
          (⌈task.exportRange.length / task.timebase⌉ - 1) * task.timebase = lastDuration := by
  obtain ⟨n, hn, hlast⟩ := exists_lastFrame task hlength
  have hcast : ((⌈task.exportRange.length / task.timebase⌉ : ℚ) - 1) = n := by
    exact_mod_cast hn.symm
  have hspan (s : ℚ) := videoTrack_span (s := s) hlast hduration
  have hshown := shown_iff_of_span hlength hspan
  rw [hcast, sub_eq_iff_eq_add']
  constructor
  · intro h
    obtain ⟨hin, hspan⟩ := hshown.1 h.shown
    exact ⟨hin, by rw [← hspan, hin, zero_add]⟩
  · rintro ⟨hin, hspan⟩
    refine ⟨hshown.2 ⟨hin, by rw [hspan, hin, zero_add]⟩, fun p hp s hs => ?_⟩
    obtain ⟨k, hk, rfl⟩ := (mem_videoTrack hlast).1 hp
    rw [TimeRange.contains_iff, hin, zero_add]
    refine ⟨hs.1, hs.2.trans_le ?_⟩
    rcases Nat.lt_or_eq_of_le hk with hlt | rfl
    · rw [framePacket_stop_of_lt hlt, framePacket]
      linarith
    · have hout := not_lt.1 (mt (hlast (k + 1)).1 (Nat.not_succ_le_self k))
      rw [framePacket_stop_last, framePacket]
      rw [TimeRange.length, hin] at hspan
      push_cast at hout
      linarith

end Video

/-! ### Both tracks -/

/-- When an export plays its range: the range begins at zero, is not longer than the audio renderer
allows, ends with a frame as long as one of the encoder, and has as many samples as the encoder
plays in its length; the two sample rates are the same, or there is only one sample; and the clips
that are heard in the range play at its start. -/
structure Lined (viewer : Viewer) (params : EncodingParams) : Prop where
  pos : 0 < (exportRange viewer params).length
  hour : (exportRange viewer params).length ≤ 3600
  start : (exportRange viewer params).in_ = 0
  lastFrame : (exportRange viewer params).length -
    (⌈(exportRange viewer params).length / timebase viewer⌉ - 1) * timebase viewer =
      frameDuration params
  samples : (roundAway ((exportRange viewer params).length * max viewer.sampleRate 1) : ℚ) =
    (exportRange viewer params).length * encoderRate params
  rate : encoderRate params = max viewer.sampleRate 1 ∨
    (exportRange viewer params).length * encoderRate params = 1 ∧
      max viewer.sampleRate 1 ≤ encoderRate params
  clips : ∀ clip ∈ viewer.audioClips,
    (placement (buildAudioTicket viewer (exportRange viewer params)) clip).isSome = true →
      clip.inTime ≤ (exportRange viewer params).in_ ∧ (exportRange viewer params).in_ < clip.outTime

theorem frameDuration_pos (params : EncodingParams) : 0 < frameDuration params :=
  div_pos (Nat.cast_pos.2 params.num_pos) (Nat.cast_pos.2 params.den_pos)

theorem encoderRate_pos (params : EncodingParams) : (0 : ℚ) < encoderRate params :=
  Int.cast_pos.2 (lt_max_of_lt_right Int.one_pos)

theorem audioTrack_sampleSources (p : AudioTicketParams) (rate : ℤ) :
    audioTrack rate ((sampleSources p).mapIdx fun i sample => ((i : ℤ), sample)) =
      evenTrack p.totalFrames p.range.in_ rate p.rate := by
  refine List.ext_getElem? fun m => ?_
  rw [audioTrack, evenTrack, sampleSources, List.getElem?_map, List.getElem?_mapIdx,
    List.getElem?_map, List.getElem?_map]
  rcases lt_or_ge m p.totalFrames with hm | hm
  · rw [List.getElem?_range hm]
    rfl
  · rw [List.getElem?_eq_none (by rwa [List.length_range])]
    rfl

/-- The audio track plays a range from zero on at the rate of the sequence, when it has as many
samples as last so long. -/
theorem plays_audioTrack_iff (viewer : Viewer) (params : EncodingParams)
    (hpos : 0 < (exportRange viewer params).length) (hin : (exportRange viewer params).in_ = 0) :
    Plays (audioTrack (encoderRate params)
        ((sampleSources (buildAudioTicket viewer (exportRange viewer params))).mapIdx
          fun i sample => ((i : ℤ), sample))) (exportRange viewer params) ↔
      (roundAway ((exportRange viewer params).length * max viewer.sampleRate 1) : ℚ) =
          (exportRange viewer params).length * encoderRate params ∧
        (encoderRate params = max viewer.sampleRate 1 ∨
          (exportRange viewer params).length * encoderRate params = 1 ∧
            max viewer.sampleRate 1 ≤ encoderRate params) := by
  have hrate : (buildAudioTicket viewer (exportRange viewer params)).rate =
      max viewer.sampleRate 1 := rfl
  have hratepos : (0 : ℚ) < max viewer.sampleRate 1 :=
    Int.cast_pos.2 (lt_max_of_lt_right Int.one_pos)
  have htotal : ((buildAudioTicket viewer (exportRange viewer params)).totalFrames : ℚ) =
      roundAway ((exportRange viewer params).length * max viewer.sampleRate 1) := by
    have h := Oak.Mix.totalFrames_eq
      (p := buildAudioTicket viewer (exportRange viewer params)) (sub_pos.1 hpos)
    have hstart : (buildAudioTicket viewer (exportRange viewer params)).range.in_ = 0 := hin
    have hzero : (buildAudioTicket viewer (exportRange viewer params)).sampleAt 0 = 0 := by
      rw [AudioTicketParams.sampleAt, zero_mul, ← Int.cast_zero, roundAway_intCast]
    rw [hstart, hzero, sub_zero] at h
    rw [TimeRange.length, hin, sub_zero]
    exact_mod_cast h
  rw [audioTrack_sampleSources, hrate, ← htotal]
  refine (plays_evenTrack_iff (encoderRate_pos params) hratepos hpos).trans ?_
  refine and_congr_right fun hn => or_congr ?_ (and_congr ?_ ?_)
  · exact Int.cast_inj
  · rw [← hn, Nat.cast_eq_one]
  · exact Int.cast_le

/-- A clip that is placed is heard in a sample of the ticket. -/
theorem exists_heard_iff {p : AudioTicketParams} {clip : MontageClip ℚ} :
    (∃ m < p.totalFrames, Heard p m clip) ↔ (placement p clip).isSome = true := by
  constructor
  · rintro ⟨m, -, q, hq, -⟩
    rw [Option.mem_def.1 hq, Option.isSome_some]
  · intro h
    obtain ⟨q, hq⟩ := Option.isSome_iff_exists.1 h
    have hplace := hq
    simp only [placement, ite_eq_iff, Option.some.injEq, reduceCtorEq, and_false, false_or,
      not_or, not_le] at hplace
    obtain ⟨⟨-, hstart, hframes⟩, rfl⟩ := hplace
    exact ⟨_, hstart, _, hq, le_rfl, Nat.lt_add_of_pos_right (Nat.pos_of_ne_zero hframes)⟩

/-- The samples of an export have the sound of the sequence when each clip that is heard plays at
the start of the range. -/
theorem sounds_iff (viewer : Viewer) (range : TimeRange) :
    Sounds viewer range ((sampleSources (buildAudioTicket viewer range)).mapIdx
        fun i sample => ((i : ℤ), sample)) ↔
      ∀ clip ∈ viewer.audioClips, (placement (buildAudioTicket viewer range) clip).isSome = true →
        clip.inTime ≤ range.in_ ∧ range.in_ < clip.outTime := by
  have hget (m : ℕ) (hm : m < (buildAudioTicket viewer range).totalFrames) :
      (((sampleSources (buildAudioTicket viewer range)).mapIdx
        fun i sample => ((i : ℤ), sample))[m]?).map (fun sample => sample.2.clips) =
      some ((audioMontage viewer range.in_).filter
        fun clip => Heard (buildAudioTicket viewer range) m clip) := by
    rw [List.getElem?_mapIdx, sampleSources, List.getElem?_map, List.getElem?_range hm]
    rfl
  constructor
  · intro h clip hclip hplaced
    obtain ⟨m, hm, hheard⟩ := exists_heard_iff.2 hplaced
    obtain ⟨sample, hsample, hclips⟩ := Option.map_eq_some_iff.1 (hget m hm)
    have hmem : clip ∈ viewer.clipsHeard range m :=
      List.mem_filter.2 ⟨hclip, decide_eq_true hheard⟩
    rw [← h m sample hsample, hclips] at hmem
    exact of_decide_eq_true (List.mem_filter.1 (List.mem_filter.1 hmem).1).2
  · intro h m sample hsample
    have hm : m < (buildAudioTicket viewer range).totalFrames := by
      have hlt := (List.getElem?_eq_some_iff.1 hsample).1
      rwa [List.length_mapIdx, sampleSources, List.length_map, List.length_range] at hlt
    have hclips := hget m hm
    rw [hsample, Option.map_some, Option.some_inj] at hclips
    rw [hclips, audioMontage, List.filter_filter, Viewer.clipsHeard]
    refine List.filter_congr fun clip hclip => ?_
    by_cases hheard : Heard (buildAudioTicket viewer range) m clip
    · have hplays := h clip hclip (exists_heard_iff.1 ⟨m, hm, hheard⟩)
      simp [hheard, hplays]
    · simp [hheard]

/-- An export makes a file unless its range is empty or too long for an audio ticket. -/
theorem inSync_iff_plays (viewer : Viewer) (params : EncodingParams) (maxInflight : ℕ)
    (splitting : Splitting) :
    InSync viewer params maxInflight splitting ↔
      (0 < (exportRange viewer params).length ∧ (exportRange viewer params).length ≤ 3600) ∧
        Plays (videoTrack (frameDuration params)
          (framePackets (renderTask viewer params maxInflight))) (exportRange viewer params) ∧
        Plays (audioTrack (encoderRate params)
          ((sampleSources (buildAudioTicket viewer (exportRange viewer params))).mapIdx
            fun i sample => ((i : ℤ), sample))) (exportRange viewer params) ∧
        Sounds viewer (exportRange viewer params)
          ((sampleSources (buildAudioTicket viewer (exportRange viewer params))).mapIdx
            fun i sample => ((i : ℤ), sample)) := by
  have hlayout : audioLayout (buildAudioTicket viewer (exportRange viewer params)) =
      if (exportRange viewer params).length ≤ 0 ∨
        3600 < (exportRange viewer params).length then none
      else some (max viewer.sampleRate 1, viewer.channelLayout,
        (buildAudioTicket viewer (exportRange viewer params)).channels,
        (buildAudioTicket viewer (exportRange viewer params)).totalFrames) := rfl
  have hvalid : (0 < (exportRange viewer params).length ∧
      (exportRange viewer params).length ≤ 3600) ↔
      ¬((exportRange viewer params).length ≤ 0 ∨ 3600 < (exportRange viewer params).length) := by
    rw [not_or, not_le, not_lt]
  rw [InSync, exportTask_eq, hlayout, hvalid]
  by_cases hbad : (exportRange viewer params).length ≤ 0 ∨ 3600 < (exportRange viewer params).length
  · rw [if_pos hbad]
    exact iff_of_false (fun ⟨_, hnone, _⟩ => nomatch hnone) fun h => h.1 hbad
  · rw [if_neg hbad, and_iff_right hbad]
    constructor
    · rintro ⟨output, houtput, hplays⟩
      obtain rfl := Option.some_inj.1 houtput
      exact hplays
    · exact fun hplays => ⟨_, rfl, hplays⟩

/-- An export plays its range exactly when `Lined` holds. -/
theorem exportTask_inSync_iff (viewer : Viewer) (params : EncodingParams) (maxInflight : ℕ)
    (splitting : Splitting) :
    InSync viewer params maxInflight splitting ↔ Lined viewer params := by
  rw [inSync_iff_plays]
  constructor
  · rintro ⟨⟨hpos, hhour⟩, hvideo, haudio, hsounds⟩
    obtain ⟨hin, hlast⟩ := (plays_videoTrack_iff hpos (frameDuration_pos params)).1 hvideo
    obtain ⟨hsamples, hrate⟩ := (plays_audioTrack_iff viewer params hpos hin).1 haudio
    exact ⟨hpos, hhour, hin, hlast, hsamples, hrate, (sounds_iff viewer _).1 hsounds⟩
  · intro h
    exact ⟨⟨h.pos, h.hour⟩,
      (plays_videoTrack_iff h.pos (frameDuration_pos params)).2 ⟨h.start, h.lastFrame⟩,
      (plays_audioTrack_iff viewer params h.pos h.start).2 ⟨h.samples, h.rate⟩,
      (sounds_iff viewer _).2 h.clips⟩

/-- Ten seconds at 25 frames a second and 48 kHz. -/
def tenSeconds : Viewer where
  identity := 1
  length := 10
  frameRateAsTimeBase := some (1, 25)
  sampleRate := 48000
  channelLayout := 3
  audioClips := []

/-- The second from one to two, at the rates of the sequence. -/
def secondSecond : EncodingParams where
  videoTimeBaseNum := 1
  videoTimeBaseDen := 25
  num_pos := by decide
  den_pos := by decide
  audioSampleRate := 48000
  hasCustomRange := true
  customRangeInNum := 1
  customRangeInDen := 1
  customRangeOutNum := 2
  customRangeOutDen := 1

theorem exportRange_secondSecond : exportRange tenSeconds secondSecond = ⟨1, 2⟩ := by
  norm_num [exportRange, secondSecond, TimeRange.new]

/-- All samples of a call in one frame. -/
def oneFrame : Splitting where
  split samples := [samples]
  flatten_split _ := List.flatten_singleton

/-- At the time zero of the file there is sound and no picture. -/
theorem exportTask_secondSecond : ¬ InSync tenSeconds secondSecond 1 oneFrame := by
  rw [inSync_iff_plays]
  rintro ⟨⟨hpos, -⟩, hvideo, -⟩
  have hstart := ((plays_videoTrack_iff hpos (frameDuration_pos secondSecond)).1 hvideo).1
  change (exportRange tenSeconds secondSecond).in_ = 0 at hstart
  rw [exportRange_secondSecond] at hstart
  exact one_ne_zero hstart

end Oak.Task.Export
