import Oak.Core.TimeRange
import Oak.Lib.Machine
import Oak.Lib.Rounding
import Oak.Lib.Signal

/-!
# Decoding audio

`retrieve_audio_to` of `oak-codec/src/ffmpeg.rs`. The decoder gives whole frames, so the samples of
a frame that lie past the range of a call are carried to the next call, which continues without a
seek when it starts where the last one ended.

The stream has the rate and the layout that the calls ask for, and its time base is one sample, so
that the resampler changes nothing and holds nothing back. A sample is that of all channels. Times
are exact.

* `AudioStream` is what the decoder reads, `AudioStream.signal` its samples.
* `DecoderState` is the part of a session that audio depends on, `AudioCall` a call with what the
  libraries do during it.
* `KeepsCarry` says that a call throws away no carried sample.

## Main results

* `retrieveAudioTo_run`: when no call throws a carried sample away, every call answers with the
  samples of its range.
* `retrieveAudioTo_short`: a range that is shorter than what is carried makes a hole.
-/

namespace Oak.Codec.Audio

open Oak.Core Oak.Lib

variable {α : Type*}

/-- An audio stream. -/
structure AudioStream (α : Type*) where
  frames : List (List α)
  ne_nil : ∀ frame ∈ frames, frame ≠ []
  sampleRate : ℕ
  sampleRate_pos : 0 < sampleRate
  channelLayout : ℕ
  silence : α

namespace AudioStream

variable (stream : AudioStream α)

/-- The samples of the stream, with silence outside it. -/
def signal : ℤ → α := valueAt stream.silence stream.frames.flatten

/-- The time base counts samples. -/
def timeBase : ℚ := 1 / stream.sampleRate

/-- The timestamp of the frame `k`. -/
def pts (k : ℕ) : ℤ := startOf stream.frames k

/-- The sample at a time. -/
def sampleAt (time : Rational) : ℤ := roundAway (time * stream.sampleRate)

def timestampToTime (timestamp : ℤ) : Rational := timestamp * stream.timeBase

def timeToTimestamp (time : Rational) : ℤ := roundAway (time * stream.timeBase⁻¹)

end AudioStream

open AudioStream

/-- What a session keeps for audio: `next` is the frame that the decoder gives next. -/
structure DecoderState (α : Type*) where
  next : ℕ
  eof : Bool
  contiguousEndSample : Option ℤ
  carry : List α
  carryStart : ℤ
  carryFormat : ℕ × ℕ

/-- A call of `retrieve_audio_to` for a range that is not empty. A seek to `target` leaves the
decoder at the frame `landing target`, or fails; `fault` is the number of frames after which the
decoder fails. -/
structure AudioCall (stream : AudioStream α) where
  range : TimeRange
  nonempty : range.in_ < range.out
  landing : ℤ → Option ℕ
  lands : ∀ target k, landing target = some k → (startOf stream.frames k : ℤ) ≤ max target 0
  fault : Option ℕ

/-! ### The code -/

/-- A session that was just opened. -/
def DecoderState.opened : DecoderState α := ⟨0, false, none, [], 0, (0, 0)⟩

/-- What `seek` does when the demuxer accepts it. -/
def DecoderState.seek (d : DecoderState α) (k : ℕ) : DecoderState α :=
  { d with next := k, eof := false, contiguousEndSample := none, carry := [] }

/-- The frames that `next_frame` still gives. -/
def DecoderState.rest (stream : AudioStream α) (d : DecoderState α) : List (List α) :=
  if d.eof then [] else stream.frames.drop d.next

/-- The carried samples that belong at the start of the range, and what is left of them. -/
def serveCarry (stream : AudioStream α) (contiguous : Bool) (start : ℤ) (d : DecoderState α)
    (dest : List α) : DecoderState α × List α :=
  if contiguous ∧ d.carryFormat = (stream.sampleRate, stream.channelLayout) ∧
      d.carryStart = start ∧ d.carry ≠ [] then
    let n := min d.carry.length dest.length
    ({ d with carry := d.carry.drop n, carryStart := d.carryStart + n },
      overwrite dest 0 (d.carry.take n))
  else ({ d with carry := [] }, dest)

/-- What the loop of a call works on. -/
structure Fill (α : Type*) where
  next : ℕ
  dest : List α
  newCarry : List α
  newCarryStart : ℤ

/-- The part of a frame that lies in the range. -/
def copyInto (dest : List α) (offset : ℤ) (converted : List α) : List α :=
  let copyStart := (max offset 0).toNat
  let copyEnd := (max (min (offset + converted.length) dest.length) 0).toNat
  if offset < dest.length ∧ 0 < offset + converted.length ∧ copyStart < copyEnd ∧
      copyEnd ≤ dest.length then
    overwrite dest copyStart
      ((converted.drop (copyStart - offset).toNat).take (copyEnd - copyStart))
  else dest

/-- One round of the loop with the frame `converted`, which is not empty. -/
def Fill.place (start frameStart : ℤ) (converted : List α) (s : Fill α) : Fill α :=
  let offset := frameStart - start
  let s' : Fill α :=
    { s with next := s.next + 1, dest := copyInto s.dest offset converted }
  if s.dest.length < offset + converted.length then
    let inside := (max 0 (min (s.dest.length - offset) converted.length)).toNat
    let pos := frameStart + inside
    if s.newCarry = [] ∨ pos ≠ s.newCarryStart + s.newCarry.length then
      { s' with newCarry := converted.drop inside, newCarryStart := pos }
    else { s' with newCarry := s.newCarry ++ converted.drop inside }
  else s'

/-- The loop over the frames, with whether it met the end of the stream. -/
def fill (stream : AudioStream α) (start : ℤ) :
    List (List α) → Option ℕ → Fill α → Option (Fill α × Bool)
  | [], fault, s => if fault = some 0 then none else some (s, true)
  | converted :: frames, fault, s =>
    if fault = some 0 then none
    else
      let frameStart := stream.sampleAt (stream.timestampToTime (stream.pts s.next))
      let s' := s.place start frameStart converted
      if s.dest.length ≤ frameStart - start + converted.length then some (s', false)
      else fill stream start frames (fault.map (· - 1)) s'

/-- The decoder at the start of the range: it is there when the range is contiguous. -/
def approach {stream : AudioStream α} (d : DecoderState α) (call : AudioCall stream)
    (contiguous : Bool) : Option (DecoderState α) :=
  if contiguous then some d
  else (call.landing (stream.timeToTimestamp call.range.in_)).map d.seek

/-- `retrieve_audio_to`, with the samples it answers with unless it fails. -/
def retrieveAudioTo {stream : AudioStream α} (d : DecoderState α) (call : AudioCall stream) :
    DecoderState α × Option (List α) :=
  let start := stream.sampleAt call.range.in_
  let finish := stream.sampleAt call.range.out
  let dest := List.replicate (finish - start).toNat stream.silence
  if finish ≤ start then (d, some dest)
  else
    let contiguous : Bool := d.contiguousEndSample = some start
    match approach d call contiguous with
    | none => (d, none)
    | some d =>
      let served := serveCarry stream contiguous start d dest
      -- A decoder that met the end of the stream is not asked again.
      let fault := if d.eof then none else call.fault
      match fill stream start (d.rest stream) fault
        ⟨d.next, served.2, [], start + served.2.length⟩ with
      -- Where the decoder is left does not matter: the next call has to seek.
      | none => ({ served.1 with contiguousEndSample := none, carry := [] }, none)
      | some (s, eof) =>
        (⟨s.next, eof, some (start + s.dest.length), s.newCarry, s.newCarryStart,
          (stream.sampleRate, stream.channelLayout)⟩, some s.dest)

/-- The session after a call. -/
def act {stream : AudioStream α} (d : DecoderState α) (call : AudioCall stream) : DecoderState α :=
  (retrieveAudioTo d call).1

/-! ### Statements -/

/-- The samples of the range of a call. -/
def AudioCall.expected {stream : AudioStream α} (call : AudioCall stream) : List α :=
  let start := stream.sampleAt call.range.in_
  window stream.signal start (stream.sampleAt call.range.out - start).toNat

/-- The call throws no carried sample away: when it is contiguous, what is carried begins where its
range begins and is not longer than its range. -/
def KeepsCarry {stream : AudioStream α} (d : DecoderState α) (call : AudioCall stream) : Prop :=
  let start := stream.sampleAt call.range.in_
  start < stream.sampleAt call.range.out → d.contiguousEndSample = some start → d.carry ≠ [] →
    d.carryStart = start ∧ start + d.carry.length ≤ stream.sampleAt call.range.out

instance {stream : AudioStream α} (d : DecoderState α) (call : AudioCall stream) :
    Decidable (KeepsCarry d call) :=
  inferInstanceAs (Decidable (_ < _ → _ = _ → _ ≠ [] → _ = _ ∧ _ ≤ _))

variable {stream : AudioStream α} {start : ℤ} {d : DecoderState α}

/-- The stream is silent from `n` on. -/
def AudioStream.SilentFrom (stream : AudioStream α) (n : ℤ) : Prop :=
  ∀ m, n ≤ m → stream.signal m = stream.silence

/-- What a session knows where the next range may continue: the carried samples are those before
the next frame, or the stream has ended. -/
def Continues (stream : AudioStream α) (d : DecoderState α) (n : ℤ) : Prop :=
  (d.eof = true ∧ d.carry = [] ∧ stream.SilentFrom n) ∨
  (d.eof = false ∧ d.carryStart = max n 0 ∧
    d.carryStart + d.carry.length = startOf stream.frames d.next ∧
    d.carry = window stream.signal d.carryStart d.carry.length)

/-- The invariant of a session. -/
structure InSync (stream : AudioStream α) (d : DecoderState α) : Prop where
  format : d.carry ≠ [] → d.carryFormat = (stream.sampleRate, stream.channelLayout)
  continues : ∀ n, d.contiguousEndSample = some n → Continues stream d n

theorem inSync_opened : InSync stream .opened := ⟨fun h => absurd rfl h, fun _ h => nomatch h⟩

/-! ### Times -/

theorem AudioStream.timeToTimestamp_eq (time : Rational) :
    stream.timeToTimestamp time = stream.sampleAt time := by
  rw [timeToTimestamp, sampleAt, timeBase, one_div, inv_inv]

theorem AudioStream.sampleAt_timestampToTime (timestamp : ℤ) :
    stream.sampleAt (stream.timestampToTime timestamp) = timestamp := by
  have hrate : (stream.sampleRate : ℚ) ≠ 0 := Nat.cast_ne_zero.2 stream.sampleRate_pos.ne'
  rw [sampleAt, timestampToTime, timeBase, one_div, mul_assoc, inv_mul_cancel₀ hrate, mul_one,
    roundAway_intCast]

theorem AudioStream.silentFrom_length :
    stream.SilentFrom (stream.frames.flatten.length : ℤ) := fun _ hm => valueAt_of_length_le hm

theorem AudioStream.signal_of_neg {n : ℤ} (hn : n < 0) : stream.signal n = stream.silence :=
  valueAt_of_neg hn

variable {k : ℕ}

theorem AudioStream.signal_frame {frame : List α} (hframe : stream.frames[k]? = some frame) {n : ℤ}
    (h₁ : startOf stream.frames k ≤ n) (h₂ : n < startOf stream.frames k + frame.length) :
    stream.signal n = frame.getD (n - startOf stream.frames k).toNat stream.silence := by
  rw [← valueAt_flatten hframe (by omega), signal]
  congr 1
  omega

/-! ### One round -/

theorem copyInto_spec (dest converted : List α) (offset : ℤ) (silence : α) :
    (copyInto dest offset converted).length = dest.length ∧ ∀ i < dest.length,
      (copyInto dest offset converted).getD i silence =
        if offset ≤ i ∧ i < offset + converted.length then
          converted.getD (i - offset).toNat silence
        else dest.getD i silence := by
  rw [copyInto]
  generalize hfrom : (max offset 0).toNat = copyStart
  generalize hto : (max (min (offset + converted.length) dest.length) 0).toNat = copyEnd
  split_ifs with h
  · have hlength : ((converted.drop (copyStart - offset).toNat).take
        (copyEnd - copyStart)).length = copyEnd - copyStart := by
      rw [List.length_take, List.length_drop]
      omega
    refine ⟨length_overwrite (by omega), fun i hi => ?_⟩
    rw [getD_overwrite (by omega), hlength]
    by_cases hin : copyStart ≤ i ∧ i < copyStart + (copyEnd - copyStart)
    · rw [if_pos hin, if_pos (by omega), List.getD_eq_getElem?_getD, List.getD_eq_getElem?_getD,
        List.getElem?_take_of_lt (by omega), List.getElem?_drop]
      congr 2
      omega
    · rw [if_neg hin, if_neg (by omega)]
  · refine ⟨rfl, fun i hi => ?_⟩
    rw [if_neg (by omega)]

/-- What a round of the loop finds: the samples before the next frame have been copied. -/
structure Filling (stream : AudioStream α) (start : ℤ) (s : Fill α) : Prop where
  copied : ∀ i < s.dest.length, s.dest.getD i stream.silence =
    if start + i < startOf stream.frames s.next then stream.signal (start + i) else stream.silence
  newCarry : s.newCarry = []
  newCarryStart : s.newCarryStart = start + s.dest.length
  next_le : (startOf stream.frames s.next : ℤ) ≤ max (start + s.dest.length) 0

/-- What the loop leaves behind: the range, and what a session has to know for the next one. -/
structure Filled (stream : AudioStream α) (start : ℤ) (n : ℕ) (s : Fill α) (eof : Bool) : Prop where
  dest : s.dest = window stream.signal start n
  continues : (eof = true ∧ s.newCarry = [] ∧ stream.SilentFrom (start + n)) ∨
    (eof = false ∧ s.newCarryStart = max (start + n) 0 ∧
      s.newCarryStart + s.newCarry.length = startOf stream.frames s.next ∧
      s.newCarry = window stream.signal s.newCarryStart s.newCarry.length)

section Round

variable {s : Fill α} {frame : List α}

theorem place_dest (start frameStart : ℤ) (frame : List α) (s : Fill α) :
    (s.place start frameStart frame).next = s.next + 1 ∧
      (s.place start frameStart frame).dest = copyInto s.dest (frameStart - start) frame := by
  rw [Fill.place]
  dsimp only
  split_ifs <;> exact ⟨rfl, rfl⟩

theorem place_of_le {frameStart : ℤ} (h : frameStart - start + frame.length ≤ s.dest.length) :
    (s.place start frameStart frame).newCarry = s.newCarry ∧
      (s.place start frameStart frame).newCarryStart = s.newCarryStart := by
  rw [Fill.place]
  dsimp only
  rw [if_neg (by omega)]
  exact ⟨rfl, rfl⟩

theorem place_of_lt {frameStart : ℤ} (hcarry : s.newCarry = [])
    (h : s.dest.length < frameStart - start + frame.length) :
    (s.place start frameStart frame).newCarryStart = max (start + s.dest.length) frameStart ∧
      (s.place start frameStart frame).newCarry =
        frame.drop (start + s.dest.length - frameStart).toNat := by
  rw [Fill.place]
  dsimp only
  rw [if_pos (by omega), if_pos (Or.inl hcarry)]
  constructor
  · dsimp only
    omega
  · dsimp only
    congr 1
    omega

section

variable (h : Filling stream start s) (hframe : stream.frames[s.next]? = some frame)

include h hframe

theorem Filling.copied_place :
    let s' := s.place start (startOf stream.frames s.next) frame
    s'.dest.length = s.dest.length ∧ ∀ i < s.dest.length, s'.dest.getD i stream.silence =
      if start + i < startOf stream.frames s'.next then stream.signal (start + i)
      else stream.silence := by
  intro s'
  obtain ⟨hnext, hdest⟩ := place_dest start (startOf stream.frames s.next) frame s
  obtain ⟨hlength, hvalue⟩ :=
    copyInto_spec s.dest frame (startOf stream.frames s.next - start) stream.silence
  refine ⟨(congrArg List.length hdest).trans hlength, fun i hi => ?_⟩
  rw [hdest, hvalue i hi, hnext, startOf_succ hframe, h.copied i hi, Nat.cast_add]
  by_cases hin : (startOf stream.frames s.next : ℤ) - start ≤ i ∧
      (i : ℤ) < startOf stream.frames s.next - start + frame.length
  · rw [if_pos hin, if_pos (by omega), signal_frame hframe (by omega) (by omega)]
    congr 2
    omega
  · rw [if_neg hin]
    by_cases hbefore : start + i < startOf stream.frames s.next
    · rw [if_pos hbefore, if_pos (by omega)]
    · rw [if_neg hbefore, if_neg (by omega)]

/-- A frame that ends before the range does leaves more to copy. -/
theorem Filling.place (hlt : startOf stream.frames s.next - start + frame.length < s.dest.length) :
    Filling stream start (s.place start (startOf stream.frames s.next) frame) := by
  obtain ⟨hlength, hcopied⟩ := h.copied_place hframe
  obtain ⟨hcarry, hcarryStart⟩ := place_of_le hlt.le
  refine ⟨fun i hi => hcopied i (hlength ▸ hi), hcarry.trans h.newCarry, ?_, ?_⟩
  · rw [hcarryStart, h.newCarryStart, hlength]
  · rw [(place_dest _ _ _ _).1, startOf_succ hframe, hlength]
    omega

/-- A frame that reaches the end of the range completes it. -/
theorem Filling.place_last
    (hle : s.dest.length ≤ startOf stream.frames s.next - start + frame.length) :
    Filled stream start s.dest.length (s.place start (startOf stream.frames s.next) frame)
      false := by
  obtain ⟨hlength, hcopied⟩ := h.copied_place hframe
  have hnext : startOf stream.frames (s.place start (startOf stream.frames s.next) frame).next =
      startOf stream.frames s.next + frame.length := by
    rw [(place_dest _ _ _ _).1, startOf_succ hframe]
  refine ⟨eq_window stream.silence hlength fun i hi => ?_, Or.inr ⟨rfl, ?_⟩⟩
  · rw [hcopied i hi, hnext, if_pos (by omega)]
  have hbegin := h.next_le
  rw [hnext]
  rcases hle.lt_or_eq with hlt | heq
  · obtain ⟨hcarryStart, hcarry⟩ := place_of_lt h.newCarry hlt
    rw [hcarryStart, hcarry, List.length_drop]
    refine ⟨by omega, by omega, eq_window stream.silence List.length_drop fun i hi => ?_⟩
    rw [signal_frame hframe (by omega) (by omega), List.getD_eq_getElem?_getD,
      List.getElem?_drop, ← List.getD_eq_getElem?_getD]
    congr 1
    omega
  · obtain ⟨hcarry, hcarryStart⟩ := place_of_le heq.ge
    rw [hcarryStart, hcarry, h.newCarry, h.newCarryStart, List.length_nil]
    exact ⟨by omega, by omega, rfl⟩

end

/-- A stream that ends before the range does leaves the rest of the range silent. -/
theorem Filling.silent (h : Filling stream start s) (hnext : stream.frames.length ≤ s.next) :
    Filled stream start s.dest.length s true := by
  have hlength := startOf_of_length_le hnext
  have hbegin := h.next_le
  refine ⟨eq_window stream.silence rfl fun i hi => ?_, Or.inl ⟨rfl, h.newCarry, fun n hn => ?_⟩⟩
  · rw [h.copied i hi]
    split_ifs with hlt
    · rfl
    · exact (silentFrom_length _ (by omega)).symm
  · rcases lt_or_ge n 0 with hneg | hnonneg
    · exact signal_of_neg hneg
    · exact silentFrom_length _ (by omega)

end Round

variable {fault : Option ℕ} {eof : Bool}

theorem Filling.fill {s s' : Fill α} (h : Filling stream start s)
    (hfill : fill stream start (stream.frames.drop s.next) fault s = some (s', eof)) :
    Filled stream start s.dest.length s' eof := by
  generalize hframes : stream.frames.drop s.next = frames at hfill
  induction frames generalizing s fault with
  | nil =>
    rw [Audio.fill] at hfill
    split_ifs at hfill
    cases hfill
    exact h.silent (List.drop_eq_nil_iff.1 hframes)
  | cons frame frames ih =>
    have hframe : stream.frames[s.next]? = some frame := by
      rw [← List.head?_drop, hframes, List.head?_cons]
    have hrest : stream.frames.drop (s.next + 1) = frames := by
      rw [← List.tail_drop, hframes, List.tail_cons]
    rw [Audio.fill] at hfill
    simp only [sampleAt_timestampToTime, pts] at hfill
    split_ifs at hfill with _ hlast
    · cases hfill
      exact h.place_last hframe hlast
    · rw [← (h.copied_place hframe).1]
      refine ih (h.place hframe (not_le.1 hlast)) ?_ hfill
      rw [(place_dest _ _ _ _).1, hrest]

/-! ### Calls -/

section Served

variable {n : ℕ} {call : AudioCall stream}

/-- The loop begins with silence where the decoder is not past the start of the range. -/
theorem filling_silence (hk : (startOf stream.frames k : ℤ) ≤ max start 0) :
    Filling stream start ⟨k, .replicate n stream.silence, [], start + n⟩ := by
  refine ⟨fun i hi => ?_, rfl, ?_, ?_⟩
  · dsimp only at hi ⊢
    rw [List.length_replicate] at hi
    rw [List.getD_replicate _ hi]
    split_ifs with hlt
    · exact (signal_of_neg (by omega)).symm
    · rfl
  · rw [List.length_replicate]
  · dsimp only
    omega

theorem filling_carry {carry : List α} (hlength : carry.length ≤ n)
    (hk : start + carry.length = startOf stream.frames k)
    (hcarry : carry = window stream.signal start carry.length) :
    Filling stream start
      ⟨k, overwrite (.replicate n stream.silence) 0 carry, [], start + n⟩ := by
  have hroom : 0 + carry.length ≤ (List.replicate n stream.silence).length := by
    rw [List.length_replicate]
    omega
  refine ⟨fun i hi => ?_, rfl, ?_, ?_⟩
  · dsimp only at hi ⊢
    rw [length_overwrite hroom, List.length_replicate] at hi
    rw [getD_overwrite hroom, List.getD_replicate _ hi]
    by_cases hin : i < carry.length
    · rw [if_pos (by omega), if_pos (by omega), hcarry, Nat.sub_zero, getD_window hin]
    · rw [if_neg (by omega), if_neg (by omega)]
  · rw [length_overwrite hroom, List.length_replicate]
  · dsimp only
    rw [length_overwrite hroom, List.length_replicate]
    omega

theorem length_serveCarry (contiguous : Bool) (start : ℤ) (d : DecoderState α) (dest : List α) :
    (serveCarry stream contiguous start d dest).2.length = dest.length := by
  rw [serveCarry]
  split_ifs
  · refine length_overwrite ?_
    rw [List.length_take]
    omega
  · rfl

theorem serveCarry_not_contiguous (d : DecoderState α) (dest : List α) :
    serveCarry stream false start d dest = ({ d with carry := [] }, dest) :=
  if_neg fun h => Bool.false_ne_true h.1

theorem serveCarry_nil {contiguous : Bool} (hcarry : d.carry = []) (dest : List α) :
    serveCarry stream contiguous start d dest = ({ d with carry := [] }, dest) :=
  if_neg fun h => h.2.2.2 hcarry

/-- A carry that is not longer than the range is served whole. -/
theorem serveCarry_whole {dest : List α}
    (hformat : d.carryFormat = (stream.sampleRate, stream.channelLayout))
    (hstart : d.carryStart = start) (hcarry : d.carry ≠ []) (hlength : d.carry.length ≤ dest.length) :
    (serveCarry stream true start d dest).2 = overwrite dest 0 d.carry := by
  rw [serveCarry, if_pos ⟨rfl, hformat, hstart, hcarry⟩]
  dsimp only
  rw [Nat.min_eq_left hlength, List.take_length]

theorem fill_seek (hk : (startOf stream.frames k : ℤ) ≤ max start 0)
    {s : Fill α}
    (hfill : fill stream start (stream.frames.drop k) fault
      ⟨k, .replicate n stream.silence, [], start + n⟩ = some (s, eof)) :
    Filled stream start n s eof := by
  have h := (filling_silence (n := n) hk).fill hfill
  rwa [List.length_replicate] at h

/-- Where the range continues the one before, it is filled if no carried sample is thrown away. -/
theorem fill_contiguous (h : InSync stream d) (hend : d.contiguousEndSample = some start)
    (hkeeps : d.carry ≠ [] → d.carryStart = start ∧ d.carry.length ≤ n)
    {s : Fill α} (hfault : d.eof = true → fault = none)
    (hfill : fill stream start (d.rest stream) fault
      ⟨d.next, (serveCarry stream true start d (.replicate n stream.silence)).2, [], start + n⟩ =
        some (s, eof)) : Filled stream start n s eof := by
  rcases h.continues start hend with ⟨heof, hcarry, hsilent⟩ | ⟨heof, hbegin, hnext, hwindow⟩
  · rw [DecoderState.rest, if_pos heof, serveCarry_nil hcarry, hfault heof, fill,
      if_neg (by simp)] at hfill
    cases hfill
    refine ⟨eq_window stream.silence List.length_replicate fun i hi => ?_,
      Or.inl ⟨rfl, rfl, fun m hm => hsilent m (by omega)⟩⟩
    dsimp only
    rw [List.getD_replicate _ hi, hsilent _ (by omega)]
  rw [DecoderState.rest, if_neg (by simp [heof])] at hfill
  by_cases hcarry : d.carry = []
  · rw [serveCarry_nil hcarry] at hfill
    rw [hcarry, List.length_nil] at hnext
    exact fill_seek (by omega) hfill
  · obtain ⟨hstart, hlength⟩ := hkeeps hcarry
    rw [hstart] at hnext hwindow
    rw [serveCarry_whole (h.format hcarry) hstart hcarry (by rwa [List.length_replicate])] at hfill
    have hfilled := (filling_carry hlength hnext hwindow).fill hfill
    rwa [length_overwrite (by rw [List.length_replicate]; omega), List.length_replicate]
      at hfilled

end Served

theorem inSync_failed (d : DecoderState α) :
    InSync stream { d with contiguousEndSample := none, carry := [] } :=
  ⟨fun h => absurd rfl h, fun _ h => nomatch h⟩

theorem Filled.inSync {n : ℕ} {s : Fill α} (h : Filled stream start n s eof) :
    InSync stream ⟨s.next, eof, some (start + s.dest.length), s.newCarry, s.newCarryStart,
      (stream.sampleRate, stream.channelLayout)⟩ := by
  refine ⟨fun _ => rfl, fun m hm => ?_⟩
  rw [← Option.some.inj hm, h.dest, length_window]
  exact h.continues

theorem approach_spec {call : AudioCall stream} {contiguous : Bool} {d' : DecoderState α}
    (h : approach d call contiguous = some d') :
    (contiguous = true ∧ d' = d) ∨ (contiguous = false ∧ ∃ k, d' = d.seek k ∧
      (startOf stream.frames k : ℤ) ≤ max (stream.sampleAt call.range.in_) 0) := by
  rw [approach] at h
  split_ifs at h with hcontiguous
  · exact Or.inl ⟨hcontiguous, (Option.some.inj h).symm⟩
  · obtain ⟨k, hk, rfl⟩ := Option.map_eq_some_iff.1 h
    have hlands := call.lands _ k hk
    rw [timeToTimestamp_eq] at hlands
    exact Or.inr ⟨Bool.eq_false_iff.2 hcontiguous, k, rfl, hlands⟩

/-- A call that throws no carried sample away keeps the session in sync and answers with the
samples of its range. -/
theorem retrieveAudioTo_spec (h : InSync stream d) {call : AudioCall stream}
    (hkeeps : KeepsCarry d call) :
    InSync stream (act d call) ∧
      ∀ dest, (retrieveAudioTo d call).2 = some dest → dest = call.expected := by
  rw [act, AudioCall.expected, retrieveAudioTo]
  rw [KeepsCarry] at hkeeps
  have happroach (contiguous : Bool) (d' : DecoderState α)
      (h : approach d call contiguous = some d') := approach_spec h
  generalize stream.sampleAt call.range.in_ = start at hkeeps happroach ⊢
  generalize stream.sampleAt call.range.out = finish at hkeeps ⊢
  dsimp only at hkeeps ⊢
  split_ifs with hlt
  · refine ⟨h, fun dest hdest => ?_⟩
    rw [← Option.some.inj hdest, Int.toNat_of_nonpos (by omega), List.replicate_zero]
    rfl
  rcases hd' : approach d call (decide (d.contiguousEndSample = some start)) with _ | d'
  · exact ⟨h, fun _ hdest => nomatch hdest⟩
  dsimp only
  rw [length_serveCarry, List.length_replicate]
  rcases hfill : fill stream start (d'.rest stream) (if d'.eof then none else call.fault)
    ⟨d'.next, (serveCarry stream (decide (d.contiguousEndSample = some start)) start d'
      (.replicate (finish - start).toNat stream.silence)).2, [],
      start + (finish - start).toNat⟩ with _ | ⟨s, eof⟩
  · exact ⟨inSync_failed _, fun _ hdest => nomatch hdest⟩
  have hfilled : Filled stream start (finish - start).toNat s eof := by
    rcases happroach _ d' hd' with ⟨hcontiguous, rfl⟩ | ⟨hcontiguous, k, rfl, hk⟩
    · have hend := of_decide_eq_true hcontiguous
      rw [hcontiguous] at hfill
      refine fill_contiguous h hend (fun hcarry => ?_) (fun heof => if_pos heof) hfill
      obtain ⟨hbegin, hlength⟩ := hkeeps (not_le.1 hlt) hend hcarry
      exact ⟨hbegin, by omega⟩
    · rw [hcontiguous, serveCarry_not_contiguous] at hfill
      exact fill_seek hk hfill
  exact ⟨hfilled.inSync, fun _ hdest => (Option.some.inj hdest).symm.trans hfilled.dest⟩

/-- A run in which no carried sample is thrown away keeps the session in sync. -/
theorem inSync_run {calls : List (AudioCall stream)}
    (hcalls : Permitted act KeepsCarry d calls) (h : InSync stream d) :
    InSync stream (run act d calls) :=
  invariant_run (I := InSync stream) (fun _ _ hd hkeeps => (retrieveAudioTo_spec hd hkeeps).1) h
    hcalls

/-- In a run in which no carried sample is thrown away every call that succeeds answers with the
samples of its range. -/
theorem retrieveAudioTo_run {stream : AudioStream α} {calls : List (AudioCall stream)}
    (hcalls : Permitted act KeepsCarry .opened calls) {before after : List (AudioCall stream)}
    {call : AudioCall stream} (hsplit : calls = before ++ call :: after) {dest : List α}
    (hdest : (retrieveAudioTo (run act .opened before) call).2 = some dest) :
    dest = call.expected := by
  rw [hsplit, permitted_append] at hcalls
  exact (retrieveAudioTo_spec (inSync_run hcalls.1 inSync_opened) hcalls.2.1).2 dest hdest

/-! ### A short range -/

/-- Two frames of four samples each. -/
def twoFrames : AudioStream ℕ where
  frames := [[1, 2, 3, 4], [5, 6, 7, 8]]
  ne_nil := by decide
  sampleRate := 1
  sampleRate_pos := Nat.one_pos
  channelLayout := 4
  silence := 0

theorem startOf_zero_le (frames : List (List ℕ)) (target : ℤ) (hk : some 0 = some k) :
    (startOf frames k : ℤ) ≤ max target 0 := by
  rw [← Option.some.inj hk, startOf_zero]
  exact le_max_right _ _

/-- A call for the samples from `start` on, where every seek goes to the first frame. -/
def callAt (start : ℤ) (n : ℕ) (hn : 0 < n) : AudioCall twoFrames where
  range := ⟨start, start + n⟩
  nonempty := lt_add_of_pos_right _ (Nat.cast_pos.2 hn)
  landing _ := some 0
  lands target _ hk := startOf_zero_le _ target hk
  fault := none

/-- A range that is shorter than what is carried makes a hole: the third sample and the fourth one
are thrown away when the second one is served. -/
theorem retrieveAudioTo_short :
    ¬ ∀ (before : List (AudioCall twoFrames)) (call : AudioCall twoFrames) (dest : List ℕ),
      (retrieveAudioTo (run act .opened before) call).2 = some dest → dest = call.expected := by
  intro h
  have hthird : [0] = (callAt 2 1 Nat.one_pos).expected :=
    h [callAt 0 1 Nat.one_pos, callAt 1 1 Nat.one_pos] (callAt 2 1 Nat.one_pos) [0]
      (by decide +kernel)
  exact absurd hthird (by decide +kernel)

/-- Two ranges of which the second one begins where the first one ends. -/
theorem retrieveAudioTo_run_callAt :
    (retrieveAudioTo (run act .opened [callAt 0 3 (by omega)]) (callAt 3 4 (by omega))).2 =
        some [4, 5, 6, 7] ∧
      [4, 5, 6, 7] = (callAt 3 4 (by omega)).expected :=
  have hanswer : (retrieveAudioTo (run act .opened [callAt 0 3 (by omega)])
      (callAt 3 4 (by omega))).2 = some [4, 5, 6, 7] := by decide +kernel
  have hcalls : Permitted act KeepsCarry .opened
      [callAt 0 3 (by omega), callAt 3 4 (by omega)] := by decide +kernel
  have hsplit : [callAt 0 3 (by omega), callAt 3 4 (by omega)] =
      [callAt 0 3 (by omega)] ++ callAt 3 4 (by omega) :: [] := rfl
  ⟨hanswer, retrieveAudioTo_run hcalls hsplit hanswer⟩

end Oak.Codec.Audio
