import Oak.Core.TimeRange
import Oak.Lib.Machine
import Oak.Lib.Rounding
import Mathlib.Data.List.Sort

/-!
# Retrieving video frames

`retrieve_frame` and `retrieve_video_frame` of `oak-codec/src/ffmpeg.rs`. A session keeps the last
frames that it decoded. A request that they do not answer seeks to just before its time, steps back
one second as long as the seek went past it, and decodes from there.

The state of the session is taken out of it during a call, and a flag says that the kept frames
begin with the first one of the stream. Times are exact, and the file starts at zero.

* `VideoStream` is what the decoder reads, `VideoStream.onScreen` the frame at a timestamp.
* `Attempt` is what the libraries do during a call.
* `StepsBack` says that a seek that goes past its time is noticed, `Serves` that a call is answered.

## Main results

* `retrieveFrame_spec`: a call that notices such a seek answers with the frame on screen, unless
  something fails.
* `retrieveVideoFrame_run`: the same for all calls of a session.
* `retrieveVideoFrame_after_error`: a session in software does not survive an error.
* `retrieveVideoFrame_stale`: the flag is left over from earlier frames.
-/

namespace Oak.Codec.Video

open Oak.Core Oak.Lib

variable {α : Type*}

structure Frame (α : Type*) where
  pts : ℤ
  picture : α
  deriving DecidableEq

/-- A video stream: at least one frame, with timestamps that increase from zero. -/
structure VideoStream (α : Type*) where
  frames : List (Frame α)
  sorted : frames.Pairwise fun f g => f.pts < g.pts
  head : frames.head?.map Frame.pts = some 0
  timeBase : ℚ
  timeBase_pos : 0 < timeBase

namespace VideoStream

variable (stream : VideoStream α)

/-- One second in the time base. -/
def secondTs : ℤ := roundAway stream.timeBase⁻¹

def timeToTimestamp (time : Rational) : ℤ := roundAway (time * stream.timeBase⁻¹)

/-- The last frame whose timestamp is at most `target`, or else the first frame. -/
def onScreen (target : ℤ) : Option (Frame α) :=
  (stream.frames.filter fun f => f.pts ≤ target).getLast?.or stream.frames.head?

end VideoStream

open VideoStream

/-- `VideoDecodeState`. -/
structure VideoDecodeState (α : Type*) where
  cache : List (Frame α)
  cacheAtZero : Bool
  cacheAtEof : Bool

/-- A session: `next` is the frame that the decoder gives next. -/
structure DecoderState (α : Type*) where
  next : ℕ
  video : Option (VideoDecodeState α)
  hwDevice : Bool

/-- What the libraries do during a call. A seek to `ts` leaves the decoder at the frame
`landing ts`, or fails; `fault` is the number of frames after which reading or decoding fails. -/
structure Attempt (stream : VideoStream α) where
  landing : ℤ → Option ℕ
  lands : ∀ ts k, landing ts = some k → k < stream.frames.length ∧ (ts = 0 → k = 0)
  fault : Option ℕ

/-- How a call ends: with a frame or without one, with an error, in a panic, or not at all. -/
inductive Answer (α : Type*) where
  | frame (frame : Option (Frame α))
  | error
  | panicked
  | running
  deriving DecidableEq

/-! ### The code -/

/-- `AV_NOPTS_VALUE`. -/
def noptsValue : ℤ := -9223372036854775808

def ptsOf (frame : Option (Frame α)) : Option ℤ := frame.map Frame.pts

def maximumQueueSize : ℕ := 2

/-- The first frame of the cache that is at `t`, or behind which there is one past `t`. -/
def searchCache (t : ℤ) : List (Frame α) → Option (Frame α)
  | [] => none
  | frame :: rest =>
    if frame.pts = t ∨ t < (ptsOf rest.head?).getD noptsValue then some frame
    else searchCache t rest

def getFrameFromCache (video : VideoDecodeState α) (t : ℤ) : Option (Frame α) :=
  if t < (ptsOf video.cache.head?).getD noptsValue then
    if video.cacheAtZero then video.cache.head? else none
  else if (ptsOf video.cache.getLast?).getD noptsValue < t then
    if video.cacheAtEof then video.cache.getLast? else none
  else searchCache t video.cache

/-- The cache is too old for `target`. -/
def tooOld (stream : VideoStream α) (video : VideoDecodeState α) (target : ℤ) : Prop :=
  video.cache = [] ∨ target < (ptsOf video.cache.head?).getD noptsValue ∨
    (ptsOf video.cache.getLast?).getD noptsValue + 2 * stream.secondTs < target

instance (stream : VideoStream α) (video : VideoDecodeState α) (target : ℤ) :
    Decidable (tooOld stream video target) :=
  inferInstanceAs (Decidable (_ = _ ∨ _ < _ ∨ _ < _))

/-- What the loop of a call works on. -/
structure Search (α : Type*) where
  next : ℕ
  video : VideoDecodeState α
  seekTs : ℤ
  stillSeeking : Bool
  retriedAfterEof : Bool
  fault : Option ℕ

/-- How the loop ends. After a failure the state of the session is lost. -/
inductive Ended (α : Type*) where
  | found (next : ℕ) (video : VideoDecodeState α) (frame : Option (Frame α))
  | exhausted (next : ℕ) (video : VideoDecodeState α)
  | failed

/-- A seek to `ts`. -/
def Search.seek {stream : VideoStream α} (a : Attempt stream) (ts : ℤ) (s : Search α) :
    Search α ⊕ Ended α :=
  match a.landing ts with
  | none => .inr .failed
  | some k =>
    .inl { s with
      next := k
      video := { s.video with cacheAtZero := s.video.cacheAtZero || ts = 0 } }

/-- A frame is put into the cache, which is cut down before. -/
def VideoDecodeState.push (video : VideoDecodeState α) (frame : Frame α) : VideoDecodeState α :=
  if maximumQueueSize < video.cache.length then
    { video with cache := video.cache.tail ++ [frame], cacheAtZero := false }
  else { video with cache := video.cache ++ [frame] }

/-- The last frame of the cache when the next one is pushed. -/
def VideoDecodeState.previous (video : VideoDecodeState α) : Option (Frame α) :=
  if maximumQueueSize < video.cache.length then video.cache.tail.getLast? else video.cache.getLast?

/-- One round of the loop. -/
def Search.round {stream : VideoStream α} (a : Attempt stream) (target : ℤ) (s : Search α) :
    Search α ⊕ Ended α :=
  if s.fault = some 0 then .inr .failed
  else
    let s := { s with fault := s.fault.map (· - 1) }
    match stream.frames[s.next]? with
    | none =>
      let video := { s.video with cacheAtEof := true }
      match video.cache.getLast? with
      | some back => .inr (.found s.next video (some back))
      | none =>
        if s.retriedAfterEof then .inr (.exhausted s.next video)
        else { s with video := video, stillSeeking := true, retriedAfterEof := true }.seek a 0
    | some frame =>
      if s.stillSeeking ∧ ¬s.video.cacheAtZero ∧ target < frame.pts then
        let seekTs := max (s.seekTs - stream.secondTs) 0
        { s with seekTs := seekTs }.seek a seekTs
      else
        let video := s.video.push frame
        if frame.pts = target then .inr (.found (s.next + 1) video (some frame))
        else if target < frame.pts then
          .inr (.found (s.next + 1) video
            (if s.video.previous = none ∧ video.cacheAtZero then some frame else s.video.previous))
        else .inl { s with next := s.next + 1, video := video, stillSeeking := false }

/-- The loop, for as many rounds as `fuel` allows. -/
def Search.loop {stream : VideoStream α} (a : Attempt stream) (target : ℤ) :
    ℕ → Search α → Option (Ended α)
  | 0, _ => none
  | fuel + 1, s =>
    match s.round a target with
    | .inl s' => Search.loop a target fuel s'
    | .inr ended => some ended

/-- More rounds than a loop takes that ends. -/
def Search.rounds (stream : VideoStream α) (s : Search α) : ℕ :=
  s.seekTs.toNat + 2 * stream.frames.length + s.fault.getD 0 + 4

/-- The session after the loop. -/
def DecoderState.leave (d : DecoderState α) : Option (Ended α) → DecoderState α × Answer α
  | some (.found next video frame) => ({ d with next := next, video := some video }, .frame frame)
  | some (.exhausted next video) => ({ d with next := next, video := some video }, .error)
  | some .failed => ({ d with video := none }, .error)
  | none => ({ d with video := none }, .running)

/-- `retrieve_frame`. -/
def retrieveFrame {stream : VideoStream α} (d : DecoderState α) (a : Attempt stream)
    (time : Rational) : DecoderState α × Answer α :=
  match d.video with
  | none => (d, .panicked)
  | some video =>
    let target := stream.timeToTimestamp time
    let seekTs := max (target - maximumQueueSize) 0
    if tooOld stream video target then
      match Search.seek a seekTs
        ⟨d.next, { video with cache := [], cacheAtEof := false }, seekTs, true, false, a.fault⟩ with
      | .inl s => d.leave (s.loop a target (s.rounds stream))
      | .inr ended => d.leave (some ended)
    else
      match getFrameFromCache video target with
      | some cached => (d, .frame (some cached))
      | none =>
        let s : Search α := ⟨d.next, video, seekTs, false, false, a.fault⟩
        d.leave (s.loop a target (s.rounds stream))

/-- A session that was just opened. -/
def DecoderState.opened (hwDevice : Bool) : DecoderState α := ⟨0, some ⟨[], false, false⟩, hwDevice⟩

/-- `k_any_timecode`, which asks for no time. -/
def kAnyTimecode : Rational := -2147483647

/-- A request of a time, with what the libraries do during it, and, where the decoder runs on
hardware, during a second try in software. -/
structure VideoCall (stream : VideoStream α) where
  time : Rational
  timed : time ≠ kAnyTimecode
  attempt : Attempt stream
  reopened : Option (Attempt stream)

def Answer.isError : Answer α → Bool
  | .error => true
  | _ => false

/-- A frame is needed. -/
def Answer.orError : Answer α → Answer α
  | .frame none => .error
  | answer => answer

/-- A call of `retrieve_video_frame`, up to the frame that it scales. -/
def retrieveVideoFrame {stream : VideoStream α} (d : DecoderState α) (call : VideoCall stream) :
    DecoderState α × Answer α :=
  let first := retrieveFrame d call.attempt call.time
  let last :=
    if first.2.isError && first.1.hwDevice then
      match call.reopened with
      | none => (first.1, .error)
      | some again => retrieveFrame (.opened false) again call.time
    else first
  (last.1, last.2.orError)

/-- The session after a call. -/
def act {stream : VideoStream α} (d : DecoderState α) (call : VideoCall stream) : DecoderState α :=
  (retrieveVideoFrame d call).1

/-! ### Statements -/

/-- Nothing fails. -/
def Attempt.Smooth {stream : VideoStream α} (a : Attempt stream) : Prop :=
  a.fault = none ∧ ∀ ts, (a.landing ts).isSome

/-- A first seek that goes past its time is noticed, and a step back leads somewhere: the frame is
not past `target` when the flag `cache_at_zero` is set, or when one second is no step. -/
def StepsBack {stream : VideoStream α} (video : VideoDecodeState α) (a : Attempt stream)
    (time : Rational) : Prop :=
  let target := stream.timeToTimestamp time
  let seekTs := max (target - maximumQueueSize) 0
  tooOld stream video target → 0 < seekTs → (video.cacheAtZero = true ∨ stream.secondTs ≤ 0) →
    ∀ f ∈ (a.landing seekTs).bind (stream.frames[·]?), f.pts ≤ target

/-- The call is answered: seeks that go past their time are noticed, and nothing fails, at the
latest in a second try. -/
def Serves {stream : VideoStream α} (d : DecoderState α) (call : VideoCall stream) : Prop :=
  (∀ video ∈ d.video, StepsBack video call.attempt call.time) ∧
    (call.attempt.Smooth ∨ (d.hwDevice = true ∧ ∃ again ∈ call.reopened,
      again.Smooth ∧ StepsBack ⟨[], false, false⟩ again call.time))

variable {stream : VideoStream α} {target : ℤ}

/-! ### The frame on screen -/

theorem VideoStream.head?_eq : ∃ first, stream.frames.head? = some first ∧ first.pts = 0 :=
  Option.map_eq_some_iff.1 stream.head

theorem VideoStream.pts_lt {i j : ℕ} {f g : Frame α} (hi : stream.frames[i]? = some f)
    (hj : stream.frames[j]? = some g) (hij : i < j) : f.pts < g.pts := by
  obtain ⟨hi', rfl⟩ := List.getElem?_eq_some_iff.1 hi
  obtain ⟨hj', rfl⟩ := List.getElem?_eq_some_iff.1 hj
  exact List.pairwise_iff_getElem.1 stream.sorted i j hi' hj' hij

/-- The frame on screen is the one that is not past `target` and before one that is. -/
theorem VideoStream.onScreen_eq {k : ℕ} {f : Frame α} (hk : stream.frames[k]? = some f)
    (hle : k = 0 ∨ f.pts ≤ target)
    (hnext : ∀ g, stream.frames[k + 1]? = some g → target < g.pts) :
    stream.onScreen target = some f := by
  have hafter : (stream.frames.drop (k + 1)).filter (fun f => f.pts ≤ target) = [] := by
    refine List.filter_eq_nil_iff.2 fun g hg => ?_
    obtain ⟨i, hi⟩ := List.mem_iff_getElem?.1 hg
    rw [List.getElem?_drop] at hi
    have hlt : target < g.pts := by
      rcases Nat.eq_zero_or_pos i with rfl | hpos
      · exact hnext g hi
      · have hlength : k + 1 < stream.frames.length := by
          have := (List.getElem?_eq_some_iff.1 hi).1
          omega
        have hmid := List.getElem?_eq_getElem hlength
        exact (hnext _ hmid).trans (pts_lt hmid hi (by omega))
    simpa using hlt
  have hsplit : stream.frames = stream.frames.take k ++ [f] ++ stream.frames.drop (k + 1) := by
    have htake : stream.frames.take k ++ [f] = stream.frames.take (k + 1) := by
      rw [List.take_add_one, hk, Option.toList_some]
    rw [htake, List.take_append_drop]
  have hfilter : stream.frames.filter (fun f => f.pts ≤ target) =
      (stream.frames.take k).filter (fun f => f.pts ≤ target) ++
        [f].filter (fun f => f.pts ≤ target) := by
    conv_lhs => rw [hsplit]
    rw [List.filter_append, hafter, List.append_nil, List.filter_append]
  rw [onScreen, hfilter]
  by_cases hf : f.pts ≤ target
  · rw [List.filter_cons_of_pos (by simpa using hf), List.filter_nil, List.getLast?_concat,
      Option.some_or]
  · obtain rfl : k = 0 := hle.resolve_right hf
    rw [List.filter_cons_of_neg (by simpa using hf), List.take_zero, List.filter_nil,
      List.append_nil, List.getLast?_nil, Option.none_or, List.head?_eq_getElem?,
      hk]

/-! ### The cache -/

/-- The cache holds the frames just before the next one. -/
structure Cached (stream : VideoStream α) (next : ℕ) (video : VideoDecodeState α) : Prop where
  slice : ∃ a ≤ next, video.cache = (stream.frames.take next).drop a
  next_le : next ≤ stream.frames.length
  eof : video.cacheAtEof = true → next = stream.frames.length

theorem head?_slice {next a : ℕ} (ha : a < next) :
    ((stream.frames.take next).drop a).head? = stream.frames[a]? := by
  rw [List.head?_drop, List.getElem?_take_of_lt ha]

variable {video : VideoDecodeState α} {next : ℕ} {frame : Frame α}

theorem previous_eq : video.previous = video.cache.getLast? := by
  rw [VideoDecodeState.previous, maximumQueueSize]
  split_ifs with h
  · rw [List.getLast?_tail, if_neg (by omega)]
  · rfl

/-- The last frame of the cache is the one before the next one. -/
theorem Cached.getLast?_eq (h : Cached stream next video) {back : Frame α}
    (hback : video.cache.getLast? = some back) :
    0 < next ∧ stream.frames[next - 1]? = some back := by
  obtain ⟨a, ha, hcache⟩ := h.slice
  have hlength : (stream.frames.take next).length = next := by
    rw [List.length_take]
    exact Nat.min_eq_left h.next_le
  rw [hcache, List.getLast?_drop, hlength] at hback
  split_ifs at hback with hle
  rw [List.getLast?_eq_getElem?, hlength, List.getElem?_take_of_lt (by omega)] at hback
  exact ⟨by omega, hback⟩

theorem Cached.push (h : Cached stream next video) (hframe : stream.frames[next]? = some frame) :
    Cached stream (next + 1) (video.push frame) := by
  have hnext := (List.getElem?_eq_some_iff.1 hframe).1
  have heof : video.cacheAtEof ≠ true := fun heof => by
    have := h.eof heof
    omega
  obtain ⟨a, ha, hcache⟩ := h.slice
  have hslice {b : ℕ} (hb : b ≤ next) : (stream.frames.take next).drop b ++ [frame] =
      (stream.frames.take (next + 1)).drop b := by
    rw [List.take_add_one, hframe, Option.toList_some, List.drop_append_of_le_length]
    rw [List.length_take]
    omega
  rw [VideoDecodeState.push, maximumQueueSize]
  split_ifs with hfull
  · have hlt : a + 1 ≤ next := by
      rw [hcache, List.length_drop, List.length_take] at hfull
      omega
    refine ⟨⟨a + 1, by omega, ?_⟩, hnext, fun h => absurd h heof⟩
    rw [hcache, List.tail_drop, hslice hlt]
  · refine ⟨⟨a, by omega, ?_⟩, hnext, fun h => absurd h heof⟩
    rw [hcache, hslice ha]

/-- A search between the first frame of the cache and the last one finds the frame on screen. -/
theorem searchCache_slice {a : ℕ} {first back : Frame α}
    (hfirst : ((stream.frames.take next).drop a).head? = some first) (hle : first.pts ≤ target)
    (hback : ((stream.frames.take next).drop a).getLast? = some back) (hge : target ≤ back.pts) :
    searchCache target ((stream.frames.take next).drop a) = stream.onScreen target := by
  generalize hcache : (stream.frames.take next).drop a = cache at hfirst hback ⊢
  induction cache generalizing a first with
  | nil => cases hfirst
  | cons frame rest ih =>
    obtain rfl : frame = first := Option.some.inj hfirst
    have hlt : a < next := by
      by_contra hge
      rw [List.drop_eq_nil_of_le (by rw [List.length_take]; omega)] at hcache
      cases hcache
    have hframe : stream.frames[a]? = some frame := by
      rw [← head?_slice hlt, hcache, List.head?_cons]
    have hrest : (stream.frames.take next).drop (a + 1) = rest := by
      rw [← List.tail_drop, hcache, List.tail_cons]
    rw [searchCache]
    rcases hle.eq_or_lt with heq | hbefore
    · rw [if_pos (Or.inl heq)]
      exact (onScreen_eq hframe (Or.inr hle)
        fun g hg => heq ▸ pts_lt hframe hg (Nat.lt_succ_self a)).symm
    rcases rest with _ | ⟨g, rest⟩
    · obtain rfl : frame = back := Option.some.inj hback
      omega
    have hg : stream.frames[a + 1]? = some g := by
      have hlt' : a + 1 < next := by
        by_contra hge
        rw [List.drop_eq_nil_of_le (by rw [List.length_take]; omega)] at hrest
        cases hrest
      rw [← head?_slice hlt', hrest, List.head?_cons]
    have hhead : (ptsOf (g :: rest).head?).getD noptsValue = g.pts := rfl
    rw [hhead]
    by_cases hpast : target < g.pts
    · rw [if_pos (Or.inr hpast)]
      refine (onScreen_eq hframe (Or.inr hle) fun g' hg' => ?_).symm
      obtain rfl : g = g' := Option.some.inj (hg.symm.trans hg')
      exact hpast
    · rw [if_neg (by omega)]
      exact ih (not_lt.1 hpast) hrest rfl (by rwa [List.getLast?_cons_cons] at hback)

theorem Cached.getFrameFromCache (h : Cached stream next video)
    (hfresh : ¬tooOld stream video target) (hcached : getFrameFromCache video target = some frame) :
    stream.onScreen target = some frame := by
  obtain ⟨a, -, hcache⟩ := h.slice
  rw [tooOld, not_or, not_or, not_lt, not_lt] at hfresh
  obtain ⟨hne, hfront, -⟩ := hfresh
  rw [Video.getFrameFromCache, if_neg (not_lt.2 hfront)] at hcached
  obtain ⟨first, hfirst⟩ : ∃ first, video.cache.head? = some first :=
    ⟨_, List.head?_eq_some_head hne⟩
  obtain ⟨back, hback⟩ : ∃ back, video.cache.getLast? = some back :=
    ⟨_, List.getLast?_eq_some_getLast hne⟩
  rw [hfirst] at hfront
  rw [hback] at hcached
  split_ifs at hcached with hpast heof
  · obtain rfl := Option.some.inj hcached
    obtain ⟨hpos, hlast⟩ := h.getLast?_eq hback
    refine onScreen_eq hlast (Or.inr (le_of_lt hpast)) fun g hg => ?_
    have hlength := (List.getElem?_eq_some_iff.1 hg).1
    have := h.eof heof
    omega
  · rw [← hcached, hcache]
    rw [hcache] at hfirst hback
    exact (searchCache_slice hfirst hfront hback (not_lt.1 hpast)).symm

/-- Where the cache has no answer, the last frame of it is before `target`. -/
theorem Cached.lt_of_getFrameFromCache (h : Cached stream next video)
    (hfresh : ¬tooOld stream video target) (hnone : Video.getFrameFromCache video target = none) :
    ∃ back, video.cache.getLast? = some back ∧ back.pts < target := by
  obtain ⟨a, -, hcache⟩ := h.slice
  rw [tooOld, not_or, not_or, not_lt, not_lt] at hfresh
  obtain ⟨hne, hfront, -⟩ := hfresh
  rw [Video.getFrameFromCache, if_neg (not_lt.2 hfront)] at hnone
  obtain ⟨first, hfirst⟩ : ∃ first, video.cache.head? = some first :=
    ⟨_, List.head?_eq_some_head hne⟩
  obtain ⟨back, hback⟩ : ∃ back, video.cache.getLast? = some back :=
    ⟨_, List.getLast?_eq_some_getLast hne⟩
  refine ⟨back, hback, ?_⟩
  rw [hback] at hnone
  by_contra hle
  have hge : target ≤ (ptsOf (some back)).getD noptsValue := not_lt.1 hle
  rw [hfirst] at hfront
  rw [if_neg (not_lt.2 hge), hcache] at hnone
  rw [hcache] at hfirst hback
  rw [searchCache_slice hfirst hfront hback hge] at hnone
  obtain ⟨zero, hzero, -⟩ := stream.head?_eq
  rw [onScreen, hzero, Option.or_some] at hnone
  cases hnone

/-! ### The loop -/

/-- What a round of the loop finds: a seek that may have gone past `target` only where that is
noticed, or frames that are all before `target`. -/
inductive Searching (stream : VideoStream α) (target : ℤ) (s : Search α) : Prop
  | seeking (hcache : s.video.cache = []) (heof : s.video.cacheAtEof = false)
      (hseek : s.stillSeeking = true) (hnext : s.next < stream.frames.length)
      (hzero : s.seekTs ≤ 0 → s.video.cacheAtZero = true)
      (hlands : ∀ f, stream.frames[s.next]? = some f → f.pts ≤ target ∨
        (s.video.cacheAtZero = true ∧ s.next = 0) ∨
        (s.video.cacheAtZero = false ∧ 0 < stream.secondTs))
  | decoding (hcached : Cached stream s.next s.video) (hseek : s.stillSeeking = false)
      (back : Frame α) (hback : s.video.cache.getLast? = some back) (hlt : back.pts < target)

/-- The rounds that are left at most. -/
def Search.left (stream : VideoStream α) (s : Search α) : ℕ :=
  if s.stillSeeking then s.seekTs.toNat + stream.frames.length + 1
  else stream.frames.length - s.next

variable {a : Attempt stream} {s : Search α}

theorem Searching.cached (h : Searching stream target s) : Cached stream s.next s.video := by
  cases h with
  | seeking hcache heof hseek hnext hzero hlands =>
    refine ⟨⟨s.next, le_rfl, ?_⟩, hnext.le, fun h => absurd (heof.symm.trans h) Bool.false_ne_true⟩
    rw [hcache, List.drop_eq_nil_of_le (by rw [List.length_take]; omega)]
  | decoding hcached => exact hcached

theorem seek_spec (a : Attempt stream) (ts : ℤ) (s : Search α) :
    (s.seek a ts = .inr .failed ∧ a.landing ts = none) ∨
    ∃ k, a.landing ts = some k ∧ k < stream.frames.length ∧ (ts = 0 → k = 0) ∧
      s.seek a ts = .inl { s with
        next := k
        video := { s.video with cacheAtZero := s.video.cacheAtZero || ts = 0 } } := by
  rw [Search.seek]
  rcases hk : a.landing ts with _ | k
  · exact Or.inl ⟨rfl, rfl⟩
  · obtain ⟨hlt, hzero⟩ := a.lands ts k hk
    exact Or.inr ⟨k, rfl, hlt, hzero, rfl⟩

/-- The end of a round: the frame is the one on screen, or something failed. -/
def Ends (stream : VideoStream α) (target : ℤ) : Ended α → Prop
  | .found next video frame => Cached stream next video ∧ frame = stream.onScreen target
  | .exhausted _ _ => False
  | .failed => True

/-- A round goes on. -/
structure Advances (stream : VideoStream α) (target : ℤ) (s s' : Search α) : Prop where
  searching : Searching stream target s'
  left_lt : s'.left stream < s.left stream
  fault : s'.fault = s.fault.map (· - 1)

theorem Searching.round_eof (h : Searching stream target s) (hfault : s.fault ≠ some 0)
    (hnone : stream.frames[s.next]? = none) :
    ∃ e, s.round a target = .inr e ∧ Ends stream target e ∧ e ≠ .failed := by
  have hlength : stream.frames.length ≤ s.next := List.getElem?_eq_none_iff.1 hnone
  cases h with
  | seeking _ _ _ hnext => omega
  | decoding hcached _ back hback hlt =>
    obtain ⟨hpos, hlast⟩ := hcached.getLast?_eq hback
    refine ⟨.found s.next { s.video with cacheAtEof := true } (some back), ?_, ⟨?_, ?_⟩, nofun⟩
    · rw [Search.round, if_neg hfault]
      simp only [hnone, hback]
    · exact ⟨hcached.slice, hcached.next_le, fun _ => le_antisymm hcached.next_le hlength⟩
    · refine (onScreen_eq hlast (Or.inr hlt.le) fun g hg => ?_).symm
      have := (List.getElem?_eq_some_iff.1 hg).1
      omega

/-- The round of a frame that is not taken for one past a seek. -/
theorem round_frame (hfault : s.fault ≠ some 0) {frame : Frame α}
    (hframe : stream.frames[s.next]? = some frame)
    (hseek : ¬(s.stillSeeking = true ∧ ¬s.video.cacheAtZero = true ∧ target < frame.pts)) :
    s.round a target =
      if frame.pts = target then .inr (.found (s.next + 1) (s.video.push frame) (some frame))
      else if target < frame.pts then
        .inr (.found (s.next + 1) (s.video.push frame)
          (if s.video.cache.getLast? = none ∧ (s.video.push frame).cacheAtZero then some frame
            else s.video.cache.getLast?))
      else .inl { s with
        next := s.next + 1
        video := s.video.push frame
        stillSeeking := false
        fault := s.fault.map (· - 1) } := by
  rw [Search.round, if_neg hfault]
  simp only [hframe, previous_eq]
  rw [if_neg hseek]

theorem push_cacheAtZero (hcache : video.cache = []) :
    (video.push frame).cacheAtZero = video.cacheAtZero := by
  rw [VideoDecodeState.push, hcache]
  rfl

theorem getLast?_push : (video.push frame).cache.getLast? = some frame := by
  rw [VideoDecodeState.push]
  split_ifs <;> exact List.getLast?_concat

section

variable (h : Searching stream target s) (hfault : s.fault ≠ some 0)

include h hfault

/-- A round with a frame that is not taken for one past a seek finds the frame on screen, or goes
on behind a frame that is before `target`. -/
theorem Searching.round_frame {frame : Frame α} (hframe : stream.frames[s.next]? = some frame)
    (hseek : ¬(s.stillSeeking = true ∧ ¬s.video.cacheAtZero = true ∧ target < frame.pts)) :
    (∃ s', s.round a target = .inl s' ∧ Advances stream target s s') ∨
    ∃ e, s.round a target = .inr e ∧ Ends stream target e ∧ e ≠ .failed := by
  have hcached := h.cached.push hframe
  have hlength := (List.getElem?_eq_some_iff.1 hframe).1
  rw [Video.round_frame hfault hframe hseek]
  rcases lt_trichotomy frame.pts target with hlt | heq | hgt
  · rw [if_neg hlt.ne, if_neg (not_lt.2 hlt.le)]
    refine Or.inl ⟨_, rfl, .decoding hcached rfl frame getLast?_push hlt, ?_, rfl⟩
    rw [Search.left, Search.left, if_neg Bool.false_ne_true]
    split_ifs <;> dsimp only <;> omega
  · rw [if_pos heq]
    refine Or.inr ⟨_, rfl, ⟨hcached, ?_⟩, nofun⟩
    exact (onScreen_eq hframe (Or.inr heq.le)
      fun g hg => heq ▸ pts_lt hframe hg (Nat.lt_succ_self _)).symm
  · rw [if_neg hgt.ne', if_pos hgt]
    refine Or.inr ⟨_, rfl, ⟨hcached, ?_⟩, nofun⟩
    cases h with
    | seeking hcache heof hstill hnext hzero hlands =>
      -- The first frame after a seek is past `target`: it is the first one of the stream.
      have hatZero : s.video.cacheAtZero = true := by
        by_contra hatZero
        exact hseek ⟨hstill, hatZero, hgt⟩
      obtain ⟨-, hfirst⟩ : s.video.cacheAtZero = true ∧ s.next = 0 := by
        rcases hlands frame hframe with hle | hfirst | ⟨hfalse, -⟩
        · omega
        · exact hfirst
        · exact absurd (hfalse.symm.trans hatZero) Bool.false_ne_true
      rw [hcache, List.getLast?_nil, if_pos ⟨rfl, (push_cacheAtZero hcache).trans hatZero⟩]
      exact (onScreen_eq hframe (Or.inl hfirst)
        fun g hg => hgt.trans (pts_lt hframe hg (Nat.lt_succ_self _))).symm
    | decoding hcached hstill back hback hlt =>
      obtain ⟨hpos, hlast⟩ := hcached.getLast?_eq hback
      rw [hback, if_neg fun h => nomatch h.1]
      refine (onScreen_eq hlast (Or.inr hlt.le) fun g hg => ?_).symm
      rw [Nat.sub_add_cancel hpos, hframe] at hg
      exact Option.some.inj hg ▸ hgt

theorem Searching.round_back {frame : Frame α} (hframe : stream.frames[s.next]? = some frame)
    (hseek : s.stillSeeking = true ∧ ¬s.video.cacheAtZero = true ∧ target < frame.pts) :
    (∃ s', s.round a target = .inl s' ∧ Advances stream target s s') ∨
    (s.round a target = .inr .failed ∧ ∃ ts, a.landing ts = none) := by
  obtain ⟨hstill, hatZero, hgt⟩ := hseek
  cases h with
  | decoding _ hfalse => exact absurd (hfalse.symm.trans hstill) Bool.false_ne_true
  | seeking hcache heof _ hnext hzero hlands =>
    have hsecond : 0 < stream.secondTs := by
      rcases hlands frame hframe with hle | ⟨htrue, -⟩ | ⟨-, hsecond⟩
      · omega
      · exact absurd htrue hatZero
      · exact hsecond
    have hpos : 0 < s.seekTs := by
      by_contra hle
      exact hatZero (hzero (by omega))
    have hround : s.round a target =
        Search.seek a (max (s.seekTs - stream.secondTs) 0)
          { s with seekTs := max (s.seekTs - stream.secondTs) 0, fault := s.fault.map (· - 1) } := by
      rw [Search.round, if_neg hfault]
      simp only [hframe]
      rw [if_pos ⟨hstill, hatZero, hgt⟩]
    rw [hround]
    generalize hts : max (s.seekTs - stream.secondTs) 0 = ts
    rcases seek_spec a ts
      { s with seekTs := ts, fault := s.fault.map (· - 1) } with
      ⟨hfailed, hnone⟩ | ⟨k, -, hk, hzero', hseek⟩
    · exact Or.inr ⟨hfailed, ts, hnone⟩
    refine Or.inl ⟨_, hseek, .seeking hcache heof hstill hk (fun hle => ?_) fun f _ => ?_, ?_, rfl⟩
    · dsimp only at hle ⊢
      rw [decide_eq_true (show ts = 0 by omega), Bool.or_true]
    · dsimp only
      rw [Bool.eq_false_iff.2 hatZero, Bool.false_or]
      by_cases hts : ts = 0
      · exact Or.inr (Or.inl ⟨decide_eq_true hts, hzero' hts⟩)
      · exact Or.inr (Or.inr ⟨decide_eq_false hts, hsecond⟩)
    · rw [Search.left, Search.left, if_pos hstill, if_pos hstill]
      dsimp only
      omega

/-- A round goes on, finds the frame on screen, or fails. -/
theorem Searching.round :
    (∃ s', s.round a target = .inl s' ∧ Advances stream target s s') ∨
    (∃ e, s.round a target = .inr e ∧ Ends stream target e ∧ e ≠ .failed) ∨
    (s.round a target = .inr .failed ∧ ∃ ts, a.landing ts = none) := by
  rcases hframe : stream.frames[s.next]? with _ | frame
  · exact Or.inr (Or.inl (h.round_eof hfault hframe))
  by_cases hseek : s.stillSeeking = true ∧ ¬s.video.cacheAtZero = true ∧ target < frame.pts
  · exact (h.round_back hfault hframe hseek).imp_right Or.inr
  · exact (h.round_frame hfault hframe hseek).imp_right Or.inl

end

/-- The loop ends, with the frame on screen unless something fails. -/
theorem Searching.loop (h : Searching stream target s) {fuel : ℕ} (hfuel : s.left stream < fuel) :
    ∃ e, s.loop a target fuel = some e ∧ Ends stream target e ∧ (e = .failed → ¬(s.fault = none ∧
      ∀ ts, (a.landing ts).isSome)) := by
  induction fuel generalizing s with
  | zero => omega
  | succ fuel ih =>
    rw [Search.loop]
    by_cases hfault : s.fault = some 0
    · rw [Search.round, if_pos hfault]
      refine ⟨.failed, rfl, trivial, fun _ hsmooth => ?_⟩
      rw [hfault] at hsmooth
      exact nomatch hsmooth.1
    rcases h.round hfault with ⟨s', hround, hnext⟩ | ⟨e, hround, hends, hne⟩ | ⟨hround, ts, hts⟩
    · rw [hround]
      obtain ⟨e, hloop, hends, hfailed⟩ :=
        ih hnext.searching (Nat.lt_of_lt_of_le hnext.left_lt (Nat.lt_succ_iff.1 hfuel))
      refine ⟨e, hloop, hends, fun he hsmooth => hfailed he ⟨?_, hsmooth.2⟩⟩
      rw [hnext.fault, hsmooth.1, Option.map_none]
    · rw [hround]
      exact ⟨e, rfl, hends, fun he => absurd he hne⟩
    · rw [hround]
      refine ⟨.failed, rfl, trivial, fun _ hsmooth => ?_⟩
      have := hsmooth.2 ts
      rw [hts] at this
      cases this

theorem left_lt_rounds : s.left stream < s.rounds stream := by
  rw [Search.left, Search.rounds]
  split_ifs <;> omega

/-! ### Calls -/

/-- The state of a session that still has it. -/
def Ready (stream : VideoStream α) (d : DecoderState α) : Prop :=
  ∃ video, d.video = some video ∧ Cached stream d.next video

/-- What a call leaves and answers: the frame on screen, or an error where something failed. -/
def Answers (a : Attempt stream) (target : ℤ) (hwDevice : Bool) :
    DecoderState α × Answer α → Prop
  | (d, answer) => d.hwDevice = hwDevice ∧
    ((Ready stream d ∧ answer = .frame (stream.onScreen target)) ∨
      (answer = .error ∧ ¬a.Smooth))

theorem ready_opened (hwDevice : Bool) : Ready stream (.opened hwDevice) :=
  ⟨⟨[], false, false⟩, rfl, ⟨0, le_rfl, rfl⟩, Nat.zero_le _, fun h => nomatch h⟩

variable {d : DecoderState α} {time : Rational}

theorem Searching.leave (h : Searching stream target s) (hfault : s.fault = a.fault) :
    Answers a target d.hwDevice (d.leave (s.loop a target (s.rounds stream))) := by
  obtain ⟨e, hloop, hends, hfailed⟩ := h.loop (a := a) left_lt_rounds
  rw [hloop]
  cases e with
  | found next video frame =>
    obtain ⟨hcached, rfl⟩ := hends
    exact ⟨rfl, Or.inl ⟨⟨video, rfl, hcached⟩, rfl⟩⟩
  | exhausted => exact hends.elim
  | failed => exact ⟨rfl, Or.inr ⟨rfl, fun hsmooth => hfailed rfl ⟨hfault.trans hsmooth.1, hsmooth.2⟩⟩⟩

/-- A call that notices a seek past its time answers with the frame on screen, unless something
fails. -/
theorem retrieveFrame_spec (h : Ready stream d)
    (hback : ∀ video ∈ d.video, StepsBack video a time) :
    Answers a (stream.timeToTimestamp time) d.hwDevice (retrieveFrame d a time) := by
  obtain ⟨video, hvideo, hcached⟩ := h
  have hsteps := hback video hvideo
  rw [StepsBack] at hsteps
  rw [retrieveFrame, hvideo]
  generalize stream.timeToTimestamp time = target at hsteps ⊢
  dsimp only at hsteps ⊢
  split_ifs with hold
  · generalize hts : max (target - (maximumQueueSize : ℤ)) 0 = seekTs at hsteps ⊢
    rcases seek_spec a seekTs
      ⟨d.next, { video with cache := [], cacheAtEof := false }, seekTs, true, false, a.fault⟩ with
      ⟨hfailed, hnone⟩ | ⟨k, hlanding, hk, hzero, hseek⟩
    · rw [hfailed]
      refine ⟨rfl, Or.inr ⟨rfl, fun hsmooth => ?_⟩⟩
      have := hsmooth.2 seekTs
      rw [hnone] at this
      cases this
    rw [hseek]
    refine Searching.leave (.seeking rfl rfl rfl hk (fun hle => ?_) fun f hf => ?_) rfl
    · dsimp only at hle ⊢
      rw [decide_eq_true (show seekTs = 0 by omega), Bool.or_true]
    · dsimp only at hf ⊢
      by_cases hts0 : seekTs = 0
      · rw [decide_eq_true hts0, Bool.or_true]
        exact Or.inr (Or.inl ⟨rfl, hzero hts0⟩)
      rw [decide_eq_false hts0, Bool.or_false]
      by_cases hstale : video.cacheAtZero = true ∨ stream.secondTs ≤ 0
      · refine Or.inl (hsteps hold (by omega) hstale f ?_)
        rw [hlanding, Option.bind_some]
        exact hf
      · rw [not_or, not_le] at hstale
        exact Or.inr (Or.inr ⟨Bool.eq_false_iff.2 hstale.1, hstale.2⟩)
  · rcases hcache : getFrameFromCache video target with _ | cached
    · obtain ⟨back, hlast, hlt⟩ := hcached.lt_of_getFrameFromCache hold hcache
      exact Searching.leave (.decoding hcached rfl back hlast hlt) rfl
    · refine ⟨rfl, Or.inl ⟨⟨video, hvideo, hcached⟩, ?_⟩⟩
      rw [hcached.getFrameFromCache hold hcache]

theorem VideoStream.orError_onScreen :
    (Answer.frame (stream.onScreen target)).orError = .frame (stream.onScreen target) := by
  obtain ⟨first, hfirst, -⟩ := stream.head?_eq
  rw [onScreen, hfirst]
  generalize (stream.frames.filter fun f => f.pts ≤ target).getLast? = last
  cases last <;> rfl

/-- A request that is served answers with the frame on screen, and leaves the session ready. -/
theorem retrieveVideoFrame_spec (h : Ready stream d) {call : VideoCall stream}
    (hserves : Serves d call) :
    Ready stream (act d call) ∧
      (retrieveVideoFrame d call).2 = .frame (stream.onScreen (stream.timeToTimestamp call.time)) := by
  obtain ⟨hback, hsmooth⟩ := hserves
  have hfirst := retrieveFrame_spec h hback
  rw [act, retrieveVideoFrame]
  generalize retrieveFrame d call.attempt call.time = first at hfirst ⊢
  obtain ⟨d', answer⟩ := first
  obtain ⟨hhw, ⟨hready, rfl⟩ | ⟨rfl, hfailed⟩⟩ := hfirst
  · exact ⟨hready, orError_onScreen⟩
  obtain ⟨hd, again, hagain, hsmooth, hsteps⟩ := hsmooth.resolve_left hfailed
  have hlast : Answers again (stream.timeToTimestamp call.time) false
      (retrieveFrame (.opened false) again call.time) := by
    refine retrieveFrame_spec (ready_opened false) fun video hvideo => ?_
    obtain rfl := Option.some.inj hvideo
    exact hsteps
  simp only [Answer.isError, hhw, hd, Bool.and_self, if_true, Option.mem_def.1 hagain]
  generalize retrieveFrame (.opened false) again call.time = last at hlast ⊢
  obtain ⟨d'', answer⟩ := last
  obtain ⟨-, ⟨hready, rfl⟩ | ⟨rfl, hfailed⟩⟩ := hlast
  · exact ⟨hready, orError_onScreen⟩
  · exact absurd hsmooth hfailed

/-- When every request of a session is served, every request answers with the frame on screen. -/
theorem retrieveVideoFrame_run {stream : VideoStream α} {hwDevice : Bool}
    {calls : List (VideoCall stream)} (hcalls : Permitted act Serves (.opened hwDevice) calls)
    {before after : List (VideoCall stream)} {call : VideoCall stream}
    (hsplit : calls = before ++ call :: after) :
    (retrieveVideoFrame (run act (.opened hwDevice) before) call).2 =
      .frame (stream.onScreen (stream.timeToTimestamp call.time)) := by
  rw [hsplit, permitted_append] at hcalls
  have hready : Ready stream (run act (.opened hwDevice) before) :=
    invariant_run (I := Ready stream) (fun _ _ h hserves => (retrieveVideoFrame_spec h hserves).1)
      (ready_opened hwDevice) hcalls.1
  exact (retrieveVideoFrame_spec hready hcalls.2.1).2

/-! ### Two sessions -/

/-- Ten frames, one in every second. -/
def tenFrames : VideoStream ℕ where
  frames := (List.range 10).map fun i : ℕ => ⟨i, i⟩
  sorted := by decide
  head := rfl
  timeBase := 1
  timeBase_pos := one_pos

/-- A request at `time` whose seeks, but for those to zero, go to the frame `k`. -/
def requestAt (time : ℕ) (k : Fin 10) : VideoCall tenFrames where
  time := time
  timed := ((by decide : kAnyTimecode < 0).trans_le (Nat.cast_nonneg time)).ne'
  attempt :=
    { landing := fun ts => if ts = 0 then some 0 else some k
      lands := fun ts j hj => by
        split_ifs at hj with h
        · exact Option.some.inj hj ▸ ⟨by decide, fun _ => rfl⟩
        · exact Option.some.inj hj ▸ ⟨k.2, fun h' => absurd h' h⟩
      fault := none }
  reopened := none

/-- A request at the time zero whose seek fails. -/
def failingRequest : VideoCall tenFrames where
  time := 0
  timed := by decide
  attempt := { landing := fun _ => none, lands := fun _ _ h => (nomatch h), fault := none }
  reopened := none

theorem smooth_requestAt (time : ℕ) (k : Fin 10) : (requestAt time k).attempt.Smooth := by
  refine ⟨rfl, fun ts => ?_⟩
  dsimp only [requestAt]
  split_ifs <;> rfl

/-- A session in software does not survive an error: the state that was taken out of it is lost. -/
theorem retrieveVideoFrame_after_error :
    ¬ ∀ (before : List (VideoCall tenFrames)) (call : VideoCall tenFrames),
      call.attempt.Smooth →
      (retrieveVideoFrame (run act (.opened false) before) call).2 =
        .frame (tenFrames.onScreen (tenFrames.timeToTimestamp call.time)) := by
  intro h
  exact absurd (h [failingRequest] (requestAt 0 0) (smooth_requestAt 0 0)) (by decide)

/-- The flag that the cache begins at zero is left over from the first request, so that the second
one takes a frame that the seek went past its time for the first frame of the stream. -/
theorem retrieveVideoFrame_stale :
    ¬ ∀ (before : List (VideoCall tenFrames)) (call : VideoCall tenFrames),
      (∀ c ∈ before ++ [call], c.attempt.Smooth) →
      (retrieveVideoFrame (run act (.opened false) before) call).2 =
        .frame (tenFrames.onScreen (tenFrames.timeToTimestamp call.time)) := by
  intro h
  refine absurd (h [requestAt 0 0] (requestAt 5 7) ?_) (by decide +kernel)
  refine List.forall_mem_cons.2 ⟨smooth_requestAt 0 0, ?_⟩
  exact List.forall_mem_cons.2 ⟨smooth_requestAt 5 7, List.forall_mem_nil _⟩

/-- The same two requests, where the second seek stops before its time. -/
theorem retrieveVideoFrame_run_requestAt :
    (retrieveVideoFrame (run act (.opened false) [requestAt 0 0]) (requestAt 5 3)).2 =
      .frame (tenFrames.onScreen (tenFrames.timeToTimestamp 5)) := by
  have hfirst : Serves (.opened false) (requestAt 0 0) := by
    refine ⟨fun video hvideo => ?_, Or.inl (smooth_requestAt 0 0)⟩
    obtain rfl := Option.some.inj hvideo
    exact fun _ hpos => absurd hpos (by decide +kernel)
  have hsecond : Serves (act (.opened false) (requestAt 0 0)) (requestAt 5 3) := by
    refine ⟨fun video _ _ _ _ => ?_, Or.inl (smooth_requestAt 5 3)⟩
    decide +kernel
  have hcalls : Permitted act Serves (.opened false) [requestAt 0 0, requestAt 5 3] :=
    ⟨hfirst, hsecond, trivial⟩
  have hsplit : [requestAt 0 0, requestAt 5 3] = [requestAt 0 0] ++ requestAt 5 3 :: [] := rfl
  exact retrieveVideoFrame_run hcalls hsplit

end Oak.Codec.Video
