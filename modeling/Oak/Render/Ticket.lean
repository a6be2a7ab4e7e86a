import Oak.Lib.Machine
import Mathlib.Data.Option.Basic

/-!
# The ticket arena

`TicketArena` of `oak-render/src/ticket.rs`: tickets are submitted, posted to a backend, cancelled,
waited for and read, and every one has a completion that `finish` fires.

* A `TicketSlot` is shared by the arena, the job and the caller, so it stays in `tickets` when the
  arena has forgotten it. `slots` are the entries of the arena: an entry is stored under the
  ticket's own id.
* `finish` is three steps: it looks at the flag `cancel`, publishes the result under the lock of
  `state`, and fires the completion. The job's completion is called at most once, so there is one
  such call a ticket.
* `carried`, `late`, `released` and `fired` are not in the source: the shared memory that the
  result came with, whether the ticket was cancelled when its result was published, what the ticket
  gave back to the dispatcher, and what its completion was called with.

## Main results

* `sound_run_iff`: every ticket is answered once, and found until it is finished, exactly when no
  entry of a ticket that is not finished is read by `result` or overwritten, and no cancellation
  falls between the look at the flag and the publication.
* `fired_run`: no completion fires twice, and none is dropped.
* `earlyResult_lost`: `result` forgets a ticket that is not finished.
-/

namespace Oak.Render

open Oak.Lib

/-- What a ticket is answered with: pixels, samples, or a slot of shared memory. -/
inductive TicketPayload (T : Type*) where
  | video (texture : T)
  | audio (samples : T)
  | shmFrame (frame : ℕ)
  | shmAudio (frame : ℕ)
  deriving DecidableEq, Repr

/-- `Error::State`, and every other error. -/
inductive TicketError where
  | state
  | failed
  deriving DecidableEq, Repr

abbrev TicketResult (T : Type*) := Except TicketError (TicketPayload T)

/-- How far a job is, up to the end of `finish`. -/
inductive JobState (T : Type*) where
  | unposted
  | posted
  | finishing (result : TicketResult T)
  | checked (result : TicketResult T)
  | published
  | done

structure TicketSlot (T : Type*) where
  id : ℕ
  audio : Bool
  pollAfter : Bool
  cancel : Bool
  finished : Bool
  delivered : Bool
  completion : Bool
  result : Option (TicketResult T)
  job : JobState T
  carried : Option ℕ
  late : Bool
  released : List ℕ
  fired : List (TicketResult T)

structure TicketArena (T : Type*) where
  next : ℕ
  audioFallback : Bool
  shuttingDown : Bool
  slots : ℕ → Option ℕ
  tickets : List (TicketSlot T)

/-- The calls of the arena, the steps of a submit after its allocation, and those of `finish`. -/
inductive TicketAction (T : Type*) where
  | nextId
  | submit (id : Option ℕ) (audio pollAfter : Bool)
  | post (i : ℕ) (accepted fallback : Bool)
  | finish (i : ℕ) (result : TicketResult T)
  | check (i : ℕ)
  | publish (i : ℕ)
  | deliver (i : ℕ)
  | wait (id : ℕ)
  | result (id : ℕ)
  | cancel (id : ℕ)
  | cancelAll

variable {T : Type*}

/-- The slot of shared memory that a result carries. -/
def frameOf : TicketResult T → Option ℕ
  | .ok (.shmFrame frame) => some frame
  | .ok (.shmAudio frame) => some frame
  | _ => none

/-- The job has been answered or refused. -/
def JobState.ended : JobState T → Bool
  | .unposted | .posted => false
  | _ => true

namespace TicketSlot

def new (id : ℕ) (audio pollAfter : Bool) : TicketSlot T where
  id := id
  audio := audio
  pollAfter := pollAfter
  cancel := false
  finished := false
  delivered := false
  completion := true
  result := none
  job := .unposted
  carried := none
  late := false
  released := []
  fired := []

/-- The backend takes the job, or `finish` is called for it. A refused audio job goes to the
fallback. -/
def post (audioFallback accepted fallback : Bool) (t : TicketSlot T) : TicketSlot T :=
  match t.job with
  | .unposted =>
    if accepted || (t.audio && audioFallback && fallback) then { t with job := .posted }
    else { t with job := .finishing (.error .state) }
  | _ => t

/-- The backend calls the completion of the job. -/
def answer (result : TicketResult T) (t : TicketSlot T) : TicketSlot T :=
  match t.job with
  | .posted => { t with job := .finishing result, carried := frameOf result }
  | _ => t

variable (t : TicketSlot T)

/-- `finish` looks at the flag. -/
def check : TicketSlot T :=
  match t.job with
  | .finishing result =>
    if t.cancel then
      { t with released := t.released ++ (frameOf result).toList, job := .checked (.error .state) }
    else { t with job := .checked result }
  | _ => t

/-- `finish` publishes the result. -/
def publish : TicketSlot T :=
  match t.job with
  | .checked result =>
    if t.finished then { t with job := .done }
    else { t with finished := true, result := some result, late := t.cancel, job := .published }
  | _ => t

/-- `finish` fires the completion. -/
def deliver : TicketSlot T :=
  match t.job with
  | .published =>
    if t.delivered then { t with job := .done }
    else if t.completion then
      { t with
        delivered := true
        completion := false
        fired := t.fired ++ [t.result.getD (.error .state)]
        job := .done }
    else { t with delivered := true, job := .done }
  | _ => t

/-- What is left of `finish`. -/
def finish : TicketSlot T := t.check.publish.deliver

/-- The completion fires at most once, and once when the job has ended and `finish` is over; a
ticket that was cancelled before it was finished is answered with `Error::State`, and gives back
what its result came with once; no other gives anything back. -/
structure Answered (t : TicketSlot T) : Prop where
  once : t.fired.length ≤ 1
  answered : t.job.ended = true → t.finish.fired.length = 1
  cancelled : t.late = true → t.finish.fired = [.error .state] ∧ t.released = t.carried.toList
  kept : t.finished = true → t.late = false → t.released = []

/-- No result is published. -/
structure Open (t : TicketSlot T) : Prop where
  finished : t.finished = false
  delivered : t.delivered = false
  completion : t.completion = true
  fired : t.fired = []
  late : t.late = false

/-- What holds of a ticket at every point of its life. -/
def WellFormed : Prop :=
  match t.job with
  | .unposted | .posted => t.Open ∧ t.released = [] ∧ t.carried = none
  | .finishing result => t.Open ∧ t.released = [] ∧ t.carried = frameOf result
  | .checked result => t.Open ∧ (t.released = [] ∧ t.carried = frameOf result ∨
      t.cancel = true ∧ result = .error .state ∧ t.released = t.carried.toList)
  | .published => t.finished = true ∧ t.delivered = false ∧ t.completion = true ∧ t.fired = [] ∧
      (t.late = false → t.released = [])
  | .done => t.finished = true ∧ t.fired = [t.result.getD (.error .state)] ∧
      (t.late = false → t.released = [])

end TicketSlot

/-! ### The life of a ticket -/

namespace TicketSlot

variable {t : TicketSlot T}

theorem open_new (id : ℕ) (audio pollAfter : Bool) : (new id audio pollAfter : TicketSlot T).Open :=
  ⟨rfl, rfl, rfl, rfl, rfl⟩

theorem wellFormed_new (id : ℕ) (audio pollAfter : Bool) :
    (new id audio pollAfter : TicketSlot T).WellFormed :=
  ⟨open_new id audio pollAfter, rfl, rfl⟩

theorem WellFormed.cancel (h : t.WellFormed) : WellFormed { t with cancel := true } := by
  cases hjob : t.job with
  | unposted | posted | finishing =>
    simp only [WellFormed, hjob] at h ⊢
    obtain ⟨hopen, hrest⟩ := h
    exact ⟨⟨hopen.finished, hopen.delivered, hopen.completion, hopen.fired, hopen.late⟩, hrest⟩
  | checked result =>
    simp only [WellFormed, hjob] at h ⊢
    obtain ⟨hopen, hrest⟩ := h
    refine ⟨⟨hopen.finished, hopen.delivered, hopen.completion, hopen.fired, hopen.late⟩, ?_⟩
    exact hrest.imp_right fun hlate => ⟨trivial, hlate.2⟩
  | published | done =>
    simp only [WellFormed, hjob] at h ⊢
    exact h

section

variable (h : t.WellFormed)

include h

theorem WellFormed.post (audioFallback accepted fallback : Bool) :
    (t.post audioFallback accepted fallback).WellFormed := by
  rw [TicketSlot.post]
  split
  next hjob =>
    simp only [WellFormed, hjob] at h
    obtain ⟨hopen, hreleased, hcarried⟩ := h
    split_ifs
    · exact ⟨⟨hopen.finished, hopen.delivered, hopen.completion, hopen.fired, hopen.late⟩,
        hreleased,   hcarried⟩
    · exact ⟨⟨hopen.finished, hopen.delivered, hopen.completion, hopen.fired, hopen.late⟩,
        hreleased,   hcarried⟩
  next => exact h

theorem WellFormed.answer (result : TicketResult T) : (t.answer result).WellFormed := by
  rw [TicketSlot.answer]
  split
  next hjob =>
    simp only [WellFormed, hjob] at h
    obtain ⟨hopen, hreleased, -⟩ := h
    exact ⟨⟨hopen.finished, hopen.delivered, hopen.completion, hopen.fired, hopen.late⟩, hreleased,
      rfl⟩
  next => exact h

theorem WellFormed.check : t.check.WellFormed := by
  rw [TicketSlot.check]
  split
  next result hjob =>
    simp only [WellFormed, hjob] at h
    obtain ⟨hopen, hreleased, hcarried⟩ := h
    split_ifs with hcancel
    · refine ⟨⟨hopen.finished, hopen.delivered, hopen.completion, hopen.fired, hopen.late⟩,
        .inr ⟨hcancel, rfl, ?_⟩⟩
      rw [hreleased, List.nil_append, hcarried]
    · exact ⟨⟨hopen.finished, hopen.delivered, hopen.completion, hopen.fired, hopen.late⟩,
        .inl ⟨hreleased, hcarried⟩⟩
  next => exact h

theorem WellFormed.publish : t.publish.WellFormed := by
  rw [TicketSlot.publish]
  split
  next result hjob =>
    simp only [WellFormed, hjob] at h
    obtain ⟨hopen, hrest⟩ := h
    rw [if_neg (by simp [hopen.finished])]
    refine ⟨rfl, hopen.delivered, hopen.completion, hopen.fired, fun hcancel => ?_⟩
    obtain ⟨hreleased, -⟩ | ⟨hset, -, -⟩ := hrest
    · exact hreleased
    · exact absurd (hset.symm.trans hcancel) (by decide)
  next => exact h

theorem WellFormed.deliver : t.deliver.WellFormed := by
  rw [TicketSlot.deliver]
  split
  next hjob =>
    simp only [WellFormed, hjob] at h
    obtain ⟨hfinished, hdelivered, hcompletion, hfired, hreleased⟩ := h
    rw [if_neg (by simp [hdelivered]), if_pos hcompletion]
    refine ⟨hfinished, ?_, hreleased⟩
    rw [hfired, List.nil_append]
  next => exact h

/-- Once `finish` has been called, what is left of it fires the completion once. -/
theorem WellFormed.fired_finish (hended : t.job.ended = true) :
    ∃ result, t.finish.fired = [result] := by
  have hwell := h.check.publish.deliver
  have hover : t.finish.job = .done := by
    cases hjob : t.job with
    | unposted | posted => rw [hjob] at hended; cases hended
    | finishing result =>
      simp only [WellFormed, hjob] at h
      obtain ⟨hopen, -⟩ := h
      by_cases hcancel : t.cancel = true
      · simp [finish, TicketSlot.check, hjob, hcancel, TicketSlot.publish, hopen.finished,
          TicketSlot.deliver, hopen.delivered, hopen.completion]
      · simp [finish, TicketSlot.check, hjob, hcancel, TicketSlot.publish, hopen.finished,
          TicketSlot.deliver, hopen.delivered, hopen.completion]
    | checked result =>
      simp only [WellFormed, hjob] at h
      obtain ⟨hopen, -⟩ := h
      simp [finish, TicketSlot.check, hjob, TicketSlot.publish, hopen.finished,
        TicketSlot.deliver, hopen.delivered, hopen.completion]
    | published =>
      simp only [WellFormed, hjob] at h
      simp [finish, TicketSlot.check, hjob, TicketSlot.publish, TicketSlot.deliver, h.2.1, h.2.2.1]
    | done => simp [finish, TicketSlot.check, hjob, TicketSlot.publish, TicketSlot.deliver]
  rw [← finish] at hwell
  simp only [WellFormed, hover] at hwell
  exact ⟨_, hwell.2.1⟩

/-- The completion of a finished ticket is called with the published result. -/
theorem WellFormed.fired_of_finished (hfinished : t.finished = true) :
    t.finish.fired = [t.result.getD (.error .state)] := by
  cases hjob : t.job with
  | unposted | posted | finishing | checked =>
    simp only [WellFormed, hjob] at h
    exact absurd (h.1.finished.symm.trans hfinished) (by decide)
  | published =>
    simp only [WellFormed, hjob] at h
    simp [finish, TicketSlot.check, hjob, TicketSlot.publish, TicketSlot.deliver, h.2.1, h.2.2.1,
      h.2.2.2.1]
  | done =>
    simp only [WellFormed, hjob] at h
    simp [finish, TicketSlot.check, hjob, TicketSlot.publish, TicketSlot.deliver, h.2.1]

/-- A ticket is answered exactly when a late result was replaced, and its memory given back. -/
theorem WellFormed.answered_iff :
    t.Answered ↔ (t.late = true → t.result.getD (.error .state) = .error .state ∧
      t.released = t.carried.toList) := by
  have hlate (hset : t.late = true) : t.finished = true := by
    cases hjob : t.job with
    | unposted | posted | finishing | checked =>
      simp only [WellFormed, hjob] at h
      exact absurd (h.1.late.symm.trans hset) (by decide)
    | published | done =>
      simp only [WellFormed, hjob] at h
      exact h.1
  constructor
  · intro hanswered hset
    obtain ⟨hfired, hreleased⟩ := hanswered.cancelled hset
    rw [h.fired_of_finished (hlate hset), List.singleton_inj] at hfired
    exact ⟨hfired, hreleased⟩
  · refine fun hreplaced => ⟨?_, fun hended => ?_, fun hset => ?_, fun hfinished hset => ?_⟩
    · cases hjob : t.job with
      | unposted | posted | finishing | checked =>
        simp only [WellFormed, hjob] at h
        simp [h.1.fired]
      | published =>
        simp only [WellFormed, hjob] at h
        simp [h.2.2.2.1]
      | done =>
        simp only [WellFormed, hjob] at h
        simp [h.2.1]
    · obtain ⟨result, hfired⟩ := h.fired_finish hended
      rw [hfired]
      rfl
    · obtain ⟨hresult, hreleased⟩ := hreplaced hset
      rw [h.fired_of_finished (hlate hset), hresult]
      exact ⟨rfl, hreleased⟩
    · cases hjob : t.job with
      | unposted | posted | finishing | checked =>
        simp only [WellFormed, hjob] at h
        exact absurd (h.1.finished.symm.trans hfinished) (by decide)
      | published =>
        simp only [WellFormed, hjob] at h
        exact h.2.2.2.2 hset
      | done =>
        simp only [WellFormed, hjob] at h
        exact h.2.2 hset

theorem WellFormed.answered_of_late (hlate : t.late = false) : t.Answered :=
  h.answered_iff.2 fun hset => absurd (hlate.symm.trans hset) (by decide)

end

theorem Answered.cancel (hwell : t.WellFormed) (h : t.Answered) :
    Answered { t with cancel := true } :=
  hwell.cancel.answered_iff.2 (hwell.answered_iff.1 h)

section

variable (hwell : t.WellFormed) (h : t.Answered)

include hwell h

theorem Answered.post (audioFallback accepted fallback : Bool) :
    (t.post audioFallback accepted fallback).Answered := by
  refine (hwell.post audioFallback accepted fallback).answered_iff.2 ?_
  rw [TicketSlot.post]
  split
  · split_ifs
    · exact hwell.answered_iff.1 h
    · exact hwell.answered_iff.1 h
  · exact hwell.answered_iff.1 h

theorem Answered.answer (result : TicketResult T) : (t.answer result).Answered := by
  have hnext := hwell.answer result
  rw [TicketSlot.answer] at hnext ⊢
  split at hnext
  next hjob =>
    simp only [WellFormed, hjob] at hwell
    exact hnext.answered_of_late hwell.1.late
  next => exact h

theorem Answered.check : t.check.Answered := by
  have hnext := hwell.check
  rw [TicketSlot.check] at hnext ⊢
  split at hnext
  next result hjob =>
    simp only [WellFormed, hjob] at hwell
    refine hnext.answered_of_late ?_
    split_ifs
    · exact hwell.1.late
    · exact hwell.1.late
  next => exact h

theorem Answered.deliver : t.deliver.Answered := by
  refine hwell.deliver.answered_iff.2 ?_
  rw [TicketSlot.deliver]
  split
  · split_ifs
    · exact hwell.answered_iff.1 h
    · exact hwell.answered_iff.1 h
    · exact hwell.answered_iff.1 h
  · exact hwell.answered_iff.1 h

/-- A result is published for a cancelled ticket only where it is `Error::State`. -/
theorem answered_publish_iff :
    t.publish.Answered ↔ ∀ result, t.job = .checked result → t.cancel = true →
      result = .error .state := by
  have hnext := hwell.publish
  by_cases hchecked : ∃ result, t.job = .checked result
  · obtain ⟨result, hjob⟩ := hchecked
    simp only [WellFormed, hjob] at hwell
    obtain ⟨hopen, hrest⟩ := hwell
    have hpublish : t.publish = { t with
        finished := true, result := some result, late := t.cancel, job := .published } := by
      simp [TicketSlot.publish, hjob, hopen.finished]
    rw [hnext.answered_iff, hpublish]
    constructor
    · intro hlate other hother hcancel
      rw [hjob] at hother
      cases hother
      exact (hlate hcancel).1
    · intro hquiet hcancel
      have hresult := hquiet result hjob hcancel
      refine ⟨hresult, ?_⟩
      obtain ⟨hreleased, hcarried⟩ | ⟨-, -, hreleased⟩ := hrest
      · rw [hreleased, hcarried, hresult]
        rfl
      · exact hreleased
  · refine iff_of_true ?_ fun result hjob => absurd ⟨result, hjob⟩ hchecked
    rw [TicketSlot.publish]
    split
    next result hjob => exact absurd ⟨result, hjob⟩ hchecked
    next => exact h

end

/-- A step of a ticket keeps its id, and does not reopen it. -/
structure Advances (t t' : TicketSlot T) : Prop where
  id : t'.id = t.id
  finished : t'.finished = false → t.finished = false

theorem advances_post (audioFallback accepted fallback : Bool) :
    t.Advances (t.post audioFallback accepted fallback) := by
  rw [TicketSlot.post]
  split
  · split_ifs
    · exact ⟨rfl, fun h => h⟩
    · exact ⟨rfl, fun h => h⟩
  · exact ⟨rfl, fun h => h⟩

theorem advances_answer (result : TicketResult T) : t.Advances (t.answer result) := by
  rw [TicketSlot.answer]
  split
  · exact ⟨rfl, fun h => h⟩
  · exact ⟨rfl, fun h => h⟩

theorem advances_check : t.Advances t.check := by
  rw [TicketSlot.check]
  split
  · split_ifs
    · exact ⟨rfl, fun h => h⟩
    · exact ⟨rfl, fun h => h⟩
  · exact ⟨rfl, fun h => h⟩

theorem advances_publish : t.Advances t.publish := by
  rw [TicketSlot.publish]
  split
  · split_ifs
    · exact ⟨rfl, fun h => h⟩
    · exact ⟨rfl, fun h => absurd h (by simp)⟩
  · exact ⟨rfl, fun h => h⟩

theorem advances_deliver : t.Advances t.deliver := by
  rw [TicketSlot.deliver]
  split
  · split_ifs
    · exact ⟨rfl, fun h => h⟩
    · exact ⟨rfl, fun h => h⟩
    · exact ⟨rfl, fun h => h⟩
  · exact ⟨rfl, fun h => h⟩

end TicketSlot

namespace TicketArena

def new (audioFallback : Bool) : TicketArena T where
  next := 1
  audioFallback := audioFallback
  shuttingDown := false
  slots _ := none
  tickets := []

/-- A step of the ticket `i`. -/
def modify (s : TicketArena T) (i : ℕ) (f : TicketSlot T → TicketSlot T) : TicketArena T :=
  { s with tickets := s.tickets.modify i f }

/-- The entries that `allocate` keeps. -/
def retained (s : TicketArena T) (i : ℕ) : Bool :=
  match s.tickets[i]? with
  | some t => !(t.finished && !t.pollAfter)
  | none => true

/-- The new entry is stored, and finished tickets that nobody will read are reaped. -/
def allocate (s : TicketArena T) (t : TicketSlot T) : TicketArena T :=
  let s := { s with
    slots := fun id => if id = t.id then some s.tickets.length else s.slots id
    tickets := s.tickets ++ [t] }
  { s with slots := fun id => (s.slots id).filter s.retained }

def nextId (s : TicketArena T) : TicketArena T := { s with next := s.next + 1 }

/-- A submit up to the post, with an id that the caller has reserved or with the next one. -/
def submit (s : TicketArena T) (id : Option ℕ) (audio pollAfter : Bool) : TicketArena T :=
  match id with
  | some id => s.allocate (.new id audio pollAfter)
  | none => s.nextId.allocate (.new s.next audio pollAfter)

/-- The ticket that `wait` waits for; there is none when it returns `Error::NotFound`. -/
def wait (s : TicketArena T) (id : ℕ) : Option ℕ := s.slots id

/-- `result` removes the entry, and reads the ticket. -/
def result (s : TicketArena T) (id : ℕ) : TicketArena T × Option (TicketResult T) :=
  ({ s with slots := fun x => if x = id then none else s.slots x },
    (s.slots id).bind fun i => s.tickets[i]?.bind TicketSlot.result)

def cancel (s : TicketArena T) (id : ℕ) : TicketArena T :=
  match s.slots id with
  | some i => s.modify i fun t => { t with cancel := true }
  | none => s

def cancelAll (s : TicketArena T) : TicketArena T :=
  { s with
    shuttingDown := true
    tickets := s.tickets.mapIdx fun i t =>
      if s.slots t.id = some i then { t with cancel := true } else t }

/-- One step. -/
def act (s : TicketArena T) : TicketAction T → TicketArena T
  | .nextId => s.nextId
  | .submit id audio pollAfter => s.submit id audio pollAfter
  | .post i accepted fallback => s.modify i (TicketSlot.post s.audioFallback accepted fallback)
  | .finish i result => s.modify i (TicketSlot.answer result)
  | .check i => s.modify i TicketSlot.check
  | .publish i => s.modify i TicketSlot.publish
  | .deliver i => s.modify i TicketSlot.deliver
  | .wait _ => s
  | .result id => (s.result id).1
  | .cancel id => s.cancel id
  | .cancelAll => s.cancelAll

/-- `wait`, `cancel` and `cancel_all` find the ticket `i`. -/
def Finds (s : TicketArena T) (i : ℕ) (t : TicketSlot T) : Prop :=
  s.wait t.id = some i ∧ (s.cancel t.id).tickets[i]? = some { t with cancel := true } ∧
    s.cancelAll.tickets[i]? = some { t with cancel := true }

/-- Every ticket is answered, and found until it is finished. -/
structure Sound (s : TicketArena T) : Prop where
  answered : ∀ (i : ℕ) (t : TicketSlot T), s.tickets[i]? = some t → t.Answered
  found : ∀ (i : ℕ) (t : TicketSlot T), s.tickets[i]? = some t → t.finished = false → s.Finds i t

/-- The entry of the id, if there is one, is a finished ticket's. -/
def Settled (s : TicketArena T) (id : ℕ) : Prop :=
  ∀ i t, s.slots id = some i → s.tickets[i]? = some t → t.finished = true

/-- No entry of an unfinished ticket is overwritten or read, and a ticket that is cancelled when its
result is published was found cancelled by `finish`, or its result is `Error::State` anyway. -/
def Quiet (s : TicketArena T) : TicketAction T → Prop
  | .submit id _ _ => s.Settled (id.getD s.next)
  | .result id => s.Settled id
  | .publish i => ∀ t result, s.tickets[i]? = some t → t.job = .checked result →
      t.cancel = true → result = .error .state
  | _ => True

/-- What holds in every state of a run. -/
structure Stored (s : TicketArena T) : Prop where
  wellFormed : ∀ (i : ℕ) (t : TicketSlot T), s.tickets[i]? = some t → t.WellFormed
  stored : ∀ id i, s.slots id = some i → ∃ t, s.tickets[i]? = some t ∧ t.id = id

/-! ### The arena -/

variable {s : TicketArena T}

theorem stored_new (audioFallback : Bool) : (new audioFallback : TicketArena T).Stored where
  wellFormed i t ht := by simp [new] at ht
  stored id i hi := by simp [new] at hi

theorem getElem?_modify {i : ℕ} {f : TicketSlot T → TicketSlot T} (j : ℕ) :
    (s.modify i f).tickets[j]? = if i = j then s.tickets[j]?.map f else s.tickets[j]? := by
  rw [modify]
  dsimp only
  rw [List.getElem?_modify]
  split_ifs
  · rfl
  · simp

theorem getElem?_cancelAll (i : ℕ) :
    s.cancelAll.tickets[i]? = s.tickets[i]?.map fun t =>
      if s.slots t.id = some i then { t with cancel := true } else t := by
  rw [cancelAll]
  dsimp only
  rw [List.getElem?_mapIdx]

variable {t : TicketSlot T}

/-- A ticket is found exactly when the arena has its entry. -/
theorem finds_iff {i : ℕ} (ht : s.tickets[i]? = some t) : s.Finds i t ↔ s.slots t.id = some i := by
  constructor
  · exact fun hfinds => hfinds.1
  · refine fun hslot => ⟨hslot, ?_, ?_⟩
    · rw [cancel, hslot]
      dsimp only
      rw [getElem?_modify, if_pos rfl, ht]
      rfl
    · rw [getElem?_cancelAll, ht, Option.map_some, if_pos hslot]

theorem sound_iff :
    s.Sound ↔ ∀ (i : ℕ) (t : TicketSlot T), s.tickets[i]? = some t →
      t.Answered ∧ (t.finished = false → s.slots t.id = some i) := by
  constructor
  · exact fun h i t ht => ⟨h.answered i t ht, fun hopen => (finds_iff ht).1 (h.found i t ht hopen)⟩
  · exact fun h => ⟨fun i t ht => (h i t ht).1, fun i t ht hopen =>
      (finds_iff ht).2 ((h i t ht).2 hopen)⟩

theorem Sound.of_entries (h : s.Sound) {s' : TicketArena T} (htickets : s'.tickets = s.tickets)
    (hslots : s'.slots = s.slots) : s'.Sound := by
  rw [sound_iff] at h ⊢
  rw [htickets, hslots]
  exact h

section Modify

variable {i : ℕ} {f : TicketSlot T → TicketSlot T}

theorem Stored.modify (h : s.Stored) (hid : ∀ t, (f t).id = t.id)
    (hwell : ∀ t, t.WellFormed → (f t).WellFormed) : (s.modify i f).Stored where
  wellFormed j t ht := by
    rw [getElem?_modify] at ht
    split_ifs at ht
    · obtain ⟨t, hold, rfl⟩ := Option.map_eq_some_iff.1 ht
      exact hwell t (h.wellFormed j t hold)
    · exact h.wellFormed j t ht
  stored id j hj := by
    obtain ⟨t, ht, hid'⟩ := h.stored id j hj
    rw [getElem?_modify, ht]
    split_ifs
    · exact ⟨f t, rfl, (hid t).trans hid'⟩
    · exact ⟨t, rfl, hid'⟩

theorem sound_modify_iff (h : s.Sound) (hadvances : ∀ t : TicketSlot T, t.Advances (f t)) :
    (s.modify i f).Sound ↔ ∀ t, s.tickets[i]? = some t → (f t).Answered := by
  rw [sound_iff] at h ⊢
  constructor
  · intro hsound t ht
    exact (hsound i (f t) (by rw [getElem?_modify, if_pos rfl, ht]; rfl)).1
  · intro hanswered j t ht
    rw [getElem?_modify] at ht
    split_ifs at ht with heq
    · subst heq
      obtain ⟨t, hold, rfl⟩ := Option.map_eq_some_iff.1 ht
      refine ⟨hanswered t hold, fun hopen => ?_⟩
      rw [(hadvances t).id]
      exact (h i t hold).2 ((hadvances t).finished hopen)
    · exact h j t ht

end Modify

theorem Stored.cancel (h : s.Stored) (id : ℕ) : (s.cancel id).Stored := by
  rw [TicketArena.cancel]
  split
  · exact h.modify (fun _ => rfl) fun _ hwell => hwell.cancel
  · exact h

theorem Stored.cancelAll (h : s.Stored) : s.cancelAll.Stored where
  wellFormed i t ht := by
    rw [getElem?_cancelAll] at ht
    obtain ⟨t, hold, rfl⟩ := Option.map_eq_some_iff.1 ht
    split_ifs
    · exact (h.wellFormed i t hold).cancel
    · exact h.wellFormed i t hold
  stored id i hi := by
    obtain ⟨t, ht, hid⟩ := h.stored id i hi
    rw [getElem?_cancelAll, ht]
    refine ⟨_, rfl, ?_⟩
    dsimp only
    split_ifs
    · exact hid
    · exact hid

theorem slots_allocate {id i : ℕ} (hi : (s.allocate t).slots id = some i) :
    id = t.id ∧ i = s.tickets.length ∨ id ≠ t.id ∧ s.slots id = some i := by
  rw [allocate] at hi
  obtain ⟨hi, -⟩ := Option.filter_eq_some_iff.1 hi
  dsimp only at hi
  split_ifs at hi with hid
  · exact .inl ⟨hid, (Option.some.inj hi).symm⟩
  · exact .inr ⟨hid, hi⟩

theorem Stored.allocate (h : s.Stored) (ht : t.WellFormed) :
    (s.allocate t).Stored where
  wellFormed i t' hi := by
    rw [TicketArena.allocate] at hi
    dsimp only at hi
    rw [List.getElem?_append] at hi
    split_ifs at hi with hlt
    · exact h.wellFormed i t' hi
    · have heq := List.mem_of_getElem? hi
      rw [List.mem_singleton] at heq
      exact heq ▸ ht
  stored id i hi := by
    obtain ⟨rfl, rfl⟩ | ⟨-, hold⟩ := slots_allocate hi
    · exact ⟨t, List.getElem?_concat_length, rfl⟩
    · obtain ⟨t', ht', hid⟩ := h.stored id i hold
      refine ⟨t', ?_, hid⟩
      rw [TicketArena.allocate]
      dsimp only
      rw [List.getElem?_append_left (List.getElem?_eq_some_iff.1 ht').1]
      exact ht'

/-- A submit that stores a new ticket loses no other, if its id is not an unfinished ticket's. -/
theorem sound_allocate_iff (hstored : s.Stored) (h : s.Sound) (ht : t.Answered)
    (hopen : t.finished = false) : (s.allocate t).Sound ↔ s.Settled t.id := by
  rw [sound_iff] at h ⊢
  have htickets : (s.allocate t).tickets = s.tickets ++ [t] := rfl
  constructor
  · intro hsound i t' hslot ht'
    by_contra hunfinished
    have hlt := (List.getElem?_eq_some_iff.1 ht').1
    obtain ⟨t'', ht'', hid⟩ := hstored.stored t.id i hslot
    obtain rfl := Option.some.inj (ht''.symm.trans ht')
    have hkept := (hsound i t'' (by rw [htickets, List.getElem?_append_left hlt, ht'])).2
      (by simpa using hunfinished)
    obtain ⟨-, heq⟩ | ⟨hne, -⟩ := slots_allocate hkept
    · omega
    · exact hne hid
  · intro hsettled i t' hi
    rw [htickets, List.getElem?_append] at hi
    have hretained (j : ℕ) (t'' : TicketSlot T) (hj : (s.tickets ++ [t])[j]? = some t'')
        (hunfinished : t''.finished = false) (hslot : (if t''.id = t.id then some s.tickets.length
          else s.slots t''.id) = some j) : (s.allocate t).slots t''.id = some j := by
      rw [allocate]
      refine Option.filter_eq_some_iff.2 ⟨hslot, ?_⟩
      simp [retained, hj, hunfinished]
    split_ifs at hi with hlt
    · refine ⟨(h i t' hi).1, fun hunfinished => ?_⟩
      have hslot := (h i t' hi).2 hunfinished
      refine hretained i t' (by rw [List.getElem?_append_left hlt, hi]) hunfinished ?_
      rw [if_neg]
      · exact hslot
      · intro hid
        exact absurd (hunfinished.symm.trans (hsettled i t' (hid ▸ hslot) hi)) (by decide)
    · have heq := List.mem_of_getElem? hi
      rw [List.mem_singleton] at heq
      subst heq
      refine ⟨ht, fun _ => hretained i t' ?_ hopen ?_⟩
      · rw [List.getElem?_append_right (Nat.not_lt.1 hlt)]
        exact hi
      · have hzero := (List.getElem?_eq_some_iff.1 hi).1
        rw [List.length_singleton] at hzero
        rw [if_pos rfl]
        congr 1
        omega

theorem Stored.result (h : s.Stored) (id : ℕ) : (s.result id).1.Stored where
  wellFormed := h.wellFormed
  stored x i hi := by
    rw [TicketArena.result] at hi
    dsimp only at hi
    split_ifs at hi
    exact h.stored x i hi

/-- `result` loses no ticket exactly when the one it reads is finished. -/
theorem sound_result_iff (hstored : s.Stored) (h : s.Sound) (id : ℕ) :
    (s.result id).1.Sound ↔ s.Settled id := by
  rw [sound_iff] at h ⊢
  constructor
  · intro hsound i t hslot ht
    by_contra hunfinished
    obtain ⟨t', ht', hid⟩ := hstored.stored id i hslot
    obtain rfl := Option.some.inj (ht'.symm.trans ht)
    have hkept := (hsound i t' ht).2 (by simpa using hunfinished)
    rw [result] at hkept
    dsimp only at hkept
    rw [if_pos hid] at hkept
    cases hkept
  · refine fun hsettled i t ht => ⟨(h i t ht).1, fun hunfinished => ?_⟩
    have hslot := (h i t ht).2 hunfinished
    rw [result]
    dsimp only
    rw [if_neg]
    · exact hslot
    · intro hid
      exact absurd (hunfinished.symm.trans (hsettled i t (hid ▸ hslot) ht)) (by decide)

theorem Stored.act (h : s.Stored) (a : TicketAction T) : (s.act a).Stored := by
  cases a with
  | nextId => exact ⟨h.wellFormed, h.stored⟩
  | submit id audio pollAfter =>
    cases id with
    | some id => exact h.allocate (TicketSlot.wellFormed_new id audio pollAfter)
    | none =>
      exact Stored.allocate (s := s.nextId) ⟨h.wellFormed, h.stored⟩
        (TicketSlot.wellFormed_new s.next audio pollAfter)
  | post i accepted fallback =>
    exact h.modify (fun _ => (TicketSlot.advances_post _ _ _).id) fun _ hwell => hwell.post _ _ _
  | finish i result =>
    exact h.modify (fun _ => (TicketSlot.advances_answer _).id) fun _ hwell => hwell.answer _
  | check i => exact h.modify (fun _ => TicketSlot.advances_check.id) fun _ hwell => hwell.check
  | publish i =>
    exact h.modify (fun _ => TicketSlot.advances_publish.id) fun _ hwell => hwell.publish
  | deliver i =>
    exact h.modify (fun _ => TicketSlot.advances_deliver.id) fun _ hwell => hwell.deliver
  | wait id => exact h
  | result id => exact h.result id
  | cancel id => exact h.cancel id
  | cancelAll => exact h.cancelAll

/-- One step keeps every ticket answered and found exactly when it is quiet. -/
theorem sound_act_iff (hstored : s.Stored) (h : s.Sound) (a : TicketAction T) :
    (s.act a).Sound ↔ s.Quiet a := by
  have hanswered (i : ℕ) (t : TicketSlot T) (ht : s.tickets[i]? = some t) :
      t.WellFormed ∧ t.Answered := ⟨hstored.wellFormed i t ht, h.answered i t ht⟩
  cases a with
  | nextId => exact iff_of_true (h.of_entries rfl rfl) trivial
  | submit id audio pollAfter =>
    cases id with
    | some id =>
      exact sound_allocate_iff hstored h
        ((TicketSlot.wellFormed_new id audio pollAfter).answered_of_late rfl) rfl
    | none =>
      exact sound_allocate_iff (s := s.nextId) ⟨hstored.wellFormed, hstored.stored⟩
        (h.of_entries rfl rfl)
        ((TicketSlot.wellFormed_new s.next audio pollAfter).answered_of_late rfl) rfl
  | post i accepted fallback =>
    refine iff_of_true ((sound_modify_iff h fun _ => TicketSlot.advances_post _ _ _).2 ?_) trivial
    exact fun t ht => (hanswered i t ht).2.post (hanswered i t ht).1 _ _ _
  | finish i result =>
    refine iff_of_true ((sound_modify_iff h fun _ => TicketSlot.advances_answer _).2 ?_) trivial
    exact fun t ht => (hanswered i t ht).2.answer (hanswered i t ht).1 _
  | check i =>
    refine iff_of_true ((sound_modify_iff h fun _ => TicketSlot.advances_check).2 ?_) trivial
    exact fun t ht => (hanswered i t ht).2.check (hanswered i t ht).1
  | publish i =>
    rw [act, sound_modify_iff h fun _ => TicketSlot.advances_publish]
    constructor
    · intro hpublish t result ht
      obtain ⟨hwell, hold⟩ := hanswered i t ht
      exact (TicketSlot.answered_publish_iff hwell hold).1 (hpublish t ht) result
    · intro hquiet t ht
      obtain ⟨hwell, hold⟩ := hanswered i t ht
      exact (TicketSlot.answered_publish_iff hwell hold).2 fun result => hquiet t result ht
  | deliver i =>
    refine iff_of_true ((sound_modify_iff h fun _ => TicketSlot.advances_deliver).2 ?_) trivial
    exact fun t ht => (hanswered i t ht).2.deliver (hanswered i t ht).1
  | wait id => exact iff_of_true h trivial
  | result id => exact sound_result_iff hstored h id
  | cancel id =>
    refine iff_of_true ?_ trivial
    rw [act, cancel]
    split
    next i hslot =>
      refine (sound_modify_iff (f := fun t => { t with cancel := true }) h
        fun _ => ⟨rfl, fun hopen => hopen⟩).2 fun t ht => ?_
      exact (hanswered i t ht).2.cancel (hanswered i t ht).1
    next => exact h
  | cancelAll =>
    refine iff_of_true (sound_iff.2 fun i t ht => ?_) trivial
    rw [act, getElem?_cancelAll] at ht
    obtain ⟨t, hold, rfl⟩ := Option.map_eq_some_iff.1 ht
    have hslot := (sound_iff.1 h i t hold).2
    split_ifs
    · exact ⟨(hanswered i t hold).2.cancel (hanswered i t hold).1, hslot⟩
    · exact ⟨(hanswered i t hold).2, hslot⟩

/-- Every ticket is answered once, and found until then, all along exactly the quiet runs. -/
theorem sound_run_iff (audioFallback : Bool) (as : List (TicketAction T)) :
    (∀ bs cs, as = bs ++ cs → (run act (new audioFallback) bs).Sound) ↔
      Permitted act Quiet (new audioFallback) as :=
  forall_run_iff (J := Stored) (fun _ a h => h.act a)
    (fun _ a hstored h => sound_act_iff hstored h a) (stored_new audioFallback)
    (sound_iff.2 fun i t ht => by simp [new] at ht)

/-- A ticket has fired nothing, or what was published and once; after its job, what is left of
`finish` makes it one completion. -/
def FiresOnce (arena : TicketArena T) : Prop :=
  ∀ t ∈ arena.tickets,
    (t.fired = [] ∨ t.finished = true ∧ t.fired = [t.result.getD (.error .state)]) ∧
      (t.job.ended = true → ∃ result, t.finish.fired = [result])

theorem fired_run (audioFallback : Bool) (as : List (TicketAction T)) :
    (run act (new audioFallback) as).FiresOnce := by
  intro t ht
  obtain ⟨i, hi⟩ := List.getElem?_of_mem ht
  have hwell : t.WellFormed := (invariant_always (I := Stored) (fun _ a h => h.act a)
    (stored_new audioFallback) as).wellFormed i t hi
  refine ⟨?_, hwell.fired_finish⟩
  cases hjob : t.job with
  | unposted | posted | finishing | checked =>
    simp only [TicketSlot.WellFormed, hjob] at hwell
    exact .inl hwell.1.fired
  | published =>
    simp only [TicketSlot.WellFormed, hjob] at hwell
    exact .inl hwell.2.2.2.1
  | done =>
    simp only [TicketSlot.WellFormed, hjob] at hwell
    exact .inr ⟨hwell.1, hwell.2.1⟩

/-- A ticket is submitted and posted, and its result is asked for before the backend has it. -/
def earlyResult : List (TicketAction T) := [.submit none false true, .post 0 true false, .result 1]

theorem earlyResult_lost : ¬ ∀ as, (run act (new false : TicketArena ℕ) as).Sound := by
  intro h
  have hfound := (sound_iff.1 (h earlyResult) 0 _ rfl).2 rfl
  cases hfound

end TicketArena

end Oak.Render
