import Oak.Core.TimeRange
import Oak.Lib.Assoc
import Oak.Lib.Machine
import Oak.Render.Ticket
import Mathlib.Data.Rat.Floor
import Mathlib.Data.List.Perm.Basic

/-!
# Rendering for an export

`RenderTask::render` of `oak-task/src/render.rs` with its completion channel. Tickets are submitted
in the order of their slots, at most a window of them at a time, and complete in any order on other
threads; their results wait in a reorder buffer until they are handed to the hooks in the order of
the slots.

* `RenderTask.slots` are the slots: the audio range, and then the frame times of the range.
* `RenderRun` is the state of one call, `Stage` where its thread is. A ticket that has been
  submitted and not yet recorded by `start_video_ticket` or `start_audio_ticket` is `recording`.
  `live` are the tickets whose completion has not run.
* `hooks` are the tickets that a hook was called for, `taken` those whose result left the reorder
  buffer for one, `completed` all results, and `released` the slots of shared memory that were
  released. The code does not keep them.
* Cancelling and waiting for the tickets in flight at the end changes nothing here: `wait_idle`
  waits for their completions.

## Main results

* `Sound.act`: where a ticket and its result are, and what a stage means.
* `render_run`: what a call delivers, releases and returns.
* `window_run`: the window and the order of the slots, in every call.
* `render_hook_error`, `render_cancel`: a slot that is not released, and a hook that is called after
  a cancellation.
-/

namespace Oak.Task

open Oak.Core Oak.Lib Oak.Render

variable {T : Type*}

/-- One deliverable unit of the render. -/
structure DeliverySlot where
  audio : Bool
  time : Rational
  deriving DecidableEq

/-- What a call depends on. -/
structure RenderTask where
  exportRange : TimeRange
  timebase : Rational
  timebase_pos : 0 < timebase
  audioEnabled : Bool
  maxInflight : ℕ

namespace RenderTask

/-- The loop that lists the frame times from `t` on, for at most `n` rounds. -/
def timesFrom (timebase out : Rational) : ℕ → Rational → List Rational
  | 0, _ => []
  | n + 1, t => if t < out then t :: timesFrom timebase out n (t + timebase) else []

variable (task : RenderTask)

/-- The frame times. There are no more of them than the length of the range allows. -/
def frameTimes : List Rational :=
  timesFrom task.timebase task.exportRange.out ⌈task.exportRange.length / task.timebase⌉.toNat
    task.exportRange.in_

def audioSlots : List DeliverySlot :=
  if task.audioEnabled then [⟨true, task.exportRange.in_⟩] else []

/-- The slots in the order of their delivery. -/
def slots : List DeliverySlot := task.audioSlots ++ task.frameTimes.map fun t => ⟨false, t⟩

def window : ℕ := max task.maxInflight 1

end RenderTask

/-- Why a call returns an error. -/
inductive RenderError where
  | build | unexpected | ticket | hook | cancelled
  deriving DecidableEq

/-- Where the thread of a call is. -/
inductive Stage where
  | audio | frames | head | drain | deliver | refill | waiting | waited | finish | idle | returned
  deriving DecidableEq

/-- Results are drained and delivered. -/
def Stage.inLoop : Stage → Bool
  | .drain | .deliver => true
  | _ => false

/-- The state of a call. -/
structure RenderRun (T : Type*) where
  nextId : ℕ
  live : List ℕ
  running : ℕ
  finished : List (ℕ × TicketResult T)
  cancelled : Bool
  inFlight : List (ℕ × DeliverySlot)
  recording : Option (ℕ × DeliverySlot)
  consumed : ℕ
  nextFrame : ℕ
  nextSlot : ℕ
  pending : List (ℕ × ℕ × TicketResult T)
  result : Option RenderError
  stage : Stage
  hooks : List ℕ
  taken : List ℕ
  completed : List (ℕ × TicketResult T)
  released : List ℕ

/-- A step of the call's thread, which succeeds or not where it builds a ticket or calls a hook; a
completion; a cancellation; and another user of the arena, who takes a ticket id. -/
inductive RenderAction (T : Type*) where
  | main (ok : Bool)
  | complete (id : ℕ) (result : TicketResult T)
  | cancel
  | otherTicket

namespace RenderRun

/-! ### The code -/

/-- The begin of a call. -/
def start (nextId : ℕ) : RenderRun T where
  nextId := nextId
  live := []
  running := 0
  finished := []
  cancelled := false
  inFlight := []
  recording := none
  consumed := 0
  nextFrame := 0
  nextSlot := 0
  pending := []
  result := none
  stage := .audio
  hooks := []
  taken := []
  completed := []
  released := []

variable (task : RenderTask) (s : RenderRun T)

/-- `submit_video_ticket` and `submit_audio_ticket`, up to where the ticket may complete. -/
def submit (slot : DeliverySlot) (next : Stage) (ok : Bool) : RenderRun T :=
  if ok then
    { s with
      nextId := s.nextId + 1
      live := s.nextId :: s.live
      running := s.running + 1
      recording := some (s.nextId, slot)
      stage := next }
  else { s with result := some .build, stage := .finish }

/-- The end of `start_video_ticket` and `start_audio_ticket`. -/
def record (ticket : ℕ × DeliverySlot) : RenderRun T :=
  { s with
    inFlight := s.inFlight ++ [ticket]
    nextFrame := if ticket.2.audio then s.nextFrame else s.nextFrame + 1
    recording := none }

/-- `classify_ticket`. The slots are different, so no key is overwritten. -/
def classifyTicket (id : ℕ) : Option ℕ := (s.inFlight.lookup id).bind task.slots.idxOf?

/-- A result is taken off the completion queue. -/
def drain : RenderRun T :=
  match s.finished with
  | [] => { s with stage := .deliver }
  | (id, result) :: rest =>
    match s.classifyTicket task id with
    | some slot =>
      { s with
        consumed := s.consumed + 1
        finished := rest
        pending := (slot, id, result) :: s.pending.filter fun e => e.1 ≠ slot }
    | none =>
      { s with
        consumed := s.consumed + 1
        finished := rest
        result := some .unexpected
        stage := .finish }

/-- A result that a hook can be called with. -/
def payloadFits (slot : DeliverySlot) (result : TicketResult T) : Bool :=
  match slot.audio, result with
  | true, .ok (.audio _) | true, .ok (.shmAudio _) => true
  | false, .ok (.video _) | false, .ok (.shmFrame _) => true
  | _, _ => false

/-- The result of the next slot is handed to its hook. -/
def deliver (ok : Bool) : RenderRun T :=
  match s.pending.lookup s.nextSlot, task.slots[s.nextSlot]? with
  | some (id, result), some slot =>
    let s := { s with
      pending := s.pending.filter fun e => e.1 ≠ s.nextSlot
      taken := s.taken ++ [id] }
    if payloadFits slot result then
      let s := { s with hooks := s.hooks ++ [id] }
      if ok then
        { s with released := s.released ++ (frameOf result).toList, nextSlot := s.nextSlot + 1 }
      else { s with result := some .hook, stage := .finish }
    else { s with result := some .ticket, stage := .finish }
  | _, _ => { s with stage := if s.cancelled then .finish else .refill }

/-- The next step of the call's thread, which is at `stage` and has recorded its tickets. -/
def advance (ok : Bool) (stage : Stage) : RenderRun T :=
  match stage with
  | .audio =>
    if task.audioEnabled then s.submit ⟨true, task.exportRange.in_⟩ .frames ok
    else { s with stage := .frames }
  | .frames =>
    if s.inFlight.length < task.window then
      match task.frameTimes[s.nextFrame]? with
      | some time => s.submit ⟨false, time⟩ .frames ok
      | none => { s with stage := .head }
    else { s with stage := .head }
  | .head =>
    { s with stage := if !s.cancelled ∧ s.nextSlot < task.slots.length then .drain else .finish }
  | .drain => s.drain task
  | .deliver => s.deliver task ok
  | .refill =>
    let rest : RenderRun T :=
      { s with stage := if task.slots.length ≤ s.nextSlot then .finish else .waiting }
    if s.inFlight.length - s.consumed < task.window then
      match task.frameTimes[s.nextFrame]? with
      | some time => s.submit ⟨false, time⟩ .refill ok
      | none => rest
    else rest
  | .waiting =>
    if s.finished ≠ [] ∨ s.running = 0 ∨ s.cancelled then { s with stage := .waited } else s
  | .waited =>
    { s with stage := if s.finished = [] ∧ s.running = 0 then .finish else .head }
  | .finish =>
    let result := if s.result = none ∧ s.cancelled ∧ s.nextSlot < task.slots.length then
      some .cancelled else s.result
    { s with result := result, stage := .idle }
  | .idle => if s.running = 0 then { s with stage := .returned } else s
  | .returned => s

/-- The next step of the call's thread. -/
def main (ok : Bool) : RenderRun T :=
  match s.recording with
  | some ticket => s.record ticket
  | none => s.advance task ok s.stage

/-- `push_finished`, on the thread of the ticket. -/
def complete (id : ℕ) (result : TicketResult T) : RenderRun T :=
  if id ∈ s.live then
    { s with
      live := s.live.erase id
      running := s.running - 1
      finished := s.finished ++ [(id, result)]
      completed := s.completed ++ [(id, result)] }
  else s

/-- One action. -/
def act : RenderAction T → RenderRun T
  | .main ok => s.main task ok
  | .complete id result => s.complete id result
  | .cancel => { s with cancelled := true }
  | .otherTicket => { s with nextId := s.nextId + 1 }

end RenderRun

/-! ### Slots -/

namespace RenderTask

variable {task : RenderTask} {timebase out t : Rational}

theorem le_of_mem_timesFrom (hpos : 0 < timebase) {n : ℕ} {x : Rational}
    (hx : x ∈ timesFrom timebase out n t) : t ≤ x := by
  induction n generalizing t with
  | zero => exact absurd hx List.not_mem_nil
  | succ n ih =>
    rw [timesFrom] at hx
    split_ifs at hx
    · rcases List.mem_cons.1 hx with rfl | hx
      · exact le_rfl
      · exact (le_add_of_nonneg_right hpos.le).trans (ih hx)
    · exact absurd hx List.not_mem_nil

theorem sorted_timesFrom (hpos : 0 < timebase) (n : ℕ) (t : Rational) :
    (timesFrom timebase out n t).Pairwise (· < ·) := by
  induction n generalizing t with
  | zero => exact List.Pairwise.nil
  | succ n ih =>
    rw [timesFrom]
    split_ifs
    · refine List.pairwise_cons.2 ⟨fun x hx => ?_, ih _⟩
      exact lt_of_lt_of_le (lt_add_of_pos_right t hpos) (le_of_mem_timesFrom hpos hx)
    · exact List.Pairwise.nil

theorem getElem?_timesFrom (hpos : 0 < timebase) (n k : ℕ) (t : Rational) :
    (timesFrom timebase out n t)[k]? =
      if k < n ∧ t + k * timebase < out then some (t + k * timebase) else none := by
  induction n generalizing t k with
  | zero => rw [timesFrom, List.getElem?_nil, if_neg fun h => absurd h.1 (Nat.not_lt_zero k)]
  | succ n ih =>
    rw [timesFrom]
    by_cases hlt : t < out
    · rw [if_pos hlt]
      cases k with
      | zero => simp [hlt]
      | succ k =>
        have hshift : t + timebase + k * timebase = t + (k + 1 : ℕ) * timebase := by
          push_cast
          ring
        rw [List.getElem?_cons_succ, ih, hshift]
        simp only [Nat.add_lt_add_iff_right]
    · rw [if_neg hlt, List.getElem?_nil, if_neg]
      rintro ⟨-, hk⟩
      exact hlt (lt_of_le_of_lt (le_add_of_nonneg_right (by positivity)) hk)

/-- The frame times are those of the range, a time base apart. -/
theorem getElem?_frameTimes (task : RenderTask) (k : ℕ) :
    task.frameTimes[k]? =
      if task.exportRange.in_ + k * task.timebase < task.exportRange.out then
        some (task.exportRange.in_ + k * task.timebase)
      else none := by
  rw [frameTimes, getElem?_timesFrom task.timebase_pos]
  by_cases hlt : task.exportRange.in_ + k * task.timebase < task.exportRange.out
  · have hk : (k : ℚ) < task.exportRange.length / task.timebase := by
      rw [lt_div_iff₀ task.timebase_pos, TimeRange.length]
      linarith
    have hceil : (k : ℤ) < ⌈task.exportRange.length / task.timebase⌉ := by
      exact_mod_cast hk.trans_le (Int.le_ceil _)
    rw [if_pos hlt, if_pos ⟨by omega, hlt⟩]
  · rw [if_neg hlt, if_neg fun h => hlt h.2]

theorem nodup_slots (task : RenderTask) : task.slots.Nodup := by
  refine List.nodup_append.2 ⟨?_, ?_, ?_⟩
  · rw [audioSlots]
    split_ifs
    · exact List.nodup_singleton _
    · exact List.nodup_nil
  · refine List.Nodup.map (fun a b h => (DeliverySlot.mk.inj h).2) ?_
    exact (sorted_timesFrom task.timebase_pos _ _).imp ne_of_lt
  · rintro a ha b hb rfl
    obtain ⟨t, -, rfl⟩ := List.mem_map.1 hb
    rw [audioSlots] at ha
    split_ifs at ha
    · exact absurd (List.mem_singleton.1 ha) (by simp)
    · cases ha

theorem getElem?_slots (n : ℕ) :
    task.slots[task.audioSlots.length + n]? =
      task.frameTimes[n]?.map fun t => ⟨false, t⟩ := by
  rw [slots, List.getElem?_append_right (Nat.le_add_right _ _), Nat.add_sub_cancel_left,
    List.getElem?_map]

theorem length_slots (task : RenderTask) :
    task.slots.length = task.audioSlots.length + task.frameTimes.length := by
  rw [slots, List.length_append, List.length_map]

theorem countP_take_slots {n : ℕ} (hn : task.audioSlots.length ≤ n)
    (hle : n ≤ task.slots.length) :
    (task.slots.take n).countP (fun slot => !slot.audio) + task.audioSlots.length = n := by
  have haudio : task.audioSlots.countP (fun slot => !slot.audio) = 0 := by
    rw [audioSlots]
    split_ifs <;> rfl
  have hframes (l : List Rational) :
      (l.map fun t => (⟨false, t⟩ : DeliverySlot)).countP (fun slot => !slot.audio) =
        l.length := by
    rw [List.countP_map]
    exact List.countP_eq_length.2 fun _ _ => rfl
  rw [length_slots] at hle
  rw [slots, List.take_append, List.take_of_length_le hn, List.countP_append, haudio,
    ← List.map_take, hframes, List.length_take]
  omega

end RenderTask

/-! ### Tickets and results -/

variable {result : TicketResult T} {ok : Bool} {slot : DeliverySlot} {id : ℕ}

variable {ticket : ℕ × DeliverySlot} {as : List (RenderAction T)}

namespace RenderRun

variable {task : RenderTask} {s : RenderRun T}

/-- The tickets that were submitted. -/
def tickets (s : RenderRun T) : List (ℕ × DeliverySlot) := s.inFlight ++ s.recording.toList

def ids (s : RenderRun T) : List ℕ := s.tickets.map Prod.fst

/-- Where the tickets and their results are. -/
structure Ledger (task : RenderTask) (s : RenderRun T) : Prop where
  slots : s.tickets.map Prod.snd = task.slots.take s.tickets.length
  nextFrame : s.nextFrame = s.inFlight.countP fun t => !t.2.audio
  nodup : s.ids.Nodup
  fresh : ∀ id ∈ s.ids, id < s.nextId
  perm : s.ids.Perm (s.live ++ (s.finished.map Prod.fst ++ (s.pending.map (fun e => e.2.1) ++
    s.taken)))
  running : s.running = s.live.length
  consumed : s.consumed = s.pending.length + s.taken.length
  pending : ∀ e ∈ s.pending, s.ids[e.1]? = some e.2.1
  taken : s.taken = s.ids.take s.taken.length
  hooks : s.hooks <+: s.taken
  completed : s.ids.Perm (s.live ++ s.completed.map Prod.fst)

theorem ledger_start (task : RenderTask) (nextId : ℕ) :
    Ledger task (start nextId : RenderRun T) where
  slots := rfl
  nextFrame := rfl
  nodup := List.nodup_nil
  fresh _ h := absurd h List.not_mem_nil
  perm := .refl _
  running := rfl
  consumed := rfl
  pending _ h := absurd h List.not_mem_nil
  taken := rfl
  hooks := List.prefix_rfl
  completed := .refl _

theorem Ledger.length_le (h : Ledger task s) : s.tickets.length ≤ task.slots.length := by
  have hlength := congrArg List.length h.slots
  rw [List.length_map, List.length_take] at hlength
  omega

theorem Ledger.length_taken_le (h : Ledger task s) : s.taken.length ≤ s.ids.length := by
  have hlength := congrArg List.length h.taken
  rw [List.length_take] at hlength
  omega

theorem length_ids (s : RenderRun T) : s.ids.length = s.tickets.length := List.length_map _

section

variable (h : Ledger task s)

include h

/-- The stage, the result and the cancellation do not matter, and neither do ids that others take. -/
theorem Ledger.setStage (stage : Stage) (result : Option RenderError) (cancelled : Bool) :
    Ledger task { s with stage := stage, result := result, cancelled := cancelled } where
  slots := h.slots
  nextFrame := h.nextFrame
  nodup := h.nodup
  fresh := h.fresh
  perm := h.perm
  running := h.running
  consumed := h.consumed
  pending := h.pending
  taken := h.taken
  hooks := h.hooks
  completed := h.completed

theorem Ledger.otherTicket : Ledger task { s with nextId := s.nextId + 1 } where
  slots := h.slots
  nextFrame := h.nextFrame
  nodup := h.nodup
  fresh id hid := Nat.lt_succ_of_lt (h.fresh id hid)
  perm := h.perm
  running := h.running
  consumed := h.consumed
  pending := h.pending
  taken := h.taken
  hooks := h.hooks
  completed := h.completed

theorem Ledger.submit (hrecording : s.recording = none)
    (hslot : task.slots[s.tickets.length]? = some slot) (next : Stage) (ok : Bool) :
    Ledger task (s.submit slot next ok) := by
  cases ok with
  | false => exact h.setStage _ _ _
  | true =>
    have htickets : (s.submit slot next true).tickets = s.tickets ++ [(s.nextId, slot)] := by
      simp [tickets, RenderRun.submit, hrecording]
    have hids : (s.submit slot next true).ids = s.ids ++ [s.nextId] := by
      rw [ids, htickets, List.map_append]
      rfl
    have hnew : s.nextId ∉ s.ids := fun hmem => lt_irrefl _ (h.fresh _ hmem)
    have hperm {l : List ℕ} (hl : s.ids.Perm (s.live ++ l)) :
        (s.ids ++ [s.nextId]).Perm (s.nextId :: s.live ++ l) :=
      (List.perm_append_comm.trans (hl.cons s.nextId))
    refine ⟨?_, h.nextFrame, ?_, ?_, ?_, ?_, h.consumed, ?_, ?_, h.hooks, ?_⟩
    · rw [htickets, List.map_append, h.slots, List.length_append, List.length_singleton,
        List.take_add_one, hslot]
      rfl
    · rw [hids]
      exact List.nodup_append.2 ⟨h.nodup, List.nodup_singleton _, fun a ha b hb heq =>
        hnew (List.mem_singleton.1 hb ▸ heq ▸ ha)⟩
    · rw [hids]
      intro id hid
      rcases List.mem_append.1 hid with hid | hid
      · exact Nat.lt_succ_of_lt (h.fresh id hid)
      · exact List.mem_singleton.1 hid ▸ Nat.lt_succ_self _
    · rw [hids]
      exact hperm h.perm
    · exact congrArg (· + 1) h.running
    · rw [hids]
      intro e he
      have hpending := h.pending e he
      rwa [List.getElem?_append_left (List.getElem?_eq_some_iff.1 hpending).1]
    · rw [hids]
      change s.taken = (s.ids ++ [s.nextId]).take s.taken.length
      rw [List.take_append_of_le_length h.length_taken_le]
      exact h.taken
    · rw [hids]
      exact hperm h.completed

theorem Ledger.record (hrecording : s.recording = some ticket) : Ledger task (s.record ticket) := by
  have htickets : (s.record ticket).tickets = s.tickets := by
    simp [tickets, RenderRun.record, hrecording]
  have hids : (s.record ticket).ids = s.ids := by rw [ids, htickets, ids]
  refine ⟨?_, ?_, ?_, ?_, ?_, h.running, h.consumed, ?_, ?_, h.hooks, ?_⟩
  · rw [htickets]
    exact h.slots
  · dsimp only [RenderRun.record]
    rw [List.countP_append, ← h.nextFrame, List.countP_singleton]
    cases ticket.2.audio <;> rfl
  all_goals rw [hids]
  · exact h.nodup
  · exact h.fresh
  · exact h.perm
  · exact h.pending
  · exact h.taken
  · exact h.completed

theorem Ledger.complete (id : ℕ) (result : TicketResult T) :
    Ledger task (s.complete id result) := by
  rw [RenderRun.complete]
  split_ifs with hid
  · have hlive : s.live.Perm (id :: s.live.erase id) := List.perm_cons_erase hid
    have hmove (l l' : List ℕ) :
        (s.live ++ (l ++ l')).Perm (s.live.erase id ++ (l ++ [id] ++ l')) := by
      refine (hlive.append_right _).trans ?_
      rw [List.append_assoc, List.singleton_append]
      exact List.perm_middle.symm.trans ((List.perm_middle.symm).append_left _)
    refine ⟨h.slots, h.nextFrame, h.nodup, h.fresh, ?_, ?_, h.consumed, h.pending, h.taken, h.hooks,
      ?_⟩
    · rw [List.map_append]
      exact h.perm.trans (hmove _ _)
    · have hlength := hlive.length_eq
      rw [List.length_cons, ← h.running] at hlength
      dsimp only
      omega
    · rw [List.map_append]
      have hmove' := hmove (s.completed.map Prod.fst) []
      rw [List.append_nil, List.append_nil] at hmove'
      exact h.completed.trans hmove'
  · exact h

theorem Ledger.eq_of_getElem? {i j id : ℕ} (hi : s.ids[i]? = some id) (hj : s.ids[j]? = some id) :
    i = j := by
  obtain ⟨hi', hid⟩ := List.getElem?_eq_some_iff.1 hi
  obtain ⟨hj', hjd⟩ := List.getElem?_eq_some_iff.1 hj
  exact (List.Nodup.getElem_inj_iff h.nodup).1 (hid.trans hjd.symm)

theorem Ledger.classifyTicket (hrecording : s.recording = none) {i id : ℕ}
    (hi : s.ids[i]? = some id) : s.classifyTicket task id = some i := by
  have htickets : s.inFlight = s.tickets := by
    rw [tickets, hrecording, Option.toList_none, List.append_nil]
  obtain ⟨⟨id', slot⟩, hticket, rfl⟩ : ∃ t, s.tickets[i]? = some t ∧ t.1 = id := by
    rw [ids, List.getElem?_map] at hi
    exact Option.map_eq_some_iff.1 hi
  have hlookup : s.inFlight.lookup id' = some slot := by
    rw [htickets]
    exact lookup_of_nodup h.nodup (List.mem_of_getElem? hticket)
  have hslot : task.slots[i]? = some slot := by
    have hmap : (s.tickets.map Prod.snd)[i]? = some slot := by
      rw [List.getElem?_map, hticket, Option.map_some]
    rw [h.slots] at hmap
    rwa [List.getElem?_take_of_lt (List.getElem?_eq_some_iff.1 hticket).1] at hmap
  obtain ⟨hlt, rfl⟩ := List.getElem?_eq_some_iff.1 hslot
  rw [RenderRun.classifyTicket, hlookup, Option.bind_some]
  refine List.idxOf?_eq_some_iff.2 ⟨hlt, rfl, fun j hj heq => hj.ne ?_⟩
  exact (List.Nodup.getElem_inj_iff task.nodup_slots).1 heq

theorem Ledger.nodup_places :
    (s.live ++ (s.finished.map Prod.fst ++ (s.pending.map (fun e => e.2.1) ++ s.taken))).Nodup :=
  h.perm.nodup_iff.1 h.nodup

theorem Ledger.nodup_pending : (s.pending.map Prod.fst).Nodup := by
  have hids : s.pending.map (fun e => e.2.1) =
      (s.pending.map Prod.fst).map fun i => s.ids[i]?.getD 0 := by
    rw [List.map_map]
    refine List.map_congr_left fun e he => ?_
    rw [Function.comp_apply, h.pending e he, Option.getD_some]
  have hnodup := (List.nodup_append.1 (List.nodup_append.1
    (List.nodup_append.1 h.nodup_places).2.1).2.1).1
  rw [hids] at hnodup
  exact hnodup.of_map _

/-- A result that is drained gets the place of its ticket in the reorder buffer. -/
theorem Ledger.drain (hrecording : s.recording = none) {rest : List (ℕ × TicketResult T)}
    (hfinished : s.finished = (id, result) :: rest) :
    ∃ i, s.ids[i]? = some id ∧
      s.drain task = { s with
        consumed := s.consumed + 1
        finished := rest
        pending := (i, id, result) :: s.pending } ∧ Ledger task (s.drain task) := by
  have hmem : id ∈ s.ids := by
    refine h.perm.mem_iff.2 (List.mem_append_right _ (List.mem_append_left _ ?_))
    rw [hfinished]
    exact List.mem_cons_self
  obtain ⟨i, hi⟩ := List.mem_iff_getElem?.1 hmem
  have hfresh : ∀ e ∈ s.pending, e.1 ≠ i := by
    rintro e he rfl
    have hid : id = e.2.1 := Option.some.inj (hi.symm.trans (h.pending e he))
    have hdisjoint := (List.nodup_append.1 (List.nodup_append.1 h.nodup_places).2.1).2.2
    refine hdisjoint id ?_ e.2.1 (List.mem_append_left _ (List.mem_map_of_mem he)) hid
    rw [hfinished]
    exact List.mem_cons_self
  have hdrain : s.drain task = { s with
      consumed := s.consumed + 1
      finished := rest
      pending := (i, id, result) :: s.pending } := by
    rw [RenderRun.drain, hfinished]
    simp only [h.classifyTicket hrecording hi]
    rw [List.filter_eq_self.2 fun e he => decide_eq_true (hfresh e he)]
  refine ⟨i, hi, hdrain, ?_⟩
  rw [hdrain]
  refine ⟨h.slots, h.nextFrame, h.nodup, h.fresh, ?_, h.running, ?_, ?_, h.taken, h.hooks,
    h.completed⟩
  · have hperm := h.perm
    rw [hfinished] at hperm
    exact hperm.trans (List.perm_middle.symm.append_left _)
  · dsimp only
    rw [h.consumed, List.length_cons]
    omega
  · exact List.forall_mem_cons.2 ⟨hi, h.pending⟩

/-- The result of the next slot leaves the reorder buffer. -/
theorem Ledger.take (htaken : s.taken.length = s.nextSlot) {r : TicketResult T}
    (hlookup : s.pending.lookup s.nextSlot = some (id, r)) {hooks : List ℕ}
    (hhooks : hooks <+: s.taken ++ [id]) (nextSlot : ℕ) (released : List ℕ)
    (result : Option RenderError) (stage : Stage) :
    Ledger task { s with
      pending := s.pending.filter fun e => e.1 ≠ s.nextSlot
      taken := s.taken ++ [id]
      hooks := hooks
      nextSlot := nextSlot
      released := released
      result := result
      stage := stage } := by
  have hperm := perm_cons_filter h.nodup_pending hlookup
  have hid : s.ids[s.nextSlot]? = some id := h.pending _ (mem_of_lookup hlookup)
  refine ⟨h.slots, h.nextFrame, h.nodup, h.fresh, ?_, h.running, ?_, ?_, ?_, hhooks, h.completed⟩
  · refine h.perm.trans (.append_left _ (.append_left _ ?_))
    refine ((hperm.map fun e => e.2.1).append_right _).trans ?_
    have hlast : ([id] ++ s.taken).Perm (s.taken ++ [id]) := List.perm_append_comm
    exact List.perm_middle.symm.trans (hlast.append_left _)
  · have hlength := hperm.length_eq
    rw [List.length_cons] at hlength
    dsimp only
    rw [h.consumed, List.length_append, List.length_singleton]
    omega
  · exact fun e he => h.pending e (List.mem_of_mem_filter he)
  · dsimp only
    rw [List.length_append, List.length_singleton, htaken]
    change _ = s.ids.take (s.nextSlot + 1)
    rw [List.take_add_one, hid, Option.toList_some, ← htaken, ← h.taken]

end

/-! ### Stages -/

/-- Nothing has gone wrong: every result that left the reorder buffer went to its hook. -/
structure Fine (s : RenderRun T) : Prop where
  result : s.result = none
  taken : s.taken.length = s.nextSlot
  hooks : s.hooks = s.taken

/-- What each stage means. -/
inductive Staged (task : RenderTask) (s : RenderRun T) : Prop
  | audio (hstage : s.stage = .audio) (hfine : Fine s) (hrecording : s.recording = none)
      (hnone : s.inFlight = [])
  | frames (hstage : s.stage = .frames) (hfine : Fine s)
      (hstarted : task.audioSlots.length ≤ s.tickets.length)
  | loop (hstage : s.stage = .head ∨ s.stage = .drain ∨ s.stage = .deliver) (hfine : Fine s)
      (hrecording : s.recording = none) (hstarted : task.audioSlots.length ≤ s.tickets.length)
  | refill (hstage : s.stage = .refill) (hfine : Fine s)
      (hstarted : task.audioSlots.length ≤ s.tickets.length)
      (hquiet : s.pending.lookup s.nextSlot = none)
  | waiting (hstage : s.stage = .waiting ∨ s.stage = .waited) (hfine : Fine s)
      (hrecording : s.recording = none) (hstarted : task.audioSlots.length ≤ s.tickets.length)
      (hquiet : s.pending.lookup s.nextSlot = none)
      (hfull : task.window ≤ s.inFlight.length - s.consumed ∨
        s.inFlight.length = task.slots.length)
  | finish (hstage : s.stage = .finish) (hrecording : s.recording = none)
      (hfine : s.result = none → Fine s ∧
        (s.cancelled = true ∨ task.slots.length ≤ s.nextSlot))
  | last (hstage : s.stage = .idle ∨ s.stage = .returned) (hrecording : s.recording = none)
      (hfine : s.result = none → Fine s ∧ task.slots.length ≤ s.nextSlot)
      (hidle : s.stage = .returned → s.running = 0)

theorem staged_start (task : RenderTask) (nextId : ℕ) :
    Staged task (start nextId : RenderRun T) := .audio rfl ⟨rfl, rfl, rfl⟩ rfl rfl

/-- What other threads change does not matter, but for the count of running tickets. -/
theorem Staged.frame (h : Staged task s) {live : List ℕ} {running nextId : ℕ}
    {finished completed : List (ℕ × TicketResult T)} {cancelled : Bool}
    (hcancelled : s.cancelled = true → cancelled = true)
    (hrunning : s.stage = .returned → running = 0) :
    Staged task { s with
      live := live
      running := running
      nextId := nextId
      finished := finished
      completed := completed
      cancelled := cancelled } := by
  have hfine {s' : RenderRun T} (h : Fine s') {live : List ℕ} {running nextId : ℕ}
      {finished completed : List (ℕ × TicketResult T)} {cancelled : Bool} :
      Fine { s' with
        live := live
        running := running
        nextId := nextId
        finished := finished
        completed := completed
        cancelled := cancelled } := ⟨h.result, h.taken, h.hooks⟩
  cases h with
  | audio hstage h hrecording hnone => exact .audio hstage (hfine h) hrecording hnone
  | frames hstage h hstarted => exact .frames hstage (hfine h) hstarted
  | loop hstage h hrecording hstarted => exact .loop hstage (hfine h) hrecording hstarted
  | refill hstage h hstarted hquiet => exact .refill hstage (hfine h) hstarted hquiet
  | waiting hstage h hrecording hstarted hquiet hfull =>
    exact .waiting hstage (hfine h) hrecording hstarted hquiet hfull
  | finish hstage hrecording h =>
    exact .finish hstage hrecording fun hr =>
      ⟨hfine (h hr).1, (h hr).2.imp_left hcancelled⟩
  | last hstage hrecording h =>
    exact .last hstage hrecording (fun hr => ⟨hfine (h hr).1, (h hr).2⟩) hrunning

theorem tickets_of_recorded (hrecording : s.recording = none) : s.tickets = s.inFlight := by
  rw [tickets, hrecording, Option.toList_none, List.append_nil]

section

variable (h : Ledger task s) (hrecording : s.recording = none)
  (hstarted : task.audioSlots.length ≤ s.tickets.length)

include h hrecording hstarted

theorem Ledger.nextFrame_add : s.nextFrame + task.audioSlots.length = s.tickets.length := by
  rw [← RenderTask.countP_take_slots hstarted h.length_le, ← h.slots, List.countP_map, h.nextFrame,
    tickets_of_recorded hrecording]
  rfl

theorem Ledger.next_slot {time : Rational} (htime : task.frameTimes[s.nextFrame]? = some time) :
    task.slots[s.tickets.length]? = some ⟨false, time⟩ := by
  rw [← h.nextFrame_add hrecording hstarted, Nat.add_comm, RenderTask.getElem?_slots, htime,
    Option.map_some]

/-- Where there is no next frame, every slot has its ticket. -/
theorem Ledger.all_submitted (htime : task.frameTimes[s.nextFrame]? = none) :
    s.inFlight.length = task.slots.length := by
  have hnext := h.nextFrame_add hrecording hstarted
  have hle := h.length_le
  rw [RenderTask.length_slots] at hle ⊢
  rw [← tickets_of_recorded hrecording]
  have := List.getElem?_eq_none_iff.1 htime
  omega

end

/-- When the queue is empty and no ticket runs, every slot has been delivered. -/
theorem Ledger.delivered (h : Ledger task s) (hfine : Fine s) (hrecording : s.recording = none)
    (hquiet : s.pending.lookup s.nextSlot = none)
    (hfull : task.window ≤ s.inFlight.length - s.consumed ∨
      s.inFlight.length = task.slots.length)
    (hfinished : s.finished = []) (hrunning : s.running = 0) :
    task.slots.length ≤ s.nextSlot := by
  have hlive : s.live = [] := List.length_eq_zero_iff.1 (h.running.symm.trans hrunning)
  have hperm := h.perm
  rw [hlive, hfinished, List.nil_append, List.map_nil, List.nil_append] at hperm
  have hlength := hperm.length_eq
  rw [length_ids, tickets_of_recorded hrecording, List.length_append, List.length_map,
    ← h.consumed] at hlength
  have hwindow : 0 < task.window := Nat.lt_of_lt_of_le Nat.one_pos (Nat.le_max_right _ _)
  have hall : s.inFlight.length = task.slots.length := hfull.resolve_left (by omega)
  by_contra hlt
  have hnext : s.nextSlot < s.ids.length := by
    rw [length_ids, tickets_of_recorded hrecording]
    omega
  have hid := List.getElem?_eq_getElem hnext
  have hmem := hperm.mem_iff.1 (List.mem_of_getElem? hid)
  rcases List.mem_append.1 hmem with hpending | htaken
  · obtain ⟨e, he, heq⟩ := List.mem_map.1 hpending
    have hkey : e.1 = s.nextSlot := by
      refine h.eq_of_getElem? (h.pending e he) ?_
      rw [heq]
      exact hid
    have hlookup := lookup_of_nodup h.nodup_pending he
    rw [hkey, hquiet] at hlookup
    cases hlookup
  · rw [h.taken, hfine.taken] at htaken
    obtain ⟨i, hi⟩ := List.mem_iff_getElem?.1 htaken
    rw [List.getElem?_take] at hi
    split_ifs at hi with hi'
    exact hi'.ne (h.eq_of_getElem? hi hid)

theorem Staged.idle (h : Staged task s) (hstage : s.stage = .returned) : s.running = 0 := by
  cases h with
  | last _ _ _ hidle => exact hidle hstage
  | audio hother | frames hother | refill hother | finish hother =>
    rw [hstage] at hother
    cases hother
  | loop hother =>
    rcases hother with hother | hother | hother <;> rw [hstage] at hother <;> cases hother
  | waiting hother => rcases hother with hother | hother <;> rw [hstage] at hother <;> cases hother

theorem Staged.fine (h : Staged task s) (hloop : s.stage.inLoop = true) : Fine s := by
  cases h with
  | audio _ hfine | frames _ hfine | loop _ hfine | refill _ hfine | waiting _ hfine => exact hfine
  | finish hstage =>
    rw [hstage] at hloop
    cases hloop
  | last hstage => rcases hstage with hstage | hstage <;> rw [hstage] at hloop <;> cases hloop

/-! ### Steps -/

/-- What holds of every call. -/
structure Sound (task : RenderTask) (s : RenderRun T) : Prop where
  ledger : Ledger task s
  staged : Staged task s

theorem sound_start (task : RenderTask) (nextId : ℕ) :
    Sound task (start nextId : RenderRun T) := ⟨ledger_start task nextId, staged_start task nextId⟩

theorem Fine.setStage (h : Fine s) (stage : Stage) : Fine { s with stage := stage } :=
  ⟨h.result, h.taken, h.hooks⟩

theorem Ledger.stage (h : Ledger task s) (stage : Stage) : Ledger task { s with stage := stage } :=
  h.setStage stage s.result s.cancelled

theorem main_recorded (hrecording : s.recording = none) {stage : Stage} (hstage : s.stage = stage)
    (ok : Bool) : s.main task ok = s.advance task ok stage := by
  rw [main, hrecording, hstage]

theorem sound_submit (h : Ledger task s) (hfine : Fine s) (hrecording : s.recording = none)
    (hslot : task.slots[s.tickets.length]? = some slot)
    (hstarted : task.audioSlots.length ≤ s.tickets.length + 1) {next : Stage}
    (hnext : next = .frames ∨ next = .refill ∧ s.pending.lookup s.nextSlot = none) (ok : Bool) :
    Sound task (s.submit slot next ok) := by
  refine ⟨h.submit hrecording hslot next ok, ?_⟩
  cases ok with
  | false => exact .finish rfl hrecording fun hresult => nomatch hresult
  | true =>
    have hfine' : Fine (s.submit slot next true) := ⟨hfine.result, hfine.taken, hfine.hooks⟩
    have hlength : (s.submit slot next true).tickets.length = s.tickets.length + 1 := by
      simp [tickets, submit, hrecording]
    rw [← hlength] at hstarted
    rcases hnext with rfl | ⟨rfl, hquiet⟩
    · exact .frames rfl hfine' hstarted
    · exact .refill rfl hfine' hstarted hquiet

theorem Sound.record (h : Sound task s) (hrecording : s.recording = some ticket) :
    Sound task (s.record ticket) := by
  refine ⟨h.ledger.record hrecording, ?_⟩
  have hfine (h : Fine s) : Fine (s.record ticket) := ⟨h.result, h.taken, h.hooks⟩
  have htickets : (s.record ticket).tickets = s.tickets := by
    simp [tickets, RenderRun.record, hrecording]
  have hsome {p : Prop} (hnone : s.recording = none) : p := by
    rw [hrecording] at hnone
    cases hnone
  cases h.staged with
  | frames hstage h hstarted => exact .frames hstage (hfine h) (htickets ▸ hstarted)
  | refill hstage h hstarted hquiet => exact .refill hstage (hfine h) (htickets ▸ hstarted) hquiet
  | audio _ _ hnone | loop _ _ hnone | waiting _ _ hnone | finish _ hnone | last _ hnone =>
    exact hsome hnone

theorem drain_nil (hfinished : s.finished = []) : s.drain task = { s with stage := .deliver } := by
  obtain ⟨nextId, live, running, finished, _⟩ := s
  obtain rfl : finished = [] := hfinished
  rfl

/-- A step that drains a result, or goes on to the deliveries. -/
theorem sound_drain (h : Ledger task s) (hstage : s.stage = .drain) (hfine : Fine s)
    (hrecording : s.recording = none) (hstarted : task.audioSlots.length ≤ s.tickets.length) :
    Sound task (s.drain task) := by
  rcases hfinished : s.finished with _ | ⟨⟨id, result⟩, rest⟩
  · rw [drain_nil hfinished]
    exact ⟨h.stage _, .loop (Or.inr (Or.inr rfl)) (hfine.setStage _) hrecording hstarted⟩
  · obtain ⟨i, -, hdrain, hledger⟩ := h.drain hrecording hfinished
    refine ⟨hledger, ?_⟩
    rw [hdrain]
    exact .loop (Or.inr (Or.inl hstage)) ⟨hfine.result, hfine.taken, hfine.hooks⟩ hrecording hstarted

/-- A step that delivers a result, or goes on behind the deliveries. -/
theorem sound_deliver (h : Ledger task s) (hstage : s.stage = .deliver) (hfine : Fine s)
    (hrecording : s.recording = none) (hstarted : task.audioSlots.length ≤ s.tickets.length)
    (ok : Bool) : Sound task (s.deliver task ok) := by
  rcases hlookup : s.pending.lookup s.nextSlot with _ | ⟨id, result⟩
  · rw [deliver, hlookup]
    dsimp only
    refine ⟨h.stage _, ?_⟩
    split_ifs with hcancelled
    · exact .finish rfl hrecording fun _ => ⟨hfine.setStage _, Or.inl hcancelled⟩
    · exact .refill rfl (hfine.setStage _) hstarted hlookup
  obtain ⟨slot, hslot⟩ : ∃ slot, task.slots[s.nextSlot]? = some slot := by
    have hid := h.pending _ (mem_of_lookup hlookup)
    have hlt := (List.getElem?_eq_some_iff.1 hid).1
    rw [length_ids] at hlt
    exact ⟨_, List.getElem?_eq_getElem (Nat.lt_of_lt_of_le hlt h.length_le)⟩
  have htake {hooks : List ℕ} (hhooks : hooks <+: s.taken ++ [id]) :=
    h.take hfine.taken hlookup hhooks
  rw [deliver, hlookup, hslot]
  dsimp only
  split_ifs
  · refine ⟨htake (hfine.hooks ▸ List.prefix_rfl) _ _ _ _,
      .loop (Or.inr (Or.inr hstage)) ?_ hrecording hstarted⟩
    refine ⟨hfine.result, ?_, ?_⟩
    · dsimp only
      rw [List.length_append, List.length_singleton, hfine.taken]
    · dsimp only
      rw [hfine.hooks]
  · exact ⟨htake (hfine.hooks ▸ List.prefix_rfl) _ _ _ _, .finish rfl hrecording fun hr => nomatch hr⟩
  · exact ⟨htake (hfine.hooks ▸ List.prefix_append _ _) _ _ _ _,
      .finish rfl hrecording fun hr => nomatch hr⟩

theorem sound_refill (h : Ledger task s) (hstage : s.stage = .refill) (hfine : Fine s)
    (hrecording : s.recording = none) (hstarted : task.audioSlots.length ≤ s.tickets.length)
    (hquiet : s.pending.lookup s.nextSlot = none) (ok : Bool) : Sound task (s.main task ok) := by
  have hrest (hfull : task.window ≤ s.inFlight.length - s.consumed ∨
      s.inFlight.length = task.slots.length) :
      Sound task { s with stage := if task.slots.length ≤ s.nextSlot then .finish else .waiting } := by
    refine ⟨h.stage _, ?_⟩
    split_ifs with hall
    · exact .finish rfl hrecording fun _ => ⟨hfine.setStage _, Or.inr hall⟩
    · exact .waiting (Or.inl rfl) (hfine.setStage _) hrecording hstarted hquiet hfull
  rw [main_recorded hrecording hstage, advance]
  by_cases hwindow : s.inFlight.length - s.consumed < task.window
  · rw [if_pos hwindow]
    rcases htime : task.frameTimes[s.nextFrame]? with _ | time
    · exact hrest (Or.inr (h.all_submitted hrecording hstarted htime))
    · exact sound_submit h hfine hrecording (h.next_slot hrecording hstarted htime) (by omega)
        (Or.inr ⟨rfl, hquiet⟩) ok
  · rw [if_neg hwindow]
    exact hrest (Or.inl (not_lt.1 hwindow))

theorem Sound.main (h : Sound task s) (ok : Bool) : Sound task (s.main task ok) := by
  rcases hrecording : s.recording with _ | ticket
  swap
  · rw [RenderRun.main, hrecording]
    exact h.record hrecording
  obtain ⟨hl, hs⟩ := h
  cases hs with
  | audio hstage hfine _ hnone =>
    have htickets : s.tickets = [] := (tickets_of_recorded hrecording).trans hnone
    rw [main_recorded hrecording hstage, advance]
    split_ifs with haudio
    · refine sound_submit hl hfine hrecording ?_ ?_ (Or.inl rfl) ok
      · rw [htickets, RenderTask.slots, RenderTask.audioSlots, if_pos haudio]
        rfl
      · rw [RenderTask.audioSlots, if_pos haudio]
        exact Nat.succ_le_succ (Nat.zero_le _)
    · refine ⟨hl.stage _, .frames rfl (hfine.setStage _) ?_⟩
      rw [RenderTask.audioSlots, if_neg haudio]
      exact Nat.zero_le _
  | frames hstage hfine hstarted =>
    have hhead : Sound task { s with stage := .head } :=
      ⟨hl.stage _, .loop (Or.inl rfl) (hfine.setStage _) hrecording hstarted⟩
    rw [main_recorded hrecording hstage, advance]
    split_ifs
    · rcases htime : task.frameTimes[s.nextFrame]? with _ | time
      · exact hhead
      · exact sound_submit hl hfine hrecording (hl.next_slot hrecording hstarted htime) (by omega)
          (Or.inl rfl) ok
    · exact hhead
  | loop hstage hfine _ hstarted =>
    rcases hstage with hstage | hstage | hstage <;>
      rw [main_recorded hrecording hstage, advance]
    · refine ⟨hl.stage _, ?_⟩
      split_ifs with hcond
      · exact .loop (Or.inr (Or.inl rfl)) (hfine.setStage _) hrecording hstarted
      · refine .finish rfl hrecording fun _ => ⟨hfine.setStage _, ?_⟩
        rw [not_and_or, not_lt] at hcond
        exact hcond.imp_left (by simp)
    · exact sound_drain hl hstage hfine hrecording hstarted
    · exact sound_deliver hl hstage hfine hrecording hstarted ok
  | refill hstage hfine hstarted hquiet =>
    exact sound_refill hl hstage hfine hrecording hstarted hquiet ok
  | waiting hstage hfine _ hstarted hquiet hfull =>
    rcases hstage with hstage | hstage <;>
      rw [main_recorded hrecording hstage, advance]
    · split_ifs
      · exact ⟨hl.stage _,
          .waiting (Or.inr rfl) (hfine.setStage _) hrecording hstarted hquiet hfull⟩
      · exact ⟨hl, .waiting (Or.inl hstage) hfine hrecording hstarted hquiet hfull⟩
    · refine ⟨hl.stage _, ?_⟩
      split_ifs with hidle
      · refine .finish rfl hrecording fun _ => ⟨hfine.setStage _, Or.inr ?_⟩
        exact hl.delivered hfine hrecording hquiet hfull hidle.1 hidle.2
      · exact .loop (Or.inl rfl) (hfine.setStage _) hrecording hstarted
  | finish hstage _ hfine =>
    rw [main_recorded hrecording hstage, advance]
    refine ⟨hl.setStage _ _ _, .last (Or.inl rfl) hrecording (fun hresult => ?_) nofun⟩
    dsimp only at hresult ⊢
    split_ifs at hresult with hcancelled
    obtain ⟨hfine, hdone⟩ := hfine hresult
    refine ⟨⟨if_neg hcancelled ▸ hresult, hfine.taken, hfine.hooks⟩, ?_⟩
    by_contra hlt
    exact hcancelled ⟨hresult, hdone.resolve_right hlt, not_le.1 hlt⟩
  | last hstage _ hfine hidle =>
    rcases hstage with hstage | hstage <;>
      rw [main_recorded hrecording hstage, advance]
    · split_ifs with hrunning
      · refine ⟨hl.stage _, .last (Or.inr rfl) hrecording (fun hresult => ?_) fun _ => hrunning⟩
        exact ⟨(hfine hresult).1.setStage _, (hfine hresult).2⟩
      · exact ⟨hl, .last (Or.inl hstage) hrecording hfine hidle⟩
    · exact ⟨hl, .last (Or.inr hstage) hrecording hfine hidle⟩

/-- One action. -/
theorem Sound.act (h : Sound task s) (a : RenderAction T) : Sound task (s.act task a) := by
  cases a with
  | main ok => exact h.main ok
  | complete id result =>
    refine ⟨h.ledger.complete id result, ?_⟩
    rw [RenderRun.act, RenderRun.complete]
    split_ifs with hid
    · refine h.staged.frame (fun hcancelled => hcancelled) fun hstage => ?_
      rw [h.staged.idle hstage]
    · exact h.staged
  | cancel =>
    exact ⟨h.ledger.setStage _ _ _, h.staged.frame (fun _ => rfl) h.staged.idle⟩
  | otherTicket =>
    exact ⟨h.ledger.otherTicket, h.staged.frame (fun hcancelled => hcancelled) h.staged.idle⟩

/-! ### Shared memory and hooks -/

/-- The slots of shared memory in the completion queue and in the reorder buffer. -/
def owed (s : RenderRun T) : List ℕ :=
  (s.finished.map Prod.snd ++ s.pending.map fun e => e.2.2).filterMap frameOf

/-- The result of the next slot is in the reorder buffer, or will be when the queue is drained. -/
def Arrived (s : RenderRun T) : Prop :=
  (s.pending.lookup s.nextSlot).isSome ∨
    (s.stage = .drain ∧ ∃ e ∈ s.finished, s.ids[s.nextSlot]? = some e.1)

/-- The thread's next step submits a ticket. -/
def submits (task : RenderTask) (s : RenderRun T) : Bool :=
  match s.stage with
  | .audio => task.audioEnabled
  | .frames => s.inFlight.length < task.window && s.nextFrame < task.frameTimes.length
  | .refill => s.inFlight.length - s.consumed < task.window && s.nextFrame < task.frameTimes.length
  | _ => false

/-- The next result has failed, or its hook does, or there is none and the call was cancelled. -/
def fails (task : RenderTask) (s : RenderRun T) (ok : Bool) : Bool :=
  match s.pending.lookup s.nextSlot, task.slots[s.nextSlot]? with
  | some (_, result), some slot => !payloadFits slot result || !ok
  | _, _ => s.cancelled && s.nextSlot < task.slots.length

/-- The thread's next step ends the deliveries before the last slot: a ticket is not built, a result
has failed or its hook does, or the call was cancelled. -/
def Stops (task : RenderTask) (s : RenderRun T) (ok : Bool) : Prop :=
  s.recording = none ∧
    ((s.submits task = true ∧ ok = false) ∨
      (s.stage = .head ∧ s.cancelled = true ∧ s.nextSlot < task.slots.length) ∨
      (s.stage = .deliver ∧ s.fails task ok = true))

/-- The call has left its loop before the last slot. -/
def Stopped (task : RenderTask) (s : RenderRun T) : Prop :=
  (s.stage = .finish ∨ s.stage = .idle ∨ s.stage = .returned) ∧
    (s.result = none → s.nextSlot < task.slots.length)

/-- No slot of shared memory is held when the deliveries end early, or comes after that; and a
cancellation does not come while the result of the next slot is about to be delivered. -/
def Orderly (task : RenderTask) (s : RenderRun T) : RenderAction T → Prop
  | .main ok => s.Stops task ok → s.owed = []
  | .complete id result => (s.Stopped task → frameOf result = none) ∧
    (s.cancelled = true → s.stage = .drain → s.ids[s.nextSlot]? ≠ some id)
  | .cancel => s.stage.inLoop = true → ¬s.Arrived
  | .otherTicket => True

/-- What holds of an orderly call. -/
structure Tidy (task : RenderTask) (s : RenderRun T) : Prop where
  released : (s.completed.filterMap fun e => frameOf e.2).Perm (s.released ++ s.owed)
  stopped : s.Stopped task → s.owed = []
  silent : s.cancelled = true → s.stage.inLoop = true → ¬s.Arrived

theorem tidy_start (task : RenderTask) (nextId : ℕ) : Tidy task (start nextId : RenderRun T) where
  released := .refl _
  stopped _ := rfl
  silent h := nomatch h

/-- What a step leaves alone that neither drains nor delivers. -/
structure Keeps (s s' : RenderRun T) : Prop where
  finished : s'.finished = s.finished
  pending : s'.pending = s.pending
  completed : s'.completed = s.completed
  released : s'.released = s.released
  hooks : s'.hooks = s.hooks
  cancelled : s'.cancelled = s.cancelled
  nextSlot : s'.nextSlot = s.nextSlot

theorem keeps_submit (slot : DeliverySlot) (next : Stage) (ok : Bool) :
    Keeps s (s.submit slot next ok) := by
  rw [submit]
  split_ifs <;> exact ⟨rfl, rfl, rfl, rfl, rfl, rfl, rfl⟩

theorem keeps_advance {stage : Stage} (hdrain : stage ≠ .drain) (hdeliver : stage ≠ .deliver)
    (ok : Bool) : Keeps s (s.advance task ok stage) := by
  have hstage (stage : Stage) : Keeps s { s with stage := stage } :=
    ⟨rfl, rfl, rfl, rfl, rfl, rfl, rfl⟩
  cases stage with
  | drain => exact absurd rfl hdrain
  | deliver => exact absurd rfl hdeliver
  | audio =>
    rw [advance]
    split_ifs
    · exact keeps_submit _ _ _
    · exact hstage _
  | frames =>
    rw [advance]
    split_ifs
    · split
      · exact keeps_submit _ _ _
      · exact hstage _
    · exact hstage _
  | refill =>
    rw [advance]
    by_cases hwindow : s.inFlight.length - s.consumed < task.window
    · rw [if_pos hwindow]
      split
      · exact keeps_submit _ _ _
      · exact hstage _
    · rw [if_neg hwindow]
      exact hstage _
  | head => exact hstage _
  | waiting =>
    rw [advance]
    split_ifs
    · exact hstage _
    · exact hstage _
  | waited => exact hstage _
  | finish => exact ⟨rfl, rfl, rfl, rfl, rfl, rfl, rfl⟩
  | idle =>
    rw [advance]
    split_ifs
    · exact hstage _
    · exact hstage _
  | returned => exact hstage _

theorem Keeps.owed {s' : RenderRun T} (h : Keeps s s') : s'.owed = s.owed := by
  rw [RenderRun.owed, RenderRun.owed, h.finished, h.pending]

/-- A step that neither drains nor delivers keeps a call tidy. -/
theorem Tidy.keeps (h : Tidy task s) {s' : RenderRun T} (hkeeps : Keeps s s')
    (hstopped : s'.Stopped task → s.owed = [])
    (hsilent : s'.cancelled = true → s'.stage.inLoop = true → ¬s'.Arrived) :
    Tidy task s' := by
  refine ⟨?_, fun hs' => hkeeps.owed.trans (hstopped hs'), hsilent⟩
  rw [hkeeps.completed, hkeeps.released, hkeeps.owed]
  exact h.released

theorem not_stopped {stage : Stage} (hstage : s.stage = stage) (hfinish : stage ≠ .finish)
    (hidle : stage ≠ .idle) (hreturned : stage ≠ .returned) : ¬s.Stopped task := by
  rintro ⟨h | h | h, -⟩
  · exact hfinish (hstage.symm.trans h)
  · exact hidle (hstage.symm.trans h)
  · exact hreturned (hstage.symm.trans h)

theorem stops_of_submit (hrecording : s.recording = none) (hsubmits : s.submits task = true)
    {next : Stage} (hnext : next = .frames ∨ next = .refill)
    (hstopped : (s.submit slot next ok).Stopped task) : s.Stops task ok := by
  cases ok with
  | false => exact ⟨hrecording, Or.inl ⟨hsubmits, rfl⟩⟩
  | true =>
    have hstage : (s.submit slot next true).stage = next := rfl
    rcases hnext with rfl | rfl <;> exact absurd hstopped (not_stopped hstage nofun nofun nofun)

/-- A step that neither drains nor delivers ends the deliveries early only where it says so. -/
theorem Sound.stops_of_stopped (h : Sound task s) (hrecording : s.recording = none)
    (hdrain : s.stage ≠ .drain) (hdeliver : s.stage ≠ .deliver)
    (hstopped : (s.advance task ok s.stage).Stopped task) : s.Stops task ok ∨ s.Stopped task := by
  cases h.staged with
  | audio hstage hfine =>
    rw [hstage, advance] at hstopped
    split_ifs at hstopped with haudio
    · refine Or.inl (stops_of_submit hrecording ?_ (Or.inl rfl) hstopped)
      rw [submits, hstage]
      exact haudio
    · exact absurd hstopped (not_stopped rfl nofun nofun nofun)
  | frames hstage hfine =>
    rw [hstage, advance] at hstopped
    split_ifs at hstopped with hwindow
    · rcases htime : task.frameTimes[s.nextFrame]? with _ | time
      · rw [htime] at hstopped
        exact absurd hstopped (not_stopped rfl nofun nofun nofun)
      · rw [htime] at hstopped
        refine Or.inl (stops_of_submit hrecording ?_ (Or.inl rfl) hstopped)
        rw [submits, hstage]
        exact Bool.and_eq_true_iff.2 ⟨decide_eq_true hwindow,
          decide_eq_true (List.getElem?_eq_some_iff.1 htime).1⟩
    · exact absurd hstopped (not_stopped rfl nofun nofun nofun)
  | loop hstage hfine =>
    have hstage : s.stage = .head := hstage.resolve_right (by tauto)
    rw [hstage, advance] at hstopped
    split_ifs at hstopped with hcond
    · exact absurd hstopped (not_stopped rfl nofun nofun nofun)
    · have hlt : s.nextSlot < task.slots.length := hstopped.2 hfine.result
      have hcancelled : s.cancelled = true := by
        by_contra hcancelled
        exact hcond ⟨by simpa using hcancelled, hlt⟩
      exact Or.inl ⟨hrecording, Or.inr (Or.inl ⟨hstage, hcancelled, hlt⟩)⟩
  | refill hstage hfine =>
    have hrest : ¬({ s with
        stage := if task.slots.length ≤ s.nextSlot then .finish else .waiting } :
        RenderRun T).Stopped task := by
      split_ifs with hall
      · exact fun hstopped => absurd (hstopped.2 hfine.result) (not_lt.2 hall)
      · exact not_stopped rfl nofun nofun nofun
    rw [hstage, advance] at hstopped
    by_cases hwindow : s.inFlight.length - s.consumed < task.window
    · rw [if_pos hwindow] at hstopped
      rcases htime : task.frameTimes[s.nextFrame]? with _ | time
      · rw [htime] at hstopped
        exact absurd hstopped hrest
      · rw [htime] at hstopped
        refine Or.inl (stops_of_submit hrecording ?_ (Or.inr rfl) hstopped)
        rw [submits, hstage]
        exact Bool.and_eq_true_iff.2 ⟨decide_eq_true hwindow,
          decide_eq_true (List.getElem?_eq_some_iff.1 htime).1⟩
    · rw [if_neg hwindow] at hstopped
      exact absurd hstopped hrest
  | waiting hstage hfine _ _ hquiet hfull =>
    rcases hstage with hstage | hstage <;> rw [hstage, advance] at hstopped
    · split_ifs at hstopped
      · exact absurd hstopped (not_stopped rfl nofun nofun nofun)
      · exact absurd hstopped (not_stopped hstage nofun nofun nofun)
    · split_ifs at hstopped with hidle
      · have hall := h.ledger.delivered hfine hrecording hquiet hfull hidle.1 hidle.2
        exact absurd (hstopped.2 hfine.result) (not_lt.2 hall)
      · exact absurd hstopped (not_stopped rfl nofun nofun nofun)
  | finish hstage =>
    refine Or.inr ⟨Or.inl hstage, fun hresult => ?_⟩
    rw [hstage, advance] at hstopped
    by_contra hlt
    refine hlt (hstopped.2 ?_)
    dsimp only
    rw [if_neg fun hcond => hlt hcond.2.2, hresult]
  | last hstage =>
    refine Or.inr ⟨Or.inr hstage, fun hresult => ?_⟩
    rcases hstage with hstage | hstage <;> rw [hstage, advance] at hstopped
    · split_ifs at hstopped
      · exact hstopped.2 hresult
      · exact hstopped.2 hresult
    · exact hstopped.2 hresult

/-- A step that neither drains nor delivers goes on to do so only where nothing is cancelled. -/
theorem advance_loop (hdrain : s.stage ≠ .drain) (hdeliver : s.stage ≠ .deliver)
    (hloop : (s.advance task ok s.stage).stage.inLoop = true) : s.cancelled = false := by
  have hsubmit {slot : DeliverySlot} {next : Stage} (hnext : next.inLoop = false)
      (hstage : (s.submit slot next ok).stage.inLoop = true) : s.cancelled = false := by
    cases ok with
    | false => cases hstage
    | true => exact absurd (hnext.symm.trans hstage) Bool.false_ne_true
  rcases hstage : s.stage <;> rw [hstage, advance] at hloop
  case drain => exact absurd hstage hdrain
  case deliver => exact absurd hstage hdeliver
  case head =>
    split_ifs at hloop with hcond
    · simpa using hcond.1
    · cases hloop
  case audio =>
    split_ifs at hloop
    · exact hsubmit rfl hloop
    · cases hloop
  case frames =>
    split_ifs at hloop
    · rcases htime : task.frameTimes[s.nextFrame]? with _ | time <;> rw [htime] at hloop
      · cases hloop
      · exact hsubmit rfl hloop
    · cases hloop
  case refill =>
    have hrest : (if task.slots.length ≤ s.nextSlot then Stage.finish else .waiting).inLoop ≠
        true := by
      split_ifs <;> nofun
    by_cases hwindow : s.inFlight.length - s.consumed < task.window
    · rw [if_pos hwindow] at hloop
      rcases htime : task.frameTimes[s.nextFrame]? with _ | time <;> rw [htime] at hloop
      · exact absurd hloop hrest
      · exact hsubmit rfl hloop
    · rw [if_neg hwindow] at hloop
      exact absurd hloop hrest
  case waiting =>
    split_ifs at hloop
    · cases hloop
    · rw [hstage] at hloop
      cases hloop
  case waited => split_ifs at hloop <;> cases hloop
  case finish => cases hloop
  case idle =>
    split_ifs at hloop
    · cases hloop
    · rw [hstage] at hloop
      cases hloop
  case returned =>
    rw [hstage] at hloop
    cases hloop

theorem Tidy.drain (h : Tidy task s) (hl : Ledger task s) (hstage : s.stage = .drain)
    (hrecording : s.recording = none) : Tidy task (s.drain task) := by
  have hloop : s.stage.inLoop = true := by rw [hstage]; rfl
  rcases hfinished : s.finished with _ | ⟨⟨id, result⟩, rest⟩
  · rw [drain_nil hfinished]
    refine ⟨h.released, fun hstopped => absurd hstopped (not_stopped rfl nofun nofun nofun),
      fun hcancelled _ harrived => h.silent hcancelled hloop ?_⟩
    exact harrived.imp_right fun harrived => absurd harrived.1 nofun
  obtain ⟨i, hi, hdrain, -⟩ := hl.drain hrecording hfinished
  rw [hdrain]
  refine ⟨?_, fun hstopped => absurd hstopped (not_stopped hstage nofun nofun nofun),
    fun hcancelled _ harrived => ?_⟩
  · refine h.released.trans (.append_left _ (List.Perm.filterMap _ ?_))
    rw [hfinished]
    exact List.perm_middle.symm
  · have hsilent := h.silent hcancelled hloop
    rw [Arrived, not_or, hfinished] at hsilent
    have hkey : s.nextSlot ≠ i := by
      rintro rfl
      exact hsilent.2 ⟨hstage, (id, result), List.mem_cons_self, hi⟩
    rcases harrived with harrived | ⟨-, e, he, hid⟩
    · dsimp only at harrived
      rw [List.lookup_cons, beq_eq_false_iff_ne.2 hkey] at harrived
      exact hsilent.1 harrived
    · exact hsilent.2 ⟨hstage, e, List.mem_cons_of_mem _ he, hid⟩

/-- What is owed, when a result leaves the reorder buffer. -/
theorem Ledger.owed_perm (h : Ledger task s)
    (hlookup : s.pending.lookup s.nextSlot = some (id, result)) :
    s.owed.Perm ((frameOf result).toList ++
      ({ s with pending := s.pending.filter fun e => e.1 ≠ s.nextSlot } : RenderRun T).owed) := by
  have hperm := perm_cons_filter h.nodup_pending hlookup
  refine (List.Perm.filterMap _ ((hperm.map fun e => e.2.2).append_left _)).trans ?_
  refine (List.Perm.filterMap _ List.perm_middle).trans ?_
  rw [List.filterMap_cons]
  cases frameOf result <;> exact .refl _

theorem deliver_none (hlookup : s.pending.lookup s.nextSlot = none) (ok : Bool) :
    s.deliver task ok = { s with stage := if s.cancelled then .finish else .refill } := by
  rw [deliver, hlookup]

/-- Delivering a result releases what it carries, unless the deliveries end with it. -/
theorem Tidy.deliver (h : Tidy task s) (hl : Ledger task s) (hstage : s.stage = .deliver)
    (hfine : Fine s) (hrecording : s.recording = none) (hstops : s.Stops task ok → s.owed = []) :
    Tidy task (s.deliver task ok) := by
  have hloop : s.stage.inLoop = true := by rw [hstage]; rfl
  rcases hlookup : s.pending.lookup s.nextSlot with _ | ⟨id, result⟩
  · rw [deliver_none hlookup]
    refine ⟨h.released, fun hstopped => hstops ⟨hrecording, Or.inr (Or.inr ⟨hstage, ?_⟩)⟩,
      fun _ hloop' => ?_⟩
    · rw [fails, hlookup]
      refine Bool.and_eq_true_iff.2 ⟨?_, decide_eq_true (hstopped.2 hfine.result)⟩
      by_contra hcancelled
      rw [if_neg hcancelled] at hstopped
      exact absurd hstopped (not_stopped rfl nofun nofun nofun)
    · dsimp only at hloop'
      split_ifs at hloop' <;> cases hloop'
  have hcancelled : s.cancelled ≠ true := fun hcancelled =>
    h.silent hcancelled hloop (Or.inl (by rw [hlookup]; rfl))
  have howed := hl.owed_perm hlookup
  rcases hslot : task.slots[s.nextSlot]? with _ | slot
  · have hid := (List.getElem?_eq_some_iff.1 (hl.pending _ (mem_of_lookup hlookup))).1
    rw [length_ids] at hid
    exact absurd (Nat.lt_of_lt_of_le hid hl.length_le) (not_lt.2 (List.getElem?_eq_none_iff.1 hslot))
  rw [RenderRun.deliver, hlookup, hslot]
  dsimp only
  have hstop (hbad : payloadFits slot result = false ∨ ok = false) : s.owed = [] := by
    refine hstops ⟨hrecording, Or.inr (Or.inr ⟨hstage, ?_⟩)⟩
    rw [fails, hlookup, hslot]
    rcases hbad with hbad | hbad <;> simp [hbad]
  have hend (hbad : payloadFits slot result = false ∨ ok = false) {hooks : List ℕ}
      (error : RenderError) :
      Tidy task { s with
        pending := s.pending.filter fun e => e.1 ≠ s.nextSlot
        taken := s.taken ++ [id]
        hooks := hooks
        result := some error
        stage := .finish } := by
    have hnil := hstop hbad
    have hreleased := h.released
    rw [hnil] at howed hreleased
    have hnil' := (List.append_eq_nil_iff.1 (List.nil_perm.1 howed)).2
    exact ⟨hreleased.trans (.of_eq (congrArg (s.released ++ ·) hnil'.symm)), fun _ => hnil', nofun⟩
  split_ifs with hfits hok
  · refine ⟨h.released.trans ?_, fun hstopped => absurd hstopped (not_stopped hstage nofun nofun nofun),
      fun hcancelled' => absurd hcancelled' hcancelled⟩
    dsimp only
    rw [List.append_assoc]
    exact howed.append_left _
  · exact hend (Or.inr (Bool.eq_false_iff.2 hok)) .hook
  · exact hend (Or.inl (Bool.eq_false_iff.2 hfits)) .ticket

theorem Tidy.main (h : Tidy task s) (hs : Sound task s) (hstops : s.Stops task ok → s.owed = []) :
    Tidy task (s.main task ok) := by
  rcases hrecording : s.recording with _ | ticket
  swap
  · rw [RenderRun.main, hrecording]
    refine h.keeps ⟨rfl, rfl, rfl, rfl, rfl, rfl, rfl⟩ (fun hstopped => h.stopped hstopped) ?_
    intro hcancelled hloop harrived
    refine h.silent hcancelled hloop (harrived.imp_right fun harrived => ?_)
    have hids : (s.record ticket).ids = s.ids := by
      rw [ids, ids]
      simp [tickets, RenderRun.record, hrecording]
    rwa [hids] at harrived
  by_cases hdrain : s.stage = .drain
  · rw [main_recorded hrecording hdrain]
    exact h.drain hs.ledger hdrain hrecording
  by_cases hdeliver : s.stage = .deliver
  · rw [main_recorded hrecording hdeliver]
    exact h.deliver hs.ledger hdeliver (hs.staged.fine (by rw [hdeliver]; rfl)) hrecording hstops
  rw [main_recorded hrecording rfl]
  refine h.keeps (keeps_advance hdrain hdeliver ok) (fun hstopped => ?_) fun hcancelled hloop => ?_
  · exact (hs.stops_of_stopped hrecording hdrain hdeliver hstopped).elim hstops h.stopped
  · rw [(keeps_advance hdrain hdeliver ok).cancelled, advance_loop hdrain hdeliver hloop]
      at hcancelled
    cases hcancelled

theorem Tidy.complete (h : Tidy task s) (hlate : s.Stopped task → frameOf result = none)
    (hnext : s.cancelled = true → s.stage = .drain → s.ids[s.nextSlot]? ≠ some id) :
    Tidy task (s.complete id result) := by
  rw [RenderRun.complete]
  split_ifs
  swap
  · exact h
  have howed : ({ s with finished := s.finished ++ [(id, result)] } : RenderRun T).owed.Perm
      (s.owed ++ (frameOf result).toList) := by
    rw [owed, owed, List.map_append, List.append_assoc]
    refine (List.Perm.filterMap _ (List.perm_append_comm.append_left _)).trans ?_
    rw [← List.append_assoc, List.filterMap_append, List.map_singleton]
    refine .append_left _ (.of_eq ?_)
    cases hframe : frameOf result <;> simp [hframe]
  refine ⟨?_, fun hstopped => ?_, fun hcancelled hloop harrived => ?_⟩
  · have hcompleted : (s.completed ++ [(id, result)]).filterMap (fun e => frameOf e.2) =
        s.completed.filterMap (fun e => frameOf e.2) ++ (frameOf result).toList := by
      rw [List.filterMap_append]
      cases hframe : frameOf result <;> simp [hframe]
    dsimp only
    rw [hcompleted]
    refine (h.released.append_right _).trans ?_
    rw [List.append_assoc]
    exact howed.symm.append_left _
  · have hperm := howed
    rw [h.stopped hstopped, hlate hstopped] at hperm
    exact List.perm_nil.1 hperm
  · rcases harrived with harrived | ⟨hstage, e, he, hid⟩
    · exact h.silent hcancelled hloop (Or.inl harrived)
    · rcases List.mem_append.1 he with he | he
      · exact h.silent hcancelled hloop (Or.inr ⟨hstage, e, he, hid⟩)
      · obtain rfl := List.mem_singleton.1 he
        exact hnext hcancelled hstage hid

/-- One orderly action. -/
theorem Tidy.act (h : Tidy task s) (hs : Sound task s) {a : RenderAction T}
    (ha : s.Orderly task a) : Tidy task (s.act task a) := by
  cases a with
  | main ok => exact h.main hs ha
  | complete id result => exact h.complete ha.1 ha.2
  | cancel => exact ⟨h.released, h.stopped, fun _ hloop => ha hloop⟩
  | otherTicket => exact ⟨h.released, h.stopped, h.silent⟩

/-- A ticket or a hook has failed, or the call was cancelled. -/
def Halted (s : RenderRun T) : Prop := s.result ≠ none ∨ s.cancelled = true

theorem Sound.result_advance (h : Sound task s) (hresult : s.result ≠ none) (ok : Bool) :
    (s.advance task ok s.stage).result ≠ none := by
  cases h.staged with
  | audio _ hfine | frames _ hfine | loop _ hfine | refill _ hfine | waiting _ hfine =>
    exact absurd hfine.result hresult
  | finish hstage =>
    rw [hstage, advance]
    dsimp only
    rwa [if_neg fun hcond => hresult hcond.1]
  | last hstage =>
    rcases hstage with hstage | hstage <;> rw [hstage, advance]
    · split_ifs <;> exact hresult
    · exact hresult

/-- Once something has failed, or after a cancellation, no hook is called. -/
theorem hooks_act (h : Tidy task s) (hs : Sound task s) (hhalted : s.Halted) (a : RenderAction T) :
    (s.act task a).hooks = s.hooks ∧ (s.act task a).Halted := by
  cases a with
  | complete id result =>
    rw [act, RenderRun.complete]
    split_ifs <;> exact ⟨rfl, hhalted⟩
  | cancel => exact ⟨rfl, Or.inr rfl⟩
  | otherTicket => exact ⟨rfl, hhalted⟩
  | main ok =>
    rw [act]
    rcases hrecording : s.recording with _ | ticket
    swap
    · rw [RenderRun.main, hrecording]
      exact ⟨rfl, hhalted⟩
    by_cases hloop : s.stage.inLoop = true
    · have hcancelled : s.cancelled = true :=
        hhalted.resolve_left fun hresult => hresult (hs.staged.fine hloop).result
      by_cases hdrain : s.stage = .drain
      · rw [main_recorded hrecording hdrain]
        change (s.drain task).hooks = s.hooks ∧ (s.drain task).Halted
        rcases hfinished : s.finished with _ | ⟨⟨id, result⟩, rest⟩
        · rw [drain_nil hfinished]
          exact ⟨rfl, hhalted⟩
        · obtain ⟨i, -, heq, -⟩ := hs.ledger.drain hrecording hfinished
          rw [heq]
          exact ⟨rfl, hhalted⟩
      · have hdeliver : s.stage = .deliver := by
          generalize s.stage = stage at hloop hdrain
          cases stage <;> first | rfl | exact absurd rfl hdrain | cases hloop
        have hlookup : s.pending.lookup s.nextSlot = none := by
          by_contra hlookup
          exact h.silent hcancelled hloop (Or.inl (Option.isSome_iff_ne_none.2 hlookup))
        rw [main_recorded hrecording hdeliver]
        change (s.deliver task ok).hooks = s.hooks ∧ (s.deliver task ok).Halted
        rw [deliver_none hlookup]
        exact ⟨rfl, hhalted⟩
    · have hdrain : s.stage ≠ .drain := fun hstage => hloop (by rw [hstage]; rfl)
      have hdeliver : s.stage ≠ .deliver := fun hstage => hloop (by rw [hstage]; rfl)
      have hkeeps : Keeps s (s.advance task ok s.stage) := keeps_advance hdrain hdeliver ok
      rw [main_recorded hrecording rfl]
      refine ⟨hkeeps.hooks, hhalted.imp (fun hresult => hs.result_advance hresult ok) ?_⟩
      exact fun hcancelled => hkeeps.cancelled.trans hcancelled

/-! ### Calls -/

/-- What a call does: hooks in the order of the slots, for the tickets of these slots; and when it
has returned, every slot has been delivered if it succeeded, every ticket has completed once, and
what the results carried is released once. -/
structure Delivers (task : RenderTask) (s : RenderRun T) : Prop where
  slots : s.tickets.map Prod.snd = task.slots.take s.tickets.length
  hooks : s.hooks = s.ids.take s.hooks.length
  all : s.stage = .returned → s.result = none → s.hooks.length = task.slots.length
  completed : s.stage = .returned → s.ids.Perm (s.completed.map Prod.fst)
  released : s.stage = .returned → (s.completed.filterMap fun e => frameOf e.2).Perm s.released

theorem Sound.delivered (h : Sound task s) (hresult : s.result = none)
    (hnext : task.slots.length ≤ s.nextSlot) :
    s.hooks.length = task.slots.length ∧ s.finished = [] ∧ s.pending = [] := by
  have hfine : Fine s := by
    cases h.staged with
    | audio _ hfine | frames _ hfine | loop _ hfine | refill _ hfine | waiting _ hfine => exact hfine
    | finish _ _ hfine | last _ _ hfine => exact (hfine hresult).1
  have hlength := h.ledger.perm.length_eq
  have htickets := h.ledger.length_le
  have htaken := hfine.taken
  simp only [List.length_append, List.length_map, length_ids] at hlength
  refine ⟨?_, List.length_eq_zero_iff.1 (by omega), List.length_eq_zero_iff.1 (by omega)⟩
  rw [hfine.hooks]
  omega

theorem Sound.delivers (h : Sound task s) (htidy : Tidy task s) : Delivers task s := by
  have hlast (hstage : s.stage = .returned) (hresult : s.result = none) :
      task.slots.length ≤ s.nextSlot := by
    cases h.staged with
    | last _ _ hfine => exact (hfine hresult).2
    | audio hother | frames hother | refill hother | finish hother =>
      rw [hstage] at hother
      cases hother
    | loop hother =>
      rcases hother with hother | hother | hother <;> rw [hstage] at hother <;> cases hother
    | waiting hother => rcases hother with hother | hother <;> rw [hstage] at hother <;> cases hother
  refine ⟨h.ledger.slots, ?_, fun hstage hresult => ?_, fun hstage => ?_, fun hstage => ?_⟩
  · obtain ⟨rest, hrest⟩ := h.ledger.hooks
    have htake : s.hooks = s.taken.take s.hooks.length := by rw [← hrest, List.take_left]
    have hle : s.hooks.length ≤ s.taken.length := h.ledger.hooks.length_le
    rw [h.ledger.taken, List.take_take, Nat.min_eq_left hle] at htake
    exact htake
  · exact (h.delivered hresult (hlast hstage hresult)).1
  · have hlive : s.live = [] :=
      List.length_eq_zero_iff.1 (h.ledger.running.symm.trans (h.staged.idle hstage))
    have hperm := h.ledger.completed
    rwa [hlive, List.nil_append] at hperm
  · have howed : s.owed = [] := by
      by_cases hearly : s.result = none → s.nextSlot < task.slots.length
      · exact htidy.stopped ⟨Or.inr (Or.inr hstage), hearly⟩
      · rw [Classical.not_imp] at hearly
        obtain ⟨-, hfinished, hpending⟩ := h.delivered hearly.1 (not_lt.1 hearly.2)
        rw [owed, hfinished, hpending]
        rfl
    have hreleased := htidy.released
    rwa [howed, List.append_nil] at hreleased

theorem tidy_run {nextId : ℕ}
    (has : Permitted (RenderRun.act task) (Orderly task) (start nextId) as) :
    Sound task (run (RenderRun.act task) (start nextId) as) ∧
      Tidy task (run (RenderRun.act task) (start nextId) as) :=
  invariant_run (I := fun s => Sound task s ∧ Tidy task s)
    (fun _ _ h ha => ⟨h.1.act _, h.2.act h.1 ha⟩) ⟨sound_start task nextId, tidy_start task nextId⟩ has

theorem hooks_run (h : Sound task s ∧ Tidy task s) (hhalted : s.Halted)
    (has : Permitted (RenderRun.act task) (Orderly task) s as) :
    (run (RenderRun.act task) s as).hooks = s.hooks := by
  induction as generalizing s with
  | nil => rfl
  | cons a as ih =>
    obtain ⟨hhooks, hhalted'⟩ := hooks_act h.2 h.1 hhalted a
    exact (ih ⟨h.1.act a, h.2.act h.1 has.1⟩ hhalted' has.2).trans hhooks

/-- An orderly call delivers, and calls no hook once something has failed or after a
cancellation. -/
theorem render_run {task : RenderTask} {nextId : ℕ} {as : List (RenderAction T)}
    (has : Permitted (RenderRun.act task) (Orderly task) (start nextId) as) :
    Delivers task (run (RenderRun.act task) (start nextId) as) ∧
      ∀ before after, as = before ++ after →
        (run (RenderRun.act task) (start nextId) before).Halted →
        (run (RenderRun.act task) (start nextId) as).hooks =
          (run (RenderRun.act task) (start nextId) before).hooks := by
  refine ⟨(tidy_run has).1.delivers (tidy_run has).2, fun before after hsplit hhalted => ?_⟩
  rw [hsplit, permitted_append] at has
  rw [hsplit, run_append]
  exact hooks_run (tidy_run has.1) hhalted has.2

theorem window_act (h : Sound task s) (hwindow : s.tickets.length ≤ s.consumed + task.window)
    (a : RenderAction T) :
    (s.act task a).tickets.length ≤ (s.act task a).consumed + task.window := by
  have hpos : 1 ≤ task.window := Nat.le_max_right _ _
  cases a with
  | main ok =>
    rw [RenderRun.act, main]
    rcases hrecording : s.recording with _ | ticket
    · have haudio : s.stage = .audio → s.inFlight = [] := fun hstage => by
        cases h.staged <;> grind
      simp only [tickets, hrecording, Option.toList_none, List.append_nil] at hwindow ⊢
      cases hs : s.stage <;> grind [advance, drain, deliver, submit]
    · simpa [hrecording, record, tickets] using hwindow
  | complete id result =>
    rw [RenderRun.act, complete]
    split_ifs <;> exact hwindow
  | cancel | otherTicket => exact hwindow

/-- Whatever fails or is cancelled, a call never has more tickets out than its window, submits them
in the order of the slots, and calls its hooks in that order. -/
theorem window_run (task : RenderTask) (nextId : ℕ) (as : List (RenderAction T)) :
    let s := run (RenderRun.act task) (start nextId) as
    s.live.length + s.finished.length ≤ task.window ∧
      s.tickets.map Prod.snd = task.slots.take s.tickets.length ∧
      s.hooks = s.ids.take s.hooks.length := by
  intro s
  obtain ⟨⟨hl, -⟩, hwindow⟩ : Sound task s ∧ s.tickets.length ≤ s.consumed + task.window :=
    invariant_always (I := fun s => Sound task s ∧ s.tickets.length ≤ s.consumed + task.window)
      (fun s a h => ⟨h.1.act a, window_act h.1 h.2 a⟩)
      ⟨sound_start task nextId, Nat.zero_le _⟩ as
  refine ⟨?_, hl.slots, List.prefix_iff_eq_take.1 (hl.hooks.trans ?_)⟩
  · have hlength := hl.perm.length_eq
    have hconsumed := hl.consumed
    simp only [length_ids, List.length_append, List.length_map] at hlength
    omega
  · rw [hl.taken]
    exact List.take_prefix _ _

instance (task : RenderTask) (s : RenderRun T) (a : RenderAction T) :
    Decidable (s.Orderly task a) :=
  match a with
  | .main _ => inferInstanceAs (Decidable (_ ∧ _ → s.owed = []))
  | .complete _ result =>
    inferInstanceAs (Decidable ((_ ∧ _ → frameOf result = none) ∧ (_ = _ → _ = _ → _ ≠ _)))
  | .cancel => inferInstanceAs (Decidable (_ = _ → ¬(_ ∨ _ ∧ ∃ e ∈ s.finished, _ = some e.1)))
  | .otherTicket => isTrue trivial

/-! ### Two frames -/

/-- An export of two frames without audio. -/
def twoFrames : RenderTask where
  exportRange := ⟨0, 2⟩
  timebase := 1
  timebase_pos := one_pos
  audioEnabled := false
  maxInflight := 2

/-- Two tickets are submitted and complete in the other order, before the second one is
recorded. -/
def twoTickets : List (RenderAction Unit) :=
  [.main true, .main true, .main true, .main true, .complete 1 (.ok (.shmFrame 8)),
    .complete 0 (.ok (.shmFrame 7)), .main true, .main true]

/-- The steps of the thread from the head of the loop until both results are in the buffer. -/
def twoResults : List (RenderAction Unit) := List.replicate 4 (.main true)

/-- A hook that fails leaves its own slot and the one in the buffer unreleased. -/
theorem render_hook_error :
    ¬ ∀ as : List (RenderAction Unit),
      let s := run (RenderRun.act twoFrames) (start 0) as
      s.stage = .returned → (s.completed.filterMap fun e => frameOf e.2).Perm s.released := by
  intro h
  have hlost := h (twoTickets ++ twoResults ++ [.main false, .main true, .main true])
    (by decide +kernel)
  exact absurd hlost.length_eq (by decide +kernel)

/-- A hook is called after a cancellation. -/
theorem render_cancel :
    ¬ ∀ before after : List (RenderAction Unit),
      (run (RenderRun.act twoFrames) (start 0) before).Halted →
      (run (RenderRun.act twoFrames) (start 0) (before ++ after)).hooks =
        (run (RenderRun.act twoFrames) (start 0) before).hooks := by
  intro h
  refine absurd (h (twoTickets ++ twoResults ++ [.main true, .cancel]) [.main true] ?_)
    (by decide +kernel)
  exact Or.inr (by decide)

/-- Without a failure both slots are released. -/
theorem render_run_twoFrames :
    Delivers twoFrames (run (RenderRun.act twoFrames) (start 0)
      (twoTickets ++ twoResults ++ List.replicate 6 (.main true))) :=
  (render_run (by decide +kernel)).1

end RenderRun

end Oak.Task
