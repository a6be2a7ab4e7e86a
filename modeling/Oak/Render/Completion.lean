import Oak.Render.Dispatcher

/-!
# Completions

Every open ticket has a completion, and whoever takes the ticket off the table
(`tickets.remove`, then `done.take`) fires it. The lists of tickets that the calls of the dispatcher
take off are followed here action by action.

* `posted` and `removed` are the tickets that an action opens and takes off; `completions` are the
  completions of the latter, once each.
* `Spawns` says that an action spawns a process.

## Main results

* `moves_act`: the open tickets after an action are those before it and the posted ones, less the
  removed ones.
* `ids_act_perm`: no completion is lost, and none is taken twice.
* `processes_act_iff`: an action leaves as many processes as there were exactly when it spawns none.
-/

namespace Oak.Render

variable {F : Type*}

/-! ### Tickets taken off a table -/

/-- The completions of tickets that are taken off one after the other: those that are still open. -/
def takeOff : List ℤ → List ℤ → List ℤ
  | _, [] => []
  | opened, id :: ids =>
    if id ∈ opened then id :: takeOff (opened.filter fun x => x ≠ id) ids else takeOff opened ids

@[simp] theorem takeOff_nil (gone : List ℤ) : takeOff [] gone = [] := by
  induction gone with
  | nil => rfl
  | cons id gone ih => simpa [takeOff] using ih

/-- What stays on the table and what is taken off are all the tickets. -/
theorem filter_append_takeOff_perm {opened : List ℤ} (hnodup : opened.Nodup) (gone : List ℤ) :
    (opened.filter (fun x => x ∉ gone) ++ takeOff opened gone).Perm opened := by
  induction gone generalizing opened with
  | nil => simp [takeOff]
  | cons id gone ih =>
    have hsplit : opened.filter (fun x => x ∉ id :: gone) =
        (opened.filter fun x => x ≠ id).filter fun x => x ∉ gone := by
      rw [List.filter_filter]
      exact List.filter_congr fun x _ => by simp [not_or, Bool.and_comm]
    rw [hsplit, takeOff]
    split_ifs with hmem
    · have hrest := ih (hnodup.filter fun x => x ≠ id)
      have htaken : (id :: opened.filter fun x => x ≠ id).Perm opened :=
        cons_filter_perm (f := fun x => x) (by rwa [List.map_id']) hmem
      exact (List.perm_middle.trans (hrest.cons id)).trans htaken
    · have hsame : opened.filter (fun x => x ≠ id) = opened :=
        List.filter_eq_self.2 fun x hx => decide_eq_true fun heq => hmem (heq ▸ hx)
      rw [hsame]
      exact ih hnodup

namespace Intake

variable {t : Intake F} {order : List (FrameRequest ℤ) → List (FrameRequest ℤ)}

/-- The ids of the open tickets. -/
def ids (t : Intake F) : List ℤ := t.tickets.map Prod.fst

/-- The request of a posted job. -/
def request (t : Intake F) (slotFormat : ℤ) (job : Job F) : FrameRequest ℤ :=
  ⟨job.key t.nextTicket, job.schedule.priority, job.schedule.distance, t.nextTicket,
    job.slotBytes slotFormat⟩

/-- The ticket that `post` takes off: the one it replaced, or its own while the frame is in
flight. -/
def superseded (t : Intake F) (slotFormat : ℤ) (job : Job F) : List ℤ :=
  match (t.scheduler.submit (t.request slotFormat job)).2 with
  | .accepted => []
  | .replaced old => [old.payload]
  | .inFlight => [t.nextTicket]

/-- The ticket that `cancel_frame` takes off: the one behind the key. -/
def behind (t : Intake F) (key : FrameKey) : List ℤ :=
  if (t.scheduler.cancelKey key).2 then
    ((t.tickets.find? fun x => x.2.key = key).map Prod.fst).toList
  else []

/-- The tickets `new` are opened, and the tickets `gone` are taken off. -/
structure Moves (t : Intake F) (new gone : List ℤ) (t' : Intake F) : Prop where
  ids : t'.ids = (t.ids ++ new).filter fun id => id ∉ gone
  next : t'.nextTicket = t.nextTicket + new.length

theorem ids_removeTicket (id : ℤ) : (t.removeTicket id).ids = t.ids.filter fun x => x ≠ id := by
  rw [ids, removeTicket, ids, List.filter_map]
  rfl

namespace Moves

theorem of_tickets {t' : Intake F} (htickets : t'.tickets = t.tickets)
    (hnext : t'.nextTicket = t.nextTicket) : t.Moves [] [] t' where
  ids := by
    rw [Intake.ids, htickets, List.append_nil, List.filter_eq_self.2]
    · rfl
    · exact fun x _ => decide_eq_true List.not_mem_nil
  next := by rw [hnext, List.length_nil, Nat.cast_zero, add_zero]

theorem single {t' : Intake F} {id : ℤ} (hids : t'.ids = t.ids.filter fun x => x ≠ id)
    (hnext : t'.nextTicket = t.nextTicket) : t.Moves [] [id] t' where
  ids := by
    rw [hids, List.append_nil]
    exact List.filter_congr fun x _ => by simp
  next := by rw [hnext, List.length_nil, Nat.cast_zero, add_zero]

theorem post (slotFormat : ℤ) (job : Job F) (hsmall : job.audio.any tooLarge = false) :
    t.Moves [t.nextTicket] (t.superseded slotFormat job) (t.post slotFormat job) := by
  have hsent : t.post slotFormat job =
      (let opened : Intake F := ⟨(t.scheduler.submit (t.request slotFormat job)).1,
        t.tickets ++ [(t.nextTicket, ⟨job.key t.nextTicket, job.params, job.audio⟩)],
        t.nextTicket + 1⟩
      match (t.scheduler.submit (t.request slotFormat job)).2 with
      | .accepted => opened
      | .replaced old => opened.removeTicket old.payload
      | .inFlight => opened.removeTicket t.nextTicket) := by
    rw [Intake.post, if_neg (by rw [hsmall]; exact Bool.false_ne_true)]
    rfl
  have hids : (t.tickets ++ [(t.nextTicket,
      (⟨job.key t.nextTicket, job.params, job.audio⟩ : PendingTicket F))]).map Prod.fst =
      t.ids ++ [t.nextTicket] := by
    rw [List.map_append]
    rfl
  rw [hsent, superseded]
  cases (t.scheduler.submit (t.request slotFormat job)).2 with
  | accepted =>
    refine ⟨?_, rfl⟩
    rw [List.filter_eq_self.2 fun x _ => decide_eq_true List.not_mem_nil]
    exact hids
  | replaced old =>
    refine ⟨?_, rfl⟩
    dsimp only
    rw [ids_removeTicket, Intake.ids, hids]
    exact List.filter_congr fun x _ => by simp
  | inFlight =>
    refine ⟨?_, rfl⟩
    dsimp only
    rw [ids_removeTicket, Intake.ids, hids]
    exact List.filter_congr fun x _ => by simp

theorem cancelFrame (key : FrameKey) : t.Moves [] (t.behind key) (t.cancelFrame key) := by
  rw [behind, Intake.cancelFrame]
  dsimp only
  split_ifs
  · cases t.tickets.find? fun x => x.2.key = key with
    | none => exact of_tickets rfl rfl
    | some x => exact single (ids_removeTicket x.1) rfl
  · exact of_tickets rfl rfl

theorem cancelSequence (sequence : ℕ) :
    t.Moves [] ((t.scheduler.cancelSequence order sequence).2.map FrameRequest.payload)
      (t.cancelSequence order sequence) where
  ids := by
    rw [Intake.cancelSequence, tickets_removeTickets, List.append_nil, Intake.ids, Intake.ids,
      List.filter_map]
    rfl
  next := by
    rw [Intake.cancelSequence, tickets_removeTickets, List.length_nil, Nat.cast_zero, add_zero]

theorem close (id : ℤ) : t.Moves [] [id] (t.close id) := by
  rw [Intake.close]
  rcases hticket : t.ticket id with _ | pt
  · -- the ticket is not open
    refine single (List.filter_eq_self.2 fun x hx => decide_eq_true ?_).symm rfl
    rintro rfl
    obtain ⟨y, hy, heq⟩ := List.mem_map.1 hx
    rw [ticket, Option.map_eq_none_iff, List.find?_eq_none] at hticket
    exact hticket y hy (decide_eq_true heq)
  · exact single (ids_removeTicket id) rfl

theorem drop (rs : List (FrameRequest ℤ)) :
    t.Moves [] (rs.map FrameRequest.payload) (t.drop rs) := by
  induction rs generalizing t with
  | nil => exact of_tickets rfl rfl
  | cons r rs ih =>
    obtain ⟨hids, hnext⟩ := @ih
      (Intake.removeTicket { t with scheduler := (t.scheduler.cancelKey r.key).1 } r.payload)
    refine ⟨hids.trans ?_, hnext⟩
    rw [ids_removeTicket, List.append_nil, List.append_nil, List.filter_filter]
    exact List.filter_congr fun x _ => by simp [not_or, Bool.and_comm]

end Moves

end Intake

variable {handle : WorkerHandle}

namespace Dispatcher

variable {c : DispatcherConfig} {s : Dispatcher F}

/-! ### Actions -/

/-- The ticket that a line answers. -/
def lineTicket : WorkerLine → Option ℤ
  | .frameReady ticket _ => some ticket
  | .frameFailed ticket => some ticket
  | .error ticket => ticket
  | _ => none

/-- The handle that an event of a process reaches. -/
def receiver (s : Dispatcher F) (process : ℕ) : Option WorkerHandle :=
  match s.processes[process]? with
  | none => none
  | some p =>
    if p.ended then none
    else (s.workers[p.index]?).filter fun h => h.generation = p.generation

/-- The ticket that a line of a process takes off: the one it answers, if it is outstanding. -/
def answered (s : Dispatcher F) (process : ℕ) (line : WorkerLine) : List ℤ :=
  match s.receiver process, lineTicket line with
  | some h, some ticket => if (h.table.slotOf ticket).isSome then [ticket] else []
  | _, _ => []

/-- The restart budget of a worker is spent. -/
def isSpent (s : Dispatcher F) (worker : ℕ) : Bool :=
  s.workers[worker]?.any fun h => !h.retiring && maxRestarts < h.restarts + 1

/-- The ticket that an action opens. -/
def posted (s : Dispatcher F) : DispatcherAction F → List ℤ
  | .post job => if job.audio.any tooLarge then [] else [s.intake.nextTicket]
  | _ => []

/-- The tickets that an action takes off. -/
def removed (c : DispatcherConfig) (s : Dispatcher F) : DispatcherAction F → List ℤ
  | .post job => if job.audio.any tooLarge then [] else s.intake.superseded c.slotFormat job
  | .event process (.line line) _ => s.answered process line
  | .restart worker timedOut _ =>
    if s.isRestarted worker timedOut && s.isSpent worker then
      (s.intake.crash c.order worker).2.map FrameRequest.payload
    else []
  | .cancelFrame key => s.intake.behind key
  | .cancelPreviewSequence sequence =>
    (s.intake.scheduler.cancelSequence c.order sequence).2.map FrameRequest.payload
  | _ => []

/-- The completions that an action takes. -/
def completions (c : DispatcherConfig) (s : Dispatcher F) (a : DispatcherAction F) : List ℤ :=
  takeOff (s.intake.ids ++ s.posted a) (s.removed c a)

variable (spawns : ℕ → Bool)

theorem intake_spawnWorkers (is : List ℕ) : (s.spawnWorkers spawns is).intake = s.intake := by
  induction is generalizing s with
  | nil => rfl
  | cons i is ih =>
    rw [spawnWorkers]
    split_ifs
    · exact ih
    · rfl

theorem moves_applyTargetWorkers (target : ℕ) (spawns : ℕ → Bool) :
    s.intake.Moves [] [] (s.applyTargetWorkers target spawns).intake := by
  rw [applyTargetWorkers]
  dsimp only
  split_ifs
  · exact .of_tickets rfl rfl
  · dsimp only
    rw [intake_spawnWorkers]
    exact .of_tickets rfl rfl
  · exact .of_tickets rfl rfl

theorem moves_answered {worker : ℕ} {ticket : ℤ} {answer : Option (Intake F × SlotTable × Option ℕ)}
    (hnone : answer = none ↔ handle.table.slotOf ticket = none)
    (hsome : ∀ t table freed, answer = some (t, table, freed) → t = s.intake.close ticket) :
    s.intake.Moves [] (if (handle.table.slotOf ticket).isSome then [ticket] else [])
      (match answer with
        | none => s
        | some (t, table, _) =>
          ({ s with intake := t } : Dispatcher F).modify worker
            fun h => { h with table := table }).intake := by
  rcases answer with _ | ⟨t, table, freed⟩
  · rw [hnone.1 rfl]
    exact .of_tickets rfl rfl
  · have hslot : (handle.table.slotOf ticket).isSome = true :=
      Option.isSome_iff_ne_none.2 fun hslot => absurd (hnone.2 hslot) (by simp)
    rw [if_pos hslot]
    exact hsome t table freed rfl ▸ .close ticket

section

variable {worker : ℕ} (hhandle : s.workers[worker]? = some handle)

include hhandle

theorem moves_onFrameReady (ticket : ℤ) (slot : ℕ) :
    s.intake.Moves [] (if (handle.table.slotOf ticket).isSome then [ticket] else [])
      (s.onFrameReady worker ticket slot).intake := by
  rw [onFrameReady, hhandle]
  refine moves_answered ?_ fun t table freed h => (Intake.answered_frameReady h).intake
  rw [Intake.onFrameReady, Option.map_eq_none_iff]

theorem moves_onFrameFailed (ticket : ℤ) :
    s.intake.Moves [] (if (handle.table.slotOf ticket).isSome then [ticket] else [])
      (s.onFrameFailed worker ticket).intake := by
  rw [onFrameFailed, hhandle]
  refine moves_answered ?_ fun t table freed h => (Intake.answered_frameFailed h).intake
  rw [Intake.onFrameFailed, Option.map_eq_none_iff]

theorem moves_onLine (line : WorkerLine) (written : Bool) :
    s.intake.Moves [] (match lineTicket line with
        | some ticket => if (handle.table.slotOf ticket).isSome then [ticket] else []
        | none => [])
      (s.onLine worker line written).intake := by
  cases line with
  | handshake => exact .of_tickets rfl rfl
  | helloCaps => exact .of_tickets rfl rfl
  | batchAccepted => exact .of_tickets rfl rfl
  | frameReady ticket slot => exact moves_onFrameReady hhandle ticket slot
  | frameFailed ticket => exact moves_onFrameFailed hhandle ticket
  | error ticket =>
    cases ticket with
    | none => exact .of_tickets rfl rfl
    | some ticket => exact moves_onFrameFailed hhandle ticket

end

theorem moves_event (process : ℕ) (event : WorkerEvent) (written : Bool) :
    s.intake.Moves [] (s.removed c (.event process event written))
      (s.event process event written).intake := by
  have hline (line : WorkerLine) :
      s.removed c (.event process (.line line) written) = s.answered process line := rfl
  have heof : s.removed c (.event process .eof written) = [] := rfl
  rw [Dispatcher.event]
  rcases hprocess : s.processes[process]? with _ | p
  · cases event with
    | line line =>
      dsimp only
      have hnone : s.answered process line = [] := by rw [answered, receiver, hprocess]
      rw [hline, hnone]
      exact .of_tickets rfl rfl
    | eof =>
      rw [heof]
      exact .of_tickets rfl rfl
  dsimp only
  have hreceiver : s.receiver process =
      if p.ended then none
      else (s.workers[p.index]?).filter fun h => h.generation = p.generation := by
    rw [receiver, hprocess]
  by_cases hended : p.ended = true
  · rw [if_pos hended]
    cases event with
    | line line =>
      have hnone : s.answered process line = [] := by rw [answered, hreceiver, if_pos hended]
      rw [hline, hnone]
      exact .of_tickets rfl rfl
    | eof =>
      rw [heof]
      exact .of_tickets rfl rfl
  rw [if_neg hended]
  rw [if_neg hended] at hreceiver
  cases event with
  | eof =>
    dsimp only
    rw [heof]
    split
    · exact .of_tickets rfl rfl
    · split_ifs
      · exact .of_tickets rfl rfl
      · exact .of_tickets rfl rfl
  | line line =>
    dsimp only
    rcases hworker : s.workers[p.index]? with _ | handle
    · rw [hworker, Option.filter_none] at hreceiver
      have hnone : s.answered process line = [] := by rw [answered, hreceiver]
      rw [hline, hnone]
      exact .of_tickets rfl rfl
    dsimp only
    rw [hworker] at hreceiver
    by_cases hgeneration : handle.generation = p.generation
    · rw [if_neg (not_not.2 hgeneration)]
      rw [Option.filter_some, if_pos (decide_eq_true hgeneration)] at hreceiver
      have hanswered : s.answered process line =
          match lineTicket line with
          | some ticket => if (handle.table.slotOf ticket).isSome then [ticket] else []
          | none => [] := by
        rw [answered, hreceiver]
        cases lineTicket line <;> rfl
      rw [hline, hanswered]
      exact moves_onLine (s := { s with applied := s.applied ++ [(process, handle.process)] })
        hworker line written
    · rw [if_pos hgeneration]
      rw [Option.filter_some, if_neg (by simpa using hgeneration)] at hreceiver
      have hnone : s.answered process line = [] := by rw [answered, hreceiver]
      rw [hline, hnone]
      exact .of_tickets rfl rfl

theorem isRestarted_some {worker : ℕ} {timedOut : Bool}
    (h : s.isRestarted worker timedOut = true) :
    ∃ handle, s.workers[worker]? = some handle ∧ handle.retiring = false := by
  rw [isRestarted, Option.any_eq_true] at h
  obtain ⟨handle, hhandle, hdead⟩ := h
  rw [Bool.and_eq_true, Bool.not_eq_true'] at hdead
  exact ⟨handle, hhandle, hdead.1⟩

theorem isSpent_some {worker : ℕ} (hhandle : s.workers[worker]? = some handle)
    (hstays : handle.retiring = false) :
    s.isSpent worker = decide (maxRestarts < handle.restarts + 1) := by
  rw [isSpent, hhandle, Option.any_some, hstays, Bool.not_false, Bool.true_and]

variable (worker : ℕ)

theorem moves_restart (timedOut spawns : Bool) :
    s.intake.Moves [] (s.removed c (.restart worker timedOut spawns))
      (s.act c (.restart worker timedOut spawns)).intake := by
  rw [removed, act]
  by_cases hrestarted : s.isRestarted worker timedOut = true
  · obtain ⟨handle, hhandle, hstays⟩ := isRestarted_some hrestarted
    have hneg : ¬ handle.retiring = true := Bool.eq_false_iff.1 hstays
    rw [if_pos hrestarted, hrestarted, Bool.true_and, isSpent_some hhandle hstays, restartWorker,
      hhandle]
    dsimp only
    rw [if_neg hneg]
    by_cases hover : maxRestarts < handle.restarts + 1
    · rw [if_pos hover, if_pos (decide_eq_true hover)]
      have hcrash := Intake.Moves.drop (t := (s.intake.crash c.order worker).1)
        (s.intake.crash c.order worker).2
      exact ⟨hcrash.ids, hcrash.next⟩
    · rw [if_neg hover, if_neg (by simpa using hover)]
      split_ifs
      · exact .of_tickets rfl rfl
      · exact .of_tickets rfl rfl
  · rw [if_neg hrestarted, Bool.eq_false_iff.2 hrestarted, Bool.false_and]
    exact .of_tickets rfl rfl

theorem moves_dispatch (created : Bool) (written : ℕ) :
    s.intake.Moves [] [] (s.dispatch c worker created written).intake := by
  refine dispatch_induction (motive := fun r : Dispatcher F => s.intake.Moves [] [] r.intake)
    (.of_tickets rfl rfl) (fun need written => ?_) fun handle t table messages _ hdispatch => ?_
  · rw [rebuildSegment]
    split <;> exact .of_tickets rfl rfl
  · rw [Intake.dispatch] at hdispatch
    split_ifs at hdispatch
    obtain ⟨claimed, -, heq⟩ := Option.map_eq_some_iff.1 hdispatch
    obtain rfl := (congrArg Prod.fst heq).symm
    exact .of_tickets rfl rfl

theorem moves_removeReaped (reaped : ℕ → Bool) (n : ℕ) :
    s.intake.Moves [] [] (s.removeReaped c reaped n).intake := by
  have hsame : (s.removeReaped c reaped n).intake.tickets = s.intake.tickets ∧
      (s.removeReaped c reaped n).intake.nextTicket = s.intake.nextTicket := by
    induction n generalizing s with
    | zero => exact ⟨rfl, rfl⟩
    | succ n ih =>
      rw [removeReaped]
      split_ifs
      · exact ih
      · exact ih
  exact .of_tickets hsame.1 hsame.2

variable (a : DispatcherAction F)

/-- The open tickets after an action are those before it and the posted ones, less the removed. -/
theorem moves_act : s.intake.Moves (s.posted a) (s.removed c a) (s.act c a).intake := by
  cases a with
  | start spawns =>
    rw [act, Dispatcher.start]
    split_ifs
    · exact .of_tickets rfl rfl
    · rw [intake_spawnWorkers]
      exact .of_tickets rfl rfl
  | post job =>
    rw [posted, removed, act]
    by_cases hsmall : job.audio.any tooLarge = true
    · rw [if_pos hsmall, if_pos hsmall, Intake.post, if_pos hsmall]
      exact .of_tickets rfl rfl
    · rw [if_neg hsmall, if_neg hsmall]
      exact .post c.slotFormat job (Bool.eq_false_iff.2 hsmall)
  | setTargetWorkers target recent spawns =>
    rw [act, setTargetWorkers]
    split_ifs
    · exact .of_tickets rfl rfl
    · exact .of_tickets rfl rfl
    · exact .of_tickets rfl rfl
    · exact moves_applyTargetWorkers _ spawns
  | applyNextTarget recent spawns =>
    rw [act, applyNextTarget]
    split
    · exact .of_tickets rfl rfl
    · split_ifs
      · exact .of_tickets rfl rfl
      · exact moves_applyTargetWorkers _ spawns
  | event process event written => exact moves_event process event written
  | restart worker timedOut spawns => exact moves_restart worker timedOut spawns
  | dispatch worker created written => exact moves_dispatch worker created written
  | signalRetiring => exact .of_tickets rfl rfl
  | reap exited overdue => exact moves_removeReaped _ _
  | releaseFrame worker shm slot =>
    rw [act, releaseFrame]
    split
    · exact .of_tickets rfl rfl
    · split_ifs
      · exact .of_tickets rfl rfl
      · split
        · exact .of_tickets rfl rfl
        · exact .of_tickets rfl rfl
  | cancelFrame key => exact .cancelFrame key
  | cancelPreviewSequence sequence => exact .cancelSequence sequence
  | setGraphSnapshot path written =>
    rw [act, setGraphSnapshot]
    split_ifs
    · exact .of_tickets rfl rfl
    · exact .of_tickets rfl rfl
  | broadcastPluginCancel written => exact .of_tickets rfl rfl

/-- Every ticket is open after the action, or its completion was taken. -/
theorem ids_act_perm (hnodup : (s.intake.ids ++ s.posted a).Nodup) :
    ((s.act c a).intake.ids ++ s.completions c a).Perm (s.intake.ids ++ s.posted a) := by
  rw [(moves_act a).ids]
  exact filter_append_takeOff_perm hnodup _

/-! ### Processes -/

/-- The pool grows to the target. -/
def Grows (s : Dispatcher F) (target : ℕ) (spawns : ℕ → Bool) : Prop :=
  s.targetWorkers ≠ max target 1 ∧ s.workers.length < max target 1 ∧
    spawns s.workers.length = true

/-- The action spawns a process. -/
def Spawns (s : Dispatcher F) : DispatcherAction F → Prop
  | .start spawns =>
    s.started = false ∧ 0 < s.intake.scheduler.workers ∧ spawns 0 = true
  | .setTargetWorkers target recent spawns =>
    s.started = true ∧ (s.resized && recent) = false ∧ s.Grows target spawns
  | .applyNextTarget recent spawns =>
    ∃ target, s.nextTarget = some target ∧ (s.resized && recent) = false ∧ s.Grows target spawns
  | .restart worker timedOut spawns =>
    s.isRestarted worker timedOut = true ∧ s.isSpent worker = false ∧ spawns = true
  | _ => False

theorem processes_spawnWorkers_le (is : List ℕ) :
    s.processes.length ≤ (s.spawnWorkers spawns is).processes.length := by
  induction is generalizing s with
  | nil => exact le_rfl
  | cons i is ih =>
    rw [spawnWorkers]
    split_ifs
    · refine le_trans ?_ ih
      rw [spawnWorker, List.length_append]
      exact Nat.le_add_right _ _
    · exact le_rfl

theorem processes_spawnWorkers_iff (i : ℕ) (is : List ℕ) :
    (s.spawnWorkers spawns (i :: is)).processes.length = s.processes.length ↔
      ¬ spawns i = true := by
  rw [spawnWorkers]
  by_cases hspawns : spawns i = true
  · rw [if_pos hspawns]
    refine iff_of_false (fun hlength => ?_) (not_not.2 hspawns)
    have hrest := processes_spawnWorkers_le (s := s.spawnWorker i) spawns is
    rw [hlength, spawnWorker, List.length_append, List.length_singleton] at hrest
    exact absurd hrest (by omega)
  · rw [if_neg hspawns]
    exact iff_of_true rfl hspawns

theorem processes_applyTargetWorkers_iff (target : ℕ) (spawns : ℕ → Bool) :
    (s.applyTargetWorkers target spawns).processes.length = s.processes.length ↔
      ¬ s.Grows target spawns := by
  rw [applyTargetWorkers, Grows]
  by_cases hsame : s.targetWorkers = max target 1
  · rw [if_pos hsame]
    exact iff_of_true rfl fun h => h.1 hsame
  rw [if_neg hsame]
  by_cases hgrow : s.workers.length < max target 1
  · obtain ⟨n, hn⟩ : ∃ n, max target 1 - s.workers.length = n + 1 :=
      Nat.exists_eq_succ_of_ne_zero (Nat.sub_pos_of_lt hgrow).ne'
    rw [if_pos hgrow, hn, List.range_succ_eq_map, List.map_cons, Nat.add_zero,
      processes_spawnWorkers_iff]
    exact not_congr ⟨fun h => ⟨hsame, hgrow, h⟩, fun h => h.2.2⟩
  · rw [if_neg hgrow]
    exact iff_of_true rfl fun h => hgrow h.2.1

theorem processes_onFrameReady (ticket : ℤ) (slot : ℕ) :
    (s.onFrameReady worker ticket slot).processes = s.processes := by
  rw [onFrameReady]
  split
  · rfl
  · split <;> rfl

theorem processes_onFrameFailed (ticket : ℤ) :
    (s.onFrameFailed worker ticket).processes = s.processes := by
  rw [onFrameFailed]
  split
  · rfl
  · split <;> rfl

theorem processes_onLine (line : WorkerLine) (written : Bool) :
    (s.onLine worker line written).processes = s.processes := by
  cases line with
  | handshake => rfl
  | helloCaps => rfl
  | batchAccepted => rfl
  | frameReady ticket slot => exact processes_onFrameReady worker ticket slot
  | frameFailed ticket => exact processes_onFrameFailed worker ticket
  | error ticket =>
    cases ticket with
    | none => rfl
    | some ticket => exact processes_onFrameFailed worker ticket

theorem length_processes_event (process : ℕ) (event : WorkerEvent) (written : Bool) :
    (s.event process event written).processes.length = s.processes.length := by
  rw [Dispatcher.event]
  split
  · rfl
  · split_ifs
    · rfl
    · cases event with
      | line line =>
        dsimp only
        split
        · rfl
        · split_ifs
          · rfl
          · rw [processes_onLine]
      | eof =>
        dsimp only
        split
        · exact List.length_set
        · split_ifs
          · exact List.length_set
          · exact List.length_set

theorem processes_restart_iff (timedOut spawns : Bool) :
    (s.act c (.restart worker timedOut spawns)).processes.length = s.processes.length ↔
      ¬ s.Spawns (.restart worker timedOut spawns) := by
  rw [act, Spawns]
  by_cases hrestarted : s.isRestarted worker timedOut = true
  · obtain ⟨handle, hhandle, hstays⟩ := isRestarted_some hrestarted
    have hneg : ¬ handle.retiring = true := Bool.eq_false_iff.1 hstays
    rw [if_pos hrestarted, isSpent_some hhandle hstays, restartWorker, hhandle]
    dsimp only
    rw [if_neg hneg]
    by_cases hover : maxRestarts < handle.restarts + 1
    · rw [if_pos hover]
      exact iff_of_true rfl fun h => absurd hover (by simpa using h.2.1)
    · rw [if_neg hover]
      cases spawns with
      | false => exact iff_of_true rfl fun h => absurd h.2.2 Bool.false_ne_true
      | true =>
        refine iff_of_false (fun hlength => ?_)
          (not_not.2 ⟨hrestarted, by simpa using hover, rfl⟩)
        rw [if_pos rfl, spawnWorker, List.length_append, List.length_singleton] at hlength
        exact Nat.succ_ne_self s.processes.length hlength
  · rw [if_neg hrestarted]
    exact iff_of_true rfl fun h => hrestarted h.1

theorem processes_removeReaped (reaped : ℕ → Bool) (n : ℕ) :
    (s.removeReaped c reaped n).processes = s.processes := by
  induction n generalizing s with
  | zero => rfl
  | succ n ih =>
    rw [removeReaped, ih]
    split_ifs <;> rfl

theorem processes_dispatch (created : Bool) (written : ℕ) :
    (s.dispatch c worker created written).processes = s.processes := by
  refine dispatch_induction (motive := fun r : Dispatcher F => r.processes = s.processes) rfl
    (fun need written => ?_) fun handle t table messages _ _ => rfl
  rw [rebuildSegment]
  split <;> rfl

/-- An action leaves as many processes as there were exactly when it spawns none. -/
theorem processes_act_iff : (s.act c a).processes.length = s.processes.length ↔ ¬ s.Spawns a := by
  cases a with
  | start spawns =>
    rw [act, Dispatcher.start, Spawns]
    by_cases hstarted : s.started = true
    · rw [if_pos hstarted]
      exact iff_of_true rfl fun h => absurd (hstarted.symm.trans h.1) (by simp)
    rw [if_neg hstarted]
    rcases hworkers : s.intake.scheduler.workers with _ | n
    · exact iff_of_true rfl fun h => absurd h.2.1 (lt_irrefl 0)
    · rw [List.range_succ_eq_map]
      refine (processes_spawnWorkers_iff (s := { s with started := true }) spawns 0 _).trans ?_
      exact not_congr ⟨fun h => ⟨Bool.eq_false_iff.2 hstarted, Nat.succ_pos n, h⟩, fun h => h.2.2⟩
  | post job => exact iff_of_true rfl id
  | setTargetWorkers target recent spawns =>
    rw [act, setTargetWorkers, Spawns]
    by_cases hstarted : s.started = true
    · rw [if_neg (by rw [hstarted]; exact Bool.false_ne_true)]
      by_cases hrecent : (s.resized && recent) = true
      · rw [if_pos hrecent]
        refine iff_of_true ?_ fun h => absurd (hrecent.symm.trans h.2.1) (by simp)
        split_ifs <;> rfl
      · rw [if_neg hrecent, processes_applyTargetWorkers_iff]
        have hmax : max (max target 1) 1 = max target 1 := max_eq_left (le_max_right _ _)
        rw [Grows, hmax]
        exact not_congr ⟨fun h => ⟨hstarted, Bool.eq_false_iff.2 hrecent, h⟩, fun h => h.2.2⟩
    · rw [if_pos (by simpa using hstarted)]
      exact iff_of_true rfl fun h => hstarted h.1
  | applyNextTarget recent spawns =>
    rw [act, applyNextTarget, Spawns]
    rcases hnext : s.nextTarget with _ | target
    · exact iff_of_true rfl fun ⟨_, h, _⟩ => absurd h (by simp)
    dsimp only
    by_cases hrecent : (s.resized && recent) = true
    · rw [if_pos hrecent]
      exact iff_of_true rfl fun ⟨_, _, h, _⟩ => absurd (hrecent.symm.trans h) (by simp)
    · rw [if_neg hrecent, processes_applyTargetWorkers_iff]
      refine not_congr ⟨fun h => ⟨target, rfl, Bool.eq_false_iff.2 hrecent, h⟩, ?_⟩
      rintro ⟨target', heq, -, h⟩
      rwa [Option.some.inj heq]
  | event process event written => exact iff_of_true (length_processes_event _ _ _) id
  | restart worker timedOut spawns => exact processes_restart_iff worker timedOut spawns
  | dispatch worker created written =>
    exact iff_of_true (congrArg List.length (processes_dispatch _ _ _)) id
  | signalRetiring => exact iff_of_true rfl id
  | reap exited overdue => exact iff_of_true (congrArg List.length (processes_removeReaped _ _)) id
  | releaseFrame worker shm slot =>
    refine iff_of_true ?_ id
    rw [act, releaseFrame]
    split
    · rfl
    · split_ifs
      · rfl
      · split <;> rfl
  | cancelFrame key => exact iff_of_true rfl id
  | cancelPreviewSequence sequence => exact iff_of_true rfl id
  | setGraphSnapshot path written =>
    refine iff_of_true ?_ id
    rw [act, setGraphSnapshot]
    split_ifs <;> rfl
  | broadcastPluginCancel written => exact iff_of_true rfl id

end Dispatcher

end Oak.Render
