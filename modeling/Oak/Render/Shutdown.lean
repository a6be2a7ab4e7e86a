import Oak.Render.Completion
import Oak.Render.Identity

/-!
# Shutdown of the dispatcher

`ProcessDispatcher::shutdown` of `oak-render/src/procpool.rs`, against everything that may happen
meanwhile. It sets the flag `shutting_down`, sends every worker the shutdown message, pumps until no
child runs any more or three seconds are over, kills what is left, and fires the completions of the
tickets that are still open.

* `Phase` says how far the shutdown is. `post`, `poll`, `set_target_workers` and
  `set_graph_snapshot` look at the flag; `start`, the releases and the cancellations do not, and
  neither does the `pump` of the drain loop.
* `held` are the completions that calls took off the table under the lock and have not fired yet,
  `drained` those in the hands of the shutdown, and `fired` what has been fired.
* `opened` and `spawned` are not in the source: the open tickets and the number of processes when
  the shutdown began.

## Main results

* `final_run_iff`: the shutdown is final in every state of a run exactly when no step restarts,
  grows or starts the pool, and no cancellation overlaps the return.
* `total_run`: no completion is lost, and none fires twice.
* `drain_restarts`: the drain loop restarts a worker that exits as it was told.
-/

namespace Oak.Render

open Oak.Lib

variable {F : Type*}

/-- How far the shutdown is. -/
inductive Phase where
  | running | draining | closed | returned
  deriving DecidableEq, Repr

/-- The dispatcher while it is shut down. -/
structure Teardown (F : Type*) where
  dispatcher : Dispatcher F
  phase : Phase
  held : List ℤ
  drained : List ℤ
  fired : List ℤ
  opened : List ℤ
  spawned : ℕ

/-- A call or a step of a pump, a completion that a caller fires, and the steps of `shutdown`. -/
inductive TeardownAction (F : Type*) where
  | call (a : DispatcherAction F)
  | fire (id : ℤ)
  | shutdown
  | fireDrained
  | close
  | finish

/-- The steps of `pump`. -/
def DispatcherAction.isPump : DispatcherAction F → Bool
  | .applyNextTarget _ _ | .event _ _ _ | .restart _ _ _ | .dispatch _ _ _ | .signalRetiring
  | .reap _ _ => true
  | _ => false

/-- The calls that look at the flag. -/
def DispatcherAction.isFlagged : DispatcherAction F → Bool
  | .post _ | .setTargetWorkers _ _ _ | .setGraphSnapshot _ _ => true
  | _ => false

/-- An action is taken before the shutdown, by the drain loop, or where the flag is not looked
at. -/
def Phase.accepts (phase : Phase) (a : DispatcherAction F) : Bool :=
  phase = .running || (phase = .draining && a.isPump) || (!a.isPump && !a.isFlagged)

/-- The end of `shutdown`: stragglers are killed, and the tickets are cleared. -/
def Dispatcher.kill (s : Dispatcher F) : Dispatcher F :=
  { s with
    workers := s.workers.map fun h => { h with child := false, stdin := false }
    intake := { s.intake with tickets := [] } }

variable {a : DispatcherAction F}

namespace Teardown

/-- A dispatcher that runs. -/
def new (workers batchSize slots slotBytes : ℕ) : Teardown F where
  dispatcher := .new workers batchSize slots slotBytes
  phase := .running
  held := []
  drained := []
  fired := []
  opened := []
  spawned := 0

/-- A call, or a step of a pump. The completions are the caller's; those of the drain loop are the
shutdown's. -/
def call (c : DispatcherConfig) (s : Teardown F) (a : DispatcherAction F) : Teardown F :=
  if s.phase.accepts a then
    let taken := s.dispatcher.completions c a
    if s.phase = .draining ∧ a.isPump then
      { s with dispatcher := s.dispatcher.act c a, drained := s.drained ++ taken }
    else { s with dispatcher := s.dispatcher.act c a, held := s.held ++ taken }
  else s

/-- A caller fires a completion that it took. -/
def fire (s : Teardown F) (id : ℤ) : Teardown F :=
  if id ∈ s.held then { s with held := s.held.erase id, fired := s.fired ++ [id] } else s

/-- The first part of `shutdown`. The result of the shutdown messages is not looked at. -/
def shutdown (s : Teardown F) : Teardown F :=
  if s.phase = .running then
    { s with
      phase := .draining
      opened := s.dispatcher.intake.ids
      spawned := s.dispatcher.processes.length }
  else s

/-- The drain loop delivers what it pumped. -/
def fireDrained (s : Teardown F) : Teardown F :=
  if s.phase = .draining then { s with drained := [], fired := s.fired ++ s.drained } else s

/-- The drain loop is over: stragglers are killed, and the tickets that are still open are taken. -/
def close (s : Teardown F) : Teardown F :=
  if s.phase = .draining then
    { s with
      phase := .closed
      dispatcher := s.dispatcher.kill
      drained := s.drained ++ s.dispatcher.intake.ids }
  else s

/-- The last completions are fired, and `shutdown` returns. -/
def finish (s : Teardown F) : Teardown F :=
  if s.phase = .closed then
    { s with phase := .returned, drained := [], fired := s.fired ++ s.drained }
  else s

/-- One action. -/
def act (c : DispatcherConfig) (s : Teardown F) : TeardownAction F → Teardown F
  | .call a => s.call c a
  | .fire id => s.fire id
  | .shutdown => s.shutdown
  | .fireDrained => s.fireDrained
  | .close => s.close
  | .finish => s.finish

/-- No process was spawned since the shutdown began, and when it has returned, every ticket that was
open then has its completion fired once. -/
structure Final (s : Teardown F) : Prop where
  spawned : s.phase ≠ .running → s.dispatcher.processes.length = s.spawned
  answered : s.phase = .returned → ∀ id ∈ s.opened, s.fired.count id = 1

/-- After the shutdown began, the pool is not restarted, grown or started; when it returns, no call
is about to fire the completion of a ticket that was open. -/
def Quiet (s : Teardown F) : TeardownAction F → Prop
  | .call a => s.phase ≠ .running → s.phase.accepts a = true → ¬ s.dispatcher.Spawns a
  | .finish => s.phase = .closed → ∀ id ∈ s.opened, id ∉ s.held
  | _ => True

/-- How often a ticket is open, or its completion held, drained or fired. -/
def total (s : Teardown F) (id : ℤ) : ℕ :=
  s.dispatcher.intake.ids.count id + s.held.count id + s.drained.count id + s.fired.count id

/-- Every ticket is open, held, drained or fired, and only one of these. -/
structure Counted (s : Teardown F) : Prop where
  once : ∀ id, s.total id ≤ 1
  fresh : ∀ id, 0 < s.total id → id < s.dispatcher.intake.nextTicket
  opened : s.phase ≠ .running → ∀ id ∈ s.opened, 0 < s.total id
  closed : s.phase = .closed ∨ s.phase = .returned → s.dispatcher.intake.ids = []
  returned : s.phase = .returned → s.drained = []

variable {c : DispatcherConfig} {s : Teardown F}

/-! ### Calls -/

theorem count_posted_le (a : DispatcherAction F) (id : ℤ) :
    (s.dispatcher.posted a).count id ≤ 1 ∧
      (0 < (s.dispatcher.posted a).count id →
        id = s.dispatcher.intake.nextTicket ∧ (s.dispatcher.posted a).length = 1) := by
  have hone (new : List ℤ) (hnew : new = [] ∨ new = [s.dispatcher.intake.nextTicket]) :
      new.count id ≤ 1 ∧
        (0 < new.count id → id = s.dispatcher.intake.nextTicket ∧ new.length = 1) := by
    rcases hnew with rfl | rfl
    · simp
    · rw [List.count_singleton]
      split_ifs with heq
      · exact ⟨le_rfl, fun _ => ⟨(beq_iff_eq.1 heq).symm, rfl⟩⟩
      · exact ⟨Nat.zero_le 1, fun h => absurd h (lt_irrefl 0)⟩
  refine hone _ ?_
  cases a with
  | post job =>
    rw [Dispatcher.posted]
    split_ifs
    · exact .inl rfl
    · exact .inr rfl
  | _ => exact .inl rfl

theorem Counted.total_call (h : s.Counted) (haccepted : s.phase.accepts a = true) (id : ℤ) :
    (s.call c a).total id = s.total id + (s.dispatcher.posted a).count id := by
  have hnodup : (s.dispatcher.intake.ids ++ s.dispatcher.posted a).Nodup := by
    refine List.nodup_iff_count_le_one.2 fun x => ?_
    have honce := h.once x
    have hfresh := h.fresh x
    obtain ⟨hle, hnew⟩ := count_posted_le (s := s) a x
    rw [List.count_append]
    rw [total] at honce hfresh
    by_contra hmore
    have hlt := hfresh (by omega)
    have heq := (hnew (by omega)).1
    omega
  have hmoved := (Dispatcher.ids_act_perm (c := c) a hnodup).count_eq id
  rw [List.count_append, List.count_append] at hmoved
  rw [call, if_pos haccepted]
  dsimp only
  split_ifs
  · rw [total, total, List.count_append]
    dsimp only
    omega
  · rw [total, total, List.count_append]
    dsimp only
    omega

theorem call_frame (a : DispatcherAction F) :
    (s.call c a).phase = s.phase ∧ (s.call c a).opened = s.opened ∧
      (s.call c a).spawned = s.spawned ∧ (s.call c a).fired = s.fired := by
  rw [call]
  dsimp only
  split_ifs
  · exact ⟨rfl, rfl, rfl, rfl⟩
  · exact ⟨rfl, rfl, rfl, rfl⟩
  · exact ⟨rfl, rfl, rfl, rfl⟩

theorem dispatcher_call (haccepted : s.phase.accepts a = true) :
    (s.call c a).dispatcher = s.dispatcher.act c a := by
  rw [call, if_pos haccepted]
  dsimp only
  split_ifs <;> rfl

theorem posted_eq_nil (hphase : s.phase ≠ .running) (haccepted : s.phase.accepts a = true) :
    s.dispatcher.posted a = [] := by
  cases a with
  | post job => simp [Phase.accepts, hphase, DispatcherAction.isPump, DispatcherAction.isFlagged]
      at haccepted
  | _ => rfl

theorem Counted.call (h : s.Counted) (a : DispatcherAction F) : Counted (s.call c a) := by
  by_cases haccepted : s.phase.accepts a = true
  · obtain ⟨hphase, hopened, -, -⟩ := call_frame (c := c) (s := s) a
    have htotal := h.total_call (c := c) haccepted
    have hids := (Dispatcher.moves_act (c := c) (s := s.dispatcher) a).ids
    have hnext := (Dispatcher.moves_act (c := c) (s := s.dispatcher) a).next
    have hempty (hover : s.phase = .closed ∨ s.phase = .returned) :
        (s.dispatcher.act c a).intake.ids = [] ∧ s.dispatcher.completions c a = [] := by
      have hnil : s.dispatcher.posted a = [] :=
        posted_eq_nil (by rcases hover with h | h <;> simp [h]) haccepted
      rw [hids, Dispatcher.completions, hnil, h.closed hover]
      exact ⟨rfl, takeOff_nil _⟩
    refine ⟨fun id => ?_, fun id hid => ?_, fun hrun id hid => ?_, fun hover => ?_, fun hover => ?_⟩
    · have honce := h.once id
      have hfresh := h.fresh id
      obtain ⟨hle, hnew⟩ := count_posted_le (s := s) a id
      rw [htotal]
      by_contra hmore
      have hlt := hfresh (by omega)
      have heq := (hnew (by omega)).1
      omega
    · rw [dispatcher_call haccepted, hnext]
      rw [htotal] at hid
      have hfresh := h.fresh id
      obtain ⟨-, hnew⟩ := count_posted_le (s := s) a id
      rcases Nat.eq_zero_or_pos ((s.dispatcher.posted a).count id) with hzero | hpos
      · have hlt := hfresh (by omega)
        omega
      · obtain ⟨heq, hlength⟩ := hnew hpos
        omega
    · rw [hphase] at hrun
      rw [hopened] at hid
      rw [htotal]
      exact Nat.add_pos_left (h.opened hrun id hid) _
    · rw [hphase] at hover
      rw [dispatcher_call haccepted]
      exact (hempty hover).1
    · rw [hphase] at hover
      have hdrained := h.returned hover
      rw [Teardown.call, if_pos haccepted]
      dsimp only
      split_ifs
      · rw [hdrained, (hempty (.inr hover)).2]
        rfl
      · exact hdrained
  · rw [Teardown.call, if_neg haccepted]
    exact h

/-! ### Firing -/

theorem total_fire (id x : ℤ) : (s.fire id).total x = s.total x := by
  rw [fire]
  split_ifs with hheld
  · rw [total, total]
    dsimp only
    rw [List.count_append, List.count_singleton, List.count_erase]
    have hpos : 0 < s.held.count id := List.count_pos_iff.2 hheld
    by_cases hx : id = x
    · subst hx
      simp only [BEq.rfl, if_true]
      omega
    · simp only [beq_iff_eq, hx, if_false]
      omega
  · rfl

theorem Counted.of_total (h : s.Counted) {t : Teardown F} (htotal : ∀ id, t.total id = s.total id)
    (hnext : t.dispatcher.intake.nextTicket = s.dispatcher.intake.nextTicket)
    (hopened : t.phase ≠ .running → ∀ id ∈ t.opened, 0 < s.total id)
    (hclosed : t.phase = .closed ∨ t.phase = .returned → t.dispatcher.intake.ids = [])
    (hreturned : t.phase = .returned → t.drained = []) : t.Counted where
  once id := htotal id ▸ h.once id
  fresh id hid := hnext ▸ h.fresh id (htotal id ▸ hid)
  opened hrun id hid := htotal id ▸ hopened hrun id hid
  closed := hclosed
  returned := hreturned

theorem Counted.act (h : s.Counted) (a : TeardownAction F) : Counted (s.act c a) := by
  cases a with
  | call a => exact h.call a
  | fire id =>
    have htotal := total_fire (s := s) id
    rw [Teardown.act]
    rw [fire] at htotal ⊢
    split_ifs at htotal ⊢
    · exact h.of_total htotal rfl h.opened h.closed h.returned
    · exact h
  | shutdown =>
    rw [Teardown.act, shutdown]
    split_ifs with hphase
    · refine h.of_total (fun _ => rfl) rfl (fun _ id hid => ?_) (by simp) (by simp)
      have hpos : 0 < s.dispatcher.intake.ids.count id := List.count_pos_iff.2 hid
      rw [total]
      omega
    · exact h
  | fireDrained =>
    rw [Teardown.act, fireDrained]
    split_ifs with hphase
    · refine h.of_total (fun id => ?_) rfl h.opened h.closed fun _ => rfl
      rw [total, total]
      dsimp only
      rw [List.count_append, List.count_nil]
      omega
    · exact h
  | close =>
    rw [Teardown.act, close]
    split_ifs with hphase
    · refine h.of_total (fun id => ?_) rfl (fun _ => h.opened (by simp [hphase])) (fun _ => rfl)
        (by simp)
      rw [total, total]
      dsimp only [Dispatcher.kill, Intake.ids]
      rw [List.count_append, List.map_nil, List.count_nil]
      omega
    · exact h
  | finish =>
    rw [Teardown.act, finish]
    split_ifs with hphase
    · refine h.of_total (fun id => ?_) rfl (fun _ => h.opened (by simp [hphase]))
        (fun _ => h.closed (.inl hphase)) fun _ => rfl
      rw [total, total]
      dsimp only
      rw [List.count_append, List.count_nil]
      omega
    · exact h

theorem counted_new (workers batchSize slots slotBytes : ℕ) :
    Counted (new workers batchSize slots slotBytes : Teardown F) where
  once _ := Nat.zero_le 1
  fresh _ hid := absurd hid (lt_irrefl 0)
  opened hrun := absurd rfl hrun
  closed _ := rfl
  returned _ := rfl

/-! ### Final states -/

/-- What leaves processes, and completions that were fired of tickets that were open. -/
theorem Final.of_frame (h : s.Final) {t : Teardown F}
    (hspawned : t.phase ≠ .running → s.phase ≠ .running ∧ t.spawned = s.spawned ∧
      t.dispatcher.processes.length = s.dispatcher.processes.length)
    (hanswered : t.phase = .returned → s.phase = .returned ∧ t.opened = s.opened ∧
      ∀ id ∈ s.opened, t.fired.count id = s.fired.count id) : t.Final where
  spawned hrun := by
    obtain ⟨hrun, hspawned, hprocesses⟩ := hspawned hrun
    rw [hprocesses, hspawned]
    exact h.spawned hrun
  answered hover id hid := by
    obtain ⟨hover, hopened, hfired⟩ := hanswered hover
    rw [hopened] at hid
    rw [hfired id hid]
    exact h.answered hover id hid

theorem final_call_iff (h : s.Final) (a : DispatcherAction F) :
    (s.call c a).Final ↔ s.Quiet (.call a) := by
  obtain ⟨hphase, hopened, hspawned, hfired⟩ := call_frame (c := c) (s := s) a
  have hframe (hprocesses : s.phase ≠ .running →
      (s.call c a).dispatcher.processes.length = s.dispatcher.processes.length) :
      (s.call c a).Final :=
    h.of_frame (fun hrun => ⟨hphase ▸ hrun, hspawned, hprocesses (hphase ▸ hrun)⟩)
      fun hover => ⟨hphase ▸ hover, hopened, fun _ _ => by rw [hfired]⟩
  constructor
  · intro hfinal hrun haccepted
    have hlength := hfinal.spawned (hphase ▸ hrun)
    rw [hspawned, ← h.spawned hrun, dispatcher_call haccepted] at hlength
    exact Dispatcher.processes_act_iff a |>.1 hlength
  · intro hquiet
    refine hframe fun hrun => ?_
    by_cases haccepted : s.phase.accepts a = true
    · rw [dispatcher_call haccepted]
      exact (Dispatcher.processes_act_iff a).2 (hquiet hrun haccepted)
    · rw [call, if_neg haccepted]

/-- The return is final exactly when no caller still has a completion to fire. -/
theorem final_finish_iff (h : s.Counted) (hfinal : s.Final) :
    s.finish.Final ↔ s.Quiet .finish := by
  rw [finish]
  split_ifs with hphase
  · have hids := h.closed (.inl hphase)
    have hcount (id : ℤ) (hid : id ∈ s.opened) :
        s.held.count id + (s.fired ++ s.drained).count id = 1 := by
      have honce := h.once id
      have hopen := h.opened (by simp [hphase]) id hid
      rw [total, hids, List.count_nil] at honce hopen
      rw [List.count_append]
      omega
    constructor
    · intro hreturned _ id hid hheld
      have hone : (s.fired ++ s.drained).count id = 1 := hreturned.answered rfl id hid
      have hpos := List.count_pos_iff.2 hheld
      have hall := hcount id hid
      omega
    · intro hquiet
      refine ⟨fun _ => hfinal.spawned (by simp [hphase]), fun _ id hid => ?_⟩
      have hnone := List.count_eq_zero.2 (hquiet hphase id hid)
      have hall := hcount id hid
      show (s.fired ++ s.drained).count id = 1
      omega
  · exact iff_of_true hfinal fun hclosed => absurd hclosed hphase

theorem Final.fire (h : s.Final) (hcounted : s.Counted) (id : ℤ) : (s.fire id).Final := by
  rw [Teardown.fire]
  split_ifs with hheld
  · refine h.of_frame (fun hrun => ⟨hrun, rfl, rfl⟩) fun hover => ⟨hover, rfl, fun x hx => ?_⟩
    have hone := h.answered hover x hx
    have honce := hcounted.once x
    rw [total] at honce
    have hpos : 0 < s.held.count id := List.count_pos_iff.2 hheld
    dsimp only
    rw [List.count_append, List.count_singleton]
    split_ifs with heq
    · rw [beq_iff_eq.1 heq] at hpos
      omega
    · rfl
  · exact h

/-- One action keeps the shutdown final exactly when it is quiet. -/
theorem final_act_iff (hcounted : s.Counted) (h : s.Final) (a : TeardownAction F) :
    (s.act c a).Final ↔ s.Quiet a := by
  cases a with
  | call a => exact final_call_iff h a
  | fire id => exact iff_of_true (h.fire hcounted id) trivial
  | shutdown =>
    refine iff_of_true ?_ trivial
    rw [act, shutdown]
    split_ifs
    · exact ⟨fun _ => rfl, fun hover => absurd hover (by simp)⟩
    · exact h
  | fireDrained =>
    refine iff_of_true ?_ trivial
    rw [act, fireDrained]
    split_ifs with hphase
    · exact ⟨h.spawned, fun hover => absurd (hphase.symm.trans hover) (by simp)⟩
    · exact h
  | close =>
    refine iff_of_true ?_ trivial
    rw [act, close]
    split_ifs with hphase
    · exact ⟨fun _ => h.spawned (by simp [hphase]), fun hover => absurd hover (by simp)⟩
    · exact h
  | finish => exact final_finish_iff hcounted h

/-- The shutdown is final all along exactly the quiet runs. -/
theorem final_run_iff (c : DispatcherConfig) (workers batchSize slots slotBytes : ℕ)
    (as : List (TeardownAction F)) :
    (∀ bs cs, as = bs ++ cs → Final (run (act c) (new workers batchSize slots slotBytes) bs)) ↔
      Permitted (act c) Quiet (new workers batchSize slots slotBytes) as :=
  forall_run_iff (J := Counted) (fun _ a h => h.act a)
    (fun _ a hcounted h => final_act_iff hcounted h a)
    (counted_new workers batchSize slots slotBytes)
    ⟨fun hrun => absurd rfl hrun, fun hover => absurd hover (by simp [new])⟩

/-- Every ticket that was numbered is open, held, drained or fired. -/
def Numbered (s : Teardown F) : Prop :=
  1 ≤ s.dispatcher.intake.nextTicket ∧
    ∀ id, 0 < s.total id ↔ 1 ≤ id ∧ id < s.dispatcher.intake.nextTicket

theorem Numbered.act (hcounted : s.Counted) (h : s.Numbered) (a : TeardownAction F) :
    (s.act c a).Numbered := by
  have hkept {t : Teardown F} (hnext : t.dispatcher.intake.nextTicket =
      s.dispatcher.intake.nextTicket) (htotal : ∀ id, t.total id = s.total id) : t.Numbered := by
    simpa only [Numbered, htotal, hnext] using h
  cases a with
  | call a =>
    by_cases haccepted : s.phase.accepts a = true
    · have hposted : s.dispatcher.posted a = [] ∨
          s.dispatcher.posted a = [s.dispatcher.intake.nextTicket] := by
        cases a with
        | post job => exact ite_eq_or_eq _ _ _
        | _ => exact .inl rfl
      simp only [Numbered, Teardown.act, hcounted.total_call haccepted,
        dispatcher_call haccepted, (Dispatcher.moves_act a).next]
      rw [Numbered] at h
      rcases hposted with heq | heq
      · simpa [heq] using h
      -- the new ticket has the next number
      · simp only [heq, List.count_singleton]
        grind
    · rw [Teardown.act, call, if_neg haccepted]
      exact h
  | fire id =>
    refine hkept ?_ (total_fire id)
    rw [Teardown.act, fire]
    split_ifs <;> rfl
  | shutdown | fireDrained | close | finish =>
    simp only [Teardown.act, shutdown, fireDrained, close, finish]
    split_ifs
    · exact hkept rfl fun id => by grind [total, Dispatcher.kill, Intake.ids]
    · exact h

/-- No completion is lost and none fires twice, whatever calls cross a shutdown: a ticket that was
numbered is open, its completion is in the hands of a caller or of the shutdown, or it was fired. -/
theorem total_run (c : DispatcherConfig) (workers batchSize slots slotBytes : ℕ)
    (as : List (TeardownAction F)) (id : ℤ) :
    let s := run (act c) (new workers batchSize slots slotBytes) as
    s.total id = if 1 ≤ id ∧ id < s.dispatcher.intake.nextTicket then 1 else 0 := by
  intro s
  have hnew : (new workers batchSize slots slotBytes : Teardown F).Numbered := by
    refine ⟨le_rfl, fun id => ?_⟩
    rw [show total (new workers batchSize slots slotBytes : Teardown F) id = 0 from rfl]
    simp [new, Dispatcher.new]
  obtain ⟨hcounted, -, hnumbered⟩ : s.Counted ∧ s.Numbered :=
    invariant_always (I := fun s : Teardown F => s.Counted ∧ s.Numbered)
      (fun _ a h => ⟨h.1.act a, h.2.act h.1 a⟩)
      ⟨counted_new workers batchSize slots slotBytes, hnew⟩ as
  have honce : s.total id ≤ 1 := hcounted.once id
  have hid : 0 < s.total id ↔ 1 ≤ id ∧ id < s.dispatcher.intake.nextTicket := hnumbered id
  split_ifs <;> omega

/-- A worker starts, gets the shutdown message, and exits; the drain loop takes its end of file and
restarts it. -/
def exitAsTold : List (TeardownAction ℚ) :=
  ([.start fun _ => true, .event 0 (.line .handshake) true,
    .event 0 (.line .helloCaps) true] : List (DispatcherAction ℚ)).map .call ++
    [.shutdown] ++
    ([.event 0 .eof true, .restart 0 false true] : List (DispatcherAction ℚ)).map .call

theorem drain_restarts :
    ¬ ∀ as, Final (run (act Dispatcher.preview) (new 1 4 3 8294400 : Teardown ℚ) as) := by
  intro h
  have hspawned := (h exitAsTold).spawned (by decide)
  exact absurd hspawned (by decide)

end Teardown

end Oak.Render
