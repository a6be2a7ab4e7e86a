import Oak.Render.Identity

/-!
# Who may claim a request

A pending request goes to the worker at the place that its frame number has modulo the worker count
of the scheduler, unless any worker may claim it. `NoOrphan` says that there is such a worker, which
is neither retiring nor down for good.

* `Covered` is what keeps it so: a serving worker is at every place below the worker count.
* `KeepsServing` are the steps that keep places covered: a worker below the worker count is not
  given up, and a resize counts serving workers only.

## Main results

* `noOrphan_run`: no request is orphaned in a run whose steps keep serving.
* `grow_back_orphans`: a pool that shrinks and grows again before a worker has left counts that
  worker, which claims nothing.
-/

namespace Oak.Render

open Oak.Lib

variable {F : Type*}

/-! ### The worker count -/

variable {table table' : SlotTable}

namespace Intake

variable {t : Intake F} {order : List (FrameRequest ℤ) → List (FrameRequest ℤ)}

variable (s : PreviewScheduler ℤ)

theorem workers_submit (request : FrameRequest ℤ) : (s.submit request).1.workers = s.workers := by
  have hsubmitted := PreviewScheduler.submitted_submit s request
  generalize (s.submit request).1 = s', (s.submit request).2 = outcome at hsubmitted ⊢
  cases hsubmitted <;> rfl

theorem workers_post (slotFormat : ℤ) (job : Job F) :
    (t.post slotFormat job).scheduler.workers = t.scheduler.workers := by
  rw [Intake.post]
  split_ifs
  · rfl
  · dsimp only
    split
    all_goals exact workers_submit _ _

theorem workers_cancelKey (key : FrameKey) : (s.cancelKey key).1.workers = s.workers := by
  rw [PreviewScheduler.cancelKey]
  split_ifs <;> rfl

theorem workers_cancelFrame (key : FrameKey) :
    (t.cancelFrame key).scheduler.workers = t.scheduler.workers := by
  have hcancelled := workers_cancelKey t.scheduler key
  rw [Intake.cancelFrame]
  dsimp only
  split_ifs
  · split
    · exact hcancelled
    · exact hcancelled
  · rfl

theorem workers_cancelSequence (sequence : ℕ) :
    (t.cancelSequence order sequence).scheduler.workers = t.scheduler.workers := by
  rw [Intake.cancelSequence, tickets_removeTickets]
  rfl

theorem workers_close (id : ℤ) : (t.close id).scheduler.workers = t.scheduler.workers := by
  rw [Intake.close]
  split <;> rfl

theorem workers_drop (rs : List (FrameRequest ℤ)) :
    (t.drop rs).scheduler.workers = t.scheduler.workers := by
  induction rs generalizing t with
  | nil => rfl
  | cons r rs ih => exact ih.trans (workers_cancelKey t.scheduler r.key)

theorem workers_dispatch {worker slotBytes : ℕ} {slotFormat : ℤ} {t' : Intake F}
    {messages : List (ControlMsg F)}
    (h : t.dispatch worker table slotBytes slotFormat = some (t', table', messages)) :
    t'.scheduler.workers = t.scheduler.workers := by
  rw [dispatch] at h
  split_ifs at h
  obtain ⟨⟨batch, s'⟩, hclaim, heq⟩ := Option.map_eq_some_iff.1 h
  have hs' : t'.scheduler = s' := congrArg (fun x => x.1.scheduler) heq.symm
  obtain ⟨-, -, -, hclaimed⟩ := PreviewScheduler.claimBatch_cases hclaim
  have hs'' : _ = s' := congrArg Prod.snd hclaimed
  rw [hs', ← hs'']
  rfl

end Intake

/-! ### Serving workers -/

namespace WorkerHandle

theorem isServing_iff {h : WorkerHandle} :
    h.isServing = true ↔ h.retiring = false ∧ h.state ≠ .permanentlyDead := by
  rw [isServing, Bool.and_eq_true, Bool.not_eq_true', decide_eq_true_eq]

/-- A worker keeps serving while it neither retires nor is given up. -/
theorem isServing_of {h h' : WorkerHandle} (hserving : h.isServing = true)
    (hretiring : h'.retiring = h.retiring)
    (hstate : h'.state = h.state ∨ h'.state = .alive ∨ h'.state = .dead) :
    h'.isServing = true := by
  obtain ⟨hstays, halive⟩ := isServing_iff.1 hserving
  refine isServing_iff.2 ⟨hretiring.trans hstays, ?_⟩
  rcases hstate with hstate | hstate | hstate
  · rwa [hstate]
  · simp [hstate]
  · simp [hstate]

theorem isServing_send {h : WorkerHandle} (hserving : h.isServing = true) (written : Bool) :
    (h.send written).isServing = true := by
  rw [send]
  split_ifs
  · exact hserving
  · exact isServing_of hserving rfl (.inr (.inr rfl))

end WorkerHandle

variable {f : WorkerHandle → WorkerHandle} {spawns : ℕ → Bool}

namespace Dispatcher

variable {c : DispatcherConfig} {s : Dispatcher F} {n : ℕ}

/-- A serving worker is at every place below `n`. -/
def Serves (n : ℕ) (ws : List WorkerHandle) : Prop :=
  ∀ i < n, ∃ h, ws[i]? = some h ∧ h.isServing = true

/-- A pending request may be claimed by any worker, or by one that serves. -/
def NoOrphan (s : Dispatcher F) : Prop :=
  s.started = true → (∃ h ∈ s.workers, h.state = .alive ∧ h.retiring = false) →
    ∀ e ∈ s.intake.scheduler.pending, e.anyWorker = true ∨ e.request.priority = .seek ∨
      ∃ (i : ℕ) (h : WorkerHandle), e.request.key.frame % (s.intake.scheduler.workers : ℤ) = i ∧
        s.workers[i]? = some h ∧ h.isServing = true

/-- A serving worker is at every place that requests are sent to. -/
structure Covered (s : Dispatcher F) : Prop where
  pos : 0 < s.intake.scheduler.workers
  serves : s.started = true → Serves s.intake.scheduler.workers s.workers
  unstarted : s.started = false → s.workers = [] ∧ s.nextTarget = none

/-- After the resize, the workers below the target are all there, and serve. -/
def ResizeServes (s : Dispatcher F) (target : ℕ) (spawns : ℕ → Bool) : Prop :=
  s.targetWorkers ≠ max target 1 →
    (∀ i, s.workers.length ≤ i → i < max target 1 → spawns i = true) ∧
      ∀ i < max target 1, ∀ h, s.workers[i]? = some h → h.isServing = true

/-- No worker below the worker count is given up, and only serving workers are counted. -/
def KeepsServing (s : Dispatcher F) : DispatcherAction F → Prop
  | .start spawns => s.started = false → ∀ i < s.intake.scheduler.workers, spawns i = true
  | .setTargetWorkers target recent spawns =>
    s.started = true → (s.resized && recent) = false → s.ResizeServes target spawns
  | .applyNextTarget recent spawns =>
    ∀ target, s.nextTarget = some target → (s.resized && recent) = false →
      s.ResizeServes target spawns
  | .restart worker timedOut _ =>
    s.isRestarted worker timedOut = true → worker < s.intake.scheduler.workers →
      ∀ h, s.workers[worker]? = some h → h.restarts < maxRestarts
  | _ => True

/-! ### Places -/

namespace Serves

variable {ws : List WorkerHandle}

theorem mapIdx (h : Serves n ws) {f : ℕ → WorkerHandle → WorkerHandle}
    (hf : ∀ i < n, ∀ h, h.isServing = true → (f i h).isServing = true) :
    Serves n (ws.mapIdx f) := by
  intro i hi
  obtain ⟨w, hw, hserving⟩ := h i hi
  exact ⟨f i w, by rw [List.getElem?_mapIdx, hw, Option.map_some], hf i hi w hserving⟩

theorem modify (h : Serves n ws) {worker : ℕ}
    (hf : worker < n → ∀ h, ws[worker]? = some h → h.isServing = true → (f h).isServing = true) :
    Serves n (ws.modify worker f) := by
  intro i hi
  obtain ⟨w, hw, hserving⟩ := h i hi
  rcases eq_or_ne worker i with rfl | hne
  · exact ⟨f w, by rw [List.getElem?_modify_eq, hw]; rfl, hf hi w hw hserving⟩
  · exact ⟨w, by rw [List.getElem?_modify_ne _ _ hne, hw], hserving⟩

theorem eraseIdx (h : Serves n ws) {worker : ℕ} (hworker : n ≤ worker) :
    Serves n (ws.eraseIdx worker) := by
  intro i hi
  obtain ⟨w, hw, hserving⟩ := h i hi
  exact ⟨w, by rw [List.getElem?_eraseIdx_of_lt (hi.trans_le hworker), hw], hserving⟩

theorem set (h : Serves n ws) (worker : ℕ) {w : WorkerHandle} (hw : w.isServing = true) :
    Serves n (ws.set worker w) := by
  intro i hi
  obtain ⟨w', hw', hserving⟩ := h i hi
  rcases eq_or_ne worker i with rfl | hne
  · exact ⟨w, List.getElem?_set_self (List.getElem?_eq_some_iff.1 hw').1, hw⟩
  · exact ⟨w', by rw [List.getElem?_set_ne hne, hw'], hserving⟩

theorem concat (h : Serves ws.length ws) {w : WorkerHandle} (hw : w.isServing = true) :
    Serves (ws.length + 1) (ws ++ [w]) := by
  intro i hi
  rcases (Nat.lt_succ_iff.1 hi).eq_or_lt with rfl | hlt
  · exact ⟨w, List.getElem?_concat_length, hw⟩
  · obtain ⟨w', hw', hserving⟩ := h i hlt
    exact ⟨w', by rw [List.getElem?_append_left hlt, hw'], hserving⟩

end Serves

theorem serves_spawnWorkers (hserves : Serves s.workers.length s.workers)
    (hspawns : ∀ i, s.workers.length ≤ i → i < s.workers.length + n → spawns i = true) :
    Serves (s.workers.length + n)
      (s.spawnWorkers spawns (List.range' s.workers.length n)).workers ∧
    (s.spawnWorkers spawns (List.range' s.workers.length n)).intake = s.intake ∧
    (s.spawnWorkers spawns (List.range' s.workers.length n)).started = s.started := by
  induction n generalizing s with
  | zero => exact ⟨hserves, rfl, rfl⟩
  | succ n ih =>
    rw [List.range'_succ, spawnWorkers, if_pos (hspawns s.workers.length le_rfl (by omega))]
    have hworkers : (s.spawnWorker s.workers.length).workers =
        s.workers ++ [{ WorkerHandle.shell 0 s.processes.length s.segments.length s.slots
          s.slotBytes with restarts := 0 }] := by
      rw [spawnWorker]
      simp
    have hlength : (s.spawnWorker s.workers.length).workers.length = s.workers.length + 1 := by
      rw [hworkers, List.length_append, List.length_singleton]
    have hnext : Serves (s.spawnWorker s.workers.length).workers.length
        (s.spawnWorker s.workers.length).workers := by
      rw [hlength, hworkers]
      exact hserves.concat rfl
    have hrest := ih hnext fun i hle hlt =>
      hspawns i (by rw [hlength] at hle; omega) (by rw [hlength] at hlt; omega)
    rw [hlength] at hrest
    rw [← Nat.add_assoc, Nat.add_right_comm]
    exact hrest

namespace Covered

theorem noOrphan (h : s.Covered) : s.NoOrphan := by
  intro hstarted _ e _
  have hpos : (0 : ℤ) < s.intake.scheduler.workers := Int.natCast_pos.2 h.pos
  have hlt := Int.emod_lt_of_pos e.request.key.frame hpos
  obtain ⟨i, hi⟩ := Int.eq_ofNat_of_zero_le (Int.emod_nonneg e.request.key.frame hpos.ne')
  rw [hi] at hlt
  obtain ⟨w, hw, hserving⟩ := h.serves hstarted i (Int.ofNat_lt.1 hlt)
  exact .inr (.inr ⟨i, w, hi, hw, hserving⟩)

/-- What keeps the worker count, and the workers serving. -/
theorem of_workers (h : s.Covered) {t : Dispatcher F}
    (hcount : t.intake.scheduler.workers = s.intake.scheduler.workers)
    (hstarted : t.started = s.started)
    (hserves : Serves s.intake.scheduler.workers s.workers →
      Serves s.intake.scheduler.workers t.workers)
    (hnone : s.workers = [] → t.workers = [])
    (htarget : s.nextTarget = none → t.nextTarget = none) : Covered t where
  pos := hcount ▸ h.pos
  serves hs := hcount ▸ hserves (h.serves (hstarted ▸ hs))
  unstarted hs :=
    ⟨hnone (h.unstarted (hstarted ▸ hs)).1, htarget (h.unstarted (hstarted ▸ hs)).2⟩

theorem intake (h : s.Covered) {t : Intake F}
    (hcount : t.scheduler.workers = s.intake.scheduler.workers) : Covered { s with intake := t } :=
  h.of_workers hcount rfl id id id

section

variable (h : s.Covered) (worker : ℕ)

include h worker

theorem modify {f : WorkerHandle → WorkerHandle}
    (hf : ∀ h, h.isServing = true → (f h).isServing = true) : Covered (s.modify worker f) :=
  h.of_workers rfl rfl (fun hserves => hserves.modify fun _ w _ => hf w)
    (fun hnone => by rw [Dispatcher.modify, hnone, List.modify_nil]) id

theorem answered {ticket : ℤ} {t : Intake F} (hanswered : s.intake.Answered table ticket t table') :
    Covered ({ s with intake := t }.modify worker fun h => { h with table := table' }) := by
  have hcount : t.scheduler.workers = s.intake.scheduler.workers := by
    rw [hanswered.intake]
    exact Intake.workers_close ticket
  exact (h.intake hcount).modify worker fun _ hserving => hserving

theorem onFrameReady (ticket : ℤ) (slot : ℕ) : Covered (s.onFrameReady worker ticket slot) := by
  rw [Dispatcher.onFrameReady]
  split
  · exact h
  · split
    · exact h
    next t table freed hready => exact h.answered worker (Intake.answered_frameReady hready)

theorem onFrameFailed (ticket : ℤ) : Covered (s.onFrameFailed worker ticket) := by
  rw [Dispatcher.onFrameFailed]
  split
  · exact h
  · split
    · exact h
    next t table freed hfailed => exact h.answered worker (Intake.answered_frameFailed hfailed)

theorem onLine (line : WorkerLine) (written : Bool) : Covered (s.onLine worker line written) := by
  cases line with
  | handshake => exact h.modify worker fun w hw => w.isServing_send hw written
  | helloCaps =>
    refine h.modify worker fun w hw => ?_
    split_ifs
    · refine WorkerHandle.isServing_send ?_ written
      exact WorkerHandle.isServing_of hw rfl (.inr (.inl rfl))
    · exact WorkerHandle.isServing_of hw rfl (.inr (.inl rfl))
  | batchAccepted => exact h
  | frameReady ticket slot => exact h.onFrameReady worker ticket slot
  | frameFailed ticket => exact h.onFrameFailed worker ticket
  | error ticket =>
    cases ticket with
    | some ticket => exact h.onFrameFailed worker ticket
    | none =>
      refine h.modify worker fun w hw => ?_
      split_ifs
      · exact WorkerHandle.isServing_of hw rfl (.inr (.inr rfl))
      · exact hw

end

theorem event (h : s.Covered) (process : ℕ) (event : WorkerEvent) (written : Bool) :
    Covered (s.event process event written) := by
  rw [Dispatcher.event]
  split
  · exact h
  next p hp =>
    split_ifs
    · exact h
    · cases event with
      | line line =>
        dsimp only
        split
        · exact h
        next handle hhandle =>
          split_ifs
          · exact h
          · exact Covered.onLine
              (s := { s with applied := s.applied ++ [(process, handle.process)] })
              ⟨h.pos, h.serves, h.unstarted⟩ p.index line written
      | eof =>
        dsimp only
        split
        · exact ⟨h.pos, h.serves, h.unstarted⟩
        next handle hhandle =>
          split_ifs
          · exact ⟨h.pos, h.serves, h.unstarted⟩
          · refine Covered.modify (s := { s with
              processes := s.processes.set process { p with ended := true }
              applied := s.applied ++ [(process, handle.process)] })
              ⟨h.pos, h.serves, h.unstarted⟩ p.index fun w hw => ?_
            split_ifs
            · exact hw
            · exact WorkerHandle.isServing_of hw rfl (.inr (.inr rfl))

section

variable (h : s.Covered)

include h

theorem restartWorker {worker : ℕ} {timedOut : Bool} (spawns : Bool)
    (hrestarted : s.isRestarted worker timedOut = true)
    (hbudget : worker < s.intake.scheduler.workers →
      ∀ h, s.workers[worker]? = some h → h.restarts < maxRestarts) :
    Covered (s.restartWorker c worker spawns) := by
  rw [Dispatcher.restartWorker]
  split
  · exact h
  next handle hhandle =>
    rw [isRestarted, hhandle, Option.any_some, Bool.and_eq_true, Bool.not_eq_true'] at hrestarted
    have hlt : worker < s.workers.length := (List.getElem?_eq_some_iff.1 hhandle).1
    have hcrashed : Covered { s with intake := (s.intake.crash c.order worker).1 } := h.intake rfl
    have hcleared := hcrashed.modify worker (f := WorkerHandle.clear) fun w hw => hw
    dsimp only
    split_ifs with hretiring hover hspawns
    · exact absurd (hretiring.symm.trans hrestarted.1) (by simp)
    · -- a worker that is given up is past the worker count
      have hpast : s.intake.scheduler.workers ≤ worker :=
        not_lt.1 fun hlt => absurd (hbudget hlt handle hhandle) (by omega)
      have hdropped := hcleared.intake (t := (s.intake.crash c.order worker).1.drop
        (s.intake.crash c.order worker).2) (Intake.workers_drop _)
      refine hdropped.of_workers rfl rfl (fun hserves => hserves.modify fun hworker => ?_)
        (fun hnone => ?_) id
      · have hcount : ((s.intake.crash c.order worker).1.drop
            (s.intake.crash c.order worker).2).scheduler.workers = s.intake.scheduler.workers :=
          Intake.workers_drop _
        exact absurd hworker (not_lt.2 (hcount.le.trans hpast))
      · exact (List.modify_eq_nil_iff).2 hnone
    · refine hcleared.of_workers rfl rfl (fun hserves => ?_) (fun hnone => ?_) id
      · rw [Dispatcher.spawnWorker]
        dsimp only
        rw [if_pos (by rw [Dispatcher.modify, List.length_modify]; exact hlt)]
        exact hserves.set worker rfl
      · rw [Dispatcher.modify, List.modify_eq_nil_iff] at hnone
        rw [hnone] at hlt
        exact absurd hlt (Nat.not_lt_zero _)
    · refine hcleared.modify worker fun w hw => ?_
      exact WorkerHandle.isServing_of hw rfl (.inr (.inr rfl))

theorem rebuildSegment (worker need : ℕ) (written : Bool) :
    Covered (s.rebuildSegment worker need written) := by
  rw [Dispatcher.rebuildSegment]
  split
  · exact h
  next handle hhandle =>
    refine Covered.modify (s := { s with segments := s.segments ++ [handle.process] })
      ⟨h.pos, h.serves, h.unstarted⟩ worker fun w hw => ?_
    refine WorkerHandle.isServing_send ?_ written
    exact WorkerHandle.isServing_of hw rfl (.inl rfl)

theorem dispatch (worker : ℕ) (created : Bool) (written : ℕ) :
    Covered (s.dispatch c worker created written) := by
  refine dispatch_induction h (fun need written => h.rebuildSegment worker need written)
    fun handle t table messages _ hdispatch => ?_
  refine (h.intake (Intake.workers_dispatch hdispatch)).modify worker fun w hw => ?_
  refine WorkerHandle.isServing_send ?_ _
  exact WorkerHandle.isServing_of hw rfl (.inl rfl)

/-- Retiring workers are past the worker count, and so are the places that are reaped. -/
theorem reap (exited overdue : ℕ → Bool) : Covered (s.reap c exited overdue) := by
  have hpast (hstarted : s.started = true) (i : ℕ) (hi : s.isReaped exited overdue i = true) :
      s.intake.scheduler.workers ≤ i := by
    by_contra hlt
    obtain ⟨w, hw, hserving⟩ := h.serves hstarted i (not_le.1 hlt)
    rw [isReaped, hw, Option.any_some, WorkerHandle.isReaped, Bool.and_eq_true,
      (WorkerHandle.isServing_iff.1 hserving).1] at hi
    exact absurd hi.1 (by simp)
  have hrun (n : ℕ) (t : Dispatcher F) (ht : t.Covered) (hstarted : t.started = s.started)
      (hcount : t.intake.scheduler.workers = s.intake.scheduler.workers) :
      Covered (t.removeReaped c (s.isReaped exited overdue) n) := by
    induction n generalizing t with
    | zero => exact ht
    | succ n ih =>
      rw [removeReaped]
      split_ifs with hreaped
      · refine ih _ (ht.of_workers rfl rfl (fun hserves => ?_) (fun hnone => ?_) id) hstarted hcount
        · by_cases hs : s.started = true
          · rw [hcount] at hserves ⊢
            exact hserves.eraseIdx (hpast hs n hreaped)
          · rw [isReaped, (h.unstarted (Bool.eq_false_iff.2 hs)).1] at hreaped
            exact absurd hreaped (by simp)
        · rw [removeWorker, hnone, List.eraseIdx_nil]
      · exact ih t ht hstarted hcount
  exact hrun _ s h rfl rfl

theorem start (hspawns : s.started = false → ∀ i < s.intake.scheduler.workers, spawns i = true) :
    Covered (s.start spawns) := by
  rw [Dispatcher.start]
  split_ifs with hstarted
  · exact h
  · have hfalse : s.started = false := Bool.eq_false_iff.2 hstarted
    have hnone : s.workers = [] := (h.unstarted hfalse).1
    have hopened : ({ s with started := true } : Dispatcher F).intake = s.intake ∧
        ({ s with started := true } : Dispatcher F).workers = [] ∧
        ({ s with started := true } : Dispatcher F).started = true := ⟨rfl, hnone, rfl⟩
    generalize ({ s with started := true } : Dispatcher F) = t at hopened ⊢
    obtain ⟨htintake, htworkers, htstarted⟩ := hopened
    have hall : Serves t.workers.length t.workers := fun i hi =>
      absurd hi (by rw [htworkers]; exact Nat.not_lt_zero i)
    have hspawned := serves_spawnWorkers (n := s.intake.scheduler.workers) hall
      fun i _ hlt => hspawns hfalse i (by rwa [htworkers, List.length_nil, Nat.zero_add] at hlt)
    rw [htworkers, List.length_nil, Nat.zero_add, ← List.range_eq_range'] at hspawned
    obtain ⟨hserves, hintake, hstarted'⟩ := hspawned
    have hcount := hintake.trans htintake
    refine ⟨?_, fun _ => ?_, fun hfalse' => ?_⟩
    · rw [hcount]
      exact h.pos
    · rw [hcount]
      exact hserves
    · rw [hstarted', htstarted] at hfalse'
      exact absurd hfalse' (by simp)

theorem applyTargetWorkers (hstarted : s.started = true) {target : ℕ}
    (hresize : s.ResizeServes target spawns) : Covered (s.applyTargetWorkers target spawns) := by
  have hpos : 0 < max (max target 1) 1 := Nat.lt_of_lt_of_le Nat.one_pos (le_max_right _ _)
  have hmax : max (max target 1) 1 = max target 1 := max_eq_left (le_max_right _ _)
  have hcounted {t : Dispatcher F} (htstarted : t.started = true)
      (hserves : Serves (max target 1) t.workers) : Covered { t with
        targetWorkers := max target 1
        intake := { t.intake with scheduler := t.intake.scheduler.setWorkerCount (max target 1) }
        resized := true
        nextTarget := none } :=
    ⟨hpos, fun _ => show Serves (max (max target 1) 1) t.workers by rwa [hmax],
      fun hfalse => absurd (htstarted.symm.trans hfalse) (by simp)⟩
  rw [Dispatcher.applyTargetWorkers]
  dsimp only
  split_ifs with hsame hgrow
  · exact ⟨h.pos, h.serves, fun hfalse => absurd (hstarted.symm.trans hfalse) (by simp)⟩
  · obtain ⟨hspawns, hkept⟩ := hresize hsame
    have hall : Serves s.workers.length s.workers := fun i hi =>
      ⟨s.workers[i], List.getElem?_eq_getElem hi,
        hkept i (hi.trans hgrow) _ (List.getElem?_eq_getElem hi)⟩
    have hspawned := serves_spawnWorkers (n := max target 1 - s.workers.length) hall
      fun i hle hlt => hspawns i hle (by omega)
    rw [Nat.add_sub_cancel' hgrow.le, List.range'_eq_map_range] at hspawned
    exact hcounted (hspawned.2.2.trans hstarted) hspawned.1
  · obtain ⟨-, hkept⟩ := hresize hsame
    have hall : Serves (max target 1) s.workers := fun i hi =>
      have hlt : i < s.workers.length := hi.trans_le (not_lt.1 hgrow)
      ⟨s.workers[i], List.getElem?_eq_getElem hlt, hkept i hi _ (List.getElem?_eq_getElem hlt)⟩
    refine hcounted hstarted (hall.mapIdx fun i hi w hw => ?_)
    rw [if_neg fun hpast => absurd hpast.1 (not_le.2 hi)]
    exact hw

theorem broadcast (hf : ∀ h, h.isServing = true → (f h).isServing = true) (written : ℕ → Bool) :
    Covered (s.broadcast f written) := by
  refine h.of_workers rfl rfl (fun hserves => hserves.mapIdx fun i _ w hw => ?_)
    (fun hnone => by rw [Dispatcher.broadcast, hnone, List.mapIdx_nil]) id
  split_ifs
  · exact WorkerHandle.isServing_send (hf w hw) _
  · exact hw

theorem act {a : DispatcherAction F} (ha : s.KeepsServing a) : Covered (s.act c a) := by
  cases a with
  | start spawns => exact h.start ha
  | post job => exact h.intake (Intake.workers_post c.slotFormat job)
  | setTargetWorkers target recent spawns =>
    rw [Dispatcher.act, Dispatcher.setTargetWorkers]
    split_ifs with hstarted hrecent htarget
    · exact h
    · exact ⟨h.pos, h.serves, fun hfalse => absurd hfalse (by simpa using hstarted)⟩
    · exact h
    · have hstarted' : s.started = true := by simpa using hstarted
      have hresize := ha hstarted' (Bool.eq_false_iff.2 hrecent)
      refine h.applyTargetWorkers hstarted' ?_
      rwa [ResizeServes, max_eq_left (le_max_right target 1)]
  | applyNextTarget recent spawns =>
    rw [Dispatcher.act, Dispatcher.applyNextTarget]
    split
    · exact h
    next target htarget =>
      split_ifs with hrecent
      · exact h
      · refine h.applyTargetWorkers ?_ (ha target htarget (Bool.eq_false_iff.2 hrecent))
        by_contra hfalse
        rw [(h.unstarted (Bool.eq_false_iff.2 hfalse)).2] at htarget
        exact absurd htarget (by simp)
  | event process event written => exact h.event process event written
  | restart worker timedOut spawns =>
    rw [Dispatcher.act]
    split_ifs with hrestarted
    · exact h.restartWorker spawns hrestarted (ha hrestarted)
    · exact h
  | dispatch worker created written => exact h.dispatch worker created written
  | signalRetiring =>
    refine h.of_workers rfl rfl (fun hserves i hi => ?_)
      (fun hnone => by rw [Dispatcher.act, signalRetiring, hnone, List.map_nil]) id
    obtain ⟨w, hw, hserving⟩ := hserves i hi
    refine ⟨_, by rw [Dispatcher.act, signalRetiring, List.getElem?_map, hw, Option.map_some], ?_⟩
    split_ifs
    · exact WorkerHandle.isServing_of hserving rfl (.inl rfl)
    · exact hserving
  | reap exited overdue => exact h.reap exited overdue
  | releaseFrame worker shm slot =>
    rw [Dispatcher.act, Dispatcher.releaseFrame]
    split
    · exact h
    next handle hhandle =>
      split_ifs
      · exact h
      · split
        · exact h
        next table htable =>
          refine Covered.modify (s := { s with
            applied := s.applied ++ [(s.segments.getD shm 0, handle.process)] })
            ⟨h.pos, h.serves, h.unstarted⟩ worker fun w hw => ?_
          exact WorkerHandle.isServing_of hw rfl (.inl rfl)
  | cancelFrame key => exact h.intake (Intake.workers_cancelFrame key)
  | cancelPreviewSequence sequence => exact h.intake (Intake.workers_cancelSequence sequence)
  | setGraphSnapshot path written =>
    have hset : Covered { s with graphSnapshot := path } := ⟨h.pos, h.serves, h.unstarted⟩
    rw [Dispatcher.act, Dispatcher.setGraphSnapshot]
    split_ifs
    · refine hset.broadcast (f := fun h => { h with graphSent := true }) (fun w hw => ?_) written
      exact WorkerHandle.isServing_of hw rfl (.inl rfl)
    · exact hset
  | broadcastPluginCancel written => exact h.broadcast (fun _ hw => hw) written

end

theorem new {workers batchSize slots slotBytes : ℕ} :
    Covered (new workers batchSize slots slotBytes : Dispatcher F) where
  pos := Nat.lt_of_lt_of_le Nat.one_pos (le_max_right workers 1)
  serves hstarted := absurd hstarted (by simp [Dispatcher.new])
  unstarted _ := ⟨rfl, rfl⟩

end Covered

/-- No request is orphaned in a run whose steps keep serving. -/
theorem noOrphan_run (c : DispatcherConfig) (workers batchSize slots slotBytes : ℕ)
    (as : List (DispatcherAction F))
    (has : Permitted (act c) KeepsServing (new workers batchSize slots slotBytes) as) :
    NoOrphan (run (act c) (new workers batchSize slots slotBytes) as) := by
  have hstep (s : Dispatcher F) (a : DispatcherAction F) (h : s.Covered) (ha : s.KeepsServing a) :
      Covered (s.act c a) := h.act ha
  exact (invariant_run hstep .new has).noOrphan

theorem forall_of_all {α : Type*} {p : α → Bool} {o : Option α} (h : o.all p = true) (a : α)
    (ha : o = some a) : p a = true := by
  rwa [ha, Option.all_some] at h

/-- A pool of two loses a worker, restarts it, and shrinks to one. -/
theorem noOrphan_run_restart :
    NoOrphan (run (act preview) (new 2 4 3 8294400)
      [.start fun _ => true, .event 1 .eof true, .restart 1 false true, .post (frameJob 1),
        .setTargetWorkers 1 false fun _ => true]) := by
  refine noOrphan_run preview 2 4 3 8294400 _ ?_
  refine ⟨fun _ i _ => rfl, trivial, fun _ _ w hw => ?_, trivial, fun _ _ _ => ⟨fun i hle hlt => ?_,
    fun i hi w hw => ?_⟩, trivial⟩
  · have hall := forall_of_all (p := fun h : WorkerHandle => h.restarts < maxRestarts)
      (by decide) w hw
    exact of_decide_eq_true hall
  · exact absurd (hle.trans_lt hlt) (by decide)
  · obtain rfl : i = 0 := Nat.lt_one_iff.1 hi
    exact forall_of_all (by decide) w hw

/-- A frame of the second of two workers is being rendered while the pool shrinks to one, and grows
back to two before that worker has left. The next frame of the second worker waits for a worker that
claims nothing any more. -/
def growBack : List (DispatcherAction ℚ) :=
  [.start fun _ => true] ++ pump 2 0 (handshakes [0, 1]) (fun _ => false) ++
    [.post (frameJob 1)] ++ pump 2 1 [] (fun _ => false) ++
    [.setTargetWorkers 1 false fun _ => true] ++ pump 2 1 [] (fun _ => false) ++
    [.setTargetWorkers 2 false fun _ => true, .post (frameJob 3)] ++ pump 2 1 [] (fun _ => false)

theorem grow_back_orphans :
    ¬ ∀ as, NoOrphan (run (act preview) (new 2 4 3 8294400 : Dispatcher ℚ) as) := by
  intro h
  have hgrown := h growBack (by decide +kernel) (by decide +kernel)
  have hpending : ∃ e ∈ (run (act preview) (new 2 4 3 8294400 : Dispatcher ℚ)
      growBack).intake.scheduler.pending, e.anyWorker = false ∧ e.request.priority ≠ .seek ∧
        e.request.key.frame % ((run (act preview) (new 2 4 3 8294400 : Dispatcher ℚ)
          growBack).intake.scheduler.workers : ℤ) = 1 := by decide +kernel
  obtain ⟨e, he, hany, hseek, hframe⟩ := hpending
  rcases hgrown e he with hany' | hseek' | ⟨i, w, hi, hw, hserving⟩
  · exact absurd (hany.symm.trans hany') (by simp)
  · exact hseek hseek'
  · obtain rfl : i = 1 := Int.ofNat_inj.1 (hi.symm.trans hframe)
    have hidle := forall_of_all (p := fun h : WorkerHandle => !h.isServing)
      (by decide +kernel) w hw
    rw [hserving] at hidle
    exact absurd hidle (by simp)

end Dispatcher

end Oak.Render
