import Oak.Lib.Machine
import Mathlib.Data.List.Nodup
import Mathlib.Data.List.Perm.Basic

/-!
# The pipeline backend

`PipelineBackend` of `oak-render/src/pipeline.rs`: a bounded queue that any number of threads post
to, one render thread that takes jobs from it, and `shutdown`. A step is a critical section of the
queue's mutex, a completion that is called, or the end of a call.

* A poster that finds the queue full waits for room. When it is woken it looks at `stopping` only
  while the queue is still full.
* `shutdown` sets `stopping` before it takes the mutex. It drains the queue, completes what it
  drained, and waits for the render thread unless it is called there. A second call returns at once.
* The jobs are numbered in the order of the calls of `post` and `try_post`.

## Main results

* `complete_run_iff`: every accepted job is completed once, and no job is left behind, exactly when
  no woken poster pushes after the drain has missed it, and no call of `shutdown` returns while jobs
  are queued.
* `accepted_run`: jobs are completed in order until the queue is drained.
* `wakeAfterDrain_lost`: a poster that waits for room while the pipeline is shut down pushes a job
  that nobody takes.
-/

namespace Oak.Render

open Oak.Lib

/-- The length of the queue from which on posters wait. -/
def renderQueueCap : ℕ := 8

/-- What the render thread does. While it is in `executing` the job is produced, and in
`completing` its completion runs. -/
inductive RenderThread where
  | idle
  | executing (job : ℕ)
  | completing (job : ℕ)
  | exited
  deriving DecidableEq, Repr

/-- The callbacks of a job run on the render thread. -/
def RenderThread.busy : RenderThread → Bool
  | .executing _ | .completing _ => true
  | _ => false

/-- The job that is taken and not completed. -/
def RenderThread.inHand : RenderThread → List ℕ
  | .executing job => [job]
  | _ => []

/-- How far the first call of `shutdown` is. -/
inductive Stage where
  | running | stopping | drained | finished
  deriving DecidableEq, Repr

/-- The pipeline with its posters. `cancelled` are the drained jobs that `shutdown` has still to
complete, and `returned` says that a call of `shutdown` has returned. -/
structure Pipeline where
  queue : List ℕ
  stage : Stage
  onRender : Bool
  render : RenderThread
  cancelled : List ℕ
  waiting : List ℕ
  accepted : List ℕ
  rejected : List ℕ
  completed : List ℕ
  nextJob : ℕ
  returned : Bool
  deriving DecidableEq, Repr

/-- The critical sections of the posters, of the render thread and of `shutdown`. -/
inductive PipelineAction where
  | push (blocking onRender : Bool)
  | wake (job : ℕ)
  | take
  | complete
  | leave
  | shutdown (onRender : Bool)
  | drain
  | cancel
  | finish
  deriving DecidableEq, Repr

/-- The steps of the render thread and of a `shutdown` that has begun. -/
def PipelineAction.isOwn : PipelineAction → Bool
  | .push _ _ | .wake _ | .shutdown _ => false
  | _ => true

variable {t : Pipeline}

namespace Pipeline

def new : Pipeline where
  queue := []
  stage := .running
  onRender := false
  render := .idle
  cancelled := []
  waiting := []
  accepted := []
  rejected := []
  completed := []
  nextJob := 0
  returned := false

/-- The flag `stopping`. -/
def stopping (s : Pipeline) : Bool := s.stage ≠ .running

/-- The render thread calls something only from a callback. -/
def calls (s : Pipeline) (onRender : Bool) : Bool := !onRender || s.render.busy

/-- The render thread is inside its own call of `shutdown`. -/
def shuttingDown (s : Pipeline) : Bool :=
  s.onRender && (s.stage = .stopping || s.stage = .drained)

def accept (s : Pipeline) (job : ℕ) : Pipeline :=
  { s with queue := s.queue ++ [job], accepted := s.accepted ++ [job] }

def reject (s : Pipeline) (job : ℕ) : Pipeline := { s with rejected := s.rejected ++ [job] }

/-- `push` up to its first wait. -/
def push (s : Pipeline) (blocking onRender : Bool) : Pipeline :=
  if s.calls onRender then
    let job := s.nextJob
    let s := { s with nextJob := s.nextJob + 1 }
    if s.stopping then s.reject job
    else if !blocking ∧ renderQueueCap ≤ s.queue.length then s.reject job
    else if blocking ∧ !onRender ∧ renderQueueCap ≤ s.queue.length then
      { s with waiting := s.waiting ++ [job] }
    else s.accept job
  else s

/-- `push` after a wait. -/
def wake (s : Pipeline) (job : ℕ) : Pipeline :=
  if job ∈ s.waiting then
    if renderQueueCap ≤ s.queue.length then
      if s.stopping then { s with waiting := s.waiting.erase job }.reject job else s
    else { s with waiting := s.waiting.erase job }.accept job
  else s

/-- The render thread takes a job, or exits. -/
def take (s : Pipeline) : Pipeline :=
  if s.render = .idle then
    match s.queue with
    | job :: queue => { s with queue := queue, render := .executing job }
    | [] => if s.stopping then { s with render := .exited } else s
  else s

/-- The render thread has produced a job and calls its completion. -/
def complete (s : Pipeline) : Pipeline :=
  match s.render with
  | .executing job =>
    if s.shuttingDown then s
    else { s with render := .completing job, completed := s.completed ++ [job] }
  | _ => s

/-- The completion of the job in hand is over. -/
def leave (s : Pipeline) : Pipeline :=
  match s.render with
  | .completing _ => if s.shuttingDown then s else { s with render := .idle }
  | _ => s

/-- `shutdown_impl` up to the mutex. -/
def shutdown (s : Pipeline) (onRender : Bool) : Pipeline :=
  if s.calls onRender then
    if s.stopping then { s with returned := true }
    else { s with stage := .stopping, onRender := onRender }
  else s

/-- `shutdown_impl` with the mutex. -/
def drain (s : Pipeline) : Pipeline :=
  if s.stage = .stopping then
    { s with stage := .drained, queue := [], cancelled := s.cancelled ++ s.queue }
  else s

/-- `shutdown_impl` completes a drained job. -/
def cancel (s : Pipeline) : Pipeline :=
  match s.cancelled with
  | job :: cancelled => { s with cancelled := cancelled, completed := s.completed ++ [job] }
  | [] => s

/-- The first call of `shutdown` returns, when the render thread is joined or is the caller. -/
def finish (s : Pipeline) : Pipeline :=
  if s.stage = .drained ∧ s.cancelled = [] ∧ (s.onRender ∨ s.render = .exited) then
    { s with stage := .finished, returned := true }
  else s

/-- One step. -/
def act (s : Pipeline) : PipelineAction → Pipeline
  | .push blocking onRender => s.push blocking onRender
  | .wake job => s.wake job
  | .take => s.take
  | .complete => s.complete
  | .leave => s.leave
  | .shutdown onRender => s.shutdown onRender
  | .drain => s.drain
  | .cancel => s.cancel
  | .finish => s.finish

/-- Every posted job waits, is accepted or is reported back; every accepted job is completed at most
once, and the render thread and `shutdown` will have completed it once; after `shutdown` the queue
is empty. -/
structure Complete (s : Pipeline) : Prop where
  reported : (s.waiting ++ s.accepted ++ s.rejected).Perm (List.range s.nextJob)
  once : ∀ job, s.completed.count job ≤ s.accepted.count job ∧ s.accepted.count job ≤ 1
  answered : ∀ job ∈ s.accepted, ∃ as : List PipelineAction, (∀ a ∈ as, a.isOwn = true) ∧
    (run act s as).completed.count job = 1
  emptied : s.returned = true → s.queue = []

/-- A woken poster does not push after the queue was drained and the render thread has exited, nor
after a call of `shutdown` has returned, and a call of `shutdown` returns only when the queue is
empty. -/
def Quiet (s : Pipeline) : PipelineAction → Prop
  | .wake job => job ∈ s.waiting → s.queue.length < renderQueueCap →
      (s.render ≠ .exited ∨ s.stage = .stopping) ∧ s.returned = false
  | .shutdown onRender => s.calls onRender = true → s.stopping = true → s.queue = []
  | .finish => s.stage = .drained → s.cancelled = [] → s.onRender = true ∨ s.render = .exited →
      s.queue = []
  | _ => True

/-- What holds in every state of a run. -/
structure Accounted (s : Pipeline) : Prop where
  placed : ∀ job, s.queue.count job + s.render.inHand.count job + s.cancelled.count job +
    s.completed.count job = s.accepted.count job
  posted : ∀ job, s.waiting.count job + s.accepted.count job + s.rejected.count job =
    (List.range s.nextJob).count job
  exited : s.render = .exited → s.stopping = true
  returned : s.returned = true → s.stopping = true

/-- Somebody will take what is in the queue. -/
def Served (s : Pipeline) : Prop :=
  s.queue ≠ [] → s.render ≠ .exited ∨ s.stage = .stopping

variable {s : Pipeline}

/-! ### Accounting -/

theorem count_erase_add {jobs : List ℕ} {job : ℕ} (hmem : job ∈ jobs) (x : ℕ) :
    (jobs.erase job).count x + [job].count x = jobs.count x := by
  have hperm := (List.perm_cons_erase hmem).count_eq x
  rw [hperm, List.count_cons, List.count_cons, List.count_nil, Nat.zero_add]

theorem accounted_new : Accounted new where
  placed _ := rfl
  posted _ := rfl
  exited h := by simp [new] at h
  returned h := by simp [new] at h

theorem Accounted.accept (h : s.Accounted) (job : ℕ)
    (hposted : ∀ x, t.waiting.count x + t.accepted.count x + t.rejected.count x + [job].count x =
      (List.range t.nextJob).count x)
    (hframe : t = { s with waiting := t.waiting, nextJob := t.nextJob }) :
    (t.accept job).Accounted where
  placed x := by
    have hplaced := h.placed x
    rw [hframe, Pipeline.accept]
    dsimp only
    rw [List.count_append, List.count_append]
    omega
  posted x := by
    have hall := hposted x
    rw [Pipeline.accept]
    dsimp only
    rw [List.count_append]
    omega
  exited hexited := by
    rw [hframe] at hexited ⊢
    exact h.exited hexited
  returned hreturned := by
    rw [hframe] at hreturned ⊢
    exact h.returned hreturned

theorem Accounted.reject (h : s.Accounted) (job : ℕ)
    (hposted : ∀ x, t.waiting.count x + t.accepted.count x + t.rejected.count x + [job].count x =
      (List.range t.nextJob).count x)
    (hframe : t = { s with waiting := t.waiting, nextJob := t.nextJob }) :
    (t.reject job).Accounted where
  placed x := by
    rw [hframe]
    exact h.placed x
  posted x := by
    have hall := hposted x
    rw [Pipeline.reject]
    dsimp only
    rw [List.count_append]
    omega
  exited hexited := by
    rw [hframe] at hexited ⊢
    exact h.exited hexited
  returned hreturned := by
    rw [hframe] at hreturned ⊢
    exact h.returned hreturned

theorem Accounted.push (h : s.Accounted) (blocking onRender : Bool) :
    (s.push blocking onRender).Accounted := by
  have hposted (x : ℕ) : s.waiting.count x + s.accepted.count x + s.rejected.count x +
      [s.nextJob].count x = (List.range (s.nextJob + 1)).count x := by
    rw [List.range_succ, List.count_append, h.posted x]
  rw [Pipeline.push]
  dsimp only
  split_ifs
  · exact h.reject (t := { s with nextJob := s.nextJob + 1 }) s.nextJob hposted rfl
  · exact h.reject (t := { s with nextJob := s.nextJob + 1 }) s.nextJob hposted rfl
  · refine ⟨h.placed, fun x => ?_, h.exited, h.returned⟩
    have hall := hposted x
    dsimp only
    rw [List.count_append]
    omega
  · exact h.accept (t := { s with nextJob := s.nextJob + 1 }) s.nextJob hposted rfl
  · exact h

theorem Accounted.wake (h : s.Accounted) (job : ℕ) : (s.wake job).Accounted := by
  rw [Pipeline.wake]
  split_ifs with hwaiting hfull hstopping
  · exact h.reject (t := { s with waiting := s.waiting.erase job }) job (fun x => by
      rw [← h.posted x, ← count_erase_add hwaiting x]
      dsimp only
      omega) rfl
  · exact h
  · exact h.accept (t := { s with waiting := s.waiting.erase job }) job (fun x => by
      rw [← h.posted x, ← count_erase_add hwaiting x]
      dsimp only
      omega) rfl
  · exact h

theorem Accounted.act (h : s.Accounted) (a : PipelineAction) : (s.act a).Accounted := by
  cases a with
  | push blocking onRender => exact h.push blocking onRender
  | wake job => exact h.wake job
  | take =>
    rw [Pipeline.act, Pipeline.take]
    by_cases hidle : s.render = .idle
    · rw [if_pos hidle]
      split
      next job queue hqueue =>
        refine ⟨fun x => ?_, h.posted, fun hexited => by simp at hexited, h.returned⟩
        have hplaced := h.placed x
        rw [hqueue, hidle, List.count_cons] at hplaced
        simp only [RenderThread.inHand, List.count_nil, List.count_cons] at hplaced ⊢
        omega
      next hqueue =>
        split_ifs with hstopping
        · refine ⟨fun x => ?_, h.posted, fun _ => hstopping, h.returned⟩
          have hplaced := h.placed x
          rw [hidle] at hplaced
          exact hplaced
        · exact h
    · rw [if_neg hidle]
      exact h
  | complete =>
    rw [Pipeline.act, Pipeline.complete]
    split
    next job hrender =>
      split_ifs
      · exact h
      · refine ⟨fun x => ?_, h.posted, fun hexited => by simp at hexited, h.returned⟩
        have hplaced := h.placed x
        rw [hrender] at hplaced
        simp only [RenderThread.inHand, List.count_nil, List.count_append] at hplaced ⊢
        omega
    next => exact h
  | leave =>
    rw [Pipeline.act, Pipeline.leave]
    split
    next job hrender =>
      split_ifs
      · exact h
      · refine ⟨fun x => ?_, h.posted, fun hexited => by simp at hexited, h.returned⟩
        have hplaced := h.placed x
        rw [hrender] at hplaced
        exact hplaced
    next => exact h
  | shutdown onRender =>
    rw [Pipeline.act, Pipeline.shutdown]
    split_ifs with hcalls hstopping
    · exact ⟨h.placed, h.posted, h.exited, fun _ => hstopping⟩
    · exact ⟨h.placed, h.posted, fun _ => rfl, fun _ => rfl⟩
    · exact h
  | drain =>
    rw [Pipeline.act, Pipeline.drain]
    split_ifs with hstage
    · refine ⟨fun x => ?_, h.posted, fun _ => rfl, fun _ => rfl⟩
      have hplaced := h.placed x
      dsimp only
      rw [List.count_nil, List.count_append]
      omega
    · exact h
  | cancel =>
    rw [Pipeline.act, Pipeline.cancel]
    split
    next job cancelled hcancelled =>
      refine ⟨fun x => ?_, h.posted, h.exited, h.returned⟩
      have hplaced := h.placed x
      rw [hcancelled, List.count_cons] at hplaced
      dsimp only
      rw [List.count_append, List.count_cons, List.count_nil]
      omega
    next => exact h
  | finish =>
    rw [Pipeline.act, Pipeline.finish]
    split_ifs with hstage
    · exact ⟨h.placed, h.posted, fun _ => rfl, fun _ => rfl⟩
    · exact h

theorem Accounted.run (h : s.Accounted) (as : List PipelineAction) :
    (Lib.run Pipeline.act s as).Accounted :=
  invariant_always (I := Accounted) (fun _ a h => h.act a) h as

theorem Accounted.accepted_le (h : s.Accounted) (job : ℕ) : s.accepted.count job ≤ 1 := by
  have hposted := h.posted job
  have hrange : (List.range s.nextJob).count job ≤ 1 :=
    List.nodup_iff_count_le_one.1 List.nodup_range job
  omega

/-! ### What the render thread and `shutdown` do by themselves -/

theorem accepted_own {a : PipelineAction} (ha : a.isOwn = true) :
    (s.act a).accepted = s.accepted := by
  cases a with
  | push blocking onRender => cases ha
  | wake job => cases ha
  | shutdown onRender => cases ha
  | take =>
    rw [act, take]
    split_ifs
    · split
      · rfl
      · rfl
    · split
      · rfl
      · rfl
    · rfl
  | complete =>
    rw [act, complete]
    split
    · split_ifs <;> rfl
    · rfl
  | leave =>
    rw [act, leave]
    split
    · split_ifs <;> rfl
    · rfl
  | drain =>
    rw [act, drain]
    split_ifs <;> rfl
  | cancel =>
    rw [act, cancel]
    split <;> rfl
  | finish =>
    rw [act, finish]
    split_ifs <;> rfl

/-- How many steps are left at most. -/
def remaining (s : Pipeline) : ℕ :=
  4 * s.queue.length + s.cancelled.length +
    (match s.stage with | .stopping => 2 | .drained => 1 | _ => 0) +
    (match s.render with | .executing _ => 2 | .completing _ => 1 | _ => 0)

/-- While a job is not completed, there is a step towards it. -/
theorem Served.exists_step (h : s.Served)
    (hpending : s.queue ≠ [] ∨ s.render.inHand ≠ [] ∨ s.cancelled ≠ []) :
    ∃ a : PipelineAction, a.isOwn = true ∧ (s.act a).Served ∧
      (s.act a).remaining < s.remaining := by
  by_cases hcancelled : s.cancelled = []
  · by_cases hdrain : s.stage = .stopping
    · refine ⟨.drain, rfl, ?_, ?_⟩
      · rw [act, drain, if_pos hdrain]
        exact fun hqueue => absurd rfl hqueue
      · rw [act, drain, if_pos hdrain, remaining, remaining, hdrain, hcancelled]
        simp only [List.length_nil, List.nil_append]
        omega
    · by_cases hshutting : s.shuttingDown = true
      · have hstage : s.onRender = true ∧ s.stage = .drained := by
          simpa [shuttingDown, hdrain] using hshutting
        refine ⟨.finish, rfl, ?_, ?_⟩
        · rw [act, finish, if_pos ⟨hstage.2, hcancelled, .inl hstage.1⟩]
          exact fun hqueue => .inl ((h hqueue).resolve_right hdrain)
        · rw [act, finish, if_pos ⟨hstage.2, hcancelled, .inl hstage.1⟩, remaining, remaining,
            hstage.2]
          dsimp only
          omega
      · cases hrender : s.render with
        | idle =>
          obtain ⟨job, queue, hqueue⟩ : ∃ job queue, s.queue = job :: queue := by
            cases hqueue : s.queue with
            | nil => simp [hqueue, hrender, hcancelled, RenderThread.inHand] at hpending
            | cons job queue => exact ⟨job, queue, rfl⟩
          refine ⟨.take, rfl, ?_, ?_⟩
          · simp [Served, act, take, hrender, hqueue]
          · simp only [act, take, hrender, hqueue, if_true, remaining, List.length_cons]
            omega
        | executing job =>
          refine ⟨.complete, rfl, ?_, ?_⟩
          · simp [Served, act, complete, hrender, hshutting]
          · simp [act, complete, hrender, hshutting, remaining]
        | completing job =>
          refine ⟨.leave, rfl, ?_, ?_⟩
          · simp [Served, act, leave, hrender, hshutting]
          · simp [act, leave, hrender, hshutting, remaining]
        | exited =>
          have hqueue : s.queue ≠ [] := by
            simpa [hrender, hcancelled, RenderThread.inHand] using hpending
          simpa [hrender, hdrain] using h hqueue
  · obtain ⟨job, cancelled, heq⟩ := List.exists_cons_of_ne_nil hcancelled
    refine ⟨.cancel, rfl, ?_, ?_⟩
    · simpa only [Served, act, cancel, heq] using h
    · simp only [act, cancel, heq, remaining, List.length_cons]
      omega

/-- The render thread and `shutdown` complete what is accepted. -/
theorem Served.exists_run (haccounted : s.Accounted) (h : s.Served) :
    ∃ as : List PipelineAction, (∀ a ∈ as, a.isOwn = true) ∧
      ∀ job, (run act s as).completed.count job = s.accepted.count job := by
  induction hn : s.remaining using Nat.strongRecOn generalizing s with
  | ind n ih =>
    by_cases hpending : s.queue ≠ [] ∨ s.render.inHand ≠ [] ∨ s.cancelled ≠ []
    · obtain ⟨a, ha, hserved, hlt⟩ := h.exists_step hpending
      obtain ⟨as, has, hcompleted⟩ := ih _ (hn ▸ hlt) (haccounted.act a) hserved rfl
      refine ⟨a :: as, List.forall_mem_cons.2 ⟨ha, has⟩, fun job => ?_⟩
      rw [run_cons, hcompleted, accepted_own ha]
    · simp only [ne_eq, not_or, not_not] at hpending
      obtain ⟨hqueue, hhand, hcancelled⟩ := hpending
      refine ⟨[], fun _ ha => absurd ha List.not_mem_nil, fun job => ?_⟩
      have hplaced := haccounted.placed job
      rw [hqueue, hhand, hcancelled] at hplaced
      simpa using hplaced

theorem mem_queue_run_own {as : List PipelineAction} (has : ∀ a ∈ as, a.isOwn = true) {job : ℕ}
    (hmem : job ∈ s.queue) (hexited : s.render = .exited) (hstage : s.stage ≠ .stopping) :
    job ∈ (run act s as).queue := by
  induction as generalizing s with
  | nil => exact hmem
  | cons a as ih =>
    have hstep : (s.act a).queue = s.queue ∧ (s.act a).render = .exited ∧
        (s.act a).stage ≠ .stopping := by
      have ha := has a List.mem_cons_self
      cases a with
      | push blocking onRender => cases ha
      | wake job => cases ha
      | shutdown onRender => cases ha
      | take => simp [act, take, hexited, hstage]
      | complete => simp [act, complete, hexited, hstage]
      | leave => simp [act, leave, hexited, hstage]
      | drain => simp [act, drain, hexited, hstage]
      | cancel =>
        rw [act, cancel]
        split
        · exact ⟨rfl, hexited, hstage⟩
        · exact ⟨rfl, hexited, hstage⟩
      | finish =>
        rw [act, finish]
        split_ifs
        · exact ⟨rfl, hexited, by simp⟩
        · exact ⟨rfl, hexited, hstage⟩
    obtain ⟨hqueue, hrender, hnext⟩ := hstep
    exact ih (fun b hb => has b (List.mem_cons_of_mem a hb)) (hqueue ▸ hmem) hrender hnext

/-! ### Complete states -/

/-- A state is complete exactly when its queue is served, and empty after `shutdown`. -/
theorem Accounted.complete_iff (h : s.Accounted) :
    s.Complete ↔ s.Served ∧ (s.returned = true → s.queue = []) := by
  constructor
  · refine fun hcomplete => ⟨fun hqueue => ?_, hcomplete.emptied⟩
    by_contra hlost
    simp only [ne_eq, not_or, not_not] at hlost
    obtain ⟨job, hmem⟩ := List.exists_mem_of_ne_nil s.queue hqueue
    have hplaced := h.placed job
    have hpos : 0 < s.queue.count job := List.count_pos_iff.2 hmem
    obtain ⟨as, has, hdone⟩ := hcomplete.answered job
      (List.count_pos_iff.1 (by omega : 0 < s.accepted.count job))
    have hleft : 0 < (Lib.run Pipeline.act s as).queue.count job :=
      List.count_pos_iff.2 (mem_queue_run_own has hmem hlost.1 hlost.2)
    have hafter := (h.run as).placed job
    have hle := (h.run as).accepted_le job
    omega
  · rintro ⟨hserved, hemptied⟩
    refine ⟨?_, fun job => ⟨?_, h.accepted_le job⟩, fun job hjob => ?_, hemptied⟩
    · refine List.perm_iff_count.2 fun job => ?_
      rw [List.count_append, List.count_append]
      exact h.posted job
    · have hplaced := h.placed job
      omega
    · obtain ⟨as, has, hcompleted⟩ := hserved.exists_run h
      refine ⟨as, has, ?_⟩
      have hpos : 0 < s.accepted.count job := List.count_pos_iff.2 hjob
      have hle := h.accepted_le job
      rw [hcompleted]
      omega

theorem complete_accept_iff (job : ℕ) (ht : (t.accept job).Accounted)
    (hframe : t = { s with waiting := t.waiting, nextJob := t.nextJob }) :
    (t.accept job).Complete ↔ (s.render ≠ .exited ∨ s.stage = .stopping) ∧ s.returned = false := by
  rw [ht.complete_iff, Served, accept, hframe]
  simp

section

variable (haccounted : s.Accounted) (h : s.Complete)

include haccounted h

theorem Complete.of_frame (ht : t.Accounted) (hqueue : t.queue = s.queue)
    (hrender : t.render = s.render) (hstage : t.stage = s.stage)
    (hreturned : t.returned = s.returned) : t.Complete := by
  obtain ⟨hserved, hemptied⟩ := haccounted.complete_iff.1 h
  rw [ht.complete_iff, Served, hqueue, hrender, hstage, hreturned]
  exact ⟨hserved, hemptied⟩

/-- `push` up to its first wait accepts a job only of a running pipeline. -/
theorem Complete.push (blocking onRender : Bool) : (s.push blocking onRender).Complete := by
  have ht := haccounted.push blocking onRender
  rw [Pipeline.push] at ht ⊢
  dsimp only at ht ⊢
  by_cases hcalls : s.calls onRender = true
  · rw [if_pos hcalls] at ht ⊢
    by_cases hstopping : Pipeline.stopping { s with nextJob := s.nextJob + 1 } = true
    · rw [if_pos hstopping] at ht ⊢
      exact h.of_frame haccounted ht rfl rfl rfl rfl
    · rw [if_neg hstopping] at ht ⊢
      split_ifs at ht ⊢
      · exact h.of_frame haccounted ht rfl rfl rfl rfl
      · exact h.of_frame haccounted ht rfl rfl rfl rfl
      · refine (complete_accept_iff (t := { s with nextJob := s.nextJob + 1 })
          s.nextJob ht rfl).2 ⟨.inl fun hexited => hstopping (haccounted.exited hexited), ?_⟩
        by_contra hreturned
        exact hstopping (haccounted.returned (by simpa using hreturned))
  · rw [if_neg hcalls]
    exact h

theorem complete_wake_iff (job : ℕ) : (s.wake job).Complete ↔ s.Quiet (.wake job) := by
  have ht := haccounted.wake job
  rw [wake] at ht ⊢
  by_cases hwaiting : job ∈ s.waiting
  · rw [if_pos hwaiting] at ht ⊢
    by_cases hfull : renderQueueCap ≤ s.queue.length
    · rw [if_pos hfull] at ht ⊢
      refine iff_of_true ?_ fun _ hroom => absurd hroom (Nat.not_lt.2 hfull)
      split_ifs at ht ⊢
      · exact h.of_frame haccounted ht rfl rfl rfl rfl
      · exact h
    · rw [if_neg hfull] at ht ⊢
      rw [complete_accept_iff (t := { s with waiting := s.waiting.erase job }) job ht
        rfl]
      exact ⟨fun hquiet _ _ => hquiet, fun hquiet => hquiet hwaiting (Nat.not_le.1 hfull)⟩
  · rw [if_neg hwaiting]
    exact iff_of_true h fun hmem => absurd hmem hwaiting

theorem complete_act_iff (a : PipelineAction) : (s.act a).Complete ↔ s.Quiet a := by
  have ht := haccounted.act a
  obtain ⟨hserved, hemptied⟩ := haccounted.complete_iff.1 h
  cases a with
  | push blocking onRender => exact iff_of_true (h.push haccounted blocking onRender) trivial
  | wake job => exact complete_wake_iff haccounted h job
  | take =>
    refine iff_of_true (ht.complete_iff.2 ?_) trivial
    rw [act, take]
    by_cases hidle : s.render = .idle
    · rw [if_pos hidle]
      split
      next job queue hqueue =>
        refine ⟨fun _ => .inl (by simp), fun hreturned => ?_⟩
        rw [hemptied hreturned] at hqueue
        cases hqueue
      next hqueue =>
        split_ifs
        · exact ⟨fun hne => absurd hqueue hne, fun _ => hqueue⟩
        · exact ⟨hserved, hemptied⟩
    · rw [if_neg hidle]
      exact ⟨hserved, hemptied⟩
  | complete =>
    refine iff_of_true (ht.complete_iff.2 ?_) trivial
    rw [act, complete]
    split
    · split_ifs
      · exact ⟨hserved, hemptied⟩
      · exact ⟨fun _ => .inl (by simp), hemptied⟩
    · exact ⟨hserved, hemptied⟩
  | leave =>
    refine iff_of_true (ht.complete_iff.2 ?_) trivial
    rw [act, leave]
    split
    · split_ifs
      · exact ⟨hserved, hemptied⟩
      · exact ⟨fun _ => .inl (by simp), hemptied⟩
    · exact ⟨hserved, hemptied⟩
  | shutdown onRender =>
    rw [ht.complete_iff, act, shutdown, Quiet]
    by_cases hcalls : s.calls onRender = true
    · rw [if_pos hcalls]
      by_cases hstopping : s.stopping = true
      · rw [if_pos hstopping]
        exact ⟨fun hcomplete _ _ => hcomplete.2 rfl,
          fun hquiet => ⟨hserved, fun _ => hquiet hcalls hstopping⟩⟩
      · rw [if_neg hstopping]
        exact iff_of_true ⟨fun _ => .inr rfl, hemptied⟩ fun _ h => absurd h hstopping
    · rw [if_neg hcalls]
      exact iff_of_true ⟨hserved, hemptied⟩ fun h => absurd h hcalls
  | drain =>
    refine iff_of_true (ht.complete_iff.2 ?_) trivial
    rw [act, drain]
    split_ifs
    · exact ⟨fun hne => absurd rfl hne, fun _ => rfl⟩
    · exact ⟨hserved, hemptied⟩
  | cancel =>
    refine iff_of_true (ht.complete_iff.2 ?_) trivial
    rw [act, cancel]
    split
    · exact ⟨hserved, hemptied⟩
    · exact ⟨hserved, hemptied⟩
  | finish =>
    rw [ht.complete_iff, act, finish, Quiet]
    split_ifs with hover
    · obtain ⟨hstage, hcancelled, hjoined⟩ := hover
      constructor
      · exact fun hcomplete _ _ _ => hcomplete.2 rfl
      · refine fun hquiet => ⟨fun hne => absurd (hquiet hstage hcancelled hjoined) hne, fun _ => ?_⟩
        exact hquiet hstage hcancelled hjoined
    · refine iff_of_true ⟨hserved, hemptied⟩ fun hstage hcancelled hjoined => ?_
      exact absurd ⟨hstage, hcancelled, hjoined⟩ hover

end

/-- Every job is completed once all along exactly the quiet runs. -/
theorem complete_run_iff (as : List PipelineAction) :
    (∀ bs cs, as = bs ++ cs → (run act new bs).Complete) ↔ Permitted act Quiet new as :=
  forall_run_iff (J := Accounted) (fun _ a h => h.act a)
    (fun _ a haccounted h => complete_act_iff haccounted h a) accounted_new
    (accounted_new.complete_iff.2 ⟨fun hne => absurd rfl hne, fun _ => rfl⟩)

/-- Until `shutdown` has drained the queue, the accepted jobs in order are the completed ones, the
one in hand and the queued ones. -/
def InOrder (s : Pipeline) : Prop :=
  s.stage = .running ∨ s.stage = .stopping →
    s.cancelled = [] ∧ s.accepted = s.completed ++ s.render.inHand ++ s.queue

theorem InOrder.act (h : s.InOrder) (a : PipelineAction) : (s.act a).InOrder := by
  rw [InOrder] at h ⊢
  cases a with
  | push blocking onRender => grind [Pipeline.act, push, accept, reject]
  | wake job => grind [Pipeline.act, wake, accept, reject]
  | take => grind [Pipeline.act, take, RenderThread.inHand]
  | complete => grind [Pipeline.act, complete, RenderThread.inHand]
  | leave => grind [Pipeline.act, leave, RenderThread.inHand]
  | shutdown onRender => grind [Pipeline.act, shutdown, stopping]
  | drain => grind [Pipeline.act, drain]
  | cancel => grind [Pipeline.act, cancel]
  | finish => grind [Pipeline.act, finish]

/-- After any steps every job is completed at most once, and up to the one that drains the queue in
the order in which they were accepted. -/
theorem accepted_run (as : List PipelineAction) :
    (run act new as).InOrder ∧ ∀ job, (run act new as).completed.count job ≤ 1 := by
  refine ⟨invariant_always (I := InOrder) (fun _ a h => h.act a) (fun _ => ⟨rfl, rfl⟩) as,
    fun job => ?_⟩
  have haccounted := accounted_new.run as
  have hplaced := haccounted.placed job
  have honce := haccounted.accepted_le job
  omega

/-- The render thread has taken a job, eight more fill the queue, and a poster waits; `shutdown`
drains the queue, and the poster is woken when the render thread has exited. -/
def wakeAfterDrain : List PipelineAction :=
  [.push true false, .take] ++ List.replicate 9 (.push true false) ++
    [.shutdown false, .drain, .complete, .leave, .take, .wake 9]

theorem wakeAfterDrain_lost : ¬ ∀ as, (run act new as).Complete := by
  intro h
  have hrun := (accounted_new.run wakeAfterDrain).complete_iff.1 (h wakeAfterDrain)
  exact absurd (hrun.1 (by decide)) (by decide)

end Pipeline

end Oak.Render
