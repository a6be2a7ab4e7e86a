import Oak.Lib.Machine
import Oak.Render.Scheduler

/-!
# Runs of the preview scheduler

The calls of the scheduler in any order. Every request that is submitted has a number of its own,
which the scheduler carries in the payload and never reads. A run keeps the requests that were
accepted, and the requests that were reported as ended, with the call that reported them.

The order in which a walk over the table of claims meets them comes with each call that walks over
it.

* `Conserves r` says where the accepted requests are.
* `Current r` says that no request is pending, or handed out next, whose frame has been requested
  with a newer version.

## Main results

* `SchedulerRun.conserves_run`: no request is lost or reported twice.
* `SchedulerRun.current_run`: the requests of a frame are current, as long as nothing older is
  pending when a version is submitted, and comes back from a crash.
-/

namespace Oak.Render

open Oak.Lib

variable {P : Type*}

/-- The order in which a walk over a hash map meets its values. -/
structure WalkOrder (α : Type*) where
  order : List α → List α
  order_perm : ∀ l, (order l).Perm l

/-- The calls of the scheduler. -/
inductive SchedulerAction (P : Type*) where
  | submit (request : FrameRequest P)
  | claimBatch (worker credit maxBytes : ℕ)
  | frameDone (key : FrameKey)
  | frameFailed (key : FrameKey)
  | workerCrashed (order : WalkOrder (FrameRequest (ℕ × P))) (worker : ℕ)
  | cancelKey (key : FrameKey)
  | cancelSequence (order : WalkOrder (FrameRequest (ℕ × P))) (sequence : ℕ)
  | setWorkerCount (workers : ℕ)

/-- How a request ended. -/
inductive Ending where
  | done | failed | cancelled | replaced
  deriving DecidableEq, Repr

/-- A scheduler with what it has accepted and reported. -/
structure SchedulerRun (P : Type*) where
  scheduler : PreviewScheduler (ℕ × P)
  /-- The number of the next request. -/
  serial : ℕ
  accepted : List (FrameRequest (ℕ × P))
  ended : List (Ending × FrameRequest (ℕ × P))

/-- The request with a number. -/
def FrameRequest.tag (request : FrameRequest P) (serial : ℕ) : FrameRequest (ℕ × P) :=
  ⟨request.key, request.priority, request.distance, (serial, request.payload), request.slotBytes⟩

namespace PreviewScheduler

variable (s : PreviewScheduler P)

/-- What `frame_done` and `frame_failed` return. -/
def claimOf (key : FrameKey) : Option (FrameRequest P) :=
  (s.claimed.find? fun c => c.1 = key).map fun c => c.2.request

/-- The request of a key that `cancel_key` knows. -/
def requestOf (key : FrameKey) : Option (FrameRequest P) :=
  ((s.pending.find? fun e => e.request.key = key).map PendingEntry.request).or (s.claimOf key)

/-- The requests that are pending or claimed. -/
def requests : List (FrameRequest P) :=
  s.pending.map PendingEntry.request ++ s.claimed.map fun c => c.2.request

end PreviewScheduler

namespace SchedulerRun

/-- A run before its first call. -/
def start (workers batchSize : ℕ) : SchedulerRun P :=
  ⟨.new workers batchSize, 0, [], []⟩

/-- One call. -/
def act (r : SchedulerRun P) : SchedulerAction P → SchedulerRun P
  | .submit request =>
    let submitted := r.scheduler.submit (request.tag r.serial)
    let r := { r with
      scheduler := submitted.1
      serial := r.serial + 1 }
    match submitted.2 with
    | .inFlight => r
    | .accepted => { r with accepted := r.accepted ++ [request.tag (r.serial - 1)] }
    | .replaced old =>
      { r with
        accepted := r.accepted ++ [request.tag (r.serial - 1)]
        ended := r.ended ++ [(.replaced, old)] }
  | .claimBatch worker credit maxBytes =>
    match r.scheduler.claimBatch worker credit maxBytes with
    | none => r
    | some claimed => { r with scheduler := claimed.2 }
  | .frameDone key =>
    { r with
      scheduler := r.scheduler.frameDone key
      ended := r.ended ++ (r.scheduler.claimOf key).toList.map (Ending.done, ·) }
  | .frameFailed key =>
    { r with
      scheduler := r.scheduler.frameDone key
      ended := r.ended ++ (r.scheduler.claimOf key).toList.map (Ending.failed, ·) }
  | .workerCrashed order worker =>
    { r with scheduler := (r.scheduler.workerCrashed order.order worker).1 }
  | .cancelKey key =>
    let cancelled := r.scheduler.cancelKey key
    { r with
      scheduler := cancelled.1
      ended := r.ended ++
        if cancelled.2 then (r.scheduler.requestOf key).toList.map (Ending.cancelled, ·) else [] }
  | .cancelSequence order sequence =>
    let cancelled := r.scheduler.cancelSequence order.order sequence
    { r with
      scheduler := cancelled.1
      ended := r.ended ++ cancelled.2.map (Ending.cancelled, ·) }
  | .setWorkerCount workers => { r with scheduler := r.scheduler.setWorkerCount workers }

end SchedulerRun

/-! ### Where requests go -/

namespace PreviewScheduler

variable {s s' : PreviewScheduler P} {worker credit maxBytes : ℕ} {batch : ClaimedBatch P}
  {request : FrameRequest P} {key : FrameKey}

/-- A key that occurs once selects what a search for it finds. -/
theorem filter_eq_toList_find? {α κ : Type*} [DecidableEq κ] {f : α → κ} {l : List α}
    (h : (l.map f).Nodup) (k : κ) :
    (l.filter fun a => f a = k) = (l.find? fun a => f a = k).toList := by
  induction l with
  | nil => rfl
  | cons a l ih =>
    rw [List.map_cons, List.nodup_cons] at h
    by_cases hk : f a = k
    · have hnone : (l.filter fun a => f a = k) = [] :=
        List.filter_eq_nil_iff.2 fun b hb => by
          simpa using fun heq : f b = k => h.1 (List.mem_map.2 ⟨b, hb, heq.trans hk.symm⟩)
      rw [List.filter_cons_of_pos (by simpa using hk), hnone,
        List.find?_cons_of_pos (by simpa using hk)]
      rfl
    · rw [List.filter_cons_of_neg (by simpa using hk), ih h.2,
        List.find?_cons_of_neg (by simpa using hk)]

theorem filter_ne_append_find? {α κ : Type*} [DecidableEq κ] {f : α → κ} {l : List α}
    (h : (l.map f).Nodup) (k : κ) :
    ((l.filter fun a => f a ≠ k) ++ (l.find? fun a => f a = k).toList).Perm l := by
  rw [← filter_eq_toList_find? h k]
  refine List.perm_append_comm.trans (List.Perm.trans (List.Perm.of_eq ?_)
    (List.filter_append_perm (fun a => f a = k) l))
  simp

theorem perm_replacePending (entry : PendingEntry P) {old : PendingEntry P}
    {es : List (PendingEntry P)}
    (h : (es.find? fun e => e.request.key = entry.request.key) = some old) :
    (replacePending entry es ++ [old]).Perm (es ++ [entry]) := by
  induction es with
  | nil => exact absurd h (by simp)
  | cons e es ih =>
    rw [replacePending]
    split_ifs with hkey
    · rw [List.find?_cons_of_pos (by simpa using hkey)] at h
      obtain rfl := Option.some.inj h
      rw [List.cons_append, List.cons_append]
      exact ((List.perm_append_singleton e es).cons entry).trans ((List.Perm.swap e entry es).trans
        ((List.perm_append_singleton entry es).symm.cons e))
    · rw [List.find?_cons_of_neg (by simpa using hkey)] at h
      exact (ih h).cons e

theorem Keyed.nodup_pending (h : s.Keyed) : (s.pending.map fun e => e.request.key).Nodup :=
  (List.nodup_append.1 h.nodup).1

theorem Keyed.nodup_claimed (h : s.Keyed) : (s.claimed.map Prod.fst).Nodup :=
  (List.nodup_append.1 h.nodup).2.1

/-- A submission that is not rejected adds the request, in the place of the one it replaces. -/
theorem requests_submit (s : PreviewScheduler P) (request : FrameRequest P) :
    match (s.submit request).2 with
    | .inFlight => (s.submit request).1 = s
    | .accepted => (s.submit request).1.requests.Perm (s.requests ++ [request])
    | .replaced old => ((s.submit request).1.requests ++ [old]).Perm (s.requests ++ [request]) := by
  rw [submit]
  split_ifs with hclaimed
  · rfl
  · rcases hfind : s.pending.find? fun e => e.request.key = request.key with _ | old
    · simp only [hfind, requests, List.map_append, List.map_cons, List.map_nil, List.append_assoc]
      exact List.perm_append_comm.append_left _
    · simp only [hfind, requests]
      have hperm := (perm_replacePending ⟨request, request.priority = .seek⟩ hfind).map
        PendingEntry.request
      simp only [List.map_append, List.map_cons, List.map_nil] at hperm
      rw [List.append_assoc, List.append_assoc]
      refine (List.perm_append_comm.append_left _).trans ?_
      rw [← List.append_assoc]
      refine (hperm.append_right _).trans ?_
      rw [List.append_assoc]
      exact List.perm_append_comm.append_left _

theorem Claimed.requests {out : List (PendingEntry P)}
    (h : s.Claimed worker credit batch s' out) : s'.requests.Perm s.requests := by
  rw [PreviewScheduler.requests, PreviewScheduler.requests, h.claimed, List.map_append,
    List.map_map]
  refine List.Perm.trans ?_ ((h.cut.map PendingEntry.request).append_right _)
  rw [List.map_append, List.append_assoc, ← List.append_assoc]
  refine List.perm_append_comm.trans (List.Perm.append_left _ ?_)
  exact List.Perm.refl _

theorem requests_frameDone (h : s.Keyed) (key : FrameKey) :
    ((s.frameDone key).requests ++ (s.claimOf key).toList).Perm s.requests := by
  have hperm := (filter_ne_append_find? h.nodup_claimed key).map fun c => c.2.request
  rw [List.map_append] at hperm
  rw [requests, requests, frameDone, List.append_assoc]
  refine List.Perm.append_left _ (List.Perm.trans (List.Perm.of_eq ?_) hperm)
  rw [claimOf]
  cases s.claimed.find? fun c => decide (c.1 = key) <;> rfl

variable (order : WalkOrder (FrameRequest P))

theorem requests_workerCrashed (worker : ℕ) :
    (s.workerCrashed order.order worker).1.requests.Perm s.requests := by
  simp only [requests, workerCrashed, List.map_append, List.map_map, List.append_assoc]
  refine List.Perm.append_left _ ?_
  have hback : ((order.order ((s.claimed.filter fun c => c.2.worker = worker).map
      fun c => c.2.request)).map
        (PendingEntry.request ∘ fun r => (⟨r, true⟩ : PendingEntry P))).Perm
      ((s.claimed.filter fun c => c.2.worker = worker).map fun c => c.2.request) := by
    rw [show (PendingEntry.request ∘ fun r => (⟨r, true⟩ : PendingEntry P)) = id from rfl,
      List.map_id]
    exact order.order_perm _
  refine (hback.append_right _).trans ?_
  rw [← List.map_append]
  refine List.Perm.map _ (List.Perm.trans (List.Perm.of_eq ?_)
    (List.filter_append_perm (fun c => c.2.worker = worker) s.claimed))
  simp

theorem requests_cancelKey (h : s.Keyed) (key : FrameKey) :
    ((s.cancelKey key).1.requests ++
      if (s.cancelKey key).2 then (s.requestOf key).toList else []).Perm s.requests := by
  by_cases hpending : (s.pending.any fun e => e.request.key = key) = true
  · have hcancel : s.cancelKey key =
        ({ s with pending := s.pending.filter fun e => e.request.key ≠ key }, true) :=
      if_pos hpending
    have hperm := (filter_ne_append_find? h.nodup_pending key).map PendingEntry.request
    obtain ⟨e, he⟩ : ∃ e, s.pending.find? (fun e => e.request.key = key) = some e := by
      rw [← Option.isSome_iff_exists, List.find?_isSome]
      simpa using hpending
    rw [List.map_append, he] at hperm
    rw [hcancel, if_pos rfl, requests, requests, requestOf, he, List.append_assoc]
    refine (List.perm_append_comm.append_left _).trans ?_
    rw [← List.append_assoc]
    exact hperm.append_right _
  · have hcancel : s.cancelKey key = (s.frameDone key, s.isClaimed key) := if_neg hpending
    have hnone : s.pending.find? (fun e => e.request.key = key) = none := by
      rw [List.find?_eq_none]
      simpa using hpending
    have hdone := requests_frameDone h key
    rw [hcancel, requestOf, hnone, Option.map_none, Option.none_or]
    by_cases hclaimed : s.isClaimed key = true
    · rw [if_pos hclaimed]
      exact hdone
    · have hunclaimed : s.claimOf key = none := by
        rw [claimOf, List.find?_eq_none.2, Option.map_none]
        intro c hc
        simpa using fun heq : c.1 = key =>
          hclaimed (isClaimed_iff.2 (List.mem_map.2 ⟨c, hc, heq⟩))
      rw [if_neg hclaimed]
      rwa [hunclaimed] at hdone

/-- The requests of a sequence that is cancelled are reported. -/
theorem requests_cancelSequence (sequence : ℕ) :
    ((s.cancelSequence order.order sequence).1.requests ++
      (s.cancelSequence order.order sequence).2).Perm s.requests := by
  simp only [requests, cancelSequence]
  have hpending := (List.filter_append_perm (fun e : PendingEntry P =>
    e.request.key.sequence = sequence) s.pending).map PendingEntry.request
  have hclaimed := (List.filter_append_perm (fun c : FrameKey × Claim P =>
    c.2.request.key.sequence = sequence) s.claimed).map fun c => c.2.request
  rw [List.map_append] at hpending hclaimed
  refine List.Perm.trans ?_ (hpending.append hclaimed)
  refine List.perm_append_comm.trans ?_
  rw [List.append_assoc, List.append_assoc]
  refine List.Perm.append_left _ ?_
  simp only [ne_eq, decide_not]
  refine ((order.order_perm _).append_right _).trans ?_
  rw [← List.append_assoc, ← List.append_assoc]
  exact List.perm_append_comm.append_right _

end PreviewScheduler

open PreviewScheduler

namespace SchedulerRun

variable {r : SchedulerRun P} {a : SchedulerAction P}

/-- Every accepted request is pending, claimed or reported. -/
structure Accounted (r : SchedulerRun P) : Prop where
  keyed : r.scheduler.Keyed
  accounts : (r.scheduler.requests ++ r.ended.map Prod.snd).Perm r.accepted
  numbers : (r.accepted.map fun x => x.payload.1).Nodup
  below : ∀ x ∈ r.accepted, x.payload.1 < r.serial

variable {s : PreviewScheduler (ℕ × P)}

namespace Accounted

theorem start (workers batchSize : ℕ) : Accounted (start workers batchSize : SchedulerRun P) where
  keyed := keyed_new workers batchSize
  accounts := .refl _
  numbers := List.nodup_nil
  below _ hx := absurd hx List.not_mem_nil

theorem move (h : r.Accounted) (reported : List (Ending × FrameRequest (ℕ × P))) (hkeyed : s.Keyed)
    (hperm : (s.requests ++ reported.map Prod.snd).Perm r.scheduler.requests) :
    Accounted { r with
      scheduler := s
      ended := r.ended ++ reported } where
  keyed := hkeyed
  accounts := by
    rw [List.map_append]
    refine (List.perm_append_comm.append_left _).trans ?_
    rw [← List.append_assoc]
    exact (hperm.append_right _).trans h.accounts
  numbers := h.numbers
  below := h.below

theorem accept (h : r.Accounted) (request : FrameRequest P)
    (reported : List (Ending × FrameRequest (ℕ × P))) (hkeyed : s.Keyed)
    (hperm : (s.requests ++ reported.map Prod.snd).Perm
      (r.scheduler.requests ++ [request.tag r.serial])) :
    Accounted ⟨s, r.serial + 1, r.accepted ++ [request.tag r.serial], r.ended ++ reported⟩ where
  keyed := hkeyed
  accounts := by
    rw [List.map_append]
    refine (List.perm_append_comm.append_left _).trans ?_
    rw [← List.append_assoc]
    refine (hperm.append_right _).trans ?_
    rw [List.append_assoc]
    refine (List.perm_append_comm.append_left _).trans ?_
    rw [← List.append_assoc]
    exact h.accounts.append_right _
  numbers := by
    rw [List.map_append]
    refine List.nodup_append.2 ⟨h.numbers, List.nodup_singleton _, ?_⟩
    intro n hn m hm heq
    obtain ⟨x, hx, rfl⟩ := List.mem_map.1 hn
    obtain rfl := List.mem_singleton.1 hm
    exact absurd (h.below x hx) (by rw [heq]; exact lt_irrefl _)
  below x hx := by
    rcases List.mem_append.1 hx with hx | hx
    · exact (h.below x hx).trans (Nat.lt_succ_self _)
    · obtain rfl := List.mem_singleton.1 hx
      exact Nat.lt_succ_self _

theorem act (h : r.Accounted) (a : SchedulerAction P) : (r.act a).Accounted := by
  cases a with
  | submit request =>
    have hsubmit := requests_submit r.scheduler (request.tag r.serial)
    have hkeyed := h.keyed.submit (request.tag r.serial)
    simp only [SchedulerRun.act, Nat.add_sub_cancel]
    generalize r.scheduler.submit (request.tag r.serial) = submitted at hsubmit hkeyed ⊢
    obtain ⟨s, _ | old | _⟩ := submitted
    · simpa using h.accept request [] hkeyed (by simpa using hsubmit)
    · exact h.accept request [(.replaced, old)] hkeyed hsubmit
    · obtain rfl : s = r.scheduler := hsubmit
      exact ⟨h.keyed, h.accounts, h.numbers, fun x hx => (h.below x hx).trans (Nat.lt_succ_self _)⟩
  | claimBatch worker credit maxBytes =>
    rcases hclaim : r.scheduler.claimBatch worker credit maxBytes with _ | ⟨batch, s⟩
    · simp only [SchedulerRun.act, hclaim]
      exact h
    · obtain ⟨out, hclaimed⟩ := claimed_claimBatch h.keyed hclaim
      simp only [SchedulerRun.act, hclaim]
      simpa using h.move [] (hclaimed.keyed h.keyed) (by simpa using hclaimed.requests)
  | frameDone key =>
    refine h.move _ (h.keyed.frameDone key) ?_
    rw [List.map_map, show Prod.snd ∘ (fun x => (Ending.done, x)) =
      (id : FrameRequest (ℕ × P) → _) from rfl, List.map_id]
    exact requests_frameDone h.keyed key
  | frameFailed key =>
    refine h.move _ (h.keyed.frameDone key) ?_
    rw [List.map_map, show Prod.snd ∘ (fun x => (Ending.failed, x)) =
      (id : FrameRequest (ℕ × P) → _) from rfl, List.map_id]
    exact requests_frameDone h.keyed key
  | workerCrashed order worker =>
    have hmove := h.move [] (h.keyed.workerCrashed order.order_perm worker)
      (by simpa using requests_workerCrashed order worker)
    rwa [List.append_nil] at hmove
  | cancelKey key =>
    refine h.move _ (h.keyed.cancelKey key) ?_
    have hcancel := requests_cancelKey h.keyed key
    split_ifs with hknown
    · rw [if_pos hknown] at hcancel
      rw [List.map_map, show Prod.snd ∘ (fun x => (Ending.cancelled, x)) =
        (id : FrameRequest (ℕ × P) → _) from rfl, List.map_id]
      exact hcancel
    · rw [if_neg hknown] at hcancel
      exact hcancel
  | cancelSequence order sequence =>
    refine h.move _ (h.keyed.cancelSequence order.order sequence) ?_
    rw [List.map_map, show Prod.snd ∘ (fun x => (Ending.cancelled, x)) =
      (id : FrameRequest (ℕ × P) → _) from rfl, List.map_id]
    exact requests_cancelSequence order sequence
  | setWorkerCount workers => exact ⟨h.keyed.setWorkerCount workers, h.accounts, h.numbers, h.below⟩

theorem run (workers batchSize : ℕ) (as : List (SchedulerAction P)) :
    (Lib.run SchedulerRun.act (SchedulerRun.start workers batchSize) as).Accounted :=
  invariant_always (I := Accounted) (fun _ a h => h.act a) (start workers batchSize) as

end Accounted

/-- Every accepted request is in exactly one place: pending, claimed, or reported once. A key is
requested once at a time. A rejected submission changes nothing, and a crash moves the claims of the
worker back to the queue, and nothing else. -/
structure Conserves (r : SchedulerRun P) : Prop where
  located : ∀ x, x ∈ r.accepted ↔ x ∈ r.scheduler.pending.map PendingEntry.request ∨
    x ∈ (r.scheduler.claimed.map fun c => c.2.request) ∨ x ∈ r.ended.map Prod.snd
  once : ((r.scheduler.pending.map PendingEntry.request ++
    (r.scheduler.claimed.map fun c => c.2.request) ++ r.ended.map Prod.snd).map
      fun x => x.payload.1).Nodup
  keys : ((r.scheduler.pending.map fun e => e.request.key) ++
    r.scheduler.claimed.map fun c => c.2.request.key).Nodup
  rejected : ∀ request, (r.scheduler.submit request).2 = .inFlight →
    (r.scheduler.submit request).1 = r.scheduler
  crashed : ∀ (order : WalkOrder (FrameRequest (ℕ × P))) (worker : ℕ),
    ((r.scheduler.workerCrashed order.order worker).1.pending.map PendingEntry.request).Perm
        (r.scheduler.pending.map PendingEntry.request ++
          (r.scheduler.claimed.filter fun c => c.2.worker = worker).map fun c => c.2.request) ∧
      (r.scheduler.workerCrashed order.order worker).1.claimed =
        r.scheduler.claimed.filter fun c => c.2.worker ≠ worker

/-- The scheduler loses no request, and reports none twice. -/
theorem conserves_run (workers batchSize : ℕ) (as : List (SchedulerAction P)) :
    (run act (start workers batchSize) as).Conserves := by
  have h := Accounted.run workers batchSize as
  generalize run act (start workers batchSize) as = r at h
  refine ⟨fun x => ?_, ?_, ?_, fun request hrejected => ?_, fun order worker => ⟨?_, rfl⟩⟩
  · rw [← h.accounts.mem_iff, PreviewScheduler.requests, List.mem_append, List.mem_append, or_assoc]
  · exact (h.accounts.map fun x => x.payload.1).nodup_iff.2 h.numbers
  · have hown : (r.scheduler.claimed.map fun c => c.2.request.key) =
        r.scheduler.claimed.map Prod.fst := List.map_congr_left fun c hc => h.keyed.own c hc
    rw [hown]
    exact h.keyed.nodup
  · have hsubmit := PreviewScheduler.requests_submit r.scheduler request
    rw [hrejected] at hsubmit
    exact hsubmit
  · simp only [PreviewScheduler.workerCrashed, List.map_append, List.map_map]
    refine List.Perm.append_left _ ?_
    rw [show (PendingEntry.request ∘ fun r => (⟨r, true⟩ : PendingEntry (ℕ × P))) = id from rfl,
      List.map_id]
    exact order.order_perm _

/-! ### Versions -/

/-- A newer version of the frame has been accepted. -/
def Stale (r : SchedulerRun P) (key : FrameKey) : Prop :=
  ∃ x ∈ r.accepted, x.key.sequence = key.sequence ∧ x.key.frame = key.frame ∧
    key.version < x.key.version

/-- Nothing is pending, or handed to a worker next, that a newer version has superseded. -/
structure Current (r : SchedulerRun P) : Prop where
  pending : ∀ e ∈ r.scheduler.pending, ¬ r.Stale e.request.key
  handed : ∀ worker credit maxBytes batch s,
    r.scheduler.claimBatch worker credit maxBytes = some (batch, s) →
      ∀ x ∈ batch.frames, ¬ r.Stale x.key

/-- A request that is accepted is not older than what was accepted for its frame, and nothing that
is pending for its frame is older. A worker that crashes was not rendering an older version. -/
def Superseding (r : SchedulerRun P) : SchedulerAction P → Prop
  | .submit request => r.scheduler.isClaimed request.key = true ∨
    ¬ r.Stale request.key ∧ ∀ e ∈ r.scheduler.pending,
      e.request.key.sequence = request.key.sequence → e.request.key.frame = request.key.frame →
        request.key.version ≤ e.request.key.version
  | .workerCrashed _ worker => ∀ c ∈ r.scheduler.claimed, c.2.worker = worker →
    ¬ r.Stale c.2.request.key
  | _ => True

theorem current_iff (h : r.Accounted) :
    r.Current ↔ ∀ e ∈ r.scheduler.pending, ¬ r.Stale e.request.key := by
  refine ⟨Current.pending, fun hpending => ⟨hpending, ?_⟩⟩
  intro worker credit maxBytes batch s hclaim x hx
  obtain ⟨out, hclaimed⟩ := claimed_claimBatch h.keyed hclaim
  obtain ⟨e, he, rfl⟩ := List.mem_map.1 (hclaimed.frames.mem_iff.1 hx)
  exact hpending e (hclaimed.mem_pending.2 (.inl he))

theorem current_of_subset (h : r.Accounted) (hcurrent : r.Current) {r' : SchedulerRun P}
    (h' : r'.Accounted) (haccepted : r'.accepted = r.accepted)
    (hsub : ∀ e ∈ r'.scheduler.pending, e ∈ r.scheduler.pending) : r'.Current := by
  refine (current_iff h').2 fun e he => ?_
  rw [Stale, haccepted]
  exact (current_iff h).1 hcurrent e (hsub e he)

variable {request : FrameRequest P}

/-- A request that is accepted makes what is older stale. -/
theorem stale_accept {key : FrameKey} {r' : SchedulerRun P}
    (haccepted : r'.accepted = r.accepted ++ [request.tag r.serial]) :
    r'.Stale key ↔ r.Stale key ∨ request.key.sequence = key.sequence ∧
      request.key.frame = key.frame ∧ key.version < request.key.version := by
  simp only [Stale, haccepted, List.mem_append, List.mem_singleton, or_and_right, exists_or,
    exists_eq_left, FrameRequest.tag]

/-- What is pending after a submission that is not rejected. -/
theorem act_submit (h : r.Accounted) (hclaimed : r.scheduler.isClaimed request.key ≠ true) :
    (r.act (.submit request)).accepted = r.accepted ++ [request.tag r.serial] ∧
      ∀ e, e ∈ (r.act (.submit request)).scheduler.pending ↔
        e = ⟨request.tag r.serial, request.priority = .seek⟩ ∨
          e ∈ r.scheduler.pending ∧ e.request.key ≠ request.key := by
  have hsubmitted := submitted_submit r.scheduler (request.tag r.serial)
  simp only [act, Nat.add_sub_cancel]
  generalize r.scheduler.submit (request.tag r.serial) = submitted at hsubmitted ⊢
  obtain ⟨s, outcome⟩ := submitted
  cases hsubmitted with
  | inFlight hmem => exact absurd (isClaimed_iff.2 hmem) hclaimed
  | accepted _ hpending =>
    refine ⟨rfl, fun e => ?_⟩
    have hother (he : e ∈ r.scheduler.pending) : e.request.key ≠ request.key := fun heq =>
      hpending (List.mem_map.2 ⟨e, he, heq⟩)
    simp only [List.mem_append, List.mem_singleton]
    constructor
    · rintro (he | he)
      · exact .inr ⟨he, hother he⟩
      · exact .inl he
    · rintro (he | ⟨he, -⟩)
      · exact .inr he
      · exact .inl he
  | replaced old _ hold hkey =>
    exact ⟨rfl, fun e => mem_replacePending h.keyed.nodup_pending
      (List.mem_map.2 ⟨old, hold, hkey⟩)⟩

theorem current_act_iff (a : SchedulerAction P) (h : r.Accounted) (hcurrent : r.Current) :
    (r.act a).Current ↔ r.Superseding a := by
  have h' := h.act a
  cases a with
  | submit request =>
    by_cases hclaimed : r.scheduler.isClaimed request.key = true
    · refine iff_of_true ?_ (.inl hclaimed)
      have hrejected : r.scheduler.submit (request.tag r.serial) = (r.scheduler, .inFlight) :=
        if_pos hclaimed
      exact current_of_subset h hcurrent h' (by simp only [act, hrejected])
        (by simp only [act, hrejected, imp_self, implies_true])
    · obtain ⟨haccepted, hpending⟩ := act_submit h hclaimed
      rw [current_iff h', Superseding, or_iff_right hclaimed]
      simp only [hpending, stale_accept haccepted, or_imp, forall_and, forall_eq, not_or, and_imp]
      have hcurrent' := (current_iff h).1 hcurrent
      constructor
      · rintro ⟨⟨hnew, -⟩, -, hothers⟩
        refine ⟨hnew, fun e he hsequence hframe => ?_⟩
        by_cases hkey : e.request.key = request.key
        · rw [hkey]
        · exact not_lt.1 fun hlt => hothers e he hkey ⟨hsequence.symm, hframe.symm, hlt⟩
      · rintro ⟨hnew, hothers⟩
        refine ⟨⟨hnew, fun e he _ => hcurrent' e he⟩, fun hself => lt_irrefl _ hself.2.2, ?_⟩
        rintro e he - ⟨hsequence, hframe, hlt⟩
        exact absurd (hothers e he hsequence.symm hframe.symm) (not_le.2 hlt)
  | workerCrashed order worker =>
    have hmem {e : PendingEntry (ℕ × P)} :
        e ∈ (r.act (.workerCrashed order worker)).scheduler.pending
        ↔ e ∈ r.scheduler.pending ∨ e.anyWorker = true ∧
          ∃ k, (k, (⟨worker, e.request⟩ : Claim (ℕ × P))) ∈ r.scheduler.claimed :=
      mem_workerCrashed order.order_perm
    rw [current_iff h', Superseding]
    constructor
    · rintro hpending ⟨k, w, request⟩ hc rfl
      exact hpending ⟨request, true⟩ (hmem.2 (.inr ⟨rfl, k, hc⟩))
    · intro hclaims e he
      rcases hmem.1 he with he | ⟨-, k, hk⟩
      · exact (current_iff h).1 hcurrent e he
      · exact hclaims _ hk rfl
  | claimBatch worker credit maxBytes =>
    refine iff_of_true (current_of_subset h hcurrent h' ?_ fun e he => ?_) trivial
    · simp only [act]
      split <;> rfl
    · rcases hclaim : r.scheduler.claimBatch worker credit maxBytes with _ | ⟨batch, s⟩
      · simpa only [act, hclaim] using he
      · obtain ⟨out, hclaimed⟩ := claimed_claimBatch h.keyed hclaim
        simp only [act, hclaim] at he
        exact hclaimed.mem_pending.2 (.inr he)
  | frameDone key => exact iff_of_true (current_of_subset h hcurrent h' rfl fun e he => he) trivial
  | frameFailed key =>
    exact iff_of_true (current_of_subset h hcurrent h' rfl fun e he => he) trivial
  | cancelKey key =>
    refine iff_of_true (current_of_subset h hcurrent h' rfl fun e he => ?_) trivial
    simp only [act, cancelKey] at he
    split at he
    · exact List.mem_of_mem_filter he
    · exact he
  | cancelSequence order sequence =>
    exact iff_of_true (current_of_subset h hcurrent h' rfl fun e he => List.mem_of_mem_filter he)
      trivial
  | setWorkerCount workers =>
    exact iff_of_true (current_of_subset h hcurrent h' rfl fun e he => he) trivial

/-- Exactly the runs in which every state is current. -/
theorem current_run (workers batchSize : ℕ) (as : List (SchedulerAction P)) :
    (∀ bs cs, as = bs ++ cs → (run act (start workers batchSize) bs).Current) ↔
      Permitted act Superseding (start workers batchSize) as := by
  have hstart := Accounted.start (P := P) workers batchSize
  exact forall_run_iff (fun r a h => Accounted.act h a) (fun r a h hcurrent =>
    current_act_iff a h hcurrent) hstart ((current_iff hstart).2 fun e he =>
      absurd he List.not_mem_nil)

/-- A frame is requested, claimed by the only worker and done before it is requested with the next
version. -/
def reRequested : List (SchedulerAction ℕ) :=
  [.submit ⟨⟨0, 7, 1⟩, .playback, 0, 0, 100⟩, .claimBatch 0 2 100, .frameDone ⟨0, 7, 1⟩,
    .submit ⟨⟨0, 7, 2⟩, .playback, 0, 0, 100⟩]

theorem current_run_reRequested :
    ∀ bs cs, reRequested = bs ++ cs → (run act (start 1 4) bs).Current := by
  refine (current_run 1 4 reRequested).2 ⟨.inr ⟨?_, ?_⟩, trivial, trivial, .inr ⟨?_, ?_⟩, trivial⟩
  · rintro ⟨x, hx, -⟩
    exact absurd hx List.not_mem_nil
  · intro e he
    exact absurd he List.not_mem_nil
  · have haccepted : (run act (start 1 4) (reRequested.take 3)).accepted =
        [⟨⟨0, 7, 1⟩, .playback, 0, (0, 0), 100⟩] := by decide +kernel
    rintro ⟨x, hx, -, -, hlt⟩
    obtain rfl := List.mem_singleton.1 (haccepted ▸ hx)
    exact absurd hlt (by decide)
  · have hnone : (run act (start 1 4) (reRequested.take 3)).scheduler.pending = [] := by
      decide +kernel
    intro e he
    exact absurd (hnone ▸ he) List.not_mem_nil

/-- A frame is requested again with the next version while the older request is pending. The older
request stays pending. -/
theorem resubmit_leaves_stale :
    ¬ ∀ as : List (SchedulerAction ℕ), (run act (start 1 4) as).Current := by
  intro h
  have hpending := (h [.submit ⟨⟨0, 7, 1⟩, .playback, 0, 0, 100⟩,
    .submit ⟨⟨0, 7, 2⟩, .playback, 0, 0, 100⟩]).pending
  have hmem : (⟨⟨⟨0, 7, 1⟩, .playback, 0, (0, 0), 100⟩, false⟩ : PendingEntry (ℕ × ℕ)) ∈
      (run act (start 1 4) [.submit ⟨⟨0, 7, 1⟩, .playback, 0, 0, 100⟩,
        .submit ⟨⟨0, 7, 2⟩, .playback, 0, 0, 100⟩]).scheduler.pending := List.mem_cons_self
  exact hpending _ hmem ⟨⟨⟨0, 7, 2⟩, .playback, 0, (1, 0), 100⟩, by decide, rfl, rfl,
    by decide⟩

end SchedulerRun

end Oak.Render
