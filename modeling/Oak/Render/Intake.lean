import Oak.Render.Scheduler
import Oak.Render.Wire

/-!
# Tickets and their requests

The half of the process dispatcher (`oak-render/src/procpool.rs`) that knows no process: posted jobs
become tickets with a request in the scheduler, and answers, cancellations and crashes take the two
out again.

* `Intake.Filed` says that the requests of the scheduler and the open tickets are the same ones.

## Main results

* `Intake.Filed.post`, `cancelFrame`, `cancelSequence`, `close`, `crash`, `claim`, `drop`: every
  operation keeps them so.
-/

namespace Oak.Render

variable {F : Type*}

/-- `JobSchedule`. -/
structure JobSchedule where
  priority : FramePriority
  frame : Option ℤ
  distance : ℤ
  version : ℕ
  deriving DecidableEq, Repr

/-- `JobSchedule::seek`. -/
def JobSchedule.seek : JobSchedule := ⟨.seek, none, 0, 0⟩

/-- `Job`. -/
structure Job (F : Type*) where
  nodeIdentity : ℕ
  params : VideoTicketParams F
  audio : Option (AudioTicketParams F)
  schedule : JobSchedule

/-- `PendingTicket`. -/
structure PendingTicket (F : Type*) where
  key : FrameKey
  params : VideoTicketParams F
  audio : Option (AudioTicketParams F)

/-- The scheduler and the open tickets of `Inner`. -/
structure Intake (F : Type*) where
  scheduler : PreviewScheduler ℤ
  tickets : List (ℤ × PendingTicket F)
  nextTicket : ℤ

/-- The largest audio range that goes through a slot. -/
def maxAudioSlotBytes : ℕ := 64 * 1024 * 1024

/-- The audio ranges that `post` refuses: too large, or invalid. -/
def tooLarge (audio : AudioTicketParams F) : Bool :=
  match audio.byteLen with
  | some bytes => maxAudioSlotBytes < bytes
  | none => true

/-- The key of a job's request. -/
def Job.key (job : Job F) (id : ℤ) : FrameKey :=
  ⟨job.nodeIdentity, job.schedule.frame.getD id, job.schedule.version⟩

/-- The slot bytes of a job's request. -/
def Job.slotBytes (job : Job F) (slotFormat : ℤ) : ℕ :=
  match job.audio with
  | some audio => audio.byteLen.getD 0
  | none =>
    slotBytesFor job.params.renderSize.1 job.params.renderSize.2
      (ticketWireFormat job.params slotFormat)

/-- In a table whose keys are used once, the first entry of a key is the only one. -/
theorem find_fst_eq_some_iff {α β : Type*} [DecidableEq α] {l : List (α × β)}
    (hnodup : (l.map Prod.fst).Nodup) {a : α} {b : β} :
    (l.find? fun x => x.1 = a).map Prod.snd = some b ↔ (a, b) ∈ l := by
  rw [Option.map_eq_some_iff]
  constructor
  · rintro ⟨x, hfind, rfl⟩
    have hx : x.1 = a := by simpa using List.find?_some hfind
    exact hx ▸ List.mem_of_find?_eq_some hfind
  · intro hmem
    rcases hfind : l.find? fun x => x.1 = a with _ | x
    · exact absurd (List.find?_eq_none.1 hfind _ hmem) (by simp)
    · have hx : x.1 = a := by simpa using List.find?_some hfind
      have heq := List.inj_on_of_nodup_map hnodup (List.mem_of_find?_eq_some hfind) hmem hx
      exact ⟨x, hfind, congrArg Prod.snd heq⟩

theorem cons_filter_perm {α β : Type*} [DecidableEq β] {f : α → β} {l : List α} {a : α}
    (hnodup : (l.map f).Nodup) (ha : a ∈ l) : (a :: l.filter fun x => f x ≠ f a).Perm l := by
  induction l with
  | nil => exact absurd ha List.not_mem_nil
  | cons x l ih =>
    rw [List.map_cons, List.nodup_cons] at hnodup
    rcases List.mem_cons.1 ha with rfl | hmem
    · have hrest : l.filter (fun y => f y ≠ f a) = l :=
        List.filter_eq_self.2 fun y hy => decide_eq_true fun heq =>
          hnodup.1 (List.mem_map.2 ⟨y, hy, heq⟩)
      rw [List.filter_cons_of_neg (by simp), hrest]
    · have hx : f x ≠ f a := fun heq => hnodup.1 (List.mem_map.2 ⟨a, hmem, heq.symm⟩)
      rw [List.filter_cons_of_pos (by simpa using hx)]
      exact (List.Perm.swap _ _ _).trans ((ih hnodup.2 hmem).cons x)

variable {s' : PreviewScheduler ℤ} {s : PreviewScheduler ℤ} {r : FrameRequest ℤ}

variable {out : List (PendingEntry ℤ)} {batch : ClaimedBatch ℤ} {x y : ℤ × PendingTicket F}

namespace Intake

variable {t : Intake F}

/-- The ticket of an id. -/
def ticket (t : Intake F) (id : ℤ) : Option (PendingTicket F) :=
  (t.tickets.find? fun x => x.1 = id).map Prod.snd

/-- A ticket is taken off the table. -/
def removeTicket (t : Intake F) (id : ℤ) : Intake F :=
  { t with tickets := t.tickets.filter fun x => x.1 ≠ id }

/-- `post`, without the pump: the ticket that was replaced or not taken is removed again. -/
def post (t : Intake F) (slotFormat : ℤ) (job : Job F) : Intake F :=
  if job.audio.any tooLarge then t
  else
    let id := t.nextTicket
    let request : FrameRequest ℤ := ⟨job.key id, job.schedule.priority, job.schedule.distance, id,
      job.slotBytes slotFormat⟩
    let submitted := t.scheduler.submit request
    let opened : Intake F := ⟨submitted.1, t.tickets ++ [(id, ⟨job.key id, job.params, job.audio⟩)],
      id + 1⟩
    match submitted.2 with
    | .accepted => opened
    | .replaced old => opened.removeTicket old.payload
    | .inFlight => opened.removeTicket id

/-- `cancel_frame`: the ticket behind the key goes with its request. -/
def cancelFrame (t : Intake F) (key : FrameKey) : Intake F :=
  let cancelled := t.scheduler.cancelKey key
  if cancelled.2 then
    let s := { t with scheduler := cancelled.1 }
    match t.tickets.find? fun x => x.2.key = key with
    | some x => s.removeTicket x.1
    | none => s
  else t

/-- The tickets of requests are taken off the table. -/
def removeTickets (t : Intake F) (requests : List (FrameRequest ℤ)) : Intake F :=
  requests.foldl (fun t r => t.removeTicket r.payload) t

/-- `cancel_preview_sequence`. -/
def cancelSequence (order : List (FrameRequest ℤ) → List (FrameRequest ℤ)) (t : Intake F)
    (sequence : ℕ) : Intake F :=
  let cancelled := t.scheduler.cancelSequence order sequence
  { t with scheduler := cancelled.1 }.removeTickets cancelled.2

/-- A ticket is answered: it is taken off the table, and its claim is dropped. -/
def close (t : Intake F) (id : ℤ) : Intake F :=
  match t.ticket id with
  | some pt => { t.removeTicket id with scheduler := t.scheduler.frameDone pt.key }
  | none => t

/-- The claims of a worker come back as pending. -/
def crash (order : List (FrameRequest ℤ) → List (FrameRequest ℤ)) (t : Intake F) (worker : ℕ) :
    Intake F × List (FrameRequest ℤ) :=
  let crashed := t.scheduler.workerCrashed order worker
  ({ t with scheduler := crashed.1 }, crashed.2)

/-- Requests are dropped for good, with their tickets. -/
def drop (t : Intake F) (requests : List (FrameRequest ℤ)) : Intake F :=
  requests.foldl (fun t r =>
    { t with scheduler := (t.scheduler.cancelKey r.key).1 }.removeTicket r.payload) t

/-- The claims of a worker come back as pending, or are dropped. -/
def crashed (order : List (FrameRequest ℤ) → List (FrameRequest ℤ)) (t : Intake F)
    (worker : ℕ) (dropped : Bool) : Intake F :=
  let crashed := t.crash order worker
  if dropped then crashed.1.drop crashed.2 else crashed.1

/-- All requests of the scheduler. -/
def requests (s : PreviewScheduler ℤ) : List (FrameRequest ℤ) :=
  s.pending.map PendingEntry.request ++ s.claimed.map fun c => c.2.request

/-- A request as a ticket id with a key. -/
def label (r : FrameRequest ℤ) : ℤ × FrameKey := (r.payload, r.key)

/-- The requests of the scheduler are those of the open tickets, whose ids are all used once. -/
structure Filed (t : Intake F) : Prop where
  keyed : t.scheduler.Keyed
  labels : ((requests t.scheduler).map label).Perm (t.tickets.map fun x => (x.1, x.2.key))
  ids : (t.tickets.map Prod.fst).Nodup
  fresh : ∀ x ∈ t.tickets, x.1 < t.nextTicket

variable {order : List (FrameRequest ℤ) → List (FrameRequest ℤ)}

theorem keys_requests (h : s.Keyed) : ((requests s).map FrameRequest.key).Nodup := by
  have hclaimed : s.claimed.map (fun c => c.2.request.key) = s.claimed.map Prod.fst :=
    List.map_congr_left h.own
  rw [requests, List.map_append, List.map_map, List.map_map]
  exact hclaimed ▸ h.nodup

theorem mem_requests :
    r ∈ requests s ↔ (∃ e ∈ s.pending, e.request = r) ∨ ∃ c ∈ s.claimed, c.2.request = r := by
  rw [requests, List.mem_append, List.mem_map, List.mem_map]

namespace Filed

section

variable (h : t.Filed)

include h

theorem keys_nodup : (t.tickets.map fun x => x.2.key).Nodup := by
  have hkeys := (h.labels.map Prod.snd).nodup_iff.1
  rw [List.map_map, List.map_map] at hkeys
  exact hkeys (keys_requests h.keyed)

theorem exists_ticket (hr : r ∈ requests t.scheduler) :
    ∃ x ∈ t.tickets, x.1 = r.payload ∧ x.2.key = r.key := by
  have hmem := h.labels.subset (List.mem_map_of_mem hr)
  obtain ⟨x, hx, heq⟩ := List.mem_map.1 hmem
  obtain ⟨hid, hkey⟩ := Prod.mk.inj heq
  exact ⟨x, hx, hid, hkey⟩

theorem exists_request {x : ℤ × PendingTicket F} (hx : x ∈ t.tickets) :
    ∃ r ∈ requests t.scheduler, r.payload = x.1 ∧ r.key = x.2.key := by
  have hmem := h.labels.symm.subset (List.mem_map_of_mem hx)
  obtain ⟨r, hr, heq⟩ := List.mem_map.1 hmem
  obtain ⟨hid, hkey⟩ := Prod.mk.inj heq
  exact ⟨r, hr, hid, hkey⟩

theorem eq_of_id (hx : x ∈ t.tickets) (hy : y ∈ t.tickets) (heq : x.1 = y.1) :
    x = y := List.inj_on_of_nodup_map h.ids hx hy heq

theorem eq_of_key (hx : x ∈ t.tickets) (hy : y ∈ t.tickets) (heq : x.2.key = y.2.key) : x = y :=
  List.inj_on_of_nodup_map h.keys_nodup hx hy heq

theorem request_unique {r r' : FrameRequest ℤ} (hr : r ∈ requests t.scheduler)
    (hr' : r' ∈ requests t.scheduler) (heq : r.payload = r'.payload) : r = r' := by
  obtain ⟨x, hx, hid, hkey⟩ := h.exists_ticket hr
  obtain ⟨y, hy, hid', hkey'⟩ := h.exists_ticket hr'
  obtain rfl := h.eq_of_id hx hy (hid.trans (heq.trans hid'.symm))
  exact List.inj_on_of_nodup_map (keys_requests h.keyed) hr hr' (hkey.symm.trans hkey')

theorem ticket_eq_some_iff {id : ℤ} {pt : PendingTicket F} :
    t.ticket id = some pt ↔ (id, pt) ∈ t.tickets := find_fst_eq_some_iff h.ids

theorem payloads_nodup : ((requests t.scheduler).map FrameRequest.payload).Nodup := by
  have hpayloads := (h.labels.map Prod.fst).nodup_iff
  rw [List.map_map, List.map_map] at hpayloads
  exact hpayloads.2 h.ids

theorem filter (p : ℤ × FrameKey → Bool) (hkeyed : s'.Keyed)
    (hlabels : ((requests s').map label).Perm (((requests t.scheduler).map label).filter p)) :
    Filed (F := F) ⟨s', t.tickets.filter fun x => p (x.1, x.2.key), t.nextTicket⟩ where
  keyed := hkeyed
  labels := by
    have hfiltered := hlabels.trans (h.labels.filter p)
    rwa [List.filter_map] at hfiltered
  ids := h.ids.sublist (List.filter_sublist.map _)
  fresh x hx := h.fresh x (List.mem_of_mem_filter hx)

theorem scheduler_perm (hkeyed : s'.Keyed) (hperm : (requests s').Perm (requests t.scheduler)) :
    Filed { t with scheduler := s' } where
  keyed := hkeyed
  labels := (hperm.map label).trans h.labels
  ids := h.ids
  fresh := h.fresh

theorem open_ticket (hpayload : r.payload = t.nextTicket) (hkeyed : s'.Keyed)
    (hperm : (requests s').Perm (r :: requests t.scheduler)) (params : VideoTicketParams F)
    (audio : Option (AudioTicketParams F)) :
    Filed (F := F) ⟨s', t.tickets ++ [(t.nextTicket, ⟨r.key, params, audio⟩)],
      t.nextTicket + 1⟩ where
  keyed := hkeyed
  labels := by
    have hlabels := (hperm.map label).trans ((h.labels.cons (label r)))
    rw [List.map_append, List.map_singleton]
    refine hlabels.trans ?_
    rw [label, hpayload]
    exact (List.perm_append_singleton _ _).symm
  ids := by
    rw [List.map_append, List.map_singleton, ← List.concat_eq_append]
    refine h.ids.concat fun hmem => ?_
    obtain ⟨x, hx, heq⟩ := List.mem_map.1 hmem
    exact absurd (h.fresh x hx) (by rw [heq]; exact lt_irrefl _)
  fresh x hx := by
    rcases List.mem_append.1 hx with hx | hx
    · exact (h.fresh x hx).trans (lt_add_one _)
    · rw [List.mem_singleton.1 hx]
      exact lt_add_one _

theorem reopen (pt : PendingTicket F) :
    Filed (Intake.removeTicket ⟨t.scheduler, t.tickets ++ [(t.nextTicket, pt)], t.nextTicket + 1⟩
      t.nextTicket) := by
  have hsame : (t.tickets ++ [(t.nextTicket, pt)]).filter (fun x => x.1 ≠ t.nextTicket) =
      t.tickets := by
    rw [List.filter_append, List.filter_eq_self.2, List.filter_singleton]
    · simp
    · exact fun x hx => decide_eq_true (h.fresh x hx).ne
  rw [removeTicket, hsame]
  exact ⟨h.keyed, h.labels, h.ids, fun x hx => (h.fresh x hx).trans (lt_add_one _)⟩

end

end Filed

/-- The requests after a submission: the request comes first, and the replaced one is gone. -/
theorem requests_accepted (r : FrameRequest ℤ) (anyWorker : Bool) :
    (requests { s with pending := s.pending ++ [⟨r, anyWorker⟩] }).Perm (r :: requests s) := by
  rw [requests, requests, List.map_append, List.append_assoc]
  exact List.perm_middle

variable (rs : List (FrameRequest ℤ))

theorem tickets_removeTickets (t : Intake F) :
    t.removeTickets rs = { t with
      tickets := t.tickets.filter fun x => x.1 ∉ rs.map FrameRequest.payload } := by
  induction rs generalizing t with
  | nil => simp [removeTickets]
  | cons r rs ih =>
    have hcons : t.removeTickets (r :: rs) = (t.removeTicket r.payload).removeTickets rs := rfl
    rw [hcons, ih, removeTicket]
    simp only [List.filter_filter, List.map_cons, List.mem_cons, not_or, Bool.decide_and,
      Bool.and_comm, ne_eq]

/-- A replacement takes the place of the entry with its key. -/
theorem replacePending_perm {entry : PendingEntry ℤ} {es : List (PendingEntry ℤ)}
    (hnodup : (es.map fun e => e.request.key).Nodup)
    (hmem : entry.request.key ∈ es.map fun e => e.request.key) :
    (PreviewScheduler.replacePending entry es).Perm
      (entry :: es.filter fun e => e.request.key ≠ entry.request.key) := by
  induction es with
  | nil => exact absurd hmem List.not_mem_nil
  | cons e es ih =>
    rw [List.map_cons, List.nodup_cons] at hnodup
    rw [PreviewScheduler.replacePending]
    split_ifs with h
    · have hrest : es.filter (fun e => e.request.key ≠ entry.request.key) = es :=
        List.filter_eq_self.2 fun y hy => decide_eq_true fun heq =>
          hnodup.1 (List.mem_map.2 ⟨y, hy, heq.trans h.symm⟩)
      rw [List.filter_cons_of_neg (by simp [h]), hrest]
    · rw [List.map_cons, List.mem_cons] at hmem
      rw [List.filter_cons_of_pos (by simpa using h)]
      exact ((ih hnodup.2 (hmem.resolve_left (Ne.symm h))).cons e).trans (.swap _ _ _)

theorem requests_erasePending (hs : s.Keyed) {e : PendingEntry ℤ} (he : e ∈ s.pending) :
    (e.request :: requests { s with
      pending := s.pending.filter fun e' => e'.request.key ≠ e.request.key }).Perm
      (requests s) := by
  have hperm := cons_filter_perm (List.nodup_append.1 hs.nodup).1 he
  exact (hperm.map PendingEntry.request).append_right (s.claimed.map fun c => c.2.request)

theorem requests_frameDone (hs : s.Keyed) {c : FrameKey × Claim ℤ} (hc : c ∈ s.claimed) :
    (c.2.request :: requests (s.frameDone c.1)).Perm (requests s) := by
  have hperm := cons_filter_perm (List.nodup_append.1 hs.nodup).2.1 hc
  refine List.perm_middle.symm.trans ?_
  exact (hperm.map fun c => c.2.request).append_left (s.pending.map PendingEntry.request)

theorem crash_perm (horder : ∀ l, (order l).Perm l) (s : PreviewScheduler ℤ) (worker : ℕ) :
    (requests (s.workerCrashed order worker).1).Perm (requests s) := by
  simp only [requests, PreviewScheduler.workerCrashed, List.map_append, List.map_map,
    List.append_assoc]
  refine List.Perm.append_left _ ?_
  have hback : ((order ((s.claimed.filter fun c => c.2.worker = worker).map
      fun c => c.2.request)).map (PendingEntry.request ∘ fun r => ⟨r, true⟩)).Perm
      ((s.claimed.filter fun c => c.2.worker = worker).map fun c => c.2.request) := by
    refine ((horder _).map _).trans (List.Perm.of_eq ?_)
    rw [List.map_map]
    rfl
  refine (hback.append_right _).trans ?_
  rw [← List.map_append]
  refine List.Perm.map _ (List.Perm.trans (List.Perm.of_eq ?_)
    (List.filter_append_perm (fun c => c.2.worker = worker) s.claimed))
  simp

namespace Filed

section

variable (h : t.Filed)

include h

/-- A request that leaves the scheduler takes its ticket with it. -/
theorem removed (hkeyed : s'.Keyed) (hperm : (r :: requests s').Perm (requests t.scheduler)) :
    Filed (Intake.removeTicket { t with scheduler := s' } r.payload) := by
  have hne (l) (hl : l ∈ (requests s').map label) : l.1 ≠ r.payload := by
    obtain ⟨r', hr', rfl⟩ := List.mem_map.1 hl
    have hcons := (hperm.map FrameRequest.payload).nodup_iff.2 h.payloads_nodup
    rw [List.map_cons, List.nodup_cons] at hcons
    exact fun heq => hcons.1 (List.mem_map.2 ⟨r', hr', heq⟩)
  refine h.filter (fun l => l.1 ≠ r.payload) hkeyed ?_
  have hfilter := (hperm.map label).filter fun l => decide (l.1 ≠ r.payload)
  rw [List.map_cons, List.filter_cons_of_neg (by simp [label]),
    List.filter_eq_self.2 fun l hl => decide_eq_true (hne l hl)] at hfilter
  exact hfilter

theorem post (slotFormat : ℤ) (job : Job F) : Filed (t.post slotFormat job) := by
  rw [Intake.post]
  split_ifs
  · exact h
  · dsimp only
    generalize hr : (⟨job.key t.nextTicket, job.schedule.priority, job.schedule.distance,
      t.nextTicket, job.slotBytes slotFormat⟩ : FrameRequest ℤ) = r
    have hpayload : r.payload = t.nextTicket := hr ▸ rfl
    have hkey : job.key t.nextTicket = r.key := hr ▸ rfl
    have hsubmitted := PreviewScheduler.submitted_submit t.scheduler r
    have hkeyed := h.keyed.submit r
    rw [hkey]
    generalize t.scheduler.submit r = submitted at hsubmitted hkeyed ⊢
    obtain ⟨s', outcome⟩ := submitted
    cases hsubmitted with
    | inFlight => exact h.reopen _
    | accepted => exact h.open_ticket hpayload hkeyed (requests_accepted _ _) job.params job.audio
    | replaced old hclaimed hold hold_key =>
      -- the old request goes first, then the ticket is opened
      have hkeyed' : PreviewScheduler.Keyed { t.scheduler with
          pending := t.scheduler.pending.filter fun e => e.request.key ≠ old.request.key } :=
        h.keyed.sublist List.filter_sublist (.refl _)
      have hremoved := h.removed hkeyed' (requests_erasePending h.keyed hold)
      have hmem : r.key ∈ t.scheduler.pending.map fun e => e.request.key :=
        List.mem_map.2 ⟨old, hold, hold_key⟩
      have hperm : (PreviewScheduler.replacePending ⟨r, r.priority = .seek⟩
          t.scheduler.pending).Perm (⟨r, r.priority = .seek⟩ ::
            t.scheduler.pending.filter fun e => e.request.key ≠ r.key) :=
        replacePending_perm (List.nodup_append.1 h.keyed.nodup).1 hmem
      have hopened := hremoved.open_ticket hpayload hkeyed (by
        rw [hold_key]
        exact (hperm.map PendingEntry.request).append_right
          (t.scheduler.claimed.map fun c => c.2.request)) job.params job.audio
      have hid : old.request.payload ≠ t.nextTicket := by
        obtain ⟨x, hx, hid, -⟩ := h.exists_ticket (mem_requests.2 (.inl ⟨old, hold, rfl⟩))
        exact hid ▸ (h.fresh x hx).ne
      have hsplit : (t.tickets ++ [(t.nextTicket, (⟨r.key, job.params, job.audio⟩ :
          PendingTicket F))]).filter (fun x => x.1 ≠ old.request.payload) =
          t.tickets.filter (fun x => x.1 ≠ old.request.payload) ++
            [(t.nextTicket, ⟨r.key, job.params, job.audio⟩)] := by
        rw [List.filter_append, List.filter_singleton]
        simp [hid.symm]
      simp only [removeTicket] at hopened
      rw [← hsplit] at hopened
      exact hopened

/-- A key that is cancelled is the key of a request, which goes. -/
theorem cancelKey_perm {key : FrameKey} (hkey : (t.scheduler.cancelKey key).2 = true) :
    ∃ r ∈ requests t.scheduler, r.key = key ∧
      (r :: requests (t.scheduler.cancelKey key).1).Perm (requests t.scheduler) := by
  rw [PreviewScheduler.cancelKey] at hkey ⊢
  split_ifs at hkey ⊢ with hpending
  · obtain ⟨e, he, heq⟩ := List.any_eq_true.1 hpending
    obtain rfl : e.request.key = key := of_decide_eq_true heq
    exact ⟨e.request, mem_requests.2 (.inl ⟨e, he, rfl⟩), rfl, requests_erasePending h.keyed he⟩
  · obtain ⟨c, hc, rfl⟩ := List.mem_map.1 (PreviewScheduler.isClaimed_iff.1 hkey)
    exact ⟨c.2.request, mem_requests.2 (.inr ⟨c, hc, rfl⟩), h.keyed.own c hc,
      requests_frameDone h.keyed hc⟩

theorem cancelFrame (key : FrameKey) : Filed (t.cancelFrame key) := by
  rw [Intake.cancelFrame]
  dsimp only
  split_ifs with hcancelled
  · obtain ⟨r, hr, rfl, hperm⟩ := h.cancelKey_perm hcancelled
    have hremoved := h.removed (h.keyed.cancelKey r.key) hperm
    obtain ⟨x, hx, hid, hkey⟩ := h.exists_ticket hr
    rcases hfind : t.tickets.find? fun x => x.2.key = r.key with _ | y
    · exact absurd (List.find?_eq_none.1 hfind x hx) (by simp [hkey])
    · have hy : y.2.key = r.key := by simpa using List.find?_some hfind
      obtain rfl := h.eq_of_key (List.mem_of_find?_eq_some hfind) hx (hy.trans hkey.symm)
      rw [hfind]
      dsimp only
      rw [hid]
      exact hremoved
  · exact h

theorem cancelSequence (horder : ∀ l, (order l).Perm l) (sequence : ℕ) :
    Filed (t.cancelSequence order sequence) := by
  have hdropped (r : FrameRequest ℤ) :
      r ∈ (t.scheduler.cancelSequence order sequence).2 ↔
        r ∈ requests t.scheduler ∧ r.key.sequence = sequence := by
    simp only [PreviewScheduler.cancelSequence, List.mem_append, (horder _).mem_iff, mem_requests,
      List.mem_map, List.mem_filter, decide_eq_true_eq]
    constructor
    · rintro (⟨e, ⟨he, hseq⟩, rfl⟩ | ⟨c, ⟨hc, hseq⟩, rfl⟩)
      · exact ⟨.inl ⟨e, he, rfl⟩, hseq⟩
      · exact ⟨.inr ⟨c, hc, rfl⟩, hseq⟩
    · rintro ⟨⟨e, he, rfl⟩ | ⟨c, hc, rfl⟩, hseq⟩
      · exact .inl ⟨e, ⟨he, hseq⟩, rfl⟩
      · exact .inr ⟨c, ⟨hc, hseq⟩, rfl⟩
  have hgone (x) (hx : x ∈ t.tickets) :
      x.1 ∈ (t.scheduler.cancelSequence order sequence).2.map FrameRequest.payload ↔
        x.2.key.sequence = sequence := by
    obtain ⟨r, hr, hid, hkey⟩ := h.exists_request hx
    rw [List.mem_map, ← hkey]
    constructor
    · rintro ⟨r', hr', heq⟩
      obtain ⟨hmem, hseq⟩ := (hdropped r').1 hr'
      rwa [h.request_unique hr hmem (hid.trans heq.symm)]
    · exact fun hseq => ⟨r, (hdropped r).2 ⟨hr, hseq⟩, hid⟩
  have hlabels : ((requests (t.scheduler.cancelSequence order sequence).1).map label).Perm
      (((requests t.scheduler).map label).filter fun l => l.2.sequence ≠ sequence) := by
    rw [List.filter_map, requests, requests, List.filter_append, List.filter_map, List.filter_map]
    exact .refl _
  have hfiltered := h.filter (fun l => l.2.sequence ≠ sequence)
    (h.keyed.cancelSequence order sequence) hlabels
  rw [Intake.cancelSequence, tickets_removeTickets]
  have hsame : t.tickets.filter (fun x => x.1 ∉
      (t.scheduler.cancelSequence order sequence).2.map FrameRequest.payload) =
      t.tickets.filter fun x => x.2.key.sequence ≠ sequence :=
    List.filter_congr fun x hx => by simp only [hgone x hx, ne_eq]
  dsimp only
  rw [hsame]
  exact hfiltered

/-- An answered ticket was claimed. -/
theorem close {id : ℤ}
    (hclaimed : ∀ pt, (id, pt) ∈ t.tickets → pt.key ∈ t.scheduler.claimed.map Prod.fst) :
    Filed (t.close id) := by
  rw [Intake.close]
  rcases hticket : t.ticket id with _ | pt
  · exact h
  · have hmem := h.ticket_eq_some_iff.1 hticket
    obtain ⟨c, hc, hkey⟩ := List.mem_map.1 (hclaimed pt hmem)
    have hremoved := h.removed (h.keyed.frameDone c.1) (requests_frameDone h.keyed hc)
    obtain ⟨x, hx, hid, hkey'⟩ := h.exists_ticket (mem_requests.2 (.inr ⟨c, hc, rfl⟩))
    have hx' : x = (id, pt) :=
      h.eq_of_key hx hmem (hkey'.trans ((h.keyed.own c hc).trans hkey))
    rw [← hid, hx', hkey] at hremoved
    exact hremoved

theorem crash (horder : ∀ l, (order l).Perm l) (worker : ℕ) : Filed (t.crash order worker).1 :=
  h.scheduler_perm (h.keyed.workerCrashed horder worker) (crash_perm horder _ _)

theorem claim {worker credit : ℕ} (hclaimed : t.scheduler.Claimed worker credit batch s' out) :
    Filed { t with scheduler := s' } := by
  refine h.scheduler_perm (hclaimed.keyed h.keyed) ?_
  have hcut := hclaimed.cut.map PendingEntry.request
  rw [List.map_append] at hcut
  have hnew : (out.map fun e => (e.request.key, (⟨worker, e.request⟩ : Claim ℤ))).map
      (fun c => c.2.request) = out.map PendingEntry.request := by
    rw [List.map_map]
    rfl
  rw [requests, requests, hclaimed.claimed, List.map_append, hnew]
  have hswap : (s'.pending.map PendingEntry.request ++ (t.scheduler.claimed.map
      (fun c => c.2.request) ++ out.map PendingEntry.request)).Perm
      (out.map PendingEntry.request ++ s'.pending.map PendingEntry.request ++
        t.scheduler.claimed.map fun c => c.2.request) := by
    rw [← List.append_assoc, List.append_assoc (out.map _)]
    exact List.perm_append_comm
  exact hswap.trans (hcut.append_right _)

theorem drop {rs : List (FrameRequest ℤ)} (hsub : rs ⊆ requests t.scheduler)
    (hnodup : (rs.map FrameRequest.key).Nodup) : Filed (t.drop rs) := by
  induction rs generalizing t with
  | nil => exact h
  | cons r rs ih =>
    rw [List.map_cons, List.nodup_cons] at hnodup
    have hcons : t.drop (r :: rs) = Intake.drop (Intake.removeTicket
        { t with scheduler := (t.scheduler.cancelKey r.key).1 } r.payload) rs := rfl
    have hr := hsub List.mem_cons_self
    have hcancelled : (t.scheduler.cancelKey r.key).2 = true := by
      rw [PreviewScheduler.cancelKey]
      rcases mem_requests.1 hr with ⟨e, he, heq⟩ | ⟨c, hc, heq⟩
      · rw [if_pos (List.any_eq_true.2 ⟨e, he, decide_eq_true (congrArg _ heq)⟩)]
      · split_ifs
        · rfl
        · refine PreviewScheduler.isClaimed_iff.2 (List.mem_map.2 ⟨c, hc, ?_⟩)
          rw [← h.keyed.own c hc, heq]
    obtain ⟨r', hr', hkey, hperm⟩ := h.cancelKey_perm hcancelled
    obtain rfl := List.inj_on_of_nodup_map (keys_requests h.keyed) hr' hr hkey
    rw [hcons]
    refine ih (h.removed (h.keyed.cancelKey _) hperm) (fun x hx => ?_) hnodup.2
    have hmem := hperm.symm.subset (hsub (List.mem_cons_of_mem _ hx))
    rcases List.mem_cons.1 hmem with rfl | hmem
    · exact absurd (List.mem_map_of_mem hx) hnodup.1
    · exact hmem

end

end Filed

theorem filed_new (workers batchSize : ℕ) :
    Filed (F := F) ⟨.new workers batchSize, [], 1⟩ :=
  ⟨PreviewScheduler.keyed_new workers batchSize, .refl _, List.nodup_nil,
    fun _ hx => absurd hx List.not_mem_nil⟩

/-! ### Tickets of a worker -/

/-- A ticket that is not pending, and that no other worker has claimed. -/
structure Owned (t : Intake F) (worker : ℕ) (id : ℤ) : Prop where
  lt : id < t.nextTicket
  pending : ∀ e ∈ t.scheduler.pending, e.request.payload ≠ id
  claimed : ∀ c ∈ t.scheduler.claimed, c.2.request.payload = id → c.2.worker = worker

namespace Owned

variable {worker : ℕ} {id : ℤ}

section

variable (h : t.Owned worker id)

include h

theorem mono {t' : Intake F} (hlt : t.nextTicket ≤ t'.nextTicket)
    (hpending : t'.scheduler.pending ⊆ t.scheduler.pending)
    (hclaimed : t'.scheduler.claimed ⊆ t.scheduler.claimed) : t'.Owned worker id :=
  ⟨h.lt.trans_le hlt, fun e he => h.pending e (hpending he), fun c hc => h.claimed c (hclaimed hc)⟩

theorem post (slotFormat : ℤ) (job : Job F) : (t.post slotFormat job).Owned worker id := by
  rw [Intake.post]
  split_ifs
  · exact h
  · dsimp only
    generalize hr : (⟨job.key t.nextTicket, job.schedule.priority, job.schedule.distance,
      t.nextTicket, job.slotBytes slotFormat⟩ : FrameRequest ℤ) = r
    have hne : r.payload ≠ id := hr ▸ h.lt.ne'
    have hlt : id < t.nextTicket + 1 := h.lt.trans (lt_add_one _)
    have hsubmitted := PreviewScheduler.submitted_submit t.scheduler r
    generalize t.scheduler.submit r = submitted at hsubmitted ⊢
    obtain ⟨s', outcome⟩ := submitted
    cases hsubmitted with
    | inFlight => exact ⟨hlt, h.pending, h.claimed⟩
    | accepted =>
      refine ⟨hlt, fun e he => ?_, h.claimed⟩
      rcases List.mem_append.1 he with he | he
      · exact h.pending e he
      · rw [List.mem_singleton.1 he]
        exact hne
    | replaced old hclaimed hold hkey =>
      refine ⟨hlt, fun e he => ?_, h.claimed⟩
      rcases PreviewScheduler.mem_of_mem_replacePending he with rfl | he
      · exact hne
      · exact h.pending e he

theorem cancelKey (key : FrameKey) :
    Owned { t with scheduler := (t.scheduler.cancelKey key).1 } worker id := by
  rw [PreviewScheduler.cancelKey]
  split_ifs
  · exact h.mono le_rfl List.filter_sublist.subset (List.Subset.refl _)
  · exact h.mono le_rfl (List.Subset.refl _) List.filter_sublist.subset

theorem cancelFrame (key : FrameKey) : (t.cancelFrame key).Owned worker id := by
  rw [Intake.cancelFrame]
  dsimp only
  split_ifs
  · have hcancelled := h.cancelKey key
    split
    · exact ⟨hcancelled.lt, hcancelled.pending, hcancelled.claimed⟩
    · exact hcancelled
  · exact h

theorem cancelSequence (sequence : ℕ) : (t.cancelSequence order sequence).Owned worker id := by
  rw [Intake.cancelSequence, tickets_removeTickets]
  exact h.mono le_rfl List.filter_sublist.subset List.filter_sublist.subset

theorem close (ticket : ℤ) : (t.close ticket).Owned worker id := by
  rw [Intake.close]
  split
  · exact h.mono le_rfl (List.Subset.refl _) List.filter_sublist.subset
  · exact h

/-- The tickets of a worker stay its own while another worker crashes. -/
theorem crash (horder : ∀ l, (order l).Perm l) {other : ℕ} (hother : other ≠ worker) :
    (t.crash order other).1.Owned worker id := by
  refine ⟨h.lt, fun e he => ?_, fun c hc => h.claimed c (List.mem_of_mem_filter hc)⟩
  rcases (PreviewScheduler.mem_workerCrashed horder).1 he with he | ⟨-, k, hk⟩
  · exact h.pending e he
  · exact fun heq => hother (h.claimed _ hk heq)

theorem drop (rs : List (FrameRequest ℤ)) : (t.drop rs).Owned worker id := by
  induction rs generalizing t with
  | nil => exact h
  | cons r rs ih =>
    have hcancelled := h.cancelKey r.key
    exact ih ⟨hcancelled.lt, hcancelled.pending, hcancelled.claimed⟩

theorem claim {claimer credit : ℕ} (hclaimed : t.scheduler.Claimed claimer credit batch s' out) :
    Owned { t with scheduler := s' } worker id := by
  refine ⟨h.lt, fun e he => h.pending e (hclaimed.mem_pending.2 (.inr he)), fun c hc => ?_⟩
  rw [hclaimed.claimed, List.mem_append] at hc
  rcases hc with hc | hc
  · exact h.claimed c hc
  · obtain ⟨e, he, rfl⟩ := List.mem_map.1 hc
    exact fun heq => absurd heq (h.pending e (hclaimed.mem_pending.2 (.inl he)))

end

theorem of_claim (h : t.Filed) {credit : ℕ} {batch : ClaimedBatch ℤ}
    {s' : PreviewScheduler ℤ} {out : List (PendingEntry ℤ)}
    (hclaimed : t.scheduler.Claimed worker credit batch s' out) {e : PendingEntry ℤ}
    (he : e ∈ out) : Owned { t with scheduler := s' } worker e.request.payload := by
  have hpending : e ∈ t.scheduler.pending := hclaimed.mem_pending.2 (.inl he)
  have hmem := mem_requests.2 (.inl ⟨e, hpending, rfl⟩)
  obtain ⟨x, hx, hid, -⟩ := h.exists_ticket hmem
  refine ⟨hid ▸ h.fresh x hx, fun e' he' heq => ?_, fun c hc heq => ?_⟩
  · -- the entry would be pending twice
    have hall : ((out ++ s'.pending).map fun e => e.request.payload).Nodup := by
      have hrequests := h.payloads_nodup
      rw [requests, List.map_append, List.map_map] at hrequests
      exact (hclaimed.cut.map _).nodup_iff.2 (List.nodup_append.1 hrequests).1
    rw [List.map_append, List.nodup_append] at hall
    exact hall.2.2 _ (List.mem_map_of_mem he) _ (List.mem_map_of_mem he') heq.symm
  · rw [hclaimed.claimed, List.mem_append] at hc
    rcases hc with hc | hc
    · have hkeys := h.payloads_nodup
      rw [requests, List.map_append, List.nodup_append] at hkeys
      refine absurd heq.symm (hkeys.2.2 _ ?_ _ ?_)
      · exact List.mem_map_of_mem (List.mem_map_of_mem hpending)
      · exact List.mem_map_of_mem (List.mem_map_of_mem hc)
    · obtain ⟨e', -, rfl⟩ := List.mem_map.1 hc
      rfl

/-- The request of an open ticket is claimed by the worker whose own it is. -/
theorem claim_of_open (h : t.Owned worker id) (hfiled : t.Filed) {pt : PendingTicket F}
    (hpt : (id, pt) ∈ t.tickets) : ∃ c ∈ t.scheduler.claimed,
      c.1 = pt.key ∧ c.2.worker = worker ∧ c.2.request.payload = id := by
  obtain ⟨r, hr, hid, hkey⟩ := hfiled.exists_request hpt
  rcases mem_requests.1 hr with ⟨e, he, rfl⟩ | ⟨c, hc, rfl⟩
  · exact absurd hid (h.pending e he)
  · exact ⟨c, hc, (hfiled.keyed.own c hc).symm.trans hkey, h.claimed c hc hid, hid⟩

end Owned

/-- Answers to a worker keep the requests and tickets together. -/
theorem Filed.close_owned (h : t.Filed) {worker : ℕ} {id : ℤ} (howned : t.Owned worker id) :
    Filed (t.close id) :=
  h.close fun pt hpt => by
    obtain ⟨c, hc, hkey, -⟩ := howned.claim_of_open h hpt
    exact List.mem_map.2 ⟨c, hc, hkey⟩

/-! ### Dropped requests -/

theorem Filed.crashed (h : t.Filed)
    (horder : ∀ l, (order l).Perm l) (worker : ℕ) (dropped : Bool) :
    (t.crashed order worker dropped).Filed := by
  have hcrash := h.crash horder worker
  rw [Intake.crashed]
  cases dropped with
  | false => exact hcrash
  | true =>
    have hback : (t.crash order worker).2 ⊆ requests (t.crash order worker).1.scheduler := by
      intro r hr
      refine mem_requests.2 (.inl ⟨⟨r, true⟩, ?_, rfl⟩)
      exact List.mem_append_right _ (List.mem_map_of_mem hr)
    refine hcrash.drop hback ?_
    have hclaimed := (List.nodup_append.1 h.keyed.nodup).2.1
    have hkeys : ((t.scheduler.claimed.filter fun c => c.2.worker = worker).map
        fun c => c.2.request).map FrameRequest.key =
        (t.scheduler.claimed.filter fun c => c.2.worker = worker).map Prod.fst := by
      rw [List.map_map]
      exact List.map_congr_left fun c hc => h.keyed.own c (List.mem_of_mem_filter hc)
    refine ((horder _).map FrameRequest.key).nodup_iff.2 ?_
    rw [hkeys]
    exact hclaimed.sublist (List.filter_sublist.map _)

theorem Owned.crashed {worker other : ℕ} {id : ℤ}
    (h : t.Owned worker id) (horder : ∀ l, (order l).Perm l) (hother : other ≠ worker)
    (dropped : Bool) : (t.crashed order other dropped).Owned worker id := by
  have hcrash := h.crash horder hother
  rw [Intake.crashed]
  cases dropped with
  | false => exact hcrash
  | true => exact hcrash.drop _

/-! ### Claims -/

theorem claimed_post (slotFormat : ℤ) (job : Job F) :
    (t.post slotFormat job).scheduler.claimed = t.scheduler.claimed := by
  rw [Intake.post]
  split_ifs
  · rfl
  · dsimp only
    split
    all_goals exact PreviewScheduler.claimed_submit _ _

theorem claimed_cancelKey_subset (s : PreviewScheduler ℤ) (key : FrameKey) :
    (s.cancelKey key).1.claimed ⊆ s.claimed := by
  rw [PreviewScheduler.cancelKey]
  split_ifs
  · exact List.Subset.refl _
  · exact List.filter_sublist.subset

theorem claimed_cancelFrame_subset (key : FrameKey) :
    (t.cancelFrame key).scheduler.claimed ⊆ t.scheduler.claimed := by
  have hcancelled := claimed_cancelKey_subset t.scheduler key
  rw [Intake.cancelFrame]
  dsimp only
  split_ifs
  · split
    · exact hcancelled
    · exact hcancelled
  · exact List.Subset.refl _

theorem claimed_cancelSequence_subset (sequence : ℕ) :
    (t.cancelSequence order sequence).scheduler.claimed ⊆ t.scheduler.claimed := by
  rw [Intake.cancelSequence, tickets_removeTickets]
  exact List.filter_sublist.subset

theorem claimed_drop_subset : (t.drop rs).scheduler.claimed ⊆ t.scheduler.claimed := by
  induction rs generalizing t with
  | nil => exact List.Subset.refl _
  | cons r rs ih => exact List.Subset.trans ih (claimed_cancelKey_subset t.scheduler r.key)

theorem mem_claimed_close (h : t.Filed) {id : ℤ} {k : FrameKey × Claim ℤ}
    (hk : k ∈ (t.close id).scheduler.claimed) :
    k ∈ t.scheduler.claimed ∧ k.2.request.payload ≠ id := by
  rw [Intake.close] at hk
  rcases hticket : t.ticket id with _ | pt
  · rw [hticket] at hk
    refine ⟨hk, fun heq => ?_⟩
    obtain ⟨x, hx, hid, -⟩ := h.exists_ticket (mem_requests.2 (.inr ⟨k, hk, rfl⟩))
    have hopen := h.ticket_eq_some_iff.2 (show (id, x.2) ∈ t.tickets from heq ▸ hid ▸ hx)
    rw [hticket] at hopen
    exact absurd hopen (by simp)
  · rw [hticket] at hk
    obtain ⟨hk, hkey⟩ := List.mem_filter.1 hk
    refine ⟨hk, fun heq => of_decide_eq_true hkey ?_⟩
    obtain ⟨x, hx, hid, hkey'⟩ := h.exists_ticket (mem_requests.2 (.inr ⟨k, hk, rfl⟩))
    have hsame := h.eq_of_id hx (h.ticket_eq_some_iff.1 hticket) (hid.trans heq)
    rw [← h.keyed.own k hk, ← hkey', hsame]

/-! ### Open tickets -/

theorem tickets_cancelFrame_subset (key : FrameKey) :
    (t.cancelFrame key).tickets ⊆ t.tickets := by
  rw [Intake.cancelFrame]
  dsimp only
  split_ifs
  · split
    · exact List.filter_sublist.subset
    · exact List.Subset.refl _
  · exact List.Subset.refl _

theorem tickets_cancelSequence_subset (sequence : ℕ) :
    (t.cancelSequence order sequence).tickets ⊆ t.tickets := by
  rw [Intake.cancelSequence, tickets_removeTickets]
  exact List.filter_sublist.subset

theorem tickets_close_subset (id : ℤ) : (t.close id).tickets ⊆ t.tickets := by
  rw [Intake.close]
  split
  · exact List.filter_sublist.subset
  · exact List.Subset.refl _

theorem tickets_drop_subset : (t.drop rs).tickets ⊆ t.tickets := by
  induction rs generalizing t with
  | nil => exact List.Subset.refl _
  | cons r rs ih => exact List.Subset.trans ih List.filter_sublist.subset

end Intake

end Oak.Render
