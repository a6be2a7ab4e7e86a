import Oak.Render.Intake

/-!
# Slots

The slots of a worker's shared-memory segment as the dispatcher books them (`WorkerHandle` of
`oak-render/src/procpool.rs`): `freeSlots` mirrors the free ring of the segment, `outstanding` are
the tickets that were sent to the worker, with their slots, and `held` the slots that consumers
read.

* `dispatch` is one claim of `dispatch_to`: the claimed tickets get slots in the order of the
  messages to the worker.
* `onFrameReady`, `onFrameFailed` and `release` take them back.

## Main results

* `dispatched`: what one claim does to the requests, the slots and the messages.
-/

namespace Oak.Render

variable {F : Type*}

/-- The slots of a `WorkerHandle`. -/
structure SlotTable where
  freeSlots : List ℕ
  outstanding : List (ℤ × ℕ)
  held : List ℕ

variable {ticket : ℤ}

namespace SlotTable

variable {s : SlotTable}

/-- The slots of a new segment. -/
def shell (slots : ℕ) : SlotTable := ⟨List.range slots, [], []⟩

/-- The slot of an outstanding ticket. -/
def slotOf (s : SlotTable) (ticket : ℤ) : Option ℕ :=
  (s.outstanding.find? fun x => x.1 = ticket).map Prod.snd

/-- A ticket is no longer outstanding. -/
def remove (s : SlotTable) (ticket : ℤ) : SlotTable :=
  { s with outstanding := s.outstanding.filter fun x => x.1 ≠ ticket }

/-- A consumer reads a slot. -/
def hold (s : SlotTable) (slot : ℕ) : SlotTable :=
  { s with held := if slot ∈ s.held then s.held else s.held ++ [slot] }

/-- `recycle_slot`, without the ring. -/
def recycleSlot (s : SlotTable) (slot : ℕ) : SlotTable :=
  { s with
    held := s.held.filter fun x => x ≠ slot
    freeSlots := s.freeSlots ++ [slot] }

/-- `release_frame` on the worker of the frame, without the ring: a slot that no consumer reads is
not released. -/
def release (s : SlotTable) (slot : ℕ) : Option SlotTable :=
  if slot ∈ s.held then some (s.recycleSlot slot) else none

/-- Tickets take free slots, in order. -/
def assign (s : SlotTable) : List ℤ → SlotTable × List (ℤ × ℕ)
  | [] => (s, [])
  | ticket :: tickets =>
    match s.freeSlots with
    | [] => (s, [])
    | slot :: free =>
      let taken : SlotTable := ⟨free, (s.remove ticket).outstanding ++ [(ticket, slot)], s.held⟩
      ((taken.assign tickets).1, (ticket, slot) :: (taken.assign tickets).2)

theorem assign_eq {tickets : List ℤ} (hlength : tickets.length ≤ s.freeSlots.length)
    (hnodup : tickets.Nodup) (hnew : ∀ x ∈ s.outstanding, x.1 ∉ tickets) :
    s.assign tickets = (⟨s.freeSlots.drop tickets.length,
      s.outstanding ++ tickets.zip s.freeSlots, s.held⟩, tickets.zip s.freeSlots) := by
  induction tickets generalizing s with
  | nil => simp [assign]
  | cons ticket tickets ih =>
    obtain ⟨free, outstanding, held⟩ := s
    rw [List.nodup_cons] at hnodup
    obtain ⟨slot, free, rfl⟩ : ∃ slot free', free = slot :: free' :=
      List.exists_cons_of_length_pos (Nat.lt_of_lt_of_le (Nat.succ_pos _) hlength)
    have hkept : outstanding.filter (fun x => x.1 ≠ ticket) = outstanding :=
      List.filter_eq_self.2 fun x hx => decide_eq_true fun heq =>
        hnew x hx (heq ▸ List.mem_cons_self)
    have htaken : (⟨free, outstanding ++ [(ticket, slot)], held⟩ : SlotTable).assign tickets =
        (⟨free.drop tickets.length, outstanding ++ [(ticket, slot)] ++ tickets.zip free, held⟩,
          tickets.zip free) := by
      refine ih (Nat.le_of_succ_le_succ hlength) hnodup.2 fun x hx => ?_
      rcases List.mem_append.1 hx with hx | hx
      · exact fun hmem => hnew x hx (List.mem_cons_of_mem _ hmem)
      · rw [List.mem_singleton.1 hx]
        exact hnodup.1
    simp only [assign, remove, hkept, htaken, List.zip_cons_cons, List.length_cons,
      List.drop_succ_cons, List.append_assoc, List.singleton_append]

theorem slotOf_eq_some_iff (hnodup : (s.outstanding.map Prod.fst).Nodup) {slot : ℕ} :
    s.slotOf ticket = some slot ↔ (ticket, slot) ∈ s.outstanding := find_fst_eq_some_iff hnodup

end SlotTable

variable {table table' : SlotTable} {t' : Intake F}

namespace Intake

variable {t : Intake F}

/-- The request is an audio ticket's. -/
def isAudio (t : Intake F) (r : FrameRequest ℤ) : Bool :=
  (t.ticket r.payload).any fun pt => pt.audio.isSome

/-- The specs of the video tickets among assigned ones. -/
def videoSpecs (t : Intake F) (slotFormat : ℤ) (assigned : List (ℤ × ℕ)) :
    List (BatchTicketSpec F) :=
  assigned.filterMap fun x => (t.ticket x.1).bind fun pt =>
    match pt.audio with
    | some _ => none
    | none => some (buildTicketSpec x.1 x.2 pt.params slotFormat)

/-- The specs of the audio tickets among assigned ones. -/
def audioSpecs (t : Intake F) (assigned : List (ℤ × ℕ)) : List (AudioTicketSpec F) :=
  assigned.filterMap fun x => (t.ticket x.1).bind fun pt =>
    pt.audio.map (buildAudioTicketSpec x.1 x.2)

/-- The messages of a batch: the video tickets first, then the audio tickets. -/
def batchMessages (t : Intake F) (slotFormat : ℤ) (batchId : ℕ) (assigned : List (ℤ × ℕ)) :
    List (ControlMsg F) :=
  let video := t.videoSpecs slotFormat assigned
  let audio := t.audioSpecs assigned
  (if video.isEmpty then [] else [.renderBatch batchId video]) ++
    if audio.isEmpty then [] else [.renderAudioBatch batchId audio]

/-- One claim of `dispatch_to`, up to the messages: nothing is claimed while the segment waits for
larger slots. -/
def dispatch (t : Intake F) (worker : ℕ) (table : SlotTable) (slotBytes : ℕ) (slotFormat : ℤ) :
    Option (Intake F × SlotTable × List (ControlMsg F)) :=
  if table.outstanding.isEmpty &&
      (t.scheduler.maxPendingBytesForWorker worker slotBytes).isSome then none
  else
    (t.scheduler.claimBatch worker table.freeSlots.length slotBytes).map fun claimed =>
      let batch := claimed.1
      let tickets := (batch.frames.filter fun r => !t.isAudio r) ++ batch.frames.filter t.isAudio
      let assigned := table.assign (tickets.map FrameRequest.payload)
      ({ t with scheduler := claimed.2 }, assigned.1,
        t.batchMessages slotFormat batch.batchId assigned.2)

/-- `on_frame_ready`, without the rings: a ticket that is not outstanding is dropped. The slot of a
ticket that was cancelled is free again; it is the last component. -/
def onFrameReady (t : Intake F) (table : SlotTable) (ticket : ℤ) (slot : ℕ) :
    Option (Intake F × SlotTable × Option ℕ) :=
  (table.slotOf ticket).map fun _ =>
    let held := (table.remove ticket).hold slot
    match t.ticket ticket with
    | some _ => (t.close ticket, held, none)
    | none => (t, held.recycleSlot slot, some slot)

/-- `on_frame_failed`, without the rings: the slot of the ticket is free again. -/
def onFrameFailed (t : Intake F) (table : SlotTable) (ticket : ℤ) :
    Option (Intake F × SlotTable × Option ℕ) :=
  (table.slotOf ticket).map fun slot =>
    (t.close ticket, (table.remove ticket).recycleSlot slot, some slot)

/-- What an answer does to the requests and the outstanding tickets. -/
structure Answered (t : Intake F) (table : SlotTable) (ticket : ℤ) (t' : Intake F)
    (table' : SlotTable) : Prop where
  slot : ∃ slot, table.slotOf ticket = some slot
  intake : t' = t.close ticket
  outstanding : table'.outstanding = (table.remove ticket).outstanding

theorem answered_frameReady {slot : ℕ} {freed : Option ℕ}
    (h : t.onFrameReady table ticket slot = some (t', table', freed)) :
    t.Answered table ticket t' table' := by
  obtain ⟨old, hold, heq⟩ := Option.map_eq_some_iff.1 h
  cases hticket : t.ticket ticket with
  | some pt =>
    rw [hticket] at heq
    exact ⟨⟨old, hold⟩, congrArg Prod.fst heq.symm, congrArg (fun x => x.2.1.outstanding) heq.symm⟩
  | none =>
    rw [hticket] at heq
    have hsame : t.close ticket = t := by rw [close, hticket]
    exact ⟨⟨old, hold⟩, (congrArg Prod.fst heq.symm).trans hsame.symm,
      congrArg (fun x => x.2.1.outstanding) heq.symm⟩

theorem answered_frameFailed {freed : Option ℕ}
    (h : t.onFrameFailed table ticket = some (t', table', freed)) :
    t.Answered table ticket t' table' := by
  obtain ⟨old, hold, heq⟩ := Option.map_eq_some_iff.1 h
  exact ⟨⟨old, hold⟩, congrArg Prod.fst heq.symm, congrArg (fun x => x.2.1.outstanding) heq.symm⟩

/-! ### Claims -/

/-- What a claim does: the requests `out` are claimed, and their tickets, with the slots
`assigned`, are sent to the worker in the order of the messages. -/
structure Dispatched (t : Intake F) (worker : ℕ) (table : SlotTable) (t' : Intake F)
    (table' : SlotTable) (messages : List (ControlMsg F)) (out : List (PendingEntry ℤ))
    (assigned : List (ℤ × ℕ)) : Prop where
  claimed : ∃ batch s', t.scheduler.Claimed worker table.freeSlots.length batch s' out ∧
    t' = { t with scheduler := s' }
  tickets : (assigned.map Prod.fst).Perm (out.map fun e => e.request.payload)
  nodup : (assigned.map Prod.fst).Nodup
  slots : table.freeSlots = assigned.map Prod.snd ++ table'.freeSlots
  outstanding : table'.outstanding = table.outstanding ++ assigned
  held : table'.held = table.held
  messages : messages.flatMap ControlMsg.assignments = assigned

variable (slotFormat : ℤ) (l l' : List (ℤ × ℕ))

theorem videoSpecs_append :
    t.videoSpecs slotFormat (l ++ l') = t.videoSpecs slotFormat l ++ t.videoSpecs slotFormat l' :=
  List.filterMap_append

theorem audioSpecs_append : t.audioSpecs (l ++ l') = t.audioSpecs l ++ t.audioSpecs l' :=
  List.filterMap_append

theorem specs_of_video {l : List (ℤ × ℕ)}
    (h : ∀ x ∈ l, ∃ pt, t.ticket x.1 = some pt ∧ pt.audio = none) :
    (t.videoSpecs slotFormat l).map (fun s => (s.ticket, s.slot)) = l ∧ t.audioSpecs l = [] := by
  induction l with
  | nil => exact ⟨rfl, rfl⟩
  | cons x l ih =>
    obtain ⟨pt, hpt, haudio⟩ := h x List.mem_cons_self
    obtain ⟨hvideo, hnone⟩ := ih fun y hy => h y (List.mem_cons_of_mem _ hy)
    constructor
    · rw [videoSpecs, List.filterMap_cons_some
        (b := buildTicketSpec x.1 x.2 pt.params slotFormat) (by simp [hpt, haudio]),
        List.map_cons]
      exact congrArg (x :: ·) hvideo
    · rw [audioSpecs, List.filterMap_cons_none (by simp [hpt, haudio])]
      exact hnone

theorem specs_of_audio {l : List (ℤ × ℕ)}
    (h : ∀ x ∈ l, ∃ pt audio, t.ticket x.1 = some pt ∧ pt.audio = some audio) :
    t.videoSpecs slotFormat l = [] ∧ (t.audioSpecs l).map (fun s => (s.ticket, s.slot)) = l := by
  induction l with
  | nil => exact ⟨rfl, rfl⟩
  | cons x l ih =>
    obtain ⟨pt, audio, hpt, haudio⟩ := h x List.mem_cons_self
    obtain ⟨hnone, hspecs⟩ := ih fun y hy => h y (List.mem_cons_of_mem _ hy)
    constructor
    · rw [videoSpecs, List.filterMap_cons_none (by simp [hpt, haudio])]
      exact hnone
    · rw [audioSpecs, List.filterMap_cons_some
        (b := buildAudioTicketSpec x.1 x.2 audio) (by simp [hpt, haudio]), List.map_cons]
      exact congrArg (x :: ·) hspecs

/-- The messages list the video tickets, and then the audio tickets. -/
theorem assignments_batchMessages (batchId : ℕ) {video audio : List (ℤ × ℕ)}
    (hvideo : ∀ x ∈ video, ∃ pt, t.ticket x.1 = some pt ∧ pt.audio = none)
    (haudio : ∀ x ∈ audio, ∃ pt a, t.ticket x.1 = some pt ∧ pt.audio = some a) :
    (t.batchMessages slotFormat batchId (video ++ audio)).flatMap ControlMsg.assignments =
      video ++ audio := by
  obtain ⟨hvideo, hnone⟩ := specs_of_video slotFormat hvideo
  obtain ⟨hnone', haudio⟩ := specs_of_audio slotFormat haudio
  have hfirst (l : List (BatchTicketSpec F)) :
      (if l.isEmpty then [] else [ControlMsg.renderBatch batchId l]).flatMap
        ControlMsg.assignments = l.map fun s => (s.ticket, s.slot) := by
    cases l <;> simp [ControlMsg.assignments]
  have hsecond (l : List (AudioTicketSpec F)) :
      (if l.isEmpty then [] else [ControlMsg.renderAudioBatch batchId l]).flatMap
        ControlMsg.assignments = l.map fun s => (s.ticket, s.slot) := by
    cases l <;> simp [ControlMsg.assignments]
  rw [batchMessages, videoSpecs_append, audioSpecs_append, hnone, hnone', List.append_nil,
    List.nil_append, List.flatMap_append, hfirst, hsecond, hvideo, haudio]

/-- One claim, where the tickets that are outstanding are not pending. -/
theorem dispatched (h : t.Filed) {worker : ℕ} {slotBytes : ℕ} {slotFormat : ℤ}
    {messages : List (ControlMsg F)}
    (hnew : ∀ x ∈ table.outstanding, ∀ e ∈ t.scheduler.pending, e.request.payload ≠ x.1)
    (hdispatch : t.dispatch worker table slotBytes slotFormat = some (t', table', messages)) :
    ∃ out assigned, t.Dispatched worker table t' table' messages out assigned := by
  rw [dispatch] at hdispatch
  split_ifs at hdispatch
  obtain ⟨⟨batch, s'⟩, hclaim, heq⟩ := Option.map_eq_some_iff.1 hdispatch
  obtain ⟨out, hout⟩ := PreviewScheduler.claimed_claimBatch h.keyed hclaim
  dsimp only at heq
  -- the requests of the batch, video tickets first
  generalize hvideo : (batch.frames.filter fun r => !t.isAudio r) = video at heq
  generalize haudio : batch.frames.filter t.isAudio = audio at heq
  have hperm : (video ++ audio).Perm (out.map PendingEntry.request) := by
    refine List.Perm.trans ?_ hout.frames
    rw [← hvideo, ← haudio]
    exact List.perm_append_comm.trans (List.filter_append_perm t.isAudio batch.frames)
  have hpayloads : ((video ++ audio).map FrameRequest.payload).Perm
      (out.map fun e => e.request.payload) := by
    have hmap := hperm.map FrameRequest.payload
    rwa [List.map_map] at hmap
  have hpending (r) (hr : r ∈ video ++ audio) :
      ∃ e ∈ t.scheduler.pending, e.request = r := by
    obtain ⟨e, he, rfl⟩ := List.mem_map.1 (hperm.subset hr)
    exact ⟨e, hout.mem_pending.2 (.inl he), rfl⟩
  have hnodup : ((video ++ audio).map FrameRequest.payload).Nodup := by
    have hout' : (out.map fun e => e.request.payload).Sublist
        ((out ++ s'.pending).map fun e => e.request.payload) := by
      rw [List.map_append]
      exact List.sublist_append_left _ _
    have hall : (t.scheduler.pending.map fun e => e.request.payload).Nodup := by
      have hrequests := h.payloads_nodup
      rw [requests, List.map_append, List.map_map] at hrequests
      exact (List.nodup_append.1 hrequests).1
    exact hpayloads.nodup_iff.2
      (((hout.cut.map fun e => e.request.payload).nodup_iff.2 hall).sublist hout')
  have hlength : ((video ++ audio).map FrameRequest.payload).length ≤ table.freeSlots.length := by
    rw [hpayloads.length_eq, List.length_map]
    exact hout.length_le
  have hassign := SlotTable.assign_eq hlength hnodup fun x hx hmem => by
    obtain ⟨r, hr, heq⟩ := List.mem_map.1 hmem
    obtain ⟨e, he, rfl⟩ := hpending r hr
    exact hnew x hx e he heq
  rw [hassign] at heq
  generalize htickets : (video ++ audio).map FrameRequest.payload = tickets
    at hlength heq hpayloads hnodup
  obtain ⟨rfl, rfl, rfl⟩ : _ ∧ _ ∧ _ := ⟨congrArg Prod.fst heq.symm,
    congrArg (fun x => x.2.1) heq.symm, congrArg (fun x => x.2.2) heq.symm⟩
  have hfst : (tickets.zip table.freeSlots).map Prod.fst = tickets :=
    List.map_fst_zip hlength
  refine ⟨out, tickets.zip table.freeSlots, ⟨batch, s', hout, rfl⟩, by rwa [hfst],
    by rwa [hfst], ?_, rfl, rfl, ?_⟩
  · rw [List.zip_eq_zip_take_min, Nat.min_eq_left hlength, List.take_length, List.map_snd_zip,
      List.take_append_drop]
    rw [List.length_take]
    exact Nat.min_le_left _ _
  · -- a request of the batch has its ticket, which says what it is
    have hkind (r) (hr : r ∈ video ++ audio) :
        ∃ pt, t.ticket r.payload = some pt ∧ t.isAudio r = pt.audio.isSome := by
      obtain ⟨e, he, rfl⟩ := hpending r hr
      obtain ⟨x, hx, hid, -⟩ := h.exists_ticket (mem_requests.2 (.inl ⟨e, he, rfl⟩))
      have hticket : t.ticket e.request.payload = some x.2 :=
        h.ticket_eq_some_iff.2 (hid ▸ hx)
      exact ⟨x.2, hticket, by rw [isAudio, hticket, Option.any_some]⟩
    have hzip : tickets.zip table.freeSlots = (video.map FrameRequest.payload).zip
        (table.freeSlots.take video.length) ++ (audio.map FrameRequest.payload).zip
          (table.freeSlots.drop video.length) := by
      rw [← List.zip_append, ← List.map_append, htickets, List.take_append_drop]
      rw [List.length_map, List.length_take]
      rw [← htickets, List.length_map, List.length_append] at hlength
      omega
    rw [hzip]
    refine assignments_batchMessages slotFormat batch.batchId (fun x hx => ?_) fun x hx => ?_
    · obtain ⟨r, hr, hid⟩ := List.mem_map.1 (List.of_mem_zip hx).1
      obtain ⟨pt, hpt, hisAudio⟩ := hkind r (List.mem_append_left _ hr)
      rw [← hvideo, List.mem_filter, hisAudio] at hr
      exact ⟨pt, hid ▸ hpt, by simpa using hr.2⟩
    · obtain ⟨r, hr, hid⟩ := List.mem_map.1 (List.of_mem_zip hx).1
      obtain ⟨pt, hpt, hisAudio⟩ := hkind r (List.mem_append_right _ hr)
      rw [← haudio, List.mem_filter, hisAudio] at hr
      obtain ⟨a, ha⟩ := Option.isSome_iff_exists.1 hr.2
      exact ⟨pt, a, hid ▸ hpt, ha⟩

end Intake

end Oak.Render
