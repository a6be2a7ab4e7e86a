import Oak.Render.Slots
import Oak.Lib.RingBuffer
import Oak.Lib.Machine

/-!
# One segment

A worker and its shared-memory segment: the dispatcher's slots, the two rings of the segment, the
messages on their way to the worker, the worker's batch loop (`oak-worker/src/worker.rs`), and its
answers on their way back. Other workers take part as far as they claim, answer and crash.

`unacquired` is not in the source: it lists the tickets that were assigned a slot, in the order of
the messages, up to where the worker takes a slot for them.

## Main results

* `conserved_run`: as long as the worker reads finite floats only, every slot is at one place, and
  the worker takes the slot that was assigned.
* `unreadable_shifts_slots`: a batch that is not read leaves its slots in the ring, and the next
  ticket takes a wrong one.
-/

namespace Oak.Render

open Oak.Lib

variable {F : Type*}

/-- An answer of a worker to a batch. -/
inductive Answer where
  | frameReady (ticket : ℤ) (slot : ℕ)
  | frameFailed (ticket : ℤ)
  | error
  deriving DecidableEq, Repr

/-- The ticket that is answered. -/
def Answer.ticket : Answer → Option ℤ
  | .frameReady ticket _ => some ticket
  | .frameFailed ticket => some ticket
  | .error => none

/-- The ticket and the slot that are ready. -/
def Answer.ready : Answer → Option (ℤ × ℕ)
  | .frameReady ticket slot => some (ticket, slot)
  | _ => none

/-- The place of a worker, the slot format, and the order of the table of claims. -/
structure SegmentConfig where
  worker : ℕ
  slotFormat : ℤ
  order : List (FrameRequest ℤ) → List (FrameRequest ℤ)
  order_perm : ∀ l, (order l).Perm l

/-- A worker and its segment. -/
structure Segment (F : Type*) where
  intake : Intake F
  shm : ℕ
  slots : ℕ
  slotBytes : ℕ
  table : SlotTable
  alive : Bool
  freeRing : RingBuffer ℕ
  readyRing : RingBuffer ℕ
  inbox : List (ControlMsg F)
  job : List (ℤ × ℕ)
  acquired : Option (ℤ × ℕ)
  outbox : List Answer
  unacquired : List (ℤ × ℕ)

/-- What can happen next. `written` is the number of messages that reach the worker. -/
inductive SegmentAction (F : Type*) where
  | post (job : Job F)
  | cancelFrame (key : FrameKey)
  | cancelPreviewSequence (sequence : ℕ)
  | dispatch (written : ℕ)
  | setGraphSnapshot (path : String) (written : ℕ)
  | broadcastPluginCancel (written : ℕ)
  | read
  | acquire
  | render (ok : Bool)
  | deliver
  | releaseFrame (shm slot : ℕ)
  | claimElsewhere (worker credit maxBytes : ℕ)
  | answerElsewhere (ticket : ℤ)
  | crashElsewhere (worker : ℕ) (dropped : Bool)
  | restart (slots slotBytes : ℕ) (dropped : Bool)
  | rebuildSegment (slots written : ℕ)

/-- A ring with free slots `0`, …, `slots - 1`, as `FrameSlotPool::create` leaves it. -/
def seededRing (slots : ℕ) : RingBuffer ℕ :=
  (List.range slots).foldl (fun ring slot => (ring.push slot).getD ring)
    (.empty (slots + 1) (Nat.succ_pos _) 0)

/-- The ring after slots were given back. -/
def giveBack (ring : RingBuffer ℕ) : Option ℕ → RingBuffer ℕ
  | none => ring
  | some slot => (ring.push slot).getD ring

/-- The ticket is claimed by another worker. -/
def Intake.claimedElsewhere (t : Intake F) (worker : ℕ) (ticket : ℤ) : Bool :=
  t.scheduler.claimed.any fun c => c.2.request.payload = ticket && c.2.worker ≠ worker

namespace Segment

/-- A fresh segment. -/
def attach (t : Intake F) (shm slots slotBytes : ℕ) : Segment F where
  intake := t
  shm := shm
  slots := slots
  slotBytes := slotBytes
  table := .shell slots
  alive := true
  freeRing := seededRing slots
  readyRing := .empty (slots + 1) (Nat.succ_pos _) 0
  inbox := []
  job := []
  acquired := none
  outbox := []
  unacquired := []

/-- The first segment, before any ticket. -/
def start (workers batchSize slots slotBytes : ℕ) : Segment F :=
  attach ⟨.new workers batchSize, [], 1⟩ 0 slots slotBytes

variable (c : SegmentConfig) (s : Segment F)

/-- Messages are written, up to the first that fails. -/
def send (messages : List (ControlMsg F)) (written : ℕ) : Segment F :=
  { s with
    inbox := s.inbox ++ messages.take written
    alive := decide (messages.length ≤ written) }

/-- One claim of `dispatch_to`. -/
def dispatch (written : ℕ) : Segment F :=
  if s.alive then
    match s.intake.dispatch c.worker s.table s.slotBytes c.slotFormat with
    | none => s
    | some (t, table, messages) =>
      { s with
        intake := t
        table := table
        unacquired := s.unacquired ++ messages.flatMap ControlMsg.assignments }.send
        messages written
  else s

/-- The worker reads the next message when it has served the last one. A batch that it cannot parse
is answered by an error that names no ticket. -/
def read [Finite64 F] : Segment F :=
  match s.job, s.acquired, s.inbox with
  | [], none, message :: inbox =>
    if message.readable then { s with inbox := inbox, job := message.assignments }
    else { s with inbox := inbox, outbox := s.outbox ++ [.error] }
  | _, _, _ => s

/-- The worker takes a slot from the ring for its next ticket, and fails the ticket when it is
another slot than the one assigned, or when there is none in time. -/
def acquire : Segment F :=
  match s.job, s.acquired with
  | x :: job, none =>
    let next : Segment F :=
      { s with job := job, unacquired := s.unacquired.filter fun y => y.1 ≠ x.1 }
    match s.freeRing.pop with
    | none => { next with outbox := s.outbox ++ [.frameFailed x.1] }
    | some (slot, ring) =>
      if slot = x.2 then { next with freeRing := ring, acquired := some x }
      else { next with freeRing := ring, outbox := s.outbox ++ [.frameFailed x.1] }
  | _, _ => s

/-- The worker renders a ticket into its slot, and publishes the slot. -/
def render (ok : Bool) : Segment F :=
  match s.acquired with
  | none => s
  | some x =>
    match if ok then s.readyRing.push x.2 else none with
    | none => { s with acquired := none, outbox := s.outbox ++ [.frameFailed x.1] }
    | some ring =>
      { s with
        acquired := none
        readyRing := ring
        outbox := s.outbox ++ [.frameReady x.1 x.2] }

/-- The dispatcher takes the next answer. -/
def deliver : Segment F :=
  match s.outbox with
  | [] => s
  | answer :: outbox =>
    let next : Segment F := { s with outbox := outbox }
    match answer with
    | .error => next
    | .frameReady ticket slot =>
      match s.intake.onFrameReady s.table ticket slot with
      | none => next
      | some (t, table, freed) =>
        { next with
          intake := t
          table := table
          readyRing := (s.readyRing.pop.map Prod.snd).getD s.readyRing
          freeRing := giveBack s.freeRing freed }
    | .frameFailed ticket =>
      match s.intake.onFrameFailed s.table ticket with
      | none => next
      | some (t, table, freed) =>
        { next with intake := t, table := table, freeRing := giveBack s.freeRing freed }

/-- `release_frame`: a frame of an earlier segment is stale. -/
def releaseFrame (shm slot : ℕ) : Segment F :=
  if shm ≠ s.shm then s
  else
    match s.table.release slot with
    | none => s
    | some table => { s with table := table, freeRing := giveBack s.freeRing (some slot) }

/-- A batch is claimed for another worker. -/
def claimElsewhere (worker credit maxBytes : ℕ) : Segment F :=
  match s.intake.scheduler.claimBatch worker credit maxBytes with
  | none => s
  | some claimed =>
    if worker = c.worker then s
    else { s with intake := { s.intake with scheduler := claimed.2 } }

/-- `rebuild_segment`: a segment with larger slots takes the place of one without outstanding
tickets, when a request needs them. -/
def rebuildSegment (slots written : ℕ) : Segment F :=
  if s.alive && s.table.outstanding.isEmpty then
    match s.intake.scheduler.maxPendingBytesForWorker c.worker s.slotBytes with
    | none => s
    | some need =>
      { s with
        shm := s.shm + 1
        slots := slots
        slotBytes := need
        table := { s.table with freeSlots := List.range slots, held := [] }
        freeRing := seededRing slots
        readyRing := .empty (slots + 1) (Nat.succ_pos _) 0 }.send
        [.handshake (s.shm + 1) slots need] written
  else s

/-- One action. -/
def act [Finite64 F] (s : Segment F) : SegmentAction F → Segment F
  | .post job => { s with intake := s.intake.post c.slotFormat job }
  | .cancelFrame key => { s with intake := s.intake.cancelFrame key }
  | .cancelPreviewSequence sequence =>
    { s with intake := s.intake.cancelSequence c.order sequence }
  | .dispatch written => s.dispatch c written
  | .setGraphSnapshot path written => if s.alive then s.send [.loadGraph path] written else s
  | .broadcastPluginCancel written => if s.alive then s.send [.pluginCancel] written else s
  | .read => s.read
  | .acquire => s.acquire
  | .render ok => s.render ok
  | .deliver => s.deliver
  | .releaseFrame shm slot => s.releaseFrame shm slot
  | .claimElsewhere worker credit maxBytes => s.claimElsewhere c worker credit maxBytes
  | .answerElsewhere ticket =>
    if s.intake.claimedElsewhere c.worker ticket then { s with intake := s.intake.close ticket }
    else s
  | .crashElsewhere worker dropped =>
    if worker = c.worker then s
    else { s with intake := s.intake.crashed c.order worker dropped }
  | .restart slots slotBytes dropped =>
    attach (s.intake.crashed c.order c.worker dropped) (s.shm + 1) slots slotBytes
  | .rebuildSegment slots written => s.rebuildSegment c slots written

/-- Every slot is free, assigned to one outstanding ticket, or held by a consumer; the ring holds
the slots that were assigned and not yet taken, and then the free ones; and the slot that the worker
takes for its next ticket is the assigned one. -/
structure Conserved (s : Segment F) : Prop where
  once : (s.table.freeSlots ++ s.table.outstanding.map Prod.snd ++ s.table.held).Perm
    (List.range s.slots)
  tickets : (s.table.outstanding.map Prod.fst).Nodup
  ring : s.freeRing.toList = s.unacquired.map Prod.snd ++ s.table.freeSlots
  acquires : ∀ x job, s.acquired = none → s.job = x :: job →
    ∃ ring, s.freeRing.pop = some (x.2, ring)

/-- The floats of a message that the worker reads are finite. -/
def FiniteRead [Finite64 F] (s : Segment F) : SegmentAction F → Prop
  | .read => ∀ message ∈ s.inbox.head?, ∀ f ∈ message.floats, Finite64.isFinite f = true
  | _ => True

end Segment

/-! ### Rings -/

variable {ring : RingBuffer ℕ}

theorem toList_giveBack (h : ring.toList.length + 1 < ring.capacity) (slot : ℕ) :
    (giveBack ring (some slot)).toList = ring.toList ++ [slot] ∧
      (giveBack ring (some slot)).capacity = ring.capacity := by
  obtain ⟨ring', hpush, hlist, hcapacity⟩ := RingBuffer.push_of_lt h slot
  rw [giveBack, hpush]
  exact ⟨hlist, hcapacity⟩

theorem toList_seededRing (slots : ℕ) : (seededRing slots).toList = List.range slots ∧
    (seededRing slots).capacity = slots + 1 := by
  -- the first `n` slots are in the ring after `n` rounds
  have hrounds (n : ℕ) (hn : n ≤ slots) :
      ((List.range n).foldl (fun ring slot => (ring.push slot).getD ring)
        (RingBuffer.empty (slots + 1) (Nat.succ_pos _) 0)).toList = List.range n ∧
      ((List.range n).foldl (fun ring slot => (ring.push slot).getD ring)
        (RingBuffer.empty (slots + 1) (Nat.succ_pos _) 0)).capacity = slots + 1 := by
    induction n with
    | zero => exact ⟨RingBuffer.toList_empty _ _ _, rfl⟩
    | succ n ih =>
      obtain ⟨hlist, hcapacity⟩ := ih (Nat.le_of_succ_le hn)
      rw [List.range_succ, List.foldl_append, List.foldl_cons, List.foldl_nil]
      have hgiven := toList_giveBack (by rw [hlist, hcapacity, List.length_range]; omega) n
      rw [hlist, hcapacity] at hgiven
      exact hgiven
  exact hrounds slots le_rfl

namespace Segment

variable {c : SegmentConfig} {s : Segment F}

/-- The books of the dispatcher and the segment agree. -/
structure Mirrored (c : SegmentConfig) (s : Segment F) : Prop where
  filed : s.intake.Filed
  owned : ∀ x ∈ s.table.outstanding, s.intake.Owned c.worker x.1
  once : (s.table.freeSlots ++ s.table.outstanding.map Prod.snd ++ s.table.held).Perm
    (List.range s.slots)
  tickets : (s.table.outstanding.map Prod.fst).Nodup
  ring : s.freeRing.toList = s.unacquired.map Prod.snd ++ s.table.freeSlots
  capacity : s.freeRing.capacity = s.slots + 1
  ready : s.readyRing.toList = (s.outbox.filterMap Answer.ready).map Prod.snd
  queue : ∃ unsent, s.unacquired = s.job ++ s.inbox.flatMap ControlMsg.assignments ++ unsent ∧
    (s.alive = true → unsent = [])
  served : (s.unacquired.map Prod.fst ++ s.acquired.toList.map Prod.fst ++
    s.outbox.filterMap Answer.ticket).Perm (s.table.outstanding.map Prod.fst)
  known : ∀ x, x ∈ s.unacquired ∨ x ∈ s.acquired ∨ x ∈ s.outbox.filterMap Answer.ready →
    x ∈ s.table.outstanding

namespace Mirrored

theorem pop_eq (h : s.Mirrored c) {x : ℤ × ℕ} {job : List (ℤ × ℕ)} (hjob : s.job = x :: job) :
    ∃ ring, s.freeRing.pop = some (x.2, ring) ∧
      s.freeRing.toList = x.2 :: ring.toList ∧ ring.capacity = s.freeRing.capacity := by
  obtain ⟨unsent, hqueue, -⟩ := h.queue
  have hlist := h.ring
  rw [hqueue, hjob] at hlist
  obtain ⟨ring, hpop, -⟩ := RingBuffer.pop_of_cons hlist
  exact ⟨ring, hpop, RingBuffer.toList_pop hpop, RingBuffer.capacity_pop hpop⟩

theorem conserved (h : s.Mirrored c) : s.Conserved where
  once := h.once
  tickets := h.tickets
  ring := h.ring
  acquires x job _ hjob := by
    obtain ⟨ring, hpop, -⟩ := h.pop_eq hjob
    exact ⟨ring, hpop⟩

theorem intake (h : s.Mirrored c) {t : Intake F} (hfiled : t.Filed)
    (howned : ∀ id, s.intake.Owned c.worker id → t.Owned c.worker id) :
    Mirrored c { s with intake := t } :=
  { h with
    filed := hfiled
    owned := fun x hx => howned _ (h.owned x hx) }

theorem attach {t : Intake F} (h : t.Filed) (shm slots slotBytes : ℕ) :
    Mirrored c (attach t shm slots slotBytes) where
  filed := h
  owned _ hx := absurd hx List.not_mem_nil
  once := by simp [Segment.attach, SlotTable.shell]
  tickets := List.nodup_nil
  ring := (toList_seededRing slots).1
  capacity := (toList_seededRing slots).2
  ready := RingBuffer.toList_empty _ _ _
  queue := ⟨[], rfl, fun _ => rfl⟩
  served := .refl _
  known _ hx := by simp [Segment.attach] at hx

section

variable (h : s.Mirrored c)

include h

/-- Messages are written after the others; what is not written is not in the inbox. -/
theorem send {messages : List (ControlMsg F)}
    (hassigned : ∃ unacquired, s.unacquired =
      unacquired ++ messages.flatMap ControlMsg.assignments ∧
      unacquired = s.job ++ s.inbox.flatMap ControlMsg.assignments) (written : ℕ) :
    Mirrored c (s.send messages written) := by
  obtain ⟨unacquired, hsplit, hqueue⟩ := hassigned
  refine { h with queue := ⟨(messages.drop written).flatMap ControlMsg.assignments, ?_, ?_⟩ }
  · have hcut : messages.flatMap ControlMsg.assignments =
        (messages.take written).flatMap ControlMsg.assignments ++
          (messages.drop written).flatMap ControlMsg.assignments := by
      rw [← List.flatMap_append, List.take_append_drop]
    show s.unacquired = s.job ++ (s.inbox ++ messages.take written).flatMap
      ControlMsg.assignments ++ (messages.drop written).flatMap ControlMsg.assignments
    rw [hsplit, hqueue, hcut]
    simp only [List.flatMap_append, List.append_assoc]
  · intro halive
    rw [List.drop_eq_nil_of_le (of_decide_eq_true halive)]
    rfl

/-- The number of slots in the ring leaves room for one that is elsewhere. -/
theorem room (hslot : s.unacquired.length < s.table.outstanding.length ∨ s.table.held ≠ []) :
    s.freeRing.toList.length + 1 < s.freeRing.capacity := by
  have hslots := h.once.length_eq
  have hserved := h.served.length_eq
  rw [h.ring, h.capacity]
  simp only [List.length_append, List.length_map, List.length_range] at hslots hserved ⊢
  rcases hslot with hslot | hslot
  · omega
  · have := List.length_pos_of_ne_nil hslot
    omega

theorem dispatch (written : ℕ) : Mirrored c (s.dispatch c written) := by
  rw [Segment.dispatch]
  split_ifs with halive
  · rcases hdispatch : s.intake.dispatch c.worker s.table s.slotBytes c.slotFormat with _ | result
    · exact h
    · obtain ⟨t, table, messages⟩ := result
      obtain ⟨out, assigned, hout⟩ := Intake.dispatched h.filed
        (fun x hx => (h.owned x hx).pending) hdispatch
      obtain ⟨batch, s', hclaimed, rfl⟩ := hout.claimed
      obtain ⟨unsent, hqueue, hunsent⟩ := h.queue
      have hpayload (x : ℤ × ℕ) (hx : x ∈ assigned) : ∃ e ∈ out, e.request.payload = x.1 :=
        List.mem_map.1 (hout.tickets.subset (List.mem_map_of_mem hx))
      rw [hunsent halive, List.append_nil] at hqueue
      have hfree := hout.slots
      -- the state between the claim and the messages
      have hclaim : Mirrored c { s with
          intake := { s.intake with scheduler := s' }
          table := table
          alive := false
          unacquired := s.unacquired ++ assigned } := by
        refine { h with
          filed := h.filed.claim hclaimed
          owned := fun x hx => ?_
          once := ?_
          tickets := ?_
          ring := ?_
          queue := ⟨assigned, by rw [hqueue], fun hfalse => absurd hfalse Bool.false_ne_true⟩
          served := ?_
          known := fun x hx => ?_ }
        · rw [hout.outstanding, List.mem_append] at hx
          rcases hx with hx | hx
          · exact (h.owned x hx).claim hclaimed
          · obtain ⟨e, he, heq⟩ := hpayload x hx
            exact heq ▸ Intake.Owned.of_claim h.filed hclaimed he
        · refine List.Perm.trans ?_ h.once
          rw [hout.outstanding, hout.held, hfree, List.map_append]
          refine List.perm_iff_count.2 fun slot => ?_
          simp only [List.count_append]
          omega
        · rw [hout.outstanding, List.map_append, List.nodup_append]
          refine ⟨h.tickets, ?_, fun a ha b hb heq => ?_⟩
          · exact hout.nodup
          · obtain ⟨x, hx, rfl⟩ := List.mem_map.1 ha
            obtain ⟨y, hy, rfl⟩ := List.mem_map.1 hb
            obtain ⟨e, he, hid⟩ := hpayload y hy
            exact (h.owned x hx).pending e (hclaimed.mem_pending.2 (.inl he)) (hid.trans heq.symm)
        · rw [h.ring, hfree, List.map_append, List.append_assoc]
        · rw [hout.outstanding, List.map_append, List.map_append]
          refine List.perm_iff_count.2 fun id => ?_
          have hcount := List.perm_iff_count.1 h.served id
          simp only [List.count_append] at hcount ⊢
          omega
        · rw [hout.outstanding, List.mem_append]
          rcases hx with hx | hx
          · exact (List.mem_append.1 hx).imp_left fun hx => h.known x (.inl hx)
          · exact .inl (h.known x (.inr hx))
      have hsent := hclaim.send ⟨s.unacquired, by rw [hout.messages], hqueue⟩ written
      dsimp only
      rw [hout.messages]
      exact hsent
  · exact h

theorem read [Finite64 F] (hfinite : FiniteRead s .read) : Mirrored c s.read := by
  rw [Segment.read]
  split
  next message inbox hjob hacquired hinbox =>
    have hreadable : message.readable = true :=
      List.all_eq_true.2 (hfinite message (by rw [hinbox]; exact rfl))
    rw [if_pos hreadable]
    obtain ⟨unsent, hqueue, hunsent⟩ := h.queue
    refine { h with queue := ⟨unsent, ?_, hunsent⟩ }
    rw [hqueue, hjob, hinbox, List.flatMap_cons, List.nil_append]
  next => exact h

/-- The tickets that wait for a slot, that have one, and that are answered are all different. -/
theorem served_nodup : (s.unacquired.map Prod.fst ++
    s.acquired.toList.map Prod.fst ++ s.outbox.filterMap Answer.ticket).Nodup :=
  h.served.nodup_iff.2 h.tickets

theorem acquire : Mirrored c s.acquire := by
  rw [Segment.acquire]
  split
  next x job hjob hacquired =>
    obtain ⟨ring, hpop, hlist, hcapacity⟩ := h.pop_eq hjob
    obtain ⟨unsent, hqueue, hunsent⟩ := h.queue
    rw [hjob, List.cons_append, List.cons_append] at hqueue
    have hnodup := h.served_nodup
    have hserved := h.served
    have hring := h.ring
    simp only [hqueue, List.map_cons, List.cons_append] at hnodup hserved hring
    have hrest : s.unacquired.filter (fun y => y.1 ≠ x.1) =
        job ++ s.inbox.flatMap ControlMsg.assignments ++ unsent := by
      rw [hqueue, List.filter_cons_of_neg (by simp)]
      refine List.filter_eq_self.2 fun y hy => decide_eq_true fun heq => ?_
      refine (List.nodup_cons.1 hnodup).1 ?_
      exact List.mem_append_left _ (List.mem_append_left _ (heq ▸ List.mem_map_of_mem hy))
    rw [hacquired] at hserved
    simp only [hpop, if_true]
    refine { h with
      ring := ?_
      capacity := hcapacity.trans h.capacity
      queue := ⟨unsent, hrest, hunsent⟩
      served := ?_
      known := fun y hy => ?_ }
    · rw [hrest]
      rw [hlist, List.cons.injEq] at hring
      exact hring.2
    · rw [hrest]
      refine List.Perm.trans ?_ hserved
      rw [Option.toList_some, List.map_singleton, List.append_assoc]
      exact List.perm_middle.trans (.of_eq (by simp))
    · rw [hrest] at hy
      rcases hy with hy | hy | hy
      · exact h.known y (.inl (hqueue ▸ List.mem_cons_of_mem _ hy))
      · obtain rfl := Option.some.inj hy
        exact h.known x (.inl (hqueue ▸ List.mem_cons_self))
      · exact h.known y (.inr (.inr hy))
  next => exact h

theorem render (ok : Bool) : Mirrored c (s.render ok) := by
  rw [Segment.render]
  split
  next => exact h
  next x hacquired =>
    have hserved := h.served
    have hx : x ∈ s.table.outstanding := h.known x (.inr (.inl hacquired))
    rw [hacquired, Option.toList_some, List.map_singleton] at hserved
    have hanswered : (s.unacquired.map Prod.fst ++ (none : Option (ℤ × ℕ)).toList.map Prod.fst ++
        (s.outbox.filterMap Answer.ticket ++ [x.1])).Perm
        (s.table.outstanding.map Prod.fst) := by
      refine List.Perm.trans ?_ hserved
      rw [Option.toList_none, List.map_nil, List.append_nil, List.append_assoc]
      exact List.Perm.append_left _ List.perm_append_comm
    split
    next =>
      refine { h with
        ready := ?_
        served := ?_
        known := fun y hy => ?_ }
      · have hnone : [Answer.frameFailed x.1].filterMap Answer.ready = [] := rfl
        rw [List.filterMap_append, hnone, List.append_nil]
        exact h.ready
      · rw [List.filterMap_append]
        exact hanswered
      · rw [List.filterMap_append] at hy
        rcases hy with hy | hy | hy
        · exact h.known y (.inl hy)
        · exact absurd hy (by simp)
        · exact h.known y (.inr (.inr (by simpa [Answer.ready] using hy)))
    next ring hring =>
      obtain ⟨-, hpush⟩ : ok = true ∧ s.readyRing.push x.2 = some ring := by
        cases ok with
        | false => exact absurd hring (by simp)
        | true => exact ⟨rfl, hring⟩
      refine { h with
        ready := ?_
        served := ?_
        known := fun y hy => ?_ }
      · rw [RingBuffer.toList_push hpush, h.ready, List.filterMap_append, List.map_append]
        rfl
      · rw [List.filterMap_append]
        exact hanswered
      · rw [List.filterMap_append] at hy
        rcases hy with hy | hy | hy
        · exact h.known y (.inl hy)
        · exact absurd hy (by simp)
        · rcases List.mem_append.1 hy with hy | hy
          · exact h.known y (.inr (.inr hy))
          · obtain rfl : y = x := by simpa [Answer.ready] using hy
            exact hx

end

/-! ### Answers -/

section Answers

variable {answer : Answer} {outbox : List Answer} {ticket : ℤ} {slot : ℕ}

theorem remove_perm (h : s.Mirrored c) (hmem : (ticket, slot) ∈ s.table.outstanding) :
    ((ticket, slot) :: (s.table.remove ticket).outstanding).Perm s.table.outstanding :=
  cons_filter_perm h.tickets hmem

theorem not_mem_held (h : s.Mirrored c) (hmem : (ticket, slot) ∈ s.table.outstanding) :
    slot ∉ s.table.held := fun hheld =>
  (List.nodup_append.1 (h.once.nodup_iff.2 List.nodup_range)).2.2 slot
    (List.mem_append_right _ (List.mem_map_of_mem hmem)) slot hheld rfl

theorem ticket_of_ready {a : Answer} {x : ℤ × ℕ} (hready : a.ready = some x) :
    a.ticket = some x.1 := by
  cases a with
  | frameReady ticket slot => exact Option.some.inj hready ▸ rfl
  | frameFailed ticket => exact absurd hready (by simp [Answer.ready])
  | error => exact absurd hready (by simp [Answer.ready])

section

variable (h : s.Mirrored c) (houtbox : s.outbox = answer :: outbox)
  (hticket : answer.ticket = some ticket)

include h houtbox hticket

theorem served_remove (hmem : (ticket, slot) ∈ s.table.outstanding) :
    (s.unacquired.map Prod.fst ++ s.acquired.toList.map Prod.fst ++
      outbox.filterMap Answer.ticket).Perm ((s.table.remove ticket).outstanding.map Prod.fst) := by
  have hserved := h.served
  rw [houtbox, List.filterMap_cons_some hticket] at hserved
  have hperm := (List.perm_middle.symm.trans hserved).trans
    ((h.remove_perm hmem).symm.map Prod.fst)
  exact hperm.cons_inv

theorem known_remove (x : ℤ × ℕ)
    (hx : x ∈ s.unacquired ∨ x ∈ s.acquired ∨ x ∈ outbox.filterMap Answer.ready) :
    x ∈ (s.table.remove ticket).outstanding := by
  have hready : outbox.filterMap Answer.ready ⊆ s.outbox.filterMap Answer.ready := by
    rw [houtbox]
    exact ((List.sublist_cons_self answer outbox).filterMap _).subset
  refine List.mem_filter.2 ⟨h.known x (hx.imp_right (Or.imp_right fun hx => hready hx)),
    decide_eq_true fun heq => ?_⟩
  -- the ticket would be served twice
  have hnodup := h.served_nodup
  rw [houtbox, List.filterMap_cons_some hticket] at hnodup
  refine (List.nodup_cons.1 (List.nodup_middle.1 hnodup)).1 ?_
  simp only [List.mem_append, or_assoc]
  rcases hx with hx | hx | hx
  · exact .inl (heq ▸ List.mem_map_of_mem hx)
  · exact .inr (.inl (heq ▸ List.mem_map_of_mem (Option.mem_toList.2 hx)))
  · obtain ⟨a, ha, hready⟩ := List.mem_filterMap.1 hx
    exact .inr (.inr (List.mem_filterMap.2 ⟨a, ha, heq ▸ ticket_of_ready hready⟩))

theorem taken (hmem : (ticket, slot) ∈ s.table.outstanding)
    (hring : ring.toList = (outbox.filterMap Answer.ready).map Prod.snd) :
    Mirrored c { s with
      outbox := outbox
      table := (s.table.remove ticket).hold slot
      readyRing := ring } := by
  have hheld : ((s.table.remove ticket).hold slot).held = s.table.held ++ [slot] :=
    if_neg (h.not_mem_held hmem)
  refine { h with
    owned := fun x hx => h.owned x (List.mem_of_mem_filter hx)
    once := ?_
    tickets := h.tickets.sublist (List.filter_sublist.map _)
    ready := hring
    served := h.served_remove houtbox hticket hmem
    known := h.known_remove houtbox hticket }
  rw [hheld]
  refine List.Perm.trans (List.perm_iff_count.2 fun a => ?_) h.once
  have hcount := List.perm_iff_count.1 ((h.remove_perm hmem).map Prod.snd) a
  simp only [List.map_cons, List.count_cons, List.count_append, List.count_nil] at hcount ⊢
  have hsame : ((s.table.remove ticket).hold slot).freeSlots = s.table.freeSlots := rfl
  have hrest : ((s.table.remove ticket).hold slot).outstanding =
    (s.table.remove ticket).outstanding := rfl
  rw [hsame, hrest]
  omega

end

theorem recycled (h : s.Mirrored c) (table : SlotTable) (houtbox : s.outbox = answer :: outbox)
    (hticket : answer.ticket = some ticket) (hmem : (ticket, slot) ∈ s.table.outstanding)
    (hfree : table.freeSlots = s.table.freeSlots ++ [slot])
    (hout : table.outstanding = (s.table.remove ticket).outstanding)
    (hheld : table.held = s.table.held)
    (hring : ring.toList = (outbox.filterMap Answer.ready).map Prod.snd) :
    Mirrored c { s with
      outbox := outbox
      table := table
      readyRing := ring
      freeRing := giveBack s.freeRing (some slot) } := by
  have hserved := h.served_remove houtbox hticket hmem
  have hroom : s.unacquired.length < s.table.outstanding.length := by
    have hlength := hserved.length_eq
    have hcons := (h.remove_perm hmem).length_eq
    simp only [List.length_append, List.length_map, List.length_cons] at hlength hcons
    omega
  obtain ⟨hgiven, hcapacity⟩ := toList_giveBack (h.room (.inl hroom)) slot
  refine { h with
    owned := fun x hx => ?_
    once := ?_
    tickets := ?_
    ring := ?_
    capacity := hcapacity.trans h.capacity
    ready := hring
    served := by rwa [hout]
    known := by rw [hout]; exact h.known_remove houtbox hticket }
  · rw [hout] at hx
    exact h.owned x (List.mem_of_mem_filter hx)
  · rw [hfree, hout, hheld]
    refine List.Perm.trans (List.perm_iff_count.2 fun a => ?_) h.once
    have hcount := List.perm_iff_count.1 ((h.remove_perm hmem).map Prod.snd) a
    simp only [List.map_cons, List.count_cons, List.count_append, List.count_nil] at hcount ⊢
    omega
  · rw [hout]
    exact h.tickets.sublist (List.filter_sublist.map _)
  · rw [hgiven, h.ring, hfree, List.append_assoc]

theorem deliver (h : s.Mirrored c) : Mirrored c s.deliver := by
  rw [Segment.deliver]
  rcases houtbox : s.outbox with _ | ⟨answer, outbox⟩
  · exact h
  · have hready := h.ready
    have hserved := h.served
    rw [houtbox] at hready hserved
    cases answer with
    | error =>
      have hknown := h.known
      rw [houtbox] at hknown
      exact { h with ready := hready, served := hserved, known := hknown }
    | frameReady ticket slot =>
      have hmem : (ticket, slot) ∈ s.table.outstanding :=
        h.known _ (.inr (.inr (by rw [houtbox]; exact List.mem_cons_self)))
      obtain ⟨ring, hpop, hring⟩ := RingBuffer.pop_of_cons hready
      have hclosed := h.intake (h.filed.close_owned (h.owned _ hmem)) fun id hid => hid.close ticket
      simp only [Intake.onFrameReady, (SlotTable.slotOf_eq_some_iff h.tickets).2 hmem, hpop,
        Option.map_some, Option.getD_some]
      rcases hticket : s.intake.ticket ticket with _ | pt
      · refine h.recycled (((s.table.remove ticket).hold slot).recycleSlot slot) houtbox rfl hmem
          rfl rfl ?_ hring
        have hheld := h.not_mem_held hmem
        have hsame : s.table.held.filter (fun x => x ≠ slot) = s.table.held :=
          List.filter_eq_self.2 fun x hx => decide_eq_true fun heq => hheld (heq ▸ hx)
        have hhold : ((s.table.remove ticket).hold slot).held = s.table.held ++ [slot] :=
          if_neg hheld
        rw [SlotTable.recycleSlot, hhold, List.filter_append, hsame]
        simp
      · exact hclosed.taken houtbox rfl hmem hring
    | frameFailed ticket =>
      obtain ⟨⟨ticket, slot⟩, hmem, rfl⟩ : ∃ x ∈ s.table.outstanding, x.1 = ticket :=
        List.mem_map.1 (hserved.subset (List.mem_append_right _ List.mem_cons_self))
      have hclosed := h.intake (h.filed.close_owned (h.owned _ hmem)) fun id hid => hid.close ticket
      have hslot : s.table.slotOf ticket = some slot :=
        (SlotTable.slotOf_eq_some_iff h.tickets).2 hmem
      simp only [Intake.onFrameFailed, hslot, Option.map_some]
      refine hclosed.recycled ((s.table.remove ticket).recycleSlot slot) houtbox rfl hmem rfl rfl ?_
        hready
      have hheld := h.not_mem_held hmem
      exact List.filter_eq_self.2 fun x hx => decide_eq_true fun heq => hheld (heq ▸ hx)

theorem releaseFrame (h : s.Mirrored c) (shm slot : ℕ) : Mirrored c (s.releaseFrame shm slot) := by
  rw [Segment.releaseFrame]
  split_ifs
  · exact h
  · by_cases hheld : slot ∈ s.table.held
    · rw [SlotTable.release, if_pos hheld]
      have hnodup : s.table.held.Nodup :=
        (List.nodup_append.1 (h.once.nodup_iff.2 List.nodup_range)).2.1
      have hperm : (slot :: s.table.held.filter fun x => x ≠ slot).Perm s.table.held :=
        cons_filter_perm (f := id) (by rwa [List.map_id]) hheld
      obtain ⟨hgiven, hcapacity⟩ := toList_giveBack
        (h.room (.inr (List.ne_nil_of_mem hheld))) slot
      refine { h with
        once := ?_
        ring := ?_
        capacity := hcapacity.trans h.capacity }
      · refine List.Perm.trans (List.perm_iff_count.2 fun a => ?_) h.once
        have hcount := List.perm_iff_count.1 hperm a
        simp only [SlotTable.recycleSlot, List.count_cons, List.count_append, List.count_nil]
          at hcount ⊢
        omega
      · rw [hgiven, h.ring, List.append_assoc]
        rfl
    · rw [SlotTable.release, if_neg hheld]
      exact h

end Answers

/-! ### Other workers, and other segments -/

theorem claimElsewhere (h : s.Mirrored c) (worker credit maxBytes : ℕ) :
    Mirrored c (s.claimElsewhere c worker credit maxBytes) := by
  rw [Segment.claimElsewhere]
  rcases hclaim : s.intake.scheduler.claimBatch worker credit maxBytes with _ | ⟨batch, s'⟩
  · exact h
  · obtain ⟨out, hclaimed⟩ := PreviewScheduler.claimed_claimBatch h.filed.keyed hclaim
    dsimp only
    split_ifs
    · exact h
    · exact h.intake (h.filed.claim hclaimed) fun id hid => hid.claim hclaimed

theorem answerElsewhere (h : s.Mirrored c) {ticket : ℤ}
    (helsewhere : s.intake.claimedElsewhere c.worker ticket = true) :
    Mirrored c { s with intake := s.intake.close ticket } := by
  refine h.intake (h.filed.close fun pt hpt => ?_) fun id hid => hid.close ticket
  -- the claim of the other worker is that of the ticket
  obtain ⟨k, hk, hother⟩ := List.any_eq_true.1 helsewhere
  rw [Bool.and_eq_true, decide_eq_true_eq, decide_eq_true_eq] at hother
  obtain ⟨r, hr, hid, hkey⟩ := h.filed.exists_request hpt
  have hsame := h.filed.request_unique (Intake.mem_requests.2 (.inr ⟨k, hk, rfl⟩)) hr
    (hother.1.trans hid.symm)
  refine List.mem_map.2 ⟨k, hk, ?_⟩
  rw [← h.filed.keyed.own k hk, hsame, hkey]

theorem rebuildSegment (h : s.Mirrored c) (slots written : ℕ) :
    Mirrored c (s.rebuildSegment c slots written) := by
  rw [Segment.rebuildSegment]
  split_ifs with hidle
  · obtain ⟨halive, hempty⟩ := Bool.and_eq_true_iff.1 hidle
    have hout : s.table.outstanding = [] := List.isEmpty_iff.1 hempty
    split
    · exact h
    next need hneed =>
      -- nothing is served
      have hserved := h.served
      rw [hout, List.map_nil] at hserved
      obtain ⟨hwaiting, hanswered⟩ := List.append_eq_nil_iff.1 hserved.eq_nil
      have hunacquired : s.unacquired = [] :=
        List.map_eq_nil_iff.1 (List.append_eq_nil_iff.1 hwaiting).1
      have hready : s.outbox.filterMap Answer.ready = [] := by
        refine List.eq_nil_iff_forall_not_mem.2 fun x hx => ?_
        have hmem := h.known x (.inr (.inr hx))
        rw [hout] at hmem
        exact List.not_mem_nil hmem
      obtain ⟨unsent, hqueue, hunsent⟩ := h.queue
      rw [hunsent halive, List.append_nil] at hqueue
      have hswapped : Mirrored c { s with
          shm := s.shm + 1
          slots := slots
          slotBytes := need
          table := { s.table with freeSlots := List.range slots, held := [] }
          freeRing := seededRing slots
          readyRing := .empty (slots + 1) (Nat.succ_pos _) 0 } :=
        { h with
          once := by rw [hout]; simp
          ring := by rw [hunacquired]; exact (toList_seededRing slots).1
          capacity := (toList_seededRing slots).2
          ready := by rw [hready]; exact RingBuffer.toList_empty _ _ _ }
      exact hswapped.send ⟨s.unacquired, (List.append_nil _).symm, hqueue⟩ written
  · exact h

theorem sendControl (h : s.Mirrored c) {message : ControlMsg F} (hnone : message.assignments = [])
    (halive : s.alive = true) (written : ℕ) : Mirrored c (s.send [message] written) := by
  obtain ⟨unsent, hqueue, hunsent⟩ := h.queue
  rw [hunsent halive, List.append_nil] at hqueue
  refine h.send ⟨s.unacquired, ?_, hqueue⟩ written
  rw [List.flatMap_singleton, hnone, List.append_nil]

theorem act [Finite64 F] (h : s.Mirrored c) {a : SegmentAction F} (hfinite : FiniteRead s a) :
    Mirrored c (s.act c a) := by
  cases a with
  | post job =>
    exact h.intake (h.filed.post c.slotFormat job) fun id hid => hid.post c.slotFormat job
  | cancelFrame key => exact h.intake (h.filed.cancelFrame key) fun id hid => hid.cancelFrame key
  | cancelPreviewSequence sequence =>
    exact h.intake (h.filed.cancelSequence c.order_perm sequence)
      fun id hid => hid.cancelSequence sequence
  | dispatch written => exact h.dispatch written
  | setGraphSnapshot path written =>
    rw [Segment.act]
    split_ifs with halive
    · exact h.sendControl rfl halive written
    · exact h
  | broadcastPluginCancel written =>
    rw [Segment.act]
    split_ifs with halive
    · exact h.sendControl rfl halive written
    · exact h
  | read => exact h.read hfinite
  | acquire => exact h.acquire
  | render ok => exact h.render ok
  | deliver => exact h.deliver
  | releaseFrame shm slot => exact h.releaseFrame shm slot
  | claimElsewhere worker credit maxBytes => exact h.claimElsewhere worker credit maxBytes
  | answerElsewhere ticket =>
    rw [Segment.act]
    split_ifs with helsewhere
    · exact h.answerElsewhere helsewhere
    · exact h
  | crashElsewhere worker dropped =>
    rw [Segment.act]
    split_ifs with hworker
    · exact h
    · exact h.intake (h.filed.crashed c.order_perm worker dropped)
        fun id hid => hid.crashed c.order_perm hworker dropped
  | restart slots slotBytes dropped =>
    exact attach (h.filed.crashed c.order_perm c.worker dropped) _ slots slotBytes
  | rebuildSegment slots written => exact h.rebuildSegment slots written

end Mirrored

theorem finiteRead_read [Finite64 F] (h : s.inbox.head?.all ControlMsg.readable = true) :
    FiniteRead s .read := fun message hmessage f hf => by
  rw [Option.mem_def.1 hmessage, Option.all_some] at h
  exact List.all_eq_true.1 h f hf

theorem mirrored_run [Finite64 F] (c : SegmentConfig) (workers batchSize slots slotBytes : ℕ)
    {as : List (SegmentAction F)}
    (has : Permitted (act c) FiniteRead (start workers batchSize slots slotBytes) as) :
    Mirrored c (run (act c) (start workers batchSize slots slotBytes) as) := by
  have hstep (s : Segment F) (a : SegmentAction F) (h : Mirrored c s) (ha : FiniteRead s a) :
      Mirrored c (act c s a) := h.act ha
  exact invariant_run hstep (.attach (Intake.filed_new workers batchSize) 0 slots slotBytes) has

/-- Slots are conserved in every run in which the worker reads finite floats only. -/
theorem conserved_run [Finite64 F] (c : SegmentConfig) (workers batchSize slots slotBytes : ℕ)
    (as : List (SegmentAction F))
    (has : Permitted (act c) FiniteRead (start workers batchSize slots slotBytes) as) :
    Conserved (run (act c) (start workers batchSize slots slotBytes) as) :=
  (mirrored_run c workers batchSize slots slotBytes has).conserved

/-! ### A run -/

/-- An audio ticket of eight bytes, with one clip. -/
def gainJob (frame : ℤ) (gain : Option ℚ) : Job (Option ℚ) :=
  ⟨1, ⟨none, none, [], []⟩, some ⟨some 8, [⟨gain, []⟩]⟩, ⟨.background, some frame, 0, 0⟩⟩

/-- Worker zero of a pool of one. -/
def soleWorker : SegmentConfig := ⟨0, slotFormatBgra8, id, List.Perm.refl⟩

/-- The ticket is posted, sent and read. -/
def sendGain (frame : ℤ) (gain : Option ℚ) : List (SegmentAction (Option ℚ)) :=
  [.post (gainJob frame gain), .dispatch 1, .read]

/-- Two finite tickets are sent, and the first is rendered and released. -/
theorem conserved_run_gain :
    Conserved (run (act soleWorker) (start 1 1 3 8294400) (sendGain 0 (some 1) ++
      [.acquire, .render true, .deliver, .releaseFrame 0 0] ++ sendGain 1 (some 2))) := by
  refine conserved_run soleWorker 1 1 3 8294400 _ ?_
  refine ⟨trivial, trivial, ?_, trivial, trivial, trivial, trivial, trivial, trivial, ?_, trivial⟩
  · exact finiteRead_read (by decide +kernel)
  · exact finiteRead_read (by decide +kernel)

/-- The first ticket has an infinite gain, which the worker does not read. Its slot stays in the
ring, so the worker takes it for the second ticket, which was assigned the next one. -/
theorem unreadable_shifts_slots :
    ¬ ∀ as, Conserved (run (act soleWorker)
      (start 1 1 3 8294400 : Segment (Option ℚ)) as) := by
  intro h
  obtain ⟨ring, hpop⟩ := (h (sendGain 0 none ++ sendGain 1 (some 1))).acquires (2, 1) []
    (by decide +kernel) (by decide +kernel)
  have hslot : (run (act soleWorker) (start 1 1 3 8294400)
      (sendGain 0 none ++ sendGain 1 (some 1))).freeRing.pop.map Prod.fst = some 1 := by
    rw [hpop]
    rfl
  exact absurd hslot (by decide +kernel)

end Segment

end Oak.Render
