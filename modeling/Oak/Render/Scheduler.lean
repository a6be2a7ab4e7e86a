import Mathlib.Data.List.Nodup
import Mathlib.Data.List.Perm.Basic
import Mathlib.Data.List.Sigma
import Mathlib.Algebra.Order.Group.Int

/-!
# The preview scheduler

`oak-render/src/scheduler.rs`: pending frame requests are claimed in batches by numbered workers.
A worker claims the frames whose number is its own modulo the worker count, and the frames that any
worker may claim; a crashed worker's claims come back as pending.

The table of claims is a hash map in the source: `order` is the order in which a walk over it meets
the claims.
-/

namespace Oak.Render

/-- `FrameKey`. -/
structure FrameKey where
  sequence : ℕ
  frame : ℤ
  version : ℕ
  deriving DecidableEq, Repr

/-- `FramePriority`, the most urgent class first. -/
inductive FramePriority where
  | seek | playback | background
  deriving DecidableEq, Repr

/-- The derived order of the classes. -/
def FramePriority.rank : FramePriority → ℕ
  | .seek => 0
  | .playback => 1
  | .background => 2

/-- `FrameRequest`. -/
structure FrameRequest (P : Type*) where
  key : FrameKey
  priority : FramePriority
  distance : ℤ
  payload : P
  slotBytes : ℕ
  deriving DecidableEq, Repr

/-- `ClaimedBatch`. -/
structure ClaimedBatch (P : Type*) where
  batchId : ℕ
  worker : ℕ
  frames : List (FrameRequest P)

/-- `Claim`. -/
structure Claim (P : Type*) where
  worker : ℕ
  request : FrameRequest P

/-- `PendingEntry`. -/
structure PendingEntry (P : Type*) where
  request : FrameRequest P
  anyWorker : Bool

/-- `SubmitOutcome`. -/
inductive SubmitOutcome (P : Type*) where
  | accepted
  | replaced (old : FrameRequest P)
  | inFlight

/-- `PreviewScheduler`. -/
structure PreviewScheduler (P : Type*) where
  workers : ℕ
  batchSize : ℕ
  pending : List (PendingEntry P)
  claimed : List (FrameKey × Claim P)
  nextBatchId : ℕ
  crashRequeued : ℕ

namespace PreviewScheduler

variable {P : Type*} (workers batchSize : ℕ)

/-- `new`. -/
def new : PreviewScheduler P :=
  let workers := max workers 1
  ⟨workers, if batchSize = 0 then max (120 / workers) 1 else batchSize, [], [], 1, 0⟩

/-- `set_worker_count`. -/
def setWorkerCount (s : PreviewScheduler P) (workers : ℕ) : PreviewScheduler P :=
  let workers := max workers 1
  { s with
    workers := workers
    batchSize :=
      if s.workers = workers then s.batchSize
      else min (max (120 / workers) 1) (max s.batchSize 1) }

/-- `is_claimed`. -/
def isClaimed (s : PreviewScheduler P) (key : FrameKey) : Bool :=
  s.claimed.any fun c => c.1 = key

/-- The first pending entry of the request's key is replaced. -/
def replacePending (entry : PendingEntry P) : List (PendingEntry P) → List (PendingEntry P)
  | [] => []
  | e :: es =>
    if e.request.key = entry.request.key then entry :: es else e :: replacePending entry es

/-- `submit`: a pending request of the same key is replaced, a claimed one stays. -/
def submit (s : PreviewScheduler P) (request : FrameRequest P) :
    PreviewScheduler P × SubmitOutcome P :=
  if s.isClaimed request.key then (s, .inFlight)
  else
    let anyWorker : Bool := request.priority = .seek
    match s.pending.find? fun e => e.request.key = request.key with
    | some old =>
      ({ s with pending := replacePending ⟨request, anyWorker⟩ s.pending }, .replaced old.request)
    | none => ({ s with pending := s.pending ++ [⟨request, anyWorker⟩] }, .accepted)

/-- A worker may claim the entry: by its frame number, or because any worker may. -/
def mayClaim (workers worker : ℕ) (e : PendingEntry P) : Bool :=
  e.anyWorker || e.request.key.frame % (workers : ℤ) = worker

/-- The order of claims: class, distance, frame, sequence. -/
def claimOrder (a b : FrameRequest P) : Ordering :=
  (compare a.priority.rank b.priority.rank).then <| (compare a.distance b.distance).then <|
    (compare a.key.frame b.key.frame).then (compare a.key.sequence b.key.sequence)

/-- The order inside a batch: class, distance, frame. -/
def batchOrder (a b : FrameRequest P) : Ordering :=
  (compare a.priority.rank b.priority.rank).then <| (compare a.distance b.distance).then
    (compare a.key.frame b.key.frame)

/-- The claimed entries among the sorted candidates: at most `cap`, and only seeks may take the
last of `credit` slots. -/
def takeEntries (cap credit : ℕ) :
    List (PendingEntry P × ℕ) → ℕ → List (PendingEntry P × ℕ)
  | [], _ => []
  | e :: es, taken =>
    if cap ≤ taken then []
    else if e.1.request.priority ≠ .seek ∧ credit ≤ taken + 1 then takeEntries cap credit es taken
    else e :: takeEntries cap credit es (taken + 1)

/-- An entry of the table of claims is set. -/
def insertClaim (claimed : List (FrameKey × Claim P)) (key : FrameKey) (claim : Claim P) :
    List (FrameKey × Claim P) :=
  (claimed.filter fun c => c.1 ≠ key) ++ [(key, claim)]

/-- The candidates of `claim_batch`, with their places, in the order of claims. -/
def candidates (s : PreviewScheduler P) (worker maxBytes : ℕ) : List (PendingEntry P × ℕ) :=
  (s.pending.zipIdx.filter fun e =>
    e.1.request.slotBytes ≤ maxBytes && mayClaim s.workers worker e.1).mergeSort
      fun a b => (claimOrder a.1.request b.1.request).isLE

/-- The entries at the places of `taken` leave the queue for the table of claims. -/
def claimTaken (s : PreviewScheduler P) (worker : ℕ) (taken : List (PendingEntry P × ℕ)) :
    ClaimedBatch P × PreviewScheduler P :=
  let marked := s.pending.zipIdx.filter fun e => taken.any fun t => t.2 = e.2
  let kept := s.pending.zipIdx.filter fun e => !taken.any fun t => t.2 = e.2
  let frames := marked.map fun e => e.1.request
  (⟨s.nextBatchId, worker, frames.mergeSort fun a b => (batchOrder a b).isLE⟩,
    { s with
      pending := kept.map Prod.fst
      claimed := frames.foldl (fun claimed r => insertClaim claimed r.key ⟨worker, r⟩) s.claimed
      nextBatchId := s.nextBatchId + 1 })

/-- `claim_batch`. -/
def claimBatch (s : PreviewScheduler P) (worker credit maxBytes : ℕ) :
    Option (ClaimedBatch P × PreviewScheduler P) :=
  if s.workers ≤ worker ∨ credit = 0 then none
  else
    let taken := takeEntries (min s.batchSize credit) credit (s.candidates worker maxBytes) 0
    if taken.isEmpty then none else some (s.claimTaken worker taken)

/-- `frame_done`, and `frame_failed`: the claim is dropped. -/
def frameDone (s : PreviewScheduler P) (key : FrameKey) : PreviewScheduler P :=
  { s with claimed := s.claimed.filter fun c => c.1 ≠ key }

/-- `worker_crashed`: the claims of a worker come back as pending, for any worker. -/
def workerCrashed (order : List (FrameRequest P) → List (FrameRequest P))
    (s : PreviewScheduler P) (worker : ℕ) : PreviewScheduler P × List (FrameRequest P) :=
  let reclaimed := order <|
    (s.claimed.filter fun c => c.2.worker = worker).map fun c => c.2.request
  ({ s with
      claimed := s.claimed.filter fun c => c.2.worker ≠ worker
      pending := s.pending ++ reclaimed.map fun r => ⟨r, true⟩
      crashRequeued := s.crashRequeued + reclaimed.length }, reclaimed)

/-- `cancel_key`: the pending request of a key, or else its claim, is dropped. -/
def cancelKey (s : PreviewScheduler P) (key : FrameKey) : PreviewScheduler P × Bool :=
  if s.pending.any fun e => e.request.key = key then
    ({ s with pending := s.pending.filter fun e => e.request.key ≠ key }, true)
  else (s.frameDone key, s.isClaimed key)

/-- `cancel_sequence`: all requests of a sequence are dropped. -/
def cancelSequence (order : List (FrameRequest P) → List (FrameRequest P))
    (s : PreviewScheduler P) (sequence : ℕ) : PreviewScheduler P × List (FrameRequest P) :=
  let dropped := (s.pending.filter fun e => e.request.key.sequence = sequence).map
    PendingEntry.request
  let cancelled := order <|
    (s.claimed.filter fun c => c.2.request.key.sequence = sequence).map fun c => c.2.request
  ({ s with
      pending := s.pending.filter fun e => e.request.key.sequence ≠ sequence
      claimed := s.claimed.filter fun c => c.2.request.key.sequence ≠ sequence },
    dropped ++ cancelled)

/-- `max_pending_bytes_for_worker`: the largest request that a worker may claim, if it does not fit
into `current`. -/
def maxPendingBytesForWorker (s : PreviewScheduler P) (worker current : ℕ) : Option ℕ :=
  if s.workers ≤ worker then none
  else
    (((s.pending.filter (mayClaim s.workers worker)).map fun e => e.request.slotBytes).max?).filter
      fun bytes => current < bytes

/-! ### The keys of requests -/

/-- No key is pending twice, claimed twice, or both, and a claim is filed under its key. -/
structure Keyed (s : PreviewScheduler P) : Prop where
  own : ∀ c ∈ s.claimed, c.2.request.key = c.1
  nodup : (s.pending.map (fun e => e.request.key) ++ s.claimed.map Prod.fst).Nodup

variable {s s' : PreviewScheduler P} {worker credit maxBytes : ℕ} {batch : ClaimedBatch P}

theorem keyed_new : (new workers batchSize : PreviewScheduler P).Keyed :=
  ⟨fun _ h => absurd h List.not_mem_nil, List.nodup_nil⟩

theorem Keyed.setWorkerCount (h : s.Keyed) (workers : ℕ) : (s.setWorkerCount workers).Keyed :=
  ⟨h.own, h.nodup⟩

theorem Keyed.sublist (h : s.Keyed) (hpending : s'.pending.Sublist s.pending)
    (hclaimed : s'.claimed.Sublist s.claimed) : s'.Keyed :=
  ⟨fun c hc => h.own c (hclaimed.subset hc),
    h.nodup.sublist ((hpending.map _).append (hclaimed.map _))⟩

theorem Keyed.frameDone (h : s.Keyed) (key : FrameKey) : (s.frameDone key).Keyed :=
  h.sublist (.refl _) List.filter_sublist

theorem Keyed.cancelKey (h : s.Keyed) (key : FrameKey) : (s.cancelKey key).1.Keyed := by
  rw [PreviewScheduler.cancelKey]
  split_ifs
  · exact h.sublist List.filter_sublist (.refl _)
  · exact h.frameDone key

theorem Keyed.cancelSequence (h : s.Keyed) (order : List (FrameRequest P) → List (FrameRequest P))
    (sequence : ℕ) : (s.cancelSequence order sequence).1.Keyed :=
  h.sublist List.filter_sublist List.filter_sublist

theorem isClaimed_iff {key : FrameKey} : s.isClaimed key = true ↔ key ∈ s.claimed.map Prod.fst := by
  simp only [isClaimed, List.any_eq_true, decide_eq_true_eq, List.mem_map]

/-! ### Submissions -/

theorem map_key_replacePending (entry : PendingEntry P) (es : List (PendingEntry P)) :
    (replacePending entry es).map (fun e => e.request.key) = es.map fun e => e.request.key := by
  induction es with
  | nil => rfl
  | cons e es ih =>
    rw [replacePending]
    split_ifs with h
    · rw [List.map_cons, List.map_cons, h]
    · rw [List.map_cons, List.map_cons, ih]

variable {es : List (PendingEntry P)} {entry e : PendingEntry P}

theorem mem_replacePending (hnodup : (es.map fun e => e.request.key).Nodup)
    (hmem : entry.request.key ∈ es.map fun e => e.request.key) :
    e ∈ replacePending entry es ↔ e = entry ∨ e ∈ es ∧ e.request.key ≠ entry.request.key := by
  induction es with
  | nil => exact absurd hmem List.not_mem_nil
  | cons x es ih =>
    rw [List.map_cons, List.nodup_cons] at hnodup
    rw [replacePending]
    split_ifs with h
    · have hrest (e) (he : e ∈ es) : e.request.key ≠ entry.request.key := fun heq =>
        hnodup.1 (List.mem_map.2 ⟨e, he, heq.trans h.symm⟩)
      rw [List.mem_cons, List.mem_cons]
      constructor
      · rintro (rfl | he)
        · exact .inl rfl
        · exact .inr ⟨.inr he, hrest e he⟩
      · rintro (rfl | ⟨rfl | he, hne⟩)
        · exact .inl rfl
        · exact absurd h hne
        · exact .inr he
    · have hmem' : entry.request.key ∈ es.map fun e => e.request.key := by
        rw [List.map_cons, List.mem_cons] at hmem
        exact hmem.resolve_left fun heq => h heq.symm
      rw [List.mem_cons, ih hnodup.2 hmem', List.mem_cons]
      constructor
      · rintro (rfl | rfl | he)
        · exact .inr ⟨.inl rfl, h⟩
        · exact .inl rfl
        · exact .inr ⟨.inr he.1, he.2⟩
      · rintro (rfl | ⟨rfl | he, hne⟩)
        · exact .inr (.inl rfl)
        · exact .inl rfl
        · exact .inr (.inr ⟨he, hne⟩)

theorem mem_of_mem_replacePending (h : e ∈ replacePending entry es) : e = entry ∨ e ∈ es := by
  induction es with
  | nil => exact absurd h List.not_mem_nil
  | cons x es ih =>
    rw [replacePending] at h
    split_ifs at h
    · exact (List.mem_cons.1 h).imp_right (List.mem_cons_of_mem x)
    · rcases List.mem_cons.1 h with rfl | h
      · exact .inr List.mem_cons_self
      · exact (ih h).imp_right (List.mem_cons_of_mem x)

/-- What a submission does to the queue. -/
inductive Submitted (s : PreviewScheduler P) (request : FrameRequest P) :
    PreviewScheduler P → SubmitOutcome P → Prop
  | inFlight (h : request.key ∈ s.claimed.map Prod.fst) : Submitted s request s .inFlight
  | accepted (hclaimed : request.key ∉ s.claimed.map Prod.fst)
      (hpending : request.key ∉ s.pending.map fun e => e.request.key) :
      Submitted s request
        { s with pending := s.pending ++ [⟨request, request.priority = .seek⟩] } .accepted
  | replaced (old : PendingEntry P) (hclaimed : request.key ∉ s.claimed.map Prod.fst)
      (hold : old ∈ s.pending) (hkey : old.request.key = request.key) :
      Submitted s request
        { s with pending := replacePending ⟨request, request.priority = .seek⟩ s.pending }
        (.replaced old.request)

theorem submitted_submit (s : PreviewScheduler P) (request : FrameRequest P) :
    Submitted s request (s.submit request).1 (s.submit request).2 := by
  rw [submit]
  split_ifs with h
  · exact .inFlight (isClaimed_iff.1 h)
  · have hclaimed : request.key ∉ s.claimed.map Prod.fst := fun hmem => h (isClaimed_iff.2 hmem)
    rcases hfind : s.pending.find? fun e => e.request.key = request.key with _ | old
    · dsimp only
      rw [hfind]
      refine .accepted hclaimed fun hmem => ?_
      obtain ⟨e, he, hkey⟩ := List.mem_map.1 hmem
      simpa [hkey] using List.find?_eq_none.1 hfind e he
    · dsimp only
      rw [hfind]
      exact .replaced old hclaimed (List.mem_of_find?_eq_some hfind)
        (by simpa using List.find?_some hfind)

theorem claimed_submit (s : PreviewScheduler P) (request : FrameRequest P) :
    (s.submit request).1.claimed = s.claimed := by
  have hsubmitted := submitted_submit s request
  generalize (s.submit request).1 = s', (s.submit request).2 = outcome at hsubmitted ⊢
  cases hsubmitted <;> rfl

theorem Keyed.submit (h : s.Keyed) (request : FrameRequest P) : (s.submit request).1.Keyed := by
  have hsubmitted := submitted_submit s request
  generalize (s.submit request).1 = s', (s.submit request).2 = outcome at hsubmitted ⊢
  cases hsubmitted with
  | inFlight => exact h
  | accepted hclaimed hpending =>
    refine ⟨h.own, ?_⟩
    have hperm : ((s.pending ++
        [(⟨request, request.priority = .seek⟩ : PendingEntry P)]).map
        (fun e => e.request.key) ++ s.claimed.map Prod.fst).Perm
        (request.key :: (s.pending.map (fun e => e.request.key) ++ s.claimed.map Prod.fst)) := by
      rw [List.map_append, List.append_assoc]
      exact List.perm_middle
    refine hperm.nodup_iff.2 (List.nodup_cons.2 ⟨?_, h.nodup⟩)
    rw [List.mem_append, not_or]
    exact ⟨hpending, hclaimed⟩
  | replaced old hclaimed hold hkey =>
    refine ⟨h.own, ?_⟩
    rw [map_key_replacePending]
    exact h.nodup

/-! ### Claims -/

theorem length_takeEntries_le (cap credit : ℕ) (es : List (PendingEntry P × ℕ)) (taken : ℕ) :
    (takeEntries cap credit es taken).length ≤ cap - taken := by
  induction es generalizing taken with
  | nil => exact Nat.zero_le _
  | cons e es ih =>
    rw [takeEntries]
    split_ifs with hcap hreserve
    · exact Nat.zero_le _
    · exact ih taken
    · rw [List.length_cons]
      have := ih (taken + 1)
      omega

theorem takeEntries_sublist (cap credit : ℕ) (es : List (PendingEntry P × ℕ)) (taken : ℕ) :
    (takeEntries cap credit es taken).Sublist es := by
  induction es generalizing taken with
  | nil => exact .refl _
  | cons e es ih =>
    rw [takeEntries]
    split_ifs
    · exact List.nil_sublist _
    · exact (ih taken).cons _
    · exact (ih (taken + 1)).cons_cons _

theorem foldl_insertClaim {claimed : List (FrameKey × Claim P)} {rs : List (FrameRequest P)}
    (worker : ℕ) (hnodup : (rs.map FrameRequest.key ++ claimed.map Prod.fst).Nodup) :
    rs.foldl (fun claimed r => insertClaim claimed r.key ⟨worker, r⟩) claimed =
      claimed ++ rs.map fun r => (r.key, ⟨worker, r⟩) := by
  induction rs generalizing claimed with
  | nil => exact (List.append_nil _).symm
  | cons r rs ih =>
    rw [List.map_cons, List.cons_append, List.nodup_cons, List.mem_append, not_or] at hnodup
    have hfresh : insertClaim claimed r.key ⟨worker, r⟩ = claimed ++ [(r.key, ⟨worker, r⟩)] := by
      rw [insertClaim, List.filter_eq_self.2]
      intro c hc
      refine decide_eq_true fun heq => hnodup.1.2 (List.mem_map.2 ⟨c, hc, heq⟩)
    rw [List.foldl_cons, hfresh, ih, List.append_assoc, List.map_cons, List.singleton_append]
    rw [List.map_append, List.map_singleton, ← List.append_assoc]
    refine List.nodup_append_comm.1 ?_
    rw [List.singleton_append, List.nodup_cons, List.mem_append, not_or]
    exact ⟨hnodup.1, hnodup.2⟩

/-- What a claim does: the entries `out` leave the queue and are claimed by the worker. -/
structure Claimed (s : PreviewScheduler P) (worker credit : ℕ) (batch : ClaimedBatch P)
    (s' : PreviewScheduler P) (out : List (PendingEntry P)) : Prop where
  cut : (out ++ s'.pending).Perm s.pending
  frames : batch.frames.Perm (out.map PendingEntry.request)
  claimed : s'.claimed = s.claimed ++ out.map fun e => (e.request.key, ⟨worker, e.request⟩)
  nonempty : out ≠ []
  length_le : out.length ≤ credit
  workers : s'.workers = s.workers
  worker_lt : worker < s.workers

theorem claimed_claimTaken (hs : s.Keyed) {taken : List (PendingEntry P × ℕ)}
    (hsub : ∀ t ∈ taken, t ∈ s.pending.zipIdx) (htaken : taken ≠ [])
    (hlength : taken.length ≤ credit) (hworker : worker < s.workers) :
    ∃ out, s.Claimed worker credit (s.claimTaken worker taken).1 (s.claimTaken worker taken).2
      out := by
  have hpartition := (List.filter_append_perm
    (fun e => taken.any fun t => t.2 = e.2) s.pending.zipIdx).map Prod.fst
  rw [List.map_append, List.zipIdx_map_fst] at hpartition
  generalize hmarked : s.pending.zipIdx.filter (fun e => taken.any fun t => t.2 = e.2) = marked
    at hpartition
  have hkeys : (((marked.map Prod.fst).map PendingEntry.request).map FrameRequest.key ++
      s.claimed.map Prod.fst).Nodup := by
    have hout : ((marked.map Prod.fst).map fun e => e.request.key).Sublist
        ((marked.map Prod.fst ++ (s.pending.zipIdx.filter
          fun e => !taken.any fun t => t.2 = e.2).map Prod.fst).map fun e => e.request.key) := by
      rw [List.map_append]
      exact List.sublist_append_left _ _
    have hall := ((hpartition.map fun e => e.request.key).append_right
      (s.claimed.map Prod.fst)).nodup_iff.2 hs.nodup
    rw [List.map_map]
    exact hall.sublist (hout.append (.refl _))
  refine ⟨marked.map Prod.fst, hpartition, ?_, ?_, ?_, ?_, rfl, hworker⟩
  · simp only [claimTaken, hmarked, List.map_map]
    exact List.mergeSort_perm _ _
  · have hfold := foldl_insertClaim worker hkeys
    simp only [claimTaken, hmarked]
    rw [List.map_map] at hfold
    exact hfold.trans (by rw [List.map_map, List.map_map]; rfl)
  · intro hnil
    obtain ⟨t, ts, rfl⟩ := List.exists_cons_of_ne_nil htaken
    have hmem : t ∈ marked := by
      rw [← hmarked, List.mem_filter]
      exact ⟨hsub t List.mem_cons_self, by simp⟩
    rw [List.map_eq_nil_iff.1 hnil] at hmem
    exact List.not_mem_nil hmem
  · have hplaces : (marked.map Prod.snd).Nodup := by
      rw [← hmarked]
      exact (List.nodup_zipIdx_map_snd s.pending).sublist (List.filter_sublist.map _)
    have hsubset : marked.map Prod.snd ⊆ taken.map Prod.snd := fun i hi => by
      obtain ⟨e, he, rfl⟩ := List.mem_map.1 hi
      rw [← hmarked, List.mem_filter, List.any_eq_true] at he
      obtain ⟨t, ht, heq⟩ := he.2
      exact List.mem_map.2 ⟨t, ht, by simpa using heq⟩
    have hle := (List.subperm_of_subset hplaces hsubset).length_le
    rw [List.length_map, List.length_map] at hle
    rw [List.length_map]
    exact hle.trans hlength

/-- A batch that is claimed is that of the entries that are taken. -/
theorem claimBatch_cases (h : s.claimBatch worker credit maxBytes = some (batch, s')) :
    worker < s.workers ∧ 0 < credit ∧
      takeEntries (min s.batchSize credit) credit (s.candidates worker maxBytes) 0 ≠ [] ∧
      s.claimTaken worker (takeEntries (min s.batchSize credit) credit
        (s.candidates worker maxBytes) 0) = (batch, s') := by
  rw [claimBatch] at h
  split_ifs at h with hidle
  dsimp only at h
  split_ifs at h with htaken
  rw [not_or, not_le] at hidle
  exact ⟨hidle.1, Nat.pos_of_ne_zero hidle.2, fun hnil => htaken (List.isEmpty_iff.2 hnil),
    Option.some.inj h⟩

theorem claimed_claimBatch (hs : s.Keyed)
    (h : s.claimBatch worker credit maxBytes = some (batch, s')) :
    ∃ out, s.Claimed worker credit batch s' out := by
  obtain ⟨hworker, -, htaken, h⟩ := claimBatch_cases h
  have hlength := length_takeEntries_le (min s.batchSize credit) credit
    (s.candidates worker maxBytes) 0
  have hsub := (takeEntries_sublist (min s.batchSize credit) credit
    (s.candidates worker maxBytes) 0).subset
  generalize takeEntries (min s.batchSize credit) credit (s.candidates worker maxBytes) 0 = taken
    at h htaken hlength hsub
  have hclaimed := claimed_claimTaken hs
    (fun t ht => (List.mem_filter.1 (List.mem_mergeSort.1 (hsub ht))).1)
    htaken (show taken.length ≤ credit by omega) hworker
  rwa [h] at hclaimed

namespace Claimed

variable {out : List (PendingEntry P)}

theorem mem_pending (h : s.Claimed worker credit batch s' out) {e : PendingEntry P} :
    e ∈ s.pending ↔ e ∈ out ∨ e ∈ s'.pending := by
  rw [← h.cut.mem_iff, List.mem_append]

theorem keyed (h : s.Claimed worker credit batch s' out) (hs : s.Keyed) : s'.Keyed := by
  refine ⟨fun c hc => ?_, ?_⟩
  · rw [h.claimed, List.mem_append] at hc
    rcases hc with hc | hc
    · exact hs.own c hc
    · obtain ⟨e, -, rfl⟩ := List.mem_map.1 hc
      rfl
  · refine List.Perm.nodup ?_ hs.nodup
    have hout : (out.map fun e => (e.request.key, (⟨worker, e.request⟩ : Claim P))).map Prod.fst =
        out.map fun e => e.request.key := by
      rw [List.map_map]
      rfl
    rw [h.claimed, List.map_append, hout]
    refine ((h.cut.symm.map fun e => e.request.key).append_right _).trans ?_
    rw [List.map_append, List.append_assoc]
    refine List.perm_append_comm.trans ?_
    rw [List.append_assoc]

end Claimed

/-! ### Crashes -/

section Crash

variable {order : List (FrameRequest P) → List (FrameRequest P)}

theorem mem_workerCrashed (horder : ∀ l, (order l).Perm l) {e : PendingEntry P} :
    e ∈ (s.workerCrashed order worker).1.pending ↔ e ∈ s.pending ∨
      e.anyWorker = true ∧ ∃ k, (k, (⟨worker, e.request⟩ : Claim P)) ∈ s.claimed := by
  simp only [workerCrashed, List.mem_append, List.mem_map, (horder _).mem_iff, List.mem_filter,
    decide_eq_true_eq]
  refine or_congr_right ?_
  constructor
  · rintro ⟨r, ⟨⟨k, w, r⟩, ⟨hc, rfl⟩, rfl⟩, rfl⟩
    exact ⟨rfl, k, hc⟩
  · rintro ⟨hany, k, hk⟩
    obtain ⟨r, any⟩ := e
    obtain rfl : any = true := hany
    exact ⟨r, ⟨(k, ⟨worker, r⟩), ⟨hk, rfl⟩, rfl⟩, rfl⟩

theorem Keyed.workerCrashed (horder : ∀ l, (order l).Perm l) (h : s.Keyed) (worker : ℕ) :
    (s.workerCrashed order worker).1.Keyed := by
  refine ⟨fun c hc => h.own c (List.mem_of_mem_filter hc), h.nodup.perm ?_⟩
  simp only [PreviewScheduler.workerCrashed, List.map_append, List.map_map, List.append_assoc]
  refine List.Perm.append_left _ ?_
  have hback : ((order ((s.claimed.filter fun c => c.2.worker = worker).map
      fun c => c.2.request)).map
        ((fun e => e.request.key) ∘ fun r => (⟨r, true⟩ : PendingEntry P))).Perm
      ((s.claimed.filter fun c => c.2.worker = worker).map Prod.fst) := by
    refine ((horder _).map _).trans (List.Perm.of_eq ?_)
    rw [List.map_map]
    exact List.map_congr_left fun c hc => h.own c (List.mem_of_mem_filter hc)
  refine List.Perm.trans ?_ (hback.append_right _).symm
  rw [← List.map_append]
  refine List.Perm.map Prod.fst ((List.filter_append_perm (fun c => c.2.worker = worker)
    s.claimed).symm.trans (List.Perm.of_eq ?_))
  simp

end Crash

end PreviewScheduler

end Oak.Render
