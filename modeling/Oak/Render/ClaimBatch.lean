import Oak.Render.SchedulerRun

/-!
# What a worker claims

The selection of `claim_batch` of `oak-render/src/scheduler.rs`: which requests of the queue are
claimed, and which are left.

* `Eligible s worker maxBytes e` : the worker may claim the entry, and it fits.
* `Serves credit request` : the credit can take the request; only a seek may use the last unit.
* `Ordinary s` : what every reachable scheduler has: workers, a batch size, and seeks that any
  worker may claim.

## Main results

* `takeEntries_eq_take` : what is taken is a first part of the sorted candidates.
* `claimBatch_law` : a batch of any reachable scheduler takes the most urgent requests that it can
  serve, and keeps the reserve.
* `claims_drain` : a worker that keeps claiming leaves nothing that it may claim.
-/

namespace Oak.Render

open Oak.Lib

variable {P : Type*}

namespace PreviewScheduler

/-- The worker may claim the entry: by its shard, as any worker may, or because it is a seek; and
it fits into a slot. -/
structure Eligible (s : PreviewScheduler P) (worker maxBytes : ℕ) (e : PendingEntry P) :
    Prop where
  known : worker < s.workers
  claimable : e.request.key.frame % (s.workers : ℤ) = worker ∨ e.anyWorker = true ∨
    e.request.priority = .seek
  fits : e.request.slotBytes ≤ maxBytes

/-- The credit can take the request. -/
def Serves (credit : ℕ) (request : FrameRequest P) : Prop :=
  0 < credit ∧ (request.priority ≠ .seek → 1 < credit)

/-- `a` is claimed before `b`. -/
def MoreUrgent (a b : FrameRequest P) : Prop := claimOrder a b = .lt

/-- There are workers and room in a batch, and any worker may claim a seek. -/
structure Ordinary (s : PreviewScheduler P) : Prop where
  workers : 0 < s.workers
  batchSize : 0 < s.batchSize
  seek : ∀ e ∈ s.pending, e.request.priority = .seek → e.anyWorker = true

variable {s s' : PreviewScheduler P} {worker credit maxBytes : ℕ} {batch : ClaimedBatch P}

/-! ### Reachable schedulers -/

theorem ordinary_new (workers batchSize : ℕ) :
    (new workers batchSize : PreviewScheduler P).Ordinary := by
  refine ⟨?_, ?_, fun e he => absurd he List.not_mem_nil⟩
  · exact lt_of_lt_of_le Nat.one_pos (le_max_right _ _)
  · rw [new]
    dsimp only
    split_ifs with h
    · exact lt_of_lt_of_le Nat.one_pos (le_max_right _ _)
    · exact Nat.pos_of_ne_zero h

namespace Ordinary

section

variable (h : s.Ordinary)

include h

theorem subset (hworkers : s'.workers = s.workers) (hbatch : s'.batchSize = s.batchSize)
    (hsub : ∀ e ∈ s'.pending, e ∈ s.pending) : s'.Ordinary :=
  ⟨hworkers ▸ h.workers, hbatch ▸ h.batchSize, fun e he => h.seek e (hsub e he)⟩

theorem submit (request : FrameRequest P) : (s.submit request).1.Ordinary := by
  have hsubmitted := submitted_submit s request
  generalize (s.submit request).1 = s', (s.submit request).2 = outcome at hsubmitted ⊢
  cases hsubmitted with
  | inFlight => exact h
  | accepted hclaimed hpending =>
    refine ⟨h.workers, h.batchSize, fun e he hseek => ?_⟩
    rcases List.mem_append.1 he with he | he
    · exact h.seek e he hseek
    · obtain rfl := List.mem_singleton.1 he
      exact decide_eq_true hseek
  | replaced old hclaimed hold hkey =>
    refine ⟨h.workers, h.batchSize, fun e he hseek => ?_⟩
    rcases mem_of_mem_replacePending he with rfl | he
    · exact decide_eq_true hseek
    · exact h.seek e he hseek

theorem claimTaken (worker : ℕ) (taken : List (PendingEntry P × ℕ)) :
    (s.claimTaken worker taken).2.Ordinary := by
  refine h.subset rfl rfl fun e he => ?_
  obtain ⟨⟨e, i⟩, hx, rfl⟩ := List.mem_map.1 he
  exact List.fst_mem_of_mem_zipIdx (List.mem_of_mem_filter hx)

theorem claimBatch (hclaim : s.claimBatch worker credit maxBytes = some (batch, s')) :
    s'.Ordinary := by
  obtain ⟨-, -, -, hclaim⟩ := claimBatch_cases hclaim
  have htaken := h.claimTaken worker
    (takeEntries (min s.batchSize credit) credit (s.candidates worker maxBytes) 0)
  rwa [hclaim] at htaken

theorem workerCrashed (order : List (FrameRequest P) → List (FrameRequest P)) (worker : ℕ) :
    (s.workerCrashed order worker).1.Ordinary := by
  refine ⟨h.workers, h.batchSize, fun e he hseek => ?_⟩
  rcases List.mem_append.1 he with he | he
  · exact h.seek e he hseek
  · obtain ⟨r, -, rfl⟩ := List.mem_map.1 he
    rfl

theorem cancelKey (key : FrameKey) : (s.cancelKey key).1.Ordinary := by
  rw [PreviewScheduler.cancelKey]
  split_ifs
  · exact h.subset rfl rfl fun e he => List.mem_of_mem_filter he
  · exact ⟨h.workers, h.batchSize, h.seek⟩

theorem setWorkerCount (workers : ℕ) : (s.setWorkerCount workers).Ordinary := by
  refine ⟨lt_of_lt_of_le Nat.one_pos (le_max_right _ _), ?_, h.seek⟩
  rw [PreviewScheduler.setWorkerCount]
  dsimp only
  split_ifs
  · exact h.batchSize
  · exact lt_min (lt_of_lt_of_le Nat.one_pos (le_max_right _ _))
      (lt_of_lt_of_le Nat.one_pos (le_max_right _ _))

end

end Ordinary

end PreviewScheduler

namespace SchedulerRun

variable {r : SchedulerRun P}

theorem ordinary_act (h : r.scheduler.Ordinary) (a : SchedulerAction P) :
    (r.act a).scheduler.Ordinary := by
  cases a with
  | submit request =>
    have hsubmit := h.submit (request.tag r.serial)
    rw [act]
    dsimp only
    split <;> exact hsubmit
  | claimBatch worker credit maxBytes =>
    rw [act]
    split
    · exact h
    · next claimed hclaim => exact h.claimBatch hclaim
  | frameDone key => exact ⟨h.workers, h.batchSize, h.seek⟩
  | frameFailed key => exact ⟨h.workers, h.batchSize, h.seek⟩
  | workerCrashed order worker => exact h.workerCrashed order.order worker
  | cancelKey key => exact h.cancelKey key
  | cancelSequence order sequence =>
    exact h.subset rfl rfl fun e he => List.mem_of_mem_filter he
  | setWorkerCount workers => exact h.setWorkerCount workers

theorem ordinary_run (workers batchSize : ℕ) (as : List (SchedulerAction P)) :
    (run act (start workers batchSize) as).scheduler.Ordinary :=
  invariant_always (I := fun r : SchedulerRun P => r.scheduler.Ordinary)
    (fun _ a h => ordinary_act h a) (PreviewScheduler.ordinary_new workers batchSize) as

end SchedulerRun

/-! ### The order of claims -/

instance transCmp_claimOrder : Std.TransCmp (PreviewScheduler.claimOrder (P := P)) :=
  inferInstanceAs (Std.TransCmp (compareLex
    (compareOn fun r : FrameRequest P => r.priority.rank)
    (compareLex (compareOn FrameRequest.distance)
      (compareLex (compareOn fun r => r.key.frame) (compareOn fun r => r.key.sequence)))))

variable {e : PendingEntry P} {taken : List (PendingEntry P × ℕ)} {es : List (PendingEntry P × ℕ)}

namespace PreviewScheduler

variable {s s' : PreviewScheduler P} {worker credit maxBytes : ℕ} {batch : ClaimedBatch P}

theorem pairwise_candidates (s : PreviewScheduler P) (worker maxBytes : ℕ) :
    (s.candidates worker maxBytes).Pairwise fun a b =>
      (claimOrder a.1.request b.1.request).isLE = true := by
  have htrans (a b c : PendingEntry P × ℕ)
      (hab : (claimOrder a.1.request b.1.request).isLE = true)
      (hbc : (claimOrder b.1.request c.1.request).isLE = true) :
      (claimOrder a.1.request c.1.request).isLE = true := Std.TransCmp.isLE_trans hab hbc
  refine List.pairwise_mergeSort htrans (fun a b => ?_) _
  rw [Bool.or_eq_true]
  by_cases h : (claimOrder a.1.request b.1.request).isLE = true
  · exact .inl h
  · exact .inr (Ordering.isLE_of_eq_lt (Std.OrientedCmp.lt_of_not_isLE h))

theorem priority_ne_seek_of_isLE {a b : FrameRequest P} (h : (claimOrder a b).isLE = true)
    (ha : a.priority ≠ .seek) : b.priority ≠ .seek := by
  intro hb
  rw [claimOrder, Ordering.isLE_then_iff_and, hb] at h
  have hpos : 0 < a.priority.rank := by
    cases hp : a.priority with
    | seek => exact absurd hp ha
    | playback => exact Nat.one_pos
    | background => exact Nat.two_pos
  have hrank := Nat.isLE_compare.1 h.1
  simp only [FramePriority.rank] at hrank hpos
  omega

/-! ### What is taken -/

/-- When only other requests are left, they are taken up to the reserve. -/
theorem takeEntries_of_ne_seek {cap : ℕ} (h : ∀ e ∈ es, e.1.request.priority ≠ .seek) (taken : ℕ) :
    takeEntries cap credit es taken = es.take (min cap (credit - 1) - taken) := by
  induction es generalizing taken with
  | nil => rw [takeEntries, List.take_nil]
  | cons e es ih =>
    obtain ⟨he, hes⟩ := List.forall_mem_cons.1 h
    rw [takeEntries]
    split_ifs with hcap hreserve
    · rw [Nat.sub_eq_zero_of_le (by omega), List.take_zero]
    · rw [ih hes, Nat.sub_eq_zero_of_le (by omega), List.take_zero, List.take_zero]
    · have hroom : taken + 1 < credit := by
        by_contra hfull
        exact hreserve ⟨he, by omega⟩
      have hsucc : min cap (credit - 1) - taken = min cap (credit - 1) - (taken + 1) + 1 := by omega
      rw [ih hes, hsucc, List.take_succ_cons]

/-- **What is taken is a first part of the sorted candidates**: it fits the cap, ends before the
reserve when it holds another request than a seek, and is all that can be served when it is
empty. -/
theorem takeEntries_eq_take {cap : ℕ}
    (hes : es.Pairwise fun a b => (claimOrder a.1.request b.1.request).isLE = true) {taken : ℕ}
    (htaken : taken ≤ cap) (hcap : cap ≤ credit) :
    ∃ k, takeEntries cap credit es taken = es.take k ∧ taken + (es.take k).length ≤ cap ∧
      ((∃ e ∈ es.take k, e.1.request.priority ≠ .seek) →
        taken + (es.take k).length < credit) ∧
      (es.take k = [] → taken < cap → ∀ e ∈ es,
        e.1.request.priority ≠ .seek ∧ credit ≤ taken + 1) := by
  induction es generalizing taken with
  | nil => exact ⟨0, by simp [takeEntries, htaken]⟩
  | cons e es ih =>
    obtain ⟨he, hrest⟩ := List.pairwise_cons.1 hes
    by_cases hseek : e.1.request.priority = .seek
    · rw [takeEntries]
      split_ifs with hfull hreserve
      · exact ⟨0, rfl, by simpa using htaken, by simp, fun _ hlt => absurd hlt (by omega)⟩
      · exact absurd hseek hreserve.1
      · have hroom : taken + 1 ≤ cap := by omega
        obtain ⟨k, htake, hlength, hother, -⟩ := ih hrest hroom
        refine ⟨k + 1, by rw [htake, List.take_succ_cons], ?_, ?_, ?_⟩
        · rw [List.take_succ_cons, List.length_cons]
          omega
        · rintro ⟨x, hx, hne⟩
          rw [List.take_succ_cons, List.mem_cons] at hx
          have hlt := hother ⟨x, hx.resolve_left fun heq => hne (heq ▸ hseek), hne⟩
          rw [List.take_succ_cons, List.length_cons]
          omega
        · intro hnil
          exact absurd hnil (by simp)
    · have hall : ∀ x ∈ e :: es, x.1.request.priority ≠ .seek :=
        List.forall_mem_cons.2 ⟨hseek, fun x hx => priority_ne_seek_of_isLE (he x hx) hseek⟩
      refine ⟨min cap (credit - 1) - taken, takeEntries_of_ne_seek hall taken, ?_, ?_, ?_⟩
      · rw [List.length_take]
        omega
      · rintro ⟨x, hx, -⟩
        have hpos := List.length_pos_of_mem hx
        rw [List.length_take] at hpos ⊢
        omega
      · intro hnil hlt x hx
        refine ⟨hall x hx, ?_⟩
        have hzero := congrArg List.length hnil
        rw [List.length_take, List.length_cons, List.length_nil] at hzero
        omega

theorem mem_candidates (h : s.Ordinary) {i : ℕ} (hmem : (e, i) ∈ s.pending.zipIdx)
    (he : s.Eligible worker maxBytes e) : (e, i) ∈ s.candidates worker maxBytes := by
  have hany : mayClaim s.workers worker e = true := by
    rw [mayClaim, Bool.or_eq_true, decide_eq_true_eq]
    rcases he.claimable with hshard | hany | hseek
    · exact .inr hshard
    · exact .inl hany
    · exact .inl (h.seek e (List.fst_mem_of_mem_zipIdx hmem) hseek)
  rw [candidates, List.mem_mergeSort, List.mem_filter]
  exact ⟨hmem, by simp [he.fits, hany]⟩

theorem eligible_of_mem_candidates (hworker : worker < s.workers) {x : PendingEntry P × ℕ}
    (h : x ∈ s.candidates worker maxBytes) :
    x ∈ s.pending.zipIdx ∧ s.Eligible worker maxBytes x.1 := by
  rw [candidates, List.mem_mergeSort, List.mem_filter, Bool.and_eq_true, decide_eq_true_eq,
    mayClaim, Bool.or_eq_true, decide_eq_true_eq] at h
  obtain ⟨hmem, hfits, hclaim⟩ := h
  exact ⟨hmem, hworker, hclaim.elim (fun hany => .inr (.inl hany)) .inl, hfits⟩

/-- What holds of a batch: it is not empty, its size, the reserve, whose requests it takes, and that
what it leaves is not more urgent. -/
structure LawfulBatch (s : PreviewScheduler P) (worker credit maxBytes : ℕ)
    (batch : ClaimedBatch P) (s' : PreviewScheduler P) : Prop where
  moved : (batch.frames ++ s'.pending.map PendingEntry.request).Perm
    (s.pending.map PendingEntry.request)
  nonempty : batch.frames ≠ []
  size : batch.frames.length ≤ min s.batchSize credit
  reserve : (∃ r ∈ batch.frames, r.priority ≠ .seek) → batch.frames.length < credit
  eligible : ∀ r ∈ batch.frames, ∃ e ∈ s.pending, e.request = r ∧ s.Eligible worker maxBytes e
  urgent : ∀ e ∈ s'.pending, s.Eligible worker maxBytes e →
    ∀ r ∈ batch.frames, ¬ MoreUrgent e.request r

theorem eq_of_snd_eq {x y : PendingEntry P × ℕ} (hx : x ∈ s.pending.zipIdx)
    (hy : y ∈ s.pending.zipIdx) (h : x.2 = y.2) : x = y := by
  have hx' := List.mk_mem_zipIdx_iff_getElem?.1 hx
  have hy' := List.mk_mem_zipIdx_iff_getElem?.1 hy
  rw [h, hy'] at hx'
  exact Prod.ext (Option.some.inj hx').symm h

theorem nodup_candidates (s : PreviewScheduler P) (worker maxBytes : ℕ) :
    (s.candidates worker maxBytes).Nodup := by
  rw [candidates, (List.mergeSort_perm _ _).nodup_iff]
  exact ((List.nodup_zipIdx_map_snd s.pending).of_map _).filter _

theorem frames_claimTaken (worker : ℕ) (hnodup : taken.Nodup)
    (hsub : ∀ t ∈ taken, t ∈ s.pending.zipIdx) :
    (s.claimTaken worker taken).1.frames.Perm (taken.map fun t => t.1.request) := by
  have hmarked : (s.pending.zipIdx.filter fun e => taken.any fun t => t.2 = e.2).Perm taken := by
    refine (List.perm_ext_iff_of_nodup
      (((List.nodup_zipIdx_map_snd s.pending).of_map _).filter _) hnodup).2 fun x => ?_
    rw [List.mem_filter, List.any_eq_true]
    constructor
    · rintro ⟨hx, t, ht, heq⟩
      exact eq_of_snd_eq (hsub t ht) hx (of_decide_eq_true heq) ▸ ht
    · exact fun hx => ⟨hsub x hx, x, hx, decide_eq_true rfl⟩
  exact (List.mergeSort_perm _ _).trans (hmarked.map _)

theorem mem_pending_claimTaken (h : e ∈ (s.claimTaken worker taken).2.pending) :
    ∃ i, (e, i) ∈ s.pending.zipIdx ∧ (e, i) ∉ taken := by
  obtain ⟨⟨e, i⟩, hx, rfl⟩ := List.mem_map.1 h
  obtain ⟨hmem, hout⟩ := List.mem_filter.1 hx
  refine ⟨i, hmem, fun htaken => ?_⟩
  rw [Bool.not_eq_true', List.any_eq_false] at hout
  exact hout _ htaken (decide_eq_true rfl)

theorem lawfulBatch_claimTaken (hs : s.Keyed) (h : s.Ordinary) (hworker : worker < s.workers)
    (htaken : takeEntries (min s.batchSize credit) credit (s.candidates worker maxBytes) 0 ≠ []) :
    s.LawfulBatch worker credit maxBytes
      (s.claimTaken worker (takeEntries (min s.batchSize credit) credit
        (s.candidates worker maxBytes) 0)).1
      (s.claimTaken worker (takeEntries (min s.batchSize credit) credit
        (s.candidates worker maxBytes) 0)).2 := by
  have hsorted := pairwise_candidates s worker maxBytes
  obtain ⟨k, htake, hlength, hother, -⟩ :=
    takeEntries_eq_take hsorted (Nat.zero_le (min s.batchSize credit)) (min_le_right _ _)
  rw [htake] at htaken ⊢
  rw [Nat.zero_add] at hlength hother
  have hcandidate : ∀ t ∈ (s.candidates worker maxBytes).take k,
      t ∈ s.pending.zipIdx ∧ s.Eligible worker maxBytes t.1 := fun t ht =>
    eligible_of_mem_candidates hworker (List.mem_of_mem_take ht)
  have hframes := frames_claimTaken worker
    ((nodup_candidates s worker maxBytes).sublist (List.take_sublist k _))
    fun t ht => (hcandidate t ht).1
  have hcredit : ((s.candidates worker maxBytes).take k).length ≤ credit :=
    hlength.trans (min_le_right _ _)
  obtain ⟨out, hclaimed⟩ :=
    claimed_claimTaken hs (fun t ht => (hcandidate t ht).1) htaken hcredit hworker
  have hsize := hframes.length_eq
  rw [List.length_map] at hsize
  refine ⟨?_, fun hnil => ?_, hsize ▸ hlength, ?_, fun r hr => ?_,
    fun e he helig r hr hurgent => ?_⟩
  · refine (hclaimed.frames.append_right _).trans ?_
    rw [← List.map_append]
    exact hclaimed.cut.map _
  · rw [hnil, List.length_nil] at hsize
    exact htaken (List.length_eq_zero_iff.1 hsize.symm)
  · rintro ⟨r, hr, hne⟩
    obtain ⟨t, ht, rfl⟩ := List.mem_map.1 (hframes.mem_iff.1 hr)
    exact hsize ▸ hother ⟨t, ht, hne⟩
  · obtain ⟨t, ht, rfl⟩ := List.mem_map.1 (hframes.mem_iff.1 hr)
    obtain ⟨hmem, helig⟩ := hcandidate t ht
    exact ⟨t.1, List.fst_mem_of_mem_zipIdx hmem, rfl, helig⟩
  · obtain ⟨t, ht, rfl⟩ := List.mem_map.1 (hframes.mem_iff.1 hr)
    obtain ⟨i, hmem, hout⟩ := mem_pending_claimTaken he
    -- the entry that stays is a candidate behind the first part
    have hbehind : (e, i) ∈ (s.candidates worker maxBytes).drop k := by
      have hall := mem_candidates h hmem helig
      rw [← List.take_append_drop k (s.candidates worker maxBytes), List.mem_append] at hall
      exact hall.resolve_left hout
    rw [← List.take_append_drop k (s.candidates worker maxBytes)] at hsorted
    have hle := (List.pairwise_append.1 hsorted).2.2 t ht _ hbehind
    exact Std.OrientedCmp.not_lt_of_isLE hle hurgent

/-- When nothing is claimed, the credit serves nothing that the worker may claim. -/
theorem not_serves_of_claimBatch (h : s.Ordinary)
    (hnone : s.claimBatch worker credit maxBytes = none) (he : e ∈ s.pending)
    (helig : s.Eligible worker maxBytes e) : ¬ Serves credit e.request := by
  rintro ⟨hpos, hreserve⟩
  rw [claimBatch] at hnone
  split at hnone
  · next hidle =>
    rcases hidle with hworker | hzero
    · exact absurd helig.known (not_lt.2 hworker)
    · omega
  dsimp only at hnone
  split at hnone
  · next hempty =>
    obtain ⟨k, htake, -, -, hall⟩ := takeEntries_eq_take (pairwise_candidates s worker maxBytes)
      (Nat.zero_le (min s.batchSize credit)) (min_le_right _ _)
    have hbatch := h.batchSize
    obtain ⟨i, hi, rfl⟩ := List.mem_iff_getElem.1 he
    have hmem : (s.pending[i], i) ∈ s.pending.zipIdx :=
      List.mk_mem_zipIdx_iff_getElem?.2 (List.getElem?_eq_getElem hi)
    obtain ⟨hother, hcredit⟩ := hall (htake ▸ List.isEmpty_iff.1 hempty) (by omega) _
      (mem_candidates h hmem helig)
    have := hreserve hother
    omega
  · exact absurd hnone (by simp)

theorem lawfulBatch_claimBatch (hs : s.Keyed) (h : s.Ordinary)
    (hclaim : s.claimBatch worker credit maxBytes = some (batch, s')) :
    s.LawfulBatch worker credit maxBytes batch s' := by
  obtain ⟨hworker, -, htaken, hclaim⟩ := claimBatch_cases hclaim
  have hlawful := lawfulBatch_claimTaken hs h hworker htaken
  rwa [hclaim] at hlawful

end PreviewScheduler

namespace SchedulerRun

/-- **The law of claims.** In every reachable scheduler a batch is lawful, and when there is none,
no request that the worker may claim can be served. -/
theorem claimBatch_law (workers batchSize : ℕ) (as : List (SchedulerAction P))
    (worker credit maxBytes : ℕ) :
    (∀ batch s', (run act (start workers batchSize) as).scheduler.claimBatch worker credit
        maxBytes = some (batch, s') →
      (run act (start workers batchSize) as).scheduler.LawfulBatch worker credit maxBytes
        batch s') ∧
    ((run act (start workers batchSize) as).scheduler.claimBatch worker credit maxBytes = none →
      ∀ e ∈ (run act (start workers batchSize) as).scheduler.pending,
        (run act (start workers batchSize) as).scheduler.Eligible worker maxBytes e →
          ¬ PreviewScheduler.Serves credit e.request) := by
  have hkeyed := (Accounted.run workers batchSize as).keyed
  have hordinary := ordinary_run workers batchSize as
  exact ⟨fun _ _ hclaim => PreviewScheduler.lawfulBatch_claimBatch hkeyed hordinary hclaim,
    fun hnone _ => PreviewScheduler.not_serves_of_claimBatch hordinary hnone⟩

/-- No request waits for ever: a worker that keeps claiming with a credit of two or more has taken
all it may claim after as many claims as there are requests. -/
theorem claims_drain (workers batchSize : ℕ) (as : List (SchedulerAction P))
    (worker credit maxBytes : ℕ) :
    let r := run act (start workers batchSize) as
    ∃ n ≤ r.scheduler.pending.length,
      let s := (run act r (.replicate n (.claimBatch worker (credit + 2) maxBytes))).scheduler
      ∀ e ∈ s.pending, ¬ s.Eligible worker maxBytes e := by
  intro r
  induction hn : r.scheduler.pending.length using Nat.strong_induction_on generalizing as with
  | _ n ih =>
    cases hclaim : r.scheduler.claimBatch worker (credit + 2) maxBytes with
    | none =>
      have hserves := fun e => PreviewScheduler.not_serves_of_claimBatch (e := e)
        (ordinary_run workers batchSize as) hclaim
      exact ⟨0, n.zero_le, fun e he helig => hserves e he helig ⟨by omega, by omega⟩⟩
    | some claimed =>
      obtain ⟨out, hclaimed⟩ := PreviewScheduler.claimed_claimBatch
        (Accounted.run workers batchSize as).keyed hclaim
      have hlength : out.length + claimed.2.pending.length = r.scheduler.pending.length := by
        simpa only [List.length_append] using hclaimed.cut.length_eq
      have hout := List.length_pos_iff.2 hclaimed.nonempty
      have hstep : run act (start workers batchSize) (as ++ [.claimBatch worker (credit + 2)
          maxBytes]) = { r with scheduler := claimed.2 } := by
        rw [run_append, run_cons, run_nil, act, hclaim]
      obtain ⟨m, hm, hdrained⟩ := ih claimed.2.pending.length (by omega) (as ++ [_])
        (congrArg (·.scheduler.pending.length) hstep)
      refine ⟨m + 1, by omega, ?_⟩
      rw [List.replicate_succ, run_cons, act, hclaim]
      rwa [hstep] at hdrained

end SchedulerRun

end Oak.Render
