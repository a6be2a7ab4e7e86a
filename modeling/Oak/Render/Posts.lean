import Oak.Lib.Machine
import Oak.Render.Completion
import Oak.Render.SchedulerRun

/-!
# Posts that meet under one key

A posted job gets a request under a key: its sequence, its frame, its version. A job that names no
frame is requested under the number of its own ticket. The scheduler has room for one request of a
key, so a post may replace a ticket that is open, or be turned down because of one.

* `PostAction` are the calls that open tickets and take them off: posts, claims, answers, crashes
  and cancellations. Only claimed tickets are answered.
* `named` is not in the source: the key that the job of a ticket named, if it named a frame.
* `Undisturbed` says that a post takes off no ticket, unless its job and that of an open ticket
  named the same key.

## Main results

* `undisturbed_iff`: the posts that disturb no other job.
* `undisturbed_run_iff`: the runs in which none does.
-/

namespace Oak.Render

open Oak.Lib

variable {F : Type*}

/-- The key that a job names, if it names a frame. -/
def Job.named (job : Job F) : Option FrameKey :=
  job.schedule.frame.map fun frame => ⟨job.nodeIdentity, frame, job.schedule.version⟩

/-- The tickets of the dispatcher, with the keys that their jobs named. -/
structure Posts (F : Type*) where
  intake : Intake F
  named : ℤ → Option FrameKey

/-- The calls that open tickets and take them off, with the order in which a walk over the table of
claims meets them. -/
inductive PostAction (F : Type*) where
  | post (job : Job F)
  | claim (worker credit maxBytes : ℕ)
  | answer (id : ℤ)
  | crash (order : WalkOrder (FrameRequest ℤ)) (worker : ℕ) (dropped : Bool)
  | cancelFrame (key : FrameKey)
  | cancelSequence (order : WalkOrder (FrameRequest ℤ)) (sequence : ℕ)
  | setWorkerCount (workers : ℕ)

variable {job : Job F}

namespace Posts

def new (workers batchSize : ℕ) : Posts F := ⟨⟨.new workers batchSize, [], 1⟩, fun _ => none⟩

/-- A job is posted. One that `post` refuses, so that its audio is rendered inline, gets no
ticket. -/
def post (slotFormat : ℤ) (s : Posts F) (job : Job F) : Posts F :=
  { intake := s.intake.post slotFormat job
    named := if job.audio.any tooLarge then s.named
      else Function.update s.named s.intake.nextTicket job.named }

/-- The ticket is open, and its frame is claimed. -/
def isClaimed (t : Intake F) (id : ℤ) : Bool :=
  (t.ticket id).any fun pt => t.scheduler.isClaimed pt.key

/-- One call. -/
def act (slotFormat : ℤ) (s : Posts F) : PostAction F → Posts F
  | .post job => s.post slotFormat job
  | .claim worker credit maxBytes =>
    match s.intake.scheduler.claimBatch worker credit maxBytes with
    | some claimed => { s with intake := { s.intake with scheduler := claimed.2 } }
    | none => s
  | .answer id => if isClaimed s.intake id then { s with intake := s.intake.close id } else s
  | .crash order worker dropped =>
    { s with intake := s.intake.crashed order.order worker dropped }
  | .cancelFrame key => { s with intake := s.intake.cancelFrame key }
  | .cancelSequence order sequence =>
    { s with intake := s.intake.cancelSequence order.order sequence }
  | .setWorkerCount workers =>
    { s with intake := { s.intake with scheduler := s.intake.scheduler.setWorkerCount workers } }

/-- The job of the ticket named a frame, and the job names the same key. -/
def SameKey (s : Posts F) (id : ℤ) (job : Job F) : Prop :=
  ∃ key, s.named id = some key ∧ job.named = some key

/-- The post of the job takes off no open ticket, and not its own, unless an open ticket was posted
for the key that the job names. -/
structure Undisturbed (slotFormat : ℤ) (s : Posts F) (job : Job F) : Prop where
  others : ∀ x ∈ s.intake.tickets, x.1 ∉ (s.intake.post slotFormat job).ids → s.SameKey x.1 job
  own : s.intake.nextTicket ∉ (s.intake.post slotFormat job).ids →
    ∃ x ∈ s.intake.tickets, s.SameKey x.1 job

/-- A post, of a job that is not refused, disturbs no other job. -/
def Peaceful (slotFormat : ℤ) (s : Posts F) : PostAction F → Prop
  | .post job => job.audio.any tooLarge = false → s.Undisturbed slotFormat job
  | _ => True

/-- The key of the job, with its ticket number in the place of a frame that it does not name, is
that of an open ticket only if both jobs named it. -/
def Apart (s : Posts F) : PostAction F → Prop
  | .post job => job.audio.any tooLarge = false → ∀ x ∈ s.intake.tickets,
      x.2.key = job.key s.intake.nextTicket → s.SameKey x.1 job
  | _ => True

/-- What holds in every state of a run. -/
structure Kept (s : Posts F) : Prop where
  filed : s.intake.Filed
  named : ∀ x ∈ s.intake.tickets, ∀ key, s.named x.1 = some key → x.2.key = key

variable {s : Posts F} {slotFormat : ℤ}

theorem key_of_named {key : FrameKey} (h : job.named = some key) (id : ℤ) : job.key id = key := by
  obtain ⟨frame, hframe, rfl⟩ := Option.map_eq_some_iff.1 h
  rw [Job.key, hframe]
  rfl

theorem kept_new (workers batchSize : ℕ) : (new workers batchSize : Posts F).Kept where
  filed := Intake.filed_new workers batchSize
  named _ hx := absurd hx List.not_mem_nil

theorem Kept.of_subset (h : s.Kept) {t : Intake F} (hfiled : t.Filed)
    (hsub : t.tickets ⊆ s.intake.tickets) : Kept { s with intake := t } where
  filed := hfiled
  named x hx := h.named x (hsub hx)

theorem mem_tickets_post {t : Intake F} {x : ℤ × PendingTicket F}
    (hx : x ∈ (t.post slotFormat job).tickets) :
    x ∈ t.tickets ∨ job.audio.any tooLarge = false ∧ x.1 = t.nextTicket ∧
      x.2.key = job.key t.nextTicket := by
  have hopened (hnew : x ∈ t.tickets ++ [(t.nextTicket,
      (⟨job.key t.nextTicket, job.params, job.audio⟩ : PendingTicket F))]) :
      x ∈ t.tickets ∨ x.1 = t.nextTicket ∧ x.2.key = job.key t.nextTicket := by
    refine (List.mem_append.1 hnew).imp_right fun hlast => ?_
    rw [List.mem_singleton.1 hlast]
    exact ⟨rfl, rfl⟩
  rw [Intake.post] at hx
  split_ifs at hx with hlarge
  · exact .inl hx
  · have hsmall : job.audio.any tooLarge = false := Bool.eq_false_iff.2 hlarge
    dsimp only at hx
    split at hx
    · exact (hopened hx).imp_right fun hnew => ⟨hsmall, hnew⟩
    · exact (hopened (List.mem_of_mem_filter hx)).imp_right fun hnew => ⟨hsmall, hnew⟩
    · exact (hopened (List.mem_of_mem_filter hx)).imp_right fun hnew => ⟨hsmall, hnew⟩

theorem Kept.post (h : s.Kept) (job : Job F) : (s.post slotFormat job).Kept where
  filed := h.filed.post slotFormat job
  named x hx key hkey := by
    rcases mem_tickets_post hx with hold | ⟨hsmall, hid, hnew⟩
    · refine h.named x hold key ?_
      dsimp only [Posts.post] at hkey
      split_ifs at hkey
      · exact hkey
      · rwa [Function.update_of_ne (h.filed.fresh x hold).ne] at hkey
    · dsimp only [Posts.post] at hkey
      rw [if_neg (Bool.eq_false_iff.1 hsmall), hid, Function.update_self] at hkey
      exact hnew.trans (key_of_named hkey _)

theorem Kept.act (h : s.Kept) (a : PostAction F) : (s.act slotFormat a).Kept := by
  cases a with
  | post job => exact h.post job
  | claim worker credit maxBytes =>
    dsimp only [Posts.act]
    cases hclaim : s.intake.scheduler.claimBatch worker credit maxBytes with
    | none => exact h
    | some claimed =>
      obtain ⟨out, hclaimed⟩ := PreviewScheduler.claimed_claimBatch h.filed.keyed hclaim
      exact h.of_subset (h.filed.claim hclaimed) (List.Subset.refl _)
  | answer id =>
    dsimp only [Posts.act]
    split_ifs with hclaimed
    · refine h.of_subset (h.filed.close fun pt hpt => ?_) (Intake.tickets_close_subset id)
      rw [isClaimed, h.filed.ticket_eq_some_iff.2 hpt] at hclaimed
      exact PreviewScheduler.isClaimed_iff.1 hclaimed
    · exact h
  | crash order worker dropped =>
    refine h.of_subset (h.filed.crashed order.order_perm worker dropped) ?_
    rw [Intake.crashed]
    cases dropped with
    | false => exact List.Subset.refl _
    | true => exact Intake.tickets_drop_subset _
  | cancelFrame key =>
    exact h.of_subset (h.filed.cancelFrame key) (Intake.tickets_cancelFrame_subset key)
  | cancelSequence order sequence =>
    exact h.of_subset (h.filed.cancelSequence order.order_perm sequence)
      (Intake.tickets_cancelSequence_subset sequence)
  | setWorkerCount workers =>
    refine h.of_subset (h.filed.scheduler_perm (h.filed.keyed.setWorkerCount workers) ?_)
      (List.Subset.refl _)
    exact .refl _

/-! ### One post -/

/-- The tickets after a post, but for what the scheduler has superseded. -/
theorem mem_ids_post (hsmall : job.audio.any tooLarge = false) (id : ℤ) :
    id ∈ (s.intake.post slotFormat job).ids ↔
      (id ∈ s.intake.ids ∨ id = s.intake.nextTicket) ∧
        id ∉ s.intake.superseded slotFormat job := by
  rw [(Intake.Moves.post slotFormat job hsmall).ids, List.mem_filter, List.mem_append,
    List.mem_singleton, decide_eq_true_iff]

theorem undisturbed_iff (h : s.Kept) (hsmall : job.audio.any tooLarge = false) :
    s.Undisturbed slotFormat job ↔ ∀ x ∈ s.intake.tickets,
      x.2.key = job.key s.intake.nextTicket → s.SameKey x.1 job := by
  have hids (id : ℤ) : id ∈ (s.intake.post slotFormat job).ids ↔ _ := mem_ids_post hsmall id
  have hopen : ∀ x ∈ s.intake.tickets, x.1 ∈ s.intake.ids := fun x hx => List.mem_map_of_mem hx
  have hsubmitted := PreviewScheduler.submitted_submit s.intake.scheduler
    (s.intake.request slotFormat job)
  have hsuperseded := Intake.superseded.eq_1 s.intake slotFormat job
  generalize (s.intake.scheduler.submit (s.intake.request slotFormat job)).1 = s',
    (s.intake.scheduler.submit (s.intake.request slotFormat job)).2 = outcome
    at hsubmitted hsuperseded
  cases hsubmitted with
  | accepted hclaimed hpending =>
    have hstay : ∀ id, id ∉ s.intake.superseded slotFormat job := fun id => by
      rw [hsuperseded]
      exact List.not_mem_nil
    refine iff_of_true ⟨fun x hx hgone => ?_, fun hgone => ?_⟩ fun x hx hkey => ?_
    · exact absurd ((hids x.1).2 ⟨.inl (hopen x hx), hstay _⟩) hgone
    · exact absurd ((hids _).2 ⟨.inr rfl, hstay _⟩) hgone
    · -- an open ticket with the key has a request, and the scheduler has none of this key
      obtain ⟨r, hr, -, hrkey⟩ := h.filed.exists_request hx
      have hsame : r.key = job.key s.intake.nextTicket := hrkey.trans hkey
      rcases Intake.mem_requests.1 hr with ⟨e, he, rfl⟩ | ⟨c, hc, rfl⟩
      · exact absurd (List.mem_map.2 ⟨e, he, hsame⟩) hpending
      · refine absurd (List.mem_map.2 ⟨c, hc, ?_⟩) hclaimed
        exact (h.filed.keyed.own c hc).symm.trans hsame
  | replaced old hclaimed hold hkey =>
    obtain ⟨x₀, hx₀, hid₀, hkey₀⟩ :=
      h.filed.exists_ticket (Intake.mem_requests.2 (.inl ⟨old, hold, rfl⟩))
    have hnew : s.intake.nextTicket ∉ s.intake.superseded slotFormat job := by
      rw [hsuperseded, List.mem_singleton, ← hid₀]
      exact (h.filed.fresh x₀ hx₀).ne'
    constructor
    · intro hp x hx hxkey
      obtain rfl := h.filed.eq_of_key hx hx₀ (hxkey.trans (hkey.symm.trans hkey₀.symm))
      refine hp.others x hx fun hin => ((hids x.1).1 hin).2 ?_
      rw [hsuperseded, List.mem_singleton]
      exact hid₀
    · refine fun hapart => ⟨fun x hx hgone => ?_, fun hgone => ?_⟩
      · have hold : x.1 ∈ s.intake.superseded slotFormat job := by
          by_contra hstay
          exact hgone ((hids x.1).2 ⟨.inl (hopen x hx), hstay⟩)
        rw [hsuperseded, List.mem_singleton, ← hid₀] at hold
        obtain rfl := h.filed.eq_of_id hx hx₀ hold
        exact hapart x hx (hkey₀.trans hkey)
      · exact absurd ((hids _).2 ⟨.inr rfl, hnew⟩) hgone
  | inFlight hclaimed =>
    obtain ⟨c, hc, hckey⟩ := List.mem_map.1 hclaimed
    obtain ⟨x₀, hx₀, hid₀, hkey₀⟩ :=
      h.filed.exists_ticket (Intake.mem_requests.2 (.inr ⟨c, hc, rfl⟩))
    have hkey : x₀.2.key = job.key s.intake.nextTicket :=
      hkey₀.trans ((h.filed.keyed.own c hc).trans hckey)
    constructor
    · intro hp x hx hxkey
      obtain ⟨y, hy, key, hnamed, hjob⟩ := hp.own fun hin => ((hids _).1 hin).2 (by
        rw [hsuperseded]
        exact List.mem_singleton_self _)
      have hykey : y.2.key = job.key s.intake.nextTicket :=
        (h.named y hy key hnamed).trans (key_of_named hjob _).symm
      obtain rfl := h.filed.eq_of_key hx hy (hxkey.trans hykey.symm)
      exact ⟨key, hnamed, hjob⟩
    · refine fun hapart => ⟨fun x hx hgone => ?_, fun _ => ⟨x₀, hx₀, hapart x₀ hx₀ hkey⟩⟩
      refine absurd ((hids x.1).2 ⟨.inl (hopen x hx), ?_⟩) hgone
      rw [hsuperseded, List.mem_singleton]
      exact (h.filed.fresh x hx).ne

/-! ### Runs -/

theorem peaceful_iff (h : s.Kept) (a : PostAction F) :
    s.Peaceful slotFormat a ↔ s.Apart a := by
  cases a with
  | post job => exact forall_congr' fun hsmall => undisturbed_iff h hsmall
  | claim | answer | crash | cancelFrame | cancelSequence | setWorkerCount => exact Iff.rfl

/-- In a run of the dispatcher no post disturbs another job, unless both named the same key, exactly
when no post comes under the key of an open ticket that did not name it, or without naming it. -/
theorem undisturbed_run_iff (slotFormat : ℤ) (workers batchSize : ℕ) (as : List (PostAction F)) :
    Permitted (act slotFormat) (Peaceful slotFormat) (new workers batchSize : Posts F) as ↔
      Permitted (act slotFormat) Apart (new workers batchSize : Posts F) as := by
  have hkept := kept_new (F := F) workers batchSize
  have hstep : ∀ (s : Posts F) a, s.Kept → (s.act slotFormat a).Kept := fun _ a h => h.act a
  constructor
  · exact Permitted.imp_of_invariant (fun s a h _ => hstep s a h)
      (fun _ a h hpeaceful => (peaceful_iff h a).1 hpeaceful) hkept
  · exact Permitted.imp_of_invariant (fun s a h _ => hstep s a h)
      (fun _ a h hapart => (peaceful_iff h a).2 hapart) hkept

/-- A video job of one sequence. -/
def sampleJob (schedule : JobSchedule) : Job ℚ := ⟨7, ⟨none, none, [], []⟩, none, schedule⟩

/-- A single frame is asked for, whose ticket has the number one, and then frame one of the same
sequence for playback. -/
def sampleRun : List (PostAction ℚ) :=
  [.post (sampleJob .seek), .post (sampleJob ⟨.playback, some 1, 0, 0⟩)]

/-- The frame for playback takes the single frame off, which named no frame. -/
theorem playback_replaces_seek : ¬∀ as : List (PostAction ℚ),
    Permitted (act slotFormatBgra8) (Peaceful slotFormatBgra8) (new 1 1) as := by
  intro h
  obtain ⟨-, hpost, -⟩ := h sampleRun
  have hgone : (1 : ℤ) ∉ ((act slotFormatBgra8 (new 1 1) (.post (sampleJob .seek))).intake.post
      slotFormatBgra8 (sampleJob ⟨.playback, some 1, 0, 0⟩)).ids := by decide
  obtain ⟨key, hnamed, -⟩ := (hpost rfl).others _ List.mem_cons_self hgone
  exact nomatch hnamed

end Posts

end Oak.Render
