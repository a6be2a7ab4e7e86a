import Mathlib.Data.Finset.Basic
import Oak.Render.Ticket

/-!
# The jobs of the auto-cacher

`PreviewAutoCacher` of `oak-render/src/autocacher.rs` keeps the ids of the tickets that it submits
for custom ranges and for single frames. Its tickets are fire-and-forget: the arena drops their
entries at the first submit after they have finished, and answers `is_finished` with `false` for an
id without an entry.

* `CacherAction` are the calls of the cacher, and what happens to the arena meanwhile.
* `customJobs` and `singleJobs` are not in the source: the ids that were submitted for custom ranges
  and for single frames.
* `Progress` says that `is_rendering_custom_range` is right, and that the clean-up call drops the
  finished single frames.

## Main results

* `TicketArena.slots_submit_iff`: the entries that a submit leaves.
* `progress_act_iff`: when one step keeps the progress right.
* `progress_run_iff`: the runs in which it is right all along.
-/

namespace Oak.Render

open Oak.Lib

variable {T R : Type*}

/-! ### Tickets and their entries -/

variable (audioFallback : Bool)

namespace TicketArena

/-- `is_finished`. An id without an entry has not finished. -/
def isFinished (s : TicketArena T) (id : ℕ) : Bool :=
  match s.slots id with
  | some i => (s.tickets[i]?.map TicketSlot.finished).getD false
  | none => false

/-- The ticket with the id has finished, whether or not the arena still has its entry. -/
def Finished (s : TicketArena T) (id : ℕ) : Prop := ∃ t ∈ s.tickets, t.id = id ∧ t.finished = true

/-- Nobody is going to read the ticket with the id. -/
def Forgotten (s : TicketArena T) (id : ℕ) : Prop :=
  ∃ t ∈ s.tickets, t.id = id ∧ t.pollAfter = false

/-- The ticket `i` has the id, and its result is about to be published. -/
def Completes (s : TicketArena T) (i id : ℕ) : Prop :=
  ∃ t, s.tickets[i]? = some t ∧ t.id = id ∧ ∃ result, t.job = .checked result

/-- The ids come from `next_id`. -/
structure Numbered (s : TicketArena T) : Prop where
  stored : s.Stored
  nodup : (s.tickets.map TicketSlot.id).Nodup
  lt_next : ∀ t ∈ s.tickets, t.id < s.next

variable {s s' : TicketArena T} {id : ℕ}

theorem numbered_new : (new audioFallback : TicketArena T).Numbered where
  stored := stored_new audioFallback
  nodup := List.nodup_nil
  lt_next _ ht := absurd ht List.not_mem_nil

theorem Numbered.eq_of_id (h : s.Numbered) {t t' : TicketSlot T} (ht : t ∈ s.tickets)
    (ht' : t' ∈ s.tickets) (hid : t.id = t'.id) : t = t' :=
  List.inj_on_of_nodup_map h.nodup ht ht' hid

theorem Numbered.isFinished_iff (h : s.Numbered) :
    s.isFinished id = true ↔ s.slots id ≠ none ∧ s.Finished id := by
  rw [isFinished]
  cases hslot : s.slots id with
  | none => exact iff_of_false nofun fun hfinished => hfinished.1 rfl
  | some i =>
    obtain ⟨t, ht, hid⟩ := h.stored.stored id i hslot
    have hmem := List.mem_of_getElem? ht
    dsimp only
    rw [ht]
    constructor
    · exact fun hfinished => ⟨Option.some_ne_none i, t, hmem, hid, hfinished⟩
    · rintro ⟨-, t', ht', hid', hfinished⟩
      obtain rfl := h.eq_of_id ht' hmem (hid'.trans hid.symm)
      exact hfinished

theorem Numbered.not_finished_next (h : s.Numbered) : ¬s.Finished s.next := by
  rintro ⟨t, ht, hid, -⟩
  exact (h.lt_next t ht).ne hid

/-! #### A submit -/

variable (audio pollAfter : Bool)

theorem tickets_submit :
    (s.submit none audio pollAfter).tickets = s.tickets ++ [.new s.next audio pollAfter] := rfl

theorem finished_submit : (s.submit none audio pollAfter).Finished id ↔ s.Finished id := by
  rw [Finished, tickets_submit]
  constructor
  · rintro ⟨t, ht, hid, hfinished⟩
    rcases List.mem_append.1 ht with hold | hnew
    · exact ⟨t, hold, hid, hfinished⟩
    · rw [List.mem_singleton.1 hnew] at hfinished
      exact nomatch hfinished
  · rintro ⟨t, ht, hrest⟩
    exact ⟨t, List.mem_append_left _ ht, hrest⟩

theorem Forgotten.submit (h : s.Forgotten id) (audio pollAfter : Bool) :
    (s.submit none audio pollAfter).Forgotten id := by
  obtain ⟨t, ht, hrest⟩ := h
  exact ⟨t, List.mem_append_left _ ht, hrest⟩

theorem forgotten_submit_next (audio : Bool) : (s.submit none audio false).Forgotten s.next :=
  ⟨.new s.next audio false, List.mem_append_right _ (List.mem_singleton_self _), rfl, rfl⟩

theorem Numbered.submit (h : s.Numbered) (audio pollAfter : Bool) :
    (s.submit none audio pollAfter).Numbered where
  stored := h.stored.act (.submit none audio pollAfter)
  nodup := by
    rw [tickets_submit, List.map_append, List.nodup_append]
    refine ⟨h.nodup, List.nodup_singleton _, ?_⟩
    rintro id hid id' hid' rfl
    obtain ⟨t, ht, rfl⟩ := List.mem_map.1 hid
    exact (h.lt_next t ht).ne (List.mem_singleton.1 hid')
  lt_next t ht := by
    rcases List.mem_append.1 ht with hold | hnew
    · exact (h.lt_next t hold).trans (Nat.lt_succ_self _)
    · rw [List.mem_singleton.1 hnew]
      exact Nat.lt_succ_self _

theorem slots_submit_next : (s.submit none audio pollAfter).slots s.next ≠ none := by
  have hslot : (s.submit none audio pollAfter).slots s.next = some s.tickets.length := by
    refine Option.filter_eq_some_iff.2 ⟨if_pos rfl, ?_⟩
    dsimp only [retained, nextId]
    rw [List.getElem?_concat_length]
    rfl
  rw [hslot]
  exact Option.some_ne_none _

/-- A submit drops the entries of the forgotten tickets that have finished, and no other. -/
theorem Numbered.slots_submit_iff (h : s.Numbered) (hid : s.Forgotten id)
    (audio pollAfter : Bool) : (s.submit none audio pollAfter).slots id ≠ none ↔
      s.slots id ≠ none ∧ ¬s.Finished id := by
  obtain ⟨t, ht, rfl, hforgotten⟩ := hid
  have hslot : (s.submit none audio pollAfter).slots t.id =
      (s.slots t.id).filter
        (retained
          { s.nextId with
            tickets := s.tickets ++ [TicketSlot.new s.next audio pollAfter] }) := by
    refine congrArg (Option.filter _) (if_neg ?_)
    exact (h.lt_next t ht).ne
  rw [hslot]
  cases hold : s.slots t.id with
  | none => exact iff_of_false (fun hne => hne rfl) fun hne => hne.1 rfl
  | some i =>
    obtain ⟨t', ht', hid'⟩ := h.stored.stored t.id i hold
    obtain rfl := h.eq_of_id (List.mem_of_getElem? ht') ht hid'
    have hretained : retained
        { s.nextId with tickets := s.tickets ++ [TicketSlot.new s.next audio pollAfter] } i =
          !t'.finished := by
      rw [retained]
      dsimp only
      rw [List.getElem?_append_left (List.getElem?_eq_some_iff.1 ht').1, ht']
      dsimp only
      rw [hforgotten, Bool.not_false, Bool.and_true]
    have hfinished : s.Finished t'.id ↔ t'.finished = true := by
      refine ⟨?_, fun hfinished => ⟨t', ht, rfl, hfinished⟩⟩
      rintro ⟨t, hmem, hid, hfinished⟩
      obtain rfl := h.eq_of_id hmem ht hid
      exact hfinished
    rw [and_iff_right (Option.some_ne_none i), hfinished, Option.filter_some, hretained]
    cases t'.finished with
    | true => exact iff_of_false (fun hne => hne rfl) fun hne => hne rfl
    | false => exact iff_of_true (Option.some_ne_none i) Bool.false_ne_true

/-! #### The other steps -/

/-- What the cacher depends on in a ticket. -/
def life (t : TicketSlot T) : ℕ × Bool × Bool := (t.id, t.pollAfter, t.finished)

/-- A step that finishes no ticket and changes no entry. -/
structure SameLives (s s' : TicketArena T) : Prop where
  slots : s'.slots = s.slots
  next : s'.next = s.next
  lives : s'.tickets.map life = s.tickets.map life

theorem SameLives.refl (s : TicketArena T) : s.SameLives s := ⟨rfl, rfl, rfl⟩

theorem sameLives_modify {i : ℕ} {f : TicketSlot T → TicketSlot T}
    (hf : ∀ t, life (f t) = life t) : s.SameLives (s.modify i f) where
  slots := rfl
  next := rfl
  lives := by
    refine List.ext_getElem? fun j => ?_
    rw [List.getElem?_map, List.getElem?_map, getElem?_modify]
    split_ifs
    · rw [Option.map_map]
      exact congrArg (fun g => Option.map g _) (funext hf)
    · rfl

theorem SameLives.exists_iff (h : s.SameLives s') (p : ℕ × Bool × Bool → Prop) :
    (∃ t ∈ s'.tickets, p (life t)) ↔ ∃ t ∈ s.tickets, p (life t) := by
  have hmap : ∀ l : List (TicketSlot T), (∃ t ∈ l, p (life t)) ↔ ∃ e ∈ l.map life, p e := by
    intro l
    simp only [List.mem_map, exists_exists_and_eq_and]
  rw [hmap, hmap, h.lives]

theorem SameLives.finished_iff (h : s.SameLives s') : s'.Finished id ↔ s.Finished id :=
  h.exists_iff fun e => e.1 = id ∧ e.2.2 = true

theorem SameLives.forgotten_iff (h : s.SameLives s') : s'.Forgotten id ↔ s.Forgotten id :=
  h.exists_iff fun e => e.1 = id ∧ e.2.1 = false

theorem SameLives.map_id (h : s.SameLives s') :
    s'.tickets.map TicketSlot.id = s.tickets.map TicketSlot.id := by
  have hfst : ∀ l : List (TicketSlot T), l.map TicketSlot.id = (l.map life).map Prod.fst := by
    intro l
    rw [List.map_map]
    rfl
  rw [hfst, hfst, h.lives]

theorem Numbered.of_map_id (h : s.Numbered) (hstored : s'.Stored) (hnext : s'.next = s.next)
    (hid : s'.tickets.map TicketSlot.id = s.tickets.map TicketSlot.id) : s'.Numbered where
  stored := hstored
  nodup := hid ▸ h.nodup
  lt_next t ht := by
    have hmem : t.id ∈ s.tickets.map TicketSlot.id := hid ▸ List.mem_map_of_mem ht
    obtain ⟨t', ht', heq⟩ := List.mem_map.1 hmem
    rw [hnext, ← heq]
    exact h.lt_next t' ht'

variable (i : ℕ)

theorem sameLives_post (accepted fallback : Bool) :
    s.SameLives (s.act (.post i accepted fallback)) := by
  refine sameLives_modify fun t => ?_
  rw [TicketSlot.post]
  split
  · split_ifs
    · rfl
    · rfl
  · rfl

theorem sameLives_finish (result : TicketResult T) : s.SameLives (s.act (.finish i result)) := by
  refine sameLives_modify fun t => ?_
  rw [TicketSlot.answer]
  split
  · rfl
  · rfl

theorem sameLives_check : s.SameLives (s.act (.check i)) := by
  refine sameLives_modify fun t => ?_
  rw [TicketSlot.check]
  split
  · split_ifs
    · rfl
    · rfl
  · rfl

theorem sameLives_deliver : s.SameLives (s.act (.deliver i)) := by
  refine sameLives_modify fun t => ?_
  rw [TicketSlot.deliver]
  split
  · split_ifs
    · rfl
    · rfl
    · rfl
  · rfl

theorem sameLives_cancel (id : ℕ) : s.SameLives (s.cancel id) := by
  rw [cancel]
  split
  · exact sameLives_modify fun _ => rfl
  · exact .refl s

theorem sameLives_cancelAll : s.SameLives s.cancelAll where
  slots := rfl
  next := rfl
  lives := by
    refine List.ext_getElem? fun j => ?_
    rw [List.getElem?_map, List.getElem?_map, getElem?_cancelAll, Option.map_map]
    refine congrArg (fun g => Option.map g _) (funext fun t => ?_)
    rw [Function.comp_apply]
    split_ifs
    · rfl
    · rfl

theorem finished_publish : (s.act (.publish i)).Finished id ↔ s.Finished id ∨ s.Completes i id := by
  have hget : ∀ j, (s.act (.publish i)).tickets[j]? =
      if i = j then s.tickets[j]?.map TicketSlot.publish else s.tickets[j]? :=
    fun j => getElem?_modify j
  constructor
  · rintro ⟨t, ht, hid, hfinished⟩
    obtain ⟨j, hj⟩ := List.getElem?_of_mem ht
    rw [hget] at hj
    split_ifs at hj with heq
    · obtain ⟨t', ht', rfl⟩ := Option.map_eq_some_iff.1 hj
      rw [TicketSlot.publish] at hid hfinished
      split at hid
      next result hjob =>
        refine Or.inr ⟨t', heq ▸ ht', ?_, result, hjob⟩
        split_ifs at hid
        · exact hid
        · exact hid
      next hjob =>
        refine Or.inl ⟨t', List.mem_of_getElem? ht', hid, ?_⟩
        split at hfinished
        next result hchecked => exact absurd hchecked (hjob result)
        next => exact hfinished
    · exact Or.inl ⟨t, List.mem_of_getElem? hj, hid, hfinished⟩
  · intro h
    have hpublish : ∀ t : TicketSlot T, t.publish.id = t.id := fun t =>
      (TicketSlot.advances_publish (t := t)).id
    rcases h with ⟨t, ht, hid, hfinished⟩ | ⟨t, ht, hid, result, hjob⟩
    · obtain ⟨j, hj⟩ := List.getElem?_of_mem ht
      by_cases heq : i = j
      · refine ⟨t.publish, List.mem_of_getElem? (i := j) ?_, (hpublish t).trans hid, ?_⟩
        · rw [hget, if_pos heq, hj]
          rfl
        · by_contra hopen
          rw [Bool.not_eq_true] at hopen
          exact Bool.false_ne_true
            ((TicketSlot.advances_publish.finished hopen).symm.trans hfinished)
      · refine ⟨t, List.mem_of_getElem? (i := j) ?_, hid, hfinished⟩
        rw [hget, if_neg heq, hj]
    · refine ⟨t.publish, List.mem_of_getElem? (i := i) ?_, (hpublish t).trans hid, ?_⟩
      · rw [hget, if_pos rfl, ht]
        rfl
      · rw [TicketSlot.publish, hjob]
        dsimp only
        split_ifs with hfinished
        · exact hfinished
        · rfl

theorem forgotten_publish (h : s.Forgotten id) : (s.act (.publish i)).Forgotten id := by
  obtain ⟨t, ht, hid, hforgotten⟩ := h
  obtain ⟨j, hj⟩ := List.getElem?_of_mem ht
  have hget : (s.act (.publish i)).tickets[j]? =
      if i = j then s.tickets[j]?.map TicketSlot.publish else s.tickets[j]? := getElem?_modify j
  split_ifs at hget
  · refine ⟨t.publish, List.mem_of_getElem? (hget.trans (congrArg _ hj)),
      (TicketSlot.advances_publish (t := t)).id.trans hid, ?_⟩
    rw [TicketSlot.publish]
    split
    · split_ifs
      · exact hforgotten
      · exact hforgotten
    · exact hforgotten
  · exact ⟨t, List.mem_of_getElem? (hget.trans hj), hid, hforgotten⟩

theorem Numbered.publish (h : s.Numbered) (i : ℕ) : (s.act (.publish i)).Numbered := by
  refine h.of_map_id (h.stored.act (.publish i)) rfl (List.ext_getElem? fun j => ?_)
  have hget : (s.act (.publish i)).tickets[j]? =
      if i = j then s.tickets[j]?.map TicketSlot.publish else s.tickets[j]? := getElem?_modify j
  rw [List.getElem?_map, List.getElem?_map, hget]
  split_ifs
  · rw [Option.map_map]
    exact congrArg (fun g => Option.map g _)
      (funext fun t => (TicketSlot.advances_publish (t := t)).id)
  · rfl

end TicketArena

open TicketArena

/-! ### The cacher -/

/-- `PreviewAutoCacher`, with its arena. -/
structure AutoCacher (T R : Type*) where
  arena : TicketArena T
  customRange : Option R
  jobs : Finset ℕ
  lastSingleFrame : Option ℕ
  customJobs : Finset ℕ
  singleJobs : Finset ℕ

/-- What happens to the arena between two calls of the cacher. A ticket of another caller has an id
of `next_id` as well. -/
inductive ArenaEvent (T : Type*)
  | submit (audio pollAfter : Bool)
  | post (i : ℕ) (accepted fallback : Bool)
  | finish (i : ℕ) (result : TicketResult T)
  | check (i : ℕ)
  | publish (i : ℕ)
  | deliver (i : ℕ)
  | cancel (id : ℕ)
  | cancelAll

inductive CacherAction (T R : Type*)
  | forceRange (range : R)
  | singleFrame
  | clearFinishedSingleFrames
  | arena (e : ArenaEvent T)

def ArenaEvent.toAction : ArenaEvent T → TicketAction T
  | .submit audio pollAfter => .submit none audio pollAfter
  | .post i accepted fallback => .post i accepted fallback
  | .finish i result => .finish i result
  | .check i => .check i
  | .publish i => .publish i
  | .deliver i => .deliver i
  | .cancel id => .cancel id
  | .cancelAll => .cancelAll

namespace AutoCacher

def new (audioFallback : Bool) : AutoCacher T R := ⟨.new audioFallback, none, ∅, none, ∅, ∅⟩

/-- A video ticket is submitted, and its id is listed. -/
def startJob (s : AutoCacher T R) : AutoCacher T R :=
  { s with arena := s.arena.submit none false false, jobs := insert s.arena.next s.jobs }

/-- `force_range` -/
def forceRange (s : AutoCacher T R) (range : R) : AutoCacher T R :=
  { s.startJob with
    customRange := some range
    customJobs := insert s.arena.next s.customJobs }

/-- The single frame before is cancelled and taken off the list. -/
def dropLast (s : AutoCacher T R) : AutoCacher T R :=
  match s.lastSingleFrame with
  | some prev =>
    { s with
      arena := s.arena.cancel prev
      jobs := s.jobs.erase prev
      lastSingleFrame := none }
  | none => s

/-- `single_frame` -/
def singleFrame (s : AutoCacher T R) : AutoCacher T R :=
  { s.dropLast.startJob with
    lastSingleFrame := some s.dropLast.arena.next
    singleJobs := insert s.dropLast.arena.next s.dropLast.singleJobs }

/-- `clear_finished_single_frames` -/
def clearFinishedSingleFrames (s : AutoCacher T R) : AutoCacher T R :=
  { s with jobs := s.jobs.filter fun id => !s.arena.isFinished id }

/-- `is_rendering_custom_range` -/
def isRenderingCustomRange (s : AutoCacher T R) : Bool :=
  s.customRange.isSome && decide (∃ id ∈ s.jobs, s.arena.isFinished id = false)

/-- One step. -/
def act (s : AutoCacher T R) : CacherAction T R → AutoCacher T R
  | .forceRange range => s.forceRange range
  | .singleFrame => s.singleFrame
  | .clearFinishedSingleFrames => s.clearFinishedSingleFrames
  | .arena e => { s with arena := s.arena.act e.toAction }

/-- The cacher says that it renders a custom range exactly when a job of one has not finished, and
the clean-up call takes every finished single frame off the list. -/
structure Progress (s : AutoCacher T R) : Prop where
  truthful : s.isRenderingCustomRange = true ↔
    s.customRange.isSome ∧ ∃ id ∈ s.customJobs, ¬s.arena.Finished id
  dropped : ∀ id ∈ s.singleJobs, s.arena.Finished id → id ∉ s.clearFinishedSingleFrames.jobs

/-- A custom range is set, and all jobs of custom ranges have finished. -/
def Complete (s : AutoCacher T R) : Prop :=
  s.customRange.isSome ∧ ∀ id ∈ s.customJobs, s.arena.Finished id

/-- No finished single frame is on the list. -/
def Clean (s : AutoCacher T R) : Prop :=
  ∀ id ∈ s.jobs, id ∈ s.singleJobs → ¬s.arena.Finished id

/-- Finished single frames are cleaned up before the next submit, other than that of a single frame;
the list is empty before another caller submits when the custom ranges are complete; no single
frame is asked for then; and when they become complete, all other jobs on the list have finished and
have their entries. -/
def Orderly (s : AutoCacher T R) : CacherAction T R → Prop
  | .forceRange _ => s.Clean
  | .singleFrame => ¬s.Complete
  | .arena (.submit _ _) => (s.Complete → s.jobs = ∅) ∧ s.Clean
  | .arena (.publish i) => ∀ id ∈ s.customJobs, s.arena.Completes i id →
      (∀ c ∈ s.customJobs, c = id ∨ s.arena.Finished c) →
      ∀ j ∈ s.jobs, j = id ∨ s.arena.isFinished j = true
  | _ => True

/-- What holds in every state of a run. -/
structure Tracked (s : AutoCacher T R) : Prop where
  numbered : s.arena.Numbered
  forgotten : ∀ id ∈ s.jobs, s.arena.Forgotten id
  held : ∀ id ∈ s.jobs, ¬s.arena.Finished id → s.arena.slots id ≠ none
  custom_lt : ∀ id ∈ s.customJobs, id < s.arena.next
  custom : ∀ id ∈ s.customJobs, ¬s.arena.Finished id → id ∈ s.jobs
  single_lt : ∀ id ∈ s.singleJobs, id < s.arena.next
  single : ∀ id ∈ s.singleJobs, id ∈ s.jobs → s.lastSingleFrame = some id
  last : ∀ id, s.lastSingleFrame = some id → id ∈ s.singleJobs
  disjoint : ∀ id ∈ s.singleJobs, id ∉ s.customJobs
  range : s.customRange.isSome ↔ s.customJobs.Nonempty

variable {s : AutoCacher T R}

theorem tracked_new : (new audioFallback : AutoCacher T R).Tracked where
  numbered := numbered_new audioFallback
  forgotten _ hid := absurd hid (Finset.notMem_empty _)
  held _ hid := absurd hid (Finset.notMem_empty _)
  custom_lt _ hid := absurd hid (Finset.notMem_empty _)
  custom _ hid := absurd hid (Finset.notMem_empty _)
  single_lt _ hid := absurd hid (Finset.notMem_empty _)
  single _ hid := absurd hid (Finset.notMem_empty _)
  last _ h := nomatch h
  disjoint _ hid := absurd hid (Finset.notMem_empty _)
  range := iff_of_false nofun Finset.not_nonempty_empty

/-- Progress is right when the complete custom ranges leave nothing on the list that looks
unfinished, and no finished single frame has lost its entry. -/
theorem progress_iff (h : s.Tracked) : s.Progress ↔
    (s.Complete → ∀ id ∈ s.jobs, s.arena.isFinished id = true) ∧
      ∀ id ∈ s.jobs, id ∈ s.singleJobs → s.arena.Finished id → s.arena.slots id ≠ none := by
  have hrendering : s.isRenderingCustomRange = true ↔
      s.customRange.isSome ∧ ∃ id ∈ s.jobs, s.arena.isFinished id = false := by
    rw [isRenderingCustomRange, Bool.and_eq_true, decide_eq_true_iff]
  have hactive : (∃ id ∈ s.customJobs, ¬s.arena.Finished id) →
      ∃ id ∈ s.jobs, s.arena.isFinished id = false := by
    rintro ⟨id, hid, hopen⟩
    refine ⟨id, h.custom id hid hopen, Bool.eq_false_iff.2 fun hfinished => hopen ?_⟩
    exact (h.numbered.isFinished_iff.1 hfinished).2
  constructor
  · rintro ⟨htruthful, hdropped⟩
    constructor
    · rintro ⟨hrange, hcomplete⟩ id hid
      by_contra hopen
      obtain ⟨-, c, hc, hunfinished⟩ := htruthful.1
        (hrendering.2 ⟨hrange, id, hid, Bool.eq_false_iff.2 hopen⟩)
      exact hunfinished (hcomplete c hc)
    · intro id hid hsingle hfinished hlost
      refine hdropped id hsingle hfinished (Finset.mem_filter.2 ⟨hid, ?_⟩)
      rw [Bool.not_eq_true', Bool.eq_false_iff]
      exact fun hseen => (h.numbered.isFinished_iff.1 hseen).1 hlost
  · rintro ⟨hseen, hheld⟩
    refine ⟨hrendering.trans (and_congr_right fun hrange => ⟨?_, hactive⟩), ?_⟩
    · rintro ⟨id, hid, hopen⟩
      by_contra hnone
      push Not at hnone
      rw [hseen ⟨hrange, hnone⟩ id hid] at hopen
      exact nomatch hopen
    · intro id hsingle hfinished hmem
      obtain ⟨hid, hopen⟩ := Finset.mem_filter.1 hmem
      rw [Bool.not_eq_true', Bool.eq_false_iff] at hopen
      exact hopen (h.numbered.isFinished_iff.2 ⟨hheld id hid hsingle hfinished, hfinished⟩)

/-! ### Steps of the arena -/

/-- The arena goes on, and loses only entries of tickets that have finished. -/
theorem Tracked.setArena (h : s.Tracked) {arena : TicketArena T} (hnumbered : arena.Numbered)
    (hnext : s.arena.next ≤ arena.next)
    (hforgotten : ∀ id, s.arena.Forgotten id → arena.Forgotten id)
    (hfinished : ∀ id, s.arena.Finished id → arena.Finished id)
    (hslots : ∀ id, s.arena.Forgotten id → ¬s.arena.Finished id → s.arena.slots id ≠ none →
      arena.slots id ≠ none) : Tracked { s with arena := arena } where
  numbered := hnumbered
  forgotten id hid := hforgotten id (h.forgotten id hid)
  held id hid hopen := by
    have hbefore : ¬s.arena.Finished id := fun hdone => hopen (hfinished id hdone)
    exact hslots id (h.forgotten id hid) hbefore (h.held id hid hbefore)
  custom_lt id hid := (h.custom_lt id hid).trans_le hnext
  custom id hid hopen := h.custom id hid fun hdone => hopen (hfinished id hdone)
  single_lt id hid := (h.single_lt id hid).trans_le hnext
  single := h.single
  last := h.last
  disjoint := h.disjoint
  range := h.range

theorem Tracked.submit (h : s.Tracked) (audio pollAfter : Bool) :
    Tracked { s with arena := s.arena.submit none audio pollAfter } :=
  h.setArena (h.numbered.submit audio pollAfter) (Nat.le_succ _)
    (fun _ hid => hid.submit audio pollAfter)
    (fun _ => (finished_submit audio pollAfter).2)
    fun _ hid hopen hslot => (h.numbered.slots_submit_iff hid audio pollAfter).2 ⟨hslot, hopen⟩

theorem Tracked.sameLives (h : s.Tracked) {arena : TicketArena T} (hstored : arena.Stored)
    (hsame : s.arena.SameLives arena) : Tracked { s with arena := arena } :=
  h.setArena (h.numbered.of_map_id hstored hsame.next hsame.map_id) hsame.next.ge
    (fun _ => hsame.forgotten_iff.2) (fun _ => hsame.finished_iff.2)
    fun _ _ _ hslot => hsame.slots ▸ hslot

theorem Tracked.publish (h : s.Tracked) (i : ℕ) :
    Tracked { s with arena := s.arena.act (.publish i) } :=
  h.setArena (h.numbered.publish i) le_rfl (fun _ => forgotten_publish i)
    (fun _ hdone => (finished_publish i).2 (.inl hdone)) fun _ _ _ hslot => hslot

theorem Tracked.arena (h : s.Tracked) (e : ArenaEvent T) :
    Tracked { s with arena := s.arena.act e.toAction } := by
  have hstored := h.numbered.stored.act e.toAction
  cases e with
  | submit audio pollAfter => exact h.submit audio pollAfter
  | post i accepted fallback =>
    exact h.sameLives hstored (sameLives_post i accepted fallback)
  | finish i result => exact h.sameLives hstored (sameLives_finish i result)
  | check i => exact h.sameLives hstored (sameLives_check i)
  | publish i => exact h.publish i
  | deliver i => exact h.sameLives hstored (sameLives_deliver i)
  | cancel id => exact h.sameLives hstored (sameLives_cancel id)
  | cancelAll => exact h.sameLives hstored sameLives_cancelAll

theorem complete_congr {arena : TicketArena T}
    (hfinished : ∀ id, arena.Finished id ↔ s.arena.Finished id) :
    Complete { s with arena := arena } ↔ s.Complete :=
  and_congr_right fun _ => forall₂_congr fun id _ => hfinished id

theorem progress_sameLives_iff (h : s.Tracked) {arena : TicketArena T} (hstored : arena.Stored)
    (hsame : s.arena.SameLives arena) : Progress { s with arena := arena } ↔ s.Progress := by
  have hnext := h.sameLives hstored hsame
  have hseen : ∀ id, arena.isFinished id = true ↔ s.arena.isFinished id = true := fun id => by
    rw [hnext.numbered.isFinished_iff, h.numbered.isFinished_iff, hsame.slots, hsame.finished_iff]
  rw [progress_iff h, progress_iff hnext, complete_congr fun _ => hsame.finished_iff]
  refine and_congr (imp_congr_right fun _ => forall₂_congr fun id _ => hseen id)
    (forall₃_congr fun id _ _ => ?_)
  dsimp only
  rw [hsame.finished_iff, hsame.slots]

/-- After a submit the finished jobs on the list have lost their entries. -/
theorem progress_submit_iff (h : s.Tracked) (audio pollAfter : Bool) :
    Progress { s with arena := s.arena.submit none audio pollAfter } ↔
      (s.Complete → s.jobs = ∅) ∧ s.Clean := by
  have hnext := h.submit audio pollAfter
  have hslots : ∀ id ∈ s.jobs, ((s.arena.submit none audio pollAfter).slots id ≠ none ↔
      s.arena.slots id ≠ none ∧ ¬s.arena.Finished id) :=
    fun id hid => h.numbered.slots_submit_iff (h.forgotten id hid) audio pollAfter
  have hfinished : ∀ id, (s.arena.submit none audio pollAfter).Finished id ↔
      s.arena.Finished id := fun id => finished_submit audio pollAfter
  rw [progress_iff hnext, complete_congr hfinished]
  refine and_congr (imp_congr_right fun _ => ?_) (forall₂_congr fun id hid => ?_)
  · rw [Finset.eq_empty_iff_forall_notMem]
    refine forall_congr' fun id => ⟨fun hseen hid => ?_, fun hempty hid => absurd hid hempty⟩
    obtain ⟨hslot, hdone⟩ := hnext.numbered.isFinished_iff.1 (hseen hid)
    exact ((hslots id hid).1 hslot).2 ((hfinished id).1 hdone)
  · refine imp_congr_right fun _ => ⟨fun hheld hdone => ?_, fun hopen hdone => ?_⟩
    · exact ((hslots id hid).1 (hheld ((hfinished id).2 hdone))).2 hdone
    · exact absurd ((hfinished id).1 hdone) hopen

/-- A publication matters when it completes the custom ranges. -/
theorem progress_publish_iff (h : s.Tracked) (hp : s.Progress) (i : ℕ) :
    Progress { s with arena := s.arena.act (.publish i) } ↔
      ∀ id ∈ s.customJobs, s.arena.Completes i id →
        (∀ c ∈ s.customJobs, c = id ∨ s.arena.Finished c) →
        ∀ j ∈ s.jobs, j = id ∨ s.arena.isFinished j = true := by
  have hnext := h.publish i
  have hfinished : ∀ id, (s.arena.act (.publish i)).Finished id ↔
      s.arena.Finished id ∨ s.arena.Completes i id := fun id => finished_publish i
  have hcompletes : ∀ id c, s.arena.Completes i id → s.arena.Completes i c → c = id := by
    rintro id c ⟨t, ht, rfl, -⟩ ⟨t', ht', rfl, -⟩
    rw [Option.some.inj (ht.symm.trans ht')]
  obtain ⟨hseen, hheld⟩ := (progress_iff h).1 hp
  rw [progress_iff hnext]
  constructor
  · rintro ⟨hseen', -⟩ id hid hcomp hothers j hj
    have hcomplete : Complete { s with arena := s.arena.act (.publish i) } := by
      refine ⟨?_, fun c hc => (hfinished c).2 ((hothers c hc).symm.imp_right ?_)⟩
      · exact h.range.2 ⟨id, hid⟩
      · rintro rfl
        exact hcomp
    obtain ⟨hslot, hdone⟩ := hnext.numbered.isFinished_iff.1 (hseen' hcomplete j hj)
    rcases (hfinished j).1 hdone with hbefore | hnow
    · exact Or.inr (h.numbered.isFinished_iff.2 ⟨hslot, hbefore⟩)
    · exact Or.inl (hcompletes id j hcomp hnow)
  · intro horderly
    constructor
    · rintro ⟨hrange, hcomplete⟩ j hj
      refine hnext.numbered.isFinished_iff.2 ?_
      by_cases hbefore : ∀ c ∈ s.customJobs, s.arena.Finished c
      · obtain ⟨hslot, hdone⟩ := h.numbered.isFinished_iff.1 (hseen ⟨hrange, hbefore⟩ j hj)
        exact ⟨hslot, (hfinished j).2 (.inl hdone)⟩
      · push Not at hbefore
        obtain ⟨id, hid, hopen⟩ := hbefore
        have hcomp := ((hfinished id).1 (hcomplete id hid)).resolve_left hopen
        have hothers : ∀ c ∈ s.customJobs, c = id ∨ s.arena.Finished c := fun c hc =>
          ((hfinished c).1 (hcomplete c hc)).symm.imp_left (hcompletes id c hcomp)
        rcases horderly id hid hcomp hothers j hj with rfl | hfin
        · exact ⟨h.held j hj hopen, (hfinished j).2 (.inr hcomp)⟩
        · obtain ⟨hslot, hdone⟩ := h.numbered.isFinished_iff.1 hfin
          exact ⟨hslot, (hfinished j).2 (.inl hdone)⟩
    · intro j hj hsingle hdone
      by_cases hbefore : s.arena.Finished j
      · exact hheld j hj hsingle hbefore
      · exact h.held j hj hbefore

/-! ### Calls of the cacher -/

section

variable (h : s.Tracked)

include h

theorem Tracked.forceRange (range : R) : (s.forceRange range).Tracked := by
  have hsubmit := h.submit false false
  constructor
  case numbered => exact hsubmit.numbered
  case forgotten =>
    intro id hid
    rcases Finset.mem_insert.1 hid with rfl | hold
    · exact forgotten_submit_next false
    · exact hsubmit.forgotten id hold
  case held =>
    intro id hid hopen
    rcases Finset.mem_insert.1 hid with rfl | hold
    · exact slots_submit_next false false
    · exact hsubmit.held id hold hopen
  case custom_lt =>
    intro id hid
    rcases Finset.mem_insert.1 hid with rfl | hold
    · exact Nat.lt_succ_self _
    · exact hsubmit.custom_lt id hold
  case custom =>
    intro id hid hopen
    rcases Finset.mem_insert.1 hid with rfl | hold
    · exact Finset.mem_insert_self _ _
    · exact Finset.mem_insert_of_mem (hsubmit.custom id hold hopen)
  case single_lt => exact hsubmit.single_lt
  case single =>
    intro id hid hmem
    rcases Finset.mem_insert.1 hmem with rfl | hold
    · exact absurd (h.single_lt _ hid) (Nat.lt_irrefl _)
    · exact h.single id hid hold
  case last => exact h.last
  case disjoint =>
    intro id hid hmem
    rcases Finset.mem_insert.1 hmem with rfl | hold
    · exact absurd (h.single_lt _ hid) (Nat.lt_irrefl _)
    · exact h.disjoint id hid hold
  case range => exact iff_of_true rfl ⟨_, Finset.mem_insert_self _ _⟩

theorem progress_forceRange_iff (range : R) : (s.forceRange range).Progress ↔ s.Clean := by
  have hfinished : ∀ id, (s.forceRange range).arena.Finished id ↔ s.arena.Finished id :=
    fun id => finished_submit false false
  have hopen : ¬(s.forceRange range).Complete := fun hcomplete =>
    h.numbered.not_finished_next
      ((hfinished _).1 (hcomplete.2 s.arena.next (Finset.mem_insert_self _ _)))
  rw [progress_iff (h.forceRange range), and_iff_right fun hcomplete => absurd hcomplete hopen]
  constructor
  · intro hheld id hid hsingle hdone
    have hslot := hheld id (Finset.mem_insert_of_mem hid) hsingle ((hfinished id).2 hdone)
    exact ((h.numbered.slots_submit_iff (h.forgotten id hid) false false).1 hslot).2 hdone
  · intro hclean id hid hsingle hdone
    rcases Finset.mem_insert.1 hid with rfl | hold
    · exact absurd ((hfinished _).1 hdone) h.numbered.not_finished_next
    · exact absurd ((hfinished id).1 hdone) (hclean id hold hsingle)

/-- The last single frame is off the list, and nothing else has changed. -/
theorem Tracked.dropLast :
    s.dropLast.Tracked ∧ (∀ id ∈ s.dropLast.singleJobs, id ∉ s.dropLast.jobs) ∧
      (s.dropLast.Complete ↔ s.Complete) := by
  rw [AutoCacher.dropLast]
  cases hlast : s.lastSingleFrame with
  | none =>
    refine ⟨h, fun id hid hmem => ?_, Iff.rfl⟩
    exact absurd ((h.single id hid hmem).symm.trans hlast) (Option.some_ne_none id)
  | some prev =>
    have hsame := sameLives_cancel (s := s.arena) prev
    have hcancel := h.sameLives (h.numbered.stored.cancel prev) hsame
    have hgone : ∀ id ∈ s.singleJobs, id ∉ s.jobs.erase prev := by
      intro id hid hmem
      obtain ⟨hne, hold⟩ := Finset.mem_erase.1 hmem
      exact hne (Option.some.inj ((h.single id hid hold).symm.trans hlast))
    refine ⟨?_, hgone, complete_congr fun _ => hsame.finished_iff⟩
    constructor
    case numbered => exact hcancel.numbered
    case forgotten => exact fun id hid => hcancel.forgotten id (Finset.mem_of_mem_erase hid)
    case held => exact fun id hid => hcancel.held id (Finset.mem_of_mem_erase hid)
    case custom_lt => exact hcancel.custom_lt
    case custom =>
      intro id hid hopen
      refine Finset.mem_erase.2 ⟨?_, hcancel.custom id hid hopen⟩
      rintro rfl
      exact h.disjoint id (h.last id hlast) hid
    case single_lt => exact hcancel.single_lt
    case single => exact fun id hid hmem => absurd hmem (hgone id hid)
    case last => exact fun id hnone => absurd hnone.symm (Option.some_ne_none id)
    case disjoint => exact h.disjoint
    case range => exact h.range

theorem Tracked.singleFrame : s.singleFrame.Tracked := by
  obtain ⟨hdrop, hgone, -⟩ := h.dropLast
  have hsubmit := hdrop.submit false false
  constructor
  case numbered => exact hsubmit.numbered
  case forgotten =>
    intro id hid
    rcases Finset.mem_insert.1 hid with rfl | hold
    · exact forgotten_submit_next false
    · exact hsubmit.forgotten id hold
  case held =>
    intro id hid hopen
    rcases Finset.mem_insert.1 hid with rfl | hold
    · exact slots_submit_next false false
    · exact hsubmit.held id hold hopen
  case custom_lt => exact hsubmit.custom_lt
  case custom => exact fun id hid hopen => Finset.mem_insert_of_mem (hsubmit.custom id hid hopen)
  case single_lt =>
    intro id hid
    rcases Finset.mem_insert.1 hid with rfl | hold
    · exact Nat.lt_succ_self _
    · exact hsubmit.single_lt id hold
  case single =>
    intro id hid hmem
    rcases Finset.mem_insert.1 hid with rfl | hold
    · rfl
    · rcases Finset.mem_insert.1 hmem with rfl | hmem
      · rfl
      · exact absurd hmem (hgone id hold)
  case last =>
    intro id hid
    rw [← Option.some.inj hid]
    exact Finset.mem_insert_self _ _
  case disjoint =>
    intro id hid hmem
    rcases Finset.mem_insert.1 hid with rfl | hold
    · exact absurd (hdrop.custom_lt _ hmem) (Nat.lt_irrefl _)
    · exact hdrop.disjoint id hold hmem
  case range => exact hdrop.range

theorem progress_singleFrame_iff : s.singleFrame.Progress ↔ ¬s.Complete := by
  obtain ⟨hdrop, hgone, hcomplete⟩ := h.dropLast
  have hfinished : ∀ id, s.singleFrame.arena.Finished id ↔ s.dropLast.arena.Finished id :=
    fun id => finished_submit false false
  have hnew : ¬s.singleFrame.arena.Finished s.dropLast.arena.next := fun hdone =>
    hdrop.numbered.not_finished_next ((hfinished _).1 hdone)
  have hsame : s.singleFrame.Complete ↔ s.Complete :=
    (and_congr_right fun _ => forall₂_congr fun id _ => hfinished id).trans hcomplete
  rw [progress_iff h.singleFrame, hsame]
  constructor
  · rintro ⟨hseen, -⟩ hall
    have hdone := hseen hall s.dropLast.arena.next (Finset.mem_insert_self _ _)
    exact hnew (h.singleFrame.numbered.isFinished_iff.1 hdone).2
  · refine fun hopen => ⟨fun hall => absurd hall hopen, fun id hid hsingle hdone => ?_⟩
    rcases Finset.mem_insert.1 hid with rfl | hmem
    · exact absurd hdone hnew
    · rcases Finset.mem_insert.1 hsingle with rfl | hold
      · exact absurd hdone hnew
      · exact absurd hmem (hgone id hold)

theorem Tracked.clearFinishedSingleFrames :
    s.clearFinishedSingleFrames.Tracked where
  numbered := h.numbered
  forgotten id hid := h.forgotten id (Finset.mem_filter.1 hid).1
  held id hid := h.held id (Finset.mem_filter.1 hid).1
  custom_lt := h.custom_lt
  custom id hid hopen := by
    refine Finset.mem_filter.2 ⟨h.custom id hid hopen, ?_⟩
    rw [Bool.not_eq_true', Bool.eq_false_iff]
    exact fun hseen => hopen (h.numbered.isFinished_iff.1 hseen).2
  single_lt := h.single_lt
  single id hid hmem := h.single id hid (Finset.mem_filter.1 hmem).1
  last := h.last
  disjoint := h.disjoint
  range := h.range

theorem Progress.clearFinishedSingleFrames (hp : s.Progress) :
    s.clearFinishedSingleFrames.Progress := by
  obtain ⟨hseen, hheld⟩ := (progress_iff h).1 hp
  refine (progress_iff h.clearFinishedSingleFrames).2 ⟨fun hcomplete id hid => ?_, ?_⟩
  · exact hseen hcomplete id (Finset.mem_filter.1 hid).1
  · exact fun id hid => hheld id (Finset.mem_filter.1 hid).1

end

/-! ### Runs -/

theorem Tracked.act (h : s.Tracked) (a : CacherAction T R) : (s.act a).Tracked := by
  cases a with
  | forceRange range => exact h.forceRange range
  | singleFrame => exact h.singleFrame
  | clearFinishedSingleFrames => exact h.clearFinishedSingleFrames
  | arena e => exact h.arena e

theorem progress_act_iff (h : s.Tracked) (hp : s.Progress) (a : CacherAction T R) :
    (s.act a).Progress ↔ s.Orderly a := by
  cases a with
  | forceRange range => exact progress_forceRange_iff h range
  | singleFrame => exact progress_singleFrame_iff h
  | clearFinishedSingleFrames => exact iff_of_true (hp.clearFinishedSingleFrames h) trivial
  | arena e =>
    have hstored := h.numbered.stored.act e.toAction
    have hquiet : s.arena.SameLives (s.arena.act e.toAction) →
        ((s.act (.arena e)).Progress ↔ True) := fun hsame =>
      iff_of_true ((progress_sameLives_iff h hstored hsame).2 hp) trivial
    cases e with
    | submit audio pollAfter => exact progress_submit_iff h audio pollAfter
    | post i accepted fallback => exact hquiet (sameLives_post i accepted fallback)
    | finish i result => exact hquiet (sameLives_finish i result)
    | check i => exact hquiet (sameLives_check i)
    | publish i => exact progress_publish_iff h hp i
    | deliver i => exact hquiet (sameLives_deliver i)
    | cancel id => exact hquiet (sameLives_cancel id)
    | cancelAll => exact hquiet sameLives_cancelAll

theorem progress_new : (new audioFallback : AutoCacher T R).Progress :=
  (progress_iff (tracked_new audioFallback)).2
    ⟨fun _ _ hid => absurd hid (Finset.notMem_empty _),
      fun _ hid => absurd hid (Finset.notMem_empty _)⟩

/-- In every run of the cacher and the arena, progress is right in every state exactly when every
step is orderly. -/
theorem progress_run_iff (audioFallback : Bool) (as : List (CacherAction T R)) :
    (∀ bs cs, as = bs ++ cs → (run act (new audioFallback : AutoCacher T R) bs).Progress) ↔
      Permitted act Orderly (new audioFallback : AutoCacher T R) as := by
  have htracked : ∀ (s : AutoCacher T R) a, s.Tracked → (s.act a).Tracked := fun _ a h => h.act a
  have hstep : ∀ (s : AutoCacher T R) a, s.Tracked → s.Progress →
      ((s.act a).Progress ↔ s.Orderly a) := fun _ a h hp => progress_act_iff h hp a
  exact forall_run_iff htracked hstep (tracked_new audioFallback) (progress_new audioFallback)

/-- A custom range is rendered, and its ticket finishes; then another caller submits a ticket, and
the cacher renders the range again, for good. -/
def reapedRun : List (CacherAction ℕ ℕ) :=
  [.forceRange 0, .arena (.post 0 true true), .arena (.finish 0 (.ok (.video 0))),
    .arena (.check 0), .arena (.publish 0), .arena (.deliver 0), .arena (.submit false false)]

theorem reaped_unfinished :
    ¬∀ as : List (CacherAction ℕ ℕ), (run act (new false : AutoCacher ℕ ℕ) as).Progress := by
  intro h
  have hrendering : (run act (new false : AutoCacher ℕ ℕ) reapedRun).isRenderingCustomRange =
      true := by decide
  obtain ⟨-, id, hid, hopen⟩ := (h reapedRun).truthful.1 hrendering
  have hjobs : (run act (new false : AutoCacher ℕ ℕ) reapedRun).customJobs = {1} := by decide
  rw [hjobs, Finset.mem_singleton] at hid
  refine hopen ⟨_, List.mem_cons_self, hid.symm, rfl⟩

end AutoCacher

end Oak.Render
