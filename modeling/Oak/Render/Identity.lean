import Oak.Render.Dispatcher

/-!
# Who holds a ticket

The dispatcher calls a worker by its place in the vector, and the claims of the scheduler, the tags
of the reader threads and the references to frames keep that place. `Identified` says that the
places still mean the same workers; `Aligned` are the steps that keep them: workers are reaped from
the end of the vector, and no process is spawned under the tag of one that can still be heard.

* `Located` relates the requests to the outstanding tickets at every place.
* `Tagged` relates the processes to the handles at every place.

## Main results

* `identified_run`: in every run whose steps are aligned, an open ticket is pending, or claimed
  under the place of the one worker that holds it, and everything that reaches a handle comes from
  the process of that handle.
* `reap_shifts_claims`: a worker that is reaped from the middle moves the workers after it, and
  their claims stay behind.
-/

namespace Oak.Render

open Oak.Lib

variable {F : Type*}

/-! ### Requests and places -/

/-- The outstanding tickets at every place, against the requests. -/
structure Located (t : Intake F) (outstanding : ℕ → Option (List (ℤ × ℕ))) : Prop where
  filed : t.Filed
  owned : ∀ i l, outstanding i = some l → ∀ x ∈ l, t.Owned i x.1
  nodup : ∀ i l, outstanding i = some l → (l.map Prod.fst).Nodup
  claims : ∀ k ∈ t.scheduler.claimed, ∃ l, outstanding k.2.worker = some l ∧
    k.2.request.payload ∈ l.map Prod.fst

theorem update_eq_some {α : Type*} {o : ℕ → Option α} {i j : ℕ} {v : Option α} {a : α}
    (h : Function.update o i v j = some a) : j = i ∧ v = some a ∨ j ≠ i ∧ o j = some a := by
  rcases eq_or_ne j i with rfl | hne
  · exact .inl ⟨rfl, Function.update_self j v o ▸ h⟩
  · exact .inr ⟨hne, Function.update_of_ne hne v o ▸ h⟩

variable {v : Option (List (ℤ × ℕ))}

namespace Located

variable {t : Intake F} {o : ℕ → Option (List (ℤ × ℕ))}
  {order : List (FrameRequest ℤ) → List (FrameRequest ℤ)} {i : ℕ} {l : List (ℤ × ℕ)}

section

variable (h : Located t o)

include h

theorem intake {t' : Intake F} (hfiled : t'.Filed) (howned : ∀ i id, t.Owned i id → t'.Owned i id)
    (hclaims : t'.scheduler.claimed ⊆ t.scheduler.claimed) : Located t' o where
  filed := hfiled
  owned i l hl x hx := howned i x.1 (h.owned i l hl x hx)
  nodup := h.nodup
  claims k hk := h.claims k (hclaims hk)

/-- The outstanding tickets at one place are others, which cover the claims there. -/
theorem replace {t' : Intake F} (hfiled : t'.Filed)
    (howned : ∀ j id, j ≠ i → t.Owned j id → t'.Owned j id)
    (hv : ∀ l', v = some l' → (∀ x ∈ l', t'.Owned i x.1) ∧ (l'.map Prod.fst).Nodup)
    (hclaims : ∀ k ∈ t'.scheduler.claimed, k.2.worker ≠ i ∧ k ∈ t.scheduler.claimed ∨
      k.2.worker = i ∧ ∃ l', v = some l' ∧ k.2.request.payload ∈ l'.map Prod.fst) :
    Located t' (Function.update o i v) where
  filed := hfiled
  owned j l' hl' x hx := by
    obtain ⟨rfl, hv'⟩ | ⟨hne, hl'⟩ := update_eq_some hl'
    · exact (hv l' hv').1 x hx
    · exact howned j x.1 hne (h.owned j l' hl' x hx)
  nodup j l' hl' := by
    obtain ⟨rfl, hv'⟩ | ⟨hne, hl'⟩ := update_eq_some hl'
    · exact (hv l' hv').2
    · exact h.nodup j l' hl'
  claims k hk := by
    rcases hclaims k hk with ⟨hne, hk⟩ | ⟨heq, hcovered⟩
    · rw [Function.update_of_ne hne]
      exact h.claims k hk
    · rw [heq, Function.update_self]
      exact hcovered

/-- The claims at a place are among its outstanding tickets. -/
theorem claims_at (hl : o i = some l) {k : FrameKey × Claim ℤ} (hk : k ∈ t.scheduler.claimed)
    (hworker : k.2.worker = i) : k.2.request.payload ∈ l.map Prod.fst := by
  obtain ⟨l', hl', hmem⟩ := h.claims k hk
  rw [hworker, hl, Option.some.injEq] at hl'
  rwa [hl']

theorem claim (hl : o i = some l) {credit : ℕ} {batch : ClaimedBatch ℤ} {s' : PreviewScheduler ℤ}
    {out : List (PendingEntry ℤ)} {assigned : List (ℤ × ℕ)}
    (hclaimed : t.scheduler.Claimed i credit batch s' out)
    (htickets : (assigned.map Prod.fst).Perm (out.map fun e => e.request.payload))
    (hnodup : (assigned.map Prod.fst).Nodup) :
    Located { t with scheduler := s' } (Function.update o i (some (l ++ assigned))) := by
  refine h.replace (h.filed.claim hclaimed) (fun j id _ hid => hid.claim hclaimed)
    (fun l' hl' => ?_) fun k hk => ?_
  · obtain rfl := Option.some.inj hl'
    refine ⟨fun x hx => ?_, ?_⟩
    · rcases List.mem_append.1 hx with hx | hx
      · exact (h.owned i l hl x hx).claim hclaimed
      · obtain ⟨e, he, heq⟩ := List.mem_map.1 (htickets.subset (List.mem_map_of_mem hx))
        exact heq ▸ Intake.Owned.of_claim h.filed hclaimed he
    · rw [List.map_append, List.nodup_append]
      refine ⟨h.nodup i l hl, hnodup, fun a ha b hb heq => ?_⟩
      obtain ⟨x, hx, rfl⟩ := List.mem_map.1 ha
      obtain ⟨e, he, hid⟩ := List.mem_map.1 (htickets.subset hb)
      exact (h.owned i l hl x hx).pending e (hclaimed.mem_pending.2 (.inl he))
        (hid.trans heq.symm)
  · rw [hclaimed.claimed, List.mem_append] at hk
    have hcovered (id : ℤ) (hid : id ∈ l.map Prod.fst ∨ id ∈ assigned.map Prod.fst) :
        ∃ l', some (l ++ assigned) = some l' ∧ id ∈ l'.map Prod.fst :=
      ⟨_, rfl, by rw [List.map_append]; exact List.mem_append.2 hid⟩
    rcases hk with hk | hk
    · by_cases hworker : k.2.worker = i
      · exact .inr ⟨hworker, hcovered _ (.inl (h.claims_at hl hk hworker))⟩
      · exact .inl ⟨hworker, hk⟩
    · obtain ⟨e, he, rfl⟩ := List.mem_map.1 hk
      exact .inr ⟨rfl, hcovered _ (.inr (htickets.symm.subset (List.mem_map_of_mem he)))⟩

theorem answer (hl : o i = some l) {x : ℤ × ℕ} (hx : x ∈ l) :
    Located (t.close x.1) (Function.update o i (some (l.filter fun y => y.1 ≠ x.1))) := by
  refine h.replace (h.filed.close_owned (h.owned i l hl x hx)) (fun j id _ hid => hid.close x.1)
    (fun l' hl' => ?_) fun k hk => ?_
  · obtain rfl := Option.some.inj hl'
    exact ⟨fun y hy => (h.owned i l hl y (List.mem_of_mem_filter hy)).close x.1,
      (h.nodup i l hl).sublist (List.filter_sublist.map _)⟩
  · obtain ⟨hk, hother⟩ := Intake.mem_claimed_close h.filed hk
    by_cases hworker : k.2.worker = i
    · obtain ⟨y, hy, hid⟩ := List.mem_map.1 (h.claims_at hl hk hworker)
      refine .inr ⟨hworker, _, rfl, List.mem_map.2 ⟨y, List.mem_filter.2 ⟨hy, ?_⟩, hid⟩⟩
      exact decide_eq_true (hid ▸ hother)
    · exact .inl ⟨hworker, hk⟩

theorem crashed (horder : ∀ l, (order l).Perm l) (i : ℕ) (dropped : Bool)
    (hv : ∀ l, v = some l → l = []) :
    Located (t.crashed order i dropped) (Function.update o i v) := by
  refine h.replace (h.filed.crashed horder i dropped)
    (fun j id hne hid => hid.crashed horder (Ne.symm hne) dropped) (fun l' hl' => ?_) fun k hk => ?_
  · rw [hv l' hl']
    exact ⟨fun _ hx => absurd hx List.not_mem_nil, List.nodup_nil⟩
  · have hcrash : k ∈ (t.crash order i).1.scheduler.claimed := by
      rw [Intake.crashed] at hk
      cases dropped with
      | false => exact hk
      | true => exact Intake.claimed_drop_subset _ hk
    obtain ⟨hk, hne⟩ := List.mem_filter.1 hcrash
    exact .inl ⟨of_decide_eq_true hne, hk⟩

theorem spawn (hi : ∀ l, o i = some l → l = []) : Located t (Function.update o i (some [])) := by
  refine h.replace h.filed (fun j id _ hid => hid) (fun l' hl' => ?_) fun k hk => .inl ⟨?_, hk⟩
  · obtain rfl := Option.some.inj hl'
    exact ⟨fun _ hx => absurd hx List.not_mem_nil, List.nodup_nil⟩
  · rintro rfl
    obtain ⟨l, hl, hmem⟩ := h.claims k hk
    rw [hi l hl] at hmem
    exact List.not_mem_nil hmem

/-- An open ticket is pending, or claimed under the one place where it is outstanding. -/
theorem open_ticket {x : ℤ × PendingTicket F} (hx : x ∈ t.tickets) :
    (∃ e ∈ t.scheduler.pending, e.request.payload = x.1) ∨
      ∃ k ∈ t.scheduler.claimed, k.2.request.payload = x.1 ∧
        (∃ l, o k.2.worker = some l ∧ x.1 ∈ l.map Prod.fst) ∧
        ∀ j l, o j = some l → x.1 ∈ l.map Prod.fst → j = k.2.worker := by
  obtain ⟨r, hr, hid, -⟩ := h.filed.exists_request hx
  rcases Intake.mem_requests.1 hr with ⟨e, he, rfl⟩ | ⟨k, hk, rfl⟩
  · exact .inl ⟨e, he, hid⟩
  · obtain ⟨l, hl, hmem⟩ := h.claims k hk
    refine .inr ⟨k, hk, hid, ⟨l, hl, hid ▸ hmem⟩, fun j l' hl' hmem' => ?_⟩
    obtain ⟨y, hy, heq⟩ := List.mem_map.1 hmem'
    exact ((h.owned j l' hl' y hy).claimed k hk (hid.trans heq.symm)).symm

end

end Located

/-! ### Processes and places -/

/-- What a worker is known by. -/
structure Seat where
  generation : ℕ
  process : ℕ
  shm : ℕ

/-- The seat of a handle. -/
def WorkerHandle.seat (h : WorkerHandle) : Seat := ⟨h.generation, h.process, h.shm⟩

/-- No process that can still be heard has the tag. -/
def Untagged (processes : List Process) (index generation : ℕ) : Prop :=
  ∀ p ∈ processes, p.ended = false → p.index = index → p.generation ≠ generation

/-- The seats at every place, against the processes, the segments and what was applied. -/
structure Tagged (seats : ℕ → Option Seat) (processes : List Process) (segments : List ℕ)
    (applied : List (ℕ × ℕ)) : Prop where
  tags : ∀ i x, seats i = some x → ∃ ended, processes[x.process]? = some ⟨i, x.generation, ended⟩
  fresh : ∀ i x, seats i = some x → ∀ q p, processes[q]? = some p → p.ended = false →
    p.index = i → p.generation = x.generation → q = x.process
  segments : ∀ i x, seats i = some x → segments[x.shm]? = some x.process
  applied : ∀ d ∈ applied, d.1 = d.2

namespace Tagged

variable {seats : ℕ → Option Seat} {processes : List Process} {segments : List ℕ}
  {applied : List (ℕ × ℕ)} {i : ℕ}

section

variable (h : Tagged seats processes segments applied)

include h

theorem remove (i : ℕ) :
    Tagged (Function.update seats i none) processes segments applied where
  tags j x hx := by
    obtain ⟨-, hx⟩ | ⟨-, hx⟩ := update_eq_some hx
    · exact absurd hx (by simp)
    · exact h.tags j x hx
  fresh j x hx := by
    obtain ⟨-, hx⟩ | ⟨-, hx⟩ := update_eq_some hx
    · exact absurd hx (by simp)
    · exact h.fresh j x hx
  segments j x hx := by
    obtain ⟨-, hx⟩ | ⟨-, hx⟩ := update_eq_some hx
    · exact absurd hx (by simp)
    · exact h.segments j x hx
  applied := h.applied

theorem spawn {generation : ℕ} (huntagged : Untagged processes i generation) :
    Tagged (Function.update seats i (some ⟨generation, processes.length, segments.length⟩))
      (processes ++ [⟨i, generation, false⟩]) (segments ++ [processes.length]) applied where
  tags j x hx := by
    obtain ⟨rfl, hv⟩ | ⟨-, hx⟩ := update_eq_some hx
    · obtain rfl := Option.some.inj hv
      exact ⟨false, List.getElem?_concat_length⟩
    · obtain ⟨ended, hp⟩ := h.tags j x hx
      refine ⟨ended, ?_⟩
      rwa [List.getElem?_append_left (List.getElem?_eq_some_iff.1 hp).1]
  fresh j x hx q p hp hended hindex hgeneration := by
    rcases Nat.lt_or_ge q processes.length with hq | hq
    · rw [List.getElem?_append_left hq] at hp
      obtain ⟨rfl, hv⟩ | ⟨-, hx⟩ := update_eq_some hx
      · obtain rfl := Option.some.inj hv
        exact absurd hgeneration (huntagged p (List.mem_of_getElem? hp) hended hindex)
      · exact h.fresh j x hx q p hp hended hindex hgeneration
    · have hlast : q = processes.length := by
        have hlt := (List.getElem?_eq_some_iff.1 hp).1
        rw [List.length_append, List.length_singleton] at hlt
        omega
      rw [hlast, List.getElem?_concat_length, Option.some.injEq] at hp
      obtain ⟨-, hx⟩ | ⟨hne, -⟩ := update_eq_some hx
      · rw [hlast, ← Option.some.inj hx]
      · rw [← hp] at hindex
        exact absurd hindex.symm hne
  segments j x hx := by
    obtain ⟨-, hx⟩ | ⟨-, hx⟩ := update_eq_some hx
    · obtain rfl := Option.some.inj hx
      exact List.getElem?_concat_length
    · have hshm := h.segments j x hx
      rwa [List.getElem?_append_left (List.getElem?_eq_some_iff.1 hshm).1]
  applied := h.applied

theorem endProcess {q : ℕ} {p : Process} (hp : processes[q]? = some p) :
    Tagged seats (processes.set q { p with ended := true }) segments applied where
  tags j x hx := by
    obtain ⟨ended, hx⟩ := h.tags j x hx
    rcases eq_or_ne q x.process with rfl | hne
    · obtain rfl := Option.some.inj (hp.symm.trans hx)
      exact ⟨true, List.getElem?_set_self (List.getElem?_eq_some_iff.1 hp).1⟩
    · exact ⟨ended, by rw [List.getElem?_set_ne hne, hx]⟩
  fresh j x hx q' p' hp' hended := by
    rcases eq_or_ne q q' with rfl | hne
    · rw [List.getElem?_set_self (List.getElem?_eq_some_iff.1 hp).1, Option.some.injEq] at hp'
      rw [← hp'] at hended
      exact absurd hended (by simp)
    · rw [List.getElem?_set_ne hne] at hp'
      exact h.fresh j x hx q' p' hp' hended
  segments := h.segments
  applied := h.applied

theorem rebuild {x : Seat} (hx : seats i = some x) :
    Tagged (Function.update seats i (some { x with shm := segments.length })) processes
      (segments ++ [x.process]) applied where
  tags j y hy := by
    obtain ⟨rfl, hv⟩ | ⟨-, hy⟩ := update_eq_some hy
    · obtain rfl := Option.some.inj hv
      exact h.tags j x hx
    · exact h.tags j y hy
  fresh j y hy := by
    obtain ⟨rfl, hv⟩ | ⟨-, hy⟩ := update_eq_some hy
    · obtain rfl := Option.some.inj hv
      exact h.fresh j x hx
    · exact h.fresh j y hy
  segments j y hy := by
    obtain ⟨-, hy⟩ | ⟨-, hy⟩ := update_eq_some hy
    · obtain rfl := Option.some.inj hy
      exact List.getElem?_concat_length
    · have hshm := h.segments j y hy
      rwa [List.getElem?_append_left (List.getElem?_eq_some_iff.1 hshm).1]
  applied := h.applied

theorem apply (q : ℕ) : Tagged seats processes segments (applied ++ [(q, q)]) :=
  ⟨h.tags, h.fresh, h.segments, fun d hd => (List.mem_append.1 hd).elim (h.applied d)
    fun hd => by rw [List.mem_singleton.1 hd]⟩

end

end Tagged

/-! ### Views of the workers -/

variable {f : WorkerHandle → WorkerHandle}

section View

variable {α : Type*} {g : WorkerHandle → α} {ws : List WorkerHandle} {h : WorkerHandle} {i : ℕ}

/-- A component of the handle at every place. -/
def view (g : WorkerHandle → α) (ws : List WorkerHandle) (i : ℕ) : Option α := ws[i]?.map g

theorem view_eq (hi : ws[i]? = some h) : view g ws i = some (g h) := by
  rw [view, hi, Option.map_some]

theorem view_of_length_le (hi : ws.length ≤ i) : view g ws i = none := by
  rw [view, List.getElem?_eq_none hi, Option.map_none]

theorem view_modify (hi : ws[i]? = some h) (f : WorkerHandle → WorkerHandle) :
    view g (ws.modify i f) = Function.update (view g ws) i (some (g (f h))) := by
  funext j
  rcases eq_or_ne j i with rfl | hne
  · rw [Function.update_self, view, List.getElem?_modify_eq, hi]
    rfl
  · rw [Function.update_of_ne hne, view, List.getElem?_modify_ne _ _ hne.symm, view]

theorem view_mapIdx {f : ℕ → WorkerHandle → WorkerHandle} (hf : ∀ i h, g (f i h) = g h) :
    view g (ws.mapIdx f) = view g ws := by
  funext j
  rw [view, view, List.getElem?_mapIdx, Option.map_map]
  exact congrArg (fun k => ws[j]?.map k) (funext fun h => hf j h)

theorem view_modify_of_eq (hf : ∀ h, g (f h) = g h) : view g (ws.modify i f) = view g ws := by
  funext j
  rw [view, view, List.getElem?_modify]
  cases ws[j]? with
  | none => rfl
  | some h =>
    by_cases hj : i = j
    · simp [hj, hf]
    · simp [hj]

theorem view_map (hf : ∀ h, g (f h) = g h) : view g (ws.map f) = view g ws := by
  funext j
  rw [view, view, List.getElem?_map, Option.map_map]
  exact congrArg (fun k => ws[j]?.map k) (funext hf)

theorem view_concat : view g (ws ++ [h]) = Function.update (view g ws) ws.length (some (g h)) := by
  funext j
  rcases lt_trichotomy j ws.length with hlt | rfl | hlt
  · rw [Function.update_of_ne hlt.ne, view, List.getElem?_append_left hlt, view]
  · rw [Function.update_self, view, List.getElem?_concat_length, Option.map_some]
  · rw [Function.update_of_ne hlt.ne', view_of_length_le hlt.le, view_of_length_le]
    rw [List.length_append, List.length_singleton]
    omega

theorem view_set (hi : i < ws.length) :
    view g (ws.set i h) = Function.update (view g ws) i (some (g h)) := by
  funext j
  rcases eq_or_ne j i with rfl | hne
  · rw [Function.update_self, view, List.getElem?_set_self hi, Option.map_some]
  · rw [Function.update_of_ne hne, view, List.getElem?_set_ne hne.symm, view]

theorem view_eraseIdx_last (hi : ws.length = i + 1) :
    view g (ws.eraseIdx i) = Function.update (view g ws) i none := by
  funext j
  rcases lt_trichotomy j i with hlt | rfl | hlt
  · rw [Function.update_of_ne hlt.ne, view, List.getElem?_eraseIdx_of_lt hlt, view]
  · rw [Function.update_self, view, List.getElem?_eraseIdx_of_ge le_rfl,
      List.getElem?_eq_none hi.le, Option.map_none]
  · rw [Function.update_of_ne hlt.ne', view, List.getElem?_eraseIdx_of_ge hlt.le, view,
      List.getElem?_eq_none (by omega), List.getElem?_eq_none (by omega)]

end View

namespace WorkerHandle

@[simp] theorem table_send (h : WorkerHandle) (written : Bool) :
    (h.send written).table = h.table := by
  rw [send]
  split_ifs <;> rfl

@[simp] theorem seat_send (h : WorkerHandle) (written : Bool) : (h.send written).seat = h.seat := by
  rw [send]
  split_ifs <;> rfl

end WorkerHandle

open WorkerHandle

namespace Dispatcher

variable {c : DispatcherConfig} {s : Dispatcher F}

/-- The outstanding tickets at every place. -/
def outstanding (s : Dispatcher F) : ℕ → Option (List (ℤ × ℕ)) :=
  view (fun h => h.table.outstanding) s.workers

/-- The seat at every place. -/
def seats (s : Dispatcher F) : ℕ → Option Seat := view seat s.workers

/-- The places of the dispatcher mean the same workers everywhere. -/
structure Sound (s : Dispatcher F) : Prop where
  located : Located s.intake s.outstanding
  tagged : Tagged s.seats s.processes s.segments s.applied
  unstarted : s.started = false → s.processes = [] ∧ s.workers = [] ∧ s.nextTarget = none

/-- The workers that a larger target adds get tags of their own. -/
def GrowsFresh (s : Dispatcher F) (target : ℕ) (spawns : ℕ → Bool) : Prop :=
  s.targetWorkers ≠ max target 1 → ∀ i, s.workers.length ≤ i → i < max target 1 →
    (∀ j, s.workers.length ≤ j → j ≤ i → spawns j = true) → Untagged s.processes i 0

/-- Reaped workers are the last of the vector, and no process is spawned under the tag of one that
can still be heard. -/
def Aligned (s : Dispatcher F) : DispatcherAction F → Prop
  | .setTargetWorkers target recent spawns =>
    s.started = true → (s.resized && recent) = false → s.GrowsFresh target spawns
  | .applyNextTarget recent spawns =>
    ∀ target, s.nextTarget = some target → (s.resized && recent) = false →
      s.GrowsFresh target spawns
  | .restart worker timedOut spawns =>
    s.isRestarted worker timedOut = true → spawns = true →
      ∀ h, s.workers[worker]? = some h → h.restarts < maxRestarts →
        Untagged s.processes worker (h.restarts + 1)
  | .reap exited overdue =>
    ∀ j < s.workers.length, ∀ i ≤ j, s.isReaped exited overdue i = true →
      s.isReaped exited overdue j = true
  | _ => True

/-- An open ticket is pending, or claimed under the place of the one worker that holds it; and what
reached a handle came from the process of the handle. -/
structure Identified (s : Dispatcher F) : Prop where
  tickets : ∀ x ∈ s.intake.tickets,
    (∃ e ∈ s.intake.scheduler.pending, e.request.payload = x.1) ∨
      ∃ k ∈ s.intake.scheduler.claimed, k.2.request.payload = x.1 ∧
        (∃ h, s.workers[k.2.worker]? = some h ∧ x.1 ∈ h.table.outstanding.map Prod.fst) ∧
        ∀ j h, s.workers[j]? = some h → x.1 ∈ h.table.outstanding.map Prod.fst → j = k.2.worker
  applied : ∀ d ∈ s.applied, d.1 = d.2

namespace Sound

theorem identified (h : s.Sound) : s.Identified where
  tickets x hx := by
    refine (h.located.open_ticket hx).imp_right ?_
    rintro ⟨k, hk, hid, ⟨l, hl, hmem⟩, hunique⟩
    obtain ⟨handle, hhandle, rfl⟩ := Option.map_eq_some_iff.1 hl
    exact ⟨k, hk, hid, ⟨handle, hhandle, hmem⟩, fun j h' hj hmem' =>
      hunique j _ (view_eq hj) hmem'⟩
  applied := h.tagged.applied

/-- Requests and handles change, and every place keeps its tickets and its seat. -/
theorem of_views (h : s.Sound) {ws : List WorkerHandle} (hworkers : s.workers = [] → ws = [])
    (hout : view (fun h => h.table.outstanding) ws = s.outstanding)
    (hseats : view seat ws = s.seats) : Sound { s with workers := ws } where
  located := by
    rw [outstanding, hout]
    exact h.located
  tagged := by
    rw [seats, hseats]
    exact h.tagged
  unstarted hstarted := by
    obtain ⟨hprocesses, hnone, htarget⟩ := h.unstarted hstarted
    exact ⟨hprocesses, hworkers hnone, htarget⟩

theorem touch (h : s.Sound) (worker : ℕ) (hout : ∀ h, (f h).table.outstanding = h.table.outstanding)
    (hseat : ∀ h, (f h).seat = h.seat) : Sound (s.modify worker f) :=
  h.of_views (fun hnone => by rw [hnone, List.modify_nil]) (view_modify_of_eq hout)
    (view_modify_of_eq hseat)

theorem touchAll (h : s.Sound) {f : ℕ → WorkerHandle → WorkerHandle}
    (hout : ∀ i h, (f i h).table.outstanding = h.table.outstanding)
    (hseat : ∀ i h, (f i h).seat = h.seat) : Sound { s with workers := s.workers.mapIdx f } :=
  h.of_views (fun hnone => by rw [hnone, List.mapIdx_nil]) (view_mapIdx hout) (view_mapIdx hseat)

theorem intake (h : s.Sound) {t : Intake F} (hfiled : t.Filed)
    (howned : ∀ i id, s.intake.Owned i id → t.Owned i id)
    (hclaims : t.scheduler.claimed ⊆ s.intake.scheduler.claimed) :
    Sound { s with intake := t } :=
  { h with located := h.located.intake hfiled howned hclaims }

theorem answered (h : s.Sound) {worker : ℕ} {handle : WorkerHandle}
    (hhandle : s.workers[worker]? = some handle) {ticket : ℤ} {t : Intake F} {table : SlotTable}
    (hanswered : s.intake.Answered handle.table ticket t table) :
    Sound ({ s with intake := t }.modify worker fun h => { h with table := table }) where
  located := by
    obtain ⟨⟨slot, hslot⟩, rfl, hout⟩ := hanswered
    have hl : s.outstanding worker = some handle.table.outstanding := view_eq hhandle
    have hmem := (SlotTable.slotOf_eq_some_iff (h.located.nodup _ _ hl)).1 hslot
    have hanswer := h.located.answer hl hmem
    rw [outstanding, modify, view_modify hhandle]
    dsimp only
    rw [hout]
    exact hanswer
  tagged := by
    have hseats : view seat (s.workers.modify worker fun h =>
        { h with table := table }) = s.seats := view_modify_of_eq fun _ => rfl
    have htagged := h.tagged
    rw [← hseats] at htagged
    exact htagged
  unstarted hstarted := by
    rw [(h.unstarted hstarted).2.1] at hhandle
    exact absurd hhandle (by simp)

theorem onFrameReady (h : s.Sound) (worker : ℕ) (ticket : ℤ) (slot : ℕ) :
    Sound (s.onFrameReady worker ticket slot) := by
  rw [Dispatcher.onFrameReady]
  split
  · exact h
  next handle hhandle =>
    split
    · exact h
    next t table freed hready => exact h.answered hhandle (Intake.answered_frameReady hready)

theorem onFrameFailed (h : s.Sound) (worker : ℕ) (ticket : ℤ) :
    Sound (s.onFrameFailed worker ticket) := by
  rw [Dispatcher.onFrameFailed]
  split
  · exact h
  next handle hhandle =>
    split
    · exact h
    next t table freed hfailed => exact h.answered hhandle (Intake.answered_frameFailed hfailed)

theorem onLine (h : s.Sound) (worker : ℕ) (line : WorkerLine) (written : Bool) :
    Sound (s.onLine worker line written) := by
  cases line with
  | handshake => exact h.touch worker (fun h => by rw [h.table_send]) fun h => h.seat_send written
  | helloCaps =>
    refine h.touch worker (fun h => ?_) fun h => ?_
    · split_ifs
      · rw [table_send]
        rfl
      · rfl
    · split_ifs
      · rw [seat_send]
        rfl
      · rfl
  | batchAccepted => exact h
  | frameReady ticket slot => exact h.onFrameReady worker ticket slot
  | frameFailed ticket => exact h.onFrameFailed worker ticket
  | error ticket =>
    cases ticket with
    | some ticket => exact h.onFrameFailed worker ticket
    | none =>
      refine h.touch worker (fun h => ?_) fun h => ?_
      · split_ifs <;> rfl
      · split_ifs <;> rfl

/-- What reaches a handle comes from the process of its seat. -/
theorem apply (h : s.Sound) {process : ℕ} {handle : WorkerHandle}
    (hprocess : process = handle.process) :
    Sound { s with applied := s.applied ++ [(process, handle.process)] } := by
  rw [hprocess]
  exact { h with tagged := h.tagged.apply handle.process }

theorem event (h : s.Sound) (process : ℕ) (event : WorkerEvent) (written : Bool) :
    Sound (s.event process event written) := by
  rw [Dispatcher.event]
  split
  · exact h
  next p hp =>
    split_ifs with hended
    · exact h
    · -- the generation of the handle is that of the process, so the process is the handle's own
      have hown {handle : WorkerHandle} (hhandle : s.workers[p.index]? = some handle)
          (hgeneration : ¬ handle.generation ≠ p.generation) : process = handle.process :=
        h.tagged.fresh p.index handle.seat (view_eq hhandle) process p hp
          (Bool.not_eq_true _ ▸ hended) rfl (not_ne_iff.1 hgeneration).symm
      have hstarted : s.started = false → False := fun hstarted => by
        rw [(h.unstarted hstarted).1] at hp
        exact absurd hp (by simp)
      cases event with
      | line line =>
        dsimp only
        split
        · exact h
        next handle hhandle =>
          split_ifs with hgeneration
          · exact h
          · exact (h.apply (hown hhandle hgeneration)).onLine p.index line written
      | eof =>
        have hheard : Sound { s with
            processes := s.processes.set process { p with ended := true } } :=
          ⟨h.located, h.tagged.endProcess hp, fun hfalse => (hstarted hfalse).elim⟩
        dsimp only
        split
        · exact hheard
        next handle hhandle =>
          split_ifs with hgeneration
          · exact hheard
          · refine (hheard.apply (hown hhandle hgeneration)).touch p.index (fun h => ?_) fun h => ?_
            · split_ifs <;> rfl
            · split_ifs <;> rfl

/-! ### Spawns -/

/-- A worker is spawned after the last one, or in the place of one without tickets. -/
theorem spawnWorker (h : s.Sound) (hstarted : s.started = true) {worker generation : ℕ}
    (hworker : worker ≤ s.workers.length)
    (hgeneration : (s.workers[worker]?.map restarts).getD 0 = generation)
    (hidle : ∀ l, s.outstanding worker = some l → l = [])
    (huntagged : Untagged s.processes worker generation) : Sound (s.spawnWorker worker) := by
  subst hgeneration
  have hview {α : Type _} (g : WorkerHandle → α) : view g (s.spawnWorker worker).workers =
      Function.update (view g s.workers) worker (some (g
        { shell ((s.workers[worker]?.map restarts).getD 0)
            s.processes.length s.segments.length s.slots s.slotBytes with
          restarts := (s.workers[worker]?.map restarts).getD 0 })) := by
    rw [Dispatcher.spawnWorker]
    dsimp only
    split_ifs with hlt
    · exact view_set hlt
    · obtain rfl : worker = s.workers.length := le_antisymm hworker (not_lt.1 hlt)
      exact view_concat
  refine ⟨?_, ?_, fun hfalse => absurd (hstarted.symm.trans hfalse) (by simp)⟩
  · rw [outstanding, hview]
    exact h.located.spawn hidle
  · rw [seats, hview]
    exact h.tagged.spawn huntagged

theorem spawnWorkers (h : s.Sound) (hstarted : s.started = true) (spawns : ℕ → Bool) (n : ℕ)
    (huntagged : ∀ i, s.workers.length ≤ i → i < s.workers.length + n →
      (∀ j, s.workers.length ≤ j → j ≤ i → spawns j = true) → Untagged s.processes i 0) :
    Sound (s.spawnWorkers spawns (List.range' s.workers.length n)) := by
  induction n generalizing s with
  | zero => exact h
  | succ n ih =>
    rw [List.range'_succ, Dispatcher.spawnWorkers]
    split_ifs with hspawn
    · have hnone : s.workers[s.workers.length]? = none := List.getElem?_eq_none le_rfl
      have hfirst := huntagged s.workers.length le_rfl (by omega) fun j hle hge => by
        rwa [le_antisymm hge hle]
      have hspawned := h.spawnWorker hstarted le_rfl (by rw [hnone]; rfl)
        (fun l hl => by
          rw [outstanding, view_of_length_le le_rfl] at hl
          exact absurd hl (by simp)) hfirst
      have hlength : (s.spawnWorker s.workers.length).workers.length = s.workers.length + 1 := by
        rw [Dispatcher.spawnWorker]
        simp
      have hprocesses : (s.spawnWorker s.workers.length).processes =
          s.processes ++ [⟨s.workers.length, 0, false⟩] := by
        rw [Dispatcher.spawnWorker, hnone]
        rfl
      rw [← hlength]
      refine ih hspawned hstarted fun i hle hlt hall => ?_
      rw [hlength] at hle hlt hall
      intro p hp hended hindex
      rw [hprocesses, List.mem_append] at hp
      rcases hp with hp | hp
      · refine huntagged i (by omega) (by omega) (fun j hj hji => ?_) p hp hended hindex
        rcases hj.eq_or_lt with rfl | hj
        · exact hspawn
        · exact hall j hj hji
      · rw [List.mem_singleton.1 hp] at hindex
        exact absurd hindex (by dsimp only; omega)
    · exact h

theorem start (h : s.Sound) (spawns : ℕ → Bool) : Sound (s.start spawns) := by
  rw [Dispatcher.start]
  split_ifs with hstarted
  · exact h
  · obtain ⟨hprocesses, hworkers, htarget⟩ := h.unstarted (Bool.not_eq_true _ ▸ hstarted)
    have hopened : Sound { s with started := true } :=
      { h with unstarted := fun hfalse => absurd hfalse (by simp) }
    have hspawned := hopened.spawnWorkers rfl spawns s.intake.scheduler.workers
      fun i _ _ _ p hp => by
        rw [show s.processes = [] from hprocesses] at hp
        exact absurd hp List.not_mem_nil
    rw [List.range_eq_range']
    rw [show s.workers.length = 0 by rw [hworkers]; rfl] at hspawned
    exact hspawned

theorem applyTargetWorkers (h : s.Sound) (hstarted : s.started = true) {target : ℕ}
    {spawns : ℕ → Bool} (hfresh : s.GrowsFresh target spawns) :
    Sound (s.applyTargetWorkers target spawns) := by
  have hstarted' {t : Dispatcher F} (ht : t.started = true) : t.started = false →
      t.processes = [] ∧ t.workers = [] ∧ t.nextTarget = none :=
    fun hfalse => absurd (ht.symm.trans hfalse) (by simp)
  have hcounted {t : Dispatcher F} (ht : t.Sound) (htstarted : t.started = true) :
      Sound { t with
        targetWorkers := max target 1
        intake := { t.intake with scheduler := t.intake.scheduler.setWorkerCount (max target 1) }
        resized := true
        nextTarget := none } :=
    ⟨ht.located.intake (ht.located.filed.scheduler_perm (ht.located.filed.keyed.setWorkerCount _)
      (.refl _)) (fun i id hid => ⟨hid.lt, hid.pending, hid.claimed⟩) (List.Subset.refl _),
      ht.tagged, hstarted' htstarted⟩
  rw [Dispatcher.applyTargetWorkers]
  dsimp only
  split_ifs with hsame hgrow
  · exact ⟨h.located, h.tagged, hstarted' hstarted⟩
  · have hrange :
        (List.range (max target 1 - s.workers.length)).map (fun i => s.workers.length + i) =
        List.range' s.workers.length (max target 1 - s.workers.length) :=
      (List.range'_eq_map_range ..).symm
    rw [hrange]
    have hkeeps (is : List ℕ) (t : Dispatcher F) (ht : t.started = true) :
        (t.spawnWorkers spawns is).started = true := by
      induction is generalizing t with
      | nil => exact ht
      | cons i is ih =>
        rw [Dispatcher.spawnWorkers]
        split_ifs
        · exact ih _ ht
        · exact ht
    exact hcounted (h.spawnWorkers hstarted spawns _ fun i hle hlt =>
      hfresh hsame i hle (by omega)) (hkeeps _ _ hstarted)
  · refine hcounted (h.touchAll (fun i h => ?_) fun i h => ?_) hstarted
    · split_ifs <;> rfl
    · split_ifs <;> rfl

/-! ### Restarts and claims -/

section

variable (h : s.Sound) {worker : ℕ} {handle : WorkerHandle}
  (hhandle : s.workers[worker]? = some handle)

include h hhandle

theorem started : s.started = true := by
  by_contra hfalse
  rw [(h.unstarted (Bool.not_eq_true _ ▸ hfalse)).2.1] at hhandle
  exact absurd hhandle (by simp)

/-- A worker loses its tickets, and their requests come back or are dropped. -/
theorem cleared (dropped : Bool) (hout : (f handle).table.outstanding = [])
    (hseat : ∀ h, (f h).seat = h.seat) :
    Sound ({ s with intake := s.intake.crashed c.order worker dropped }.modify worker f) where
  located := by
    rw [outstanding, modify, view_modify hhandle]
    exact h.located.crashed c.order_perm worker dropped fun l hl =>
      (Option.some.inj hl).symm.trans hout
  tagged := by
    have htagged := h.tagged
    rw [seats, ← view_modify_of_eq (i := worker) hseat] at htagged
    exact htagged
  unstarted hfalse := absurd ((h.started hhandle).symm.trans hfalse) (by simp)

end

theorem restartWorker (h : s.Sound) {worker : ℕ} {timedOut spawns : Bool}
    (hrestarted : s.isRestarted worker timedOut = true)
    (huntagged : spawns = true → ∀ h, s.workers[worker]? = some h → h.restarts < maxRestarts →
      Untagged s.processes worker (h.restarts + 1)) :
    Sound (s.restartWorker c worker spawns) := by
  rw [Dispatcher.restartWorker]
  split
  · exact h
  next handle hhandle =>
    rw [isRestarted, hhandle, Option.any_some, Bool.and_eq_true, Bool.not_eq_true'] at hrestarted
    have hcleared (dropped : Bool) := h.cleared (c := c) hhandle dropped
      (f := clear) rfl fun _ => rfl
    dsimp only
    split_ifs with hretiring hbudget hspawns
    · exact absurd (hretiring.symm.trans hrestarted.1) (by simp)
    · exact (hcleared true).touch worker (fun _ => rfl) fun _ => rfl
    · have hworker : worker < s.workers.length := (List.getElem?_eq_some_iff.1 hhandle).1
      refine (hcleared false).spawnWorker (h.started hhandle) ?_ ?_ (fun l hl => ?_)
        (huntagged hspawns handle hhandle (by omega))
      · rw [modify, List.length_modify]
        exact hworker.le
      · rw [modify, List.getElem?_modify_eq, hhandle]
        rfl
      · rw [outstanding, modify, view_modify hhandle, Function.update_self] at hl
        exact (Option.some.inj hl).symm
    · exact (hcleared false).touch worker (fun _ => rfl) fun _ => rfl

theorem rebuildSegment (h : s.Sound) (worker need : ℕ) (written : Bool) :
    Sound (s.rebuildSegment worker need written) := by
  rw [Dispatcher.rebuildSegment]
  split
  · exact h
  next handle hhandle =>
    refine ⟨?_, ?_, fun hfalse => absurd ((h.started hhandle).symm.trans hfalse) (by simp)⟩
    · have hlocated := h.located
      rw [outstanding, ← view_modify_of_eq (i := worker) (f := fun h => (h.attach s.segments.length
        (defaultSlotsForBytes need handle.slots) need).send written) fun h => by
          rw [table_send]; rfl] at hlocated
      exact hlocated
    · have hrebuilt := h.tagged.rebuild (view_eq hhandle)
      rw [seats, modify, view_modify hhandle, seat_send]
      exact hrebuilt

theorem dispatch (h : s.Sound) (worker : ℕ) (created : Bool) (written : ℕ) :
    Sound (s.dispatch c worker created written) := by
  refine dispatch_induction h (fun need written => h.rebuildSegment worker need written)
    fun handle t table messages hhandle hdispatch => ?_
  have hl : s.outstanding worker = some handle.table.outstanding := view_eq hhandle
  obtain ⟨out, assigned, hout⟩ := Intake.dispatched h.located.filed
    (fun x hx => (h.located.owned worker _ hl x hx).pending) hdispatch
  obtain ⟨batch, s', hclaimed, rfl⟩ := hout.claimed
  have hclaim := h.located.claim hl hclaimed hout.tickets hout.nodup
  refine ⟨?_, ?_, fun hfalse => absurd ((h.started hhandle).symm.trans hfalse) (by simp)⟩
  · rw [outstanding, modify, view_modify hhandle, table_send]
    dsimp only
    rw [hout.outstanding]
    exact hclaim
  · have htagged := h.tagged
    rw [seats, ← view_modify_of_eq (i := worker) (f := fun h => send
      { h with table := table } (messages.length ≤ written))
      fun h => seat_send _ _] at htagged
    exact htagged

/-! ### Removals and releases -/

theorem removeWorker (h : s.Sound) {worker : ℕ} (hlast : s.workers.length = worker + 1) :
    Sound (s.removeWorker c worker) where
  located := by
    rw [outstanding, Dispatcher.removeWorker, view_eraseIdx_last hlast]
    exact h.located.crashed c.order_perm worker false fun l hl => absurd hl (by simp)
  tagged := by
    rw [seats, Dispatcher.removeWorker, view_eraseIdx_last hlast]
    exact h.tagged.remove worker
  unstarted hfalse := by
    obtain ⟨hprocesses, hworkers, htarget⟩ := h.unstarted hfalse
    rw [hworkers] at hlast
    exact absurd hlast (by simp)

theorem removeReaped (h : s.Sound) {reaped : ℕ → Bool}
    (htail : ∀ j < s.workers.length, ∀ i ≤ j, reaped i = true → reaped j = true) :
    Sound (s.removeReaped c reaped s.workers.length) := by
  generalize hn : s.workers.length = n at htail
  induction n generalizing s with
  | zero => exact h
  | succ n ih =>
    rw [Dispatcher.removeReaped]
    split_ifs with hreaped
    · have hlength : (s.removeWorker c n).workers.length = n := by
        rw [Dispatcher.removeWorker, List.length_eraseIdx_of_lt (by omega), hn]
        rfl
      exact ih (h.removeWorker hn) hlength fun j hj => htail j (Nat.lt_succ_of_lt hj)
    · -- no worker before the last one is reaped
      have hnone (i : ℕ) (hi : i < n) : reaped i = false :=
        Bool.eq_false_iff.2 fun hi' => hreaped (htail n (Nat.lt_succ_self n) i hi.le hi')
      have hstays (m : ℕ) (hm : m ≤ n) : s.removeReaped c reaped m = s := by
        induction m with
        | zero => rfl
        | succ m ihm =>
          rw [Dispatcher.removeReaped, hnone m hm, if_neg (by simp)]
          exact ihm (Nat.le_of_succ_le hm)
      rw [hstays n le_rfl]
      exact h

theorem releaseFrame (h : s.Sound) (worker shm slot : ℕ) :
    Sound (s.releaseFrame worker shm slot) := by
  rw [Dispatcher.releaseFrame]
  split
  · exact h
  next handle hhandle =>
    split_ifs with hshm
    · exact h
    · split
      · exact h
      next table htable =>
        have howner := h.tagged.segments worker handle.seat (view_eq hhandle)
        have hprocess : s.segments.getD shm 0 = handle.process := by
          rw [← not_ne_iff.1 hshm, List.getD_eq_getElem?_getD]
          exact congrArg (fun x => x.getD 0) howner
        have hout : table.outstanding = handle.table.outstanding := by
          rw [SlotTable.release] at htable
          split_ifs at htable
          rw [← Option.some.inj htable]
          rfl
        have happlied := h.apply hprocess
        refine ⟨?_, ?_, fun hfalse => absurd ((h.started hhandle).symm.trans hfalse) (by simp)⟩
        · have hsame : Function.update s.outstanding worker (some table.outstanding) =
              s.outstanding := by
            have hplace : s.outstanding worker = some table.outstanding := by
              rw [hout]
              exact view_eq hhandle
            rw [← hplace, Function.update_eq_self]
          have hlocated := h.located
          rw [← hsame] at hlocated
          rw [outstanding, modify, view_modify hhandle]
          exact hlocated
        · have htagged := happlied.tagged
          rw [seats, ← view_modify_of_eq (i := worker) (f := fun h => { h with table := table })
            fun _ => rfl] at htagged
          exact htagged

theorem broadcast (h : s.Sound) (hout : ∀ h, (f h).table.outstanding = h.table.outstanding)
    (hseat : ∀ h, (f h).seat = h.seat) (written : ℕ → Bool) : Sound (s.broadcast f written) := by
  refine h.touchAll (fun i h => ?_) fun i h => ?_
  · split_ifs
    · rw [table_send, hout]
    · rfl
  · split_ifs
    · rw [seat_send, hseat]
    · rfl

theorem act (h : s.Sound) {a : DispatcherAction F} (ha : s.Aligned a) : Sound (s.act c a) := by
  cases a with
  | start spawns => exact h.start spawns
  | post job =>
    exact h.intake (h.located.filed.post c.slotFormat job)
      (fun i id hid => hid.post c.slotFormat job)
      fun k hk => Intake.claimed_post c.slotFormat job ▸ hk
  | setTargetWorkers target recent spawns =>
    rw [Dispatcher.act, Dispatcher.setTargetWorkers]
    split_ifs with hstarted hrecent htarget
    · exact h
    · exact { h with unstarted := fun hfalse => absurd hfalse (by simpa using hstarted) }
    · exact h
    · have hstarted' : s.started = true := by simpa using hstarted
      have hfresh := ha hstarted' (Bool.eq_false_iff.2 hrecent)
      have hmax : max (max target 1) 1 = max target 1 := max_eq_left (le_max_right _ _)
      refine h.applyTargetWorkers hstarted' ?_
      rwa [GrowsFresh, hmax]
  | applyNextTarget recent spawns =>
    rw [Dispatcher.act, Dispatcher.applyNextTarget]
    split
    · exact h
    next target htarget =>
      split_ifs with hrecent
      · exact h
      · refine h.applyTargetWorkers ?_ (ha target htarget (Bool.eq_false_iff.2 hrecent))
        by_contra hfalse
        rw [(h.unstarted (Bool.eq_false_iff.2 hfalse)).2.2] at htarget
        exact absurd htarget (by simp)
  | event process event written => exact h.event process event written
  | restart worker timedOut spawns =>
    rw [Dispatcher.act]
    split_ifs with hrestarted
    · exact h.restartWorker hrestarted (ha hrestarted)
    · exact h
  | dispatch worker created written => exact h.dispatch worker created written
  | signalRetiring =>
    refine h.of_views (fun hnone => by rw [hnone, List.map_nil]) (view_map fun h => ?_)
      (view_map fun h => ?_)
    · split_ifs <;> rfl
    · split_ifs <;> rfl
  | reap exited overdue => exact h.removeReaped ha
  | releaseFrame worker shm slot => exact h.releaseFrame worker shm slot
  | cancelFrame key =>
    exact h.intake (h.located.filed.cancelFrame key) (fun i id hid => hid.cancelFrame key)
      (Intake.claimed_cancelFrame_subset key)
  | cancelPreviewSequence sequence =>
    exact h.intake (h.located.filed.cancelSequence c.order_perm sequence)
      (fun i id hid => hid.cancelSequence sequence) (Intake.claimed_cancelSequence_subset sequence)
  | setGraphSnapshot path written =>
    have hset : Sound { s with graphSnapshot := path } := ⟨h.located, h.tagged, h.unstarted⟩
    rw [Dispatcher.act, Dispatcher.setGraphSnapshot]
    split_ifs
    · exact hset.broadcast (f := fun h => { h with graphSent := true }) (fun _ => rfl)
        (fun _ => rfl) written
    · exact hset
  | broadcastPluginCancel written => exact h.broadcast (fun _ => rfl) (fun _ => rfl) written

theorem new (workers batchSize slots slotBytes : ℕ) :
    Sound (new workers batchSize slots slotBytes : Dispatcher F) where
  located :=
    ⟨Intake.filed_new workers batchSize,
      fun i l hl => absurd hl (by simp [outstanding, view, Dispatcher.new]),
      fun i l hl => absurd hl (by simp [outstanding, view, Dispatcher.new]),
      fun k hk => absurd hk List.not_mem_nil⟩
  tagged :=
    ⟨fun i x hx => absurd hx (by simp [seats, view, Dispatcher.new]),
      fun i x hx => absurd hx (by simp [seats, view, Dispatcher.new]),
      fun i x hx => absurd hx (by simp [seats, view, Dispatcher.new]),
      fun d hd => absurd hd List.not_mem_nil⟩
  unstarted _ := ⟨rfl, rfl, rfl⟩

end Sound

/-- In every run whose steps are aligned, the places mean the same workers everywhere. -/
theorem identified_run (c : DispatcherConfig) (workers batchSize slots slotBytes : ℕ)
    (as : List (DispatcherAction F))
    (has : Permitted (act c) Aligned (new workers batchSize slots slotBytes) as) :
    Identified (run (act c) (new workers batchSize slots slotBytes) as) := by
  have hstep (s : Dispatcher F) (a : DispatcherAction F) (h : s.Sound) (ha : s.Aligned a) :
      Sound (s.act c a) := h.act ha
  exact (invariant_run hstep (.new workers batchSize slots slotBytes) has).identified

/-! ### Runs -/

/-- Preview frames, and claims in the order of the table. -/
def preview : DispatcherConfig := ⟨slotFormatBgra8, id, fun _ => .refl _⟩

/-- A frame of one sequence. -/
def frameJob (frame : ℤ) : Job ℚ :=
  ⟨1, ⟨none, none, [], []⟩, none, ⟨.background, some frame, 0, 0⟩⟩

/-- The workers answer their first messages. -/
def handshakes (processes : List ℕ) : List (ℕ × WorkerEvent) :=
  processes.flatMap fun p => [(p, .line .handshake), (p, .line .helloCaps)]

/-- A frame is posted to a pool of two, which then shrinks to one. -/
def shrinkToOne : List (DispatcherAction ℚ) :=
  [.start fun _ => true, .event 0 (.line .helloCaps) true, .post (frameJob 0), .dispatch 0 true 2,
    .setTargetWorkers 1 false fun _ => true, .signalRetiring,
    .reap (fun p => p = 1) fun _ => false, .event 0 (.line (.frameReady 1 0)) true]

theorem identified_run_shrinkToOne :
    Identified (run (act preview) (new 2 4 3 8294400) shrinkToOne) := by
  refine identified_run preview 2 4 3 8294400 shrinkToOne ?_
  refine ⟨trivial, trivial, trivial, trivial, fun _ _ _ i hle hlt _ => ?_, trivial, ?_, trivial,
    trivial⟩
  · exact absurd (hle.trans_lt hlt) (by decide +kernel)
  · show ∀ j < List.length _, ∀ i ≤ j, isReaped _ _ _ i = true → isReaped _ _ _ j = true
    decide +kernel

/-- A frame of the last of four workers is being rendered while the pool shrinks to two. The third
worker is idle and exits first; its removal moves the last one, and the claim stays behind. -/
def shrinkToTwo : List (DispatcherAction ℚ) :=
  [.start fun _ => true] ++ pump 4 0 (handshakes [0, 1, 2, 3]) (fun _ => false) ++
    [.post (frameJob 3)] ++ pump 4 1 [] (fun _ => false) ++
    [.setTargetWorkers 2 false fun _ => true] ++ pump 4 1 [] (fun _ => false) ++
    pump 4 1 [(2, .eof)] (fun p => p = 2)

theorem reap_shifts_claims :
    ¬ ∀ as, Identified (run (act preview) (new 4 4 3 8294400 : Dispatcher ℚ) as) := by
  intro h
  have hclaimed : ∀ k ∈ (run (act preview) (new 4 4 3 8294400 : Dispatcher ℚ)
      shrinkToTwo).intake.scheduler.claimed, k.2.worker = 3 := by decide +kernel
  have hworkers : (run (act preview) (new 4 4 3 8294400 : Dispatcher ℚ)
      shrinkToTwo).workers.length = 3 := by decide +kernel
  have hpending : ∀ e ∈ (run (act preview) (new 4 4 3 8294400 : Dispatcher ℚ)
      shrinkToTwo).intake.scheduler.pending, e.request.payload ≠ 1 := by decide +kernel
  have hopen : 1 ∈ (run (act preview) (new 4 4 3 8294400 : Dispatcher ℚ)
      shrinkToTwo).intake.tickets.map Prod.fst := by decide +kernel
  obtain ⟨x, hx, hid⟩ := List.mem_map.1 hopen
  rcases (h shrinkToTwo).tickets x hx with ⟨e, he, heq⟩ | ⟨k, hk, -, ⟨w, hw, -⟩, -⟩
  · exact hpending e he (heq.trans hid)
  · have hlt := (List.getElem?_eq_some_iff.1 hw).1
    rw [hclaimed k hk, hworkers] at hlt
    exact absurd hlt (lt_irrefl 3)

end Dispatcher

end Oak.Render
