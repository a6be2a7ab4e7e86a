import Oak.Storage.Replay

/-!
# Write-through of the bound projects

A bound project is saved to its library row after every command. A save that succeeds marks the
binding dirty and bumps its generation; a snapshot clears the mark again when the generation is
still the one that was captured before it. Closing a project, or all of them, saves and snapshots
what is dirty.

* `Op`: what a thread does under one lock, or in one call of the database.
* `State.main` is what the main thread has still to do in a command, an unbinding or the exit
  flush; `State.thread` is the same for the snapshot thread. The two interleave freely, and each
  call of the database may fail.
* `Ghost` records which bindings saw a command and which of them failed their last save. No step
  reads it.

## Main results

* `Inv.act`: what one step keeps.
* `closed_of_run`: after every run of allowed steps, closing has lost nothing.
-/

namespace Oak.Storage.WriteThrough

open Oak.Lib (Permitted)

/-- The identity of a project in memory. -/
abbrev Key := ℕ

/-- What a binding writes to: a library and a row of it. -/
structure Session where
  uri : Text
  uuid : Text
  deriving DecidableEq

/-- `Binding`. The project itself is `State.memory` at the key. -/
structure Binding where
  session : Session
  dirty : Bool
  writeGen : ℕ
  lastError : Option Text
  deriving DecidableEq

/-- The number of values of `write_gen`. -/
def u64Size : ℕ := 2 ^ 64

/-- A snapshot to take, with the generation that was captured for it. -/
structure Job where
  key : Key
  session : Session
  gen : ℕ
  deriving DecidableEq

/-- What a thread does at one go. -/
inductive Op
  /-- `write_through` up to the answer of the database. -/
  | save (key : Key)
  /-- `write_through` after a save that succeeded. -/
  | mark (key : Key)
  /-- `flush_one` reads the mark. -/
  | check (key : Key)
  /-- `flush_one` captures the generation. -/
  | capture (key : Key)
  /-- `backend().snapshot`. -/
  | snapshot (job : Job)
  /-- The mark is cleared when the generation still matches. -/
  | clear (job : Job)
  /-- The binding is dropped. -/
  | remove (key : Key)
  /-- The exit flush asks the snapshot thread to stop. -/
  | stop
  /-- It waits for the thread to end. -/
  | join
  /-- It collects the bindings that are left. -/
  | drain
  deriving DecidableEq

/-- How the database answers a call. A save also reads the snapshot interval and the retention
window. -/
inductive Answer
  | ok (now : Time) (interval days : ℤ)
  | error (message : Text)

/-- The bound projects, the library, and the two threads. -/
structure State where
  memory : Key → ProjectState
  bindings : Std.ExtTreeMap Key Binding
  rows : Session → Library
  main : List Op
  thread : Option (List Op)
  stop : Bool

/-- The message of `Error::NotFound`. -/
def notFoundMessage : Text := "storage: not found".toList

def State.modifyBinding (s : State) (key : Key) (f : Binding → Binding) : State :=
  match s.bindings[key]? with
  | some b => { s with bindings := s.bindings.insert key (f b) }
  | none => s

/-- `record_error`. -/
def State.recordError (s : State) (key : Key) (message : Text) : State :=
  s.modifyBinding key fun b => { b with lastError := some message }

def State.setRow (s : State) (u : Session) (row : Library) : State :=
  { s with rows := Function.update s.rows u row }

/-- One operation, and what the thread has to do next on account of it. -/
def exec (s : State) (ans : Answer) : Op → State × List Op
  | .save key =>
    match s.bindings[key]?, ans with
    | none, _ => (s, [])
    | some b, .ok now interval days =>
      (s.setRow b.session (saveTx (s.memory key) now interval days (s.rows b.session)),
        [.mark key])
    | some _, .error message => (s.recordError key message, [])
  | .mark key =>
    (s.modifyBinding key fun b =>
      { b with dirty := true, writeGen := (b.writeGen + 1) % u64Size, lastError := none }, [])
  | .check key =>
    match s.bindings[key]? with
    | some b => (s, if b.dirty then [.save key, .capture key] else [])
    | none => (s, [])
  | .capture key =>
    match s.bindings[key]? with
    | some b => (s, [.snapshot ⟨key, b.session, b.writeGen⟩])
    | none => (s, [])
  | .snapshot job =>
    match ans with
    | .ok now _ _ =>
      if (s.rows job.session).commandSeq = 0 then (s.recordError job.key notFoundMessage, [])
      else (s.setRow job.session (pruneSnapshots (writeSnapshot now (s.rows job.session))),
        [.clear job])
    | .error message => (s.recordError job.key message, [])
  | .clear job =>
    (s.modifyBinding job.key fun b =>
      if b.writeGen = job.gen then { b with dirty := false } else b, [])
  | .remove key => ({ s with bindings := s.bindings.erase key }, [])
  | .stop => ({ s with stop := true }, [])
  | .join => (s, if s.thread = none then [] else [.join])
  | .drain => (s, s.bindings.keys.map .check)

/-- `snapshot_dirty`: the dirty bindings. -/
def dirtyJobs (s : State) : List Op :=
  s.bindings.toList.filterMap fun e =>
    if e.2.dirty then some (.snapshot ⟨e.1, e.2.session, e.2.writeGen⟩) else none

/-- What happens next. -/
inductive Step
  /-- A command changes projects; the bound ones are saved. -/
  | command (memory : Key → ProjectState)
  | bind (key : Key) (session : Session)
  | unbind (key : Key)
  | flushAll
  /-- The main thread goes on. -/
  | main (ans : Answer)
  /-- The snapshot thread wakes up. -/
  | wake
  /-- The snapshot thread goes on. -/
  | thread (ans : Answer)

/-- One step. The main thread takes a command or a call when it has nothing left to do. -/
def act (s : State) : Step → State
  | .command memory =>
    if s.main = [] then { s with memory, main := s.bindings.keys.map .save } else s
  | .bind key session =>
    if s.main = [] ∧ s.bindings[key]? = none then
      { s with
        bindings := s.bindings.insert key ⟨session, false, 0, none⟩
        thread := some (s.thread.getD [])
        stop := if s.thread = none then false else s.stop }
    else s
  | .unbind key => if s.main = [] then { s with main := [.check key, .remove key] } else s
  | .flushAll => if s.main = [] then { s with main := [.stop, .join, .drain] } else s
  | .main ans =>
    match s.main with
    | [] => s
    | op :: rest => { (exec s ans op).1 with main := (exec s ans op).2 ++ rest }
  | .wake =>
    if s.thread = some [] then
      { s with thread := if s.stop then none else some (dirtyJobs s) }
    else s
  | .thread ans =>
    match s.thread with
    | some (op :: rest) => { (exec s ans op).1 with thread := some ((exec s ans op).2 ++ rest) }
    | _ => s

/-! ### What a run remembers -/

/-- The last binding of a key: what it writes to, whether it saw a command, and whether its last
save failed. -/
structure Trace where
  session : Session
  commanded : Bool
  failed : Bool
  deriving DecidableEq

/-- A call that closes projects. -/
inductive Call
  | flushAll
  | unbind (key : Key)
  deriving DecidableEq

/-- The traces of all keys, and the call that the main thread is in or has returned from. -/
structure Ghost where
  trace : Key → Trace
  call : Option Call

/-- How the last save of a binding went. -/
def Ghost.setFailed (g : Ghost) (key : Key) (failed : Bool) : Ghost :=
  { g with trace := Function.update g.trace key { g.trace key with failed } }

/-- The ghost state after one more step. -/
def record (t : State × Ghost) : Step → Ghost
  | .command _ =>
    if t.1.main = [] then
      ⟨fun k => if t.1.bindings[k]?.isSome then { t.2.trace k with commanded := true }
        else t.2.trace k, none⟩
    else t.2
  | .bind key session =>
    if t.1.main = [] ∧ t.1.bindings[key]? = none then
      ⟨Function.update t.2.trace key ⟨session, false, false⟩, none⟩
    else t.2
  | .unbind key =>
    if t.1.main = [] then
      { t.2 with call := if t.1.bindings[key]?.isSome then some (.unbind key) else none }
    else t.2
  | .flushAll => if t.1.main = [] then { t.2 with call := some .flushAll } else t.2
  | .main ans =>
    match t.1.main, ans with
    | .save key :: _, .ok .. => t.2.setFailed key false
    | .save key :: _, .error _ => t.2.setFailed key true
    | _, _ => t.2
  | .wake => t.2
  | .thread _ => t.2

/-- The head of a row. -/
def head (row : Library) : ProjectState := replayState row row.commandSeq

/-- There is a snapshot of the head. -/
def HasSnapshot (row : Library) : Prop := ∃ s ∈ row.snapshots, s.commandSeq = row.commandSeq

/-- The project of a key is in the library as it is in memory, and there is a snapshot of it. -/
def Safe (s : State) (g : Ghost) (key : Key) : Prop :=
  head (s.rows (g.trace key).session) = s.memory key ∧
    HasSnapshot (s.rows (g.trace key).session)

/-- The projects that a call closes. -/
def Closes (s : State) (key : Key) : Call → Prop
  | .flushAll => s.bindings[key]?.isSome
  | .unbind key' => key' = key

/-- A call that has returned has closed every project that saw a command. -/
def Closed (s : State) (g : Ghost) : Prop :=
  ∀ call, g.call = some call → s.main = [] → ∀ key, Closes s key call →
    (g.trace key).commanded = true → Safe s g key

/-! ### Which steps are allowed -/

/-- The job of an operation of the snapshot protocol. -/
def Op.job? : Op → Option Job
  | .snapshot job => some job
  | .clear job => some job
  | _ => none

/-- The jobs under way. -/
def State.jobs (s : State) : List Job := (s.main ++ s.thread.getD []).filterMap Op.job?

/-- When the main thread may do an operation, with the answer of the database. -/
def AllowedOp (s : State) (g : Ghost) (rest : List Op) : Op → Answer → Prop
  | .save key, .ok .. =>
    Saveable (s.memory key) ∧ ∀ e ∈ s.bindings.toList, e.1 ≠ key →
      e.2.session ≠ (g.trace key).session
  | .save key, .error _ => Op.capture key ∉ rest
  | .mark key, _ =>
    ∀ job ∈ s.jobs, job.key = key →
      some job.gen ≠ s.bindings[key]?.map fun b => (b.writeGen + 1) % u64Size
  | .check key, _ =>
    (s.bindings[key]?.map Binding.dirty = some true) ∨ (g.trace key).commanded = false ∨
      (g.trace key).failed = false
  | .snapshot _, .error _ => False
  | _, _ => True

/-- The steps under which closing loses nothing: -/
def Allowed (t : State × Ghost) : Step → Prop
  | .main ans =>
    match t.1.main with
    | [] => True
    | op :: rest => AllowedOp t.1 t.2 rest op ans
  | _ => True

instance (s : State) (g : Ghost) (rest : List Op) (op : Op) (ans : Answer) :
    Decidable (AllowedOp s g rest op ans) :=
  match op, ans with
  | .save key, .ok .. =>
    inferInstanceAs (Decidable (Saveable (s.memory key) ∧ ∀ e ∈ s.bindings.toList, e.1 ≠ key →
      e.2.session ≠ (g.trace key).session))
  | .save key, .error _ => inferInstanceAs (Decidable (Op.capture key ∉ rest))
  | .mark key, .ok .. =>
    inferInstanceAs (Decidable (∀ job ∈ s.jobs, job.key = key →
      some job.gen ≠ s.bindings[key]?.map fun b => (b.writeGen + 1) % u64Size))
  | .mark key, .error _ =>
    inferInstanceAs (Decidable (∀ job ∈ s.jobs, job.key = key →
      some job.gen ≠ s.bindings[key]?.map fun b => (b.writeGen + 1) % u64Size))
  | .check key, .ok .. =>
    inferInstanceAs (Decidable ((s.bindings[key]?.map Binding.dirty = some true) ∨
      (g.trace key).commanded = false ∨ (g.trace key).failed = false))
  | .check key, .error _ =>
    inferInstanceAs (Decidable ((s.bindings[key]?.map Binding.dirty = some true) ∨
      (g.trace key).commanded = false ∨ (g.trace key).failed = false))
  | .snapshot _, .ok .. => isTrue trivial
  | .snapshot _, .error _ => isFalse id
  | .capture _, _ => isTrue trivial
  | .clear _, _ => isTrue trivial
  | .remove _, _ => isTrue trivial
  | .stop, _ => isTrue trivial
  | .join, _ => isTrue trivial
  | .drain, _ => isTrue trivial

instance (t : State × Ghost) (step : Step) : Decidable (Allowed t step) :=
  match step with
  | .main ans =>
    match h : t.1.main with
    | [] => isTrue (by rw [Allowed, h]; trivial)
    | op :: rest => decidable_of_iff (AllowedOp t.1 t.2 rest op ans) (by rw [Allowed, h])
  | .command _ => isTrue trivial
  | .bind _ _ => isTrue trivial
  | .unbind _ => isTrue trivial
  | .flushAll => isTrue trivial
  | .wake => isTrue trivial
  | .thread _ => isTrue trivial

/-! ### Rows -/

section Rows

variable {row row' : Library} {h : History}

theorem head_saveTx (hs : Sound row h) {cur : ProjectState} (hcur : Saveable cur) (now : Time)
    (interval days : ℤ) : (∃ h', Sound (saveTx cur now interval days row) h') ∧
      (saveTx cur now interval days row).commandSeq ≠ 0 ∧
      head (saveTx cur now interval days row) = cur := by
  have hsound := hs.saveTx hcur now interval days
  refine ⟨⟨_, hsound⟩, ?_⟩
  by_cases hsame : row.commandSeq ≠ 0 ∧ saveChanges row cur = []
  · -- nothing is written, for the head is what is saved
    have hchanges := hsame.2
    rw [saveChanges, if_neg hsame.1, headChanges_eq_nil] at hchanges
    rw [saveTx, if_pos hsame]
    exact ⟨hsame.1, hchanges⟩
  · rw [Oak.Storage.record, if_neg hsame] at hsound
    have hseq : (saveTx cur now interval days row).commandSeq = h.saved.length + 1 := by
      rw [← hsound.length_saved, List.length_append]
      rfl
    refine ⟨by omega, ?_⟩
    rw [head, hsound.replayState_head, hseq]
    exact stateAt_append_self _ _ _

/-- Nothing that matters for closing is lost from a row. -/
structure Keeps (row row' : Library) : Prop where
  seq_eq : row'.commandSeq = row.commandSeq
  head_eq : head row' = head row
  hasSnapshot : HasSnapshot row → HasSnapshot row'

theorem Keeps.refl (row : Library) : Keeps row row := ⟨rfl, rfl, id⟩

theorem hasSnapshot_writeSnapshot (now : Time) (row : Library) :
    HasSnapshot (writeSnapshot now row) := by
  rw [writeSnapshot]
  by_cases hexists : ∃ s ∈ row.snapshots, s.commandSeq = row.commandSeq
  · rw [if_pos hexists]
    exact hexists
  · rw [if_neg hexists]
    exact ⟨_, List.mem_append_right _ (List.mem_singleton_self _), rfl⟩

theorem commandSeq_pruneSnapshots (row : Library) :
    (pruneSnapshots row).commandSeq = row.commandSeq := by
  rw [pruneSnapshots]
  split_ifs <;> rfl

theorem commandSeq_writeSnapshot (now : Time) (row : Library) :
    (writeSnapshot now row).commandSeq = row.commandSeq := by
  rw [writeSnapshot]
  split_ifs <;> rfl

/-- Pruning leaves the snapshot of the head, which is the newest one. -/
theorem hasSnapshot_pruneSnapshots (hs : Sound row h) (hrow : HasSnapshot row) :
    HasSnapshot (pruneSnapshots row) := by
  obtain ⟨s, hmem, hseq⟩ := hrow
  rcases hlast : row.snapshots.getLast? with _ | newest
  · rw [List.getLast?_eq_none_iff.1 hlast] at hmem
    cases hmem
  · obtain ⟨hnewest, hmax⟩ := getLast?_commandSeq hs.sorted hlast
    refine ⟨newest, mem_pruneSnapshots_of_getLast? hlast, ?_⟩
    have hle := (hs.payload newest hnewest).1
    have hge := hmax s hmem
    rw [commandSeq_pruneSnapshots]
    omega

/-- A snapshot of the head is there afterwards, and the head is the same. -/
theorem keeps_snapshot (hs : Sound row h) (now : Time) :
    Sound (pruneSnapshots (writeSnapshot now row)) h ∧
      Keeps row (pruneSnapshots (writeSnapshot now row)) ∧
      HasSnapshot (pruneSnapshots (writeSnapshot now row)) := by
  have hwrite := hs.writeSnapshot now
  have hprune := hwrite.pruneSnapshots
  have hseq : (pruneSnapshots (writeSnapshot now row)).commandSeq = row.commandSeq := by
    rw [commandSeq_pruneSnapshots, commandSeq_writeSnapshot]
  have hhas := hasSnapshot_pruneSnapshots hwrite (hasSnapshot_writeSnapshot now row)
  refine ⟨hprune, ⟨hseq, ?_, fun _ => hhas⟩, hhas⟩
  rw [head, head, hprune.replayState_head, hs.replayState_head, hseq]

end Rows

/-! ### Traces -/

section Traces

variable (g : Ghost) (key k : Key) (failed : Bool)

theorem trace_setFailed : (g.setFailed key failed).trace k =
    { g.trace k with failed := if k = key then failed else (g.trace k).failed } := by
  show Function.update g.trace key _ k = _
  rw [Function.update_apply]
  split_ifs with hk
  · rw [hk]
  · rfl

@[simp] theorem session_setFailed :
    ((g.setFailed key failed).trace k).session = (g.trace k).session := by
  rw [trace_setFailed]

@[simp] theorem commanded_setFailed :
    ((g.setFailed key failed).trace k).commanded = (g.trace k).commanded := by
  rw [trace_setFailed]

@[simp] theorem failed_setFailed : ((g.setFailed key failed).trace k).failed =
    if k = key then failed else (g.trace k).failed := by
  rw [trace_setFailed]

@[simp] theorem call_setFailed : (g.setFailed key failed).call = g.call := rfl

end Traces

/-! ### Bindings -/

section Bindings

variable (s : State) (key : Key) (f : Binding → Binding)

theorem getElem?_modifyBinding (k : Key) : (s.modifyBinding key f).bindings[k]? =
    if k = key then s.bindings[key]?.map f else s.bindings[k]? := by
  rw [State.modifyBinding]
  rcases hb : s.bindings[key]? with _ | b
  · dsimp only
    split_ifs with hk
    · rw [hk, hb]
      rfl
    · rfl
  · dsimp only
    rw [Std.ExtTreeMap.getElem?_insert]
    simp only [compare_eq_iff_eq, eq_comm (a := k), Option.map_some]

variable {s key f} in
theorem exists_of_modifyBinding (hf : ∀ b, (f b).session = b.session) {k : Key} {b' : Binding}
    (hb' : (s.modifyBinding key f).bindings[k]? = some b') :
    ∃ b : Binding, s.bindings[k]? = some b ∧ b'.session = b.session := by
  rw [getElem?_modifyBinding] at hb'
  split_ifs at hb' with hk
  · obtain ⟨b, hb, rfl⟩ := Option.map_eq_some_iff.1 hb'
    exact ⟨b, hk ▸ hb, hf b⟩
  · exact ⟨b', hb', rfl⟩

variable {s key f} in
theorem eq_none_of_modifyBinding {k : Key} (hk : (s.modifyBinding key f).bindings[k]? = none) :
    s.bindings[k]? = none := by
  rw [getElem?_modifyBinding] at hk
  split_ifs at hk with heq
  · rw [heq]
    exact Option.map_eq_none_iff.1 hk
  · exact hk

@[simp] theorem modifyBinding_memory : (s.modifyBinding key f).memory = s.memory := by
  rw [State.modifyBinding]
  split <;> rfl

@[simp] theorem modifyBinding_rows : (s.modifyBinding key f).rows = s.rows := by
  rw [State.modifyBinding]
  split <;> rfl

@[simp] theorem modifyBinding_main : (s.modifyBinding key f).main = s.main := by
  rw [State.modifyBinding]
  split <;> rfl

@[simp] theorem modifyBinding_thread : (s.modifyBinding key f).thread = s.thread := by
  rw [State.modifyBinding]
  split <;> rfl

end Bindings

/-! ### The bindings and their rows -/

/-- What the threads have still to do. -/
def State.ops (s : State) : List Op := s.main ++ s.thread.getD []

/-- Nothing of a binding is left to save: its row is at the project in memory, a binding that is
not dirty has a snapshot, and the jobs of its generation are about its row. -/
structure Settled (s : State) (key : Key) (b : Binding) : Prop where
  seq_ne : (s.rows b.session).commandSeq ≠ 0
  head_eq : head (s.rows b.session) = s.memory key
  covered : .mark key ∉ s.main → b.dirty = false → HasSnapshot (s.rows b.session)
  aimed : .mark key ∉ s.main → ∀ job, .snapshot job ∈ s.ops → job.key = key →
    job.gen = b.writeGen → job.session = b.session
  taken : .mark key ∉ s.main → ∀ job, .clear job ∈ s.ops → job.key = key →
    job.gen = b.writeGen → HasSnapshot (s.rows b.session)

/-- Every binding whose saves are done and succeeded is settled. -/
structure Core (s : State) (g : Ghost) : Prop where
  sound : ∀ u, ∃ h, Sound (s.rows u) h
  session_eq : ∀ (key : Key) (b : Binding), s.bindings[key]? = some b →
    (g.trace key).session = b.session
  settled : ∀ (key : Key) (b : Binding), s.bindings[key]? = some b →
    (g.trace key).commanded = true → (g.trace key).failed = false → .save key ∉ s.main →
    Settled s key b

variable {t : Option (List Op)} {job : Job} {m : List Op}

section Core

variable {s s' : State} {g g' : Ghost} {key : Key} {b : Binding}

/-- A binding stays settled when its row, its project and its mark are kept, and a new job is about
its row. -/
theorem Settled.mono (h : Settled s key b) {b' : Binding} (hsession : b'.session = b.session)
    (hdirty : b'.dirty = b.dirty) (hgen : b'.writeGen = b.writeGen)
    (hmemory : s'.memory key = s.memory key)
    (hrow : Keeps (s.rows b.session) (s'.rows b.session))
    (hmark : .mark key ∉ s'.main → .mark key ∉ s.main)
    (hops : ∀ job, job.key = key →
      (.snapshot job ∈ s'.ops → .snapshot job ∈ s.ops ∨ job.session = b.session) ∧
      (.clear job ∈ s'.ops → .clear job ∈ s.ops)) : Settled s' key b' where
  seq_ne := by
    rw [hsession, hrow.seq_eq]
    exact h.seq_ne
  head_eq := by
    rw [hsession, hrow.head_eq, hmemory]
    exact h.head_eq
  covered hm hd := by
    rw [hsession]
    exact hrow.hasSnapshot (h.covered (hmark hm) (hdirty ▸ hd))
  aimed hm job hjob hkey hg := by
    rw [hsession]
    obtain hold | hnew := (hops job hkey).1 hjob
    · exact h.aimed (hmark hm) job hold hkey (hgen ▸ hg)
    · exact hnew
  taken hm job hjob hkey hg := by
    rw [hsession]
    exact hrow.hasSnapshot (h.taken (hmark hm) job ((hops job hkey).2 hjob) hkey (hgen ▸ hg))

/-- The bindings stay what they are, and a new job is about the row of its binding. -/
theorem Core.mono (h : Core s g) (hmemory : s'.memory = s.memory) (hrows : s'.rows = s.rows)
    (hbindings : ∀ (k : Key) (b' : Binding), s'.bindings[k]? = some b' →
      ∃ b : Binding, s.bindings[k]? = some b ∧
        b'.session = b.session ∧ b'.dirty = b.dirty ∧ b'.writeGen = b.writeGen)
    (hmain : ∀ (k : Key) (b : Binding), s.bindings[k]? = some b → (g.trace k).failed = false →
      (.save k ∉ s'.main → .save k ∉ s.main) ∧ (.mark k ∉ s'.main → .mark k ∉ s.main))
    (hops : ∀ job,
      (.snapshot job ∈ s'.ops → .snapshot job ∈ s.ops ∨
        ∀ b : Binding, s.bindings[job.key]? = some b → job.session = b.session) ∧
      (.clear job ∈ s'.ops → .clear job ∈ s.ops)) : Core s' g where
  sound u := hrows ▸ h.sound u
  session_eq k b' hb' := by
    obtain ⟨b, hb, hsession, -, -⟩ := hbindings k b' hb'
    rw [hsession]
    exact h.session_eq k b hb
  settled k b' hb' hcommanded hfailed hsave := by
    obtain ⟨b, hb, hsession, hdirty, hgen⟩ := hbindings k b' hb'
    have hk := h.settled k b hb hcommanded hfailed ((hmain k b hb hfailed).1 hsave)
    refine hk.mono hsession hdirty hgen (by rw [hmemory]) (hrows ▸ .refl _) (hmain k b hb hfailed).2
      fun job hkey => ⟨fun hjob => ?_, (hops job).2⟩
    exact ((hops job).1 hjob).imp_right fun hnew => hnew b (hkey ▸ hb)

theorem Core.recordError (h : Core s g) (key : Key) (message : Text)
    (hmain : ∀ k, (g.trace k).failed = false →
      (.save k ∉ m → .save k ∉ s.main) ∧ (.mark k ∉ m → .mark k ∉ s.main))
    (hops : ∀ op ∈ m ++ t.getD [], op ∈ s.ops) :
    Core { s.recordError key message with main := m, thread := t } g := by
  refine h.mono (modifyBinding_memory ..) (modifyBinding_rows ..) (fun k b' hb' => ?_)
    (fun k _ _ => hmain k) fun job => ⟨fun hjob => .inl (hops _ hjob), hops _⟩
  rw [State.recordError, getElem?_modifyBinding] at hb'
  split_ifs at hb' with hk
  · obtain ⟨b, hb, rfl⟩ := Option.map_eq_some_iff.1 hb'
    exact ⟨b, hk ▸ hb, rfl, rfl, rfl⟩
  · exact ⟨b', hb', rfl, rfl, rfl⟩

theorem Core.snapshot (h : Core s g) (hjob : .snapshot job ∈ s.ops) (now : Time)
    (hmain : ∀ k, (.save k ∉ m → .save k ∉ s.main) ∧ (.mark k ∉ m → .mark k ∉ s.main))
    (hops : ∀ op ∈ m ++ t.getD [], op ∈ s.ops ∨ op = .clear job) :
    Core { s.setRow job.session (pruneSnapshots (writeSnapshot now (s.rows job.session))) with
      main := m, thread := t } g := by
  obtain ⟨hist, hsound⟩ := h.sound job.session
  obtain ⟨hsound', hkeeps, hhas⟩ := keeps_snapshot hsound now
  have hrow : ∀ u, Keeps (s.rows u) (Function.update s.rows job.session
      (pruneSnapshots (writeSnapshot now (s.rows job.session))) u) := by
    intro u
    rcases eq_or_ne u job.session with rfl | hu
    · rwa [Function.update_self]
    · rw [Function.update_of_ne hu]
      exact .refl _
  refine ⟨fun u => ?_, h.session_eq, fun k b hb hcommanded hfailed hsave => ?_⟩
  · show ∃ hist, Sound (Function.update s.rows job.session _ u) hist
    rcases eq_or_ne u job.session with rfl | hu
    · exact ⟨hist, by rwa [Function.update_self]⟩
    · rw [Function.update_of_ne hu]
      exact h.sound u
  · have hk := h.settled k b hb hcommanded hfailed ((hmain k).1 hsave)
    refine ⟨?_, ?_, fun hm hd => ?_, fun hm job' hjob' => ?_, fun hm job' hjob' hkey hg => ?_⟩
    · exact (hrow b.session).seq_eq ▸ hk.seq_ne
    · exact (hrow b.session).head_eq.trans hk.head_eq
    · exact (hrow b.session).hasSnapshot (hk.covered ((hmain k).2 hm) hd)
    · obtain hold | hnew := hops _ hjob'
      · exact hk.aimed ((hmain k).2 hm) job' hold
      · cases hnew
    · obtain hold | hnew := hops _ hjob'
      · exact (hrow b.session).hasSnapshot (hk.taken ((hmain k).2 hm) job' hold hkey hg)
      · -- the new job was about the row of the binding, for its generation matches
        obtain rfl := Op.clear.inj hnew
        have haim := hk.aimed ((hmain k).2 hm) job' hjob hkey hg
        show HasSnapshot (Function.update s.rows job'.session _ b.session)
        rwa [haim, Function.update_self, ← haim]

/-- The mark of a binding is cleared when the generation still matches. -/
theorem Core.clear (h : Core s g) (hjob : .clear job ∈ s.ops)
    (hmain : ∀ k, (.save k ∉ m → .save k ∉ s.main) ∧ (.mark k ∉ m → .mark k ∉ s.main))
    (hops : ∀ op ∈ m ++ t.getD [], op ∈ s.ops) :
    Core { s.modifyBinding job.key fun b =>
      if b.writeGen = job.gen then { b with dirty := false } else b with
        main := m, thread := t } g := by
  have hget : ∀ (k : Key) (b' : Binding), (s.modifyBinding job.key fun b =>
      if b.writeGen = job.gen then { b with dirty := false } else b).bindings[k]? = some b' →
      ∃ b : Binding, s.bindings[k]? = some b ∧ b'.session = b.session ∧
        b'.writeGen = b.writeGen ∧
        (b'.dirty = b.dirty ∨ (k = job.key ∧ b.writeGen = job.gen)) := by
    intro k b' hb'
    rw [getElem?_modifyBinding] at hb'
    split_ifs at hb' with hk
    · obtain ⟨b, hb, rfl⟩ := Option.map_eq_some_iff.1 hb'
      refine ⟨b, hk ▸ hb, ?_⟩
      split_ifs with hg
      · exact ⟨rfl, rfl, .inr ⟨hk, hg⟩⟩
      · exact ⟨rfl, rfl, .inl rfl⟩
    · exact ⟨b', hb', rfl, rfl, .inl rfl⟩
  refine ⟨fun u => ?_, fun k b' hb' => ?_, fun k b' hb' hcommanded hfailed hsave => ?_⟩
  · rw [modifyBinding_rows]
    exact h.sound u
  · obtain ⟨b, hb, hsession, -, -⟩ := hget k b' hb'
    rw [hsession]
    exact h.session_eq k b hb
  · obtain ⟨b, hb, hsession, hgen, hdirty⟩ := hget k b' hb'
    have hk := h.settled k b hb hcommanded hfailed ((hmain k).1 hsave)
    refine ⟨?_, ?_, fun hm hd => ?_, fun hm job' hjob' hkey hg => ?_,
      fun hm job' hjob' hkey hg => ?_⟩
    · rw [modifyBinding_rows, hsession]
      exact hk.seq_ne
    · rw [modifyBinding_rows, modifyBinding_memory, hsession]
      exact hk.head_eq
    · rw [modifyBinding_rows, hsession]
      obtain hsame | ⟨hkey, hg⟩ := hdirty
      · exact hk.covered ((hmain k).2 hm) (hsame ▸ hd)
      · exact hk.taken ((hmain k).2 hm) job hjob hkey.symm hg.symm
    · rw [hsession]
      exact hk.aimed ((hmain k).2 hm) job' (hops _ hjob') hkey (hgen ▸ hg)
    · rw [modifyBinding_rows, hsession]
      exact hk.taken ((hmain k).2 hm) job' (hops _ hjob') hkey (hgen ▸ hg)

section Main

variable {rest : List Op}

theorem mem_ops {op : Op} : op ∈ s.ops ↔ op ∈ s.main ∨ op ∈ s.thread.getD [] :=
  List.mem_append

theorem Core.replace (h : Core s g) {op : Op} (hmain : s.main = op :: rest) {n : List Op}
    (hop : ∀ k, op ≠ .save k ∧ op ≠ .mark k)
    (hnew : ∀ job, (.snapshot job ∈ n →
      ∀ b : Binding, s.bindings[job.key]? = some b → job.session = b.session) ∧
      .clear job ∉ n) (stop : Bool) :
    Core { s with main := n ++ rest, stop } g := by
  have hold : ∀ op', op' ∈ rest → op' ∈ s.ops := fun op' hop' =>
    mem_ops.2 (.inl (hmain ▸ List.mem_cons_of_mem op hop'))
  refine h.mono rfl rfl (fun k b' hb' => ⟨b', hb', rfl, rfl, rfl⟩) (fun k _ _ _ => ?_)
    fun job => ⟨fun hjob => ?_, fun hjob => ?_⟩
  · rw [hmain, List.mem_cons, List.mem_cons, List.mem_append, List.mem_append]
    refine ⟨fun hk => ?_, fun hk => ?_⟩
    · rintro (heq | hrest)
      · exact (hop k).1 heq.symm
      · exact hk (.inr hrest)
    · rintro (heq | hrest)
      · exact (hop k).2 heq.symm
      · exact hk (.inr hrest)
  · obtain hjob | hjob := mem_ops.1 hjob
    · obtain hjob | hjob := List.mem_append.1 hjob
      · exact .inr ((hnew job).1 hjob)
      · exact .inl (hold _ hjob)
    · exact .inl (mem_ops.2 (.inr hjob))
  · obtain hjob | hjob := mem_ops.1 hjob
    · obtain hjob | hjob := List.mem_append.1 hjob
      · exact absurd hjob (hnew job).2
      · exact hold _ hjob
    · exact mem_ops.2 (.inr hjob)

theorem Core.remove (h : Core s g) (hmain : s.main = .remove key :: rest) :
    Core { s with bindings := s.bindings.erase key, main := rest } g := by
  refine (h.replace hmain (n := []) (fun k => ⟨Op.noConfusion, Op.noConfusion⟩)
    (fun job => ⟨fun hjob => absurd hjob List.not_mem_nil, List.not_mem_nil⟩) s.stop).mono rfl rfl
    (fun k b' hb' => ⟨b', ?_, rfl, rfl, rfl⟩) (fun k _ _ _ => ⟨id, id⟩) fun job => ⟨.inl, id⟩
  rw [Std.ExtTreeMap.getElem?_erase] at hb'
  split_ifs at hb'
  exact hb'

section

variable (h : Core s g) (hmain : s.main = .save key :: rest)

include h hmain

theorem Core.save_ok (hb : s.bindings[key]? = some b) (hcur : Saveable (s.memory key))
    (hshared : ∀ e ∈ s.bindings.toList, e.1 ≠ key → e.2.session ≠ (g.trace key).session)
    (now : Time) (interval days : ℤ) :
    Core { s.setRow b.session (saveTx (s.memory key) now interval days (s.rows b.session)) with
        main := .mark key :: rest } (g.setFailed key false) := by
  obtain ⟨hist, hsound⟩ := h.sound b.session
  obtain ⟨hsound', hseq, hhead⟩ := head_saveTx hsound hcur now interval days
  have hops : ∀ job, .snapshot job ∈ .mark key :: rest ++ s.thread.getD [] →
      .snapshot job ∈ s.ops := by
    intro job hjob
    rw [State.ops, hmain]
    simpa using hjob
  have hops' : ∀ job, .clear job ∈ .mark key :: rest ++ s.thread.getD [] →
      .clear job ∈ s.ops := by
    intro job hjob
    rw [State.ops, hmain]
    simpa using hjob
  refine ⟨fun u => ?_, fun k b' hb' => ?_, fun k b' hb' hcommanded hfailed hsave => ?_⟩
  · show ∃ hist, Sound (Function.update s.rows b.session _ u) hist
    rcases eq_or_ne u b.session with rfl | hu
    · rwa [Function.update_self]
    · rw [Function.update_of_ne hu]
      exact h.sound u
  · rw [session_setFailed]
    exact h.session_eq k b' hb'
  · rcases eq_or_ne k key with rfl | hk
    · obtain rfl : b' = b := Option.some.inj (hb'.symm.trans hb)
      refine ⟨?_, ?_, fun hm => absurd List.mem_cons_self hm,
        fun hm => absurd List.mem_cons_self hm, fun hm => absurd List.mem_cons_self hm⟩
      · show (Function.update s.rows b'.session _ b'.session).commandSeq ≠ 0
        rwa [Function.update_self]
      · show head (Function.update s.rows b'.session _ b'.session) = _
        rwa [Function.update_self]
    · rw [commanded_setFailed] at hcommanded
      rw [failed_setFailed, if_neg hk] at hfailed
      have hne : b'.session ≠ b.session := by
        rw [← h.session_eq key b hb]
        exact hshared (k, b') (Std.ExtTreeMap.mem_toList_iff_getElem?_eq_some.2 hb') hk
      have hsettled := h.settled k b' hb' hcommanded hfailed (by
        rw [hmain]
        simpa [hk] using hsave)
      refine hsettled.mono rfl rfl rfl rfl ?_ ?_ fun job _ =>
        ⟨fun hjob => .inl (hops job hjob), hops' job⟩
      · show Keeps _ (Function.update s.rows b.session _ b'.session)
        rw [Function.update_of_ne hne]
        exact .refl _
      · rw [hmain]
        simp [hk]

theorem Core.save_error (message : Text) :
    Core { s.recordError key message with main := rest } (g.setFailed key true) := by
  have hfail : Core s (g.setFailed key true) := by
    refine ⟨h.sound, fun k b' hb' => ?_, fun k b' hb' hcommanded hfailed hsave => ?_⟩
    · rw [session_setFailed]
      exact h.session_eq k b' hb'
    · rw [commanded_setFailed] at hcommanded
      rw [failed_setFailed] at hfailed
      split_ifs at hfailed
      exact h.settled k b' hb' hcommanded hfailed hsave
  refine hfail.recordError key message (fun k hfailed => ?_) fun op hop => ?_
  · rw [failed_setFailed] at hfailed
    split_ifs at hfailed with hk
    rw [hmain]
    simp [hk]
  · rw [State.recordError, modifyBinding_thread] at hop
    rw [State.ops, hmain]
    exact List.mem_cons_of_mem _ hop

theorem Core.unbound (hnone : s.bindings[key]? = none) (failed : Bool) :
    Core { s with main := rest } (g.setFailed key failed) := by
  have hne : ∀ (k : Key) (b : Binding), s.bindings[k]? = some b → k ≠ key := by
    rintro k b hb rfl
    cases hb.symm.trans hnone
  have hfailed : Core s (g.setFailed key failed) := by
    refine ⟨h.sound, fun k b hb => ?_, fun k b hb hcommanded hfailed hsave => ?_⟩
    · rw [session_setFailed]
      exact h.session_eq k b hb
    · rw [commanded_setFailed] at hcommanded
      rw [failed_setFailed, if_neg (hne k b hb)] at hfailed
      exact h.settled k b hb hcommanded hfailed hsave
  refine hfailed.mono rfl rfl (fun k b' hb' => ⟨b', hb', rfl, rfl, rfl⟩) (fun k b hb _ => ?_)
    fun job => ⟨fun hjob => .inl ?_, fun hjob => ?_⟩
  · rw [hmain]
    simp [hne k b hb]
  all_goals
    rw [State.ops, hmain]
    exact List.mem_cons_of_mem _ hjob

end

theorem Core.mark (h : Core s g) (hmain : s.main = .mark key :: rest)
    (hgen : ∀ job ∈ s.jobs, job.key = key →
      some job.gen ≠ s.bindings[key]?.map fun b => (b.writeGen + 1) % u64Size) :
    Core { s.modifyBinding key fun b =>
      { b with dirty := true, writeGen := (b.writeGen + 1) % u64Size, lastError := none } with
        main := rest } g := by
  have hops : ∀ (f : Binding → Binding) op,
      op ∈ rest ++ (s.modifyBinding key f).thread.getD [] → op ∈ s.ops := by
    intro f op hop
    rw [modifyBinding_thread] at hop
    rw [State.ops, hmain]
    exact List.mem_cons_of_mem _ hop
  refine ⟨fun u => ?_, fun k b' hb' => ?_, fun k b' hb' hcommanded hfailed hsave => ?_⟩
  · rw [modifyBinding_rows]
    exact h.sound u
  · rw [getElem?_modifyBinding] at hb'
    split_ifs at hb' with hk
    · obtain ⟨b, hb, rfl⟩ := Option.map_eq_some_iff.1 hb'
      exact h.session_eq k b (hk ▸ hb)
    · exact h.session_eq k b' hb'
  · rw [getElem?_modifyBinding] at hb'
    have hsave' : .save k ∉ s.main := by
      rw [hmain]
      simpa using hsave
    split_ifs at hb' with hk
    · subst hk
      obtain ⟨b, hb, rfl⟩ := Option.map_eq_some_iff.1 hb'
      have hsettled := h.settled k b hb hcommanded hfailed hsave'
      refine ⟨?_, ?_, fun _ hd => absurd hd Bool.noConfusion, fun _ job hjob hkey hg => ?_,
        fun _ job hjob hkey hg => ?_⟩
      · rw [modifyBinding_rows]
        exact hsettled.seq_ne
      · rw [modifyBinding_rows, modifyBinding_memory]
        exact hsettled.head_eq
      all_goals
        have hne := hgen job (List.mem_filterMap.2 ⟨_, hops _ _ hjob, rfl⟩) hkey
        rw [hb, Option.map_some, hg] at hne
        exact absurd rfl hne
    · refine (h.settled k b' hb' hcommanded hfailed hsave').mono rfl rfl rfl ?_ ?_ ?_
        fun job _ => ⟨fun hjob => .inl (hops _ _ hjob), fun hjob => hops _ _ hjob⟩
      · rw [modifyBinding_memory]
      · rw [modifyBinding_rows]
        exact .refl _
      · rw [hmain]
        simp [hk]

end Main

/-- A command changes projects: every bound one has a save to come. -/
theorem Core.command (h : Core s g) (memory : Key → ProjectState) {g' : Ghost}
    (hg : ∀ k, (g'.trace k).session = (g.trace k).session) :
    Core { s with memory, main := s.bindings.keys.map .save } g' := by
  refine ⟨h.sound, fun k b hb => ?_, fun k b hb _ _ hsave => absurd ?_ hsave⟩
  · rw [hg]
    exact h.session_eq k b hb
  · refine List.mem_map_of_mem (Std.ExtTreeMap.mem_keys.2 ?_)
    exact Std.ExtTreeMap.mem_iff_isSome_getElem?.2 (by rw [hb]; rfl)

theorem Core.bind (h : Core s g) (key : Key) (session : Session) (t : List Op) (stop : Bool)
    (ht : t = s.thread.getD []) {g' : Ghost}
    (hg : g'.trace = Function.update g.trace key ⟨session, false, false⟩) :
    Core { s with
      bindings := s.bindings.insert key ⟨session, false, 0, none⟩
      thread := some t
      stop } g' := by
  have hget : ∀ (k : Key) (b : Binding),
      (s.bindings.insert key ⟨session, false, 0, none⟩)[k]? = some b →
      (k = key ∧ b.session = session) ∨ (k ≠ key ∧ s.bindings[k]? = some b) := by
    intro k b hb
    rw [Std.ExtTreeMap.getElem?_insert] at hb
    simp only [compare_eq_iff_eq] at hb
    split_ifs at hb with hk
    · cases hb
      exact .inl ⟨hk.symm, rfl⟩
    · exact .inr ⟨fun heq => hk heq.symm, hb⟩
  refine ⟨h.sound, fun k b hb => ?_, fun k b hb hcommanded hfailed hsave => ?_⟩
  · rw [hg]
    obtain ⟨rfl, hsession⟩ | ⟨hk, hb⟩ := hget k b hb
    · rw [Function.update_self, hsession]
    · rw [Function.update_of_ne hk]
      exact h.session_eq k b hb
  · rw [hg] at hcommanded hfailed
    obtain ⟨rfl, hb⟩ | ⟨hk, hb⟩ := hget k b hb
    · rw [Function.update_self] at hcommanded
      cases hcommanded
    · rw [Function.update_of_ne hk] at hcommanded hfailed
      refine (h.settled k b hb hcommanded hfailed hsave).mono rfl rfl rfl rfl (.refl _) id
        fun job _ => ?_
      subst ht
      exact ⟨.inl, id⟩

theorem snapshot_mem_dirtyJobs {op : Op} (hop : op ∈ dirtyJobs s) :
    ∃ (key : Key) (b : Binding), s.bindings[key]? = some b ∧
      op = .snapshot ⟨key, b.session, b.writeGen⟩ := by
  obtain ⟨⟨key, b⟩, he, hop⟩ := List.mem_filterMap.1 hop
  dsimp only at hop
  split_ifs at hop
  exact ⟨key, b, Std.ExtTreeMap.mem_toList_iff_getElem?_eq_some.1 he, (Option.some.inj hop).symm⟩

theorem Core.wake (h : Core s g) (ht : ∀ op ∈ t.getD [], op ∈ dirtyJobs s) :
    Core { s with thread := t } g := by
  refine h.mono rfl rfl (fun k b' hb' => ⟨b', hb', rfl, rfl, rfl⟩) (fun k _ _ _ => ⟨id, id⟩)
    fun job => ⟨fun hjob => ?_, fun hjob => ?_⟩
  · obtain hjob | hjob := List.mem_append.1 hjob
    · exact .inl (mem_ops.2 (.inl hjob))
    · obtain ⟨key, b, hb, heq⟩ := snapshot_mem_dirtyJobs (ht _ hjob)
      obtain rfl := Op.snapshot.inj heq
      exact .inr fun b' hb' => by rw [Option.some.inj (hb.symm.trans hb')]
  · obtain hjob | hjob := List.mem_append.1 hjob
    · exact mem_ops.2 (.inl hjob)
    · obtain ⟨key, b, -, heq⟩ := snapshot_mem_dirtyJobs (ht _ hjob)
      cases heq

end Core

/-! ### What the main thread has to do -/

/-- A save of a flush is followed by the snapshot, and the flush by what it collects. -/
def Waits : List Op → Prop
  | [] => True
  | .save key :: rest => .capture key ∈ rest ∧ Waits rest
  | .mark key :: rest => .capture key ∈ rest ∧ Waits rest
  | .stop :: rest => .join ∈ rest ∧ Waits rest
  | .join :: rest => .drain ∈ rest ∧ Waits rest
  | _ :: rest => Waits rest

/-- The shape of the two lists of operations. -/
structure Control (s : State) (g : Ghost) : Prop where
  thread_jobs : ∀ op ∈ s.thread.getD [], op.job?.isSome = true
  snapshot_first : ∀ job, .snapshot job ∉ s.main.tail
  own : ∀ job, .snapshot job ∈ s.main → ∀ b : Binding, s.bindings[job.key]? = some b →
    job.session = b.session
  reached : ∀ key, (.capture key ∈ s.main ∨ ∃ job, .snapshot job ∈ s.main ∧ job.key = key) →
    .save key ∉ s.main → (g.trace key).commanded = true → (g.trace key).failed = false
  remove_last : ∀ key, .remove key ∉ s.main.dropLast
  gone : ∀ key, g.call = some (.unbind key) → s.bindings[key]? = none → s.main = []
  waits : g.call ≠ none → Waits s.main

section Control

variable {s s' : State} {g g' : Ghost} {op : Op} {rest n : List Op}

/-- An operation of the main thread is replaced by what it leaves to do. -/
theorem Control.main (h : Control s g) (hmain : s.main = op :: rest) (hmain' : s'.main = n ++ rest)
    (hthread : s'.thread = s.thread)
    (hbindings : ∀ (k : Key) (b' : Binding), s'.bindings[k]? = some b' →
      ∃ b : Binding, s.bindings[k]? = some b ∧ b'.session = b.session)
    (hgone : ∀ k, s'.bindings[k]? = none → s.bindings[k]? = none ∨ (op = .remove k ∧ n = []))
    (hcall : g'.call = g.call)
    (hcommanded : ∀ k, (g'.trace k).commanded = (g.trace k).commanded)
    (hfailed : ∀ k, .capture k ∈ s.main →
      (op ≠ .save k → (g.trace k).failed = false → (g'.trace k).failed = false) ∧
      (op = .save k → .capture k ∈ rest → (g'.trace k).failed = false))
    (hsnapshot : ∀ job, .snapshot job ∈ n → n = [.snapshot job] ∧ op = .capture job.key ∧
      ∀ b : Binding, s.bindings[job.key]? = some b → job.session = b.session)
    (hcapture : ∀ k, .capture k ∈ n → .save k ∈ n) (hremove : ∀ k, .remove k ∉ n)
    (hwaits : Waits (op :: rest) → Waits (n ++ rest)) : Control s' g' := by
  have hfirst : ∀ job, .snapshot job ∉ rest := fun job => by
    have hjob := h.snapshot_first job
    rwa [hmain] at hjob
  have hlast : ∀ k, .remove k ∉ rest.dropLast := fun k hk => by
    refine h.remove_last k ?_
    rw [hmain, List.dropLast_cons_of_ne_nil]
    · exact List.mem_cons_of_mem op hk
    · rintro rfl
      cases hk
  refine ⟨hthread ▸ h.thread_jobs, fun job => ?_, fun job hjob b' hb' => ?_,
    fun k hk hsave hcom => ?_, fun k => ?_, fun k hk hnone => ?_, fun hc => ?_⟩
  · rw [hmain']
    rcases n with _ | ⟨op', n⟩
    · exact fun hjob => hfirst job (List.mem_of_mem_tail hjob)
    · rw [List.cons_append, List.tail_cons, List.mem_append]
      rintro (hjob | hjob)
      · have hnew := (hsnapshot job (List.mem_cons_of_mem op' hjob)).1
        rw [(List.cons.inj hnew).2] at hjob
        cases hjob
      · exact hfirst job hjob
  · rw [hmain', List.mem_append] at hjob
    obtain ⟨b, hb, hsession⟩ := hbindings job.key b' hb'
    obtain hjob | hjob := hjob
    · rw [hsession]
      exact (hsnapshot job hjob).2.2 b hb
    · exact absurd hjob (hfirst job)
  · rw [hcommanded] at hcom
    rw [hmain', List.mem_append, not_or] at hsave
    have hop : .capture k ∈ s.main → .capture k ∈ rest ∨ op ≠ .save k →
        (g'.trace k).failed = false := by
      intro hcap hor
      by_cases hopk : op = .save k
      · exact (hfailed k hcap).2 hopk (hor.resolve_right fun hne => hne hopk)
      · refine (hfailed k hcap).1 hopk (h.reached k (.inl hcap) ?_ hcom)
        rw [hmain, List.mem_cons]
        rintro (heq | hrest)
        · exact hopk heq.symm
        · exact hsave.2 hrest
    rw [hmain'] at hk
    obtain hk | ⟨job, hjob, hkey⟩ := hk
    · obtain hk | hk := List.mem_append.1 hk
      · exact absurd (hcapture k hk) hsave.1
      · exact hop (hmain ▸ List.mem_cons_of_mem op hk) (.inl hk)
    · obtain hjob | hjob := List.mem_append.1 hjob
      · obtain ⟨-, hopk, -⟩ := hsnapshot job hjob
        rw [hkey] at hopk
        refine hop (hmain ▸ hopk ▸ List.mem_cons_self) (.inr ?_)
        rw [hopk]
        exact Op.noConfusion
      · exact absurd hjob (hfirst job)
  · rw [hmain']
    rcases eq_or_ne rest [] with rfl | hrest
    · rw [List.append_nil]
      exact fun hk => hremove k (List.mem_of_mem_dropLast hk)
    · rw [List.dropLast_append_of_ne_nil hrest, List.mem_append, not_or]
      exact ⟨hremove k, hlast k⟩
  · rw [hcall] at hk
    obtain hnone | ⟨rfl, rfl⟩ := hgone k hnone
    · have hnil := h.gone k hk hnone
      rw [hmain] at hnil
      cases hnil
    · -- the binding is dropped at the end of the call
      by_contra hrest
      rw [hmain', List.nil_append] at hrest
      refine h.remove_last k ?_
      rw [hmain, List.dropLast_cons_of_ne_nil hrest]
      exact List.mem_cons_self
  · rw [hcall] at hc
    rw [hmain']
    exact hwaits (hmain ▸ h.waits hc)

end Control

/-! ### What has been closed -/

/-- The operations of a flush that are not done with the key. -/
def Op.Opens (key : Key) : Op → Prop
  | .save k => k = key
  | .mark k => k = key
  | .check k => k = key
  | .capture k => k = key
  | .snapshot job => job.key = key
  | .stop => True
  | .join => True
  | .drain => True
  | .clear _ => False
  | .remove _ => False

/-- The flush is not done with the key. -/
def Pending (main : List Op) (key : Key) : Prop := ∃ op ∈ main, op.Opens key

/-- Every project that the call closes and is done with is safe. -/
def Closing (s : State) (g : Ghost) : Prop :=
  ∀ call, g.call = some call → ∀ key, Closes s key call → (g.trace key).commanded = true →
    ¬ Pending s.main key → Safe s g key

/-- What every run of allowed steps keeps. -/
structure Inv (s : State) (g : Ghost) : Prop where
  core : Core s g
  control : Control s g
  closing : Closing s g

section Inv

variable {s s' : State} {g g' : Ghost} {op : Op} {rest n : List Op} {key : Key}

/-- While a call is under way, the projects that it closes are bound. -/
theorem Control.bound (h : Control s g) (hmain : s.main = op :: rest) {call : Call}
    (hcall : g.call = some call) (hcloses : Closes s key call) :
    ∃ b : Binding, s.bindings[key]? = some b := by
  cases call with
  | flushAll => exact Option.isSome_iff_exists.1 hcloses
  | unbind key' =>
    obtain rfl : key' = key := hcloses
    refine Option.ne_none_iff_exists'.1 fun hnone => ?_
    have hnil := h.gone key' hcall hnone
    rw [hmain] at hnil
    cases hnil

theorem Safe.mono (h : Safe s g key) (hsession : (g'.trace key).session = (g.trace key).session)
    (hmemory : s'.memory key = s.memory key)
    (hrow : Keeps (s.rows (g.trace key).session) (s'.rows (g.trace key).session)) :
    Safe s' g' key := by
  rw [Safe, hsession, hmemory]
  exact ⟨hrow.head_eq.trans h.1, hrow.hasSnapshot h.2⟩

variable {b : Binding}

/-- A binding with nothing left to save that is not dirty is safe. -/
theorem Core.safe (h : Core s g) (hb : s.bindings[key]? = some b) (hsettled : Settled s key b)
    (hhas : HasSnapshot (s.rows b.session)) : Safe s g key := by
  rw [Safe, h.session_eq key b hb]
  exact ⟨hsettled.head_eq, hhas⟩

/-- An operation of the main thread closes what it is the last one to keep open. -/
theorem Inv.closing_main (h : Inv s g) (hmain : s.main = op :: rest) (hmain' : s'.main = n ++ rest)
    (hbindings : ∀ (k : Key) (b' : Binding), s'.bindings[k]? = some b' →
      ∃ b : Binding, s.bindings[k]? = some b ∧ b'.session = b.session)
    (hcall : g'.call = g.call)
    (hsession : ∀ k, (g'.trace k).session = (g.trace k).session)
    (hcommanded : ∀ k, (g'.trace k).commanded = (g.trace k).commanded)
    (hmemory : s'.memory = s.memory)
    (hkeeps : ∀ (k : Key) (b : Binding), s.bindings[k]? = some b → ¬ op.Opens k →
      Keeps (s.rows (g.trace k).session) (s'.rows (g.trace k).session))
    (hopens : g.call ≠ none → ∀ (k : Key) (b : Binding), s.bindings[k]? = some b → op.Opens k →
      (g.trace k).commanded = true → ¬ Pending n k → ¬ Pending rest k → Safe s' g' k) :
    Closing s' g' := by
  intro call hc key hcloses hcom hpending
  rw [hcall] at hc
  rw [hcommanded] at hcom
  have hcloses' : Closes s key call := by
    cases call with
    | unbind key' => exact hcloses
    | flushAll =>
      obtain ⟨b', hb'⟩ := Option.isSome_iff_exists.1 hcloses
      obtain ⟨b, hb, -⟩ := hbindings key b' hb'
      exact Option.isSome_iff_exists.2 ⟨b, hb⟩
  obtain ⟨b, hb⟩ := h.control.bound hmain hc hcloses'
  have hnew : ¬ Pending n key := fun ⟨op', hop', hopens'⟩ =>
    hpending ⟨op', hmain' ▸ List.mem_append_left _ hop', hopens'⟩
  have hrest : ¬ Pending rest key := fun ⟨op', hop', hopens'⟩ =>
    hpending ⟨op', hmain' ▸ List.mem_append_right _ hop', hopens'⟩
  by_cases hop : op.Opens key
  · exact hopens (hc ▸ Option.some_ne_none _) key b hb hop hcom hnew hrest
  · refine (h.closing call hc key hcloses' hcom ?_).mono (hsession key) (by rw [hmemory])
      (hkeeps key b hb hop)
    rintro ⟨op', hop', hopens'⟩
    rw [hmain] at hop'
    obtain rfl | hop' := List.mem_cons.1 hop'
    · exact hop hopens'
    · exact hrest ⟨op', hop', hopens'⟩

/-- An operation that changes no binding and no row. -/
theorem Inv.quiet (h : Inv s g) (hmain : s.main = op :: rest)
    (hop : ∀ k, op ≠ .save k ∧ op ≠ .mark k)
    (hsnapshot : ∀ job, .snapshot job ∈ n → n = [.snapshot job] ∧ op = .capture job.key ∧
      ∀ b : Binding, s.bindings[job.key]? = some b → job.session = b.session)
    (hclear : ∀ job, .clear job ∉ n)
    (hcapture : ∀ k, .capture k ∈ n → .save k ∈ n) (hremove : ∀ k, .remove k ∉ n)
    (hwaits : Waits (op :: rest) → Waits (n ++ rest)) (stop : Bool)
    (hopens : g.call ≠ none → ∀ (k : Key) (b : Binding), s.bindings[k]? = some b → op.Opens k →
      (g.trace k).commanded = true → ¬ Pending n k → ¬ Pending rest k → Safe s g k) :
    Inv { s with main := n ++ rest, stop } g where
  core := h.core.replace hmain hop (fun job => ⟨fun hjob => (hsnapshot job hjob).2.2, hclear job⟩)
    stop
  control := h.control.main hmain rfl rfl (fun _ b' hb' => ⟨b', hb', rfl⟩) (fun _ => .inl) rfl
    (fun _ => rfl) (fun k _ => ⟨fun _ => id, fun hsave => absurd hsave (hop k).1⟩) hsnapshot
    hcapture hremove hwaits
  closing := h.closing_main hmain rfl
    (fun _ b' hb' => ⟨b', hb', rfl⟩) rfl (fun _ => rfl)
    (fun _ => rfl) rfl (fun _ _ _ _ => .refl _) hopens

theorem waits_checks {keys : List Key} (h : Waits rest) : Waits (keys.map .check ++ rest) := by
  induction keys with
  | nil => exact h
  | cons key keys ih => exact ih

theorem Inv.check (h : Inv s g) (hmain : s.main = .check key :: rest)
    (hok : s.bindings[key]?.map Binding.dirty = some true ∨ (g.trace key).commanded = false ∨
      (g.trace key).failed = false) (hnew : n = [.save key, .capture key] ∨
        n = [] ∧ ∀ b : Binding, s.bindings[key]? = some b → b.dirty = false) :
    Inv { s with main := n ++ rest } g := by
  refine h.quiet hmain (fun k => ⟨Op.noConfusion, Op.noConfusion⟩) (fun job hjob => ?_)
    (fun job hjob => ?_) (fun k hk => ?_) (fun k hk => ?_) (fun hwaits => ?_) s.stop ?_
  · obtain rfl | ⟨rfl, -⟩ := hnew <;> simp at hjob
  · obtain rfl | ⟨rfl, -⟩ := hnew <;> simp at hjob
  · obtain rfl | ⟨rfl, -⟩ := hnew
    · simpa using hk
    · cases hk
  · obtain rfl | ⟨rfl, -⟩ := hnew <;> simp at hk
  · obtain rfl | ⟨rfl, -⟩ := hnew
    · exact ⟨List.mem_cons_self, hwaits⟩
    · exact hwaits
  · intro _ k b hb hk hcom hpending hrest
    obtain rfl : key = k := hk
    obtain rfl | ⟨rfl, hclean⟩ := hnew
    · exact absurd ⟨.save key, List.mem_cons_self, rfl⟩ hpending
    · -- not dirty, so that the last save was followed by a snapshot
      have hdirty := hclean b hb
      rw [hb, Option.map_some, hdirty, hcom] at hok
      have hfailed : (g.trace key).failed = false := by simpa using hok
      have hsave : .save key ∉ s.main := fun hsave => by
        rw [hmain] at hsave
        exact hrest ⟨_, List.mem_of_ne_of_mem Op.noConfusion hsave, rfl⟩
      have hmark : .mark key ∉ s.main := fun hmark => by
        rw [hmain] at hmark
        exact hrest ⟨_, List.mem_of_ne_of_mem Op.noConfusion hmark, rfl⟩
      have hsettled := h.core.settled key b hb hcom hfailed hsave
      exact h.core.safe hb hsettled (hsettled.covered hmark hdirty)

/-- What a save leaves of `Control.reached`, when a flush does not wait for a save that fails. -/
theorem failed_setFailed_of_save {failed : Bool} (hok : failed = true → .capture key ∉ rest)
    (k : Key) :
    (Op.save key ≠ .save k → (g.trace k).failed = false →
      ((g.setFailed key failed).trace k).failed = false) ∧
    (Op.save key = .save k → .capture k ∈ rest →
      ((g.setFailed key failed).trace k).failed = false) := by
  rw [failed_setFailed]
  constructor
  · intro hne hfailed
    rwa [if_neg (by rintro rfl; exact hne rfl)]
  · intro heq hcapture
    obtain rfl := Op.save.inj heq
    rw [if_pos rfl, ← Bool.not_eq_true]
    exact fun hfailed => hok hfailed hcapture

theorem Inv.save_ok (h : Inv s g) (hmain : s.main = .save key :: rest)
    (hb : s.bindings[key]? = some b) (hcur : Saveable (s.memory key))
    (hshared : ∀ e ∈ s.bindings.toList, e.1 ≠ key → e.2.session ≠ (g.trace key).session)
    (now : Time) (interval days : ℤ) :
    Inv { s.setRow b.session (saveTx (s.memory key) now interval days (s.rows b.session)) with
        main := .mark key :: rest } (g.setFailed key false) where
  core := h.core.save_ok hmain hb hcur hshared now interval days
  control := by
    refine h.control.main (n := [.mark key]) hmain rfl rfl (fun _ b' hb' => ⟨b', hb', rfl⟩)
      (fun _ => .inl) (call_setFailed ..) (fun k => commanded_setFailed ..)
      (fun k _ => failed_setFailed_of_save Bool.noConfusion k) (fun job hjob => ?_)
      (fun k hk => ?_) (fun k hk => ?_) id
    all_goals simp at *
  closing := by
    refine h.closing_main (n := [.mark key]) hmain rfl (fun _ b' hb' => ⟨b', hb', rfl⟩)
      (call_setFailed ..) (fun k => session_setFailed ..) (fun k => commanded_setFailed ..) rfl
      (fun k b' hb' hk => ?_) fun _ k _ _ hk _ hpending _ => ?_
    · have hne : b'.session ≠ b.session := by
        rw [← h.core.session_eq key b hb]
        exact hshared (k, b') (Std.ExtTreeMap.mem_toList_iff_getElem?_eq_some.2 hb')
          fun heq => hk heq.symm
      rw [h.core.session_eq k b' hb']
      show Keeps _ (Function.update s.rows b.session _ b'.session)
      rw [Function.update_of_ne hne]
      exact .refl _
    · exact absurd ⟨.mark key, List.mem_cons_self, hk⟩ hpending

variable {f : Binding → Binding}

theorem Inv.modify (h : Inv s g) (hmain : s.main = op :: rest)
    (hf : ∀ b, (f b).session = b.session)
    (hcore : Core { s.modifyBinding key f with main := rest } g') (hcall : g'.call = g.call)
    (hsession : ∀ k, (g'.trace k).session = (g.trace k).session)
    (hcommanded : ∀ k, (g'.trace k).commanded = (g.trace k).commanded)
    (hfailed : ∀ k, .capture k ∈ s.main →
      (op ≠ .save k → (g.trace k).failed = false → (g'.trace k).failed = false) ∧
      (op = .save k → .capture k ∈ rest → (g'.trace k).failed = false))
    (hwaits : Waits (op :: rest) → Waits rest)
    (hopens : g.call ≠ none → ∀ (k : Key) (b : Binding), s.bindings[k]? = some b → op.Opens k →
      (g.trace k).commanded = true → Pending rest k) :
    Inv { s.modifyBinding key f with main := rest } g' where
  core := hcore
  control := h.control.main (n := []) hmain rfl (modifyBinding_thread ..)
    (fun _ _ hb' => exists_of_modifyBinding hf hb')
    (fun _ hk => .inl (eq_none_of_modifyBinding hk)) hcall hcommanded hfailed
    (fun _ hjob => absurd hjob List.not_mem_nil) (fun _ hk => absurd hk List.not_mem_nil)
    (fun _ => List.not_mem_nil) hwaits
  closing := h.closing_main (n := []) hmain rfl (fun _ _ hb' => exists_of_modifyBinding hf hb')
    hcall hsession hcommanded (modifyBinding_memory ..)
    (fun _ _ _ _ => by
      rw [modifyBinding_rows]
      exact .refl _)
    fun hc k b hb hk hcom _ hrest => absurd (hopens hc k b hb hk hcom) hrest

theorem Inv.save_error (h : Inv s g) (hmain : s.main = .save key :: rest)
    (hok : .capture key ∉ rest) (message : Text) :
    Inv { s.recordError key message with main := rest } (g.setFailed key true) := by
  refine h.modify hmain (fun _ => rfl) (h.core.save_error hmain message) (call_setFailed ..)
    (fun k => session_setFailed ..) (fun k => commanded_setFailed ..)
    (fun k _ => failed_setFailed_of_save (fun _ => hok) k) And.right fun hc k b _ hk _ => ?_
  -- a flush captures the generation after its save
  have hwaits := h.control.waits hc
  rw [hmain] at hwaits
  exact absurd hwaits.1 hok

theorem Inv.save_unbound (h : Inv s g) (hmain : s.main = .save key :: rest)
    (hnone : s.bindings[key]? = none) {failed : Bool} (hok : failed = true → .capture key ∉ rest) :
    Inv { s with main := rest } (g.setFailed key failed) := by
  have hsame : s.modifyBinding key id = s := by rw [State.modifyBinding, hnone]
  have hmodify : Inv { s.modifyBinding key id with main := rest } (g.setFailed key failed) := by
    refine h.modify hmain (fun _ => rfl) ?_ (call_setFailed ..) (fun k => session_setFailed ..)
      (fun k => commanded_setFailed ..) (fun k _ => failed_setFailed_of_save hok k) And.right
      fun _ k b hb hk _ => ?_
    · rw [hsame]
      exact h.core.unbound hmain hnone failed
    · obtain rfl : key = k := hk
      cases hb.symm.trans hnone
  rwa [hsame] at hmodify

theorem Inv.mark (h : Inv s g) (hmain : s.main = .mark key :: rest)
    (hgen : ∀ job ∈ s.jobs, job.key = key →
      some job.gen ≠ s.bindings[key]?.map fun b => (b.writeGen + 1) % u64Size) :
    Inv { s.modifyBinding key fun b =>
      { b with dirty := true, writeGen := (b.writeGen + 1) % u64Size, lastError := none } with
        main := rest } g := by
  refine h.modify hmain (fun _ => rfl) (h.core.mark hmain hgen) rfl (fun _ => rfl) (fun _ => rfl)
    (fun k _ => ⟨fun _ => id, fun heq => Op.noConfusion heq⟩) And.right
    fun hc k b _ hk _ => ?_
  have hwaits := h.control.waits hc
  rw [hmain] at hwaits
  exact ⟨_, hwaits.1, hk⟩

theorem Inv.clear (h : Inv s g) (hmain : s.main = .clear job :: rest) :
    Inv { s.modifyBinding job.key fun b =>
      if b.writeGen = job.gen then { b with dirty := false } else b with main := rest } g := by
  refine h.modify hmain (fun b => ?_) (h.core.clear ?_ (fun k => ?_) fun op hop => ?_)
    rfl (fun _ => rfl) (fun _ => rfl) (fun k _ => ⟨fun _ => id, fun heq => Op.noConfusion heq⟩) id
    fun _ k b _ hk _ => absurd hk id
  · split_ifs <;> rfl
  · rw [mem_ops, hmain]
    exact .inl List.mem_cons_self
  · rw [hmain]
    simp
  · rw [modifyBinding_thread] at hop
    rw [State.ops, hmain]
    exact List.mem_cons_of_mem _ hop

section

variable (h : Inv s g) (hmain : s.main = .snapshot job :: rest)

include h hmain

/-- A snapshot of the flush is of a settled binding, unless a save of it is still to come. -/
theorem Inv.settled_of_snapshot (hb : s.bindings[job.key]? = some b)
    (hcom : (g.trace job.key).commanded = true) (hrest : ¬ Pending rest job.key) :
    Settled s job.key b ∧ job.session = b.session := by
  have hmem : .snapshot job ∈ s.main := hmain ▸ List.mem_cons_self
  have hsave : .save job.key ∉ s.main := fun hsave => by
    rw [hmain] at hsave
    exact hrest ⟨_, List.mem_of_ne_of_mem Op.noConfusion hsave, rfl⟩
  have hfailed := h.control.reached job.key (.inr ⟨job, hmem, rfl⟩) hsave hcom
  exact ⟨h.core.settled job.key b hb hcom hfailed hsave, h.control.own job hmem b hb⟩

theorem Inv.snapshot_ok (now : Time) :
    Inv { s.setRow job.session (pruneSnapshots (writeSnapshot now (s.rows job.session))) with
        main := .clear job :: rest } g where
  core := by
    refine h.core.snapshot (mem_ops.2 (.inl (hmain ▸ List.mem_cons_self))) now (fun k => ?_)
      fun op hop => ?_
    · rw [hmain]
      simp
    · obtain rfl | hop := List.mem_cons.1 hop
      · exact .inr rfl
      · rw [State.ops, hmain]
        exact .inl (List.mem_cons_of_mem _ hop)
  control := by
    refine h.control.main (n := [.clear job]) hmain rfl rfl (fun _ b' hb' => ⟨b', hb', rfl⟩)
      (fun _ => .inl) rfl (fun _ => rfl)
      (fun k _ => ⟨fun _ => id, fun heq => Op.noConfusion heq⟩) (fun job hjob => ?_)
      (fun k hk => ?_) (fun k hk => ?_) id
    all_goals simp at *
  closing := by
    obtain ⟨hist, hsound⟩ := h.core.sound job.session
    obtain ⟨-, hkeeps, hhas⟩ := keeps_snapshot hsound now
    have hrow : ∀ u, Keeps (s.rows u) (Function.update s.rows job.session
        (pruneSnapshots (writeSnapshot now (s.rows job.session))) u) := by
      intro u
      rcases eq_or_ne u job.session with rfl | hu
      · rwa [Function.update_self]
      · rw [Function.update_of_ne hu]
        exact .refl _
    refine h.closing_main (n := [.clear job]) hmain rfl (fun _ b' hb' => ⟨b', hb', rfl⟩) rfl
      (fun _ => rfl) (fun _ => rfl) rfl (fun k b _ _ => hrow _)
      fun _ k b hb hk hcom _ hrest => ?_
    obtain rfl : job.key = k := hk
    obtain ⟨hsettled, hsession⟩ := h.settled_of_snapshot hmain hb hcom hrest
    rw [Safe, h.core.session_eq job.key b hb, ← hsession]
    refine ⟨(hrow job.session).head_eq.trans (hsession ▸ hsettled.head_eq), ?_⟩
    show HasSnapshot (Function.update s.rows job.session _ job.session)
    rwa [Function.update_self]

theorem Inv.snapshot_notFound (hseq : (s.rows job.session).commandSeq = 0) :
    Inv { s.recordError job.key notFoundMessage with main := rest } g := by
  refine h.modify hmain (fun _ => rfl)
    (h.core.recordError job.key notFoundMessage (fun k _ => ?_) fun op hop => ?_) rfl (fun _ => rfl)
    (fun _ => rfl) (fun k _ => ⟨fun _ => id, fun heq => Op.noConfusion heq⟩) id
    fun _ k b hb hk hcom => ?_
  · rw [hmain]
    simp
  · rw [modifyBinding_thread] at hop
    rw [State.ops, hmain]
    exact List.mem_cons_of_mem _ hop
  · obtain rfl : job.key = k := hk
    by_contra hrest
    obtain ⟨hsettled, hsession⟩ := h.settled_of_snapshot hmain hb hcom hrest
    exact hsettled.seq_ne (hsession ▸ hseq)

end

theorem Inv.remove (h : Inv s g) (hmain : s.main = .remove key :: rest) :
    Inv { s with bindings := s.bindings.erase key, main := rest } g := by
  have hget : ∀ k, (s.bindings.erase key)[k]? = if k = key then none else s.bindings[k]? := by
    intro k
    rw [Std.ExtTreeMap.getElem?_erase]
    simp only [compare_eq_iff_eq, eq_comm (a := k)]
  have hbindings : ∀ (k : Key) (b' : Binding), (s.bindings.erase key)[k]? = some b' →
      ∃ b : Binding, s.bindings[k]? = some b ∧ b'.session = b.session := by
    intro k b' hb'
    rw [hget] at hb'
    split_ifs at hb'
    exact ⟨b', hb', rfl⟩
  refine ⟨h.core.remove hmain, ?_, ?_⟩
  · refine h.control.main (n := []) hmain rfl rfl hbindings (fun k hk => ?_) rfl (fun _ => rfl)
      (fun k _ => ⟨fun _ => id, fun heq => Op.noConfusion heq⟩)
      (fun _ hjob => absurd hjob List.not_mem_nil) (fun _ hk => absurd hk List.not_mem_nil)
      (fun _ => List.not_mem_nil) id
    rw [hget] at hk
    split_ifs at hk with heq
    · exact .inr ⟨heq ▸ rfl, rfl⟩
    · exact .inl hk
  · exact h.closing_main (n := []) hmain rfl hbindings rfl (fun _ => rfl) (fun _ => rfl) rfl
      (fun _ _ _ _ => .refl _) fun _ k _ _ hk _ _ _ => absurd hk id

/-- The main thread goes on. -/
theorem Inv.main (h : Inv s g) (hmain : s.main = op :: rest) (ans : Answer)
    (hok : AllowedOp s g rest op ans) :
    Inv { (exec s ans op).1 with main := (exec s ans op).2 ++ rest } (record (s, g) (.main ans)) := by
  cases op with
  | save key =>
    rcases hb : s.bindings[key]? with _ | b
    · cases ans with
      | ok now interval days =>
        simp only [exec, hb, record, hmain]
        exact h.save_unbound hmain hb Bool.noConfusion
      | error message =>
        simp only [exec, hb, record, hmain]
        exact h.save_unbound hmain hb fun _ => hok
    · cases ans with
      | ok now interval days =>
        simp only [exec, hb, record, hmain]
        exact h.save_ok hmain hb hok.1 hok.2 now interval days
      | error message =>
        simp only [exec, hb, record, hmain]
        exact h.save_error hmain hok message
  | mark key =>
    simp only [exec, record, hmain]
    exact h.mark hmain hok
  | check key =>
    simp only [exec, record, hmain]
    rcases hb : s.bindings[key]? with _ | b
    · exact h.check hmain hok (.inr ⟨rfl, fun b hb' => by cases hb.symm.trans hb'⟩)
    · refine h.check hmain hok ?_
      dsimp only
      split_ifs with hdirty
      · exact .inl rfl
      · refine .inr ⟨rfl, fun b' hb' => ?_⟩
        rw [← Option.some.inj (hb.symm.trans hb')]
        exact Bool.not_eq_true _ ▸ hdirty
  | capture key =>
    simp only [exec, record, hmain]
    rcases hb : s.bindings[key]? with _ | b
    · refine h.quiet (n := []) hmain (fun k => ⟨Op.noConfusion, Op.noConfusion⟩)
        (fun _ hjob => absurd hjob List.not_mem_nil) (fun _ => List.not_mem_nil)
        (fun _ hk => absurd hk List.not_mem_nil) (fun _ => List.not_mem_nil) id s.stop
        fun _ k b hb' hk => ?_
      obtain rfl : key = k := hk
      cases hb.symm.trans hb'
    · refine h.quiet (n := [.snapshot ⟨key, b.session, b.writeGen⟩]) hmain
        (fun k => ⟨Op.noConfusion, Op.noConfusion⟩) (fun job hjob => ?_) (fun job hjob => ?_)
        (fun k hk => ?_) (fun k hk => ?_) id s.stop fun _ k b' hb' hk _ hpending => ?_
      · obtain rfl := Op.snapshot.inj (List.mem_singleton.1 hjob)
        exact ⟨rfl, rfl, fun b' hb' => by rw [Option.some.inj (hb.symm.trans hb')]⟩
      · cases List.mem_singleton.1 hjob
      · cases List.mem_singleton.1 hk
      · cases List.mem_singleton.1 hk
      · exact absurd ⟨_, List.mem_cons_self, hk⟩ hpending
  | snapshot job =>
    cases ans with
    | ok now interval days =>
      simp only [exec, record, hmain]
      by_cases hseq : (s.rows job.session).commandSeq = 0
      · rw [if_pos hseq]
        exact h.snapshot_notFound hmain hseq
      · rw [if_neg hseq]
        exact h.snapshot_ok hmain now
    | error message => exact hok.elim
  | clear job =>
    simp only [exec, record, hmain]
    exact h.clear hmain
  | remove key =>
    simp only [exec, record, hmain]
    exact h.remove hmain
  | stop =>
    simp only [exec, record, hmain]
    refine h.quiet (n := []) hmain (fun k => ⟨Op.noConfusion, Op.noConfusion⟩)
      (fun _ hjob => absurd hjob List.not_mem_nil) (fun _ => List.not_mem_nil)
      (fun _ hk => absurd hk List.not_mem_nil) (fun _ => List.not_mem_nil) And.right true
      fun hc k _ _ _ _ _ hrest => absurd ?_ hrest
    have hwaits := h.control.waits hc
    rw [hmain] at hwaits
    exact ⟨_, hwaits.1, trivial⟩
  | join =>
    simp only [exec, record, hmain]
    refine h.quiet hmain (fun k => ⟨Op.noConfusion, Op.noConfusion⟩) (fun job hjob => ?_)
      (fun job hjob => ?_) (fun k hk => ?_) (fun k hk => ?_) (fun hwaits => ?_) s.stop
      fun hc k _ _ _ _ _ hrest => absurd ?_ hrest
    · split_ifs at hjob <;> simp at hjob
    · split_ifs at hjob <;> simp at hjob
    · split_ifs at hk <;> simp at hk
    · split_ifs at hk <;> simp at hk
    · split_ifs
      · exact hwaits.2
      · exact hwaits
    · have hwaits := h.control.waits hc
      rw [hmain] at hwaits
      exact ⟨_, hwaits.1, trivial⟩
  | drain =>
    simp only [exec, record, hmain]
    refine h.quiet hmain (fun k => ⟨Op.noConfusion, Op.noConfusion⟩) (fun job hjob => ?_)
      (fun job hjob => ?_) (fun k hk => ?_) (fun k hk => ?_)
      (fun hwaits => waits_checks hwaits) s.stop fun _ k b hb _ _ hpending => ?_
    · simp at hjob
    · simp at hjob
    · simp at hk
    · simp at hk
    · refine absurd ⟨.check k, List.mem_map_of_mem ?_, rfl⟩ hpending
      exact Std.ExtTreeMap.mem_keys.2 (Std.ExtTreeMap.mem_iff_isSome_getElem?.2 (by rw [hb]; rfl))

/-- What the snapshot thread does leaves the main thread and the safe projects as they are. -/
theorem Inv.of_thread (h : Inv s g) (hcore : Core s' g) (hmain : s'.main = s.main)
    (hmemory : s'.memory = s.memory) (hjobs : ∀ op ∈ s'.thread.getD [], op.job?.isSome = true)
    (hbindings : ∀ (k : Key) (b' : Binding), s'.bindings[k]? = some b' →
      ∃ b : Binding, s.bindings[k]? = some b ∧ b'.session = b.session)
    (hgone : ∀ k : Key, s'.bindings[k]? = none → s.bindings[k]? = none)
    (hrows : ∀ u, Keeps (s.rows u) (s'.rows u)) : Inv s' g where
  core := hcore
  control := by
    refine ⟨hjobs, ?_, fun job hjob b' hb' => ?_, ?_, ?_, fun k hk hnone => ?_, ?_⟩
    · rw [hmain]
      exact h.control.snapshot_first
    · rw [hmain] at hjob
      obtain ⟨b, hb, hsession⟩ := hbindings job.key b' hb'
      rw [hsession]
      exact h.control.own job hjob b hb
    · rw [hmain]
      exact h.control.reached
    · rw [hmain]
      exact h.control.remove_last
    · rw [hmain]
      exact h.control.gone k hk (hgone k hnone)
    · rw [hmain]
      exact h.control.waits
  closing := by
    intro call hc key hcloses hcom hpending
    rw [hmain] at hpending
    refine (h.closing call hc key ?_ hcom hpending).mono rfl (by rw [hmemory]) (hrows _)
    cases call with
    | unbind key' => exact hcloses
    | flushAll =>
      obtain ⟨b', hb'⟩ := Option.isSome_iff_exists.1 hcloses
      obtain ⟨b, hb, -⟩ := hbindings key b' hb'
      exact Option.isSome_iff_exists.2 ⟨b, hb⟩

theorem Inv.thread_modify (h : Inv s g) (hthread : s.thread = some (op :: rest))
    (hf : ∀ b, (f b).session = b.session)
    (hcore : Core { s.modifyBinding key f with main := s.main, thread := some rest } g) :
    Inv { s.modifyBinding key f with thread := some rest } g := by
  have hsame : { s.modifyBinding key f with main := s.main, thread := some rest } =
      { s.modifyBinding key f with thread := some rest } := by simp only [modifyBinding_main]
  rw [← hsame]
  refine h.of_thread hcore rfl (modifyBinding_memory ..) (fun op' hop' => ?_)
    (fun _ _ hb' => exists_of_modifyBinding hf hb') (fun _ hk => eq_none_of_modifyBinding hk)
    fun u => ?_
  · refine h.control.thread_jobs op' ?_
    rw [hthread]
    exact List.mem_cons_of_mem op hop'
  · rw [modifyBinding_rows]
    exact .refl _

/-- The snapshot thread goes on. -/
theorem Inv.thread (h : Inv s g) (hthread : s.thread = some (op :: rest)) (ans : Answer) :
    Inv { (exec s ans op).1 with thread := some ((exec s ans op).2 ++ rest) } g := by
  have hmem : op ∈ s.thread.getD [] := by
    rw [hthread]
    exact List.mem_cons_self
  have hrest : ∀ op' ∈ s.main ++ (some rest).getD [], op' ∈ s.ops := by
    intro op' hop'
    rw [State.ops, hthread, List.mem_append]
    exact (List.mem_append.1 hop').imp_right fun hop' => List.mem_cons_of_mem op hop'
  have hjob := h.control.thread_jobs op hmem
  cases op with
  | snapshot job =>
    cases ans with
    | ok now interval days =>
      simp only [exec]
      by_cases hseq : (s.rows job.session).commandSeq = 0
      · rw [if_pos hseq]
        exact h.thread_modify hthread (fun _ => rfl)
          (h.core.recordError job.key notFoundMessage (fun _ _ => ⟨id, id⟩) hrest)
      · rw [if_neg hseq]
        obtain ⟨hist, hsound⟩ := h.core.sound job.session
        refine h.of_thread (h.core.snapshot (mem_ops.2 (.inr hmem)) now (fun _ => ⟨id, id⟩)
          fun op' hop' => ?_) rfl rfl (fun op' hop' => ?_) (fun _ b' hb' => ⟨b', hb', rfl⟩)
          (fun _ => id) fun u => ?_
        · obtain hop' | hop' := List.mem_append.1 hop'
          · exact .inl (mem_ops.2 (.inl hop'))
          · obtain rfl | hop' := List.mem_cons.1 hop'
            · exact .inr rfl
            · exact .inl (hrest op' (List.mem_append_right _ hop'))
        · obtain rfl | hop' := List.mem_cons.1 hop'
          · rfl
          · refine h.control.thread_jobs op' ?_
            rw [hthread]
            exact List.mem_cons_of_mem _ hop'
        · show Keeps _ (Function.update s.rows job.session _ u)
          rcases eq_or_ne u job.session with rfl | hu
          · rw [Function.update_self]
            exact (keeps_snapshot hsound now).2.1
          · rw [Function.update_of_ne hu]
            exact .refl _
    | error message =>
      simp only [exec]
      exact h.thread_modify hthread (fun _ => rfl)
        (h.core.recordError job.key message (fun _ _ => ⟨id, id⟩) hrest)
  | clear job =>
    simp only [exec]
    refine h.thread_modify hthread (fun b => ?_)
      (h.core.clear (mem_ops.2 (.inr hmem)) (fun _ => ⟨id, id⟩) hrest)
    split_ifs <;> rfl
  | _ => cases hjob

/-- The main thread is idle or begins with something: no project is closed yet. -/
theorem Inv.of_call (hcore : Core s g)
    (hthread : ∀ op ∈ s.thread.getD [], op.job?.isSome = true)
    (hsnapshot : ∀ job, .snapshot job ∉ s.main) (hcapture : ∀ k, .capture k ∉ s.main)
    (hremove : ∀ k, .remove k ∉ s.main.dropLast)
    (hbound : ∀ key, g.call = some (.unbind key) → s.bindings[key]? ≠ none)
    (hwaits : g.call ≠ none → Waits s.main)
    (hopens : ∀ call, g.call = some call → ∀ key, Pending s.main key ∨ ¬ Closes s key call) :
    Inv s g where
  core := hcore
  control := by
    refine ⟨hthread, fun job hjob => hsnapshot job (List.mem_of_mem_tail hjob),
      fun job hjob => absurd hjob (hsnapshot job), fun k hk => ?_, hremove,
      fun key hcall hnone => absurd hnone (hbound key hcall), hwaits⟩
    obtain hk | ⟨job, hjob, -⟩ := hk
    · exact absurd hk (hcapture k)
    · exact absurd hjob (hsnapshot job)
  closing call hcall key hcloses _ hpending :=
    absurd hcloses ((hopens call hcall key).resolve_left hpending)

theorem Core.call (h : Core s g) (hidle : s.main = []) {main : List Op}
    (hmain : ∀ op ∈ main, op.job? = none) (call : Option Call) :
    Core { s with main } { g with call } := by
  have hcore : Core { s with main } g := by
    refine h.mono rfl rfl (fun k b' hb' => ⟨b', hb', rfl, rfl, rfl⟩) (fun k _ _ _ => ?_)
      fun job => ⟨fun hjob => .inl ?_, fun hjob => ?_⟩
    · rw [hidle]
      exact ⟨fun _ => List.not_mem_nil, fun _ => List.not_mem_nil⟩
    all_goals
      obtain hjob | hjob := List.mem_append.1 hjob
      · cases hmain _ hjob
      · exact mem_ops.2 (.inr hjob)
  exact ⟨hcore.sound, hcore.session_eq, hcore.settled⟩

/-- What one allowed step keeps. -/
theorem Inv.act (h : Inv s g) (step : Step) (hok : Allowed (s, g) step) :
    Inv (act s step) (record (s, g) step) := by
  cases step with
  | command memory =>
    by_cases hidle : s.main = []
    · simp only [WriteThrough.act, record, if_pos hidle]
      refine .of_call (h.core.command memory fun k => ?_) h.control.thread_jobs ?_ ?_ ?_ ?_ ?_ ?_
      · dsimp only
        split_ifs <;> rfl
      · simp
      · simp
      · exact fun k hk => by simpa using List.mem_of_mem_dropLast hk
      all_goals simp
    · simp only [WriteThrough.act, record, if_neg hidle]
      exact h
  | bind key session =>
    by_cases hidle : s.main = [] ∧ s.bindings[key]? = none
    · simp only [WriteThrough.act, record, if_pos hidle]
      refine .of_call (h.core.bind key session _ _ rfl rfl) h.control.thread_jobs ?_ ?_ ?_ ?_ ?_ ?_
      all_goals simp [hidle.1]
    · simp only [WriteThrough.act, record, if_neg hidle]
      exact h
  | unbind key =>
    by_cases hidle : s.main = []
    · simp only [WriteThrough.act, record, if_pos hidle]
      refine .of_call (h.core.call hidle (by simp [Op.job?]) _) h.control.thread_jobs ?_ ?_ ?_
        (fun k hk => ?_) (fun _ => by simp [Waits]) fun call hcall k => ?_
      · simp
      · simp
      · simp
      · split_ifs at hk with hbound
        obtain rfl := Call.unbind.inj (Option.some.inj hk)
        exact Option.isSome_iff_ne_none.1 hbound
      · split_ifs at hcall
        obtain rfl := Option.some.inj hcall
        by_cases hk : key = k
        · exact .inl ⟨.check key, List.mem_cons_self, hk⟩
        · exact .inr hk
    · simp only [WriteThrough.act, record, if_neg hidle]
      exact h
  | flushAll =>
    by_cases hidle : s.main = []
    · simp only [WriteThrough.act, record, if_pos hidle]
      refine .of_call (h.core.call hidle (by simp [Op.job?]) _) h.control.thread_jobs ?_ ?_ ?_ ?_
        (fun _ => by simp [Waits]) fun call _ k => .inl ⟨.stop, List.mem_cons_self, trivial⟩
      all_goals simp
    · simp only [WriteThrough.act, record, if_neg hidle]
      exact h
  | main ans =>
    rcases hmain : s.main with _ | ⟨op, rest⟩
    · simp only [WriteThrough.act, record, hmain]
      exact h
    · have hop : AllowedOp s g rest op ans := by simpa only [Allowed, hmain] using hok
      have hnext := h.main hmain ans hop
      simpa only [WriteThrough.act, hmain] using hnext
  | wake =>
    by_cases hwait : s.thread = some []
    · simp only [WriteThrough.act, record, if_pos hwait]
      have hjobs : ∀ op ∈ (if s.stop then none else some (dirtyJobs s)).getD [],
          op ∈ dirtyJobs s := by
        intro op hop
        split_ifs at hop
        · cases hop
        · exact hop
      refine h.of_thread (h.core.wake hjobs) rfl rfl (fun op hop => ?_)
        (fun _ b' hb' => ⟨b', hb', rfl⟩) (fun _ => id) fun _ => .refl _
      obtain ⟨key, b, -, rfl⟩ := snapshot_mem_dirtyJobs (hjobs op hop)
      rfl
    · simp only [WriteThrough.act, record, if_neg hwait]
      exact h
  | thread ans =>
    rcases hthread : s.thread with _ | _ | ⟨op, rest⟩
    · simp only [WriteThrough.act, record, hthread]
      exact h
    · simp only [WriteThrough.act, record, hthread]
      exact h
    · simp only [WriteThrough.act, record, hthread]
      exact h.thread hthread ans

end Inv

/-! ### Runs -/

variable (memory : Key → ProjectState) (prior : Session → List Action)

/-- Nothing is bound yet. The rows of the library are what earlier saves left. -/
def State.new : State where
  memory
  bindings := ∅
  rows u := (runFrom u.uuid (prior u)).1
  main := []
  thread := none
  stop := false

def Ghost.new : Ghost := ⟨fun _ => ⟨⟨[], []⟩, false, false⟩, none⟩

/-- The state after a run, with what it remembers. -/
def runSteps (steps : List Step) : State × Ghost :=
  Oak.Lib.run (Oak.Lib.shadow act record) (State.new memory prior, Ghost.new) steps

/-- The steps of the run are allowed. -/
def AllAllowed (steps : List Step) : Prop :=
  Permitted (Oak.Lib.shadow act record) Allowed (State.new memory prior, Ghost.new) steps

instance (memory : Key → ProjectState) (prior : Session → List Action) (steps : List Step) :
    Decidable (AllAllowed memory prior steps) :=
  Permitted.decidable _ steps

theorem Inv.new {prior : Session → List Action} (hprior : ∀ u, ∀ a ∈ prior u, a.Saveable) :
    Inv (.new memory prior) .new := by
  have hnone : ∀ k : Key, (State.new memory prior).bindings[k]? = none := fun k =>
    Std.ExtTreeMap.getElem?_empty
  refine .of_call ⟨fun u => ⟨_, Sound.run u.uuid (hprior u)⟩, fun k b hb => ?_,
    fun k b hb => ?_⟩ (fun op hop => absurd hop List.not_mem_nil) (fun _ => List.not_mem_nil)
    (fun _ => List.not_mem_nil) (fun _ => List.not_mem_nil) (fun _ hcall => ?_)
    (fun _ => trivial) fun call hcall => ?_
  · cases (hnone k).symm.trans hb
  · cases (hnone k).symm.trans hb
  · cases hcall
  · cases hcall

/-- After every run of allowed steps, a call that has returned has left every project that it
closed, and that saw a command, in the library as it is in memory, with a snapshot of it. -/
theorem closed_of_run (memory : Key → ProjectState) {prior : Session → List Action}
    (hprior : ∀ u, ∀ a ∈ prior u, a.Saveable) {steps : List Step}
    (hsteps : AllAllowed memory prior steps) :
    Closed (runSteps memory prior steps).1 (runSteps memory prior steps).2 := by
  have hinv : Inv (runSteps memory prior steps).1 (runSteps memory prior steps).2 :=
    Oak.Lib.invariant_run (I := fun t : State × Ghost => Inv t.1 t.2)
      (fun t step h hok => h.act step hok) (Inv.new memory hprior) hsteps
  intro call hcall hidle key hcloses hcom
  refine hinv.closing call hcall key hcloses hcom ?_
  rintro ⟨op, hop, -⟩
  rw [hidle] at hop
  cases hop

/-! ### A save that failed -/

def sampleSession : Session := ⟨"oakdb+sqlite:///library.db".toList, sampleUuid⟩

/-- The database works. -/
def working : Step := .main (.ok 0 600 0)

/-- A project is bound and changed. -/
def sampleOpened : List Step := [.bind 0 sampleSession, .command fun _ => sampleState 'a']

/-- The exit flush stops the snapshot thread and looks at the binding. -/
def sampleFlush : List Step := [.flushAll, working, .wake, working, working, working]

/-- The save of the command fails; the database works again when the flush begins. -/
def lostRun : List Step := sampleOpened ++ [.main (.error "locked".toList)] ++ sampleFlush

/-- Every save succeeds, and the flush saves again and takes its snapshot. -/
def safeRun : List Step :=
  sampleOpened ++ [working, working] ++ sampleFlush ++ List.replicate 5 working

/-- The flush returns, but the binding was never marked: nothing is in the library. -/
theorem lostRun_not_closed : ¬ Closed (runSteps (fun _ => .empty) (fun _ => []) lostRun).1
    (runSteps (fun _ => .empty) (fun _ => []) lostRun).2 := by
  have hrun : (runSteps (fun _ => .empty) (fun _ => []) lostRun).2.call = some .flushAll ∧
      (runSteps (fun _ => .empty) (fun _ => []) lostRun).1.main = [] ∧
      (runSteps (fun _ => .empty) (fun _ => []) lostRun).1.bindings[0]?.isSome = true ∧
      ((runSteps (fun _ => .empty) (fun _ => []) lostRun).2.trace 0).commanded = true ∧
      head ((runSteps (fun _ => .empty) (fun _ => []) lostRun).1.rows
        ((runSteps (fun _ => .empty) (fun _ => []) lostRun).2.trace 0).session) ≠
      (runSteps (fun _ => .empty) (fun _ => []) lostRun).1.memory 0 := by
    decide
  obtain ⟨hcall, hidle, hbound, hcommanded, hne⟩ := hrun
  exact fun hclosed => hne (hclosed .flushAll hcall hidle 0 hbound hcommanded).1

theorem closed_of_run_safeRun :
    head ((runSteps (fun _ => .empty) (fun _ => []) safeRun).1.rows sampleSession) =
      sampleState 'a' ∧
    HasSnapshot ((runSteps (fun _ => .empty) (fun _ => []) safeRun).1.rows sampleSession) := by
  have hrun : AllAllowed (fun _ => .empty) (fun _ => []) safeRun ∧
      (runSteps (fun _ => .empty) (fun _ => []) safeRun).2.call = some .flushAll ∧
      (runSteps (fun _ => .empty) (fun _ => []) safeRun).1.main = [] ∧
      (runSteps (fun _ => .empty) (fun _ => []) safeRun).1.bindings[0]?.isSome = true ∧
      (runSteps (fun _ => .empty) (fun _ => []) safeRun).2.trace 0 =
        ⟨sampleSession, true, false⟩ ∧
      (runSteps (fun _ => .empty) (fun _ => []) safeRun).1.memory 0 = sampleState 'a' := by
    decide +kernel
  obtain ⟨hsteps, hcall, hidle, hbound, htrace, hmemory⟩ := hrun
  have hclosed := closed_of_run (fun _ => .empty) (fun _ a ha => absurd ha List.not_mem_nil) hsteps
  generalize runSteps (fun _ => .empty) (fun _ => []) safeRun = t at *
  obtain ⟨hhead, hhas⟩ := hclosed .flushAll hcall hidle 0 hbound (congrArg Trace.commanded htrace)
  rw [htrace] at hhead hhas
  exact ⟨hhead.trans hmemory, hhas⟩

end Oak.Storage.WriteThrough
