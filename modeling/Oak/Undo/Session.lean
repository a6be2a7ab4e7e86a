import Oak.Undo.Stack
import Oak.Lib.Machine

/-!
# Editing sessions

A session is an undo stack with the document its commands change. Its actions are the calls of
`UndoStack`; a caller that has run a command itself hands the document it reached over with
`push_pre_executed`.

`track` follows a session by the history it should have made (`Oak.Lib.History`): a push records
one row, `undo`, `redo` and `jump` move the position, and `clear` opens a new history.

## Main results

* `lawful_run`: after every run whose commands are reversible, the stack represents the history
  and the document is the one recorded at the current position (`Lawful`).
* `undo_history_law`: what follows for the next action.
* `jump_stops_above_empty`: the empty command of the bottom row is no command of a history.
-/

namespace Oak.Undo

open Oak.Lib Oak.Lib.Reversible UndoCommand UndoStack

variable {C D : Type*}

/-- An undo stack and the document its commands change. -/
structure Session (C D : Type*) where
  stack : UndoStack C
  doc : D

/-- The calls of an undo stack. `handed` is the document in which the caller hands a command
over; it differs from the current one where the caller has run the command already. -/
inductive Action (C D : Type*) where
  | push (command : UndoCommand C) (name : String) (handed : D)
  | pushPreExecuted (command : UndoCommand C) (name : String) (handed : D)
  | undo
  | redo
  | jump (index : ℤ)
  | clear

/-- A command that overwrites the document and keeps what was there, as the marker commands of
`marker.rs` do. -/
structure Overwrite (D : Type*) where
  value : D
  old : D

namespace Overwrite

instance : Command (Overwrite D) D where
  redo c d := ({ c with old := d }, c.value)
  undo c _ := (c, c.old)

theorem alternates (d d' : D) :
    Alternates (fun c : Overwrite D => c.value = d') (fun c => c = ⟨d', d⟩) d d' := by
  constructor
  · rintro c rfl
    exact ⟨rfl, rfl⟩
  · rintro _ rfl
    exact ⟨rfl, rfl⟩

theorem before (c : Overwrite D) (d : D) : Before c d c.value :=
  before_of_alternates (alternates d c.value) rfl

theorem after (d d' : D) : After (⟨d', d⟩ : Overwrite D) d d' :=
  after_of_alternates (alternates d d') rfl

end Overwrite

variable {s : Session C D} {h : History D}

namespace Session

/-- A new stack on a document. -/
def start (d : D) : Session C D := ⟨.new, d⟩

variable [Command C D]

/-- One call. -/
def act (s : Session C D) : Action C D → Session C D
  | .push command name handed =>
    ⟨(s.stack.push command name handed).1, (s.stack.push command name handed).2⟩
  | .pushPreExecuted command name handed => ⟨s.stack.pushPreExecuted command name, handed⟩
  | .undo => ⟨(s.stack.undo s.doc).1, (s.stack.undo s.doc).2⟩
  | .redo => ⟨(s.stack.redo s.doc).1, (s.stack.redo s.doc).2⟩
  | .jump index => ⟨(s.stack.jump index s.doc).1, (s.stack.jump index s.doc).2⟩
  | .clear => ⟨s.stack.clear, s.doc⟩

/-- The undo of a pushed command inverts its redo, and it is not the empty command of the bottom
row. -/
def Reverses (s : Session C D) : Action C D → Prop
  | .push command _ handed => HandedOver command s.doc handed
  | .pushPreExecuted command _ handed => Applied (command.setDone true) s.doc handed
  | _ => True

/-- The history after one call, given the document it reached. -/
def advance (h : History D) (reached : D) : Action C D → History D
  | .push command _ _ => if command.isVoid then h else h.record kMaxUndoCommands reached
  | .pushPreExecuted command _ _ => if command.isVoid then h else h.record kMaxUndoCommands reached
  | .undo => h.seek (h.position - 1)
  | .redo => h.seek (h.position + 1)
  | .jump index => h.seek index.toNat
  | .clear => .opened reached

/-- One call, with the history alongside. -/
def track : Session C D × History D → Action C D → Session C D × History D :=
  shadow act fun t a => advance t.2 (t.1.act a).doc a

/-- The stack represents the history, whose current document is the one at hand, and keeps its
limit. -/
structure Lawful (s : Session C D) (h : History D) : Prop where
  represents : Represents s.stack h
  doc : s.doc = h.now
  rows_le : h.rows ≤ kMaxUndoCommands

theorem lawful_clear (s : UndoStack C) (d : D) : Lawful ⟨s.clear, d⟩ (.opened d) := by
  refine ⟨⟨?_, ?_, fun i entry hi => ?_⟩, rfl, ?_⟩
  · exact Chain.cons_cons_iff.2 ⟨rfl, .nil d⟩
  · exact .nil _
  · rcases i with _ | i
    · obtain rfl : bottom = entry := by simpa [clear] using hi
      simp [bottom, UndoCommand.empty, UndoCommand.isEmpty, flags, History.opened]
    · simp [clear] at hi
  · simp [History.opened, History.rows, kMaxUndoCommands]

theorem Lawful.recordRow (hs : Lawful s h) {entry : CommandEntry C} {d' : D}
    (happ : Applied entry.command s.doc d') :
    Lawful ⟨s.stack.recordRow entry, d'⟩ (h.record kMaxUndoCommands d') := by
  have hrec := represents_recordRow hs.represents (hs.doc ▸ happ)
  have hrows := h.rows_record_le (h.position_le_rows.trans hs.rows_le) d'
  exact ⟨hrec, (h.now_record _ d').symm, hrows⟩

theorem Lawful.seek (hs : Lawful s h) (k : ℤ) :
    Lawful ⟨(s.stack.jump k s.doc).1, (s.stack.jump k s.doc).2⟩ (h.seek k.toNat) := by
  rw [hs.doc]
  obtain ⟨hr, hdoc⟩ := represents_jump hs.represents k
  exact ⟨hr, hdoc, h.rows_seek _ ▸ hs.rows_le⟩

theorem lawful_act {a : Action C D} (hs : Lawful s h) (ha : s.Reverses a) :
    Lawful (s.act a) (advance h (s.act a).doc a) := by
  obtain ⟨hr, hdoc, hrows⟩ := hs
  rcases a with ⟨c, name, d⟩ | ⟨c, name, d⟩ | _ | _ | k | _
  · have happ : Applied (c.redoNow d).1 s.doc (c.redoNow d).2 := HandedOver.redoNow ha
    by_cases hvoid : c.isVoid = true
    · obtain rfl := HandedOver.eq_of_isVoid ha hvoid
      simpa only [act, push, advance, hvoid, ↓reduceIte] using ⟨hr, hdoc, hrows⟩
    · simp only [act, push, advance, hvoid]
      exact Lawful.recordRow ⟨hr, hdoc, hrows⟩ happ
  · by_cases hvoid : c.isVoid = true
    · obtain rfl := Applied.eq_of_isVoid ha ((c.isVoid_setDone true).trans hvoid)
      simpa only [act, pushPreExecuted, advance, hvoid, ↓reduceIte] using ⟨hr, hdoc, hrows⟩
    · simp only [act, pushPreExecuted, advance, hvoid]
      exact Lawful.recordRow ⟨hr, hdoc, hrows⟩ ha
  · have hseek := Lawful.seek ⟨hr, hdoc, hrows⟩ (s.stack.doneCount - 1)
    have htarget : ((s.stack.doneCount : ℤ) - 1).toNat = h.position - 1 := by
      rw [hr.doneCount_eq]
      omega
    rw [jump_pred, htarget] at hseek
    exact hseek
  · have hseek := Lawful.seek ⟨hr, hdoc, hrows⟩ (s.stack.doneCount + 1)
    rw [jump_succ, hr.doneCount_eq] at hseek
    exact hseek
  · exact Lawful.seek ⟨hr, hdoc, hrows⟩ k
  · exact lawful_clear s.stack s.doc

/-- A run of reversible commands keeps the law. -/
theorem lawful_run {d : D} {as : List (Action C D)} (has : Permitted act Reverses (start d) as) :
    Lawful (run act (start d) as) (run track (start d, .opened d) as).2 := by
  have hpairs :
      Lawful (run track (start d, .opened d) as).1 (run track (start d, .opened d) as).2 :=
    invariant_run (I := fun t : Session C D × History D => Lawful t.1 t.2)
      (fun _ _ hs ha => lawful_act hs ha) (lawful_clear ⟨[], []⟩ d) (permitted_shadow.2 has)
  rwa [track, run_shadow_fst] at hpairs

/-! ### The history law -/

/-- What a session may rely on that has made the history `h`. -/
structure HistoryLaw (s : Session C D) (h : History D) : Prop where
  /-- The done rows lead in order from the base through the recorded documents. -/
  done : Chain RowDone s.stack.commands h.base h.done
  /-- The undone rows lead on from the current document. -/
  undone : Chain RowPending s.stack.undone s.doc h.undone
  /-- The current document is the one recorded at the current position. -/
  doc : s.doc = h.stateAt s.stack.doneCount
  commandCount_le : s.stack.commandCount ≤ kMaxUndoCommands
  /-- A push drops the undone rows and nothing else, but for the front row of a full stack. -/
  push : ∀ command name handed, command.isVoid = false →
    s.stack.RecordsAfter (s.act (.push command name handed)).stack
  pushPreExecuted : ∀ command name handed, command.isVoid = false →
    s.stack.RecordsAfter (s.act (.pushPreExecuted command name handed)).stack
  /-- A jump reaches the document recorded at its target, and drops no row. -/
  jump : ∀ k : ℤ, (s.act (.jump k)).doc = h.stateAt k.toNat
  jump_doneCount : ∀ k : ℤ,
    (s.act (.jump k)).stack.doneCount = min (max h.floor k.toNat) s.stack.commandCount
  jump_commandCount : ∀ k : ℤ, (s.act (.jump k)).stack.commandCount = s.stack.commandCount
  /-- `undo` and `redo` are the jumps by one row. -/
  undo : s.act .undo = s.act (.jump (s.stack.doneCount - 1))
  redo : s.act .redo = s.act (.jump (s.stack.doneCount + 1))
  undo_out : s.stack.doneCount ≤ h.floor → s.act .undo = s
  redo_out : s.stack.doneCount = s.stack.commandCount → s.act .redo = s

theorem Lawful.historyLaw (hs : Lawful s h) : HistoryLaw s h := by
  have hcount := hs.represents.commandCount_eq
  have hdone := hs.represents.doneCount_eq
  have hfull : s.stack.doneCount ≤ kMaxUndoCommands := by
    rw [hdone]
    exact h.position_le_rows.trans hs.rows_le
  refine ⟨hs.represents.done, ?_, ?_, hcount.le.trans hs.rows_le, ?_, ?_, ?_, ?_, ?_, ?_, ?_, ?_,
    ?_⟩
  · rw [hs.doc]
    exact hs.represents.undone
  · rw [hs.doc, hdone, h.stateAt_position]
  · intro command name handed hvoid
    simp only [act, UndoStack.push, hvoid, Bool.false_eq_true, ↓reduceIte]
    exact recordsAfter_recordRow hfull _
  · intro command name handed hvoid
    simp only [act, UndoStack.pushPreExecuted, hvoid, Bool.false_eq_true, ↓reduceIte]
    exact recordsAfter_recordRow hfull _
  · intro k
    exact (hs.seek k).doc.trans ((h.now_seek _).trans (hs.represents.stateAt_floor _))
  · intro k
    exact (hs.seek k).represents.doneCount_eq.trans (by rw [h.position_seek, hcount])
  · intro k
    exact (hs.seek k).represents.commandCount_eq.trans (by rw [h.rows_seek, hcount])
  · simp only [act, jump_pred]
  · simp only [act, jump_succ]
  · intro hfloor
    have hcan : s.stack.canUndo = false := by
      rw [← Bool.not_eq_true, hs.represents.canUndo_iff]
      omega
    simp only [act, undo_of_not_canUndo hcan]
  · intro hend
    have hcan : s.stack.canRedo = false := by
      rw [← Bool.not_eq_true, hs.represents.canRedo_iff]
      omega
    simp only [act, redo_of_not_canRedo hcan]

/-- The history law: in every session whose commands are reversible, and none of them empty, after
every step. -/
theorem undo_history_law {d : D} {as : List (Action C D)}
    (has : Permitted act Reverses (start d) as) :
    HistoryLaw (run act (start d) as) (run track (start d, .opened d) as).2 :=
  (lawful_run has).historyLaw

/-- Two renames, one of them taken back and done again, a rename the caller has made itself, and
a new project. -/
def renames : List (Action (Overwrite ℕ) ℕ) :=
  [.push (.new ⟨1, 0⟩) "a" 0, .push (.new ⟨2, 0⟩) "b" 1, .undo, .jump 0, .redo,
    .pushPreExecuted (.new ⟨5, 1⟩) "c" 5, .clear]

theorem undo_history_law_renames :
    HistoryLaw (run act (start 0) renames) (run track (start 0, .opened 0) renames).2 :=
  undo_history_law
    ⟨⟨rfl, 1, pending_new (Overwrite.before _ _)⟩, ⟨rfl, 2, pending_new (Overwrite.before _ _)⟩,
      trivial, trivial, trivial, applied_new (Overwrite.after _ _), trivial, trivial⟩

/-- A rename, and the empty command behind it. -/
def emptied : List (Action (Overwrite ℕ) ℕ) :=
  [.push (.new ⟨1, 0⟩) "a" 0, .push .empty "b" 1]

/-- The empty command inverts itself, but a jump to the bottom row stops above it. -/
theorem jump_stops_above_empty :
    (∀ d : ℕ, Before (UndoCommand.empty : UndoCommand (Overwrite ℕ)) d d) ∧
      ((run act (start 0) emptied).act (.jump 1)).doc ≠
        (run track (start 0, .opened 0) emptied).2.stateAt 1 := by
  refine ⟨fun d => before_of_alternates (I := fun c => ∃ f, c = .idle f ∧ f.done = false)
    (J := fun c => ∃ f, c = .idle f ∧ f.done = true) ⟨?_, ?_⟩ ⟨_, rfl, rfl⟩, by decide⟩
  · rintro _ ⟨f, rfl, hf⟩
    simp only [forward, redoNow, hf, Bool.false_eq_true, ↓reduceIte]
    exact ⟨trivial, _, rfl, rfl⟩
  · rintro _ ⟨f, rfl, hf⟩
    simp only [backward, undoNow, hf, ↓reduceIte]
    exact ⟨trivial, _, rfl, rfl⟩

end Session

end Oak.Undo
