import Oak.Lib.Reversible

/-!
# Undoable commands

`oak-undo/src/undocommand.rs`: an undoable operation with its state flags, and the composite of
child commands. The operations themselves are a type `C` with a document type `D` that they
change (`Command`); closures and trait objects of the source, which reach their document through
captured references, are values of `C`.

* `UndoCommand.redoNow` and `UndoCommand.undoNow` run a command unless its `done` flag says that
  there is nothing to do; a composite runs its children in order and takes them back in reverse
  (`redoAll`, `undoAll`).
* `Pending c d d'` says that `c` is not done and reversible between `d` and `d'`, `Applied c d d'`
  that it is done there.

## Main results

* `Pending.redoNow`, `Applied.undoNow`: running a command exchanges the two.
* `applied_multi`: a composite that was run inherits reversibility from its children.
-/

namespace Oak.Undo

open Oak.Lib Oak.Lib.Reversible

/-- The trait `Command`: a single undoable operation on a document. -/
class Command (C D : Type*) where
  /-- Apply the change. -/
  redo : C → D → C × D
  /-- Revert the change. -/
  undo : C → D → C × D

instance {C D : Type*} [Command C D] : Reversible C D := ⟨Command.redo, Command.undo⟩

/-- The state flags of an undoable command. The `modified` snapshot of the source is never read
and is left out. -/
structure Flags where
  /-- Whether the command has been executed. -/
  done : Bool
  /-- Whether `prepare` has run. -/
  prepared : Bool
  /-- Whether this is the bottom command of a stack. -/
  isEmpty : Bool
  deriving DecidableEq, Repr

/-- The flags of a new command. -/
def Flags.fresh : Flags := ⟨false, true, false⟩

/-- An undoable command: a boxed operation or a composite, with its flags. `idle` is the pair of
empty closures of `UndoCommand::empty`. -/
inductive UndoCommand (C : Type*) where
  | plain (op : C) (flags : Flags)
  | idle (flags : Flags)
  | multi (children : List (UndoCommand C)) (flags : Flags)

namespace UndoCommand

variable {C D : Type*}

/-- `UndoCommand::new`: wrap an operation. -/
def new (op : C) : UndoCommand C := .plain op .fresh

/-- `UndoCommand::multi`: an empty composite. -/
def newMulti : UndoCommand C := .multi [] .fresh

/-- `UndoCommand::empty`: the bottom command of a stack. -/
def empty : UndoCommand C := .idle { Flags.fresh with isEmpty := true }

def flags : UndoCommand C → Flags
  | .plain _ f => f
  | .idle f => f
  | .multi _ f => f

def isDone (c : UndoCommand C) : Bool := c.flags.done

def isEmpty (c : UndoCommand C) : Bool := c.flags.isEmpty

def setDone (c : UndoCommand C) (done : Bool) : UndoCommand C :=
  match c with
  | .plain op f => .plain op { f with done := done }
  | .idle f => .idle { f with done := done }
  | .multi cs f => .multi cs { f with done := done }

def isMulti : UndoCommand C → Bool
  | .multi _ _ => true
  | _ => false

def multiChildCount : UndoCommand C → ℕ
  | .multi cs _ => cs.length
  | _ => 0

/-- A composite without children, which no stack records. -/
def isVoid (c : UndoCommand C) : Bool := c.isMulti && c.multiChildCount == 0

/-- The children of a composite, in insertion order. -/
def children : UndoCommand C → List (UndoCommand C)
  | .multi cs _ => cs
  | _ => []

/-- Add `child` to a composite. The source panics on a command that is not one; its only caller
adds to the composite of an open group. -/
def multiAddChild (c child : UndoCommand C) : UndoCommand C :=
  match c with
  | .multi cs f => .multi (cs ++ [child]) f
  | c => c

@[simp] theorem isVoid_setDone (c : UndoCommand C) (done : Bool) :
    (c.setDone done).isVoid = c.isVoid := by
  cases c <;> rfl

variable {cs : List (UndoCommand C)} {ds : List D}

section Run

variable [Command C D]

mutual

/-- `redo_now`: nothing when already done. -/
def redoNow : UndoCommand C → D → UndoCommand C × D
  | .plain op f, d =>
    if f.done then (.plain op f, d)
    else (.plain (Command.redo op d).1 { f with prepared := true, done := true },
      (Command.redo op d).2)
  | .idle f, d =>
    if f.done then (.idle f, d) else (.idle { f with prepared := true, done := true }, d)
  | .multi cs f, d =>
    if f.done then (.multi cs f, d)
    else (.multi (redoAll cs d).1 { f with prepared := true, done := true }, (redoAll cs d).2)

/-- `MultiUndoCommand::redo`: the children in order. -/
def redoAll : List (UndoCommand C) → D → List (UndoCommand C) × D
  | [], d => ([], d)
  | c :: cs, d =>
    ((redoNow c d).1 :: (redoAll cs (redoNow c d).2).1, (redoAll cs (redoNow c d).2).2)

end

mutual

/-- `undo_now`: nothing when not done. -/
def undoNow : UndoCommand C → D → UndoCommand C × D
  | .plain op f, d =>
    if f.done then (.plain (Command.undo op d).1 { f with done := false }, (Command.undo op d).2)
    else (.plain op f, d)
  | .idle f, d => if f.done then (.idle { f with done := false }, d) else (.idle f, d)
  | .multi cs f, d =>
    if f.done then (.multi (undoAll cs d).1 { f with done := false }, (undoAll cs d).2)
    else (.multi cs f, d)

/-- `MultiUndoCommand::undo`: the children in reverse order. -/
def undoAll : List (UndoCommand C) → D → List (UndoCommand C) × D
  | [], d => ([], d)
  | c :: cs, d =>
    ((undoNow c (undoAll cs d).2).1 :: (undoAll cs d).1, (undoNow c (undoAll cs d).2).2)

end

instance : Reversible (UndoCommand C) D := ⟨redoNow, undoNow⟩

section

variable (c : UndoCommand C) (d : D)

theorem isDone_redoNow : (redoNow c d).1.isDone = true := by
  cases c <;> rw [redoNow] <;> split_ifs with h <;> simp [isDone, flags, h]

theorem isDone_undoNow : (undoNow c d).1.isDone = false := by
  cases c <;> rw [undoNow] <;> split_ifs with h <;> simp [isDone, flags, h]

theorem isEmpty_redoNow : (redoNow c d).1.isEmpty = c.isEmpty := by
  cases c <;> rw [redoNow] <;> split_ifs <;> rfl

theorem isEmpty_undoNow : (undoNow c d).1.isEmpty = c.isEmpty := by
  cases c <;> rw [undoNow] <;> split_ifs <;> rfl

end

theorem redoNow_of_isDone {c : UndoCommand C} (h : c.isDone = true) (d : D) :
    redoNow c d = (c, d) := by
  cases c <;> rw [redoNow] <;> exact if_pos h

/-! ### Reversible commands -/

/-- `c` is not done, and reversible between `d` and `d'`. -/
def Pending (c : UndoCommand C) (d d' : D) : Prop :=
  c.isDone = false ∧ c.isEmpty = false ∧ Before c d d'

/-- `c` is done, and reversible between `d` and `d'`. -/
def Applied (c : UndoCommand C) (d d' : D) : Prop :=
  c.isDone = true ∧ c.isEmpty = false ∧ After c d d'

theorem Pending.redoNow {c : UndoCommand C} {d d' : D} (h : Pending c d d') :
    (redoNow c d).2 = d' ∧ Applied (UndoCommand.redoNow c d).1 d d' := by
  obtain ⟨-, hempty, hbefore⟩ := h
  obtain ⟨hdoc, hafter⟩ := hbefore.forward
  exact ⟨hdoc, isDone_redoNow c d, (isEmpty_redoNow c d).trans hempty, hafter⟩

theorem Applied.undoNow {c : UndoCommand C} {d d' : D} (h : Applied c d d') :
    (undoNow c d').2 = d ∧ Pending (UndoCommand.undoNow c d').1 d d' := by
  obtain ⟨-, hempty, hafter⟩ := h
  obtain ⟨hdoc, hbefore⟩ := hafter.backward
  exact ⟨hdoc, isDone_undoNow c d', (isEmpty_undoNow c d').trans hempty, hbefore⟩

theorem Applied.eq_of_isVoid {c : UndoCommand C} {d d' : D} (h : Applied c d d')
    (hvoid : c.isVoid = true) : d' = d := by
  rcases c with ⟨op, f⟩ | f | ⟨cs, f⟩
  · simp [isVoid, isMulti] at hvoid
  · simp [isVoid, isMulti] at hvoid
  · obtain rfl : cs = [] := by simpa [isVoid, isMulti, multiChildCount] using hvoid
    obtain ⟨hdoc, -⟩ := h.undoNow
    rw [← hdoc]
    by_cases hf : f.done = true <;> simp [UndoCommand.undoNow, undoAll, hf]

/-- A caller hands `c` over in the document `handed` while the last document recorded is `d`:
either `c` is still to be run there, or the caller has run it from `d` to `handed`. The undo of
`c` inverts its redo. -/
def HandedOver (c : UndoCommand C) (d handed : D) : Prop :=
  if c.isDone then Applied c d handed else handed = d ∧ ∃ d', Pending c d d'

/-- Redoing a command that was handed over applies it. -/
theorem HandedOver.redoNow {c : UndoCommand C} {d handed : D} (h : HandedOver c d handed) :
    Applied (UndoCommand.redoNow c handed).1 d (UndoCommand.redoNow c handed).2 := by
  rw [HandedOver] at h
  split_ifs at h with hdone
  · rwa [redoNow_of_isDone hdone]
  · obtain ⟨rfl, d', hpend⟩ := h
    obtain ⟨hdoc, happ⟩ := hpend.redoNow
    rwa [hdoc]

theorem HandedOver.eq_of_isVoid {c : UndoCommand C} {d handed : D} (h : HandedOver c d handed)
    (hvoid : c.isVoid = true) : handed = d := by
  rw [HandedOver] at h
  split_ifs at h with hdone
  · exact h.eq_of_isVoid hvoid
  · exact h.1

/-- A wrapped operation and the operation alternate together. -/
theorem alternates_plain {I J : C → Prop} {d d' : D} (halt : Alternates I J d d') :
    Alternates (fun c => ∃ op f, c = UndoCommand.plain op f ∧ f.done = false ∧ I op)
      (fun c => ∃ op f, c = UndoCommand.plain op f ∧ f.done = true ∧ J op) d d' := by
  constructor
  · rintro _ ⟨op, f, rfl, hf, hI⟩
    simp only [forward, UndoCommand.redoNow, hf, Bool.false_eq_true, ↓reduceIte]
    exact ⟨(halt.run op hI).1, _, _, rfl, rfl, (halt.run op hI).2⟩
  · rintro _ ⟨op, f, rfl, hf, hJ⟩
    simp only [backward, UndoCommand.undoNow, hf, ↓reduceIte]
    exact ⟨(halt.unrun op hJ).1, _, _, rfl, rfl, (halt.unrun op hJ).2⟩

/-- A wrapped operation is pending where the operation can be run. -/
theorem pending_new {op : C} {d d' : D} (h : Before op d d') : Pending (new op) d d' := by
  obtain ⟨I, J, halt, hop⟩ := h
  exact ⟨rfl, rfl, before_of_alternates (alternates_plain halt) ⟨op, .fresh, rfl, rfl, hop⟩⟩

/-- A wrapped operation that was run before is applied once it is marked as done. -/
theorem applied_new {op : C} {d d' : D} (h : After op d d') :
    Applied ((new op).setDone true) d d' := by
  obtain ⟨I, J, halt, hop⟩ := h
  exact ⟨rfl, rfl, after_of_alternates (alternates_plain halt) ⟨op, _, rfl, rfl, hop⟩⟩

/-- Redoing pending commands in order applies them one after the other. -/
theorem redoAll_of_chain {d : D} (h : Chain Pending cs d ds) :
    (redoAll cs d).2 = ds.getLastD d ∧ Chain Applied (redoAll cs d).1 d ds := by
  induction h with
  | nil d => exact ⟨by simp [redoAll], by simp [redoAll]⟩
  | @cons c cs d d' ds hc _ ih =>
    obtain ⟨hdoc, happ⟩ := hc.redoNow
    simp only [redoAll, hdoc, List.getLastD_cons]
    exact ⟨ih.1, .cons happ ih.2⟩

/-- Undoing applied commands in reverse order takes them back one after the other. -/
theorem undoAll_of_chain {d : D} (h : Chain Applied cs d ds) :
    (undoAll cs (ds.getLastD d)).2 = d ∧ Chain Pending (undoAll cs (ds.getLastD d)).1 d ds := by
  induction h with
  | nil d => exact ⟨by simp [undoAll], by simp [undoAll]⟩
  | @cons c cs d d' ds hc _ ih =>
    obtain ⟨hdoc, hpend⟩ := hc.undoNow
    simp only [undoAll, List.getLastD_cons, ih.1]
    exact ⟨hdoc, .cons hpend ih.2⟩

/-- The children of a composite and the composite alternate together. -/
theorem alternates_multi (d : D) (ds : List D) :
    Alternates (C := UndoCommand C)
      (fun c => ∃ cs f, c = .multi cs f ∧ f.done = false ∧ Chain Pending cs d ds)
      (fun c => ∃ cs f, c = .multi cs f ∧ f.done = true ∧ Chain Applied cs d ds)
      d (ds.getLastD d) := by
  constructor
  · rintro _ ⟨cs, f, rfl, hf, hcs⟩
    obtain ⟨hdoc, happ⟩ := redoAll_of_chain hcs
    simp only [forward, redoNow, hf, Bool.false_eq_true, ↓reduceIte]
    exact ⟨hdoc, _, _, rfl, rfl, happ⟩
  · rintro _ ⟨cs, f, rfl, hf, hcs⟩
    obtain ⟨hdoc, hpend⟩ := undoAll_of_chain hcs
    simp only [backward, undoNow, hf, ↓reduceIte]
    exact ⟨hdoc, _, _, rfl, rfl, hpend⟩

/-- A composite of applied commands is applied. -/
theorem applied_multi {f : Flags} {d : D} (hf : f.done = true) (he : f.isEmpty = false)
    (h : Chain Applied cs d ds) : Applied (.multi cs f) d (ds.getLastD d) :=
  ⟨hf, he, after_of_alternates (alternates_multi d ds) ⟨cs, f, rfl, hf, h⟩⟩

/-! ### Properties of the past

A property of the document that no operation can establish holds at both ends of a reversible
command or at neither. -/

section Past

variable {Q : D → Prop}

mutual

theorem of_redoNow (hredo : ∀ (op : C) (d : D), Q (Command.redo op d).2 → Q d) :
    ∀ (c : UndoCommand C) (d : D), Q (redoNow c d).2 → Q d
  | .plain op f, d, h => by
    rw [redoNow] at h
    split_ifs at h
    · exact h
    · exact hredo op d h
  | .idle f, d, h => by
    rw [redoNow] at h
    split_ifs at h <;> exact h
  | .multi cs f, d, h => by
    rw [redoNow] at h
    split_ifs at h
    · exact h
    · exact of_redoAll hredo cs d h

theorem of_redoAll (hredo : ∀ (op : C) (d : D), Q (Command.redo op d).2 → Q d) :
    ∀ (cs : List (UndoCommand C)) (d : D), Q (redoAll cs d).2 → Q d
  | [], _, h => h
  | c :: cs, d, h => of_redoNow hredo c d (of_redoAll hredo cs _ h)

end

mutual

theorem of_undoNow (hundo : ∀ (op : C) (d : D), Q (Command.undo op d).2 → Q d) :
    ∀ (c : UndoCommand C) (d : D), Q (undoNow c d).2 → Q d
  | .plain op f, d, h => by
    rw [undoNow] at h
    split_ifs at h
    · exact hundo op d h
    · exact h
  | .idle f, d, h => by
    rw [undoNow] at h
    split_ifs at h <;> exact h
  | .multi cs f, d, h => by
    rw [undoNow] at h
    split_ifs at h
    · exact of_undoAll hundo cs d h
    · exact h

theorem of_undoAll (hundo : ∀ (op : C) (d : D), Q (Command.undo op d).2 → Q d) :
    ∀ (cs : List (UndoCommand C)) (d : D), Q (undoAll cs d).2 → Q d
  | [], _, h => h
  | c :: cs, d, h => of_undoAll hundo cs d (of_undoNow hundo c _ h)

end

variable (hredo : ∀ (op : C) (d : D), Q (Command.redo op d).2 → Q d)
  (hundo : ∀ (op : C) (d : D), Q (Command.undo op d).2 → Q d)

include hredo hundo

/-- Taken back and done again, an applied command passes the property in both directions. -/
theorem Applied.past_iff {c : UndoCommand C} {d d' : D} (h : Applied c d d') : Q d' ↔ Q d := by
  obtain ⟨hback, hpend⟩ := h.undoNow
  obtain ⟨hforth, -⟩ := hpend.redoNow
  constructor
  · intro hd'
    exact of_redoNow hredo _ d (by rwa [hforth])
  · intro hd
    exact of_undoNow hundo c d' (by rwa [hback])

end Past

end Run

end UndoCommand

end Oak.Undo
