import Oak.Undo.Command
import Oak.Lib.History

/-!
# The undo stack

`oak-undo/src/undostack.rs`: the history of an editing session as two lists of rows, the done
commands (oldest first) and the undone ones (most recently undone first).

* `UndoStack.push`, `pushPreExecuted`, `undo`, `redo`, `jump` and `clear` are the operations of
  the source; those that run commands take the document and return the new one.
* `Represents s h` says that the rows of the stack lead through the documents of the history `h`
  (`Oak.Lib.History`).

## Main results

* `represents_undo`, `represents_redo`: one row back or ahead is a seek of the history by one.
* `represents_jump`: a jump is a seek, and its commands lead to the document recorded there.
* `represents_recordRow`: recording an applied command records the document it left.
-/

namespace Oak.Undo

open Oak.Lib UndoCommand
open History

/-- One history row: the command and its user-visible label. -/
structure CommandEntry (C : Type*) where
  command : UndoCommand C
  name : String

/-- `UndoStack`. -/
structure UndoStack (C : Type*) where
  /-- Done commands, oldest at the front. -/
  commands : List (CommandEntry C)
  /-- Undone commands, most recently undone at the front. -/
  undone : List (CommandEntry C)

/-- `K_MAX_UNDO_COMMANDS`: the number of retained history rows. -/
def kMaxUndoCommands : ℕ := 200

namespace UndoStack

variable {C D : Type*}

/-- The bottom row. -/
def bottom : CommandEntry C := ⟨.empty, "New/Open Project"⟩

/-- `UndoStack::clear`: what is left is the bottom row. -/
def clear (_s : UndoStack C) : UndoStack C := ⟨[bottom], []⟩

/-- `UndoStack::new`. -/
def new : UndoStack C := clear ⟨[], []⟩

def canUndo (s : UndoStack C) : Bool :=
  match s.commands.getLast? with
  | none => false
  | some entry => !entry.command.isEmpty

def canRedo (s : UndoStack C) : Bool := !s.undone.isEmpty

/-- `command_count`: done and undone rows. -/
def commandCount (s : UndoStack C) : ℕ := s.commands.length + s.undone.length

/-- `done_count`: the current position. -/
def doneCount (s : UndoStack C) : ℕ := s.commands.length

/-- The command is recorded behind the done rows, the redoable tail is dropped, and so is the
oldest row beyond the cap. -/
def recordRow (s : UndoStack C) (entry : CommandEntry C) : UndoStack C where
  commands :=
    if kMaxUndoCommands < (s.commands ++ [entry]).length then (s.commands ++ [entry]).tail
    else s.commands ++ [entry]
  undone := if s.canRedo then [] else s.undone

/-- `push_pre_executed`: record an executed command; its redo is skipped. -/
def pushPreExecuted (s : UndoStack C) (command : UndoCommand C) (name : String) : UndoStack C :=
  if command.isVoid then s else s.recordRow ⟨command.setDone true, name⟩

variable [Command C D]

/-- `push`: execute the command's redo and record it. -/
def push (s : UndoStack C) (command : UndoCommand C) (name : String) (d : D) :
    UndoStack C × D :=
  if command.isVoid then (s, d)
  else (s.recordRow ⟨(command.redoNow d).1, name⟩, (command.redoNow d).2)

/-- `undo`: take back the most recently done command, if any. -/
def undo (s : UndoStack C) (d : D) : UndoStack C × D :=
  if s.canUndo then
    match s.commands.getLast? with
    | none => (s, d)
    | some entry =>
      (⟨s.commands.dropLast, ⟨(entry.command.undoNow d).1, entry.name⟩ :: s.undone⟩,
        (entry.command.undoNow d).2)
  else (s, d)

/-- `redo`: do the most recently undone command again, if any. -/
def redo (s : UndoStack C) (d : D) : UndoStack C × D :=
  match s.undone with
  | [] => (s, d)
  | entry :: rest =>
    (⟨s.commands ++ [⟨(entry.command.redoNow d).1, entry.name⟩], rest⟩,
      (entry.command.redoNow d).2)

/-- The first loop of `jump`; `fuel` bounds the rows it can take back. -/
def undoDownTo (index : ℕ) : ℕ → UndoStack C → D → UndoStack C × D
  | 0, s, d => (s, d)
  | fuel + 1, s, d =>
    if index < s.doneCount && s.canUndo then
      undoDownTo index fuel (s.undo d).1 (s.undo d).2
    else (s, d)

/-- The second loop of `jump`; `fuel` bounds the rows it can do again. -/
def redoUpTo (index : ℕ) : ℕ → UndoStack C → D → UndoStack C × D
  | 0, s, d => (s, d)
  | fuel + 1, s, d =>
    if s.doneCount < index && s.canRedo then
      redoUpTo index fuel (s.redo d).1 (s.redo d).2
    else (s, d)

/-- `jump`: undo or redo until `index` rows are done; a negative index is zero. -/
def jump (s : UndoStack C) (index : ℤ) (d : D) : UndoStack C × D :=
  let s₁ := undoDownTo index.toNat s.commandCount s d
  redoUpTo index.toNat s.commandCount s₁.1 s₁.2

/-! ### Single steps -/

section

variable {s : UndoStack C}

theorem undo_of_not_canUndo (hcan : s.canUndo = false) (d : D) : s.undo d = (s, d) := by
  simp [undo, hcan]

theorem redo_of_not_canRedo (hcan : s.canRedo = false) (d : D) : s.redo d = (s, d) := by
  rcases hu : s.undone with _ | ⟨entry, rest⟩
  · simp [redo, hu]
  · simp [canRedo, hu] at hcan

theorem doneCount_undo (hcan : s.canUndo = true) (d : D) :
    (s.undo d).1.doneCount + 1 = s.doneCount := by
  rcases hlast : s.commands.getLast? with _ | entry
  · simp [canUndo, hlast] at hcan
  · have hpos : 0 < s.commands.length := by
      rw [List.length_pos_iff]
      rintro hnil
      simp [hnil] at hlast
    simp only [undo, hcan, hlast, ↓reduceIte, doneCount, List.length_dropLast]
    omega

theorem doneCount_redo (hcan : s.canRedo = true) (d : D) :
    (s.redo d).1.doneCount = s.doneCount + 1 := by
  rcases hu : s.undone with _ | ⟨entry, rest⟩
  · simp [canRedo, hu] at hcan
  · simp [redo, hu, doneCount]

theorem undoDownTo_stop {index : ℕ} (fuel : ℕ) (d : D)
    (hstop : s.doneCount ≤ index ∨ s.canUndo = false) : undoDownTo index fuel s d = (s, d) := by
  cases fuel with
  | zero => rfl
  | succ fuel =>
    rw [undoDownTo, if_neg]
    rw [Bool.and_eq_true, decide_eq_true_iff]
    rintro ⟨hlt, hcan⟩
    rcases hstop with hle | hnot
    · omega
    · simp [hnot] at hcan

theorem redoUpTo_stop {index : ℕ} (fuel : ℕ) (d : D)
    (hstop : index ≤ s.doneCount ∨ s.canRedo = false) : redoUpTo index fuel s d = (s, d) := by
  cases fuel with
  | zero => rfl
  | succ fuel =>
    rw [redoUpTo, if_neg]
    rw [Bool.and_eq_true, decide_eq_true_iff]
    rintro ⟨hlt, hcan⟩
    rcases hstop with hle | hnot
    · omega
    · simp [hnot] at hcan

end

/-- A jump to `index` moves no row. -/
def Stays (s : UndoStack C) (index : ℤ) : Prop :=
  (index.toNat < s.doneCount → s.canUndo = false) ∧ (s.doneCount < index.toNat → s.canRedo = false)

theorem jump_of_stays {s : UndoStack C} {index : ℤ} (hstays : s.Stays index) (d : D) :
    s.jump index d = (s, d) := by
  have hfirst : undoDownTo index.toNat s.commandCount s d = (s, d) :=
    undoDownTo_stop _ d ((le_or_gt _ _).imp_right hstays.1)
  simp only [jump, hfirst]
  exact redoUpTo_stop _ d ((le_or_gt _ _).imp_right hstays.2)

theorem jump_pred (s : UndoStack C) (d : D) : s.jump (s.doneCount - 1) d = s.undo d := by
  by_cases hcan : s.canUndo = true
  · have hundo := doneCount_undo hcan d
    have hindex : ((s.doneCount : ℤ) - 1).toNat = (s.undo d).1.doneCount := by omega
    have hfuel : s.commandCount = (s.commandCount - 1) + 1 := by
      simp only [doneCount] at hundo
      rw [commandCount]
      omega
    have hlt : (s.undo d).1.doneCount < s.doneCount := by omega
    have hfirst : undoDownTo (s.undo d).1.doneCount s.commandCount s d = s.undo d := by
      rw [hfuel, undoDownTo, if_pos (by simp [hcan, hlt])]
      exact undoDownTo_stop _ _ (.inl le_rfl)
    simp only [jump, hindex, hfirst]
    exact redoUpTo_stop _ _ (.inl le_rfl)
  · rw [Bool.not_eq_true] at hcan
    rw [undo_of_not_canUndo hcan]
    simp only [jump, undoDownTo_stop _ d (.inr hcan)]
    exact redoUpTo_stop _ d (.inl (by omega))

theorem jump_succ (s : UndoStack C) (d : D) : s.jump (s.doneCount + 1) d = s.redo d := by
  have hindex : ((s.doneCount : ℤ) + 1).toNat = s.doneCount + 1 := by omega
  have hfirst : undoDownTo (s.doneCount + 1) s.commandCount s d = (s, d) :=
    undoDownTo_stop _ d (.inl (by omega))
  simp only [jump, hindex, hfirst]
  by_cases hcan : s.canRedo = true
  · have hredo := doneCount_redo hcan d
    have hfuel : s.commandCount = (s.commandCount - 1) + 1 := by
      rcases hu : s.undone with _ | ⟨entry, rest⟩
      · simp [canRedo, hu] at hcan
      · simp only [commandCount, hu, List.length_cons]
        omega
    rw [hfuel, redoUpTo, if_pos (by simp [hcan])]
    exact redoUpTo_stop _ _ (.inl hredo.ge)
  · rw [Bool.not_eq_true] at hcan
    rw [redo_of_not_canRedo hcan]
    exact redoUpTo_stop _ d (.inr hcan)

/-! ### The history a stack represents -/

/-- A done row leads from `d` to `d'`; the bottom row leads nowhere. -/
def RowDone (entry : CommandEntry C) (d d' : D) : Prop :=
  if entry.command.isEmpty then d = d' else Applied entry.command d d'

theorem RowDone.of_applied {entry : CommandEntry C} {d d' : D}
    (h : Applied entry.command d d') : RowDone entry d d' := by
  simpa only [RowDone, h.2.1, Bool.false_eq_true, ↓reduceIte] using h

/-- An undone row can lead from `d` to `d'` again. -/
def RowPending (entry : CommandEntry C) (d d' : D) : Prop := Pending entry.command d d'

/-- The rows of the stack lead through the documents of the history, and exactly the rows below
its floor are bottom rows. -/
structure Represents (s : UndoStack C) (h : History D) : Prop where
  done : Chain RowDone s.commands h.base h.done
  undone : Chain RowPending s.undone h.now h.undone
  floor : ∀ i entry, s.commands[i]? = some entry → (entry.command.isEmpty = true ↔ i < h.floor)

variable {s : UndoStack C} {h : History D}

section

variable (hr : Represents s h)

include hr

theorem Represents.doneCount_eq : s.doneCount = h.position :=
  hr.done.length_eq

theorem Represents.commandCount_eq : s.commandCount = h.rows := by
  rw [commandCount, hr.done.length_eq, hr.undone.length_eq, rows]

theorem Represents.canRedo_iff : s.canRedo = true ↔ h.position < h.rows := by
  have hlen := hr.undone.length_eq
  rw [canRedo, Bool.not_eq_true', List.isEmpty_eq_false_iff_exists_mem,
    ← List.length_pos_iff_exists_mem, hlen, position, rows]
  omega

/-- The last row and the document it left, cut off the two lists. -/
theorem Represents.done_eq_concat (hpos : 0 < h.position) :
    ∃ cs entry ds d, s.commands = cs ++ [entry] ∧ h.done = ds ++ [d] ∧ cs.length = ds.length ∧
      Chain RowDone cs h.base ds ∧ RowDone entry (ds.getLastD h.base) d := by
  have hlen : s.commands.length = h.done.length := hr.done.length_eq
  have hne : h.done ≠ [] := List.ne_nil_of_length_pos hpos
  have hne' : s.commands ≠ [] := List.ne_nil_of_length_pos (hlen ▸ hpos)
  have hs := (List.dropLast_append_getLast hne').symm
  have hh := (List.dropLast_append_getLast hne).symm
  have hlen' : s.commands.dropLast.length = h.done.dropLast.length := by
    simp only [List.length_dropLast, hlen]
  have hchain := hr.done
  rw [hs, hh, Chain.concat_iff hlen'] at hchain
  exact ⟨_, _, _, _, hs, hh, hlen', hchain⟩

theorem Represents.canUndo_iff : s.canUndo = true ↔ h.floor < h.position := by
  rcases Nat.eq_zero_or_pos h.position with hpos | hpos
  · have hnil : s.commands = [] := List.eq_nil_of_length_eq_zero (hr.doneCount_eq.trans hpos)
    have := h.floor_le_position
    simp only [canUndo, hnil, List.getLast?_nil, Bool.false_eq_true, false_iff]
    omega
  · obtain ⟨cs, entry, ds, d, hcs, hds, hlen, -, -⟩ := hr.done_eq_concat hpos
    have hfloor := hr.floor cs.length entry (by simp [hcs])
    have hposition : h.position = cs.length + 1 := by simp [position, hds, hlen]
    simp only [canUndo, hcs, List.getLast?_append, List.getLast?_singleton, Option.some_or,
      Bool.not_eq_true']
    rw [hposition, ← Bool.not_eq_true, hfloor]
    omega

/-- A row that is not a bottom row may be put behind the done rows. -/
private theorem floor_concat (hlen : s.commands.length = h.done.length) {entry : CommandEntry C}
    (hentry : entry.command.isEmpty = false) (i : ℕ) (e : CommandEntry C)
    (hi : (s.commands ++ [entry])[i]? = some e) : e.command.isEmpty = true ↔ i < h.floor := by
  have hfloor := h.floor_le
  rcases Nat.lt_or_ge i s.commands.length with hlt | hge
  · rw [List.getElem?_append_left hlt] at hi
    exact hr.floor i e hi
  · rw [List.getElem?_append_right hge, List.getElem?_singleton] at hi
    split_ifs at hi with hzero
    obtain rfl := Option.some.inj hi
    simp only [hentry, Bool.false_eq_true, false_iff]
    omega

end

/-! ### One row at a time -/

/-- `undo` is a seek by one row back. -/
theorem represents_undo (hr : Represents s h) (hlt : h.floor < h.position) :
    Represents (s.undo h.now).1 (h.seek (h.position - 1)) ∧
      (s.undo h.now).2 = (h.seek (h.position - 1)).now := by
  obtain ⟨cs, entry, ds, d, hcs, hds, hlen, hchain, hrow⟩ := hr.done_eq_concat (by omega)
  have hposition : h.position = ds.length + 1 := by simp [position, hds]
  have hnonempty : entry.command.isEmpty = false := by
    rw [← Bool.not_eq_true, hr.floor cs.length entry (by simp [hcs])]
    omega
  have happ : Applied entry.command (ds.getLastD h.base) d := by
    simpa [RowDone, hnonempty] using hrow
  have hnow : h.now = d := by simp [now, hds]
  have hback : h.seek (h.position - 1) =
      ⟨h.base, ds, d :: h.undone, h.floor, by omega⟩ := by
    rw [hposition, Nat.add_sub_cancel]
    exact h.seek_back hds (by omega)
  have hundo : s.undo h.now =
      (⟨cs, ⟨(entry.command.undoNow d).1, entry.name⟩ :: s.undone⟩,
        (entry.command.undoNow d).2) := by
    have hcan : s.canUndo = true := hr.canUndo_iff.2 hlt
    simp [undo, hcan, hcs, hnow]
  obtain ⟨hdoc, hpend⟩ := happ.undoNow
  rw [hundo, hback]
  refine ⟨⟨hchain, .cons hpend ?_, fun i e hi => ?_⟩, hdoc⟩
  · simpa only [hnow] using hr.undone
  · refine hr.floor i e ?_
    rw [hcs, List.getElem?_append_left (List.getElem?_eq_some_iff.1 hi).1]
    exact hi

/-- `redo` is a seek by one row ahead. -/
theorem represents_redo (hr : Represents s h) (hlt : h.position < h.rows) :
    Represents (s.redo h.now).1 (h.seek (h.position + 1)) ∧
      (s.redo h.now).2 = (h.seek (h.position + 1)).now := by
  have hcan := hr.canRedo_iff.2 hlt
  cases hu : s.undone with
  | nil => simp [canRedo, hu] at hcan
  | cons entry rest =>
    cases hhu : h.undone with
    | nil => simpa [hu, hhu] using hr.undone.length_eq
    | cons d ds =>
      have hrows := hr.undone
      rw [hu, hhu, Chain.cons_cons_iff] at hrows
      obtain ⟨hpend, hrest⟩ := hrows
      obtain ⟨hdoc, happ⟩ := Pending.redoNow hpend
      have hlen : s.commands.length = h.done.length := hr.done.length_eq
      rw [h.seek_ahead hhu]
      simp only [redo, hu]
      refine ⟨⟨(Chain.concat_iff hlen).2 ⟨hr.done, .of_applied happ⟩, ?_,
        floor_concat hr hlen happ.2.1⟩, ?_⟩
      · simpa [now] using hrest
      · simpa [now] using hdoc

/-! ### Jumps -/

theorem represents_undoDownTo (index : ℕ) {fuel : ℕ} (hr : Represents s h)
    (hfuel : h.position ≤ fuel) :
    Represents (undoDownTo index fuel s h.now).1 (h.seek (min h.position index)) ∧
      (undoDownTo index fuel s h.now).2 = (h.seek (min h.position index)).now := by
  -- The loop has stopped when the position is at the index or at the floor.
  have hstop (s : UndoStack C) (h : History D) (hr : Represents s h)
      (hle : h.position ≤ max h.floor index) :
      Represents s (h.seek (min h.position index)) ∧
        h.now = (h.seek (min h.position index)).now := by
    have hfloor := h.floor_le_position
    rw [h.seek_congr (show max h.floor (min h.position index) = max h.floor h.position by omega),
      h.seek_position]
    exact ⟨hr, rfl⟩
  induction fuel generalizing s h with
  | zero => exact hstop s h hr (by omega)
  | succ fuel ih =>
    rw [undoDownTo]
    split_ifs with hloop
    · rw [Bool.and_eq_true, decide_eq_true_iff, hr.doneCount_eq, hr.canUndo_iff] at hloop
      obtain ⟨hr', hdoc⟩ := represents_undo hr hloop.2
      have hpos : (h.seek (h.position - 1)).position = h.position - 1 := by
        have := h.position_le_rows
        rw [position_seek]
        omega
      have ih' := ih hr' (by omega)
      rw [hpos, seek_seek, ← hdoc, min_eq_right (by omega)] at ih'
      rwa [min_eq_right (by omega)]
    · rw [Bool.and_eq_true, decide_eq_true_iff, hr.doneCount_eq, hr.canUndo_iff] at hloop
      exact hstop s h hr (by omega)

theorem represents_redoUpTo (index : ℕ) {fuel : ℕ} (hr : Represents s h)
    (hfuel : h.rows ≤ h.position + fuel) :
    Represents (redoUpTo index fuel s h.now).1 (h.seek (max h.position index)) ∧
      (redoUpTo index fuel s h.now).2 = (h.seek (max h.position index)).now := by
  have hstop (s : UndoStack C) (h : History D) (hr : Represents s h)
      (hle : h.rows ≤ h.position ∨ index ≤ h.position) :
      Represents s (h.seek (max h.position index)) ∧
        h.now = (h.seek (max h.position index)).now := by
    have := h.position_le_rows
    rw [h.seek_eq_self (by omega)]
    exact ⟨hr, rfl⟩
  induction fuel generalizing s h with
  | zero => exact hstop s h hr (by omega)
  | succ fuel ih =>
    rw [redoUpTo]
    split_ifs with hloop
    · rw [Bool.and_eq_true, decide_eq_true_iff, hr.doneCount_eq, hr.canRedo_iff] at hloop
      obtain ⟨hr', hdoc⟩ := represents_redo hr hloop.2
      have hpos : (h.seek (h.position + 1)).position = h.position + 1 := by
        have := h.floor_le_position
        rw [position_seek]
        omega
      have ih' := ih hr' (by rw [hpos, rows_seek]; omega)
      rw [hpos, seek_seek, ← hdoc, max_eq_right (by omega)] at ih'
      rwa [max_eq_right (by omega)]
    · rw [Bool.and_eq_true, decide_eq_true_iff, hr.doneCount_eq, hr.canRedo_iff] at hloop
      exact hstop s h hr (by omega)

/-- A jump is a seek. -/
theorem represents_jump (hr : Represents s h) (index : ℤ) :
    Represents (s.jump index h.now).1 (h.seek index.toNat) ∧
      (s.jump index h.now).2 = (h.seek index.toNat).now := by
  have hcount := hr.commandCount_eq
  have hdown : h.position ≤ s.commandCount := hcount ▸ h.position_le_rows
  obtain ⟨hr₁, hdoc₁⟩ := represents_undoDownTo index.toNat hr hdown
  have hup : (h.seek (min h.position index.toNat)).rows ≤
      (h.seek (min h.position index.toNat)).position + s.commandCount := by
    rw [hcount, rows_seek]
    omega
  obtain ⟨hr₂, hdoc₂⟩ := represents_redoUpTo index.toNat hr₁ hup
  have hle := h.position_le_rows
  have hfloor := h.floor_le_position
  have hseek : (h.seek (min h.position index.toNat)).seek
      (max (h.seek (min h.position index.toNat)).position index.toNat) = h.seek index.toNat := by
    rw [seek_seek, position_seek]
    exact h.seek_congr (by omega)
  rw [← hdoc₁, hseek] at hr₂ hdoc₂
  exact ⟨hr₂, hdoc₂⟩

theorem Represents.stateAt_floor (hr : Represents s h) (k : ℕ) :
    h.stateAt (max h.floor k) = h.stateAt k := by
  have hbase (j : ℕ) (hj : j ≤ h.floor) : h.stateAt j = h.base := by
    rw [stateAt, List.take_append_of_le_length (hj.trans h.floor_le)]
    refine hr.done.getLastD_take_of_still fun i entry hi hentry a b hrow => ?_
    have hempty := (hr.floor i entry hentry).2 (hi.trans_le hj)
    simpa only [RowDone, hempty, ↓reduceIte] using hrow
  rcases le_total h.floor k with hk | hk
  · rw [max_eq_right hk]
  · rw [max_eq_left hk, hbase k hk, hbase h.floor le_rfl]

/-! ### Recording -/

theorem undone_recordRow (s : UndoStack C) (entry : CommandEntry C) :
    (s.recordRow entry).undone = [] := by
  rcases hu : s.undone with _ | ⟨e, rest⟩ <;> simp [recordRow, canRedo, hu]

/-- The row recorded last is the first one to be taken back. -/
theorem undo_recordRow (s : UndoStack C) {entry : CommandEntry C}
    (hentry : entry.command.isEmpty = false) (d : D) :
    ((s.recordRow entry).undo d).2 = (entry.command.undoNow d).2 := by
  have hlast : (s.recordRow entry).commands.getLast? = some entry := by
    by_cases hfull : kMaxUndoCommands < (s.commands ++ [entry]).length
    · have hcommands : (s.recordRow entry).commands = (s.commands ++ [entry]).tail := if_pos hfull
      have hlong : (s.commands ++ [entry]).length ≠ 1 := (hfull.trans_le' (by decide)).ne'
      rw [hcommands, List.getLast?_tail, if_neg hlong, List.getLast?_concat]
    · have hcommands : (s.recordRow entry).commands = s.commands ++ [entry] := if_neg hfull
      rw [hcommands, List.getLast?_concat]
  have hcan : (s.recordRow entry).canUndo = true := by simp [canUndo, hlast, hentry]
  simp [undo, hcan, hlast]

/-- `t` holds the done rows of `s` and one more; only rows at the front are missing, and none
unless the stack was full. -/
def RecordsAfter (s t : UndoStack C) : Prop :=
  t.undone = [] ∧ ∃ evicted entry, evicted ++ t.commands = s.commands ++ [entry] ∧
    evicted.length = s.doneCount + 1 - kMaxUndoCommands

theorem recordsAfter_recordRow (hcount : s.doneCount ≤ kMaxUndoCommands) (entry : CommandEntry C) :
    s.RecordsAfter (s.recordRow entry) := by
  refine ⟨s.undone_recordRow entry, ?_⟩
  rw [doneCount] at hcount
  by_cases hfull : kMaxUndoCommands < (s.commands ++ [entry]).length
  · have hcommands : (s.recordRow entry).commands = (s.commands ++ [entry]).tail := if_pos hfull
    refine ⟨(s.commands ++ [entry]).take 1, entry, ?_, ?_⟩
    · rw [hcommands, ← List.drop_one, List.take_append_drop]
    · rw [List.length_append, List.length_singleton] at hfull
      simp only [List.length_take, List.length_append, List.length_singleton, doneCount]
      omega
  · have hcommands : (s.recordRow entry).commands = s.commands ++ [entry] := if_neg hfull
    rw [List.length_append, List.length_singleton] at hfull
    refine ⟨[], entry, hcommands, ?_⟩
    rw [List.length_nil, doneCount]
    omega

/-- Recording an applied command behind the rows of a history records its document. -/
theorem represents_recordRow (hr : Represents s h) {entry : CommandEntry C} {d' : D}
    (happ : Applied entry.command h.now d') :
    Represents (s.recordRow entry) (h.record kMaxUndoCommands d') := by
  have hlen : s.commands.length = h.done.length := hr.done.length_eq
  have hundone := s.undone_recordRow entry
  have hchain : Chain RowDone (s.commands ++ [entry]) h.base (h.done ++ [d']) :=
    (Chain.concat_iff hlen).2 ⟨hr.done, .of_applied happ⟩
  have hfloor := floor_concat hr hlen happ.2.1
  have hlt : kMaxUndoCommands < (s.commands ++ [entry]).length ↔
      kMaxUndoCommands < (h.append d').position := by
    simp [append, position, hlen]
  by_cases hfull : kMaxUndoCommands < (s.commands ++ [entry]).length
  · have hcommands : (s.recordRow entry).commands = (s.commands ++ [entry]).tail := if_pos hfull
    have hrecord : h.record kMaxUndoCommands d' = (h.append d').evict := if_pos (hlt.1 hfull)
    rw [hrecord]
    refine ⟨?_, ?_, fun i e hi => ?_⟩
    · rw [hcommands]
      exact hchain.tail (by simp)
    · rw [hundone]
      exact Chain.nil_iff.2 rfl
    · rw [hcommands, List.getElem?_tail] at hi
      rw [hfloor _ e hi]
      exact Nat.lt_sub_iff_add_lt.symm
  · have hcommands : (s.recordRow entry).commands = s.commands ++ [entry] := if_neg hfull
    have hrecord : h.record kMaxUndoCommands d' = h.append d' := if_neg (mt hlt.2 hfull)
    rw [hrecord]
    refine ⟨hcommands ▸ hchain, ?_, fun i e hi => hfloor i e (hcommands ▸ hi)⟩
    rw [hundone]
    exact Chain.nil_iff.2 rfl

end UndoStack

end Oak.Undo
