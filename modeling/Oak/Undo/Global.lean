import Oak.Undo.Session

/-!
# The process-wide undo state

`oak-undo/src/global.rs`: the undo stack of the process together with the open undo group. A
command pushed while a group is open runs at once and becomes a child of the group; the stack
learns of it at `group_end`, which records the group as one row.

* `GlobalState.groupBegin`, `groupEnd`, `groupAbort`, `push`, `jump`, `undo` and `redo` are the
  functions of the source. None of the last three looks at the open group.
* `Workspace` is the state with the document, `Workspace.act` one call.
* `Tracked C` is an operation that remembers the document its last run left, on documents that
  remember whether every run so far has started where the last one ended.

## Main results

* `grouped_run`: while no open group is disturbed, the document is the one the open group has
  reached from the current document of the stack's history.
* `groups_atomic`: such a run keeps all runs of its commands in order, and its groups are atomic.
-/

namespace Oak.Undo

open Oak.Lib Oak.Lib.Reversible UndoCommand UndoStack

/-- The error kind of the module. -/
inductive Error where
  | state
  deriving DecidableEq, Repr

/-- `OpenGroup`: the composite of the open undo group and its label. -/
structure OpenGroup (C : Type*) where
  multi : UndoCommand C
  name : String

/-- The process-wide stack and the open group. -/
structure GlobalState (C : Type*) where
  stack : UndoStack C
  group : Option (OpenGroup C)

namespace GlobalState

variable {C D : Type*} (g : GlobalState C)

/-- `group_begin`. -/
def groupBegin (name : String) : Except Error (GlobalState C) :=
  match g.group with
  | some _ => .error .state
  | none => .ok { g with group := some ⟨.newMulti, name⟩ }

/-- `group_end`: record the group as one executed row, or drop it when it is empty. -/
def groupEnd : Except Error (GlobalState C) :=
  match g.group with
  | none => .error .state
  | some opened => .ok ⟨g.stack.pushPreExecuted opened.multi opened.name, none⟩

variable [Command C D]

/-- `group_abort`: undo the children one by one in reverse order, and discard the group. -/
def groupAbort (d : D) : Except Error (GlobalState C × D) :=
  match g.group with
  | none => .error .state
  | some opened => .ok ({ g with group := none }, (undoAll opened.multi.children d).2)

/-- `push`: into the open group as an executed child, or else onto the stack. -/
def push (g : GlobalState C) (command : UndoCommand C) (name : String) (d : D) :
    GlobalState C × D :=
  match g.group with
  | some opened =>
    ({ g with group := some { opened with
        multi := opened.multi.multiAddChild (command.redoNow d).1 } }, (command.redoNow d).2)
  | none => ({ g with stack := (g.stack.push command name d).1 }, (g.stack.push command name d).2)

/-- `jump`. -/
def jump (g : GlobalState C) (index : ℤ) (d : D) : GlobalState C × D :=
  ({ g with stack := (g.stack.jump index d).1 }, (g.stack.jump index d).2)

/-- `undo`: a jump by one row back. -/
def undo (d : D) : GlobalState C × D := g.jump (g.stack.doneCount - 1) d

/-- `redo`: a jump by one row ahead. -/
def redo (d : D) : GlobalState C × D := g.jump (g.stack.doneCount + 1) d

end GlobalState

/-- The undo state with the document its commands change. -/
structure Workspace (C D : Type*) where
  state : GlobalState C
  doc : D

/-- The calls of the module. -/
inductive Call (C D : Type*) where
  | groupBegin (name : String)
  | push (command : UndoCommand C) (name : String) (handed : D)
  | undo
  | redo
  | jump (index : ℤ)
  | groupAbort
  | groupEnd

namespace Workspace

variable {C D : Type*}

/-- A new stack on a document, with no open group. -/
def start (d : D) : Workspace C D := ⟨⟨.new, none⟩, d⟩

variable [Command C D]

/-- One call; a call that fails changes nothing. -/
def act (w : Workspace C D) : Call C D → Workspace C D
  | .groupBegin name =>
    match w.state.groupBegin name with
    | .error _ => w
    | .ok g => ⟨g, w.doc⟩
  | .push command name handed =>
    ⟨(w.state.push command name handed).1, (w.state.push command name handed).2⟩
  | .undo => ⟨(w.state.undo w.doc).1, (w.state.undo w.doc).2⟩
  | .redo => ⟨(w.state.redo w.doc).1, (w.state.redo w.doc).2⟩
  | .jump index => ⟨(w.state.jump index w.doc).1, (w.state.jump index w.doc).2⟩
  | .groupAbort =>
    match w.state.groupAbort w.doc with
    | .error _ => w
    | .ok (g, d) => ⟨g, d⟩
  | .groupEnd =>
    match w.state.groupEnd with
    | .error _ => w
    | .ok g => ⟨g, w.doc⟩

/-- The undo of a pushed command inverts its redo, and it is not the empty command of the bottom
row. -/
def Reverses (w : Workspace C D) : Call C D → Prop
  | .push command _ handed => HandedOver command w.doc handed
  | _ => True

/-- The document in which the open group was begun, after one call. -/
def begun : Workspace C D × Option D → Call C D → Option D
  | (w, b), .groupBegin _ => if w.state.group.isSome then b else some w.doc
  | _, .groupAbort => none
  | _, .groupEnd => none
  | (_, b), _ => b

/-- One call, with the document of `group_begin` alongside. -/
def track : Workspace C D × Option D → Call C D → Workspace C D × Option D := shadow act begun

/-- The position of the stack stays where it is while a group is open. -/
def Undisturbed (w : Workspace C D) : Call C D → Prop
  | .undo => w.state.group.isSome → w.state.stack.canUndo = false
  | .redo => w.state.group.isSome → w.state.stack.canRedo = false
  | .jump k => w.state.group.isSome → w.state.stack.Stays k
  | _ => True

/-! ### What an undisturbed group holds -/

/-- The open group leads from `d` to `d'`; without one the two are the same document. -/
def Collected : Option (OpenGroup C) → D → D → Prop
  | none, d, d' => d' = d
  | some opened, d, d' => ∃ cs f ds, opened.multi = .multi cs f ∧ f.done = false ∧
      f.isEmpty = false ∧ Chain Applied cs d ds ∧ d' = ds.getLastD d

/-- The stack has made the history `h`, and the open group leads from its current document, in
which it was begun, to the one at hand. -/
structure Grouped (w : Workspace C D) (b : Option D) (h : History D) : Prop where
  lawful : Session.Lawful ⟨w.state.stack, h.now⟩ h
  collected : Collected w.state.group h.now w.doc
  begun : b = w.state.group.map fun _ => h.now

theorem grouped_start (d : D) : Grouped (start d : Workspace C D) none (.opened d) :=
  ⟨Session.lawful_clear ⟨[], []⟩ d, rfl, rfl⟩

variable {w : Workspace C D} {b : Option D} {h : History D}

/-- A jump moves the stack only where no group is open. -/
theorem Grouped.jump (hw : Grouped w b h) {k : ℤ}
    (hund : w.state.group.isSome → w.state.stack.Stays k) :
    ∃ h', h'.base = h.base ∧
      Grouped ⟨(w.state.jump k w.doc).1, (w.state.jump k w.doc).2⟩ b h' := by
  obtain ⟨⟨stack, group⟩, doc⟩ := w
  obtain ⟨hlaw, hcoll, hbegun⟩ := hw
  rcases group with _ | opened
  · obtain rfl : doc = h.now := hcoll
    have hseek := hlaw.seek k
    refine ⟨h.seek k.toNat, rfl, ⟨?_, hseek.doc, hbegun⟩⟩
    simpa only [GlobalState.jump, ← hseek.doc] using hseek
  · have hstays := jump_of_stays (hund rfl) doc
    refine ⟨h, rfl, ?_⟩
    simpa only [GlobalState.jump, hstays] using ⟨hlaw, hcoll, hbegun⟩

theorem Grouped.undo (hw : Grouped w b h)
    (hund : w.state.group.isSome → w.state.stack.canUndo = false) :
    ∃ h', h'.base = h.base ∧
      Grouped ⟨(w.state.undo w.doc).1, (w.state.undo w.doc).2⟩ b h' :=
  hw.jump fun hgroup => ⟨fun _ => hund hgroup, fun hlt => by omega⟩

theorem Grouped.redo (hw : Grouped w b h)
    (hund : w.state.group.isSome → w.state.stack.canRedo = false) :
    ∃ h', h'.base = h.base ∧
      Grouped ⟨(w.state.redo w.doc).1, (w.state.redo w.doc).2⟩ b h' :=
  hw.jump fun hgroup => ⟨fun hlt => by omega, fun _ => hund hgroup⟩

/-- A push runs its command on the document at hand and extends the open group by it. -/
theorem Grouped.push (hw : Grouped w b h) {c : UndoCommand C} {name : String} {handed : D}
    (hc : HandedOver c w.doc handed) :
    ∃ h', Grouped ⟨(w.state.push c name handed).1, (w.state.push c name handed).2⟩ b h' := by
  obtain ⟨⟨stack, group⟩, doc⟩ := w
  obtain ⟨hlaw, hcoll, hbegun⟩ := hw
  rcases group with _ | opened
  · obtain rfl : doc = h.now := hcoll
    have hact := Session.lawful_act (a := .push c name handed) hlaw hc
    refine ⟨_, ⟨?_, hact.doc, hbegun⟩⟩
    rw [← hact.doc]
    exact hact
  · obtain ⟨cs, f, ds, hmulti, hf, he, hchain, hdoc⟩ := hcoll
    have happ := hc.redoNow
    refine ⟨h, hlaw, ⟨cs ++ [(c.redoNow handed).1], f, ds ++ [(c.redoNow handed).2], ?_, hf, he, ?_,
      ?_⟩, hbegun⟩
    · simp only [hmulti, multiAddChild]
    · rw [Chain.concat_iff hchain.length_eq, ← hdoc]
      exact ⟨hchain, happ⟩
    · simp [GlobalState.push]

variable {opened : OpenGroup C}

section

variable (hw : Grouped w b h) (hopen : w.state.group = some opened)

include hw hopen

/-- The children of an open group are taken back to the document it was begun in. -/
theorem Grouped.abort : w.act .groupAbort = ⟨{ w.state with group := none }, h.now⟩ := by
  have hcoll := hw.collected
  rw [hopen] at hcoll
  obtain ⟨cs, f, ds, hmulti, hf, he, hchain, hdoc⟩ := hcoll
  have hback := (undoAll_of_chain hchain).1
  simp only [act, GlobalState.groupAbort, hopen, hmulti, children, hdoc, hback]

/-- The composite of an open group is applied from the document it was begun in. -/
theorem Grouped.applied : Applied (opened.multi.setDone true) h.now w.doc := by
  have hcoll := hw.collected
  rw [hopen] at hcoll
  obtain ⟨cs, f, ds, hmulti, hf, he, hchain, hdoc⟩ := hcoll
  rw [hmulti, hdoc]
  exact applied_multi rfl he hchain

/-- Ending a group records it, unless it is empty. -/
theorem Grouped.groupEnd :
    w.act .groupEnd = ⟨⟨w.state.stack.pushPreExecuted opened.multi opened.name, none⟩, w.doc⟩ ∧
      ∃ h', Grouped (w.act .groupEnd) none h' := by
  have hend : w.act .groupEnd =
      ⟨⟨w.state.stack.pushPreExecuted opened.multi opened.name, none⟩, w.doc⟩ := by
    simp only [act, GlobalState.groupEnd, hopen]
  have hact := Session.lawful_act (a := .pushPreExecuted opened.multi opened.name w.doc) hw.lawful
    (hw.applied hopen)
  refine ⟨hend, Session.advance h w.doc (.pushPreExecuted opened.multi opened.name w.doc), ?_⟩
  have hdoc : w.doc =
      (Session.advance h w.doc (.pushPreExecuted opened.multi opened.name w.doc)).now := hact.doc
  rw [hend]
  refine ⟨?_, hdoc, rfl⟩
  rw [← hdoc]
  exact hact

end

theorem grouped_act {a : Call C D} (hw : Grouped w b h) (hrev : w.Reverses a)
    (hund : w.Undisturbed a) : ∃ h', Grouped (w.act a) (Workspace.begun (w, b) a) h' := by
  rcases a with name | ⟨c, name, handed⟩ | _ | _ | k | _ | _
  · rcases hopen : w.state.group with _ | opened
    · have hdoc : w.doc = h.now := by simpa only [hopen, Collected] using hw.collected
      refine ⟨h, ?_⟩
      simp only [act, GlobalState.groupBegin, Workspace.begun, hopen]
      exact ⟨hw.lawful, ⟨[], .fresh, [], rfl, rfl, rfl, .nil _, hdoc⟩, by simp [hdoc]⟩
    · refine ⟨h, ?_⟩
      simpa only [act, GlobalState.groupBegin, Workspace.begun, hopen, Option.isSome_some,
        ↓reduceIte] using hw
  · exact hw.push hrev
  · exact (hw.undo hund).imp fun _ => And.right
  · exact (hw.redo hund).imp fun _ => And.right
  · exact (hw.jump hund).imp fun _ => And.right
  · rcases hopen : w.state.group with _ | opened
    · refine ⟨h, ?_⟩
      have hnone : b = none := by simpa [hopen] using hw.begun
      simpa only [act, GlobalState.groupAbort, Workspace.begun, hopen, hnone] using hw
    · rw [hw.abort hopen]
      exact ⟨h, hw.lawful, rfl, rfl⟩
  · rcases hopen : w.state.group with _ | opened
    · refine ⟨h, ?_⟩
      have hnone : b = none := by simpa [hopen] using hw.begun
      simpa only [act, GlobalState.groupEnd, Workspace.begun, hopen, hnone] using hw
    · exact (hw.groupEnd hopen).2

/-! ### Groups are atomic -/

/-- What an open group, begun in the document `b`, promises. -/
structure GroupLaw (w : Workspace C D) (b : Option D) : Prop where
  begun : b.isSome = w.state.group.isSome
  /-- `group_abort` restores the document of `group_begin` and records nothing. -/
  abort : ∀ d, b = some d → w.act .groupAbort = ⟨{ w.state with group := none }, d⟩
  /-- `group_end` records one row, whose undo leads back to the document of `group_begin`. -/
  record : ∀ d opened, b = some d → w.state.group = some opened → opened.multi.isVoid = false →
    w.state.stack.RecordsAfter (w.act .groupEnd).state.stack ∧
      (w.act .groupEnd).doc = w.doc ∧ ((w.act .groupEnd).act .undo).doc = d
  /-- An empty group leaves nothing behind. -/
  discard : ∀ d opened, b = some d → w.state.group = some opened → opened.multi.isVoid = true →
    w.act .groupEnd = ⟨⟨w.state.stack, none⟩, d⟩

theorem Grouped.groupLaw (hw : Grouped w b h) : GroupLaw w b := by
  have hopened (d : D) (hb : b = some d) : d = h.now ∧ ∃ opened, w.state.group = some opened := by
    have hmap := hw.begun
    rw [hb] at hmap
    rcases hopen : w.state.group with _ | opened
    · simp [hopen] at hmap
    · exact ⟨by simpa [hopen] using hmap, opened, rfl⟩
  refine ⟨?_, fun d hb => ?_, fun d opened hb hopen hvoid => ?_, fun d opened hb hopen hvoid => ?_⟩
  · rw [hw.begun, Option.isSome_map]
  · obtain ⟨rfl, opened, hopen⟩ := hopened d hb
    exact hw.abort hopen
  · obtain ⟨rfl, -⟩ := hopened d hb
    have happ := hw.applied hopen
    have hfull : w.state.stack.doneCount ≤ kMaxUndoCommands := by
      rw [hw.lawful.represents.doneCount_eq]
      exact h.position_le_rows.trans hw.lawful.rows_le
    have hstack : w.state.stack.pushPreExecuted opened.multi opened.name =
        w.state.stack.recordRow ⟨opened.multi.setDone true, opened.name⟩ := by
      simp only [pushPreExecuted, hvoid, Bool.false_eq_true, ↓reduceIte]
    rw [(hw.groupEnd hopen).1, hstack]
    refine ⟨recordsAfter_recordRow hfull _, rfl, ?_⟩
    simp only [act, GlobalState.undo, GlobalState.jump, jump_pred]
    rw [undo_recordRow _ happ.2.1]
    exact happ.undoNow.1
  · obtain ⟨rfl, -⟩ := hopened d hb
    have hdoc := (hw.applied hopen).eq_of_isVoid ((isVoid_setDone _ _).trans hvoid)
    rw [(hw.groupEnd hopen).1, hdoc, pushPreExecuted, if_pos hvoid]

/-! ### Properties of the past -/

section Past

variable {Q : D → Prop} (hredo : ∀ (op : C) (d : D), Q (Command.redo op d).2 → Q d)
  (hundo : ∀ (op : C) (d : D), Q (Command.undo op d).2 → Q d)

include hredo hundo

/-- A property of the past is the same in the current document of the stack and in its base. -/
private theorem now_past_iff {s : UndoStack C} (hr : Represents s h) : Q h.now ↔ Q h.base := by
  refine hr.done.getLastD_iff fun entry d d' hrow => ?_
  rw [RowDone] at hrow
  split_ifs at hrow
  · rw [hrow]
  · exact hrow.past_iff hredo hundo

theorem Grouped.past_iff (hw : Grouped w b h) : Q w.doc ↔ Q h.base := by
  rw [← now_past_iff hredo hundo hw.lawful.represents]
  have hcoll := hw.collected
  rcases hopen : w.state.group with _ | opened
  · rw [hopen] at hcoll
    rw [show w.doc = h.now from hcoll]
  · rw [hopen] at hcoll
    obtain ⟨cs, f, ds, -, -, -, hchain, hdoc⟩ := hcoll
    rw [hdoc]
    exact hchain.getLastD_iff fun c d d' happ => happ.past_iff hredo hundo

theorem Grouped.past_act (hw : Grouped w b h) {a : Call C D} (hrev : w.Reverses a)
    (hund : w.Undisturbed a) (hQ : Q w.doc) : Q (w.act a).doc := by
  have hmoved {w' : Workspace C D} (hw' : ∃ h', h'.base = h.base ∧ Grouped w' b h') : Q w'.doc := by
    obtain ⟨h', hbase, hw'⟩ := hw'
    rw [hw'.past_iff hredo hundo, hbase, ← hw.past_iff hredo hundo]
    exact hQ
  rcases a with name | ⟨c, name, handed⟩ | _ | _ | k | _ | _
  · rcases hopen : w.state.group with _ | opened <;>
      simpa only [act, GlobalState.groupBegin, hopen] using hQ
  · have hran : Q (c.redoNow handed).2 := (hrev.redoNow.past_iff hredo hundo).2 hQ
    rcases hopen : w.state.group with _ | opened
    · by_cases hvoid : c.isVoid = true
      · have hback := HandedOver.eq_of_isVoid hrev hvoid
        simpa only [act, GlobalState.push, UndoStack.push, hopen, hvoid, hback, ↓reduceIte] using hQ
      · simpa only [act, GlobalState.push, UndoStack.push, hopen, hvoid, Bool.false_eq_true,
          ↓reduceIte] using hran
    · simpa only [act, GlobalState.push, hopen] using hran
  · exact hmoved (hw.undo hund)
  · exact hmoved (hw.redo hund)
  · exact hmoved (hw.jump hund)
  · rcases hopen : w.state.group with _ | opened
    · simpa only [act, GlobalState.groupAbort, hopen] using hQ
    · rw [hw.abort hopen]
      rw [hw.past_iff hredo hundo] at hQ
      exact (now_past_iff hredo hundo hw.lawful.represents).2 hQ
  · rcases hopen : w.state.group with _ | opened <;>
      simpa only [act, GlobalState.groupEnd, hopen] using hQ

/-- An undisturbed run. -/
theorem grouped_run {d : D} (hd : Q d) {cs : List (Call C D)}
    (hcs : Permitted act (fun w a => w.Reverses a ∧ w.Undisturbed a) (start d) cs) :
    Q (run act (start d) cs).doc ∧
      ∃ h, Grouped (run act (start d) cs) (run track (start d, none) cs).2 h := by
  have hpairs : Q (run track (start d, none) cs).1.doc ∧
      ∃ h, Grouped (run track (start d, none) cs).1 (run track (start d, none) cs).2 h :=
    invariant_run (I := fun t : Workspace C D × Option D => Q t.1.doc ∧ ∃ h, Grouped t.1 t.2 h)
      (fun _ _ ⟨hQ, _, hw⟩ ha => ⟨hw.past_act hredo hundo ha.1 ha.2 hQ, grouped_act hw ha.1 ha.2⟩)
      ⟨hd, _, grouped_start d⟩ (permitted_shadow.2 hcs)
  rwa [track, run_shadow_fst] at hpairs

end Past

end Workspace

/-! ### Runs in order -/

/-- An operation that remembers the document its last run left, or the one it was created in. -/
structure Tracked (C D : Type*) where
  op : C
  left : D

namespace Tracked

variable {C D : Type*} [Command C D]

/-- The documents of tracked operations remember whether every run so far has started in the
document that the operation left last. -/
instance : Command (Tracked C D) (D × Prop) where
  redo t x := (⟨(Command.redo t.op x.1).1, (Command.redo t.op x.1).2⟩,
    ((Command.redo t.op x.1).2, x.2 ∧ x.1 = t.left))
  undo t x := (⟨(Command.undo t.op x.1).1, (Command.undo t.op x.1).2⟩,
    ((Command.undo t.op x.1).2, x.2 ∧ x.1 = t.left))

/-- A tracked operation is reversible, in order, exactly where the operation is and where it was
created. -/
theorem before_iff {op : C} {left d d' : D} :
    Before (⟨op, left⟩ : Tracked C D) (d, True) (d', True) ↔ left = d ∧ Before op d d' := by
  constructor
  · rintro ⟨I, J, halt, hop⟩
    have hrun (t : Tracked C D) (ht : I t) : t.left = d := by
      have hflag := congrArg Prod.snd (halt.run t ht).1
      simp only [forward, Command.redo, true_and, eq_iff_iff, iff_true] at hflag
      exact hflag.symm
    refine ⟨hrun _ hop, fun c => ∃ l, I ⟨c, l⟩, fun c => ∃ l, J ⟨c, l⟩, ⟨?_, ?_⟩, left, hop⟩
    · rintro c ⟨l, hc⟩
      exact ⟨congrArg Prod.fst (halt.run _ hc).1, _, (halt.run _ hc).2⟩
    · rintro c ⟨l, hc⟩
      exact ⟨congrArg Prod.fst (halt.unrun _ hc).1, _, (halt.unrun _ hc).2⟩
  · rintro ⟨rfl, I, J, halt, hop⟩
    refine ⟨fun t => I t.op ∧ t.left = left, fun t => J t.op ∧ t.left = d', ⟨?_, ?_⟩, hop, rfl⟩
    · rintro ⟨c, l⟩ ⟨hc, rfl⟩
      obtain ⟨hdoc, hJ⟩ := halt.run c hc
      simp only [forward] at hdoc hJ
      simp [forward, Command.redo, hdoc, hJ]
    · rintro ⟨c, l⟩ ⟨hc, rfl⟩
      obtain ⟨hdoc, hI⟩ := halt.unrun c hc
      simp only [backward] at hdoc hI
      simp [backward, Command.undo, hdoc, hI]

theorem handedOver {op : C} {d d' : D} {x : D × Prop} (hx : x = (d, True)) (hop : Before op d d') :
    HandedOver (.new (⟨op, d⟩ : Tracked C D)) x (d, True) := by
  subst hx
  exact ⟨rfl, _, pending_new (before_iff.2 ⟨rfl, hop⟩)⟩

end Tracked

namespace Workspace

variable {C D : Type*} [Command C D]

/-- In every run that moves the stack only while no group is open, commands are redone only in
the document their last undo or their creation left and undone only in the one their redo left,
and groups are atomic. -/
theorem groups_atomic {d : D} {cs : List (Call (Tracked C D) (D × Prop))}
    (hcs : Permitted act (fun w a => w.Reverses a ∧ w.Undisturbed a) (start (d, True)) cs) :
    (run act (start (d, True)) cs).doc.2 ∧
      GroupLaw (run act (start (d, True)) cs) (run track (start (d, True), none) cs).2 := by
  obtain ⟨horder, h, hw⟩ := grouped_run (Q := fun x : D × Prop => x.2)
    (fun _ _ => And.left) (fun _ _ => And.left) trivial hcs
  exact ⟨horder, hw.groupLaw⟩

/-- A group of two renames, taken back and done again, and a group that stays open. -/
def groupedRenames : List (Call (Tracked (Overwrite ℕ) ℕ) (ℕ × Prop)) :=
  [.groupBegin "g", .push (.new ⟨⟨1, 0⟩, 0⟩) "a" (0, True),
    .push (.new ⟨⟨2, 0⟩, 1⟩) "b" (1, True), .groupEnd, .undo, .redo, .groupBegin "h",
    .push (.new ⟨⟨3, 0⟩, 2⟩) "c" (2, True)]

theorem groups_atomic_renames :
    (run act (start (0, True)) groupedRenames).doc.2 ∧
      GroupLaw (run act (start (0, True)) groupedRenames)
        (run track (start (0, True), none) groupedRenames).2 := by
  refine groups_atomic ⟨⟨trivial, trivial⟩,
    ⟨Tracked.handedOver rfl (Overwrite.before _ _), trivial⟩,
    ⟨Tracked.handedOver ?_ (Overwrite.before _ _), trivial⟩, ⟨trivial, trivial⟩,
    ⟨trivial, fun hopen => ?_⟩, ⟨trivial, fun hopen => ?_⟩, ⟨trivial, trivial⟩,
    ⟨Tracked.handedOver ?_ (Overwrite.before _ _), trivial⟩, trivial⟩
  · exact Prod.ext rfl (eq_true ⟨trivial, rfl⟩)
  · cases hopen
  · cases hopen
  · exact Prod.ext rfl (eq_true ⟨⟨⟨⟨⟨trivial, rfl⟩, rfl⟩, rfl⟩, rfl⟩, rfl⟩)

/-- The undo of the older rename runs on what the open group has written. -/
theorem undo_disturbs_open_group :
    ¬ ∀ cs : List (Call (Tracked (Overwrite ℕ) ℕ) (ℕ × Prop)),
      Permitted act Reverses (start (0, True)) cs → (run act (start (0, True)) cs).doc.2 := by
  intro hall
  have hrun := hall [.push (.new ⟨⟨1, 0⟩, 0⟩) "a" (0, True), .groupBegin "g",
    .push (.new ⟨⟨2, 0⟩, 1⟩) "b" (1, True), .undo]
    ⟨Tracked.handedOver rfl (Overwrite.before _ _), trivial,
      Tracked.handedOver (Prod.ext rfl (eq_true ⟨trivial, rfl⟩)) (Overwrite.before _ _), trivial,
      trivial⟩
  have hleft : (2 : ℕ) = 1 := hrun.2
  omega

end Workspace

end Oak.Undo
