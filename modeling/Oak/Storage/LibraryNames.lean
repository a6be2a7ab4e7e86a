import Oak.Storage.Library

/-!
# The names in the library

Every row of the library has a name, which the library manager lists. The first save of a project
enters the row under the display name of the project, a rename changes the name, and a duplicate
is entered under a name of its own. A later save that writes journal rows sets the name of the row
again, to the display name of the project.

* `Rows.act` is one of these operations, with the settings, journal and snapshots it writes.
* `Names.act` says what the names are meant to be: a save only ever enters a name.

## Main results

* `names_act_iff`: the names after one operation, when they were right before it.
* `names_run_iff`: the runs in which a library rename lasts.
-/

namespace Oak.Storage

open Oak.Lib (run Permitted shadow forall_run_iff run_shadow_fst run_shadow_snd permitted_shadow)

/-- What a save reads of a project. -/
structure Project where
  uuid : Text
  settings : Text → Option Text
  /-- The fragments and the settings element. -/
  state : ProjectState

/-- `project_display_name` -/
def Project.displayName (p : Project) : Text :=
  (p.settings "projectname".toList).getD "Untitled Project".toList

/-- A row of the `projects` table, with the rows of the other tables that belong to it. -/
structure Row where
  name : Text
  library : Library

/-- The rows of the library, under their uuids, which are unique. -/
abbrev Rows := Text → Option Row

/-- What the library manager and the editor ask for. -/
inductive LibraryOp
  /-- `save_project`, with the snapshot interval and the retention window it reads. -/
  | save (p : Project) (now : Time) (interval days : ℤ)
  | rename (uuid newName : Text)
  /-- `duplicate_project`, with the uuid it makes up. -/
  | duplicate (uuid newUuid : Text) (newName : Option Text)

/-- The name of a copy. -/
def copyName (name : Text) (newName : Option Text) : Text := newName.getD (name ++ " (copy)".toList)

/-- The row after `save_tx_once`. A later save without a change keeps the name. -/
def Row.save (row : Row) (p : Project) (now : Time) (interval days : ℤ) : Row where
  name := if row.library.commandSeq ≠ 0 ∧ saveChanges row.library p.state = [] then row.name
    else p.displayName
  library := saveTx p.state now interval days row.library

/-- One operation. A row that is missing, or a uuid that is taken, changes nothing. -/
def Rows.act (rows : Rows) : LibraryOp → Rows
  | .save p now interval days =>
    let row := (rows p.uuid).getD ⟨p.displayName, Library.new p.uuid⟩
    Function.update rows p.uuid (some (row.save p now interval days))
  | .rename uuid newName =>
    Function.update rows uuid ((rows uuid).map fun row => { row with name := newName })
  | .duplicate uuid newUuid newName =>
    match rows uuid, rows newUuid with
    | some src, none => Function.update rows newUuid
        (some ⟨copyName src.name newName, Oak.Storage.act src.library (.duplicate newUuid)⟩)
    | _, _ => rows

/-- The library before the first save. -/
def Rows.empty : Rows := fun _ => none

/-- The names of the projects in the library. -/
abbrev Names := Text → Option Text

variable (rows : Rows)

/-- The names that the manager lists. -/
def Rows.names : Names := fun uuid => (rows uuid).map Row.name

/-- What one operation is meant to do to the names. A save enters the display name of a project
that is not there yet, and does nothing else to them. -/
def Names.act (names : Names) : LibraryOp → Names
  | .save p _ _ _ => Function.update names p.uuid (some ((names p.uuid).getD p.displayName))
  | .rename uuid newName => Function.update names uuid ((names uuid).map fun _ => newName)
  | .duplicate uuid newUuid newName =>
    match names uuid, names newUuid with
    | some name, none => Function.update names newUuid (some (copyName name newName))
    | _, _ => names

/-- A save of a project that is in the library changes none of it, or finds it listed under its
display name. -/
def NameKept : LibraryOp → Prop
  | .save p _ _ _ => ∀ row, rows p.uuid = some row →
      replayState row.library row.library.commandSeq = p.state ∨ p.displayName = row.name
  | _ => True

/-! ### One operation -/

/-- Every project in the library was saved. -/
def Rows.Saved : Prop :=
  ∀ uuid row, rows uuid = some row → row.library.commandSeq ≠ 0

theorem commandSeq_pruneSnapshots (db : Library) :
    (pruneSnapshots db).commandSeq = db.commandSeq := by
  dsimp only [pruneSnapshots]
  split_ifs
  · rfl
  · rfl

theorem commandSeq_writeSnapshot (now : Time) (db : Library) :
    (writeSnapshot now db).commandSeq = db.commandSeq := by
  rw [writeSnapshot]
  split_ifs
  · rfl
  · rfl

theorem commandSeq_maybeSnapshot (interval : ℤ) (now : Time) (db : Library) :
    (maybeSnapshot interval now db).commandSeq = db.commandSeq := by
  rw [maybeSnapshot]
  split_ifs
  · rw [commandSeq_pruneSnapshots, commandSeq_writeSnapshot]
  · rfl

theorem commandSeq_retentionPrune (days : ℤ) (now : Time) (db : Library) :
    (retentionPrune days now db).commandSeq = db.commandSeq := by
  rw [retentionPrune]
  split_ifs
  · rfl
  · split
    · rfl
    · rfl

theorem commandSeq_saveTx_ne_zero (cur : ProjectState) (now : Time) (interval days : ℤ)
    (db : Library) : (saveTx cur now interval days db).commandSeq ≠ 0 := by
  rw [saveTx]
  split_ifs with h
  · exact h.1
  · rw [commandSeq_retentionPrune, commandSeq_maybeSnapshot]
    exact Nat.succ_ne_zero _

theorem Rows.Saved.update {rows : Rows} (h : rows.Saved) (uuid : Text) {row : Option Row}
    (hrow : ∀ r, row = some r → r.library.commandSeq ≠ 0) :
    Rows.Saved (Function.update rows uuid row) := by
  intro key r hr
  rw [Function.update_apply] at hr
  split_ifs at hr
  · exact hrow r hr
  · exact h key r hr

theorem Rows.Saved.act {rows : Rows} (h : rows.Saved) (op : LibraryOp) : (rows.act op).Saved := by
  cases op with
  | save p now interval days =>
    refine h.update p.uuid fun r hr => ?_
    rw [← Option.some.inj hr]
    exact commandSeq_saveTx_ne_zero _ _ _ _ _
  | rename uuid newName =>
    refine h.update uuid fun r hr => ?_
    obtain ⟨row, hrow, rfl⟩ := Option.map_eq_some_iff.1 hr
    exact h uuid row hrow
  | duplicate uuid newUuid newName =>
    dsimp only [Rows.act]
    split
    · next src hsrc _ =>
      refine h.update newUuid fun r hr => ?_
      rw [← Option.some.inj hr]
      exact h uuid src hsrc
    · exact h

theorem name_save_iff {row : Row} (hrow : row.library.commandSeq ≠ 0) (p : Project) (now : Time)
    (interval days : ℤ) : (row.save p now interval days).name = row.name ↔
      replayState row.library row.library.commandSeq = p.state ∨ p.displayName = row.name := by
  simp only [Row.save, saveChanges, if_neg hrow, headChanges_eq_nil]
  split_ifs with h
  · exact iff_of_true rfl (Or.inl h.2)
  · exact (or_iff_right fun hsame => h ⟨hrow, hsame⟩).symm

theorem name_save_new (p : Project) (now : Time) (interval days : ℤ) :
    (Row.save ⟨p.displayName, Library.new p.uuid⟩ p now interval days).name = p.displayName := by
  dsimp only [Row.save]
  exact ite_self p.displayName

theorem names_update (uuid : Text) (row : Option Row) :
    Rows.names (Function.update rows uuid row) =
      Function.update rows.names uuid (row.map Row.name) := by
  funext key
  rw [Rows.names, Function.update_apply, Function.update_apply]
  split_ifs
  · rfl
  · rfl

/-- The operations other than a save of a project in the library treat the names as they are meant
to. -/
theorem names_act_iff {rows : Rows} (h : rows.Saved) (op : LibraryOp) :
    (rows.act op).names = rows.names.act op ↔ NameKept rows op := by
  cases op with
  | save p now interval days =>
    dsimp only [Rows.act, Names.act, NameKept]
    rw [names_update, (Function.update_injective _ _).eq_iff]
    cases hrow : rows p.uuid with
    | none =>
      refine iff_of_true ?_ fun _ => nofun
      rw [Rows.names, hrow]
      exact congrArg some (name_save_new p now interval days)
    | some row =>
      rw [Rows.names, hrow]
      exact Option.some_inj.trans ((name_save_iff (h p.uuid row hrow) p now interval days).trans
        ⟨fun hkept _ hr => Option.some.inj hr ▸ hkept, fun hkept => hkept row rfl⟩)
  | rename uuid newName =>
    refine iff_of_true ?_ trivial
    dsimp only [Rows.act, Names.act]
    rw [names_update]
    dsimp only [Rows.names]
    rw [Option.map_map, Option.map_map]
    rfl
  | duplicate uuid newUuid newName =>
    refine iff_of_true ?_ trivial
    dsimp only [Rows.act, Names.act, Rows.names]
    cases hsrc : rows uuid with
    | none => rfl
    | some src =>
      cases hnew : rows newUuid with
      | none => exact names_update rows newUuid _
      | some row => rfl

/-! ### Runs -/

/-- In a run of saves, renames and duplicates, the library lists every project under the name that
was given last, exactly when each save of a project in the library changes none of it or finds it
listed under its display name. -/
theorem names_run_iff (ops : List LibraryOp) :
    (∀ bs cs, ops = bs ++ cs →
      (run Rows.act .empty bs).names = run Names.act Rows.empty.names bs) ↔
    Permitted Rows.act NameKept .empty ops := by
  have hsaved : ∀ (t : Rows × Names) op, t.1.Saved →
      (shadow Rows.act (fun t op => Names.act t.2 op) t op).1.Saved :=
    fun t op h => h.act op
  have hstep : ∀ (t : Rows × Names) op, t.1.Saved → t.1.names = t.2 →
      ((shadow Rows.act (fun t op => Names.act t.2 op) t op).1.names =
        (shadow Rows.act (fun t op => Names.act t.2 op) t op).2 ↔ NameKept t.1 op) := by
    intro t op h hnames
    dsimp only [shadow]
    rw [← hnames]
    exact names_act_iff h op
  have hempty : Rows.Saved .empty := fun _ _ hr => nomatch hr
  have h : _ ↔ Permitted _ (fun t op => NameKept t.1 op) (Rows.empty, Rows.empty.names) ops :=
    forall_run_iff hsaved hstep hempty rfl
  simp only [run_shadow_fst, run_shadow_snd] at h
  exact h.trans permitted_shadow

/-- A project with the settings element as its only content. -/
def sampleProject (settings : String) : Project where
  uuid := "{5e5a1e}".toList
  settings := fun _ => none
  state := ⟨∅, settings.toList⟩

/-- A project is entered, renamed in the library manager, and saved after an edit. -/
def sampleOps : List LibraryOp :=
  [.save (sampleProject "<settings>1</settings>") 0 600 0, .rename "{5e5a1e}".toList "Cut".toList,
    .save (sampleProject "<settings>2</settings>") 1 600 0]

theorem rename_overwritten :
    ¬∀ ops : List LibraryOp, (run Rows.act .empty ops).names =
      run Names.act Rows.empty.names ops := by
  intro h
  have hname := congrFun (h sampleOps) "{5e5a1e}".toList
  revert hname
  decide +kernel

end Oak.Storage
