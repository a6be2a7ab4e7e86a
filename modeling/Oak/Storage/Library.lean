import Mathlib.Algebra.Group.Int.Defs
import Mathlib.Algebra.Group.Nat.Defs
import Mathlib.Data.List.Sort
import Oak.Lib.Machine
import Oak.Lib.Journal
import Oak.Storage.Fragments

/-!
# A library project

A project of the library is its head sequence number, its journal and its snapshots. A save
compares the project with the replayed head and writes one journal row for each node that differs,
with the fragment before and after; row identity `0` is the settings element, and a node has its
identity plus one. A snapshot is the document of the head; the newest three are kept. Old journal
rows that the newest snapshot covers are dropped from the retention window on.

* The tables are lists in the order of their primary keys, which is the order the queries ask for.
* `Action` is what happens to the project: a save, a forced snapshot, and going on with a copy of
  the project under another uuid, which takes the tables along.
* `History` records what was saved and which rows were written; no action reads it.

## Main results

* `projectRows`: journal rows as rows over the cells of a project state.
* `isDiff_importChanges`, `isDiff_headChanges`: the rows of a save are the difference between two
  states.
-/

namespace Oak.Storage

open Oak.Lib (span)

/-- Nanoseconds. -/
abbrev Time := ℤ

/-- The journal kinds that saving writes. -/
inductive JournalKind
  | kindImport
  | kindRedo
  deriving DecidableEq

/-- A row of the `journal` table. -/
structure JournalRow where
  seq : ℕ
  nodeIdentity : ℕ
  kind : JournalKind
  oldXml : Option Text
  newXml : Option Text
  atTime : Time
  deriving DecidableEq

/-- A row of the `snapshots` table. -/
structure Snapshot where
  commandSeq : ℕ
  payload : Text
  writtenAt : Time
  deriving DecidableEq

/-- The rows of one project. A project without a command has no row in the library yet. -/
structure Library where
  uuid : Text
  commandSeq : ℕ
  journal : List JournalRow
  snapshots : List Snapshot
  deriving DecidableEq

/-- `SETTINGS_NODE`. -/
def settingsNode : ℕ := 0

/-- `SNAPSHOT_KEEP`. -/
def snapshotKeep : ℕ := 3

/-! ### Replay -/

variable (p : ProjectState)

/-- What a journal row does to the state, with one of its two images. -/
def setImage : ℕ → Option Text → ProjectState
  | 0, xml => { p with settings := xml.getD emptySettings }
  | identity + 1, some xml => { p with nodes := p.nodes.insert identity xml }
  | identity + 1, none => { p with nodes := p.nodes.erase identity }

variable (db : Library) (target : ℕ)

/-- The newest snapshot at or before `target`. -/
def newestSnapshot : Option Snapshot :=
  (db.snapshots.filter fun s => s.commandSeq ≤ target).getLast?

/-- The sequence number of the replay base. -/
def baseSeq : ℕ :=
  match newestSnapshot db target with
  | some s => s.commandSeq
  | none => 0

/-- The state of the replay base. -/
def baseState : ProjectState :=
  match newestSnapshot db target with
  | some s => ⟨extractNodes s.payload, extractSettings s.payload⟩
  | none => .empty

/-- `replay_state`. -/
def replayState : ProjectState :=
  (span JournalRow.seq (baseSeq db target) target db.journal).foldl
    (fun p r => setImage p r.nodeIdentity r.newXml) (baseState db target)

/-- `assemble_at`. -/
def assembleAt : Text :=
  assembleXml db.uuid (replayState db target)

/-- The rows after `target` undone from the head, with their old images. -/
def undoState : ProjectState :=
  (span JournalRow.seq target db.commandSeq db.journal).foldr
    (fun r p => setImage p r.nodeIdentity r.oldXml) (replayState db db.commandSeq)

/-! ### Saving -/

/-- A changed cell: a row before it is written. -/
structure Change where
  identity : ℕ
  old : Option Text
  new : Option Text
  deriving DecidableEq

/-- The rows in the order of their identities, which differ. -/
def sortChanges (cs : List Change) : List Change :=
  cs.insertionSort fun c c' => c.identity ≤ c'.identity

/-- The row of a node of the new state, when it is new or differs. -/
def changedRow (prev : NodeMap) (e : ℕ × Text) : Option Change :=
  match prev[e.1]? with
  | some old => if old ≠ e.2 then some ⟨e.1 + 1, some old, some e.2⟩ else none
  | none => some ⟨e.1 + 1, none, some e.2⟩

/-- The row of a node of the old state, when it is gone. -/
def removedRow (cur : NodeMap) (e : ℕ × Text) : Option Change :=
  if cur.contains e.1 then none else some ⟨e.1 + 1, some e.2, none⟩

/-- `diff_rows`. -/
def diffRows (prev cur : NodeMap) : List Change :=
  sortChanges (cur.toList.filterMap (changedRow prev) ++ prev.toList.filterMap (removedRow cur))

variable (cur : ProjectState)

/-- The rows of the first entry. -/
def importChanges : List Change :=
  sortChanges ((cur.nodes.toList.map fun e => ⟨e.1 + 1, none, some e.2⟩) ++
    [⟨settingsNode, none, some cur.settings⟩])

/-- The rows of a later entry, against the replayed head. -/
def headChanges (prev cur : ProjectState) : List Change :=
  sortChanges (diffRows prev.nodes cur.nodes ++
    if prev.settings ≠ cur.settings then
      [⟨settingsNode, some prev.settings, some cur.settings⟩]
    else [])

/-- The rows that saving `cur` writes. -/
def saveChanges : List Change :=
  if db.commandSeq = 0 then importChanges cur
  else headChanges (replayState db db.commandSeq) cur

/-- `write_journal_rows`, the rows of one command. -/
def journalRows (now : Time) (cs : List Change) : List JournalRow :=
  cs.map fun c => ⟨db.commandSeq + 1, c.identity,
    if db.commandSeq = 0 then .kindImport else .kindRedo, c.old, c.new, now⟩

/-- `write_snapshot` at the head. -/
def writeSnapshot (now : Time) (db : Library) : Library :=
  if ∃ s ∈ db.snapshots, s.commandSeq = db.commandSeq then db
  else { db with snapshots :=
    db.snapshots ++ [⟨db.commandSeq, assembleAt db db.commandSeq, now⟩] }

/-- `prune_snapshots`. -/
def pruneSnapshots : Library :=
  let keep := (db.snapshots.reverse.take snapshotKeep).map Snapshot.commandSeq
  if keep = [] then db
  else { db with snapshots := db.snapshots.filter fun s => s.commandSeq ∈ keep }

/-- The snapshot policy. -/
def snapshotDue (interval : ℤ) (now : Time) (db : Library) : Bool :=
  match db.snapshots.getLast? with
  | none => true
  | some s => s.commandSeq < db.commandSeq ∧
      (interval ≤ 0 ∨ interval ≤ (now - s.writtenAt).tdiv (10 ^ 9))

/-- `maybe_snapshot`. -/
def maybeSnapshot (interval : ℤ) (now : Time) (db : Library) : Library :=
  if snapshotDue interval now db then pruneSnapshots (writeSnapshot now db) else db

/-- `retention_prune`. -/
def retentionPrune (days : ℤ) (now : Time) (db : Library) : Library :=
  if days ≤ 0 then db
  else
    match db.snapshots.getLast? with
    | none => db
    | some s => { db with journal := db.journal.filter fun r =>
        ¬ (r.seq ≤ s.commandSeq ∧ r.atTime < now - days * (86400 * 10 ^ 9)) }

/-- `save_tx_once`, with the snapshot interval and the retention window it reads. A later save
without a change writes nothing. -/
def saveTx (now : Time) (interval days : ℤ) (db : Library) : Library :=
  if db.commandSeq ≠ 0 ∧ saveChanges db cur = [] then db
  else retentionPrune days now (maybeSnapshot interval now
    { db with
      commandSeq := db.commandSeq + 1
      journal := db.journal ++ journalRows db now (saveChanges db cur) })

/-! ### Runs -/

/-- What happens to the project. -/
inductive Action
  | save (cur : ProjectState) (now : Time) (interval days : ℤ)
  | snapshot (now : Time)
  | duplicate (uuid : Text)

/-- One action. A snapshot of a project that was never saved is refused. -/
def act : Action → Library
  | .save cur now interval days => saveTx cur now interval days db
  | .snapshot now =>
    if db.commandSeq = 0 then db else pruneSnapshots (writeSnapshot now db)
  | .duplicate uuid => { db with uuid }

/-- What was saved at each command, and the rows that were written. -/
structure History where
  saved : List ProjectState
  written : List JournalRow

/-- The state saved at a command; the empty project before the first one. -/
def History.stateAt (h : History) : ℕ → ProjectState
  | 0 => .empty
  | k + 1 => h.saved[k]?.getD .empty

/-- The history after one more action. -/
def record (t : Library × History) : Action → History
  | .save cur now _ _ =>
    if t.1.commandSeq ≠ 0 ∧ saveChanges t.1 cur = [] then t.2
    else ⟨t.2.saved ++ [cur], t.2.written ++ journalRows t.1 now (saveChanges t.1 cur)⟩
  | _ => t.2

/-- A project that is not in the library yet. -/
def Library.new (uuid : Text) : Library := ⟨uuid, 0, [], []⟩

/-- The library project and its history after a run. -/
def runFrom (uuid : Text) (as : List Action) : Library × History :=
  Oak.Lib.run (Oak.Lib.shadow act record) (Library.new uuid, ⟨[], []⟩) as

/-- A refused load. -/
inductive LoadError
  | notFound
  | invalid
  deriving DecidableEq

/-- `load_at`, up to the document that the serializer loads. -/
def loadAt (seq : ℤ) : Except LoadError Text :=
  if db.commandSeq = 0 then .error .notFound
  else if seq < 0 ∨ (db.commandSeq : ℤ) < seq then .error .invalid
  else .ok (assembleAt db seq.toNat)

/-! ### Rows as cells -/

/-- The cell of a journal identity: the settings element or a fragment. -/
def image : ℕ → Option Text
  | 0 => some p.settings
  | identity + 1 => p.nodes[identity]?

/-- The settings element is never absent. -/
def normImage : ℕ → Option Text → Option Text
  | 0, xml => some (xml.getD emptySettings)
  | _ + 1, xml => xml

theorem image_setImage (k : ℕ) (xml : Option Text) (j : ℕ) :
    image (setImage p k xml) j = if j = k then normImage k xml else image p j := by
  cases k with
  | zero =>
    cases j with
    | zero => rfl
    | succ j => rfl
  | succ k =>
    cases j with
    | zero => cases xml <;> rfl
    | succ j =>
      cases xml with
      | none =>
        show (p.nodes.erase k)[j]? = _
        rw [Std.ExtTreeMap.getElem?_erase]
        simp only [compare_eq_iff_eq, Nat.succ_inj, eq_comm (a := j), normImage, image]
      | some xml =>
        show (p.nodes.insert k xml)[j]? = _
        rw [Std.ExtTreeMap.getElem?_insert]
        simp only [compare_eq_iff_eq, Nat.succ_inj, eq_comm (a := j), normImage, image]

theorem ext_image {p q : ProjectState} (h : ∀ k, image p k = image q k) : p = q := by
  have hnodes : p.nodes = q.nodes := Std.ExtTreeMap.ext_getElem? fun k => h (k + 1)
  have hsettings : p.settings = q.settings := Option.some.inj (h 0)
  cases p
  cases q
  cases hnodes
  cases hsettings
  rfl

/-- Journal rows over the cells of a project state. -/
def projectRows : Oak.Lib.RowStore ProjectState ℕ (Option Text) JournalRow where
  get := image
  set := setImage
  norm := normImage
  key := JournalRow.nodeIdentity
  old := JournalRow.oldXml
  new := JournalRow.newXml
  get_set := image_setImage
  ext _ _ := ext_image

theorem replayState_eq : replayState db target =
    projectRows.forward (baseState db target)
      (span JournalRow.seq (baseSeq db target) target db.journal) := rfl

theorem undoState_eq : undoState db target =
    projectRows.backward (replayState db db.commandSeq)
      (span JournalRow.seq target db.commandSeq db.journal) := rfl

/-! ### The rows of a save -/

variable {c : Change} {cs : List Change}

theorem mem_sortChanges : c ∈ sortChanges cs ↔ c ∈ cs :=
  (List.perm_insertionSort _ cs).mem_iff

theorem nodup_sortChanges : (sortChanges cs).Nodup ↔ cs.Nodup :=
  (List.perm_insertionSort _ cs).nodup_iff

theorem nodup_toList (m : NodeMap) : m.toList.Nodup :=
  Std.ExtTreeMap.distinct_keys_toList.imp fun h heq =>
    h (compare_eq_iff_eq.2 (congrArg Prod.fst heq))

theorem changedRow_eq_some {prev : NodeMap} {e : ℕ × Text} :
    changedRow prev e = some c ↔
      prev[e.1]? ≠ some e.2 ∧ c = ⟨e.1 + 1, prev[e.1]?, some e.2⟩ := by
  rw [changedRow]
  rcases prev[e.1]? with _ | old
  · simp [eq_comm]
  · dsimp only
    by_cases hne : old ≠ e.2
    · rw [if_pos hne]
      simp [hne, eq_comm]
    · rw [if_neg hne]
      simp only [ne_eq, not_not] at hne
      simp [hne]

theorem removedRow_eq_some {cur : NodeMap} {e : ℕ × Text} :
    removedRow cur e = some c ↔ cur[e.1]? = none ∧ c = ⟨e.1 + 1, some e.2, none⟩ := by
  rw [removedRow, Std.ExtTreeMap.contains_eq_isSome_getElem?]
  rcases cur[e.1]? with _ | xml
  · simp [eq_comm]
  · simp

/-- A row for each node that differs, with both of its fragments. -/
theorem mem_diffRows {prev cur : NodeMap} : c ∈ diffRows prev cur ↔
    ∃ identity, prev[identity]? ≠ cur[identity]? ∧
      c = ⟨identity + 1, prev[identity]?, cur[identity]?⟩ := by
  rw [diffRows, mem_sortChanges, List.mem_append, List.mem_filterMap, List.mem_filterMap]
  constructor
  · rintro (⟨e, he, hc⟩ | ⟨e, he, hc⟩)
    · have hcur := Std.ExtTreeMap.mem_toList_iff_getElem?_eq_some.1 he
      rw [changedRow_eq_some, ← hcur] at hc
      exact ⟨e.1, hc⟩
    · have hprev := Std.ExtTreeMap.mem_toList_iff_getElem?_eq_some.1 he
      obtain ⟨hcur, rfl⟩ := removedRow_eq_some.1 hc
      refine ⟨e.1, ?_, ?_⟩
      · rw [hprev, hcur]
        exact Option.some_ne_none _
      · rw [hprev, hcur]
  · rintro ⟨k, hne, rfl⟩
    rcases hcur : cur[k]? with _ | xml
    · obtain ⟨old, hprev⟩ := Option.ne_none_iff_exists'.1 (hcur ▸ hne)
      rw [hprev]
      exact .inr ⟨(k, old), Std.ExtTreeMap.mem_toList_iff_getElem?_eq_some.2 hprev,
        removedRow_eq_some.2 ⟨hcur, rfl⟩⟩
    · rw [hcur] at hne
      exact .inl ⟨(k, xml), Std.ExtTreeMap.mem_toList_iff_getElem?_eq_some.2 hcur,
        changedRow_eq_some.2 ⟨hne, rfl⟩⟩

theorem nodup_diffRows (prev cur : NodeMap) : (diffRows prev cur).Nodup := by
  rw [diffRows, nodup_sortChanges]
  refine List.Nodup.append (List.Nodup.filterMap ?_ (nodup_toList cur))
    (List.Nodup.filterMap ?_ (nodup_toList prev)) fun c hcur hprev => ?_
  · intro e f c hc hd
    obtain ⟨-, rfl⟩ := changedRow_eq_some.1 hc
    obtain ⟨-, heq⟩ := changedRow_eq_some.1 hd
    simp only [Change.mk.injEq, Nat.succ_inj, Option.some.injEq] at heq
    exact Prod.ext heq.1 heq.2.2
  · intro e f c hc hd
    obtain ⟨-, rfl⟩ := removedRow_eq_some.1 hc
    obtain ⟨-, heq⟩ := removedRow_eq_some.1 hd
    simp only [Change.mk.injEq, Nat.succ_inj, Option.some.injEq] at heq
    exact Prod.ext heq.1 heq.2.1
  · -- a row of the first part has a new fragment, a row of the second part has none
    obtain ⟨e, -, he⟩ := List.mem_filterMap.1 hcur
    obtain ⟨f, -, hf⟩ := List.mem_filterMap.1 hprev
    obtain ⟨-, rfl⟩ := changedRow_eq_some.1 he
    obtain ⟨-, heq⟩ := removedRow_eq_some.1 hf
    exact Option.some_ne_none _ (Change.mk.inj heq).2.2

/-- A row for each cell that differs, with both of its images. -/
theorem mem_headChanges {prev cur : ProjectState} : c ∈ headChanges prev cur ↔
    ∃ k, image prev k ≠ image cur k ∧ c = ⟨k, image prev k, image cur k⟩ := by
  rw [headChanges, mem_sortChanges, List.mem_append, mem_diffRows]
  constructor
  · rintro (⟨identity, h⟩ | hc)
    · exact ⟨identity + 1, h⟩
    · by_cases hne : prev.settings ≠ cur.settings
      · rw [if_pos hne, List.mem_singleton] at hc
        exact ⟨0, fun heq => hne (Option.some.inj heq), hc⟩
      · rw [if_neg hne] at hc
        cases hc
  · rintro ⟨k | identity, hne, rfl⟩
    · have hsettings : prev.settings ≠ cur.settings := fun heq => hne (congrArg some heq)
      rw [if_pos hsettings]
      exact .inr (List.mem_singleton_self _)
    · exact .inl ⟨identity, hne, rfl⟩

theorem nodup_headChanges (prev cur : ProjectState) : (headChanges prev cur).Nodup := by
  rw [headChanges, nodup_sortChanges]
  refine (nodup_diffRows _ _).append (by split_ifs <;> simp) fun c hc hsettings => ?_
  obtain ⟨identity, -, rfl⟩ := mem_diffRows.1 hc
  by_cases hne : prev.settings ≠ cur.settings
  · rw [if_pos hne, List.mem_singleton] at hsettings
    exact absurd (Change.mk.inj hsettings).1 (Nat.succ_ne_zero identity)
  · rw [if_neg hne] at hsettings
    cases hsettings

theorem mem_importChanges {cur : ProjectState} : c ∈ importChanges cur ↔
    ∃ k, (image cur k).isSome = true ∧ c = ⟨k, none, image cur k⟩ := by
  rw [importChanges, mem_sortChanges, List.mem_append, List.mem_map, List.mem_singleton]
  constructor
  · rintro (⟨e, he, rfl⟩ | rfl)
    · have hcur := Std.ExtTreeMap.mem_toList_iff_getElem?_eq_some.1 he
      exact ⟨e.1 + 1, by rw [image, hcur]; rfl, by rw [image, hcur]⟩
    · exact ⟨0, rfl, rfl⟩
  · rintro ⟨k | identity, hsome, rfl⟩
    · exact .inr rfl
    · obtain ⟨xml, hcur⟩ := Option.isSome_iff_exists.1 hsome
      exact .inl ⟨(identity, xml), Std.ExtTreeMap.mem_toList_iff_getElem?_eq_some.2 hcur,
        by rw [hcur]⟩

theorem nodup_importChanges : (importChanges cur).Nodup := by
  rw [importChanges, nodup_sortChanges]
  refine ((nodup_toList cur.nodes).map fun e f heq => ?_).append (List.nodup_singleton _)
    fun c hc hsettings => ?_
  · simp only [Change.mk.injEq, Nat.succ_inj, Option.some.injEq] at heq
    exact Prod.ext heq.1 heq.2.2
  · obtain ⟨e, -, rfl⟩ := List.mem_map.1 hc
    exact absurd (Change.mk.inj (List.mem_singleton.1 hsettings)).1 (Nat.succ_ne_zero e.1)

theorem headChanges_eq_nil {prev cur : ProjectState} :
    headChanges prev cur = [] ↔ prev = cur := by
  constructor
  · intro h
    refine ext_image fun k => ?_
    by_contra hne
    have hmem : (⟨k, image prev k, image cur k⟩ : Change) ∈ headChanges prev cur :=
      mem_headChanges.2 ⟨k, hne, rfl⟩
    rw [h] at hmem
    cases hmem
  · rintro rfl
    refine List.eq_nil_iff_forall_not_mem.2 fun c hc => ?_
    obtain ⟨k, hne, -⟩ := mem_headChanges.1 hc
    exact hne rfl

theorem seq_journalRows {db : Library} {now : Time} {r : JournalRow}
    (hr : r ∈ journalRows db now cs) : r.seq = db.commandSeq + 1 := by
  obtain ⟨c, -, rfl⟩ := List.mem_map.1 hr
  rfl

/-- Rows with the images of two states, and a row for each cell that differs. -/
theorem isDiff_journalRows {a b : ProjectState} (hcs : cs.Nodup)
    (hold : ∀ c ∈ cs, normImage c.identity c.old = image a c.identity)
    (hnew : ∀ c ∈ cs, c.new = image b c.identity)
    (hkey : ∀ c ∈ cs, ∀ c' ∈ cs, c.identity = c'.identity → c = c')
    (hframe : ∀ k, image a k ≠ image b k → ∃ c ∈ cs, c.identity = k) (db : Library) (now : Time) :
    projectRows.IsDiff a b (journalRows db now cs) where
  nodup := by
    rw [journalRows, List.map_map]
    exact List.Nodup.map_on hkey hcs
  old_eq r hr := by
    obtain ⟨c, hc, rfl⟩ := List.mem_map.1 hr
    exact hold c hc
  new_eq r hr := by
    obtain ⟨c, hc, rfl⟩ := List.mem_map.1 hr
    show normImage c.identity c.new = image b c.identity
    rw [hnew c hc]
    cases c.identity <;> rfl
  frame k hk := by
    by_contra hne
    obtain ⟨c, hc, hck⟩ := hframe k hne
    exact hk _ (List.mem_map_of_mem hc) hck

theorem isDiff_headChanges (prev cur : ProjectState) (db : Library) (now : Time) :
    projectRows.IsDiff prev cur (journalRows db now (headChanges prev cur)) := by
  refine isDiff_journalRows (nodup_headChanges prev cur) ?_ ?_ ?_ ?_ db now
  · intro c hc
    obtain ⟨k, -, rfl⟩ := mem_headChanges.1 hc
    cases k <;> rfl
  · intro c hc
    obtain ⟨k, -, rfl⟩ := mem_headChanges.1 hc
    rfl
  · intro c hc c' hc' heq
    obtain ⟨k, -, rfl⟩ := mem_headChanges.1 hc
    obtain ⟨k', -, rfl⟩ := mem_headChanges.1 hc'
    obtain rfl : k = k' := heq
    rfl
  · intro k hne
    exact ⟨_, mem_headChanges.2 ⟨k, hne, rfl⟩, rfl⟩

theorem isDiff_importChanges (db : Library) (now : Time) :
    projectRows.IsDiff .empty cur (journalRows db now (importChanges cur)) := by
  refine isDiff_journalRows (nodup_importChanges cur) ?_ ?_ ?_ ?_ db now
  · intro c hc
    obtain ⟨k | identity, -, rfl⟩ := mem_importChanges.1 hc
    · rfl
    · exact Std.ExtTreeMap.getElem?_empty.symm
  · intro c hc
    obtain ⟨k, -, rfl⟩ := mem_importChanges.1 hc
    rfl
  · intro c hc c' hc' heq
    obtain ⟨k, -, rfl⟩ := mem_importChanges.1 hc
    obtain ⟨k', -, rfl⟩ := mem_importChanges.1 hc'
    obtain rfl : k = k' := heq
    rfl
  · intro k hne
    refine ⟨_, mem_importChanges.2 ⟨k, ?_, rfl⟩, rfl⟩
    cases k with
    | zero => rfl
    | succ identity =>
      have hempty : image .empty (identity + 1) = none := Std.ExtTreeMap.getElem?_empty
      rw [hempty] at hne
      exact Option.isSome_iff_ne_none.2 hne.symm

end Oak.Storage
