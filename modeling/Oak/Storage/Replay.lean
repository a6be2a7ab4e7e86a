import Oak.Storage.Library

/-!
# Replaying a library project

The journal of a project is what saving wrote, less what retention dropped. A state is replayed
from the newest snapshot before it; the rows between the two are all there, unless retention
dropped one of them and pruning took the snapshots that covered it.

* `Sound db h`: what every run of saveable saves keeps between the tables and the history.
* `Bridged db h k`: between each dropped row up to `k` and `k` itself there is a snapshot.
* `CompleteAt db h k`: no row was dropped that the replay of `k` has to read.

## Main results

* `Sound.run`: every run of saveable saves is sound.
* `replay_of_run`: replay and undo give back what was saved, and a save that changes nothing
  leaves the library as it is.
* `loadAt_iff`: a load is exact or refused exactly when the sequence number is out of range or
  bridged.
* `loadAt_recent`: what retention never breaks.
-/

namespace Oak.Storage

open Oak.Lib (span Kept)

/-! ### Snapshots by sequence number -/

theorem getLast?_commandSeq {l : List Snapshot}
    (hl : l.Pairwise fun s s' => s.commandSeq < s'.commandSeq) {s : Snapshot}
    (hs : l.getLast? = some s) : s ∈ l ∧ ∀ s' ∈ l, s'.commandSeq ≤ s.commandSeq := by
  obtain ⟨init, rfl⟩ := List.getLast?_eq_some_iff.1 hs
  refine ⟨List.mem_append_right _ (List.mem_singleton_self s), fun s' hs' => ?_⟩
  obtain hs' | hs' := List.mem_append.1 hs'
  · exact le_of_lt ((List.pairwise_append.1 hl).2.2 s' hs' s (List.mem_singleton_self s))
  · rw [List.mem_singleton.1 hs']

variable {k : ℕ}

theorem newestSnapshot_eq_some {db : Library}
    (hdb : db.snapshots.Pairwise fun s s' => s.commandSeq < s'.commandSeq) {s : Snapshot}
    (hs : newestSnapshot db k = some s) : s ∈ db.snapshots ∧ s.commandSeq ≤ k ∧
      ∀ s' ∈ db.snapshots, s'.commandSeq ≤ k → s'.commandSeq ≤ s.commandSeq := by
  obtain ⟨hmem, hmax⟩ := getLast?_commandSeq (hdb.filter _) hs
  rw [List.mem_filter, decide_eq_true_iff] at hmem
  refine ⟨hmem.1, hmem.2, fun s' hs' hle => hmax s' ?_⟩
  rw [List.mem_filter, decide_eq_true_iff]
  exact ⟨hs', hle⟩

theorem newestSnapshot_eq_none {db : Library} (h : newestSnapshot db k = none) :
    ∀ s ∈ db.snapshots, k < s.commandSeq := by
  intro s hs
  have hnone := List.filter_eq_nil_iff.1 (List.getLast?_eq_none_iff.1 h) s hs
  rwa [decide_eq_true_iff, not_le] at hnone

/-! ### The invariant -/

/-- The tables and the history fit together: the journal is what is left of the written rows, a
row is dropped only below a snapshot, and the snapshots are documents of what was saved. -/
structure Sound (db : Library) (h : History) : Prop where
  length_saved : h.saved.length = db.commandSeq
  saveable : ∀ p ∈ h.saved, Saveable p
  log : projectRows.IsLog JournalRow.seq h.stateAt db.commandSeq h.written
  kept : Kept h.written db.journal
  covered : ∀ r ∈ h.written, r ∉ db.journal → ∃ s ∈ db.snapshots, r.seq ≤ s.commandSeq
  sorted : db.snapshots.Pairwise fun s s' => s.commandSeq < s'.commandSeq
  payload : ∀ s ∈ db.snapshots, s.commandSeq ≤ db.commandSeq ∧
    ∃ uuid, s.payload = assembleXml uuid (h.stateAt s.commandSeq)

/-- Between each dropped row up to `k` and `k` itself there is a snapshot. -/
def Bridged (db : Library) (h : History) (k : ℕ) : Prop :=
  ∀ r ∈ h.written, r.seq ≤ k → r ∉ db.journal →
    ∃ s ∈ db.snapshots, r.seq ≤ s.commandSeq ∧ s.commandSeq ≤ k

/-- No row between the replay base of `k` and `k` was dropped. -/
def CompleteAt (db : Library) (h : History) (k : ℕ) : Prop :=
  ∀ r ∈ h.written, baseSeq db k < r.seq → r.seq ≤ k → r ∈ db.journal

instance (db : Library) (h : History) (k : ℕ) : Decidable (Bridged db h k) :=
  inferInstanceAs (Decidable (∀ r ∈ h.written, r.seq ≤ k → r ∉ db.journal →
    ∃ s ∈ db.snapshots, r.seq ≤ s.commandSeq ∧ s.commandSeq ≤ k))

instance (db : Library) (h : History) (k : ℕ) : Decidable (CompleteAt db h k) :=
  inferInstanceAs (Decidable (∀ r ∈ h.written, baseSeq db k < r.seq → r.seq ≤ k →
    r ∈ db.journal))

theorem saveable_empty : Saveable .empty where
  fragments identity frag h := by
    rw [ProjectState.empty, Std.ExtTreeMap.getElem?_empty] at h
    cases h
  settings_eq := by decide
  no_nodes := by decide

section

variable {db : Library} {h : History}

section

variable (hs : Sound db h)

include hs

theorem Sound.saveable_stateAt (k : ℕ) : Saveable (h.stateAt k) := by
  cases k with
  | zero => exact saveable_empty
  | succ k =>
    rw [History.stateAt]
    rcases hk : h.saved[k]? with _ | p
    · exact saveable_empty
    · exact hs.saveable p (List.mem_of_getElem? hk)

theorem Sound.baseSeq_le (k : ℕ) : baseSeq db k ≤ k := by
  rw [baseSeq]
  rcases hnew : newestSnapshot db k with _ | s
  · exact Nat.zero_le k
  · exact (newestSnapshot_eq_some hs.sorted hnew).2.1

/-- A snapshot is read back as the state that was saved at its command. -/
theorem Sound.baseState_eq (k : ℕ) : baseState db k = h.stateAt (baseSeq db k) := by
  rw [baseState, baseSeq]
  rcases hnew : newestSnapshot db k with _ | s
  · rfl
  · obtain ⟨hmem, -, -⟩ := newestSnapshot_eq_some hs.sorted hnew
    obtain ⟨-, uuid, hpayload⟩ := hs.payload s hmem
    have hread := hs.saveable_stateAt s.commandSeq
    dsimp only
    rw [hpayload, extractNodes_assembleXml hread, extractSettings_assembleXml hread]

/-- The replay reads every row it needs exactly when each dropped row is bridged. -/
theorem Sound.completeAt_iff (k : ℕ) : CompleteAt db h k ↔ Bridged db h k := by
  constructor
  · intro hcomplete r hr hle hdropped
    have hbase : r.seq ≤ baseSeq db k := by
      by_contra hlt
      exact hdropped (hcomplete r hr (not_le.1 hlt) hle)
    have hpos := (hs.log.bound r hr).1
    rw [baseSeq] at hbase
    rcases hnew : newestSnapshot db k with _ | s
    · rw [hnew] at hbase
      exact absurd hbase (by dsimp only; omega)
    · rw [hnew] at hbase
      obtain ⟨hmem, hk, -⟩ := newestSnapshot_eq_some hs.sorted hnew
      exact ⟨s, hmem, hbase, hk⟩
  · intro hbridged r hr hbase hle
    by_contra hdropped
    obtain ⟨s, hmem, hrs, hsk⟩ := hbridged r hr hle hdropped
    rw [baseSeq] at hbase
    rcases hnew : newestSnapshot db k with _ | s'
    · exact absurd hsk (not_le.2 (newestSnapshot_eq_none hnew s hmem))
    · rw [hnew] at hbase
      have hmax := (newestSnapshot_eq_some hs.sorted hnew).2.2 s hmem hsk
      exact absurd hbase (not_lt.2 (hrs.trans hmax))

/-- Replay gives what was saved, when it reads every row it needs. -/
theorem Sound.replayState_eq (hk : k ≤ db.commandSeq) (hcomplete : CompleteAt db h k) :
    replayState db k = h.stateAt k := by
  rw [Oak.Storage.replayState_eq, hs.baseState_eq, hs.kept.span_eq hcomplete]
  exact hs.log.forward_span (hs.baseSeq_le k) hk

/-- The head is always bridged, for rows are dropped below the newest snapshot only. -/
theorem Sound.bridged_head : Bridged db h db.commandSeq := by
  intro r hr _ hdropped
  obtain ⟨s, hmem, hrs⟩ := hs.covered r hr hdropped
  exact ⟨s, hmem, hrs, (hs.payload s hmem).1⟩

theorem Sound.replayState_head : replayState db db.commandSeq = h.stateAt db.commandSeq :=
  hs.replayState_eq le_rfl ((hs.completeAt_iff _).2 hs.bridged_head)

/-- Undoing the rows after `k` from the head gives what was saved at `k`. -/
theorem Sound.undoState_eq (hk : k ≤ db.commandSeq)
    (hrows : ∀ r ∈ h.written, k < r.seq → r ∈ db.journal) : undoState db k = h.stateAt k := by
  have hspan : span JournalRow.seq k db.commandSeq db.journal =
      span JournalRow.seq k db.commandSeq h.written :=
    hs.kept.span_eq fun r hr hlt _ => hrows r hr hlt
  rw [Oak.Storage.undoState_eq, hs.replayState_head, hspan]
  exact hs.log.backward_span hk le_rfl

end

/-! ### One action -/

theorem sound_new (uuid : Text) : Sound (.new uuid) ⟨[], []⟩ where
  length_saved := rfl
  saveable _ hp := absurd hp List.not_mem_nil
  log := Oak.Lib.RowStore.isLog_nil _
  kept := .refl []
  covered _ hr := absurd hr List.not_mem_nil
  sorted := .nil
  payload _ hs := absurd hs List.not_mem_nil

theorem Sound.writeSnapshot (hs : Sound db h) (now : Time) : Sound (writeSnapshot now db) h := by
  rw [Oak.Storage.writeSnapshot]
  by_cases hexists : ∃ s ∈ db.snapshots, s.commandSeq = db.commandSeq
  · rw [if_pos hexists]
    exact hs
  · rw [if_neg hexists]
    refine ⟨hs.length_saved, hs.saveable, hs.log, hs.kept, fun r hr hdropped => ?_, ?_,
      fun s hmem => ?_⟩
    · obtain ⟨s, hmem, hle⟩ := hs.covered r hr hdropped
      exact ⟨s, List.mem_append_left _ hmem, hle⟩
    · refine List.pairwise_append.2 ⟨hs.sorted, List.pairwise_singleton _ _,
        fun s hmem s' hs' => ?_⟩
      obtain rfl := List.mem_singleton.1 hs'
      exact lt_of_le_of_ne (hs.payload s hmem).1 fun heq => hexists ⟨s, hmem, heq⟩
    · obtain hmem | hmem := List.mem_append.1 hmem
      · exact hs.payload s hmem
      · obtain rfl := List.mem_singleton.1 hmem
        exact ⟨le_rfl, db.uuid, by rw [assembleAt, hs.replayState_head]⟩

theorem mem_pruneSnapshots_of_getLast? {newest : Snapshot}
    (hnewest : db.snapshots.getLast? = some newest) :
    newest ∈ (Oak.Storage.pruneSnapshots db).snapshots := by
  obtain ⟨init, hinit⟩ := List.getLast?_eq_some_iff.1 hnewest
  have hkeep : newest.commandSeq ∈
      (db.snapshots.reverse.take snapshotKeep).map Snapshot.commandSeq := by
    rw [hinit, List.reverse_append]
    exact List.mem_map_of_mem List.mem_cons_self
  have hmem : newest ∈ db.snapshots := List.mem_of_getLast? hnewest
  rw [Oak.Storage.pruneSnapshots]
  split_ifs
  · exact hmem
  · exact List.mem_filter.2 ⟨hmem, decide_eq_true hkeep⟩

/-- Pruning keeps the newest snapshot, which covers what any snapshot covered. -/
theorem Sound.pruneSnapshots (hs : Sound db h) : Sound (pruneSnapshots db) h := by
  have hcovered : ∀ r ∈ h.written, r ∉ db.journal →
      ∃ s ∈ (Oak.Storage.pruneSnapshots db).snapshots, r.seq ≤ s.commandSeq := by
    intro r hr hdropped
    obtain ⟨s, hmem, hle⟩ := hs.covered r hr hdropped
    rcases hlast : db.snapshots.getLast? with _ | newest
    · rw [List.getLast?_eq_none_iff.1 hlast] at hmem
      cases hmem
    · exact ⟨newest, mem_pruneSnapshots_of_getLast? hlast,
        hle.trans ((getLast?_commandSeq hs.sorted hlast).2 s hmem)⟩
  by_cases hkeep : (db.snapshots.reverse.take snapshotKeep).map Snapshot.commandSeq = []
  · rw [Oak.Storage.pruneSnapshots, if_pos hkeep]
    exact hs
  · rw [Oak.Storage.pruneSnapshots, if_neg hkeep] at hcovered ⊢
    exact ⟨hs.length_saved, hs.saveable, hs.log, hs.kept, hcovered, hs.sorted.filter _,
      fun s hmem => hs.payload s (List.mem_of_mem_filter hmem)⟩

theorem Sound.maybeSnapshot (hs : Sound db h) (interval : ℤ) (now : Time) :
    Sound (maybeSnapshot interval now db) h := by
  rw [Oak.Storage.maybeSnapshot]
  by_cases hdue : snapshotDue interval now db = true
  · rw [if_pos hdue]
    exact (hs.writeSnapshot now).pruneSnapshots
  · rw [if_neg hdue]
    exact hs

theorem Sound.retentionPrune (hs : Sound db h) (days : ℤ) (now : Time) :
    Sound (retentionPrune days now db) h := by
  rw [Oak.Storage.retentionPrune]
  by_cases hdays : days ≤ 0
  · rw [if_pos hdays]
    exact hs
  · rw [if_neg hdays]
    rcases hlast : db.snapshots.getLast? with _ | s
    · exact hs
    · refine ⟨hs.length_saved, hs.saveable, hs.log, hs.kept.filter _, fun r hr hdropped => ?_,
        hs.sorted, hs.payload⟩
      by_cases hjournal : r ∈ db.journal
      · refine ⟨s, (getLast?_commandSeq hs.sorted hlast).1, ?_⟩
        by_contra hlt
        refine hdropped (List.mem_filter.2 ⟨hjournal, ?_⟩)
        rw [decide_eq_true_iff]
        exact fun hold => hlt hold.1
      · exact hs.covered r hr hjournal

theorem stateAt_append {saved : List ProjectState} (rows : List JournalRow) {cur : ProjectState}
    {rows' : List JournalRow} (hk : k ≤ saved.length) :
    History.stateAt ⟨saved ++ [cur], rows'⟩ k = History.stateAt ⟨saved, rows⟩ k := by
  cases k with
  | zero => rfl
  | succ k => rw [History.stateAt, History.stateAt, List.getElem?_append_left hk]

theorem stateAt_append_self (saved : List ProjectState) (cur : ProjectState)
    (rows : List JournalRow) :
    History.stateAt ⟨saved ++ [cur], rows⟩ (saved.length + 1) = cur := by
  rw [History.stateAt, List.getElem?_concat_length]
  rfl

/-- The rows of a save are the difference between the head and the saved state. -/
theorem Sound.isDiff_saveChanges (hs : Sound db h) (cur : ProjectState) (now : Time) :
    projectRows.IsDiff (h.stateAt db.commandSeq) cur (journalRows db now (saveChanges db cur)) := by
  rw [saveChanges]
  by_cases hhead : db.commandSeq = 0
  · rw [if_pos hhead, hhead]
    exact isDiff_importChanges cur db now
  · rw [if_neg hhead, hs.replayState_head]
    exact isDiff_headChanges _ cur db now

theorem Sound.append (hs : Sound db h) {cur : ProjectState} (hcur : Saveable cur) (now : Time) :
    Sound
      { db with
        commandSeq := db.commandSeq + 1
        journal := db.journal ++ journalRows db now (saveChanges db cur) }
      ⟨h.saved ++ [cur], h.written ++ journalRows db now (saveChanges db cur)⟩ := by
  have hstate : ∀ k ≤ db.commandSeq, History.stateAt ⟨h.saved ++ [cur],
      h.written ++ journalRows db now (saveChanges db cur)⟩ k = h.stateAt k :=
    fun k hk => stateAt_append h.written (hs.length_saved.symm ▸ hk)
  refine ⟨?_, fun p hp => ?_, ?_, ?_, fun r hr hdropped => ?_, hs.sorted, fun s hmem => ?_⟩
  · rw [List.length_append, hs.length_saved]
    rfl
  · obtain hp | hp := List.mem_append.1 hp
    · exact hs.saveable p hp
    · rwa [List.mem_singleton.1 hp]
  · refine (hs.log.congr fun k hk => (hstate k hk).symm).append ?_ fun r => seq_journalRows
    have hlast := stateAt_append_self h.saved cur
      (h.written ++ journalRows db now (saveChanges db cur))
    rw [hs.length_saved] at hlast
    rw [hstate _ le_rfl, hlast]
    exact hs.isDiff_saveChanges cur now
  · refine Kept.append JournalRow.seq hs.kept (fun r hr => (hs.log.bound r hr).2)
      fun r hr => ?_
    rw [seq_journalRows hr]
    exact Nat.lt_succ_self _
  · rw [List.mem_append, not_or] at hdropped
    obtain hr | hr := List.mem_append.1 hr
    · exact hs.covered r hr hdropped.1
    · exact absurd hr hdropped.2
  · obtain ⟨hle, uuid, hpayload⟩ := hs.payload s hmem
    exact ⟨Nat.le_succ_of_le hle, uuid, by rw [hstate _ hle, hpayload]⟩

theorem Sound.saveTx (hs : Sound db h) {cur : ProjectState} (hcur : Saveable cur) (now : Time)
    (interval days : ℤ) :
    Sound (saveTx cur now interval days db) (record (db, h) (.save cur now interval days)) := by
  rw [Oak.Storage.saveTx, record]
  by_cases hsame : db.commandSeq ≠ 0 ∧ saveChanges db cur = []
  · rw [if_pos hsame, if_pos hsame]
    exact hs
  · rw [if_neg hsame, if_neg hsame]
    exact ((hs.append hcur now).maybeSnapshot interval now).retentionPrune days now

/-- A save of a state that is read back. -/
def Action.Saveable : Action → Prop
  | .save cur _ _ _ => Oak.Storage.Saveable cur
  | _ => True

instance : DecidablePred Action.Saveable
  | .save cur _ _ _ => inferInstanceAs (Decidable (Oak.Storage.Saveable cur))
  | .snapshot _ => isTrue trivial
  | .duplicate _ => isTrue trivial

theorem Sound.act (hs : Sound db h) {a : Action} (ha : a.Saveable) :
    Sound (act db a) (record (db, h) a) := by
  cases a with
  | save cur now interval days => exact hs.saveTx ha now interval days
  | snapshot now =>
    show Sound (if db.commandSeq = 0 then db else _) h
    split_ifs
    · exact hs
    · exact (hs.writeSnapshot now).pruneSnapshots
  | duplicate uuid =>
    exact ⟨hs.length_saved, hs.saveable, hs.log, hs.kept, hs.covered, hs.sorted, hs.payload⟩

/-- Every run of saveable saves is sound. -/
theorem Sound.run (uuid : Text) {as : List Action} (has : ∀ a ∈ as, a.Saveable) :
    Sound (runFrom uuid as).1 (runFrom uuid as).2 := by
  have hstep : ∀ (t : Library × History) (a : Action), Sound t.1 t.2 → a.Saveable →
      Sound (Oak.Lib.shadow Oak.Storage.act record t a).1
        (Oak.Lib.shadow Oak.Storage.act record t a).2 :=
    fun _ _ hs ha => hs.act ha
  exact Oak.Lib.invariant_run (I := fun t : Library × History => Sound t.1 t.2) hstep
    (sound_new uuid) (Oak.Lib.permitted_of_forall_mem (fun a ha _ => has a ha) _)

end

/-! ### Replay and undo -/

/-- In every run of saveable saves: a command is replayed as it was saved when each dropped row
before it is bridged, undoing leads to it when no row behind it was dropped, and a save of the
head again changes nothing. -/
theorem replay_of_run (uuid : Text) {as : List Action} (has : ∀ a ∈ as, a.Saveable) :
    (∀ k ≤ (runFrom uuid as).1.commandSeq, Bridged (runFrom uuid as).1 (runFrom uuid as).2 k →
      replayState (runFrom uuid as).1 k = (runFrom uuid as).2.stateAt k) ∧
    (∀ k ≤ (runFrom uuid as).1.commandSeq,
      (∀ r ∈ (runFrom uuid as).2.written, k < r.seq → r ∈ (runFrom uuid as).1.journal) →
      undoState (runFrom uuid as).1 k = (runFrom uuid as).2.stateAt k) ∧
    ∀ (now : Time) (interval days : ℤ), 0 < (runFrom uuid as).1.commandSeq →
      act (runFrom uuid as).1 (.save
        ((runFrom uuid as).2.stateAt (runFrom uuid as).1.commandSeq) now interval days) =
      (runFrom uuid as).1 := by
  have hs := Sound.run uuid has
  refine ⟨fun k hk hbridged => ?_, fun k hk hrows => hs.undoState_eq hk hrows,
    fun now interval days hpos => ?_⟩
  · exact hs.replayState_eq hk ((hs.completeAt_iff k).2 hbridged)
  · have hsame : saveChanges (runFrom uuid as).1
        ((runFrom uuid as).2.stateAt (runFrom uuid as).1.commandSeq) = [] := by
      rw [saveChanges, if_neg hpos.ne', hs.replayState_head, headChanges_eq_nil]
    exact if_pos ⟨hpos.ne', hsame⟩

/-! ### A run with retention -/

/-- A node of the sample project. -/
def sampleNode (identity label : Char) : Text :=
  "<node version=\"1\" id=\"folder\" ptr=\"".toList ++ [identity] ++ "\"><label>".toList ++
    [label] ++ "</label><custom/></node>".toList

/-- Two nodes, of which the second one carries the label. -/
def sampleState (label : Char) : ProjectState :=
  ⟨Std.ExtTreeMap.ofList [(0, sampleNode '0' 'a'), (1, sampleNode '1' label)] compare,
    "<settings><root>0</root></settings>".toList⟩

/-- A save with a snapshot each time and a retention window of one day. -/
def sampleSave (day : ℤ) (label : Char) : Action :=
  .save (sampleState label) (day * (86400 * 10 ^ 9)) 0 1

/-- One save, and four more two days later. -/
def sampleRun : List Action :=
  [sampleSave 0 'a', sampleSave 2 'b', sampleSave 2 'c', sampleSave 2 'd', sampleSave 2 'e']

def sampleUuid : Text := "{5e5a1e}".toList

/-- What the run leaves: every row after the first command, the snapshots `3`, `4` and `5`, and the
first command no longer. -/
theorem sampleRun_leaves : (∀ a ∈ sampleRun, a.Saveable) ∧
    (runFrom sampleUuid sampleRun).1.commandSeq = 5 ∧
    (∀ r ∈ (runFrom sampleUuid sampleRun).2.written, 1 < r.seq →
      r ∈ (runFrom sampleUuid sampleRun).1.journal) ∧
    Bridged (runFrom sampleUuid sampleRun).1 (runFrom sampleUuid sampleRun).2 4 ∧
    ((replayState (runFrom sampleUuid sampleRun).1 2).nodes[0]? = none ∧
      replayState (runFrom sampleUuid sampleRun).1 2 ≠
        (runFrom sampleUuid sampleRun).2.stateAt 2) ∧
    loadAt (runFrom sampleUuid sampleRun).1 1 = .ok (assembleXml sampleUuid .empty) ∧
    assembleXml sampleUuid .empty ≠
      assembleXml sampleUuid ((runFrom sampleUuid sampleRun).2.stateAt 1) ∧
    ¬ CompleteAt (runFrom sampleUuid sampleRun).1 (runFrom sampleUuid sampleRun).2 1 := by
  decide +kernel

/-- The rows of the first command are dropped, those of the second one are there, and the snapshots
`3`, `4` and `5` remain: the second command is replayed without the first node. -/
theorem replayState_unbridged : (∀ a ∈ sampleRun, a.Saveable) ∧
    (∀ r ∈ (runFrom sampleUuid sampleRun).2.written, r.seq = 2 →
      r ∈ (runFrom sampleUuid sampleRun).1.journal) ∧
    (replayState (runFrom sampleUuid sampleRun).1 2).nodes[0]? = none ∧
    replayState (runFrom sampleUuid sampleRun).1 2 ≠
      (runFrom sampleUuid sampleRun).2.stateAt 2 := by
  obtain ⟨has, -, hrows, -, hreplay, -⟩ := sampleRun_leaves
  exact ⟨has, fun r hr hseq => hrows r hr (hseq ▸ Nat.one_lt_two), hreplay⟩

theorem replay_of_run_sample :
    replayState (runFrom sampleUuid sampleRun).1 4 =
      (runFrom sampleUuid sampleRun).2.stateAt 4 ∧
    undoState (runFrom sampleUuid sampleRun).1 1 =
      (runFrom sampleUuid sampleRun).2.stateAt 1 ∧
    act (runFrom sampleUuid sampleRun).1 (.save
      ((runFrom sampleUuid sampleRun).2.stateAt (runFrom sampleUuid sampleRun).1.commandSeq)
        0 600 1) = (runFrom sampleUuid sampleRun).1 := by
  obtain ⟨has, hhead, hrows, hbridged, -⟩ := sampleRun_leaves
  obtain ⟨hreplay, hundo, hsame⟩ := replay_of_run sampleUuid has
  exact ⟨hreplay 4 (by omega) hbridged, hundo 1 (by omega) hrows, hsame 0 600 1 (by omega)⟩

/-! ### Loading -/

/-- The load is refused, or it gives the document of what was saved, out of a complete journal. -/
def LoadExact (db : Library) (h : History) (seq : ℤ) : Prop :=
  (∃ e, loadAt db seq = .error e) ∨
    (loadAt db seq = .ok (assembleXml db.uuid (h.stateAt seq.toNat)) ∧
      CompleteAt db h seq.toNat)

/-- After every run of saveable saves, a load is exact or refused exactly when each dropped row up
to the sequence number is bridged. -/
theorem loadAt_iff (uuid : Text) {as : List Action} (has : ∀ a ∈ as, a.Saveable) (seq : ℤ) :
    LoadExact (runFrom uuid as).1 (runFrom uuid as).2 seq ↔
      (0 ≤ seq → seq ≤ (runFrom uuid as).1.commandSeq →
        Bridged (runFrom uuid as).1 (runFrom uuid as).2 seq.toNat) := by
  have hs := Sound.run uuid has
  rw [LoadExact, ← hs.completeAt_iff, loadAt]
  by_cases hhead : (runFrom uuid as).1.commandSeq = 0
  · -- nothing was saved yet, so that no row was written
    rw [if_pos hhead]
    refine iff_of_true (.inl ⟨_, rfl⟩) fun _ _ r hr => ?_
    have hbound := hs.log.bound r hr
    omega
  · rw [if_neg hhead]
    by_cases hrange : seq < 0 ∨ ((runFrom uuid as).1.commandSeq : ℤ) < seq
    · rw [if_pos hrange]
      refine iff_of_true (.inl ⟨_, rfl⟩) fun h₀ h₁ => ?_
      omega
    · rw [if_neg hrange]
      have hle : seq.toNat ≤ (runFrom uuid as).1.commandSeq := by omega
      constructor
      · rintro (⟨e, he⟩ | ⟨-, hcomplete⟩) _ _
        · cases he
        · exact hcomplete
      · intro h
        have hcomplete := h (by omega) (by omega)
        refine .inr ⟨?_, hcomplete⟩
        rw [assembleAt, hs.replayState_eq hle hcomplete]

theorem loadAt_iff_sample : LoadExact (runFrom sampleUuid sampleRun).1
    (runFrom sampleUuid sampleRun).2 4 := by
  obtain ⟨has, -, -, hbridged, -⟩ := sampleRun_leaves
  exact (loadAt_iff sampleUuid has 4).2 fun _ _ => hbridged

/-- Whatever retention drops, every command from the newest snapshot to the head is loaded as it was
saved. -/
theorem loadAt_recent (uuid : Text) {as : List Action} (has : ∀ a ∈ as, a.Saveable) {k : ℕ}
    (hpos : 0 < (runFrom uuid as).1.commandSeq) (hk : k ≤ (runFrom uuid as).1.commandSeq)
    (hnewest : ∀ s ∈ (runFrom uuid as).1.snapshots, s.commandSeq ≤ k) :
    loadAt (runFrom uuid as).1 k =
      .ok (assembleXml (runFrom uuid as).1.uuid ((runFrom uuid as).2.stateAt k)) := by
  have hs := Sound.run uuid has
  have hbridged : Bridged (runFrom uuid as).1 (runFrom uuid as).2 k := by
    intro r hr _ hdropped
    obtain ⟨s, hmem, hrs⟩ := hs.covered r hr hdropped
    exact ⟨s, hmem, hrs, hnewest s hmem⟩
  rw [loadAt, if_neg hpos.ne', if_neg (by omega), assembleAt, Int.toNat_natCast,
    hs.replayState_eq hk ((hs.completeAt_iff k).2 hbridged)]

theorem loadAt_recent_sample : loadAt (runFrom sampleUuid sampleRun).1 5 =
    .ok (assembleXml (runFrom sampleUuid sampleRun).1.uuid
      ((runFrom sampleUuid sampleRun).2.stateAt 5)) := by
  obtain ⟨has, hhead, -⟩ := sampleRun_leaves
  have hs := Sound.run sampleUuid has
  exact loadAt_recent sampleUuid has (by omega) hhead.ge fun s hmem =>
    (hs.payload s hmem).1.trans hhead.le

/-- The first command is loaded as the empty project. -/
theorem loadAt_incomplete : (∀ a ∈ sampleRun, a.Saveable) ∧
    loadAt (runFrom sampleUuid sampleRun).1 1 = .ok (assembleXml sampleUuid .empty) ∧
    assembleXml sampleUuid .empty ≠
      assembleXml sampleUuid ((runFrom sampleUuid sampleRun).2.stateAt 1) ∧
    ¬ CompleteAt (runFrom sampleUuid sampleRun).1 (runFrom sampleUuid sampleRun).2 1 := by
  obtain ⟨has, -, -, -, -, hload⟩ := sampleRun_leaves
  exact ⟨has, hload⟩

end Oak.Storage
