import Oak.Timeline.Common
import Oak.Timeline.Ripple

/-!
# Trimming a block

`BlockTrimCommand` of `oak-timeline/src/undopointer.rs`: one block is trimmed, and the block next to
it, or a gap that is put there, compensates.

* `prepare` finds the length that is trimmed and the block that compensates. Nothing but its callers
  runs it: a command that is pushed without it has a zero length to restore.
* `redo` and `undo` trim and restore.

## Main results

* `BlockTrimCommand.behaviorOf_redo`: the block after a redo.
* `trims_iff`: exactly when a trim does what it is for.
-/

namespace Oak.Timeline

open Oak.Core Oak.Lib Oak.Node Oak.Undo

variable {F β : Type*}

/-- `MovementMode`. -/
inductive MovementMode where
  | none | move | trimIn | trimOut
  deriving DecidableEq, Repr

/-- `BlockTrimCommand`. -/
structure BlockTrimCommand (F β : Type*) where
  track : NodeId
  block : NodeId
  newLength : Rational
  mode : MovementMode
  doingNothing : Bool
  /-- Positive when the block gets shorter. -/
  trimDiff : Rational
  oldLength : Rational
  /-- The block that compensates. -/
  adjacent : Option NodeId
  needsAdjacent : Bool
  weCreatedAdjacent : Bool
  weRemovedAdjacent : Bool
  deletedAdjacentCommand : Option (UndoCommand (RemoveNodeCommand F β))
  trimIsARollEdit : Bool
  removeBlockFromGraph : Bool
  /-- The entry of a gap that was created, while it is detached. -/
  adjacentEntry : Option (NodeEntry F (Behavior F β))

namespace BlockTrimCommand

/-- `new`, with the flags that `set_trim_is_a_roll_edit` and `set_remove_zero_length_from_graph`
set. -/
def new (track block : NodeId) (newLength : Rational) (mode : MovementMode)
    (rollEdit removeFromGraph : Bool) : BlockTrimCommand F β :=
  ⟨track, block, newLength, mode, false, 0, 0, none, false, false, false, none, rollEdit,
    removeFromGraph, none⟩

/-- The end of `prepare`: whether a gap is created next to the block, or the block next to it is
removed. -/
def compensate [ClipSpeed F] (c : BlockTrimCommand F β) (g : ProjectGraph F β) :
    BlockTrimCommand F β × ProjectGraph F β :=
  if c.needsAdjacent = false then (c, g)
  else if 0 < c.trimDiff ∧ (c.adjacent = none ∨
      (c.adjacent.map (blockKind g)).getD .other ≠ .gap ∧ c.trimIsARollEdit = false) then
    -- a gap in the place that the trim frees
    let created := blockGapCreate g
    let g := blockSetIn created.1 created.2
      (if c.mode = .trimIn then blockIn created.1 c.block - c.trimDiff
        else blockOut created.1 c.block)
    ({ c with
        weCreatedAdjacent := true
        adjacent := some created.2 }, blockSetLengthAndMediaIn g created.2 c.trimDiff)
  else
    ({ c with
        weCreatedAdjacent := false
        weRemovedAdjacent := c.adjacent.elim c.weRemovedAdjacent fun adjacent =>
          blockLength g adjacent + c.trimDiff = 0 }, g)

/-- `prepare`. -/
def prepare [ClipSpeed F] (c : BlockTrimCommand F β) (g : ProjectGraph F β) :
    BlockTrimCommand F β × ProjectGraph F β :=
  let oldLength := blockLength g c.block
  if oldLength = c.newLength then
    ({ c with
        oldLength := oldLength
        doingNothing := true }, g)
  else
    let adjacent := if c.mode = .trimIn then blockPrevious g c.block else blockNext g c.block
    compensate { c with
      oldLength := oldLength
      doingNothing := false
      trimDiff := oldLength - c.newLength
      adjacent := adjacent
      needsAdjacent := c.mode = .trimIn || adjacent.isSome } g

/-- The length change of the block. -/
def setLength (c : BlockTrimCommand F β) (length : Rational) (core : BlockCore F) : BlockCore F :=
  if c.mode = MovementMode.trimIn then core.setLengthAndMediaIn length
  else core.setLengthAndMediaOut length

/-- The length change of the block next to it. -/
def setAdjacentLength (c : BlockTrimCommand F β) (length : Rational) (core : BlockCore F) :
    BlockCore F :=
  if c.mode = MovementMode.trimIn then core.setLengthAndMediaOut length
  else core.setLengthAndMediaIn length

/-- Put a block next to the one that is trimmed. -/
def insertAdjacent (c : BlockTrimCommand F β) (g : ProjectGraph F β) (adjacent : NodeId) :
    ProjectGraph F β :=
  if c.mode = MovementMode.trimIn then trackInsertBlockBefore g c.track adjacent c.block
  else trackInsertBlockAfter g c.track adjacent (some c.block)

/-- `redo`. -/
def redo (c : BlockTrimCommand F β) (g : ProjectGraph F β) :
    BlockTrimCommand F β × ProjectGraph F β :=
  if c.doingNothing then (c, g)
  else
    let g := modifyBlock g (c.setLength c.newLength) c.block
    if c.needsAdjacent = false then (c, g)
    else
      match c.adjacent with
      | none => (c, g)
      | some adjacent =>
        if c.weCreatedAdjacent then
          ({ c with adjacentEntry := none },
            c.insertAdjacent (blockAddToGraph g adjacent c.adjacentEntry) adjacent)
        else if c.weRemovedAdjacent then
          let g := trackRippleRemoveBlock g c.track adjacent
          if c.removeBlockFromGraph && nodeCanBeRemoved g adjacent then
            let run := UndoCommand.redoNow
              (c.deletedAdjacentCommand.getD (createRemoveCommand adjacent)) g
            ({ c with deletedAdjacentCommand := some run.1 }, run.2)
          else (c, g)
        else
          (c, modifyBlock g (c.setAdjacentLength (blockLength g adjacent + c.trimDiff)) adjacent)

/-- `undo`. -/
def undo (c : BlockTrimCommand F β) (g : ProjectGraph F β) :
    BlockTrimCommand F β × ProjectGraph F β :=
  if c.doingNothing then (c, g)
  else
    let restored :=
      if c.needsAdjacent = false then (c, g)
      else
        match c.adjacent with
        | none => (c, g)
        | some adjacent =>
          if c.weCreatedAdjacent then
            let g := trackRippleRemoveBlock g c.track adjacent
            match c.adjacentEntry with
            | some _ => (c, g)
            | none =>
              let taken := blockRemoveFromGraph g adjacent
              ({ c with adjacentEntry := taken.1 }, taken.2)
          else if c.weRemovedAdjacent then
            match c.deletedAdjacentCommand with
            | none => (c, c.insertAdjacent g adjacent)
            | some cmd =>
              let run := UndoCommand.undoNow cmd g
              ({ c with deletedAdjacentCommand := some run.1 }, c.insertAdjacent run.2 adjacent)
          else
            (c, modifyBlock g (c.setAdjacentLength (blockLength g adjacent - c.trimDiff)) adjacent)
    (restored.1, modifyBlock restored.2 (c.setLength c.oldLength) c.block)

variable {c : BlockTrimCommand F β} {g : ProjectGraph F β} {track x y : NodeId}
  {t : TrackBehavior F} {pre post : List (NodeId × Behavior F β)} {b : Behavior F β}
  {core : BlockCore F}

/-! ### The block that is trimmed -/

theorem behaviorOf_createRemoveCommand (hy : y ≠ x) :
    (UndoCommand.redoNow (createRemoveCommand x : UndoCommand (RemoveNodeCommand F β))
      g).2.behaviorOf y = g.behaviorOf y := by
  rcases htake : g.takeNode x with _ | ⟨g', entry⟩
  · simp [createRemoveCommand, UndoCommand.new, UndoCommand.redoNow, Flags.fresh, Command.redo,
      blockRemoveFromGraph, htake]
  · rw [redoNow_createRemoveCommand htake, Graph.behaviorOf_takeNode htake, if_neg hy]

/-- A redo changes the length of the block, whatever it does to the block next to it. -/
theorem behaviorOf_redo (hnothing : c.doingNothing = false) (hblock : c.block ≠ c.track)
    (hadjacent : ∀ a, c.adjacent = some a → a ≠ c.block) (hentry : c.adjacentEntry = none)
    (hdeleted : c.deletedAdjacentCommand = none) :
    (c.redo g).2.behaviorOf c.block =
      (g.behaviorOf c.block).map (.modifyCore (c.setLength c.newLength)) := by
  have htrimmed : (modifyBlock g (c.setLength c.newLength) c.block).behaviorOf c.block =
      (g.behaviorOf c.block).map (.modifyCore (c.setLength c.newLength)) := by
    rw [behaviorOf_modifyBlock, if_pos rfl]
  rw [← htrimmed, redo, if_neg (by simp [hnothing])]
  dsimp only
  by_cases hneeds : c.needsAdjacent = false
  · rw [if_pos hneeds]
  rw [if_neg hneeds]
  rcases hadj : c.adjacent with _ | a
  · rfl
  have ha := (hadjacent a hadj).symm
  dsimp only
  split_ifs
  · -- a gap is put next to the block
    dsimp only
    rw [hentry, insertAdjacent, blockAddToGraph, Option.elim_none]
    split_ifs
    · exact behaviorOf_trackInsertBlockBefore_of_ne _ hblock ha
    · exact behaviorOf_trackInsertBlockAfter_of_ne _ hblock ha
  · -- the block next to it leaves the graph
    rw [hdeleted, Option.getD_none]
    dsimp only
    rw [behaviorOf_createRemoveCommand ha]
    exact behaviorOf_trackRippleRemoveBlock_of_ne hblock ha
  · exact behaviorOf_trackRippleRemoveBlock_of_ne hblock ha
  · rw [behaviorOf_modifyBlock, if_neg ha]

theorem compensate_spec [ClipSpeed F] (c : BlockTrimCommand F β) (g : ProjectGraph F β) :
    (c.compensate g).1.track = c.track ∧ (c.compensate g).1.block = c.block ∧
    (c.compensate g).1.newLength = c.newLength ∧ (c.compensate g).1.mode = c.mode ∧
    (c.compensate g).1.doingNothing = c.doingNothing ∧
    (c.compensate g).1.adjacentEntry = c.adjacentEntry ∧
    (c.compensate g).1.deletedAdjacentCommand = c.deletedAdjacentCommand ∧
    ∀ a, (c.compensate g).1.adjacent = some a → c.adjacent = some a ∨ a = (blockGapCreate g).2 := by
  rw [compensate]
  split
  · exact ⟨rfl, rfl, rfl, rfl, rfl, rfl, rfl, fun a ha => .inl ha⟩
  split
  · exact ⟨rfl, rfl, rfl, rfl, rfl, rfl, rfl, fun a ha => .inr (Option.some.inj ha).symm⟩
  · exact ⟨rfl, rfl, rfl, rfl, rfl, rfl, rfl, fun a ha => .inl ha⟩

section

variable {carried : List (NodeId × NodeId)} (hsound : g.Sound carried)
  (hroom : g.entries.length < u32Size - 1) (hb : g.behaviorOf x = some b)

include hsound hroom hb

theorem gap_ne_of_behaviorOf [ClipSpeed F] :
    (blockGapCreate g).2 ≠ x ∧ (blockGapCreate g).1.behaviorOf x = some b := by
  obtain ⟨e, he, rfl⟩ := Graph.behaviorOf_eq_some_iff.1 hb
  refine ⟨fun heq => ?_, Graph.behaviorOf_of_get
    (Graph.get_allocate_of_get hsound.freeVacant he _ _)⟩
  have hnone := Graph.get_allocate_fresh hsound.freeVacant hroom NodeCore.new
    (Behavior.gap ⟨.default⟩ : Behavior F β)
  rw [show (g.allocate NodeCore.new (Behavior.gap ⟨.default⟩)).2 = x from heq, he] at hnone
  exact absurd hnone (by simp)

theorem behaviorOf_compensate [ClipSpeed F] : (c.compensate g).2.behaviorOf x = some b := by
  obtain ⟨hne, hcreated⟩ := gap_ne_of_behaviorOf hsound hroom hb
  rw [compensate]
  split
  · exact hb
  split
  · dsimp only
    rw [blockSetLengthAndMediaIn, behaviorOf_modifyBlock, if_neg (Ne.symm hne), blockSetIn,
      behaviorOf_modifyBlock, if_neg (Ne.symm hne), hcreated]
  · exact hb

end

end BlockTrimCommand

/-! ### What a trim is for -/

section Trims

open BlockTrimCommand

variable [ClipSpeed F] {g g' : ProjectGraph F β} {carried : List (NodeId × NodeId)}
  {track x : NodeId} {t : TrackBehavior F} {pre post : List (NodeId × Behavior F β)}
  {b : Behavior F β} {core : BlockCore F} {mode : MovementMode} {newLength : Rational}
  {rollEdit removeFromGraph prepared : Bool}

/-- The range of a block whose length is trimmed at one end. -/
def trimmedRange (mode : MovementMode) (core : BlockCore F) (newLength : Rational) : TimeRange :=
  if mode = .trimIn then ⟨core.out - newLength, core.out⟩ else ⟨core.in_, core.in_ + newLength⟩

/-- The block next to the end that is trimmed. -/
def neighbour (mode : MovementMode) (pre post : List (NodeId × Behavior F β)) : Option NodeId :=
  if mode = .trimIn then (pre.map Prod.fst).getLast? else (post.map Prod.fst).head?

/-- A block lies over a time. -/
def Covered (blocks : List (NodeId × Behavior F β)) (time : Rational) : Prop :=
  ∃ p ∈ blocks, inOf p.2 ≤ time ∧ time < outOf p.2

/-- One end of the block is trimmed, and nothing else but the neighbour's end next to it changes. -/
structure TrimDone (g g' : ProjectGraph F β) (track : NodeId) (mode : MovementMode)
    (newLength : Rational) (pre : List (NodeId × Behavior F β)) (x : NodeId) (b : Behavior F β)
    (post : List (NodeId × Behavior F β)) : Prop where
  track_sorted : ∃ t' blocks', Track g' track t' blocks' ∧ Sorted blocks' ∧
    ((neighbour mode pre post).isSome = true →
      ∀ time, Covered blocks' time ↔ Covered (pre ++ (x, b) :: post) time)
  range : ∀ core, b.blockCore = some core →
    (blockCoreOf g' x).map BlockCore.range = some (trimmedRange mode core newLength)
  media : ∀ clip, b = .clip clip → ∃ clip', g'.behaviorOf x = some (.clip clip') ∧
    ∀ time, clip.core.range.contains time = true → clip'.core.range.contains time = true →
      clip'.shownAt time = clip.shownAt time
  others : ∀ p ∈ pre ++ post, some p.1 ≠ neighbour mode pre post → g'.behaviorOf p.1 = some p.2
  neighbour_end : ∀ p ∈ pre ++ post, some p.1 = neighbour mode pre post →
    ∀ core', blockCoreOf g' p.1 = some core' →
      if mode = .trimIn then core'.in_ = inOf p.2 else core'.out = outOf p.2

/-- The track and its blocks are as they were. -/
def TrackKept (g g' : ProjectGraph F β) (track : NodeId) (blocks : List (NodeId × Behavior F β)) :
    Prop :=
  g'.behaviorOf track = g.behaviorOf track ∧ ∀ p ∈ blocks, g'.behaviorOf p.1 = some p.2

/-- A command and the project when it is pushed, after its caller prepared it or not. -/
def pushed (prepared : Bool) (c : BlockTrimCommand F β) (g : ProjectGraph F β) :
    BlockTrimCommand F β × ProjectGraph F β :=
  if prepared then c.prepare g else (c, g)

/-- A trim does what it is for at the first redo and at the one after an undo, and the undo restores
the track. -/
def Trims (g : ProjectGraph F β) (track : NodeId) (pre : List (NodeId × Behavior F β)) (x : NodeId)
    (b : Behavior F β) (post : List (NodeId × Behavior F β)) (newLength : Rational)
    (mode : MovementMode) (rollEdit removeFromGraph prepared : Bool) : Prop :=
  let start := pushed prepared (.new track x newLength mode rollEdit removeFromGraph) g
  let first := start.1.redo start.2
  let taken := first.1.undo first.2
  TrimDone g first.2 track mode newLength pre x b post ∧
    TrackKept g taken.2 track (pre ++ (x, b) :: post) ∧
    TrimDone g (taken.1.redo taken.2).2 track mode newLength pre x b post

omit [ClipSpeed F] in
/-- The length setters that a redo uses keep the end that is to be trimmed. -/
theorem range_setLength_ne {c : BlockTrimCommand F β} (hpos : 0 < newLength)
    (hlength : core.length ≠ newLength) :
    (c.setLength newLength core).range ≠ trimmedRange c.mode core newLength := by
  rw [BlockCore.length_eq] at hlength
  intro heq
  rw [BlockTrimCommand.setLength, trimmedRange] at heq
  split_ifs at heq
  · rw [BlockCore.setLengthAndMediaIn_of_le _ hpos.le] at heq
    have hin : core.in_ = core.out - newLength := congrArg TimeRange.in_ heq
    exact hlength (by linarith)
  · rw [BlockCore.setLengthAndMediaOut_of_le _ hpos.le] at heq
    have hin : core.out - newLength = core.in_ := congrArg TimeRange.in_ heq
    exact hlength (by linarith)

theorem trimDone_refl (h : Track g track t (pre ++ (x, b) :: post))
    (hsorted : Sorted (pre ++ (x, b) :: post)) (hcore : b.blockCore = some core)
    (hlength : core.length = newLength) : TrimDone g g track mode newLength pre x b post where
  track_sorted := ⟨t, _, h, hsorted, fun _ _ => Iff.rfl⟩
  range core' hcore' := by
    obtain rfl := Option.some.inj (hcore.symm.trans hcore')
    rw [blockCoreOf_eq h.behaviorOf, hcore, Option.map_some, ← hlength, trimmedRange,
      BlockCore.in_add_length, BlockCore.length_eq, sub_sub_cancel, ite_self]
    rfl
  media clip hclip := ⟨clip, by rw [← hclip]; exact h.behaviorOf, fun _ _ _ => rfl⟩
  others p hp _ := (h.block p (by rcases List.mem_append.1 hp with hp | hp <;> simp [hp])).1
  neighbour_end p hp _ core' hcore' := by
    have hb := (h.block p (by rcases List.mem_append.1 hp with hp | hp <;> simp [hp])).1
    rw [blockCoreOf_eq hb] at hcore'
    split_ifs
    · exact (inOf_eq hcore').symm
    · exact (outOf_eq hcore').symm

omit [ClipSpeed F] in
/-- A command that is pushed without `prepare` has no length to restore. -/
theorem behaviorOf_undo_unprepared (hx : g.behaviorOf x = some b) :
    let start := (BlockTrimCommand.new track x newLength mode rollEdit removeFromGraph :
      BlockTrimCommand F β)
    ((start.redo g).1.undo (start.redo g).2).2.behaviorOf x =
      some ((b.modifyCore (start.setLength newLength)).modifyCore (start.setLength 0)) := by
  intro start
  have hredo : start.redo g = (start, modifyBlock g (start.setLength newLength) x) := rfl
  rw [hredo]
  show (modifyBlock (modifyBlock g (start.setLength newLength) x) (start.setLength 0) x).behaviorOf
    x = _
  rw [behaviorOf_modifyBlock, if_pos rfl, behaviorOf_modifyBlock, if_pos rfl, hx]
  rfl

/-- A trim does what it is for only when its caller has prepared it and the length stays. -/
theorem trims_iff (hsound : g.Sound carried) (hroom : g.entries.length < u32Size - 1)
    (h : Track g track t (pre ++ (x, b) :: post)) (hsorted : Sorted (pre ++ (x, b) :: post))
    (hpos : 0 < newLength) :
    Trims g track pre x b post newLength mode rollEdit removeFromGraph prepared ↔
      prepared = true ∧ newLength = outOf b - inOf b := by
  obtain ⟨core, hcore, hxcore, -⟩ := h.exists_core
  have hnonempty : core.in_ < core.out := by
    have hin := hsorted.1 (x, b) (by simp)
    rwa [inOf_eq hcore, outOf_eq hcore] at hin
  have hlength : outOf b - inOf b = core.length := by
    rw [inOf_eq hcore, outOf_eq hcore, BlockCore.length_eq]
  rw [hlength]
  constructor
  · rintro ⟨hfirst, hundo, -⟩
    cases prepared with
    | false =>
      have hkept := hundo.2 (x, b) (by simp)
      rw [pushed, if_neg (by simp), behaviorOf_undo_unprepared h.behaviorOf] at hkept
      have hcores := congrArg (fun o => (o.bind Behavior.blockCore).map BlockCore.length) hkept
      simp only [Option.bind_some, Behavior.blockCore_modifyCore, hcore, Option.map_some,
        Option.some.injEq, BlockTrimCommand.setLength] at hcores
      rw [BlockCore.length_eq core] at hcores
      split_ifs at hcores
      · rw [BlockCore.setLengthAndMediaIn_of_le _ le_rfl, BlockCore.length_eq] at hcores
        simp only [BlockCore.in_, BlockCore.out, add_zero, sub_self] at hcores hnonempty
        linarith
      · rw [BlockCore.setLengthAndMediaOut_of_le _ le_rfl, BlockCore.length_eq] at hcores
        simp only [BlockCore.in_, BlockCore.out, sub_zero, sub_self] at hcores hnonempty
        linarith
    | true =>
      refine ⟨rfl, ?_⟩
      by_contra hne
      have hchanged : blockLength g x ≠ newLength := by
        rw [blockLength_eq hxcore]
        exact Ne.symm hne
      -- the command with what `prepare` finds first
      let adjacent := if mode = .trimIn then blockPrevious g x else blockNext g x
      let found : BlockTrimCommand F β := ⟨track, x, newLength, mode, false,
        blockLength g x - newLength, blockLength g x, adjacent,
        mode = .trimIn || adjacent.isSome, false, false, none, rollEdit, removeFromGraph, none⟩
      have hprepare : pushed true (.new track x newLength mode rollEdit removeFromGraph) g =
          found.compensate g := if_neg hchanged
      obtain ⟨htrack, hblock, hnew, hmode, hnothing, hentry, hdeleted, hadjacent⟩ :=
        compensate_spec found g
      have hneighbour : ∀ a, adjacent = some a → a ≠ x := by
        intro a ha
        have hmem : a ∈ (pre ++ post).map Prod.fst := by
          rw [List.map_append]
          simp only [adjacent] at ha
          split_ifs at ha
          · exact List.mem_append_left _ (List.mem_of_getLast? (h.blockPrevious_eq ▸ ha))
          · exact List.mem_append_right _ (List.mem_of_mem_head? (h.blockNext_eq ▸ ha))
        obtain ⟨p, hp, rfl⟩ := List.mem_map.1 hmem
        exact h.fst_ne hp
      have hredo : (((found.compensate g).1.redo (found.compensate g).2).2).behaviorOf x =
          some (b.modifyCore ((found.compensate g).1.setLength newLength)) := by
        have hx := behaviorOf_redo (c := (found.compensate g).1) (g := (found.compensate g).2)
          hnothing (by rw [hblock, htrack]; exact h.ne_track (p := (x, b)) (by simp))
          (fun a ha => by
            rw [hblock]
            rcases hadjacent a ha with hold | rfl
            · exact hneighbour a hold
            · exact (gap_ne_of_behaviorOf hsound hroom h.behaviorOf).1) hentry hdeleted
        rw [hblock, hnew, show found.block = x from rfl,
          behaviorOf_compensate hsound hroom h.behaviorOf] at hx
        exact hx
      have hrange := hfirst.range core hcore
      rw [hprepare, blockCoreOf_eq hredo, Behavior.blockCore_modifyCore, hcore, Option.map_some,
        Option.map_some] at hrange
      have hexact := range_setLength_ne (c := (found.compensate g).1) hpos (Ne.symm hne)
      rw [hmode] at hexact
      exact hexact (Option.some.inj hrange)
  · rintro ⟨rfl, rfl⟩
    have hsame : blockLength g x = core.length := blockLength_eq hxcore
    have hprepare : pushed true (.new track x core.length mode rollEdit removeFromGraph) g =
        ({ (.new track x core.length mode rollEdit removeFromGraph : BlockTrimCommand F β) with
            oldLength := blockLength g x
            doingNothing := true }, g) := if_pos hsame
    rw [Trims, hprepare]
    exact ⟨trimDone_refl h hsorted hcore rfl, ⟨rfl, fun p hp => (h.block p hp).1⟩,
      trimDone_refl h hsorted hcore rfl⟩

/-- The clip of ten seconds keeps its length. -/
theorem trims_iff_same_length :
    Trims (oneClip 10) ⟨0, 0⟩ [] ⟨1, 0⟩ (.clip (tenSeconds 10)) [] 10 .trimOut false true true :=
  (trims_iff (splittable_oneClip 10).sound (by decide) (splittable_oneClip 10).track
    (sorted_cons.2 ⟨by decide, ⟨by simp, .nil⟩, by simp⟩) (by decide)).2
    ⟨rfl, by decide +kernel⟩

/-- Trimmed at its out point to five seconds, the clip from ten to twenty seconds loses its
beginning. -/
theorem trim_out_cuts_in :
    ¬ Trims (oneClip 10) ⟨0, 0⟩ [] ⟨1, 0⟩ (.clip (tenSeconds 10)) [] 5 .trimOut false true
      true := by
  rintro ⟨hfirst, -⟩
  have hrange := hfirst.range _ rfl
  exact absurd hrange (by decide +kernel)

end Trims

end Oak.Timeline
