import Oak.Timeline.Content
import Oak.Timeline.TrackList
import Oak.Timeline.RippleRedo

/-!
# Replacing a block with a gap

`TransitionRemoveCommand` and `TrackReplaceBlockWithGapCommand` of
`oak-timeline/src/undogeneral.rs`. A block is taken off its track, and a gap fills its place: a gap
next to it that is extended, two that are merged, or a new one. At the end of a track nothing fills
its place, and a gap before it goes, too.

Positions are stored on the blocks. A gap is extended at its out point, whichever side of the block
it is on.

## Main results

* `replacesExactly_iff` : exactly when the place is filled and everything else stays, and the
  command can be taken back.
-/

namespace Oak.Timeline

open Oak.Core Oak.Node Oak.Undo

variable {F β : Type*}

/-! ### Transitions -/

/-- `OUT_BLOCK` and `IN_BLOCK`. -/
def outBlockInput : String := "out_block_in"

def inBlockInput : String := "in_block_in"

/-- `transition_offsets`. -/
def transitionOffsets (g : ProjectGraph F β) (b : NodeId) : Option (Rational × Rational) :=
  match g.behaviorOf b with
  | some (.transition t) => some (t.inOffset, t.outOffset)
  | _ => none

/-- `transition_set_offsets`. -/
def transitionSetOffsets (g : ProjectGraph F β) (b : NodeId) (inOffset outOffset : Rational) :
    ProjectGraph F β :=
  g.modifyBehavior (fun b => match b with
    | .transition t => .transition { t with
        inOffset := inOffset
        outOffset := outOffset }
    | b => b) b

/-- `block_range`. -/
def blockRange (g : ProjectGraph F β) (b : NodeId) : Option TimeRange :=
  (blockCoreOf g b).map BlockCore.range

/-- `block_set_range`. -/
def blockSetRange (g : ProjectGraph F β) (b : NodeId) (range : TimeRange) : ProjectGraph F β :=
  modifyBlock g (fun c => { c with range := range }) b

/-- `block_connect`, whose refusal is ignored. -/
def blockConnect (g : ProjectGraph F β) (source target : NodeId) (input : String) :
    ProjectGraph F β :=
  match g.connect source target input (-1) with
  | .ok g' => g'
  | .error _ => g

/-- `TransitionRemoveCommand`. -/
structure TransitionRemoveCommand (F β : Type*) where
  block : NodeId
  removeFromGraph : Bool
  track : Option NodeId
  outBlock : Option NodeId
  inBlock : Option NodeId
  /-- Whether the fields below have been captured. -/
  captured : Bool
  inOffset : Rational
  outOffset : Rational
  range : TimeRange
  connectedOut : Option NodeId
  connectedIn : Option NodeId
  removeCommand : Option (UndoCommand (RemoveNodeCommand F β))

namespace TransitionRemoveCommand

/-- `new`. -/
def new (block : NodeId) (removeFromGraph : Bool) : TransitionRemoveCommand F β :=
  ⟨block, removeFromGraph, none, none, none, false, 0, 0, ⟨0, 0⟩, none, none, none⟩

variable (c : TransitionRemoveCommand F β) (g : ProjectGraph F β)

/-- What the first redo captures. -/
def capture : TransitionRemoveCommand F β :=
  if c.captured then c
  else
    let offsets := (transitionOffsets g c.block).getD (c.inOffset, c.outOffset)
    { c with
      inOffset := offsets.1
      outOffset := offsets.2
      range := (blockRange g c.block).getD c.range
      connectedOut := g.connectedOutput c.block outBlockInput (-1)
      connectedIn := g.connectedOutput c.block inBlockInput (-1)
      captured := true }

/-- `redo`. -/
def redo : TransitionRemoveCommand F β × ProjectGraph F β :=
  let c := capture { c with
    track := blockTrack g c.block
    outBlock := blockNext g c.block
    inBlock := blockPrevious g c.block } g
  let g := (g.disconnectInput c.block outBlockInput (-1)).1
  let g := (g.disconnectInput c.block inBlockInput (-1)).1
  let g := c.track.elim g fun track => trackRippleRemoveBlock g track c.block
  if c.removeFromGraph then
    let run := UndoCommand.redoNow (c.removeCommand.getD (createRemoveCommand c.block)) g
    ({ c with removeCommand := some run.1 }, run.2)
  else (c, g)

/-- `undo`. -/
def undo : TransitionRemoveCommand F β × ProjectGraph F β :=
  let restored :=
    match c.removeFromGraph, c.removeCommand with
    | true, some cmd =>
      let run := UndoCommand.undoNow cmd g
      ({ c with removeCommand := some run.1 }, run.2)
    | _, _ => (c, g)
  let g := c.track.elim restored.2 fun track =>
    trackInsertBlockAfter restored.2 track c.block c.inBlock
  let g := blockSetRange (transitionSetOffsets g c.block c.inOffset c.outOffset) c.block c.range
  let g := c.connectedOut.elim g fun source => blockConnect g source c.block outBlockInput
  (restored.1, c.connectedIn.elim g fun source => blockConnect g source c.block inBlockInput)

/-- Commands are redone in order. -/
def redoAll : List (TransitionRemoveCommand F β) → ProjectGraph F β →
    List (TransitionRemoveCommand F β) × ProjectGraph F β
  | [], g => ([], g)
  | c :: cs, g =>
    let first := c.redo g
    let others := redoAll cs first.2
    (first.1 :: others.1, others.2)

/-- Commands are undone in reverse order. -/
def undoAll : List (TransitionRemoveCommand F β) → ProjectGraph F β →
    List (TransitionRemoveCommand F β) × ProjectGraph F β
  | [], g => ([], g)
  | c :: cs, g =>
    let others := undoAll cs g
    let first := c.undo others.2
    (first.1 :: others.1, first.2)

end TransitionRemoveCommand

/-! ### The command -/

/-- `replace_block`. -/
def replaceBlock (t : TrackBehavior F) (old replace : NodeId) : Option (TrackBehavior F) :=
  (t.blockIndex old).map fun i => { t with blocks := t.blocks.set i replace }

/-- `track_replace_block`. -/
def trackReplaceBlock (g : ProjectGraph F β) (track old replace : NodeId) : ProjectGraph F β :=
  match (trackBehaviorOf g track).bind fun t => replaceBlock t old replace with
  | none => g
  | some t' =>
    setTrack (setTrack (g.modifyBehavior (fun _ => .track t') track) old none) replace (some track)

/-- `TrackReplaceBlockWithGapCommand`. -/
structure TrackReplaceBlockWithGapCommand (F β : Type*) where
  track : NodeId
  block : NodeId
  /-- The in point of the block when the command was made. -/
  blockInPoint : Rational
  handleTransitions : Bool
  /-- The gap that was extended. -/
  existingGap : Option NodeId
  /-- The gap that was removed. -/
  existingMergedGap : Option NodeId
  existingGapPrecedes : Bool
  /-- The gap that was created. -/
  ourGap : Option NodeId
  ourGapEntry : Option (NodeEntry F (Behavior F β))
  mergedGapEntry : Option (NodeEntry F (Behavior F β))
  transitionRemoveCommands : List (TransitionRemoveCommand F β)

namespace TrackReplaceBlockWithGapCommand

variable (g : ProjectGraph F β)

/-- `new`. -/
def new (track block : NodeId) (handleTransitions : Bool) : TrackReplaceBlockWithGapCommand F β :=
  ⟨track, block, blockIn g block, handleTransitions, none, none, false, none, none, none, []⟩

/-- `create_remove_transition_command_if_necessary`, for a neighbour of the block. -/
def removeTransition (neighbour : Option NodeId) : List (TransitionRemoveCommand F β) :=
  (neighbour.toList.filter fun b => blockKind g b = .transition).map fun b => .new b true

variable (c : TrackReplaceBlockWithGapCommand F β)

/-- The gap that was created, in the graph; it is created once. -/
def createGap [ClipSpeed F] (length : Rational) (g : ProjectGraph F β) :
    NodeId × ProjectGraph F β :=
  match c.ourGap with
  | some gap => (gap, g)
  | none =>
    let created := blockGapCreate g
    let g := blockSetIn created.1 created.2 c.blockInPoint
    (created.2, blockSetLengthAndMediaIn g created.2 length)

/-- A new gap takes the place of the block. -/
def fillNew [ClipSpeed F] (length : Rational) (g : ProjectGraph F β) :
    TrackReplaceBlockWithGapCommand F β × ProjectGraph F β :=
  let created := c.createGap length g
  ({ c with
      ourGap := some created.1
      ourGapEntry := none },
    trackReplaceBlock (blockAddToGraph created.2 created.1 c.ourGapEntry) c.track c.block created.1)

variable (previous : Option NodeId) (gap : NodeId)

/-- A gap is extended, and the block removed. -/
def extend (length : Rational) (g : ProjectGraph F β) :
    TrackReplaceBlockWithGapCommand F β × ProjectGraph F β :=
  ({ c with
      existingGap := some gap
      existingGapPrecedes := previous = some gap },
    trackRippleRemoveBlock (blockSetLengthAndMediaIn g gap (length + blockLength g gap)) c.track
      c.block)

/-- A gap leaves its track and the graph. -/
def removeGap (g : ProjectGraph F β) : TrackReplaceBlockWithGapCommand F β × ProjectGraph F β :=
  let removed := blockRemoveFromGraph (trackRippleRemoveBlock g c.track gap) gap
  ({ c with
      existingMergedGap := some gap
      mergedGapEntry := removed.1 }, removed.2)

/-- The place of the block is filled: its neighbours are `previous` and `next`. -/
def fill [ClipSpeed F] (next : NodeId) (g : ProjectGraph F β) :
    TrackReplaceBlockWithGapCommand F β × ProjectGraph F β :=
  let length := blockLength g c.block
  match previous.filter fun b => blockKind g b = .gap, blockKind g next == .gap with
  | some gap, true =>
    let merged := c.removeGap next g
    merged.1.extend previous gap (length + blockLength g next) merged.2
  | some gap, false => c.extend previous gap length g
  | none, true => c.extend previous next length g
  | none, false =>
    match c.existingGap with
    | some gap => c.extend previous gap length g
    | none => c.fillNew length g

/-- The block is at the end of its track. -/
def removeLast (g : ProjectGraph F β) : TrackReplaceBlockWithGapCommand F β × ProjectGraph F β :=
  let g := trackRippleRemoveBlock g c.track c.block
  match previous.filter fun b => blockKind g b = .gap with
  | some gap => c.removeGap gap g
  | none => (c, g)

/-- `redo`. -/
def redo [ClipSpeed F] (g : ProjectGraph F β) :
    TrackReplaceBlockWithGapCommand F β × ProjectGraph F β :=
  let commands :=
    if c.handleTransitions && c.transitionRemoveCommands.isEmpty then
      removeTransition g (blockPrevious g c.block) ++ removeTransition g (blockNext g c.block)
    else c.transitionRemoveCommands
  let run := TransitionRemoveCommand.redoAll commands g
  let c := { c with transitionRemoveCommands := run.1 }
  match blockNext run.2 c.block with
  | some next => c.fill (blockPrevious run.2 c.block) next run.2
  | none => c.removeLast (blockPrevious run.2 c.block) run.2

/-- The gap that was created leaves the track and the graph. -/
def undoNew (g : ProjectGraph F β) : TrackReplaceBlockWithGapCommand F β × ProjectGraph F β :=
  let g := trackReplaceBlock g c.track gap c.block
  match c.ourGapEntry with
  | some _ => (c, g)
  | none => ({ c with ourGapEntry := (blockRemoveFromGraph g gap).1 }, (blockRemoveFromGraph g gap).2)

/-- The gap that was extended has its length back. -/
def undoExtend (g : ProjectGraph F β) : TrackReplaceBlockWithGapCommand F β × ProjectGraph F β :=
  let length := blockLength g gap - blockLength g c.block
  let (length, g') :=
    match c.existingMergedGap with
    | some merged =>
      (length - blockLength g merged,
        blockAddToGraph (trackInsertBlockAfter g c.track merged (some gap)) merged
          c.mergedGapEntry)
    | none => (length, g)
  let g := if c.existingGapPrecedes then trackInsertBlockAfter g' c.track c.block (some gap)
    else trackInsertBlockBefore g' c.track c.block gap
  ({ c with
      existingGap := none
      existingMergedGap := none
      mergedGapEntry := if c.existingMergedGap.isSome then none else c.mergedGapEntry },
    blockSetLengthAndMediaIn g gap length)

/-- The block is at the end of its track again. -/
def undoLast (g : ProjectGraph F β) : TrackReplaceBlockWithGapCommand F β × ProjectGraph F β :=
  match c.existingMergedGap with
  | some merged =>
    ({ c with
        existingMergedGap := none
        mergedGapEntry := none },
      trackAppendBlock (blockAddToGraph (trackAppendBlock g c.track merged) merged c.mergedGapEntry)
        c.track c.block)
  | none => (c, trackAppendBlock g c.track c.block)

/-- `undo`. -/
def undo (g : ProjectGraph F β) : TrackReplaceBlockWithGapCommand F β × ProjectGraph F β :=
  let restored :=
    match c.ourGap, c.existingGap with
    | some gap, _ => c.undoNew gap g
    | none, some gap => c.undoExtend gap g
    | none, none => c.undoLast g
  let run := TransitionRemoveCommand.undoAll restored.1.transitionRemoveCommands restored.2
  ({ restored.1 with transitionRemoveCommands := run.1 }, run.2)

end TrackReplaceBlockWithGapCommand

open TrackReplaceBlockWithGapCommand

/-! ### Changes of the track -/

section Changes

variable {g : ProjectGraph F β} {track x y : NodeId} {t : TrackBehavior F} {b : Behavior F β}
  {pre post : List NodeId}

theorem behaviorOf_trackReplaceBlock {old : NodeId} (ht : g.behaviorOf track = some (.track t))
    (hblocks : t.blocks = pre ++ old :: post) (hold : old ∉ pre) (htrack : old ≠ track)
    (hx : x ≠ track) (hne : x ≠ old) :
    (trackReplaceBlock g track old x).behaviorOf y =
      if y = track then some (.track { t with blocks := pre ++ x :: post })
      else if y = x then (g.behaviorOf y).map (.modifyCore fun c => { c with track := some track })
      else if y = old then (g.behaviorOf y).map (.modifyCore fun c => { c with track := none })
      else g.behaviorOf y := by
  have hset : (pre ++ old :: post).set pre.length x = pre ++ x :: post := by
    rw [List.set_append_right _ _ (Nat.le_refl _), Nat.sub_self, List.set_cons_zero]
  have hreplace : replaceBlock t old x = some { t with blocks := pre ++ x :: post } := by
    rw [replaceBlock, blockIndex_eq hblocks hold, Option.map_some, hblocks, hset]
  simp only [trackReplaceBlock, trackBehaviorOf_eq_some_iff.2 ht, Option.bind_some, hreplace]
  rw [setTrack, behaviorOf_modifyBlock, behaviorOf_setTrack ht htrack]
  by_cases hy : y = track
  · rw [hy, if_neg (Ne.symm hx), if_pos rfl, if_pos rfl]
  · rw [if_neg hy, if_neg hy]
    by_cases hyx : y = x
    · rw [if_pos hyx, if_pos hyx, if_neg (hyx ▸ hne)]
    · rw [if_neg hyx, if_neg hyx]

theorem behaviorOf_trackInsertBlockBefore {next : NodeId}
    (ht : g.behaviorOf track = some (.track t)) (hblocks : t.blocks = pre ++ next :: post)
    (hnext : next ∉ pre) (hx : x ≠ track) :
    (trackInsertBlockBefore g track x next).behaviorOf y =
      if y = track then some (.track { t with blocks := pre ++ x :: next :: post })
      else if y = x then (g.behaviorOf y).map (.modifyCore fun c => { c with track := some track })
      else g.behaviorOf y := by
  simp only [trackInsertBlockBefore, trackBehaviorOf_eq_some_iff.2 ht, Option.bind_some,
    TrackBehavior.insertBlockBefore, blockIndex_eq hblocks hnext, Option.map_some, hblocks,
    Lib.insertIdx_append]
  exact behaviorOf_setTrack ht hx _

end Changes

/-! ### The place of the block -/

variable {entry : NodeEntry F (Behavior F β)}

section Fill

variable {g : ProjectGraph F β} {track x : NodeId} {t : TrackBehavior F} {b : Behavior F β}
  {core : BlockCore F} {pre post : List (NodeId × Behavior F β)} {q : NodeId × Behavior F β}
  {c : TrackReplaceBlockWithGapCommand F β} {length : Rational}

/-- A core whose out point is later. -/
def extendBy (length : Rational) (c : BlockCore F) : BlockCore F :=
  { c with range := ⟨c.in_, c.out + length⟩ }

theorem inOf_extendBy (hq : q.2.blockCore = some core) (length : Rational) :
    inOf (q.2.modifyCore (extendBy length)) = inOf q.2 :=
  (inOf_modifyCore hq _).trans (inOf_eq hq).symm

theorem outOf_extendBy (hq : q.2.blockCore = some core) (length : Rational) :
    outOf (q.2.modifyCore (extendBy length)) = outOf q.2 + length :=
  (outOf_modifyCore hq _).trans (congrArg (· + length) (outOf_eq hq).symm)

theorem setLengthAndMediaIn_add {c : BlockCore F} (hc : c.in_ ≤ c.out) (hlength : 0 ≤ length) :
    c.setLengthAndMediaIn (length + c.length) = extendBy length c := by
  have hpos : 0 ≤ length + c.length := by
    rw [BlockCore.length_eq]
    linarith
  rw [BlockCore.setLengthAndMediaIn_of_le c hpos, extendBy, add_comm length, ← add_assoc,
    BlockCore.in_add_length]

theorem setLengthAndMediaIn_extendBy {c : BlockCore F} (hc : c.in_ ≤ c.out) (length : Rational) :
    (extendBy length c).setLengthAndMediaIn ((extendBy length c).length - length) = c := by
  have hlength : (extendBy length c).length - length = c.length := by
    simp only [extendBy, BlockCore.length, BlockCore.in_, BlockCore.out, TimeRange.length]
    ring
  have hpos : 0 ≤ c.length := by
    rw [BlockCore.length_eq]
    linarith
  rw [hlength, BlockCore.setLengthAndMediaIn_of_le _ hpos]
  have hout : (extendBy length c).in_ + c.length = c.out := BlockCore.in_add_length c
  rw [hout]
  rfl

/-- A gap of the track is extended, and the block removed. -/
theorem extend_spec (h : Track g track t (pre ++ (x, b) :: post)) (hc : c.track = track)
    (hblock : c.block = x) (hq : q ∈ pre ++ post) (hqcore : q.2.blockCore = some core)
    (hpos : core.in_ ≤ core.out) (hlength : 0 ≤ length) (previous : Option NodeId) (y : NodeId) :
    (c.extend previous q.1 length g).2.behaviorOf y =
      if y = track then some (.track { t with blocks := (pre ++ post).map Prod.fst })
      else if y = x then some (b.modifyCore withoutTrack)
      else if y = q.1 then some (q.2.modifyCore (extendBy length))
      else g.behaviorOf y := by
  subst hc hblock
  have hmem : q ∈ pre ++ (c.block, b) :: post :=
    ((List.sublist_cons_self _ _).append_left _).subset hq
  have hqb := (h.block q hmem).1
  have hqx : q.1 ≠ c.block := h.fst_ne hq
  have hqtrack : q.1 ≠ c.track := h.ne_track hmem
  have hxtrack : c.block ≠ c.track := h.ne_track (p := (c.block, b)) (by simp)
  have hqlength : blockLength g q.1 = core.length :=
    blockLength_eq (by rw [blockCoreOf_eq hqb, hqcore])
  have htrack : (blockSetLengthAndMediaIn g q.1 (length + blockLength g q.1)).behaviorOf c.track =
      some (.track t) := by
    rw [blockSetLengthAndMediaIn, behaviorOf_modifyBlock, if_neg (Ne.symm hqtrack), h.behavior]
  have hxmem : c.block ∈ t.blocks := by
    rw [h.order]
    simp
  rw [extend,
    behaviorOf_trackRippleRemoveBlock htrack hxmem hxtrack, h.filter_ne, blockSetLengthAndMediaIn,
    behaviorOf_modifyBlock]
  by_cases hy : y = c.track
  · rw [if_pos hy, if_pos hy]
  rw [if_neg hy, if_neg hy]
  by_cases hyx : y = c.block
  · rw [if_pos hyx, if_pos hyx, hyx, if_neg (Ne.symm hqx), h.behaviorOf]
    rfl
  rw [if_neg hyx, if_neg hyx]
  by_cases hyq : y = q.1
  · rw [if_pos hyq, if_pos hyq, hyq, hqb, Option.map_some, hqlength]
    exact congrArg some (Behavior.modifyCore_congr hqcore (setLengthAndMediaIn_add hpos hlength))
  · rw [if_neg hyq, if_neg hyq]

variable {g' : ProjectGraph F β}

/-- The block is put back beside the gap that was extended. -/
theorem behaviorOf_insertBeside (h : Track g track t (pre ++ (x, b) :: post))
    (ht : g'.behaviorOf track = some (.track { t with blocks := (pre ++ post).map Prod.fst }))
    {precedes : Bool} (hbefore : precedes = true → pre.getLast? = some q)
    (hbehind : precedes = false → post.head? = some q) (y : NodeId) :
    (if precedes then trackInsertBlockAfter g' track x (some q.1)
      else trackInsertBlockBefore g' track x q.1).behaviorOf y =
      if y = track then some (.track t)
      else if y = x then
        (g'.behaviorOf y).map (.modifyCore fun c => { c with track := some track })
      else g'.behaviorOf y := by
  have hxtrack : x ≠ track := h.ne_track (p := (x, b)) (by simp)
  have horder : t.blocks = pre.map Prod.fst ++ x :: post.map Prod.fst := by
    rw [h.order, List.map_append, List.map_cons]
  have hnodup := h.nodup
  rw [List.map_append, List.map_cons] at hnodup
  have hback : { t with blocks := pre.map Prod.fst ++ x :: post.map Prod.fst } = t := by
    rw [← horder]
  cases precedes with
  | true =>
    have hlast : some q.1 = (pre.map Prod.fst).getLast? := by
      rw [List.getLast?_map, hbefore rfl, Option.map_some]
    rw [if_pos rfl, hlast, behaviorOf_trackInsertBlockAfter ht (by rw [List.map_append])
      (List.nodup_append.1 hnodup).1 hxtrack, hback]
  | false =>
    rcases post with _ | ⟨p, post⟩
    · exact absurd (hbehind rfl) (by simp)
    · obtain rfl := Option.some.inj (hbehind rfl)
      have hp : p.1 ∉ pre.map Prod.fst := by
        intro hmem
        refine (List.nodup_append.1 hnodup).2.2 p.1 hmem p.1 ?_ rfl
        simp
      rw [if_neg (by simp), behaviorOf_trackInsertBlockBefore ht
        (by rw [List.map_append, List.map_cons]) hp hxtrack]
      rw [List.map_cons] at hback
      rw [hback]

/-- What was extended is as long as it was, and the block is in its place. -/
theorem undoExtend_spec {bcore : BlockCore F}
    (h : Track g track t (pre ++ (x, b) :: post)) (hc : c.track = track) (hblock : c.block = x)
    (hmerged : c.existingMergedGap = none) (hbcore : b.blockCore = some bcore)
    (hq : q ∈ pre ++ post) (hqcore : q.2.blockCore = some core) (hpos : core.in_ ≤ core.out)
    (hbefore : c.existingGapPrecedes = true → pre.getLast? = some q)
    (hbehind : c.existingGapPrecedes = false → post.head? = some q)
    (hg' : ∀ y, g'.behaviorOf y =
      if y = track then some (.track { t with blocks := (pre ++ post).map Prod.fst })
      else if y = x then some (b.modifyCore withoutTrack)
      else if y = q.1 then some (q.2.modifyCore (extendBy bcore.length))
      else g.behaviorOf y) (y : NodeId) :
    (c.undoExtend q.1 g').2.behaviorOf y = g.behaviorOf y := by
  subst hc hblock
  have hmem : q ∈ pre ++ (c.block, b) :: post :=
    ((List.sublist_cons_self _ _).append_left _).subset hq
  have hqb := (h.block q hmem).1
  have hqx : q.1 ≠ c.block := h.fst_ne hq
  have hqtrack : q.1 ≠ c.track := h.ne_track hmem
  have hxtrack : c.block ≠ c.track := h.ne_track (p := (c.block, b)) (by simp)
  have hqlength : blockLength g' q.1 = (extendBy bcore.length core).length := by
    refine blockLength_eq ?_
    rw [blockCoreOf, hg', if_neg hqtrack, if_neg hqx, if_pos rfl, Option.bind_some,
      Behavior.blockCore_modifyCore, hqcore, Option.map_some]
  have hxcore : blockCoreOf g' c.block = some (withoutTrack bcore) := by
    rw [blockCoreOf, hg', if_neg hxtrack, if_pos rfl, Option.bind_some,
      Behavior.blockCore_modifyCore, hbcore, Option.map_some]
  have hxlength : blockLength g' c.block = bcore.length := by
    rw [blockLength_eq hxcore]
    rfl
  have hinsert := behaviorOf_insertBeside h ((hg' c.track).trans (if_pos rfl)) hbefore hbehind y
  simp only [undoExtend, hmerged, hqlength, hxlength]
  rw [blockSetLengthAndMediaIn, behaviorOf_modifyBlock, hinsert, hg']
  by_cases hy : y = c.track
  · rw [if_pos hy, hy, if_neg (Ne.symm hqtrack), h.behavior]
  rw [if_neg hy, if_neg hy]
  by_cases hyx : y = c.block
  · obtain ⟨core', hcore', -, howner⟩ := h.exists_core
    rw [if_pos hyx, if_pos hyx, hyx, if_neg (Ne.symm hqx), h.behaviorOf, Option.map_some,
      Behavior.modifyCore_modifyCore]
    refine congrArg some (Behavior.modifyCore_eq_self hcore' ?_)
    rw [Function.comp_apply, withoutTrack, ← howner]
  rw [if_neg hyx, if_neg hyx]
  by_cases hyq : y = q.1
  · rw [if_pos hyq, if_pos hyq, hyq, hqb, Option.map_some, Behavior.modifyCore_modifyCore]
    refine congrArg some (Behavior.modifyCore_eq_self hqcore ?_)
    exact setLengthAndMediaIn_extendBy hpos bcore.length
  · rw [if_neg hyq, if_neg hyq]

/-- The core of a new gap over `[in_, in_ + length)`. -/
def newGapCore [ClipSpeed F] (in_ length : Rational) : BlockCore F :=
  { BlockCore.default with range := ⟨in_, in_ + length⟩ }

theorem setLength_setIn_default [ClipSpeed F] {in_ : Rational} (hlength : 0 ≤ length) :
    ((BlockCore.default : BlockCore F).setIn in_).setLengthAndMediaIn length =
      newGapCore in_ length := by
  have hle : (BlockCore.default : BlockCore F).in_ ≤ (BlockCore.default : BlockCore F).out := by
    show (TimeRange.new 0 1).in_ ≤ (TimeRange.new 0 1).out
    decide +kernel
  rw [BlockCore.setIn_of_le _ _ hle, BlockCore.setLengthAndMediaIn_of_le _ hlength]
  rfl

theorem fillNew_spec [ClipSpeed F] (h : Track g track t (pre ++ (x, b) :: post))
    (hc : c.track = track) (hblock : c.block = x) (hnone : c.ourGap = none)
    (hentry : c.ourGapEntry = none) (hvacant : g.FreeVacant)
    (hroom : g.entries.length < u32Size - 1) (hlength : 0 ≤ length) :
    ∃ gap g', c.fillNew length g = ({ c with
          ourGap := some gap
          ourGapEntry := none }, g') ∧ g.behaviorOf gap = none ∧ ∀ y, g'.behaviorOf y =
        if y = track then
          some (.track { t with blocks := pre.map Prod.fst ++ gap :: post.map Prod.fst })
        else if y = gap then
          some (.gap ⟨{ newGapCore c.blockInPoint length with track := some track }⟩)
        else if y = x then some (b.modifyCore withoutTrack)
        else g.behaviorOf y := by
  subst hc hblock
  obtain ⟨hfresh, hcreated⟩ : g.behaviorOf (blockGapCreate g).2 = none ∧
      ∀ y, (blockGapCreate g).1.behaviorOf y = if y = (blockGapCreate g).2 then
        some (.gap ⟨.default⟩) else g.behaviorOf y :=
    Graph.behaviorOf_allocate hvacant hroom NodeCore.new (.gap ⟨.default⟩)
  have hne (y : NodeId) (d : Behavior F β) (hy : g.behaviorOf y = some d) :
      (blockGapCreate g).2 ≠ y := ne_of_found hfresh hy
  have hgx : (blockGapCreate g).2 ≠ c.block := hne _ _ h.behaviorOf
  have hgtrack : (blockGapCreate g).2 ≠ c.track := hne _ _ h.behavior
  have hxtrack : c.block ≠ c.track := h.ne_track (p := (c.block, b)) (by simp)
  let placed := blockSetLengthAndMediaIn (blockSetIn (blockGapCreate g).1 (blockGapCreate g).2
    c.blockInPoint) (blockGapCreate g).2 length
  have hplaced (y : NodeId) : placed.behaviorOf y = if y = (blockGapCreate g).2 then
      some (.gap ⟨newGapCore c.blockInPoint length⟩) else g.behaviorOf y := by
    rw [show placed.behaviorOf y = _ from behaviorOf_modifyBlock _, blockSetIn,
      behaviorOf_modifyBlock, hcreated]
    split_ifs
    · rw [Option.map_some, Option.map_some, Behavior.modifyCore, Behavior.modifyCore,
        setLength_setIn_default hlength]
    · rfl
  have horder : t.blocks = pre.map Prod.fst ++ c.block :: post.map Prod.fst := by
    rw [h.order, List.map_append, List.map_cons]
  have htrack : placed.behaviorOf c.track = some (.track t) := by
    rw [hplaced, if_neg (Ne.symm hgtrack), h.behavior]
  refine ⟨(blockGapCreate g).2, trackReplaceBlock placed c.track c.block (blockGapCreate g).2, ?_,
    hfresh, fun y => ?_⟩
  · simp only [fillNew, createGap,
      hnone, hentry]
    rfl
  · rw [behaviorOf_trackReplaceBlock htrack horder h.notMem_pre hxtrack hgtrack hgx, hplaced]
    by_cases hy : y = c.track
    · rw [if_pos hy, if_pos hy]
    rw [if_neg hy, if_neg hy]
    by_cases hyg : y = (blockGapCreate g).2
    · rw [if_pos hyg, if_pos hyg, if_pos hyg, Option.map_some]
      rfl
    rw [if_neg hyg, if_neg hyg, if_neg hyg]
    by_cases hyx : y = c.block
    · rw [if_pos hyx, if_pos hyx, hyx, h.behaviorOf]
      rfl
    · rw [if_neg hyx, if_neg hyx]

theorem undoNew_spec {gap : NodeId} {gapCore : BlockCore F}
    (h : Track g track t (pre ++ (x, b) :: post)) (hc : c.track = track) (hblock : c.block = x)
    (hentry : c.ourGapEntry = none) (hfresh : g.behaviorOf gap = none)
    (hg' : ∀ y, g'.behaviorOf y =
      if y = track then
        some (.track { t with blocks := pre.map Prod.fst ++ gap :: post.map Prod.fst })
      else if y = gap then some (.gap ⟨gapCore⟩)
      else if y = x then some (b.modifyCore withoutTrack)
      else g.behaviorOf y) (y : NodeId) :
    (c.undoNew gap g').2.behaviorOf y = g.behaviorOf y := by
  subst hc hblock
  have hne (y : NodeId) (d : Behavior F β) (hy : g.behaviorOf y = some d) : gap ≠ y :=
    ne_of_found hfresh hy
  have hgx : gap ≠ c.block := hne _ _ h.behaviorOf
  have hgtrack : gap ≠ c.track := hne _ _ h.behavior
  have hxtrack : c.block ≠ c.track := h.ne_track (p := (c.block, b)) (by simp)
  have hgpre : gap ∉ pre.map Prod.fst := by
    intro hmem
    obtain ⟨q, hq, rfl⟩ := List.mem_map.1 hmem
    exact hne _ _ (h.block q (List.mem_append_left _ hq)).1 rfl
  have horder : t.blocks = pre.map Prod.fst ++ c.block :: post.map Prod.fst := by
    rw [h.order, List.map_append, List.map_cons]
  have hback : { t with blocks := pre.map Prod.fst ++ c.block :: post.map Prod.fst } = t := by
    rw [← horder]
  have hreplaced (y : NodeId) : (trackReplaceBlock g' c.track gap c.block).behaviorOf y =
      if y = gap then some (.gap ⟨{ gapCore with track := none }⟩) else g.behaviorOf y := by
    rw [behaviorOf_trackReplaceBlock ((hg' c.track).trans (if_pos rfl)) rfl hgpre hgtrack hxtrack
      (Ne.symm hgx), hg', hback]
    by_cases hy : y = c.track
    · rw [if_pos hy, hy, if_neg (Ne.symm hgtrack), h.behavior]
    rw [if_neg hy, if_neg hy]
    by_cases hyx : y = c.block
    · obtain ⟨core', hcore', -, howner⟩ := h.exists_core
      rw [if_pos hyx, hyx, if_neg (Ne.symm hgx), if_pos rfl, if_neg (Ne.symm hgx), h.behaviorOf,
        Option.map_some, Behavior.modifyCore_modifyCore]
      refine congrArg some (Behavior.modifyCore_eq_self hcore' ?_)
      rw [Function.comp_apply, withoutTrack, ← howner]
    rw [if_neg hyx, if_neg hyx]
    split_ifs
    · rfl
    · rfl
  have hgap : (trackReplaceBlock g' c.track gap c.block).behaviorOf gap =
      some (.gap ⟨{ gapCore with track := none }⟩) := by rw [hreplaced, if_pos rfl]
  obtain ⟨entry, g₂, hremove, -, -, hremoved, -⟩ := blockRemoveFromGraph_spec hgap
  simp only [undoNew, hentry, hremove]
  rw [hremoved, hreplaced]
  split_ifs with hy
  · rw [hy, hfresh]
  · rfl

/-! ### The end of the track -/

theorem undoLast_spec (h : Track g track t (pre ++ [(x, b)])) (hc : c.track = track)
    (hblock : c.block = x) (hmerged : c.existingMergedGap = none) (y : NodeId) :
    (c.undoLast (trackRippleRemoveBlock g track x)).2.behaviorOf y = g.behaviorOf y := by
  subst hc hblock
  have hxtrack : c.block ≠ c.track := h.ne_track (p := (c.block, b)) (by simp)
  have horder : t.blocks = pre.map Prod.fst ++ [c.block] := by
    rw [h.order, List.map_append, List.map_cons, List.map_nil]
  have hback : { t with blocks := pre.map Prod.fst ++ [c.block] } = t := by rw [← horder]
  simp only [undoLast, hmerged]
  rw [behaviorOf_trackAppendBlock h.remove.behavior hxtrack, h.behaviorOf_remove]
  simp only [List.append_nil, hback]
  by_cases hy : y = c.track
  · rw [if_pos hy, hy, h.behavior]
  rw [if_neg hy, if_neg hy]
  by_cases hyx : y = c.block
  · obtain ⟨core', hcore', -, howner⟩ := h.exists_core
    rw [if_pos hyx, if_pos hyx, hyx, h.behaviorOf, Option.map_some, Option.map_some,
      Behavior.modifyCore_modifyCore]
    refine congrArg some (Behavior.modifyCore_eq_self hcore' ?_)
    rw [Function.comp_apply, withoutTrack, ← howner]
  · rw [if_neg hyx, if_neg hyx]

theorem removeGap_spec (h : Track g track t (pre ++ q :: post)) (hc : c.track = track) :
    ∃ entry g', c.removeGap q.1 g = ({ c with
          existingMergedGap := some q.1
          mergedGapEntry := some entry }, g') ∧
      entry.behavior = q.2.modifyCore withoutTrack ∧ Detached g' q.1 entry ∧
      Track g' track { t with blocks := (pre ++ post).map Prod.fst } (pre ++ post) ∧
      ∀ y, g'.behaviorOf y =
        if y = track then some (.track { t with blocks := (pre ++ post).map Prod.fst })
        else if y = q.1 then none else g.behaviorOf y := by
  subst hc
  have hqtrack : q.1 ≠ c.track := h.ne_track (by simp)
  have hremove := h.behaviorOf_remove
  have hgap : (trackRippleRemoveBlock g c.track q.1).behaviorOf q.1 =
      some (q.2.modifyCore withoutTrack) := by
    rw [hremove, if_neg hqtrack, if_pos rfl, h.behaviorOf, Option.map_some]
  obtain ⟨entry, g', htake, hentry, hdetached, hbehavior, -⟩ := blockRemoveFromGraph_spec hgap
  have hall (y : NodeId) : g'.behaviorOf y =
      if y = c.track then some (.track { t with blocks := (pre ++ post).map Prod.fst })
      else if y = q.1 then none else g.behaviorOf y := by
    rw [hbehavior, hremove]
    by_cases hy : y = c.track
    · rw [if_pos hy, if_pos hy, if_neg (hy ▸ Ne.symm hqtrack)]
    rw [if_neg hy, if_neg hy]
    split_ifs
    · rfl
    · rfl
  refine ⟨entry, g', ?_, hentry, hdetached, h.remove.congr ?_ fun p hp => ?_, hall⟩
  · simp only [removeGap, htake]
  · rw [hall, if_pos rfl, hremove, if_pos rfl]
  · rw [hbehavior, if_neg (h.fst_ne hp)]

/-- A gap before the last block comes back without its track. -/
theorem undoLast_gap {t' : TrackBehavior F} (hmerged : c.existingMergedGap = some q.1)
    (hentry : c.mergedGapEntry = some entry) (ht : g.behaviorOf c.track = some (.track t'))
    (hdetached : Detached g q.1 entry) (hqtrack : q.1 ≠ c.track) (hqx : q.1 ≠ c.block)
    (hxtrack : c.block ≠ c.track) : (c.undoLast g).2.behaviorOf q.1 = some entry.behavior := by
  have happend := behaviorOf_trackAppendBlock ht hqtrack
  have hdetached' : Detached (trackAppendBlock g c.track q.1) q.1 entry := by
    refine hdetached.congr fun n hn => ⟨n, ?_⟩
    simp only [trackAppendBlock, trackBehaviorOf_eq_some_iff.2 ht]
    exact (vacant_setTrack _ _).2 hn
  have hback := hdetached'.behaviorOf_blockAddToGraph
  have htrack : (blockAddToGraph (trackAppendBlock g c.track q.1) q.1 (some entry)).behaviorOf
      c.track = some (.track { t' with blocks := t'.blocks ++ [q.1] }) := by
    rw [hback, if_neg (Ne.symm hqtrack), happend, if_pos rfl]
  simp only [undoLast, hmerged, hentry]
  rw [behaviorOf_trackAppendBlock htrack hxtrack, if_neg hqtrack, if_neg hqx, hback, if_pos rfl]

/-- A gap that was merged with another one keeps the length of that one. -/
theorem undoExtend_merged {n : NodeId} {d : Behavior F β} (hmerged : c.existingMergedGap = some n)
    (hentry : c.mergedGapEntry = some entry) (hn : g.behaviorOf n = none)
    (hdetached : Detached g n entry) (hq : g.behaviorOf q.1 = some d) (hqn : q.1 ≠ n)
    (hqx : q.1 ≠ c.block) (hqtrack : q.1 ≠ c.track) :
    (c.undoExtend q.1 g).2.behaviorOf q.1 = some (d.modifyCore fun core =>
      core.setLengthAndMediaIn (blockLength g q.1 - blockLength g c.block)) := by
  have hzero : blockLength g n = 0 := by
    rw [blockLength, blockCoreOf, hn]
    rfl
  have hdetached' : Detached (trackInsertBlockAfter g c.track n (some q.1)) n entry :=
    hdetached.congr fun m hm => ⟨m, (vacant_trackInsertBlockAfter _).2 hm⟩
  have hback : (blockAddToGraph (trackInsertBlockAfter g c.track n (some q.1)) n
      (some entry)).behaviorOf q.1 = some d := by
    rw [hdetached'.behaviorOf_blockAddToGraph, if_neg hqn,
      behaviorOf_trackInsertBlockAfter_of_ne _ hqtrack hqn, hq]
  simp only [undoExtend, hmerged, hentry, hzero, sub_zero]
  rw [blockSetLengthAndMediaIn, behaviorOf_modifyBlock, if_pos rfl]
  split_ifs
  · rw [behaviorOf_trackInsertBlockAfter_of_ne _ hqtrack hqx, hback, Option.map_some]
  · rw [behaviorOf_trackInsertBlockBefore_of_ne _ hqtrack hqx, hback, Option.map_some]

end Fill

/-! ### What the command is for -/

variable {l r : List (NodeId × Behavior F β)} {n : NodeId × Behavior F β}

section Result

/-- One gap is over the span of `b`, and the gaps that were next to it are part of it. -/
def Filled (pre post : List (NodeId × Behavior F β)) (b : Behavior F β)
    (blocks : List (NodeId × Behavior F β)) : Prop :=
  ∃ before gap after, blocks = before ++ gap :: after ∧ isGapBlock gap.2 = true ∧
    inOf gap.2 ≤ inOf b ∧ outOf b ≤ outOf gap.2 ∧
    (∀ p ∈ pre.getLast?, isGapBlock p.2 = true → p.1 ∉ (before ++ after).map Prod.fst) ∧
    ∀ p ∈ post.head?, isGapBlock p.2 = true → p.1 ∉ (before ++ after).map Prod.fst

/-- The block is off its track, whose blocks are in order. Those that are no gaps are the others,
as they were, and the span of the block is filled, unless nothing but gaps follows it. -/
def Replaced (g' : ProjectGraph F β) (track : NodeId) (t : TrackBehavior F)
    (pre : List (NodeId × Behavior F β)) (x : NodeId) (b : Behavior F β)
    (post : List (NodeId × Behavior F β)) : Prop :=
  ∃ blocks, Track g' track { t with blocks := blocks.map Prod.fst } blocks ∧ Sorted blocks ∧
    x ∉ blocks.map Prod.fst ∧ content blocks = content (pre ++ post) ∧
    ((∃ p ∈ post, isGapBlock p.2 = false) → Filled pre post b blocks)

variable [ClipSpeed F]

/-- The block is replaced, and an undo restores every node. -/
def ReplacesExactly (g : ProjectGraph F β) (handleTransitions : Bool) (track : NodeId)
    (t : TrackBehavior F) (pre : List (NodeId × Behavior F β)) (x : NodeId) (b : Behavior F β)
    (post : List (NodeId × Behavior F β)) : Prop :=
  let r := (new g track x handleTransitions).redo g
  Replaced r.2 track t pre x b post ∧ ∀ y, (r.1.undo r.2).2.behaviorOf y = g.behaviorOf y

/-- No gap is before a block at the end of its track. Before other content, a gap before the block
ends where the block begins, and no gap is behind it. Where only gaps follow, the first of them has
room to grow by the length of the block, and no gap is before the block. -/
def Fits (pre : List (NodeId × Behavior F β)) (b : Behavior F β)
    (post : List (NodeId × Behavior F β)) : Prop :=
  match post with
  | [] => ∀ p ∈ pre.getLast?, isGapBlock p.2 = false
  | n :: rest =>
    if isGapBlock n.2 then
      (∀ p ∈ pre.getLast?, isGapBlock p.2 = false) ∧ (∀ q ∈ rest, isGapBlock q.2 = true) ∧
        ∀ q ∈ rest.head?, outOf n.2 + (outOf b - inOf b) ≤ inOf q.2
    else ∀ p ∈ pre.getLast?, isGapBlock p.2 = true → outOf p.2 = inOf b

/-- The times of a replacement: the span of the block, and what its neighbours grow to. -/
def replaceTimes (pre : List (NodeId × Behavior F β)) (b : Behavior F β)
    (post : List (NodeId × Behavior F β)) : List Rational :=
  let length (p : NodeId × Behavior F β) := outOf p.2 - inOf p.2
  let own := outOf b - inOf b
  [inOf b, outOf b, own, inOf b + 1] ++
    ((pre.getLast?.toList ++ post.head?.toList).flatMap fun p =>
      [inOf p.2, outOf p.2, length p, own + length p, outOf p.2 + own]) ++
    -- the two gaps that are merged
    pre.getLast?.elim [] fun q => post.head?.elim [] fun n =>
      [own + length n + length q, outOf q.2 + (own + length n), length n + length q,
        outOf q.2 + length n]

/-- A track whose blocks are in order and do not overlap, with room for one more node. A transition
overlaps the blocks that it joins, so there is none. -/
structure Replaceable (g : ProjectGraph F β) (track : NodeId) (t : TrackBehavior F)
    (pre : List (NodeId × Behavior F β)) (x : NodeId) (b : Behavior F β)
    (post : List (NodeId × Behavior F β)) : Prop where
  track : Track g track t (pre ++ (x, b) :: post)
  sorted : Sorted (pre ++ (x, b) :: post)
  straight : ∀ p ∈ pre ++ (x, b) :: post, blockKind g p.1 ≠ .transition
  vacant : g.FreeVacant
  room : g.entries.length < u32Size - 1

variable {g g' : ProjectGraph F β} {handleTransitions : Bool} {track x : NodeId}
  {t : TrackBehavior F} {b : Behavior F β} {pre post blocks : List (NodeId × Behavior F β)}

omit [ClipSpeed F] in
theorem replaced_iff (h : Track g' track { t with blocks := blocks.map Prod.fst } blocks) :
    Replaced g' track t pre x b post ↔ Sorted blocks ∧ x ∉ blocks.map Prod.fst ∧
      content blocks = content (pre ++ post) ∧
      ((∃ p ∈ post, isGapBlock p.2 = false) → Filled pre post b blocks) := by
  constructor
  · rintro ⟨blocks', h', hsorted⟩
    have hsame := Behavior.track.inj (Option.some.inj (h'.behavior.symm.trans h.behavior))
    rw [hsame] at h'
    rwa [track_unique h' h] at hsorted
  · exact fun hsorted => ⟨blocks, h, hsorted⟩

omit [ClipSpeed F] in
theorem previousGap_eq (h : Track g track t (pre ++ (x, b) :: post)) :
    ((pre.map Prod.fst).getLast?.filter fun y => blockKind g y = .gap) =
      (pre.getLast?.filter fun p => isGapBlock p.2).map Prod.fst := by
  rw [List.getLast?_map]
  rcases hlast : pre.getLast? with _ | p
  · rfl
  · have hp : p ∈ pre ++ (x, b) :: post := List.mem_append_left _ (List.mem_of_getLast? hlast)
    have hiff := blockKind_eq_gap_iff (h.block p hp).1
    rw [Option.map_some, Option.filter_some, Option.filter_some]
    by_cases hgap : isGapBlock p.2 = true
    · simp [hiff, hgap]
    · simp [hiff, hgap]

/-- Without transitions there is nothing to remove first. -/
theorem redo_eq (h : Replaceable g track t pre x b post) :
    (new g track x handleTransitions).redo g =
      match (post.map Prod.fst).head? with
      | some next => (new g track x handleTransitions).fill
          (pre.map Prod.fst).getLast? next g
      | none => (new g track x handleTransitions).removeLast
          (pre.map Prod.fst).getLast? g := by
  have hnone (o : Option NodeId) (ho : ∀ y ∈ o, blockKind g y ≠ .transition) :
      (removeTransition g o : List (TransitionRemoveCommand F β)) =
        [] := by
    rcases o with _ | y
    · rfl
    · simp [removeTransition, ho y rfl]
  have hprevious := hnone (pre.map Prod.fst).getLast? fun y hy => by
    obtain ⟨p, hp, rfl⟩ := List.mem_map.1 (List.mem_of_getLast? hy)
    exact h.straight p (List.mem_append_left _ hp)
  have hnext := hnone (post.map Prod.fst).head? fun y hy => by
    obtain ⟨p, hp, rfl⟩ := List.mem_map.1 (List.mem_of_head? hy)
    exact h.straight p (List.mem_append_right _ (List.mem_cons_of_mem _ hp))
  have hblock : (new g track x handleTransitions :
    TrackReplaceBlockWithGapCommand F β).block = x := rfl
  have hlist : (new g track x handleTransitions :
    TrackReplaceBlockWithGapCommand F β).transitionRemoveCommands = [] := rfl
  simp only [redo, hblock, hlist, h.track.blockPrevious_eq,
    h.track.blockNext_eq, hprevious, hnext, List.append_nil, ite_self,
    TransitionRemoveCommand.redoAll]
  rfl

/-! ### The cases -/

omit [ClipSpeed F] in
theorem Track.notMem_sides (h : Track g track t (pre ++ (x, b) :: post)) :
    x ∉ (pre ++ post).map Prod.fst := by
  intro hmem
  obtain ⟨p, hp, heq⟩ := List.mem_map.1 hmem
  exact h.fst_ne hp heq

omit [ClipSpeed F] in
theorem filter_getLast?_eq_none (h : ∀ p ∈ pre.getLast?, isGapBlock p.2 = false) :
    (pre.getLast?.filter fun p => isGapBlock p.2) = none := by
  rcases hlast : pre.getLast? with _ | p
  · rfl
  · rw [Option.filter_some, h p hlast]
    rfl

theorem replacesExactly_last (h : Replaceable g track t pre x b [])
    (hlast : ∀ p ∈ pre.getLast?, isGapBlock p.2 = false) :
    ReplacesExactly g handleTransitions track t pre x b [] := by
  have hredo : (new g track x handleTransitions).redo g =
      (.new g track x handleTransitions, trackRippleRemoveBlock g track x) := by
    have hgap : ((pre.map Prod.fst).getLast?.filter fun y =>
        blockKind (trackRippleRemoveBlock g track x) y = .gap) = none := by
      have hremove := h.track.remove
      rw [List.append_nil] at hremove
      rw [List.getLast?_map]
      rcases hq : pre.getLast? with _ | p
      · rfl
      · have hp := (hremove.block p (List.mem_of_getLast? hq)).1
        rw [Option.map_some, Option.filter_some, if_neg]
        rw [decide_eq_true_eq, blockKind_eq_gap_iff hp, hlast p hq]
        exact Bool.false_ne_true
    rw [redo_eq h]
    change (new g track x handleTransitions).removeLast _ g = _
    rw [removeLast]
    change (match (pre.map Prod.fst).getLast?.filter fun y =>
      blockKind (trackRippleRemoveBlock g track x) y = .gap with
      | some _ => _
      | none => _) = _
    rw [hgap]
    rfl
  have hremove := h.track.remove
  rw [ReplacesExactly, hredo]
  refine ⟨(replaced_iff hremove).2 ⟨?_, h.track.notMem_sides, rfl, by simp⟩, fun y => ?_⟩
  · exact h.sorted.sublist ((List.sublist_cons_self _ _).append_left _)
  · exact undoLast_spec h.track rfl rfl rfl y

omit [ClipSpeed F] in
/-- A block that knows its track is not the one that was told to forget it. -/
theorem modifyCore_withoutTrack_ne {d : Behavior F β} {core : BlockCore F}
    (hcore : d.blockCore = some core) (htrack : core.track = some track) :
    d.modifyCore withoutTrack ≠ d := by
  intro heq
  have hsame := congrArg Behavior.blockCore heq
  rw [Behavior.blockCore_modifyCore, hcore, Option.map_some] at hsame
  have hnone := congrArg BlockCore.track (Option.some.inj hsame)
  rw [htrack] at hnone
  exact absurd hnone (by simp [withoutTrack])

variable {q : NodeId × Behavior F β}

/-- At the end of the track, behind a gap: the gap comes back without its track. -/
theorem not_replacesExactly_last (h : Replaceable g track t (pre ++ [q]) x b [])
    (hgap : isGapBlock q.2 = true) :
    ¬ ReplacesExactly g handleTransitions track t (pre ++ [q]) x b [] := by
  have hremove := h.track.remove
  rw [List.append_nil] at hremove
  have hmem : q ∈ (pre ++ [q]) ++ [(x, b)] := by simp
  have hq := h.track.block q hmem
  obtain ⟨hqb, core, hcore, hqowner⟩ := hq
  have hqx : q.1 ≠ x := h.track.fst_ne (by simp)
  have hqtrack : q.1 ≠ track := h.track.ne_track hmem
  have hxtrack : x ≠ track := h.track.ne_track (p := (x, b)) (by simp)
  have hsplit : Track (trackRippleRemoveBlock g track x) track
      { t with blocks := (pre ++ [q]).map Prod.fst } (pre ++ q :: []) := hremove
  obtain ⟨entry, g', hrun, hentry, hdetached, -, hbehavior⟩ := removeGap_spec
    (c := new g track x handleTransitions) hsplit rfl
  have hlast : ((pre ++ [q]).map Prod.fst).getLast? = some q.1 := by simp
  have hredo : (new g track x handleTransitions).redo g =
      ({ new g track x handleTransitions with
          existingMergedGap := some q.1
          mergedGapEntry := some entry }, g') := by
    have hkind : blockKind (trackRippleRemoveBlock g track x) q.1 = .gap :=
      (blockKind_eq_gap_iff (hremove.block q (by simp)).1).2 hgap
    rw [redo_eq h]
    change (new g track x handleTransitions).removeLast _ g = _
    rw [hlast, removeLast]
    change (match (some q.1).filter fun y =>
      blockKind (trackRippleRemoveBlock g track x) y = .gap with
      | some gap => removeGap
        (.new g track x handleTransitions) gap (trackRippleRemoveBlock g track x)
      | none => _) = _
    rw [Option.filter_some, hkind]
    exact hrun
  rintro ⟨-, hundo⟩
  rw [hredo] at hundo
  have hback := (undoLast_gap (c := { new g track x
    handleTransitions with
      existingMergedGap := some q.1
      mergedGapEntry := some entry }) rfl rfl ((hbehavior track).trans (if_pos rfl)) hdetached
    hqtrack hqx hxtrack).symm.trans (hundo q.1)
  rw [hqb, hentry] at hback
  exact modifyCore_withoutTrack_ne hcore hqowner (Option.some.inj hback)

theorem replacesExactly_new (h : Replaceable g track t pre x b (q :: post))
    (hlast : ∀ p ∈ pre.getLast?, isGapBlock p.2 = false) (hnext : isGapBlock q.2 = false) :
    ReplacesExactly g handleTransitions track t pre x b (q :: post) := by
  obtain ⟨core, hcore, hxcore, howner⟩ := h.track.exists_core
  have hlt := h.sorted.1 (x, b) (by simp)
  have hlength : 0 ≤ core.length := by
    rw [length_eq_outOf_sub hcore]
    linarith
  obtain ⟨gap, g', hfill, hfresh, hbehavior⟩ := fillNew_spec
    (c := new g track x handleTransitions) h.track rfl rfl rfl rfl
    h.vacant h.room hlength
  have hnextKind : (blockKind g q.1 == .gap) = false := by
    rw [beq_eq_false_iff_ne, Ne, blockKind_eq_gap_iff (h.track.block q (by simp)).1, hnext]
    exact Bool.false_ne_true
  have hredo : (new g track x handleTransitions).redo g =
      ({ new g track x handleTransitions with
          ourGap := some gap
          ourGapEntry := none }, g') := by
    rw [redo_eq h]
    change (new g track x handleTransitions).fill _ q.1 g = _
    rw [fill, previousGap_eq h.track, filter_getLast?_eq_none hlast,
      hnextKind]
    change (new g track x handleTransitions).fillNew
      (blockLength g x) g = _
    rw [blockLength_eq hxcore, hfill]
  have hpoint : (new g track x handleTransitions :
    TrackReplaceBlockWithGapCommand F β).blockInPoint = core.in_ := blockIn_eq hxcore
  simp only [hpoint] at hbehavior
  have hne (p : NodeId × Behavior F β) (hp : p ∈ pre ++ (x, b) :: q :: post) : p.1 ≠ gap :=
    ne_of_found (h.track.block p hp).1 hfresh
  have hsub : ∀ p ∈ pre ++ q :: post, p ∈ pre ++ (x, b) :: q :: post := fun p hp =>
    ((List.sublist_cons_self _ _).append_left _).subset hp
  -- the gap, as it is on the track
  let filler : Behavior F β := .gap ⟨{ newGapCore core.in_ core.length with track := some track }⟩
  have htrack : Track g' track { t with blocks := (pre ++ (gap, filler) :: q :: post).map Prod.fst }
      (pre ++ (gap, filler) :: q :: post) := by
    refine ⟨?_, rfl, ?_, fun p hp => ?_⟩
    · rw [hbehavior, if_pos rfl]
      simp
    · have hnodup := h.track.nodup
      rw [List.map_append, List.map_cons, List.nodup_middle, List.nodup_cons] at hnodup
      rw [List.map_append, List.map_cons, List.nodup_middle, List.nodup_cons]
      refine ⟨fun hmem => ?_, hnodup.2⟩
      rw [← List.map_append] at hmem
      obtain ⟨p, hp, heq⟩ := List.mem_map.1 hmem
      exact hne p (hsub p hp) heq
    · have hgaptrack : gap ≠ track := ne_of_found hfresh h.track.behavior
      rcases List.mem_append.1 hp with hp' | hp'
      · have hmem := hsub p (List.mem_append_left _ hp')
        rw [hbehavior, if_neg (h.track.ne_track hmem), if_neg (hne p hmem),
          if_neg (h.track.fst_ne (List.mem_append_left _ hp'))]
        exact h.track.block p hmem
      rcases List.mem_cons.1 hp' with rfl | hp'
      · exact ⟨(hbehavior gap).trans ((if_neg hgaptrack).trans (if_pos rfl)), _, rfl, rfl⟩
      · have hmem := hsub p (List.mem_append_right _ hp')
        rw [hbehavior, if_neg (h.track.ne_track hmem), if_neg (hne p hmem),
          if_neg (h.track.fst_ne (List.mem_append_right _ hp'))]
        exact h.track.block p hmem
  have hfillIn : inOf filler = inOf b := (inOf_eq hcore).symm
  have hfillOut : outOf filler = outOf b := by
    rw [outOf_eq hcore]
    exact BlockCore.in_add_length core
  rw [ReplacesExactly, hredo]
  refine ⟨(replaced_iff htrack).2 ⟨?_, ?_, ?_, fun _ => ?_⟩, fun y => ?_⟩
  · have hsorted := h.sorted
    rw [sorted_around_iff] at hsorted ⊢
    rwa [hfillIn, hfillOut]
  · intro hmem
    rw [List.map_append, List.map_cons, List.mem_append, List.mem_cons] at hmem
    have hxgap := hne (x, b) (by simp)
    have hsides := h.track.notMem_sides
    rw [List.map_append, List.mem_append] at hsides
    tauto
  · rw [content, content, List.filter_append, List.filter_cons_of_neg (by simp [filler, isGapBlock]),
      ← List.filter_append]
  · refine ⟨pre, (gap, filler), q :: post, rfl, rfl, hfillIn.le, hfillOut.ge, fun p hp hgap => ?_,
      fun p hp hgap => ?_⟩
    · exact absurd ((hlast p hp).symm.trans hgap) Bool.false_ne_true
    · obtain rfl := Option.some.inj hp
      exact absurd (hnext.symm.trans hgap) Bool.false_ne_true
  · exact undoNew_spec h.track rfl rfl rfl hfresh hbehavior y

omit [ClipSpeed F] in
/-- The track after a gap of it was extended over the block. -/
theorem Track.extended {core : BlockCore F} {length : Rational}
    (h : Track g track t (pre ++ (x, b) :: post)) (hsides : pre ++ post = l ++ q :: r)
    (hqcore : q.2.blockCore = some core)
    (hg' : ∀ y, g'.behaviorOf y =
      if y = track then some (.track { t with blocks := (pre ++ post).map Prod.fst })
      else if y = x then some (b.modifyCore withoutTrack)
      else if y = q.1 then some (q.2.modifyCore (extendBy length))
      else g.behaviorOf y) :
    Track g' track
      { t with blocks := (l ++ (q.1, q.2.modifyCore (extendBy length)) :: r).map Prod.fst }
      (l ++ (q.1, q.2.modifyCore (extendBy length)) :: r) := by
  have hids : (l ++ (q.1, q.2.modifyCore (extendBy length)) :: r).map Prod.fst =
      (pre ++ post).map Prod.fst := by
    rw [hsides]
    simp
  have hsub : ∀ p ∈ l ++ q :: r, p ∈ pre ++ (x, b) :: post := fun p hp =>
    ((List.sublist_cons_self _ _).append_left _).subset (hsides ▸ hp)
  have hnodup : ((l ++ q :: r).map Prod.fst).Nodup := by
    rw [← hsides]
    exact h.nodup.sublist (((List.sublist_cons_self _ _).append_left _).map _)
  have hothers : ∀ p ∈ l ++ r, p.1 ≠ q.1 := by
    intro p hp heq
    rw [List.map_append, List.map_cons, List.nodup_middle, List.nodup_cons, ← List.map_append]
      at hnodup
    exact hnodup.1 (List.mem_map.2 ⟨p, hp, heq⟩)
  have hkept (p : NodeId × Behavior F β) (hp : p ∈ l ++ r) : g'.behaviorOf p.1 = some p.2 ∧
      ∃ core, p.2.blockCore = some core ∧ core.track = some track := by
    have hmem : p ∈ l ++ q :: r := ((List.sublist_cons_self _ _).append_left _).subset hp
    rw [hg', if_neg (h.ne_track (hsub p hmem)), if_neg (h.fst_ne (hsides ▸ hmem)),
      if_neg (hothers p hp)]
    exact h.block p (hsub p hmem)
  have hq : q ∈ l ++ q :: r := by simp
  refine ⟨?_, rfl, hids ▸ hsides ▸ hnodup, fun p hp => ?_⟩
  · rw [hg', if_pos rfl, hids]
  · rcases List.mem_append.1 hp with hp' | hp'
    · exact hkept p (List.mem_append_left _ hp')
    rcases List.mem_cons.1 hp' with rfl | hp'
    · obtain ⟨core', hcore', howner⟩ := (h.block q (hsub q hq)).2
      obtain rfl := Option.some.inj (hqcore.symm.trans hcore')
      have hside : q ∈ pre ++ post := by
        rw [hsides]
        exact hq
      rw [hg', if_neg (h.ne_track (hsub q hq)), if_neg (h.fst_ne hside), if_pos rfl]
      exact ⟨rfl, extendBy length core, by
        rw [Behavior.blockCore_modifyCore, hqcore, Option.map_some], howner⟩
    · exact hkept p (List.mem_append_right _ hp')

omit [ClipSpeed F] in
theorem content_extended {length : Rational} (hgap : isGapBlock q.2 = true) :
    content (l ++ (q.1, q.2.modifyCore (extendBy length)) :: r) = content (l ++ q :: r) := by
  have hnew : isGapBlock (q.2.modifyCore (extendBy length)) = true := by
    rw [isGapBlock_modifyCore, hgap]
  rw [content, content, List.filter_append, List.filter_append,
    List.filter_cons_of_neg (by simp [hnew]), List.filter_cons_of_neg (by simp [hgap])]

/-- Behind a gap and before other content: the gap is extended. -/
theorem replacesExactly_extend_iff (h : Replaceable g track t (pre ++ [q]) x b post)
    {rest : List (NodeId × Behavior F β)} (hpost : post = n :: rest) (hgap : isGapBlock q.2 = true)
    (hnext : isGapBlock n.2 = false) :
    ReplacesExactly g handleTransitions track t (pre ++ [q]) x b post ↔ outOf q.2 = inOf b := by
  obtain ⟨core, hcore, hxcore, howner⟩ := h.track.exists_core
  have hlt := h.sorted.1 (x, b) (by simp)
  have hlength := length_eq_outOf_sub hcore
  have hpos : 0 ≤ core.length := by
    rw [hlength]
    linarith
  have hq : q ∈ pre ++ [q] ++ post := by simp
  have hqmem : q ∈ pre ++ [q] ++ (x, b) :: post := by simp
  obtain ⟨-, qcore, hqcore, -⟩ := h.track.block q hqmem
  have hqle : qcore.in_ ≤ qcore.out := by
    rw [← inOf_eq hqcore, ← outOf_eq hqcore]
    exact (h.sorted.1 q hqmem).le
  have hbehavior := extend_spec (c := new g track x
    handleTransitions) h.track rfl rfl hq hqcore hqle hpos (some q.1)
  have hkind : blockKind g q.1 = .gap := (blockKind_eq_gap_iff (h.track.block q hqmem).1).2 hgap
  have hnextKind : (blockKind g n.1 == .gap) = false := by
    rw [beq_eq_false_iff_ne, Ne, blockKind_eq_gap_iff (h.track.block n (by simp [hpost])).1, hnext]
    exact Bool.false_ne_true
  have hredo : (new g track x handleTransitions).redo g =
      (new g track x handleTransitions).extend (some q.1) q.1
        core.length g := by
    have hlast : ((pre ++ [q]).map Prod.fst).getLast? = some q.1 := by simp
    rw [redo_eq h, hpost]
    change (new g track x handleTransitions).fill _ n.1 g = _
    rw [fill, hlast, Option.filter_some, hkind, hnextKind,
      ← blockLength_eq hxcore]
    rfl
  have hsides : pre ++ [q] ++ post = pre ++ q :: post := by simp
  have htrack := h.track.extended hsides hqcore hbehavior
  have hextIn := inOf_extendBy hqcore core.length
  have hextOut := outOf_extendBy hqcore core.length
  have hsorted := h.sorted
  rw [List.append_assoc, List.singleton_append, sorted_around_iff, sorted_cons] at hsorted
  obtain ⟨⟨hpre, hbefore⟩, hqlt, ⟨-, hpost', hbehind⟩, hmeet⟩ := hsorted
  have hmeet : outOf q.2 ≤ inOf b := hmeet (x, b) rfl
  have hundo (y : NodeId) : (((new g track x
      handleTransitions).extend (some q.1) q.1 core.length g).1.undo
        ((new g track x handleTransitions).extend (some q.1) q.1
          core.length g).2).2.behaviorOf y = g.behaviorOf y := by
    refine undoExtend_spec (c := ((new g track x
      handleTransitions).extend (some q.1) q.1 core.length g).1) h.track rfl rfl rfl hcore hq hqcore
      hqle (fun _ => by simp) (fun hfalse => ?_) hbehavior y
    exact absurd hfalse (by simp [extend])
  rw [ReplacesExactly, hredo]
  simp only [hundo, implies_true, and_true]
  rw [replaced_iff htrack]
  constructor
  · rintro ⟨-, -, -, hfilled⟩
    obtain ⟨before, gap, after, hsplit, -, hin, hout, -⟩ := hfilled ⟨n, by simp [hpost], hnext⟩
    have hmem : gap ∈ pre ++ (q.1, q.2.modifyCore (extendBy core.length)) :: post := by
      rw [hsplit]
      simp
    -- only the gap that was extended reaches the span of the block
    rcases List.mem_append.1 hmem with hp | hp
    · have hle := out_le_of_getLast? hpre hbefore hp
      linarith
    rcases List.mem_cons.1 hp with rfl | hp
    · rw [hextOut, hlength] at hout
      linarith
    · have hle : outOf b ≤ inOf gap.2 := hbehind gap hp
      linarith
  · intro hmeets
    have hids := h.track.notMem_sides
    rw [hsides, List.map_append, List.map_cons] at hids
    have hnodup := h.track.nodup.sublist
      (((List.sublist_cons_self (x, b) post).append_left (pre ++ [q])).map Prod.fst)
    rw [hsides, List.map_append, List.map_cons, List.nodup_middle, List.nodup_cons,
      ← List.map_append] at hnodup
    have hnew : isGapBlock (q.2.modifyCore (extendBy core.length)) = true := by
      rw [isGapBlock_modifyCore, hgap]
    refine ⟨?_, ?_, ?_, fun _ => ?_⟩
    · rw [sorted_around_iff, hextIn, hextOut, hlength]
      refine ⟨⟨hpre, hbefore⟩, by linarith, hpost', fun p hp => ?_⟩
      have hle : outOf b ≤ inOf p.2 := hbehind p (List.mem_of_head? hp)
      linarith
    · rwa [List.map_append, List.map_cons]
    · rw [hsides]
      exact content_extended hgap
    · refine ⟨pre, _, post, rfl, hnew, ?_, ?_, fun p hp _ => ?_, fun p hp hpgap => ?_⟩
      · rw [hextIn]
        linarith
      · rw [hextOut, hlength]
        linarith
      · obtain rfl : q = p := by simpa using hp
        exact hnodup.1
      · obtain rfl : n = p := by simpa [hpost] using hp
        exact absurd (hnext.symm.trans hpgap) Bool.false_ne_true

/-- Before a gap and behind other content: the gap is extended over what follows it. -/
theorem replacesExactly_next_iff (h : Replaceable g track t pre x b (q :: post))
    (hlast : ∀ p ∈ pre.getLast?, isGapBlock p.2 = false) (hgap : isGapBlock q.2 = true) :
    ReplacesExactly g handleTransitions track t pre x b (q :: post) ↔
      (∀ p ∈ post, isGapBlock p.2 = true) ∧
        ∀ p ∈ post.head?, outOf q.2 + (outOf b - inOf b) ≤ inOf p.2 := by
  obtain ⟨core, hcore, hxcore, howner⟩ := h.track.exists_core
  have hlt := h.sorted.1 (x, b) (by simp)
  have hlength := length_eq_outOf_sub hcore
  have hpos : 0 ≤ core.length := by
    rw [hlength]
    linarith
  have hq : q ∈ pre ++ q :: post := by simp
  have hqmem : q ∈ pre ++ (x, b) :: q :: post := by simp
  obtain ⟨-, qcore, hqcore, -⟩ := h.track.block q hqmem
  have hqle : qcore.in_ ≤ qcore.out := by
    rw [← inOf_eq hqcore, ← outOf_eq hqcore]
    exact (h.sorted.1 q hqmem).le
  have hbehavior := extend_spec (c := new g track x
    handleTransitions) h.track rfl rfl hq hqcore hqle hpos (pre.map Prod.fst).getLast?
  have hkind : (blockKind g q.1 == .gap) = true := by
    rw [beq_iff_eq, blockKind_eq_gap_iff (h.track.block q hqmem).1, hgap]
  have hredo : (new g track x handleTransitions).redo g =
      (new g track x handleTransitions).extend
        (pre.map Prod.fst).getLast? q.1 core.length g := by
    rw [redo_eq h]
    change (new g track x handleTransitions).fill _ q.1 g = _
    rw [fill, previousGap_eq h.track, filter_getLast?_eq_none hlast,
      hkind, ← blockLength_eq hxcore]
    rfl
  have hprecedes : (pre.map Prod.fst).getLast? ≠ some q.1 := by
    intro heq
    have hnodup := h.track.nodup
    rw [List.map_append, List.map_cons, List.map_cons] at hnodup
    refine (List.nodup_append.1 hnodup).2.2 q.1 (List.mem_of_getLast? heq) q.1 ?_ rfl
    simp
  have htrack := h.track.extended rfl hqcore hbehavior
  have hextIn := inOf_extendBy hqcore core.length
  have hextOut := outOf_extendBy hqcore core.length
  have hsorted := h.sorted
  rw [sorted_around_iff, sorted_cons] at hsorted
  obtain ⟨⟨hpre, hbefore⟩, -, ⟨hqlt, hpost, hbehind⟩, hmeet⟩ := hsorted
  have hmeet : outOf b ≤ inOf q.2 := hmeet q rfl
  have hundo (y : NodeId) : (((new g track x
      handleTransitions).extend (pre.map Prod.fst).getLast? q.1 core.length g).1.undo
        ((new g track x handleTransitions).extend
          (pre.map Prod.fst).getLast? q.1 core.length g).2).2.behaviorOf y = g.behaviorOf y := by
    refine undoExtend_spec (c := ((new g track x
      handleTransitions).extend (pre.map Prod.fst).getLast? q.1 core.length g).1) h.track rfl rfl
      rfl hcore hq hqcore hqle (fun htrue => ?_) (fun _ => rfl) hbehavior y
    exact absurd (of_decide_eq_true htrue) hprecedes
  rw [ReplacesExactly, hredo]
  simp only [hundo, implies_true, and_true]
  rw [replaced_iff htrack]
  constructor
  · rintro ⟨hordered, -, -, hfilled⟩
    rw [sorted_around_iff, hextOut, hlength] at hordered
    refine ⟨fun p hp => ?_, hordered.2.2.2⟩
    by_contra hpgap
    obtain ⟨before, gap, after, hsplit, -, hin, hout, -⟩ :=
      hfilled ⟨p, List.mem_cons_of_mem _ hp, Bool.eq_false_of_not_eq_true hpgap⟩
    have hmem : gap ∈ pre ++ (q.1, q.2.modifyCore (extendBy core.length)) :: post := by
      rw [hsplit]
      simp
    -- no block reaches from before the block to behind it
    rcases List.mem_append.1 hmem with hp | hp
    · have hle := out_le_of_getLast? hpre hbefore hp
      linarith
    rcases List.mem_cons.1 hp with rfl | hp
    · rw [hextIn] at hin
      linarith
    · have hle : outOf q.2 ≤ inOf gap.2 := hbehind gap hp
      linarith
  · rintro ⟨hgaps, hroom⟩
    have hids := h.track.notMem_sides
    rw [List.map_append, List.map_cons] at hids
    refine ⟨?_, ?_, content_extended hgap, ?_⟩
    · rw [sorted_around_iff, hextIn, hextOut, hlength]
      refine ⟨⟨hpre, fun p hp => ?_⟩, by linarith, hpost, hroom⟩
      have hle := hbefore p hp
      linarith
    · rwa [List.map_append, List.map_cons]
    · rintro ⟨p, hp, hpgap⟩
      rcases List.mem_cons.1 hp with rfl | hp
      · exact absurd (hpgap.symm.trans hgap) Bool.false_ne_true
      · exact absurd (hpgap.symm.trans (hgaps p hp)) Bool.false_ne_true

/-- Between two gaps: the merged gap keeps the length of the one that was removed. -/
theorem not_replacesExactly_merged (h : Replaceable g track t (pre ++ [q]) x b (n :: post))
    (hgap : isGapBlock q.2 = true) (hnext : isGapBlock n.2 = true) :
    ¬ ReplacesExactly g handleTransitions track t (pre ++ [q]) x b (n :: post) := by
  obtain ⟨core, hcore, hxcore, -⟩ := h.track.exists_core
  have hlt := h.sorted.1 (x, b) (by simp)
  have hlength := length_eq_outOf_sub hcore
  have hq : q ∈ pre ++ [q] ++ (x, b) :: n :: post := by simp
  have hn : n ∈ pre ++ [q] ++ (x, b) :: n :: post := by simp
  obtain ⟨hqb, qcore, hqcore, -⟩ := h.track.block q hq
  obtain ⟨-, ncore, hncore, -⟩ := h.track.block n hn
  have hqlt := h.sorted.1 q hq
  have hnlt := h.sorted.1 n hn
  have hnlength := length_eq_outOf_sub hncore
  have hnlen : blockLength g n.1 = ncore.length :=
    blockLength_eq (by rw [blockCoreOf_eq (h.track.block n hn).1, hncore])
  have hqx : q.1 ≠ x := h.track.fst_ne (by simp)
  have hnx : n.1 ≠ x := h.track.fst_ne (by simp)
  have hqtrack : q.1 ≠ track := h.track.ne_track hq
  have hntrack : n.1 ≠ track := h.track.ne_track hn
  have hxtrack : x ≠ track := h.track.ne_track (p := (x, b)) (by simp)
  have hqkind : blockKind g q.1 = .gap := (blockKind_eq_gap_iff hqb).2 hgap
  have hnkind : (blockKind g n.1 == .gap) = true := by
    rw [beq_iff_eq, blockKind_eq_gap_iff (h.track.block n hn).1, hnext]
  -- the gap behind the block leaves the track
  have hassoc : (pre ++ [q]) ++ (x, b) :: n :: post = (pre ++ [q] ++ [(x, b)]) ++ n :: post := by
    simp
  have hsplit : Track g track t ((pre ++ [q] ++ [(x, b)]) ++ n :: post) := hassoc ▸ h.track
  have hqn : q.1 ≠ n.1 := hsplit.fst_ne (p := q) (by simp)
  obtain ⟨entry, g₁, hrun, -, hdetached, htrack₁, hbehavior₁⟩ := removeGap_spec
    (c := new g track x handleTransitions) hsplit rfl
  rw [List.append_assoc (pre ++ [q]), List.singleton_append] at htrack₁
  let c : TrackReplaceBlockWithGapCommand F β :=
    { new g track x handleTransitions with
      existingMergedGap := some n.1
      mergedGapEntry := some entry }
  have hpos : 0 ≤ core.length + ncore.length := by
    rw [hlength, hnlength]
    linarith
  have hbehavior := extend_spec (c := c) (q := q) htrack₁ rfl rfl (by simp) hqcore
    (by rw [← inOf_eq hqcore, ← outOf_eq hqcore]; exact hqlt.le) hpos (some q.1)
  have hredo : (new g track x handleTransitions).redo g =
      c.extend (some q.1) q.1 (core.length + ncore.length) g₁ := by
    have hlast : ((pre ++ [q]).map Prod.fst).getLast? = some q.1 := by simp
    rw [redo_eq h]
    change (new g track x handleTransitions).fill _ n.1 g = _
    rw [fill, hlast, Option.filter_some, hqkind, hnkind,
      ← blockLength_eq hxcore, ← hnlen]
    simp only [decide_true, if_true, hrun]
    rfl
  rintro ⟨-, hundo⟩
  rw [hredo] at hundo
  let g₂ := (c.extend (some q.1) q.1 (core.length + ncore.length) g₁).2
  have hvacant : Detached g₂ n.1 entry := hdetached.congr fun m hm =>
    ⟨m, vacant_trackRippleRemoveBlock.2 ((vacant_modifyBlock _).2 hm)⟩
  have hnone : g₂.behaviorOf n.1 = none := by
    rw [hbehavior, if_neg hntrack, if_neg hnx, if_neg (Ne.symm hqn), hbehavior₁, if_neg hntrack,
      if_pos rfl]
  have hq₂ : g₂.behaviorOf q.1 = some (q.2.modifyCore (extendBy (core.length + ncore.length))) := by
    rw [hbehavior, if_neg hqtrack, if_neg hqx, if_pos rfl]
  have hqlen : blockLength g₂ q.1 = qcore.length + (core.length + ncore.length) := by
    have hext : blockCoreOf g₂ q.1 = some (extendBy (core.length + ncore.length) qcore) := by
      rw [blockCoreOf_eq hq₂, Behavior.blockCore_modifyCore, hqcore, Option.map_some]
    rw [blockLength_eq hext]
    simp only [extendBy, BlockCore.length, BlockCore.in_, BlockCore.out, TimeRange.length]
    ring
  have hxlen : blockLength g₂ x = core.length := by
    have hx₂ : g₂.behaviorOf x = some (b.modifyCore withoutTrack) := by
      rw [hbehavior, if_neg hxtrack, if_pos rfl]
    have hforgot : blockCoreOf g₂ x = some (withoutTrack core) := by
      rw [blockCoreOf_eq hx₂, Behavior.blockCore_modifyCore, hcore, Option.map_some]
    rw [blockLength_eq hforgot]
    rfl
  have hback := (undoExtend_merged
    (c := (c.extend (some q.1) q.1 (core.length + ncore.length) g₁).1) rfl rfl hnone hvacant hq₂ hqn
    hqx hqtrack).symm.trans (hundo q.1)
  rw [hqb, Behavior.modifyCore_modifyCore] at hback
  have hout := congrArg outOf (Option.some.inj hback)
  have hqlength : qcore.length = qcore.out - qcore.in_ := BlockCore.length_eq qcore
  rw [inOf_eq hqcore, outOf_eq hqcore] at hqlt
  rw [outOf_modifyCore hqcore, outOf_eq hqcore, Function.comp_apply,
    BlockCore.setLengthAndMediaIn_of_le]
    at hout
  · change qcore.in_ + (blockLength g₂ q.1 - blockLength g₂ x) = qcore.out at hout
    rw [hqlen, hxlen, hqlength, hnlength] at hout
    linarith
  · change 0 ≤ blockLength g₂ q.1 - blockLength g₂ x
    rw [hqlen, hxlen, hqlength, hnlength]
    linarith

/-- **Replacing a block.** Where the times are exact, its place is filled and everything else stays,
and an undo restores the graph, exactly where it fits. -/
theorem replacesExactly_iff (h : Replaceable g track t pre x b post)
    (_ : Exacts (replaceTimes pre b post)) :
    ReplacesExactly g handleTransitions track t pre x b post ↔ Fits pre b post := by
  have hprevious : (∀ p ∈ pre.getLast?, isGapBlock p.2 = false) ∨
      ∃ init q, pre = init ++ [q] ∧ isGapBlock q.2 = true := by
    rcases List.eq_nil_or_concat' pre with rfl | ⟨init, q, rfl⟩
    · exact .inl fun p hp => absurd hp (by simp)
    · rcases hgap : isGapBlock q.2 with _ | _
      · exact .inl fun p hp => by
          obtain rfl : q = p := by simpa using hp
          exact hgap
      · exact .inr ⟨init, q, rfl, hgap⟩
  rcases post with _ | ⟨n, rest⟩
  · rcases hprevious with hlast | ⟨init, q, rfl, hgap⟩
    · exact ⟨fun _ => hlast, fun _ => replacesExactly_last h hlast⟩
    · refine ⟨fun hexact => absurd hexact (not_replacesExactly_last h hgap), fun hfits => ?_⟩
      exact absurd (hgap.symm.trans (hfits q (by simp))) (by simp)
  rcases hnext : isGapBlock n.2 with _ | _
  · simp only [Fits, hnext, Bool.false_eq_true, if_false]
    rcases hprevious with hlast | ⟨init, q, rfl, hgap⟩
    · refine ⟨fun _ p hp hgap => ?_, fun _ => replacesExactly_new h hlast hnext⟩
      exact absurd ((hlast p hp).symm.trans hgap) Bool.false_ne_true
    · rw [replacesExactly_extend_iff h rfl hgap hnext]
      simp [hgap]
  · simp only [Fits, hnext, if_true]
    rcases hprevious with hlast | ⟨init, q, rfl, hgap⟩
    · rw [replacesExactly_next_iff h hlast hnext]
      exact ⟨fun hgaps => ⟨hlast, hgaps⟩, fun hgaps => hgaps.2⟩
    · refine ⟨fun hexact => absurd hexact (not_replacesExactly_merged h hgap hnext), fun hfits => ?_⟩
      exact absurd (hgap.symm.trans (hfits.1 q (by simp))) (by simp)

end Result

section Gapped

/-- A core of ten seconds on the track `⟨0, 0⟩`. -/
def tenFrom (in_ : Rational) : BlockCore ℚ :=
  ⟨⟨in_, in_ + 10⟩, in_, 1, false, [], true, false, 0, some ⟨0, 0⟩⟩

/-- A clip, a gap and two clips, which touch. -/
def gapBetween : ProjectGraph ℚ Plain :=
  (((((Graph.new.addNode .new
    (.track ⟨.video, [⟨1, 0⟩, ⟨2, 0⟩, ⟨3, 0⟩, ⟨4, 0⟩], false, false, 3, 0, none⟩)).1.addNode .new
    (.clip ⟨tenFrom 0, none⟩)).1.addNode .new (.gap ⟨tenFrom 10⟩)).1.addNode .new
    (.clip ⟨tenFrom 20, none⟩)).1.addNode .new (.clip ⟨tenFrom 30, none⟩)).1

/-- The blocks of the track, in order. -/
def gapBetweenBlocks : List (NodeId × Behavior ℚ Plain) :=
  [(⟨1, 0⟩, .clip ⟨tenFrom 0, none⟩), (⟨2, 0⟩, .gap ⟨tenFrom 10⟩),
    (⟨3, 0⟩, .clip ⟨tenFrom 20, none⟩), (⟨4, 0⟩, .clip ⟨tenFrom 30, none⟩)]

theorem mem_gapBetweenBlocks {p : NodeId × Behavior ℚ Plain} : p ∈ gapBetweenBlocks ↔
    p = (⟨1, 0⟩, .clip ⟨tenFrom 0, none⟩) ∨ p = (⟨2, 0⟩, .gap ⟨tenFrom 10⟩) ∨
      p = (⟨3, 0⟩, .clip ⟨tenFrom 20, none⟩) ∨ p = (⟨4, 0⟩, .clip ⟨tenFrom 30, none⟩) := by
  simp [gapBetweenBlocks]

theorem sorted_gapBetween : Sorted gapBetweenBlocks := by
  constructor
  · intro p hp
    obtain rfl | rfl | rfl | rfl := mem_gapBetweenBlocks.1 hp
    all_goals norm_num [inOf, outOf, tenFrom, Behavior.blockCore, BlockCore.in_, BlockCore.out]
  · norm_num [gapBetweenBlocks, inOf, outOf, tenFrom, Behavior.blockCore, BlockCore.in_,
      BlockCore.out]

theorem replaceable_gapBetween {pre post : List (NodeId × Behavior ℚ Plain)} {x : NodeId}
    {b : Behavior ℚ Plain} (hblocks : pre ++ (x, b) :: post = gapBetweenBlocks) :
    Replaceable gapBetween ⟨0, 0⟩
      ⟨.video, [⟨1, 0⟩, ⟨2, 0⟩, ⟨3, 0⟩, ⟨4, 0⟩], false, false, 3, 0, none⟩ pre x b post := by
  refine ⟨hblocks ▸ ⟨rfl, rfl, by decide, fun p hp => ?_⟩, hblocks ▸ sorted_gapBetween,
    fun p hp => ?_, fun i hi => absurd hi List.not_mem_nil, by decide⟩
  · obtain rfl | rfl | rfl | rfl := mem_gapBetweenBlocks.1 hp
    · exact ⟨rfl, _, rfl, rfl⟩
    · exact ⟨rfl, _, rfl, rfl⟩
    · exact ⟨rfl, _, rfl, rfl⟩
    · exact ⟨rfl, _, rfl, rfl⟩
  · rw [hblocks] at hp
    obtain rfl | rfl | rfl | rfl := mem_gapBetweenBlocks.1 hp
    all_goals decide

theorem replacesExactly_iff_behind_gap :
    ReplacesExactly gapBetween true ⟨0, 0⟩
      ⟨.video, [⟨1, 0⟩, ⟨2, 0⟩, ⟨3, 0⟩, ⟨4, 0⟩], false, false, 3, 0, none⟩
      [(⟨1, 0⟩, .clip ⟨tenFrom 0, none⟩), (⟨2, 0⟩, .gap ⟨tenFrom 10⟩)] ⟨3, 0⟩
      (.clip ⟨tenFrom 20, none⟩) [(⟨4, 0⟩, .clip ⟨tenFrom 30, none⟩)] :=
  (replacesExactly_iff (replaceable_gapBetween rfl) (by decide +kernel)).2 fun p hp _ => by
    obtain rfl : (⟨2, 0⟩, .gap ⟨tenFrom 10⟩) = p := by simpa using hp
    norm_num [inOf, outOf, tenFrom, Behavior.blockCore, BlockCore.in_, BlockCore.out]

/-- The first clip leaves. The gap behind it grows over the clips, and its own place stays empty. -/
theorem not_replacesExactly_before_gap :
    ¬ ∀ (g : ProjectGraph ℚ Plain) handleTransitions track t pre x b post,
      Replaceable g track t pre x b post →
        ReplacesExactly g handleTransitions track t pre x b post := by
  intro hall
  have hexact := hall gapBetween false ⟨0, 0⟩
    ⟨.video, [⟨1, 0⟩, ⟨2, 0⟩, ⟨3, 0⟩, ⟨4, 0⟩], false, false, 3, 0, none⟩ [] ⟨1, 0⟩
    (.clip ⟨tenFrom 0, none⟩) (gapBetweenBlocks.drop 1) (replaceable_gapBetween rfl)
  have hgaps := ((replacesExactly_next_iff (replaceable_gapBetween rfl) (by simp) rfl).1 hexact).1
  exact absurd (hgaps (⟨3, 0⟩, .clip ⟨tenFrom 20, none⟩) (by simp)) (by simp [isGapBlock])

end Gapped

end Oak.Timeline
