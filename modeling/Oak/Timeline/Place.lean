import Oak.Timeline.TrackList
import Oak.Timeline.Ripple

/-!
# Placing a block

`TrackPlaceBlockCommand` of `oak-timeline/src/undopointer.rs`. The block is put on a track of a
list at its new in point: behind the last block of the track, with a gap before it where it does
not follow at once, or else over the blocks of the track, which are cleared from its span. A list
with too few tracks is filled up with new ones first.

* `Placed` says where the block is afterwards, and that everything else is as it was.

## Main results

* `TrackPlaceBlockCommand.place_new_track`: on a new track a block is placed, taken back and placed
  again, any number of times.
-/

namespace Oak.Timeline

open Oak.Core Oak.Node Oak.Undo

variable {F β : Type*}

/-- A value of 32 bits as an index: a negative one lies behind every list. -/
def asUsize (n : ℤ) : ℕ := (n % 2 ^ 64).toNat

/-- `TrackPlaceBlockCommand`. -/
structure TrackPlaceBlockCommand (F β : Type*) where
  timeline : NodeId
  trackIndex : ℤ
  in_ : Rational
  /-- The gap between the end of the track and the block. -/
  gap : Option NodeId
  /-- The entry of the gap while it is detached. -/
  gapEntry : Option (NodeEntry F (Behavior F β))
  block : NodeId
  addTrackCommands : List (TimelineAddTrackCommand F β)
  rippleRemoveCommand : Option (TrackRippleRemoveAreaCommand F β)
  /-- The in point of the block before the first redo. -/
  oldIn : Option Rational

variable {cs : List (TimelineAddTrackCommand F β)}

namespace TrackPlaceBlockCommand

/-- `new`. -/
def new (timeline : NodeId) (trackIndex : ℤ) (block : NodeId) (in_ : Rational) :
    TrackPlaceBlockCommand F β :=
  ⟨timeline, trackIndex, in_, none, none, block, [], none, none⟩

/-- The tracks that the list does not have yet, which are created once. -/
def addMissingTracks [OfNat F 3] (c : TrackPlaceBlockCommand F β) (g : ProjectGraph F β) :
    TrackPlaceBlockCommand F β × ProjectGraph F β :=
  let count := toI32 (tracklistTrackCount g c.timeline)
  if count ≤ c.trackIndex then
    let created :=
      if c.addTrackCommands.isEmpty then
        TimelineAddTrackCommand.addTracks c.timeline (toI32 (c.trackIndex - count + 1)).toNat g
      else (c.addTrackCommands, g)
    let run := TimelineAddTrackCommand.redoAll created.1 created.2
    ({ c with addTrackCommands := run.1 }, run.2)
  else (c, g)

/-- The gap from the end of the track to the block, which is created once. -/
def createGap [ClipSpeed F] (c : TrackPlaceBlockCommand F β) (track : NodeId)
    (g : ProjectGraph F β) : NodeId × ProjectGraph F β :=
  match c.gap with
  | some gap => (gap, g)
  | none =>
    let created := blockGapCreate g
    let g := blockSetIn created.1 created.2 (trackLength created.1 track)
    (created.2, blockSetLengthAndMediaIn g created.2 (c.in_ - trackLength g track))

/-- The block follows the last one of the track. -/
def append [ClipSpeed F] (c : TrackPlaceBlockCommand F β) (track : NodeId)
    (g : ProjectGraph F β) : TrackPlaceBlockCommand F β × ProjectGraph F β :=
  if trackLength g track < c.in_ then
    let created := c.createGap track g
    let g := trackAppendBlock (blockAddToGraph created.2 created.1 c.gapEntry) track created.1
    ({ c with
        gap := some created.1
        gapEntry := none }, trackAppendBlock g track c.block)
  else (c, trackAppendBlock g track c.block)

/-- The span of the block is cleared, and the block put there. -/
def placeOver [ClipSpeed F] [NodeBehavior F β] (order : List NodeId → List NodeId)
    (c : TrackPlaceBlockCommand F β) (track : NodeId) (g : ProjectGraph F β) :
    TrackPlaceBlockCommand F β × ProjectGraph F β :=
  let area : TimeRange := .new c.in_ (c.in_ + blockLength g c.block)
  let cmd := c.rippleRemoveCommand.getD (.new track area true)
  let run := (cmd.prepare g).redo order g
  ({ c with rippleRemoveCommand := some run.1 },
    trackInsertBlockAfter run.2 track c.block run.1.insertPrevious)

/-- `redo`. -/
def redo [OfNat F 3] [ClipSpeed F] [NodeBehavior F β] (order : List NodeId → List NodeId)
    (c : TrackPlaceBlockCommand F β) (g : ProjectGraph F β) :
    TrackPlaceBlockCommand F β × ProjectGraph F β :=
  let c := { c with oldIn := some (c.oldIn.getD (blockIn g c.block)) }
  let added := c.addMissingTracks (blockSetIn g c.block c.in_)
  match tracklistTrackAt added.2 c.timeline (asUsize c.trackIndex) with
  | none => added
  | some track =>
    if trackLength added.2 track ≤ c.in_ then added.1.append track added.2
    else added.1.placeOver order track added.2

/-- The last part of `undo`: the tracks that were added leave their list. -/
def removeTracks (c : TrackPlaceBlockCommand F β) (g : ProjectGraph F β) :
    TrackPlaceBlockCommand F β × ProjectGraph F β :=
  let run := TimelineAddTrackCommand.undoAll c.addTrackCommands g
  ({ c with addTrackCommands := run.1 }, run.2)

/-- The gap leaves its track and the graph. -/
def removeGap (c : TrackPlaceBlockCommand F β) (track gap : NodeId) (g : ProjectGraph F β) :
    TrackPlaceBlockCommand F β × ProjectGraph F β :=
  let g := trackRippleRemoveBlock g track gap
  match c.gapEntry with
  | some _ => (c, g)
  | none => ({ c with gapEntry := (blockRemoveFromGraph g gap).1 }, (blockRemoveFromGraph g gap).2)

/-- `undo`. -/
def undo (c : TrackPlaceBlockCommand F β) (g : ProjectGraph F β) :
    TrackPlaceBlockCommand F β × ProjectGraph F β :=
  match tracklistTrackAt g c.timeline (asUsize c.trackIndex) with
  | none => (c, g)
  | some track =>
    let g := trackRippleRemoveBlock g track c.block
    let g := c.oldIn.elim g fun oldIn => blockSetIn g c.block oldIn
    let restored :=
      match c.rippleRemoveCommand with
      | some cmd =>
        let run := cmd.undo g
        ({ c with rippleRemoveCommand := some run.1 }, run.2)
      | none =>
        match c.gap with
        | some gap => c.removeGap track gap g
        | none => (c, g)
    restored.1.removeTracks restored.2

/-! ### The gap -/

/-- The core of a gap from the start to `in_`, which no track holds. -/
def gapCore [ClipSpeed F] (in_ : Rational) : BlockCore F :=
  { BlockCore.default with range := ⟨0, in_⟩ }

variable {g h : ProjectGraph F β} {list track block target x : NodeId} {l : TrackListBehavior}
  {t : TrackBehavior F} {b : Behavior F β} {core : BlockCore F} {in_ : Rational}
  {c : TrackPlaceBlockCommand F β} {init : List NodeId} {gap : Option NodeId} {index : ℕ}

theorem trackLength_of_nil (ht : g.behaviorOf track = some (.track t)) (hempty : t.blocks = []) :
    trackLength g track = 0 := by
  rw [trackLength, trackBehaviorOf_eq_some_iff.2 ht, Option.map_some, hempty]
  rfl

/-- The gap is not in the graph: it was not created yet, or was taken out. -/
def GapReady [ClipSpeed F] (g : ProjectGraph F β) (in_ : Rational) (gap : Option NodeId)
    (gapEntry : Option (NodeEntry F (Behavior F β))) : Prop :=
  match gap with
  | none => gapEntry = none ∧ (0 < in_ → g.FreeVacant ∧ g.entries.length < u32Size - 1)
  | some gap => ∃ e, gapEntry = some e ∧ Detached g gap e ∧ e.behavior = .gap ⟨gapCore in_⟩

theorem nodup_indexes {ids : List NodeId} (hnodup : ids.Nodup)
    (hlive : ∀ id ∈ ids, g.isValid id = true) :
    (ids.map NodeId.index).Nodup :=
  List.Nodup.map_on (fun x hx y hy hindex => isValid_congr_index (hlive x hx) (hlive y hy) hindex)
    hnodup

theorem tracklistTrackCount_eq (hlist : g.behaviorOf list = some (.trackList l))
    (hsize : l.tracks.length < 2 ^ 31) :
    toI32 (tracklistTrackCount g list : ℤ) = l.tracks.length := by
  rw [tracklistTrackCount, trackListBehaviorOf_eq hlist, Option.map_some, Option.getD_some,
    toI32_of_isI32 ⟨by omega, by exact_mod_cast hsize⟩]

section Redo

variable [ClipSpeed F]

theorem setLengthAndMediaIn_default (hin : 0 ≤ in_) :
    ((BlockCore.default : BlockCore F).setIn 0).setLengthAndMediaIn (in_ - 0) = gapCore in_ := by
  rw [sub_zero, BlockCore.setLengthAndMediaIn_of_le _ hin]
  have hstart : ((BlockCore.default : BlockCore F).setIn 0).in_ = 0 := by
    rw [BlockCore.in_, BlockCore.setIn, zero_add]
    exact congrArg TimeRange.in_ (TimeRange.new_of_le (by decide +kernel :
      (0 : ℚ) ≤ (TimeRange.new 0 1).length))
  rw [hstart, zero_add]
  rfl

theorem createGap_spec (hready : GapReady g c.in_ c.gap c.gapEntry) (hin : 0 < c.in_)
    (ht : g.behaviorOf track = some (.track t)) (hempty : t.blocks = []) :
    ∃ gap g', c.createGap track g = (gap, g') ∧ (∀ x ∈ c.gap, gap = x) ∧
      g.behaviorOf gap = none ∧ ∀ y, (blockAddToGraph g' gap c.gapEntry).behaviorOf y =
        if y = gap then some (.gap ⟨gapCore c.in_⟩) else g.behaviorOf y := by
  rcases hgap : c.gap with _ | gap
  · rw [hgap] at hready
    obtain ⟨hentry, hspace⟩ := hready
    obtain ⟨hvacant, hroom⟩ := hspace hin
    obtain ⟨hfresh, hcreated⟩ : g.behaviorOf (blockGapCreate g).2 = none ∧
        ∀ y, (blockGapCreate g).1.behaviorOf y = if y = (blockGapCreate g).2 then
          some (.gap ⟨.default⟩) else g.behaviorOf y :=
      Graph.behaviorOf_allocate hvacant hroom NodeCore.new (.gap ⟨.default⟩)
    have hne : track ≠ (blockGapCreate g).2 := by
      intro heq
      rw [← heq, ht] at hfresh
      exact absurd hfresh (by simp)
    have hgraph : c.createGap track g = ((blockGapCreate g).2,
        blockSetLengthAndMediaIn (blockSetIn (blockGapCreate g).1 (blockGapCreate g).2 0)
          (blockGapCreate g).2 (c.in_ - 0)) := by
      have htrack : (blockGapCreate g).1.behaviorOf track = some (.track t) :=
        (hcreated track).trans ((if_neg hne).trans ht)
      have hmoved (time : Rational) : (blockSetIn (blockGapCreate g).1 (blockGapCreate g).2
          time).behaviorOf track = some (.track t) := by
        rw [blockSetIn, behaviorOf_modifyBlock, if_neg hne, htrack]
      simp only [createGap, hgap]
      rw [trackLength_of_nil (hmoved _) hempty, trackLength_of_nil htrack hempty]
    refine ⟨_, _, hgraph, by simp, hfresh, fun y => ?_⟩
    rw [hentry]
    show (blockSetLengthAndMediaIn _ _ _).behaviorOf y = _
    rw [blockSetLengthAndMediaIn, blockSetIn, behaviorOf_modifyBlock, behaviorOf_modifyBlock]
    rw [hcreated]
    split_ifs
    · rw [Option.map_some, Option.map_some, Behavior.modifyCore, Behavior.modifyCore,
        setLengthAndMediaIn_default hin.le]
    · rfl
  · rw [hgap] at hready
    obtain ⟨e, hentry, hdetached, hbehavior⟩ := hready
    refine ⟨gap, g, by simp only [createGap, hgap], by simp, hdetached.behaviorOf_eq_none,
      fun y => ?_⟩
    rw [hentry, hdetached.behaviorOf_blockAddToGraph, hbehavior]

theorem append_spec (hready : GapReady g c.in_ c.gap c.gapEntry)
    (hpadded : c.gap.isSome = true → 0 < c.in_) (ht : g.behaviorOf track = some (.track t))
    (hempty : t.blocks = []) (hb : g.behaviorOf c.block = some b)
    (hcore : b.blockCore = some core) :
    ∃ gap g', c.append track g = ({ c with
          gap := gap
          gapEntry := none }, g') ∧
      (gap.isSome = true ↔ 0 < c.in_) ∧ (∀ x ∈ c.gap, gap = some x) ∧
      (∀ x ∈ gap, g.behaviorOf x = none) ∧
      ∀ y, g'.behaviorOf y =
        if y = track then some (.track { t with blocks := gap.toList ++ [c.block] })
        else if y = c.block then
          (g.behaviorOf y).map (.modifyCore fun k => { k with track := some track })
        else if some y = gap then some (.gap ⟨{ gapCore c.in_ with track := some track }⟩)
        else g.behaviorOf y := by
  have hne := ne_of_blockCore ht hb hcore
  have hlength := trackLength_of_nil ht hempty
  by_cases hpad : 0 < c.in_
  · obtain ⟨gap, g', hcreate, hsame, hfresh, hbehavior⟩ := createGap_spec hready hpad ht hempty
    have hgapTrack : gap ≠ track := ne_of_found hfresh ht
    have hgapBlock : gap ≠ c.block := ne_of_found hfresh hb
    have ht' : (blockAddToGraph g' gap c.gapEntry).behaviorOf track = some (.track t) := by
      rw [hbehavior, if_neg (Ne.symm hgapTrack), ht]
    have hpadding := behaviorOf_trackAppendBlock ht' hgapTrack
    have happend := behaviorOf_trackAppendBlock ((hpadding track).trans (if_pos rfl)) hne
    refine ⟨some gap, _, by rw [append, if_pos (by rw [hlength]; exact hpad), hcreate],
      by simp [hpad], fun x hx => congrArg some (hsame x hx), ?_, fun y => ?_⟩
    · rintro x hx
      obtain rfl := Option.some.inj hx
      exact hfresh
    · rw [happend, hpadding, hbehavior, hempty]
      simp only [Option.some.injEq]
      by_cases hy : y = track
      · rw [if_pos hy, if_pos hy]
        rfl
      · rw [if_neg hy, if_neg hy, if_neg hy]
        by_cases hyb : y = c.block
        · rw [if_pos hyb, if_pos hyb, hyb, if_neg (Ne.symm hgapBlock), if_neg (Ne.symm hgapBlock)]
        · rw [if_neg hyb, if_neg hyb]
          by_cases hyg : y = gap
          · rw [if_pos hyg, if_pos hyg, if_pos hyg]
            rfl
          · rw [if_neg hyg, if_neg hyg, if_neg hyg]
  · have hnone : c.gap = none := by
      rcases hgap : c.gap with _ | gap
      · rfl
      · exact absurd (hpadded (by rw [hgap]; rfl)) hpad
    have hentry : c.gapEntry = none := by
      rw [hnone] at hready
      exact hready.1
    have hsame : { c with
        gap := none
        gapEntry := none } = c := by
      rw [← hnone, ← hentry]
    refine ⟨none, trackAppendBlock g track c.block, ?_, by simp [hpad], by simp [hnone], by simp,
      fun y => ?_⟩
    · rw [append, if_neg (by rw [hlength]; exact hpad), hsame]
    · rw [behaviorOf_trackAppendBlock ht hne, hempty]
      simp

/-! ### The block on a new track -/

/-- What a node is after a block was placed on `target`, the last of the tracks `ids` that were
added to a list for it. -/
def placedAt (g : ProjectGraph F β) (list : NodeId) (l : TrackListBehavior) (ids : List NodeId)
    (target : NodeId) (gap : Option NodeId) (block : NodeId) (in_ : Rational) [OfNat F 3]
    (y : NodeId) : Option (Behavior F β) :=
  if y = list then some (.trackList { l with tracks := l.tracks ++ ids })
  else if y = target then
    some (.track { TimelineAddTrackCommand.newTrackAt l.kind (some list)
      (l.tracks.length + ids.idxOf y : ℕ) with blocks := gap.toList ++ [block] })
  else if y ∈ ids then
    some (.track (TimelineAddTrackCommand.newTrackAt l.kind (some list)
      (l.tracks.length + ids.idxOf y : ℕ)))
  else if y = block then
    (g.behaviorOf y).map (.modifyCore fun k => { k.setIn in_ with track := some target })
  else if some y = gap then some (.gap ⟨{ gapCore in_ with track := some target }⟩)
  else g.behaviorOf y

/-- The tracks of a list and their place in it. -/
structure Tracks (g : ProjectGraph F β) (list : NodeId) (l : TrackListBehavior) : Prop where
  behavior : g.behaviorOf list = some (.trackList l)
  nodup : l.tracks.Nodup
  track : ∀ (i : ℕ) (x : NodeId), l.tracks[i]? = some x → ∃ t, g.behaviorOf x = some (.track t) ∧
    t.index = i

/-- The command after its block was placed. -/
def done (list : NodeId) (ids : List NodeId) (index : ℕ) (gap : Option NodeId) (block : NodeId)
    (in_ oldIn : Rational) : TrackPlaceBlockCommand F β :=
  ⟨list, index, in_, gap, none, block, ids.map fun id => ⟨list, id, none⟩, none, some oldIn⟩

omit [ClipSpeed F] in
theorem asUsize_natCast (hi32 : index < 2 ^ 31) : asUsize (index : ℤ) = index := by
  rw [asUsize, Int.emod_eq_of_lt (by omega) (by exact_mod_cast (by omega : index < 2 ^ 64)),
    Int.toNat_natCast]

omit [ClipSpeed F] in
/-- The last of the tracks that were added is the one with the index. -/
theorem tracklistTrackAt_last {ids : List NodeId}
    (hlist : g.behaviorOf list = some (.trackList { l with tracks := l.tracks ++ ids }))
    (hids : ids = init ++ [target]) (hindex : index = l.tracks.length + init.length)
    (hi32 : index < 2 ^ 31) : tracklistTrackAt g list (asUsize index) = some target := by
  rw [tracklistTrackAt, trackListBehaviorOf_eq hlist, asUsize_natCast hi32, Option.bind_some, hids,
    hindex, ← List.append_assoc, ← List.length_append]
  exact List.getElem?_concat_length

omit [ClipSpeed F] in
theorem Tracks.length_le (htracks : Tracks g list l) : l.tracks.length ≤ g.entries.length := by
  have hlive : ∀ x ∈ l.tracks, g.isValid x = true := by
    intro x hx
    obtain ⟨i, hi⟩ := List.mem_iff_getElem?.1 hx
    obtain ⟨t, ht, -⟩ := htracks.track i x hi
    exact Graph.isValid_of_behaviorOf ht
  have hsub : l.tracks.map NodeId.index ⊆ List.range g.entries.length := by
    intro i hi
    obtain ⟨x, hx, rfl⟩ := List.mem_map.1 hi
    obtain ⟨e, he⟩ := Graph.isValid_iff.1 (hlive x hx)
    exact List.mem_range.2 (Graph.index_lt_of_get he)
  have hle := ((nodup_indexes htracks.nodup hlive).subperm hsub).length_le
  rwa [List.length_map, List.length_range] at hle

variable [OfNat F 3] [NodeBehavior F β] {order : List NodeId → List NodeId} {ids : List NodeId}

/-- The list after its missing tracks were added. -/
structure Added (g g' : ProjectGraph F β) (list : NodeId) (l : TrackListBehavior)
    (ids : List NodeId) : Prop where
  nodup : ids.Nodup
  fresh : ∀ id ∈ ids, g.behaviorOf id = none
  behaviorOf : ∀ y, g'.behaviorOf y =
    if y = list then some (.trackList { l with tracks := l.tracks ++ ids })
    else if y ∈ ids then some (.track (TimelineAddTrackCommand.newTrackAt l.kind (some list)
      (l.tracks.length + ids.idxOf y : ℕ)))
    else g.behaviorOf y

/-- A redo, once the missing tracks are in their list. -/
theorem redo_of_added (order : List NodeId → List NodeId) (old₀ : Option Rational) (old : Rational)
    {gap₀ : Option NodeId} {gapEntry : Option (NodeEntry F (Behavior F β))} {g₁ : ProjectGraph F β}
    (hlist : g.behaviorOf list = some (.trackList l))
    (hold : old₀.getD (blockIn g block) = old)
    (hadd : (⟨list, index, in_, gap₀, gapEntry, block, cs, none, some old⟩ :
        TrackPlaceBlockCommand F β).addMissingTracks (blockSetIn g block in_) =
      (⟨list, index, in_, gap₀, gapEntry, block, ids.map fun id => ⟨list, id, none⟩, none,
        some old⟩, g₁))
    (hadded : Added (blockSetIn g block in_) g₁ list l ids) (hready : GapReady g₁ in_ gap₀ gapEntry)
    (hin : 0 ≤ in_) (hpadded : gap₀.isSome = true → 0 < in_) (hids : ids = init ++ [target])
    (hindex : index = l.tracks.length + init.length) (hi32 : index < 2 ^ 31)
    (hb : g.behaviorOf block = some b) (hcore : b.blockCore = some core) :
    ∃ gap g', (⟨list, index, in_, gap₀, gapEntry, block, cs, none, old₀⟩ :
        TrackPlaceBlockCommand F β).redo order g = (done list ids index gap block in_ old, g') ∧
      (gap.isSome = true ↔ 0 < in_) ∧ (∀ x ∈ gap₀, gap = some x) ∧
      (∀ x ∈ gap, g.behaviorOf x = none ∧ x ∉ ids) ∧
      ∀ y, g'.behaviorOf y = placedAt g list l ids target gap block in_ y := by
  have hmem : target ∈ ids := by
    rw [hids]
    simp
  have hset (y : NodeId) : (blockSetIn g block in_).behaviorOf y =
      if y = block then (g.behaviorOf y).map (.modifyCore fun k => k.setIn in_)
      else g.behaviorOf y := behaviorOf_modifyBlock _
  have hnone (y : NodeId) (hy : (blockSetIn g block in_).behaviorOf y = none) :
      g.behaviorOf y = none := by
    rw [hset] at hy
    split_ifs at hy with hyb
    · exact Option.map_eq_none_iff.1 hy
    · exact hy
  have hfresh (y : NodeId) (hy : y ∈ ids) : g.behaviorOf y = none := hnone y (hadded.fresh y hy)
  have hlistIds : list ∉ ids := notMem_of_found hfresh hlist
  have hblockIds : block ∉ ids := notMem_of_found hfresh hb
  have hblockList : block ≠ list := ne_of_blockCore hlist hb hcore
  have htargetList : target ≠ list := fun heq => hlistIds (heq ▸ hmem)
  have htrack := tracklistTrackAt_last ((hadded.behaviorOf list).trans (if_pos rfl)) hids hindex
    hi32
  have ht : g₁.behaviorOf target = some (.track (TimelineAddTrackCommand.newTrackAt l.kind
      (some list) (l.tracks.length + ids.idxOf target : ℕ))) := by
    rw [hadded.behaviorOf, if_neg htargetList, if_pos hmem]
  have hb₁ : g₁.behaviorOf block = some (b.modifyCore fun k => k.setIn in_) := by
    rw [hadded.behaviorOf, if_neg hblockList, if_neg hblockIds, hset, if_pos rfl, hb,
      Option.map_some]
  obtain ⟨gap, g', happend, hsome, hsame, hfresh, hbehavior⟩ := append_spec
    (c := ⟨list, index, in_, gap₀, gapEntry, block, ids.map fun id => ⟨list, id, none⟩, none,
      some old⟩) hready hpadded ht rfl hb₁
    ((Behavior.blockCore_modifyCore _ b).trans (by rw [hcore, Option.map_some]))
  refine ⟨gap, g', ?_, hsome, hsame, fun x hx => ?_, fun y => ?_⟩
  · simp only [redo, hold, hadd, htrack]
    rw [if_pos (by rw [trackLength_of_nil ht rfl]; exact hin), happend]
    rfl
  · have hxnone := hfresh x hx
    rw [hadded.behaviorOf] at hxnone
    split_ifs at hxnone with hxl hxids
    exact ⟨hnone x hxnone, hxids⟩
  · rw [hbehavior, placedAt, hadded.behaviorOf, hset]
    dsimp only
    by_cases hyt : y = target
    · rw [hyt, if_pos rfl, if_neg htargetList, if_pos rfl]
    · rw [if_neg hyt]
      by_cases hyl : y = list
      · rw [if_pos hyl, if_pos hyl, if_neg (fun hyb => hblockList (hyb.symm.trans hyl)), if_neg]
        intro hyg
        have hxnone := hfresh y hyg.symm
        rw [hadded.behaviorOf, if_pos hyl] at hxnone
        exact absurd hxnone (by simp)
      · rw [if_neg hyl, if_neg hyl, if_neg hyt]
        by_cases hyi : y ∈ ids
        · rw [if_pos hyi, if_pos hyi, if_neg fun hyb : y = block => hblockIds (hyb ▸ hyi), if_neg]
          intro hyg
          have hxnone := hfresh y hyg.symm
          rw [hadded.behaviorOf, if_neg hyl, if_pos hyi] at hxnone
          exact absurd hxnone (by simp)
        · rw [if_neg hyi, if_neg hyi]
          by_cases hyb : y = block
          · rw [if_pos hyb, if_pos hyb, if_pos hyb, Option.map_map]
            refine congrArg (fun f => (g.behaviorOf y).map f) (funext fun b => ?_)
            rw [Function.comp_apply, Behavior.modifyCore_modifyCore]
            rfl
          · rw [if_neg hyb, if_neg hyb, if_neg hyb]

omit [NodeBehavior F β] in
/-- The missing tracks are created by the first redo. -/
theorem addMissingTracks_first (in_ : Rational) (block : NodeId) (oldIn : Option Rational)
    {carried : List (NodeId × NodeId)} (hsound : g.Sound carried)
    (hroom : 2 * (g.entries.length + (index + 1 - l.tracks.length) + 1) < u32Size)
    (hlist : g.behaviorOf list = some (.trackList l)) (hcount : l.tracks.length ≤ g.entries.length)
    (hmissing : l.tracks.length ≤ index) :
    ∃ init target g₁, (⟨list, index, in_, none, none, block, [], none, oldIn⟩ :
        TrackPlaceBlockCommand F β).addMissingTracks g =
      (⟨list, index, in_, none, none, block, (init ++ [target]).map fun id => ⟨list, id, none⟩,
        none, oldIn⟩, g₁) ∧
      Added g g₁ list l (init ++ [target]) ∧ GapReady g₁ in_ none none ∧
      index = l.tracks.length + init.length := by
  have hbound : l.tracks.length + (index + 1 - l.tracks.length) < 2 ^ 31 := by
    rw [u32Size] at hroom
    omega
  have hsmall : index + 1 - l.tracks.length < 2 ^ 31 := (Nat.le_add_left _ _).trans_lt hbound
  have hmissing' : (toI32 ((index : ℤ) - l.tracks.length + 1)).toNat =
      index + 1 - l.tracks.length := by
    rw [show (index : ℤ) - l.tracks.length + 1 = ((index + 1 - l.tracks.length : ℕ) : ℤ) by omega,
      toI32_of_isI32 ⟨by omega, by exact_mod_cast hsmall⟩, Int.toNat_natCast]
  obtain ⟨ids, g', hadd, hlength, hnodup, hfresh, hbehavior, hsound', hsize⟩ :=
    TimelineAddTrackCommand.addTracks_spec hsound (n := index + 1 - l.tracks.length) (by omega)
      hlist
  have hlistIds : list ∉ ids := notMem_of_found hfresh hlist
  have hlist' : g'.behaviorOf list = some (.trackList l) := by
    rw [hbehavior, if_neg hlistIds, hlist]
  have hlive (id : NodeId) (hid : id ∈ ids) : g'.isValid id = true :=
    Graph.isValid_of_behaviorOf ((hbehavior id).trans (if_pos hid))
  have htracks : (ids.map fun id => (⟨list, id, none⟩ : TimelineAddTrackCommand F β)).map
      TimelineAddTrackCommand.track = ids := by
    rw [List.map_map]
    exact List.map_id ids
  have hready : ∀ c ∈ ids.map fun id => (⟨list, id, none⟩ : TimelineAddTrackCommand F β),
      TimelineAddTrackCommand.Ready g' l.kind c := by
    intro c hc
    obtain ⟨id, hid, rfl⟩ := List.mem_map.1 hc
    exact ⟨none, 0, (hbehavior id).trans (if_pos hid)⟩
  have hattached : ∀ c ∈ ids.map fun id => (⟨list, id, none⟩ : TimelineAddTrackCommand F β),
      c.trackEntry = none := by simp
  obtain ⟨g₁, hredo, hbehavior₁, -⟩ := TimelineAddTrackCommand.redoAll_spec hlist' (by simp) hready
    (by
      rw [List.map_map]
      exact nodup_indexes hnodup hlive) (by
      rw [List.length_map, hlength]
      exact hbound)
  obtain ⟨hsound₁, hlength₁⟩ := TimelineAddTrackCommand.sound_redoAll hsound' hattached
  rw [hredo] at hsound₁ hlength₁
  rw [htracks] at hbehavior₁
  rw [List.map_map] at hredo
  obtain ⟨init, target, rfl⟩ : ∃ init target, ids = init ++ [target] := by
    rcases List.eq_nil_or_concat' ids with rfl | ⟨init, target, rfl⟩
    · rw [List.length_nil] at hlength
      omega
    · exact ⟨init, target, rfl⟩
  rw [List.length_append, List.length_singleton] at hlength
  dsimp only at hlength₁
  have hroom₁ : g₁.entries.length < u32Size - 1 := by omega
  refine ⟨init, target, g₁, ?_, ⟨hnodup, hfresh, fun y => ?_⟩,
    ⟨rfl, fun _ => ⟨hsound₁.freeVacant, hroom₁⟩⟩, by omega⟩
  · simp only [addMissingTracks,
      tracklistTrackCount_eq hlist ((Nat.le_add_right _ _).trans_lt hbound), hmissing']
    rw [if_pos (by exact_mod_cast hmissing), if_pos (by rfl), hadd, hredo]
    rfl
  · rw [hbehavior₁, hbehavior]
    split_ifs <;> rfl

omit [ClipSpeed F] [NodeBehavior F β] in
/-- The tracks that were taken out are added again by a later redo. -/
theorem addMissingTracks_again (in_ : Rational) (gap : Option NodeId)
    (gapEntry : Option (NodeEntry F (Behavior F β))) (block : NodeId) (oldIn : Option Rational)
    (hlist : g.behaviorOf list = some (.trackList l)) (htimeline : ∀ c ∈ cs, c.timeline = list)
    (hready : ∀ c ∈ cs, TimelineAddTrackCommand.Ready g l.kind c)
    (htracks : cs.map TimelineAddTrackCommand.track = init ++ [target])
    (hnodup : ((init ++ [target]).map NodeId.index).Nodup)
    (hfresh : ∀ id ∈ init ++ [target], g.behaviorOf id = none)
    (hindex : index = l.tracks.length + init.length) (hsize : index + 1 < 2 ^ 31) :
    ∃ g₁, (⟨list, index, in_, gap, gapEntry, block, cs, none, oldIn⟩ :
        TrackPlaceBlockCommand F β).addMissingTracks g =
      (⟨list, index, in_, gap, gapEntry, block, (init ++ [target]).map fun id => ⟨list, id, none⟩,
        none, oldIn⟩, g₁) ∧
      Added g g₁ list l (init ++ [target]) ∧
      ∀ y e, Detached g y e → y.index ∉ (init ++ [target]).map NodeId.index →
        Detached g₁ y e := by
  have hlength : cs.length = init.length + 1 := by
    rw [← List.length_map TimelineAddTrackCommand.track, htracks, List.length_append,
      List.length_singleton]
  have hindexes : cs.map (fun c => c.track.index) = (init ++ [target]).map NodeId.index := by
    rw [← htracks, List.map_map]
    rfl
  have hattached : cs.map (fun c => { c with trackEntry := none }) =
      (init ++ [target]).map fun id => (⟨list, id, none⟩ : TimelineAddTrackCommand F β) := by
    rw [← htracks, List.map_map]
    refine List.map_congr_left fun c hc => ?_
    rw [Function.comp_apply, ← htimeline c hc]
  have hnonempty : cs.isEmpty = false := by
    rcases cs with _ | ⟨c, cs⟩
    · rw [List.length_nil] at hlength
      omega
    · rfl
  obtain ⟨g₁, hredo, hbehavior, hdetached⟩ := TimelineAddTrackCommand.redoAll_spec hlist htimeline
    hready (by rwa [hindexes]) (by omega)
  rw [htracks] at hbehavior
  rw [hindexes] at hdetached
  rw [hattached] at hredo
  refine ⟨g₁, ?_, ⟨List.Nodup.of_map _ hnodup, hfresh, hbehavior⟩, hdetached⟩
  simp only [addMissingTracks, tracklistTrackCount_eq hlist (by omega), hnonempty]
  rw [if_pos (by omega), if_neg (by decide), hredo]

end Redo

/-- A block that was moved and put on a track is as before once it has left the track and is back
at its in point. -/
theorem modifyCore_restored (hcore : b.blockCore = some core) (hdetached : core.track = none)
    (hlength : core.in_ ≤ core.out) (in_ : Rational) (owner : Option NodeId) :
    ((b.modifyCore fun k => { k.setIn in_ with track := owner }).modifyCore
      fun k => { k with track := none }).modifyCore (fun k => k.setIn core.in_) = b := by
  rw [Behavior.modifyCore_modifyCore, Behavior.modifyCore_modifyCore]
  refine Behavior.modifyCore_eq_self hcore ?_
  simp only [Function.comp_apply]
  rw [core.setIn_of_le in_ hlength]
  have hle : in_ ≤ in_ + core.length := by
    rw [BlockCore.length_eq]
    linarith
  have hback := BlockCore.setIn_of_le (⟨⟨in_, in_ + core.length⟩, core.mediaIn, core.speed,
    core.reversed, core.links, core.enabled, core.maintainAudioPitch, core.loopMode, none⟩ :
      BlockCore F) core.in_ hle
  rw [hback]
  obtain ⟨⟨start, stop⟩, _, _, _, _, _, _, _, _⟩ := core
  obtain rfl := hdetached
  simp only [BlockCore.length, BlockCore.in_, TimeRange.length, BlockCore.mk.injEq,
    TimeRange.mk.injEq, and_true, true_and]
  linarith

theorem undo_done_none {ids : List NodeId} {old : Rational}
    (htrack : tracklistTrackAt h list (asUsize index) = some target) :
    (done list ids index none block in_ old).undo h =
      (done list ids index none block in_ old).removeTracks
        (blockSetIn (trackRippleRemoveBlock h target block) block old) := by
  simp only [undo, done, htrack, Option.elim_some]

theorem undo_done_some {ids : List NodeId} {old : Rational}
    (htrack : tracklistTrackAt h list (asUsize index) = some target) :
    (done list ids index (some x) block in_ old).undo h =
      ((done list ids index (some x) block in_ old).removeGap target x
        (blockSetIn (trackRippleRemoveBlock h target block) block old)).1.removeTracks
        ((done list ids index (some x) block in_ old).removeGap target x
          (blockSetIn (trackRippleRemoveBlock h target block) block old)).2 := by
  simp only [undo, done, htrack, Option.elim_some]

section Undo

variable [ClipSpeed F] [OfNat F 3] [NodeBehavior F β] {order : List NodeId → List NodeId}
  {ids : List NodeId}

omit [ClipSpeed F] [NodeBehavior F β] in
/-- The tracks that were added leave their list and the graph. -/
theorem removeTracks_spec (htracks : Tracks g list l) (hadded : Added g h list l ids)
    (hsize : (l.tracks ++ ids).length < 2 ^ 31)
    (hc : c.addTrackCommands = ids.map fun id => ⟨list, id, none⟩) :
    ∃ cs h', c.removeTracks h = ({ c with addTrackCommands := cs }, h') ∧
      cs.map TimelineAddTrackCommand.track = ids ∧ (∀ c ∈ cs, c.timeline = list) ∧
      (∀ c ∈ cs, TimelineAddTrackCommand.Ready h' l.kind c) ∧
      (∀ y, h'.behaviorOf y = g.behaviorOf y) ∧ ∀ y e, Detached h y e → Detached h' y e := by
  have hlistIds : list ∉ ids := notMem_of_found hadded.fresh htracks.behavior
  have hold (x : NodeId) (t : TrackBehavior F) (hx : g.behaviorOf x = some (.track t)) :
      h.behaviorOf x = some (.track t) := by
    rw [hadded.behaviorOf, if_neg (ne_of_found hx htracks.behavior),
      if_neg (notMem_of_found hadded.fresh hx), hx]
  have hnew (x : NodeId) (hx : x ∈ ids) : h.behaviorOf x =
      some (.track (TimelineAddTrackCommand.newTrackAt l.kind (some list)
        (l.tracks.length + ids.idxOf x : ℕ))) := by
    rw [hadded.behaviorOf, if_neg, if_pos hx]
    rintro rfl
    exact hlistIds hx
  have hnodup : (l.tracks ++ ids).Nodup := by
    refine List.nodup_append.2 ⟨htracks.nodup, hadded.nodup, fun x hx y hy heq => ?_⟩
    obtain ⟨i, hi⟩ := List.mem_iff_getElem?.1 hx
    obtain ⟨t, ht, -⟩ := htracks.track i x hi
    exact absurd heq (ne_of_found ht (hadded.fresh y hy))
  have hnumbered (i : ℕ) (x : NodeId) (hx : (l.tracks ++ ids)[i]? = some x) :
      ∃ t, h.behaviorOf x = some (.track t) ∧ t.index = i := by
    by_cases hi : i < l.tracks.length
    · rw [List.getElem?_append_left hi] at hx
      obtain ⟨t, ht, hindex⟩ := htracks.track i x hx
      exact ⟨t, hold x t ht, hindex⟩
    · rw [List.getElem?_append_right (not_lt.1 hi)] at hx
      refine ⟨_, hnew x (List.mem_of_getElem? hx), ?_⟩
      obtain ⟨hlt, rfl⟩ := List.getElem?_eq_some_iff.1 hx
      rw [hadded.nodup.idxOf_getElem]
      show ((l.tracks.length + (i - l.tracks.length) : ℕ) : ℤ) = i
      rw [Nat.add_sub_cancel' (not_lt.1 hi)]
  obtain ⟨cs, h', hundo, hcs, htimelines, hentries, hbehavior, hdetached⟩ :=
    TimelineAddTrackCommand.undoAll_spec (by rw [hadded.behaviorOf, if_pos rfl]) hnodup hnumbered
      hsize
  refine ⟨cs, h', by rw [removeTracks, hc, hundo], hcs, htimelines, fun c hc => ?_, fun y => ?_,
    hdetached⟩
  · obtain ⟨e, he, hdet, hbeh⟩ := hentries c hc
    have hmem : c.track ∈ ids := hcs ▸ List.mem_map_of_mem hc
    rw [hnew c.track hmem] at hbeh
    refine ⟨some list, (l.tracks.length + ids.idxOf c.track : ℕ), ?_⟩
    rw [he]
    exact ⟨hdet, (Option.some.inj hbeh).symm⟩
  · rw [hbehavior, hadded.behaviorOf]
    by_cases hyl : y = list
    · rw [if_pos hyl, hyl, htracks.behavior]
    · rw [if_neg hyl, if_neg hyl]
      split_ifs with hyi
      · exact (hadded.fresh y hyi).symm
      · rfl

omit [NodeBehavior F β] in
/-- Taking the block back from its track. -/
theorem undo_spec (htracks : Tracks g list l) (hnodup : ids.Nodup)
    (hfresh : ∀ id ∈ ids, g.behaviorOf id = none) (hids : ids = init ++ [target])
    (hindex : index = l.tracks.length + init.length) (hsize : index + 1 < 2 ^ 31)
    (hsome : gap.isSome = true ↔ 0 < in_) (hgap : ∀ x ∈ gap, g.behaviorOf x = none ∧ x ∉ ids)
    (hb : g.behaviorOf block = some b) (hcore : b.blockCore = some core)
    (hdetached : core.track = none) (hlength : core.in_ ≤ core.out)
    (hplaced : ∀ y, h.behaviorOf y = placedAt g list l ids target gap block in_ y) :
    ∃ cs gapEntry h', (done list ids index gap block in_ core.in_).undo h =
        (⟨list, index, in_, gap, gapEntry, block, cs, none, some core.in_⟩, h') ∧
      cs.map TimelineAddTrackCommand.track = ids ∧ (∀ c ∈ cs, c.timeline = list) ∧
      (∀ c ∈ cs, TimelineAddTrackCommand.Ready h' l.kind c) ∧ GapReady h' in_ gap gapEntry ∧
      ∀ y, h'.behaviorOf y = g.behaviorOf y := by
  have hmem : target ∈ ids := by
    rw [hids]
    simp
  have hlistIds : list ∉ ids := notMem_of_found hfresh htracks.behavior
  have hblockIds : block ∉ ids := notMem_of_found hfresh hb
  have htargetList : target ≠ list := fun heq => hlistIds (heq ▸ hmem)
  have hblockTarget : block ≠ target := fun heq => hblockIds (heq ▸ hmem)
  have hblockList : block ≠ list := ne_of_blockCore htracks.behavior hb hcore
  have hgapBlock : ∀ x ∈ gap, x ≠ block := fun x hx => ne_of_found (hgap x hx).1 hb
  have hgapList : ∀ x ∈ gap, x ≠ list := fun x hx => ne_of_found (hgap x hx).1 htracks.behavior
  have htrack := tracklistTrackAt_last ((hplaced list).trans (by rw [placedAt, if_pos rfl])) hids
    hindex (by omega)
  have ht : h.behaviorOf target = some (.track
      { TimelineAddTrackCommand.newTrackAt l.kind (some list)
        (l.tracks.length + ids.idxOf target : ℕ) with blocks := gap.toList ++ [block] }) := by
    rw [hplaced, placedAt, if_neg htargetList, if_pos rfl]
  have hfilter : (gap.toList ++ [block]).filter (fun z => z ≠ block) = gap.toList := by
    rw [List.filter_append, List.filter_eq_self.2 fun x hx => ?_]
    · simp
    · simpa using hgapBlock x (Option.mem_toList.1 hx)
  have hremove (y : NodeId) := behaviorOf_trackRippleRemoveBlock (y := y) ht
    (List.mem_append_right _ (by simp : block ∈ [block])) hblockTarget
  -- the block has left the track and is back in its place
  obtain ⟨g₂, hg₂⟩ : ∃ g₂, g₂ = blockSetIn (trackRippleRemoveBlock h target block) block core.in_ :=
    ⟨_, rfl⟩
  have hg₂' (y : NodeId) : g₂.behaviorOf y =
      if y = target then some (.track
        { TimelineAddTrackCommand.newTrackAt l.kind (some list)
          (l.tracks.length + ids.idxOf target : ℕ) with blocks := gap.toList })
      else if y = list then some (.trackList { l with tracks := l.tracks ++ ids })
      else if y ∈ ids then some (.track (TimelineAddTrackCommand.newTrackAt l.kind (some list)
        (l.tracks.length + ids.idxOf y : ℕ)))
      else if some y = gap then some (.gap ⟨{ gapCore in_ with track := some target }⟩)
      else g.behaviorOf y := by
    rw [hg₂, blockSetIn, behaviorOf_modifyBlock, hremove]
    dsimp only
    rw [hfilter, hplaced, placedAt]
    by_cases hyb : y = block
    · rw [if_pos hyb, hyb, if_neg hblockTarget, if_pos rfl, if_neg hblockList,
        if_neg hblockTarget, if_neg hblockIds, if_pos rfl, if_neg hblockTarget, if_neg hblockList,
        if_neg hblockIds, if_neg fun heq => hgapBlock block heq.symm rfl, hb, Option.map_some,
        Option.map_some, Option.map_some, modifyCore_restored hcore hdetached hlength]
    · rw [if_neg hyb]
      by_cases hyt : y = target
      · rw [if_pos hyt, if_pos hyt]
      · rw [if_neg hyt, if_neg hyb, if_neg hyt, if_neg hyt, if_neg hyb]
  have hsize' : (l.tracks ++ ids).length < 2 ^ 31 := by
    rw [hids, List.length_append, List.length_append, List.length_singleton]
    omega
  rcases gap with _ | x
  · -- without a gap
    have hadded : Added g g₂ list l ids := ⟨hnodup, hfresh, fun y => by
      rw [hg₂']
      by_cases hyt : y = target
      · rw [if_pos hyt, hyt, if_neg htargetList, if_pos hmem]
        rfl
      · rw [if_neg hyt]
        simp⟩
    obtain ⟨cs, h', hrun, hcs, htimelines, hready, hbehavior, -⟩ := removeTracks_spec
      (c := done list ids index none block in_ core.in_) htracks hadded hsize' rfl
    refine ⟨cs, none, h', ?_, hcs, htimelines, hready, ⟨rfl, fun hin => ?_⟩, hbehavior⟩
    · rw [undo_done_none htrack, ← hg₂, hrun]
      rfl
    · exact absurd (hsome.2 hin) (by simp)
  · -- the gap leaves the track and the graph
    obtain ⟨hxnone, hxids⟩ := hgap x rfl
    have hxt : x ≠ target := fun heq => hxids (heq ▸ hmem)
    have hxl := hgapList x rfl
    have hpad (y : NodeId) := behaviorOf_trackRippleRemoveBlock (y := y)
      ((hg₂' target).trans (if_pos rfl)) (by simp : x ∈ (some x).toList) hxt
    have hx : (trackRippleRemoveBlock g₂ target x).behaviorOf x =
        some (.gap ⟨gapCore in_⟩) := by
      rw [hpad, if_neg hxt, if_pos rfl, hg₂', if_neg hxt, if_neg hxl, if_neg hxids, if_pos rfl]
      rfl
    obtain ⟨e, g₃, htake, he, hself, htaken, -⟩ := blockRemoveFromGraph_spec hx
    have hadded : Added g g₃ list l ids := ⟨hnodup, hfresh, fun y => by
      rw [htaken, hpad, hg₂']
      by_cases hyx : y = x
      · rw [if_pos hyx, hyx, if_neg hxl, if_neg hxids, hxnone]
      · rw [if_neg hyx, if_neg hyx]
        by_cases hyt : y = target
        · rw [if_pos hyt, hyt, if_neg htargetList, if_pos hmem]
          simp [TimelineAddTrackCommand.newTrackAt, newTrackBehavior]
        · rw [if_neg hyt, if_neg hyt]
          simp [hyx]⟩
    obtain ⟨cs, h', hrun, hcs, htimelines, hready, hbehavior, hdetached'⟩ := removeTracks_spec
      (c := ⟨list, index, in_, some x, some e, block, ids.map fun id => ⟨list, id, none⟩, none,
        some core.in_⟩) htracks hadded hsize' rfl
    refine ⟨cs, some e, h', ?_, hcs, htimelines, hready, ⟨e, rfl, hdetached' x e hself, he⟩,
      hbehavior⟩
    have hremoved : (done list ids index (some x) block in_ core.in_).removeGap target x g₂ =
        (⟨list, index, in_, some x, some e, block, ids.map fun id => ⟨list, id, none⟩, none,
          some core.in_⟩, g₃) := by
      simp only [removeGap, done, htake]
    rw [undo_done_some htrack, ← hg₂, hremoved, hrun]

end Undo

/-! ### Any number of times -/

section Again

variable [ClipSpeed F] [OfNat F 3] [NodeBehavior F β] {order : List NodeId → List NodeId}
  {ids : List NodeId}

/-- An undo, and a redo after it. -/
def again (order : List NodeId → List NodeId)
    (r : TrackPlaceBlockCommand F β × ProjectGraph F β) :
    TrackPlaceBlockCommand F β × ProjectGraph F β :=
  (r.1.undo r.2).1.redo order (r.1.undo r.2).2

/-- What a block was placed on, and what was new. -/
structure Fresh (g : ProjectGraph F β) (l : TrackListBehavior) (index : ℕ) (ids : List NodeId)
    (target : NodeId) (gap : Option NodeId) (in_ : Rational) : Prop where
  nodup : ids.Nodup
  fresh : ∀ id ∈ ids, g.behaviorOf id = none
  last : ∃ init, ids = init ++ [target] ∧ index = l.tracks.length + init.length
  padded : gap.isSome = true ↔ 0 < in_
  gap : ∀ x ∈ gap, g.behaviorOf x = none ∧ x ∉ ids

/-- The block was placed. -/
structure Applied (g : ProjectGraph F β) (list : NodeId) (l : TrackListBehavior) (index : ℕ)
    (ids : List NodeId) (target : NodeId) (gap : Option NodeId) (block : NodeId)
    (in_ oldIn : Rational) (r : TrackPlaceBlockCommand F β × ProjectGraph F β) : Prop where
  command : r.1 = done list ids index gap block in_ oldIn
  behaviorOf : ∀ y, r.2.behaviorOf y = placedAt g list l ids target gap block in_ y

omit [NodeBehavior F β] in
theorem placedAt_congr (hgraph : ∀ y, h.behaviorOf y = g.behaviorOf y) (y : NodeId) :
    placedAt h list l ids target gap block in_ y =
      placedAt g list l ids target gap block in_ y := by
  simp only [placedAt, hgraph]

omit [NodeBehavior F β] in
theorem nodup_new (hfresh : Fresh g l index ids target gap in_)
    (hlist : g.behaviorOf list = some (.trackList l)) (hb : g.behaviorOf block = some b)
    (hplaced : ∀ y, h.behaviorOf y = placedAt g list l ids target gap block in_ y) :
    (ids.map NodeId.index).Nodup ∧ ∀ x ∈ gap, x.index ∉ ids.map NodeId.index := by
  have hlive : ∀ id ∈ ids, h.isValid id = true := by
    intro id hid
    have hne : id ≠ list := ne_of_found (hfresh.fresh id hid) hlist
    rw [Graph.isValid_eq_isSome_behaviorOf, hplaced, placedAt, if_neg hne, if_pos hid]
    split_ifs <;> rfl
  refine ⟨nodup_indexes hfresh.nodup hlive, fun x hx hmem => ?_⟩
  obtain ⟨id, hid, hindex⟩ := List.mem_map.1 hmem
  obtain ⟨hnone, hxids⟩ := hfresh.gap x hx
  have hne : x ≠ list := ne_of_found hnone hlist
  have hxb : x ≠ block := ne_of_found hnone hb
  have hxt : x ≠ target := by
    rintro rfl
    obtain ⟨init, rfl, -⟩ := hfresh.last
    exact hxids (by simp)
  have hxlive : h.isValid x = true := by
    rw [Graph.isValid_eq_isSome_behaviorOf, hplaced, placedAt, if_neg hne, if_neg hxt,
      if_neg hxids, if_neg hxb, if_pos hx.symm]
    rfl
  exact hxids (isValid_congr_index (hlive id hid) hxlive hindex ▸ hid)

/-- A redo after an undo places the block as the redo before it did. -/
theorem Applied.again (order : List NodeId → List NodeId)
    {r : TrackPlaceBlockCommand F β × ProjectGraph F β}
    (happlied : Applied g list l index ids target gap block in_ core.in_ r)
    (hfresh : Fresh g l index ids target gap in_) (htracks : Tracks g list l)
    (hsize : index + 1 < 2 ^ 31) (hin : 0 ≤ in_) (hb : g.behaviorOf block = some b)
    (hcore : b.blockCore = some core) (hdetached : core.track = none)
    (hlength : core.in_ ≤ core.out) :
    Applied g list l index ids target gap block in_ core.in_ (again order r) ∧
      ∀ y, (r.1.undo r.2).2.behaviorOf y = g.behaviorOf y := by
  obtain ⟨c, g'⟩ := r
  obtain ⟨rfl, hplaced⟩ := happlied
  dsimp only at hplaced
  obtain ⟨init, rfl, hindex⟩ := hfresh.last
  obtain ⟨hindexes, hgapIndex⟩ := nodup_new hfresh htracks.behavior hb hplaced
  obtain ⟨cs, gapEntry, h', hundo, hcs, htimelines, hready, hgapReady, hbehavior⟩ :=
    undo_spec htracks hfresh.nodup hfresh.fresh rfl hindex hsize hfresh.padded hfresh.gap hb hcore
      hdetached hlength hplaced
  have hset (y : NodeId) (hy : y ≠ block) :
      (blockSetIn h' block in_).behaviorOf y = g.behaviorOf y := by
    rw [blockSetIn, behaviorOf_modifyBlock, if_neg hy, hbehavior]
  have hslots (y : NodeId) (e : NodeEntry F (Behavior F β)) (hy : Detached h' y e) :
      Detached (blockSetIn h' block in_) y e :=
    hy.of_vacant_iff fun _ _ => vacant_modifyBlock _
  have hapart (y : NodeId) (hy : y ∈ init ++ [target]) : y ≠ block :=
    ne_of_found (hfresh.fresh y hy) hb
  have hlistBlock : list ≠ block := (ne_of_blockCore htracks.behavior hb hcore).symm
  obtain ⟨g₁, hadd, hadded, hkept⟩ := addMissingTracks_again in_ gap gapEntry block
    (some core.in_) ((hset list hlistBlock).trans htracks.behavior) htimelines (fun c hc => by
      have hmem : c.track ∈ init ++ [target] := hcs ▸ List.mem_map_of_mem hc
      refine (hready c hc).congr ?_ fun e he => hslots c.track e he
      rw [hset _ (hapart _ hmem), hbehavior]) hcs hindexes
    (fun id hid => (hset id (hapart id hid)).trans (hfresh.fresh id hid)) hindex hsize
  have hgapReady₁ : GapReady g₁ in_ gap gapEntry := by
    rcases gap with _ | x
    · exact ⟨hgapReady.1, fun hpos => absurd (hfresh.padded.2 hpos) (by simp)⟩
    · obtain ⟨e, he, hdet, hbeh⟩ := hgapReady
      exact ⟨e, he, hkept x e (hslots x e hdet) (hgapIndex x rfl), hbeh⟩
  obtain ⟨gap', g'', hredo, hsome, hsame, -, hplaced'⟩ := redo_of_added order (some core.in_)
    core.in_ ((hbehavior list).trans htracks.behavior) rfl hadd
    hadded hgapReady₁ hin hfresh.padded.1 rfl hindex (by omega) ((hbehavior block).trans hb) hcore
  have hgap' : gap' = gap := by
    rcases gap with _ | x
    · rcases gap' with _ | x
      · rfl
      · exact absurd (hfresh.padded.2 (hsome.1 rfl)) (by simp)
    · exact hsame x rfl
  subst hgap'
  refine ⟨⟨?_, fun y => ?_⟩, fun y => ?_⟩
  · rw [TrackPlaceBlockCommand.again, hundo, hredo]
  · rw [TrackPlaceBlockCommand.again, hundo, hredo]
    exact (hplaced' y).trans (placedAt_congr hbehavior y)
  · rw [hundo]
    exact hbehavior y

/-- The times of a placement. -/
def placeTimes (core : BlockCore F) (in_ : Rational) : List Rational :=
  [core.in_, core.out, core.length, in_, in_ + core.length]

/-- The stored span of a block, which `redo` and `undo` write by one `set_in` each: it begins at
`in_` with its old length, and is what it was once that is taken back. -/
def PlacesExactly (b : BlockTimes) (in_ : Fraction) : Prop :=
  ∃ placed, b.setIn in_ = some placed ∧ placed.in_ = in_ ∧
    (placed.out.num / placed.out.den - in_.num / in_.den : ℚ) =
      b.out.num / b.out.den - b.in_.num / b.in_.den ∧
    placed.setIn b.in_ = some b

omit [OfNat F 3] [ClipSpeed F] in
theorem placesExactly_times (h : Exacts (placeTimes core in_)) (hle : core.in_ ≤ core.out) :
    PlacesExactly core.times (Fraction.ofRat in_) := by
  have hplaced := BlockCore.setIn_of_le core in_ hle
  have hlength : (core.setIn in_).length = core.length := by
    rw [hplaced]
    exact add_sub_cancel_left in_ core.length
  have hout : (core.setIn in_).out = in_ + core.length := by rw [hplaced]; rfl
  have hin : (core.setIn in_).in_ = in_ := by rw [hplaced]; rfl
  refine ⟨_, BlockCore.setIn_times h, congrArg Fraction.ofRat hin, ?_, ?_⟩
  · simp only [BlockCore.times, hout, Fraction.num_div_ofRat, BlockCore.length_eq]
    exact add_sub_cancel_left _ _
  · have hback : Exacts [(core.setIn in_).in_, (core.setIn in_).out, (core.setIn in_).length,
        core.in_, core.in_ + (core.setIn in_).length] := by
      simp only [placeTimes, exacts_cons, exacts_nil, and_true] at h
      simp only [exacts_cons, exacts_nil, and_true, hin, hout, hlength, BlockCore.in_add_length]
      exact ⟨h.2.2.2.1, h.2.2.2.2, h.2.2.1, h.1, h.2.1⟩
    exact (BlockCore.setIn_times hback).trans (by rw [BlockCore.setIn_setIn hle])

/-- The sum of two times is rounded: a block of `[0, 1/65537)` that is placed at `1/65539` ends at
`1/32769`. -/
theorem not_placesExactly_rounded :
    ¬ PlacesExactly ⟨⟨0, 1⟩, ⟨1, 65537⟩, ⟨0, 1⟩⟩ ⟨1, 65539⟩ := by
  have hplaced : (⟨⟨0, 1⟩, ⟨1, 65537⟩, ⟨0, 1⟩⟩ : BlockTimes).setIn ⟨1, 65539⟩ =
      some ⟨⟨1, 65539⟩, ⟨1, 32769⟩, ⟨0, 1⟩⟩ := by decide +kernel
  rintro ⟨placed, hsome, -, hspan, -⟩
  obtain rfl := Option.some.inj (hplaced.symm.trans hsome)
  norm_num at hspan

/-- A block is on track `index` of a list, from `in_` on, where the list had too few tracks: the
new tracks `ids` hold nothing but the block and a gap before it, and every other node is as it
was. -/
structure Placed (g g' : ProjectGraph F β) (list : NodeId) (l : TrackListBehavior) (index : ℕ)
    (block : NodeId) (b : Behavior F β) (in_ : Rational) (ids : List NodeId) (target : NodeId)
    (t : TrackBehavior F) (blocks : List (NodeId × Behavior F β)) : Prop where
  behavior : g'.behaviorOf list = some (.trackList { l with tracks := l.tracks ++ ids })
  length : (l.tracks ++ ids).length = index + 1
  last : (l.tracks ++ ids)[index]? = some target
  new : ∀ id ∈ ids, g.behaviorOf id = none
  empty : ∀ id ∈ ids, id ≠ target → ∃ t, Track g' id t []
  track : Track g' target t blocks
  sorted : Sorted blocks
  placed : (block, b.modifyCore fun k => { k with
    range := ⟨in_, in_ + k.length⟩
    track := some target }) ∈ blocks
  others : ∀ p ∈ blocks, p.1 ≠ block → g.behaviorOf p.1 = none ∧ blockKind g' p.1 = .gap
  unchanged : ∀ y, g.isValid y = true → y ≠ list → y ≠ block → g'.behaviorOf y = g.behaviorOf y

omit [NodeBehavior F β] in
theorem Applied.placed {r : TrackPlaceBlockCommand F β × ProjectGraph F β}
    (happlied : Applied g list l index ids target gap block in_ core.in_ r)
    (hfresh : Fresh g l index ids target gap in_) (htracks : Tracks g list l)
    (hb : g.behaviorOf block = some b) (hcore : b.blockCore = some core)
    (hlength : core.in_ < core.out) :
    ∃ t blocks, Placed g r.2 list l index block b in_ ids target t blocks := by
  have hplaced := happlied.behaviorOf
  obtain ⟨init, hids, hindex⟩ := hfresh.last
  have hne (y : NodeId) (d : Behavior F β) (hy : g.behaviorOf y = some d) : y ∉ ids :=
    notMem_of_found hfresh.fresh hy
  have hlistIds : list ∉ ids := hne list _ htracks.behavior
  have hblockIds : block ∉ ids := hne block b hb
  have hmem : target ∈ ids := by
    rw [hids]
    simp
  have htargetList : target ≠ list := fun heq => hlistIds (heq ▸ hmem)
  have hblockTarget : block ≠ target := fun heq => hblockIds (heq ▸ hmem)
  have hblockList : block ≠ list := ne_of_blockCore htracks.behavior hb hcore
  have hold (y : NodeId) (hy : g.isValid y = true) (hyl : y ≠ list) (hyb : y ≠ block) :
      r.2.behaviorOf y = g.behaviorOf y := by
    obtain ⟨e, he⟩ := Graph.isValid_iff.1 hy
    have hbehavior := Graph.behaviorOf_of_get he
    have hyids := hne y _ hbehavior
    have hyt : y ≠ target := fun heq => hyids (heq ▸ hmem)
    rw [hplaced, placedAt, if_neg hyl, if_neg hyt, if_neg hyids, if_neg hyb, if_neg]
    intro hgap
    rw [(hfresh.gap y hgap.symm).1] at hbehavior
    exact absurd hbehavior (by simp)
  have hmoved : (b.modifyCore fun k => { k.setIn in_ with track := some target }) =
      b.modifyCore fun k => { k with
        range := ⟨in_, in_ + k.length⟩
        track := some target } :=
    Behavior.modifyCore_congr hcore (by rw [core.setIn_of_le in_ hlength.le])
  have hblock : r.2.behaviorOf block = some (b.modifyCore fun k => { k with
      range := ⟨in_, in_ + k.length⟩
      track := some target }) := by
    rw [hplaced, placedAt, if_neg hblockList, if_neg hblockTarget, if_neg hblockIds, if_pos rfl, hb,
      Option.map_some, hmoved]
  have hblockCore : (b.modifyCore fun k => { k with
      range := ⟨in_, in_ + k.length⟩
      track := some target }).blockCore = some { core with
        range := ⟨in_, in_ + core.length⟩
        track := some target } := by
    rw [Behavior.blockCore_modifyCore, hcore, Option.map_some]
  have hpad (x : NodeId) (hx : x ∈ gap) : r.2.behaviorOf x =
      some (.gap ⟨{ gapCore in_ with track := some target }⟩) ∧ x ≠ block := by
    obtain ⟨hnone, hxids⟩ := hfresh.gap x hx
    have hxt : x ≠ target := fun heq => hxids (heq ▸ hmem)
    have hxl : x ≠ list := ne_of_found hnone htracks.behavior
    have hxb : x ≠ block := ne_of_found hnone hb
    exact ⟨by rw [hplaced, placedAt, if_neg hxl, if_neg hxt, if_neg hxids, if_neg hxb,
      if_pos hx.symm], hxb⟩
  refine ⟨{ TimelineAddTrackCommand.newTrackAt l.kind (some list)
      (l.tracks.length + ids.idxOf target : ℕ) with blocks := gap.toList ++ [block] },
    gap.toList.map (fun x => (x, .gap ⟨{ gapCore in_ with track := some target }⟩)) ++
      [(block, b.modifyCore fun k => { k with
        range := ⟨in_, in_ + k.length⟩
        track := some target })],
    by rw [hplaced, placedAt, if_pos rfl],
    by rw [hids, List.length_append, List.length_append, List.length_singleton, hindex,
      Nat.add_assoc], ?_, hfresh.fresh, fun id hid hidt => ?_, ⟨?_, ?_, ?_, ?_⟩, ?_,
    List.mem_append_right _ (by simp), ?_, hold⟩
  · rw [hids, hindex, ← List.append_assoc, ← List.length_append]
    exact List.getElem?_concat_length
  · have hidl : id ≠ list := fun heq => hlistIds (heq ▸ hid)
    exact ⟨_, by rw [hplaced, placedAt, if_neg hidl, if_neg hidt, if_pos hid], rfl, List.nodup_nil,
      by simp⟩
  · rw [hplaced, placedAt, if_neg htargetList, if_pos rfl]
  · simp [Function.comp_def]
  · rcases gap with _ | x
    · simp
    · simpa using (hpad x rfl).2
  · intro p hp
    rcases List.mem_append.1 hp with hp | hp
    · obtain ⟨x, hx, rfl⟩ := List.mem_map.1 hp
      exact ⟨(hpad x (Option.mem_toList.1 hx)).1, _, rfl, rfl⟩
    · obtain rfl := List.mem_singleton.1 hp
      exact ⟨hblock, _, hblockCore, rfl⟩
  · have hlen : (0 : ℚ) < core.length := by
      rw [BlockCore.length_eq]
      linarith
    have hin := inOf_eq hblockCore
    have hout := outOf_eq hblockCore
    refine sorted_append.2 ⟨?_, sorted_cons.2 ⟨?_, ⟨by simp, List.Pairwise.nil⟩, by simp⟩, ?_⟩
    · rcases gap with _ | x
      · exact ⟨by simp, List.Pairwise.nil⟩
      · exact sorted_cons.2 ⟨hfresh.padded.1 rfl, ⟨by simp, List.Pairwise.nil⟩, by simp⟩
    · rw [hin, hout]
      exact lt_add_of_pos_right _ hlen
    · intro p hp q hq
      obtain ⟨x, -, rfl⟩ := List.mem_map.1 hp
      obtain rfl := List.mem_singleton.1 hq
      rw [hin]
      exact le_refl in_
  · intro p hp hpb
    rcases List.mem_append.1 hp with hp | hp
    · obtain ⟨x, hx, rfl⟩ := List.mem_map.1 hp
      have hx := Option.mem_toList.1 hx
      refine ⟨(hfresh.gap x hx).1, ?_⟩
      rw [blockKind, (hpad x hx).1]
    · obtain rfl := List.mem_singleton.1 hp
      exact absurd rfl hpb

/-- A block that no track holds and whose times are exact is placed on a track behind the last one
of a list. It can be taken back and placed again any number of times: every undo restores all nodes,
and every redo leaves what the first one left. -/
theorem place_new_track {carried : List (NodeId × NodeId)} (hsound : g.Sound carried)
    (htracks : Tracks g list l) (hmissing : l.tracks.length ≤ index)
    (hroom : 2 * (g.entries.length + (index + 1 - l.tracks.length) + 1) < u32Size)
    (hb : g.behaviorOf block = some b) (hcore : b.blockCore = some core)
    (hdetached : core.track = none) (hlength : core.in_ < core.out) (hin : 0 ≤ in_)
    (hexact : Exacts (placeTimes core in_)) (n : ℕ) :
    PlacesExactly core.times (Fraction.ofRat in_) ∧ ∃ ids target t blocks,
      let first := (new list index block in_ : TrackPlaceBlockCommand F β).redo order g
      let later := (again order)^[n] first
      Placed g later.2 list l index block b in_ ids target t blocks ∧
        (∀ y, later.2.behaviorOf y = first.2.behaviorOf y) ∧
        ∀ y, (later.1.undo later.2).2.behaviorOf y = g.behaviorOf y := by
  have hcount := htracks.length_le
  have hsize : index + 1 < 2 ^ 31 := by
    rw [u32Size] at hroom
    omega
  have hlistBlock : list ≠ block := (ne_of_blockCore htracks.behavior hb hcore).symm
  have hlist' : (blockSetIn g block in_).behaviorOf list = some (.trackList l) := by
    rw [blockSetIn, behaviorOf_modifyBlock, if_neg hlistBlock, htracks.behavior]
  have hentries : (blockSetIn g block in_).entries.length = g.entries.length :=
    Graph.length_modifyBehavior _
  have hbcore : blockCoreOf g block = some core := by rw [blockCoreOf_eq hb, hcore]
  have hsound' : (blockSetIn g block in_).Sound carried := hsound.modifyBehavior _ _
  obtain ⟨init, target, g₁, hadd, hadded, hready, hindex⟩ := addMissingTracks_first in_ block
    (some core.in_) hsound' (by rwa [hentries]) hlist'
    (by rwa [hentries]) hmissing
  obtain ⟨gap, g', hredo, hsome, -, hgap, hplaced⟩ := redo_of_added order none core.in_
    htracks.behavior (blockIn_eq hbcore) hadd hadded hready hin (by simp) rfl hindex (by omega) hb
    hcore
  have hfresh : Fresh g l index (init ++ [target]) target gap in_ := by
    refine ⟨hadded.nodup, fun id hid => ?_, ⟨init, rfl, hindex⟩, hsome, hgap⟩
    have hnone := hadded.fresh id hid
    rw [blockSetIn, behaviorOf_modifyBlock] at hnone
    split_ifs at hnone
    · exact Option.map_eq_none_iff.1 hnone
    · exact hnone
  have hfirst : Applied g list l index (init ++ [target]) target gap block in_ core.in_
      ((new list index block in_ : TrackPlaceBlockCommand F β).redo order g) := by
    rw [new, hredo]
    exact ⟨rfl, hplaced⟩
  have hlater (n : ℕ) : Applied g list l index (init ++ [target]) target gap block in_ core.in_
      ((again order)^[n]
        ((new list index block in_ : TrackPlaceBlockCommand F β).redo order g)) := by
    induction n with
    | zero => exact hfirst
    | succ n ih =>
      rw [Function.iterate_succ_apply']
      exact (ih.again order hfresh htracks hsize hin hb hcore hdetached hlength.le).1
  obtain ⟨t, blocks, hresult⟩ := (hlater n).placed hfresh htracks hb hcore hlength
  exact ⟨placesExactly_times hexact hlength.le, init ++ [target], target, t, blocks, hresult,
    fun y => ((hlater n).behaviorOf y).trans (hfirst.behaviorOf y).symm,
    ((hlater n).again order hfresh htracks hsize hin hb hcore hdetached hlength.le).2⟩

/-- A list with one video track, which holds a clip of ten seconds, and a clip of ten seconds that
no track holds. -/
def looseClip : ProjectGraph ℚ Plain :=
  ((((Graph.new.addNode .new (.trackList ⟨.video, [⟨1, 0⟩], none, 0⟩)).1.addNode .new
    (.track ⟨.video, [⟨2, 0⟩], false, false, 3, 0, some ⟨0, 0⟩⟩)).1.addNode .new
    (.clip ⟨⟨⟨10, 20⟩, 0, 1, false, [], true, false, 0, some ⟨1, 0⟩⟩, none⟩)).1.addNode .new
    (.clip ⟨⟨⟨0, 10⟩, 3, 1, false, [], true, false, 0, none⟩, none⟩)).1

/-- The clip is placed five seconds into the third track. -/
theorem place_new_track_looseClip :
    PlacesExactly (⟨⟨0, 10⟩, 3, 1, false, [], true, false, 0, none⟩ : BlockCore ℚ).times
      (Fraction.ofRat 5) ∧ ∃ ids target t blocks,
      let first := (new ⟨0, 0⟩ (2 : ℕ) ⟨3, 0⟩ 5 : TrackPlaceBlockCommand ℚ Plain).redo id looseClip
      let later := (again id)^[3] first
      Placed looseClip later.2 ⟨0, 0⟩ ⟨.video, [⟨1, 0⟩], none, 0⟩ 2 ⟨3, 0⟩
          (.clip ⟨⟨⟨0, 10⟩, 3, 1, false, [], true, false, 0, none⟩, none⟩) 5 ids target t blocks ∧
        (∀ y, later.2.behaviorOf y = first.2.behaviorOf y) ∧
        ∀ y, (later.1.undo later.2).2.behaviorOf y = looseClip.behaviorOf y := by
  refine place_new_track ((((Graph.sound_new.allocate _ _).allocate _ _).allocate _ _).allocate _ _)
    ⟨rfl, by decide, fun i x hx => ?_⟩ (by decide) (by decide) rfl rfl rfl (by decide)
    (by decide) (by decide +kernel) 3
  obtain ⟨hlt, rfl⟩ := List.getElem?_eq_some_iff.1 hx
  obtain rfl : i = 0 := Nat.lt_one_iff.1 hlt
  exact ⟨_, rfl, rfl⟩

end Again

end TrackPlaceBlockCommand

end Oak.Timeline
