import Oak.Node.Behavior
import Mathlib.Tactic.Linarith

/-!
# Blocks, tracks and sequences

The behaviors of `oak-node/src/block.rs`, `track.rs`, `sequence.rs` and `folder.rs`. A block is a
span of a track; a clip plays media there, and maps the times of the timeline to times of the
media through the three fields `range`, `mediaIn` and `speed` of its core.

Speeds are floats; what a clip does with them is the class `ClipSpeed`.

## Main results

* `ClipBlockBehavior.inputTimeAdjustment_eq`: the times a clip evaluates its media at.
* `BlockCore.setLengthAndMediaIn_of_le`, `BlockCore.setLengthAndMediaOut_of_le`: the two anchored
  setters, for a length that is not negative.
-/

namespace Oak.Node

open Oak.Core

/-- What clips do with a float speed. -/
class ClipSpeed (F : Type*) where
  /-- `1.0`. -/
  normal : F
  /-- Whether `(speed - 1.0).abs() > 1e-9` is false. -/
  isNormal : F → Bool
  /-- `speed.abs() < 1e-12`. -/
  isStill : F → Bool
  /-- `Rational::from_double(media.to_f64() * speed)`. -/
  scale : Rational → F → Rational
  isNormal_normal : isNormal normal = true

/-- Rational numbers as floats. -/
instance : ClipSpeed ℚ where
  normal := 1
  isNormal s := |s - 1| ≤ 1 / 10 ^ 9
  isStill s := |s| < 1 / 10 ^ 12
  scale media s := media * s
  isNormal_normal := by decide +kernel

/-! ### The core of a block -/

/-- `BlockCore`. -/
structure BlockCore (F : Type*) where
  /-- Position and length on the timeline. -/
  range : TimeRange
  mediaIn : Rational
  speed : F
  reversed : Bool
  links : List NodeId
  enabled : Bool
  maintainAudioPitch : Bool
  loopMode : ℤ
  /-- The owning track. -/
  track : Option NodeId
  deriving DecidableEq, Repr

namespace BlockCore

variable {F : Type*}

/-- `BlockCore::default`. -/
def default [ClipSpeed F] : BlockCore F :=
  ⟨.new 0 1, 0, ClipSpeed.normal, false, [], true, false, 0, none⟩

/-- `in_`. -/
def in_ (c : BlockCore F) : Rational := c.range.in_

/-- `out`. -/
def out (c : BlockCore F) : Rational := c.range.out

/-- `length`. -/
def length (c : BlockCore F) : Rational := c.range.length

variable (c : BlockCore F)

/-- `set_in`: the length stays. -/
def setIn (in_ : Rational) : BlockCore F :=
  { c with range := .new in_ (in_ + c.length) }

/-- `set_length_and_media_out`: the out point stays, and the media in point becomes the new in
point. -/
def setLengthAndMediaOut (length : Rational) : BlockCore F :=
  let out := c.in_ + c.length
  let range := TimeRange.new (out - length) out
  { c with
    range := range
    mediaIn := range.in_ }

/-- `set_length_and_media_in`: the in point and the media in point stay. -/
def setLengthAndMediaIn (length : Rational) : BlockCore F :=
  { c with range := .new c.in_ (c.in_ + length) }

theorem in_add_length : c.in_ + c.length = c.out := by
  simp only [in_, length, out, TimeRange.length, add_sub_cancel]

theorem length_eq : c.length = c.out - c.in_ := rfl

theorem setIn_of_le (in_ : Rational) (h : c.in_ ≤ c.out) :
    c.setIn in_ = { c with range := ⟨in_, in_ + c.length⟩ } := by
  rw [setIn, TimeRange.new_of_le (by rw [length_eq]; linarith)]

theorem setIn_setIn {c : BlockCore F} (h : c.in_ ≤ c.out) (new : Rational) :
    (c.setIn new).setIn c.in_ = c := by
  rw [setIn_of_le c new h, setIn_of_le]
  · simp only [in_, length, TimeRange.length, add_sub_cancel_left, add_sub_cancel]
  · exact le_add_of_nonneg_right (sub_nonneg.2 h)

/-- A length that is not negative moves the out point only. -/
theorem setLengthAndMediaIn_of_le {length : Rational} (h : 0 ≤ length) :
    c.setLengthAndMediaIn length = { c with range := ⟨c.in_, c.in_ + length⟩ } := by
  rw [setLengthAndMediaIn, TimeRange.new_of_le (by linarith)]

/-- A length that is not negative moves the in point, and the media in point with it. -/
theorem setLengthAndMediaOut_of_le {length : Rational} (h : 0 ≤ length) :
    c.setLengthAndMediaOut length =
      { c with
        range := ⟨c.out - length, c.out⟩
        mediaIn := c.out - length } := by
  rw [setLengthAndMediaOut, in_add_length, TimeRange.new_of_le (by linarith)]

end BlockCore

/-! ### The behaviors -/

/-- `ClipBlockBehavior`. -/
structure ClipBlockBehavior (F : Type*) where
  core : BlockCore F
  /-- The footage, which an edge connects as well. -/
  footage : Option NodeId
  deriving DecidableEq, Repr

/-- `GapBlockBehavior`. -/
structure GapBlockBehavior (F : Type*) where
  core : BlockCore F
  deriving DecidableEq, Repr

/-- `TransitionBlockBehavior`. -/
structure TransitionBlockBehavior (F : Type*) where
  core : BlockCore F
  inOffset : Rational
  outOffset : Rational
  deriving DecidableEq, Repr

/-- `AdjustmentBlockBehavior`. -/
structure AdjustmentBlockBehavior (F : Type*) where
  core : BlockCore F
  deriving DecidableEq, Repr

/-- `clip_input::TEXTURE_INPUT`. -/
def ClipInput.textureInput : String := "tex_in"

/-- `adjustment_input::TEXTURE_INPUT`. -/
def AdjustmentInput.textureInput : String := "tex_in"

/-- The media that passes while a time `d` passes on the timeline. -/
def BlockCore.elapsed {F : Type*} [ClipSpeed F] (c : BlockCore F) (d : Rational) : Rational :=
  if ClipSpeed.isNormal c.speed then d
  else if ClipSpeed.isStill c.speed then 0
  else ClipSpeed.scale d c.speed

/-- `ClipBlockBehavior::input_time_adjustment`. -/
def ClipBlockBehavior.inputTimeAdjustment {F : Type*} [ClipSpeed F] (b : ClipBlockBehavior F)
    (input : String) (time : TimeRange) : TimeRange :=
  if input ≠ ClipInput.textureInput then time
  else
    let media := b.core.elapsed (time.in_ - b.core.in_)
    let media := if b.core.reversed then b.core.length - media else media
    let media := media + b.core.mediaIn
    .new media (media + (time.out - time.in_))

/-- `TrackType`. -/
inductive TrackType where
  | video | audio | subtitle
  deriving DecidableEq, Repr

/-- `TrackBehavior`. -/
structure TrackBehavior (F : Type*) where
  kind : TrackType
  /-- The blocks in timeline order. -/
  blocks : List NodeId
  muted : Bool
  locked : Bool
  height : F
  /-- Index inside the track list. -/
  index : ℤ
  trackList : Option NodeId
  deriving DecidableEq, Repr

namespace TrackBehavior

variable {F : Type*} (t : TrackBehavior F) (block : NodeId)

/-- `block_index`. -/
def blockIndex : Option ℕ := t.blocks.idxOf? block

/-- `prepend_block`. -/
def prependBlock : TrackBehavior F :=
  { t with blocks := block :: t.blocks }

/-- `insert_block_after`. -/
def insertBlockAfter (block before : NodeId) : Option (TrackBehavior F) :=
  (t.blockIndex before).map fun i => { t with blocks := t.blocks.insertIdx (i + 1) block }

/-- `insert_block_before`. -/
def insertBlockBefore (block after : NodeId) : Option (TrackBehavior F) :=
  (t.blockIndex after).map fun i => { t with blocks := t.blocks.insertIdx i block }

/-- `ripple_remove_block`: drop the block. No position of another block moves. -/
def rippleRemoveBlock : Option (TrackBehavior F) :=
  let blocks := t.blocks.filter fun b => b ≠ block
  if blocks.length ≠ t.blocks.length then some { t with blocks := blocks } else none

end TrackBehavior

/-- `TrackListBehavior`. -/
structure TrackListBehavior where
  kind : TrackType
  /-- The tracks in stack order. -/
  tracks : List NodeId
  sequence : Option NodeId
  arrayBase : ℤ
  deriving DecidableEq, Repr

/-- `SequenceBehavior`, as far as it is saved. -/
structure SequenceBehavior where
  trackLists : List NodeId
  deriving DecidableEq, Repr

/-- `FolderBehavior`: a folder of the bin. -/
structure FolderBehavior where
  name : String
  children : List NodeId
  deriving DecidableEq, Repr

/-- The behaviors that other code looks for by type, and all others. -/
inductive Behavior (F β : Type*) where
  | clip (b : ClipBlockBehavior F)
  | gap (b : GapBlockBehavior F)
  | transition (b : TransitionBlockBehavior F)
  | adjustment (b : AdjustmentBlockBehavior F)
  | track (b : TrackBehavior F)
  | trackList (b : TrackListBehavior)
  | sequence (b : SequenceBehavior)
  | folder (b : FolderBehavior)
  | other (b : β)
  deriving DecidableEq, Repr

namespace Behavior

variable {F β : Type*}

/-- The outputs of a block that passes its texture through. -/
def passTexture (core : BlockCore F) (input : String) (inputs : NodeValueRow F)
    (table : NodeValueTable F) : NodeValueTable F :=
  if core.enabled then
    match inputs input with
    | none => table
    | some value => table.push .texture value none
  else table

instance [ClipSpeed F] [NodeBehavior F β] : NodeBehavior F (Behavior F β) where
  typeId
    | .clip _ => "org.olivevideoeditor.Olive.clipblock"
    | .gap _ => "org.olivevideoeditor.Olive.gapblock"
    | .transition _ => "org.olivevideoeditor.Olive.transitionblock"
    | .adjustment _ => "org.olivevideoeditor.Olive.adjustment"
    | .track _ => "org.olivevideoeditor.Olive.track"
    | .trackList _ => "org.olivevideoeditor.Olive.tracklist"
    | .sequence _ => "org.olivevideoeditor.Olive.sequence"
    | .folder _ => "org.olivevideoeditor.Olive.folder"
    | .other b => NodeBehavior.typeId b
  duplicate
    | .sequence _, _ => some (.sequence ⟨[]⟩)
    | .folder b, _ => some (.folder ⟨b.name, []⟩)
    | .other b, core => (NodeBehavior.duplicate b core).map .other
    | b, _ => some b
  activeElementsAtTime
    | .other b => NodeBehavior.activeElementsAtTime b
    | _ => fun _ _ => []
  connectedRenderOutput
    | .other b => NodeBehavior.connectedRenderOutput b
    | _ => fun _ _ _ => none
  inputTimeAdjustment
    | .clip b => fun _ input _ time _ => b.inputTimeAdjustment input time
    | .other b => NodeBehavior.inputTimeAdjustment b
    | _ => fun _ _ _ time _ => time
  value
    | .clip b => fun _ inputs _ table => passTexture b.core ClipInput.textureInput inputs table
    | .adjustment b => fun _ inputs _ table =>
      passTexture b.core AdjustmentInput.textureInput inputs table
    | .other b => NodeBehavior.value b
    | _ => fun _ _ _ table => table

/-- `block_core_of`: the core of a block. -/
def blockCore : Behavior F β → Option (BlockCore F)
  | .clip b => some b.core
  | .gap b => some b.core
  | .transition b => some b.core
  | .adjustment b => some b.core
  | _ => none

/-- `block_core_of_mut`: the core of a block is changed by `f`. -/
def modifyCore (f : BlockCore F → BlockCore F) : Behavior F β → Behavior F β
  | .clip b => .clip { b with core := f b.core }
  | .gap b => .gap { b with core := f b.core }
  | .transition b => .transition { b with core := f b.core }
  | .adjustment b => .adjustment { b with core := f b.core }
  | b => b

/-- `track_behavior_of`. -/
def track? : Behavior F β → Option (TrackBehavior F)
  | .track t => some t
  | _ => none

@[simp] theorem blockCore_modifyCore (f : BlockCore F → BlockCore F) (b : Behavior F β) :
    (b.modifyCore f).blockCore = b.blockCore.map f := by
  cases b <;> rfl

@[simp] theorem modifyCore_modifyCore (f h : BlockCore F → BlockCore F) (b : Behavior F β) :
    (b.modifyCore f).modifyCore h = b.modifyCore (h ∘ f) := by
  cases b <;> rfl

variable {b : Behavior F β}

theorem modifyCore_congr {f h : BlockCore F → BlockCore F} {core : BlockCore F}
    (hcore : b.blockCore = some core) (hfh : f core = h core) :
    b.modifyCore f = b.modifyCore h := by
  cases b <;> simp_all [blockCore, modifyCore]

@[simp] theorem modifyCore_id (b : Behavior F β) : b.modifyCore id = b := by
  cases b <;> rfl

theorem modifyCore_eq_self {f : BlockCore F → BlockCore F} {core : BlockCore F}
    (hcore : b.blockCore = some core) (hf : f core = core) : b.modifyCore f = b :=
  (modifyCore_congr hcore hf).trans (modifyCore_id b)

@[simp] theorem track?_eq_some {t : TrackBehavior F} : b.track? = some t ↔ b = .track t := by
  cases b <;> simp [track?]

end Behavior

/-! ### Media times -/

section Media

variable {F β : Type*} [ClipSpeed F]

theorem BlockCore.elapsed_of_normal {c : BlockCore F} (h : ClipSpeed.isNormal c.speed = true)
    (d : Rational) : c.elapsed d = d := by
  rw [elapsed, if_pos h]

variable (b : ClipBlockBehavior F) (t : Rational)

/-- The media time of a clip at a time of the timeline. -/
def ClipBlockBehavior.mediaAt : Rational :=
  (if b.core.reversed then b.core.length - b.core.elapsed (t - b.core.in_)
    else b.core.elapsed (t - b.core.in_)) + b.core.mediaIn

/-- The time range that a clip evaluates its texture at begins with the media time. -/
theorem ClipBlockBehavior.inputTimeAdjustment_eq (time : TimeRange) :
    b.inputTimeAdjustment ClipInput.textureInput time =
      .new (b.mediaAt time.in_) (b.mediaAt time.in_ + (time.out - time.in_)) := by
  rw [inputTimeAdjustment, if_neg (by simp)]
  rfl

theorem ClipBlockBehavior.inputTimeAdjustment_point :
    (b.inputTimeAdjustment ClipInput.textureInput ⟨t, t⟩).in_ = b.mediaAt t := by
  rw [inputTimeAdjustment_eq, sub_self, add_zero, TimeRange.new_self]

/-- The media time that a clip shows at a time of the timeline. -/
def ClipBlockBehavior.shownAt : Rational :=
  (b.inputTimeAdjustment ClipInput.textureInput ⟨t, t⟩).in_

theorem ClipBlockBehavior.shownAt_eq (hspeed : ClipSpeed.isNormal b.core.speed = true)
    (t : Rational) :
    b.shownAt t =
      (if b.core.reversed then b.core.out - t else t - b.core.in_) + b.core.mediaIn := by
  rw [shownAt, inputTimeAdjustment_point, mediaAt, BlockCore.elapsed_of_normal hspeed,
    BlockCore.length_eq, sub_sub_sub_cancel_right]

/-- A clip that is cut to begin at `time` with the media in point `media` plays from there on what
`c` plays. -/
def BlockCore.PlaysFrom (c : BlockCore F) (time media : Rational) : Prop :=
  ∀ t, time ≤ t → t < c.out →
    if c.reversed then
      c.out - time - c.elapsed (t - time) + media = c.length - c.elapsed (t - c.in_) + c.mediaIn
    else c.elapsed (t - time) + media = c.elapsed (t - c.in_) + c.mediaIn

end Media

end Oak.Node
