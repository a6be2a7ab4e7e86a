import Oak.Node.Keyframe
import Mathlib.Logic.Function.Basic

/-!
# The data of a node

`oak-node/src/input.rs` and the data half of `oak-node/src/node.rs`: the inputs a node declares
and the values, keyframes, links and positions it carries. `NodeCore.valueAtTime` is what an
unconnected input evaluates to; `inputArrayInsert` and `inputArrayRemove` shift the elements of an
array input.
-/

namespace Oak.Node

open Oak.Core

/-- Input flag bits. -/
def InputFlags.notConnectable : ℕ := 1 <<< 0

def InputFlags.array : ℕ := 1 <<< 2

/-- Node flag bits: an item of the bin, which copies share. -/
def NodeFlags.isItem : ℕ := 0x10

/-- `Input`: the descriptor of one input. -/
structure Input (F : Type*) where
  id : String
  valueType : ValueType
  default : NodeValue F
  flags : ℕ
  arraySize : ℕ
  deriving DecidableEq, Repr

namespace Input

variable {F : Type*}

/-- `Input::new`. -/
def new (id : String) (valueType : ValueType) (default : NodeValue F) : Input F :=
  ⟨id, valueType, default, 0, 0⟩

/-- `is_array`. -/
def isArray (i : Input F) : Bool := i.flags &&& InputFlags.array ≠ 0

/-- `is_connectable`. -/
def isConnectable (i : Input F) : Bool := i.flags &&& InputFlags.notConnectable = 0

end Input

/-- A number as an `i32`. -/
def toI32 (n : ℤ) : ℤ := n.bmod (2 ^ 32)

/-- `NodeCore`: the data that every node carries. -/
structure NodeCore (F : Type*) where
  inputs : List (Input F)
  /-- The keyframe tracks, by input and element. -/
  keyframes : List (String × ℤ × KeyframeTrack F)
  flags : ℕ
  label : String
  overrideColor : ℤ
  /-- The positions of the node in the contexts it is shown in. -/
  contextPositions : List (NodeId × (F × F) × Bool)
  links : List NodeId
  binFolder : Option NodeId
  /-- The standard values, by input and element. -/
  standardValues : String × ℤ → Option (NodeValue F)

/-- The input that every node has. -/
def enabledInput : String := "enabled_in"

namespace NodeCore

variable {F : Type*}

/-- `NodeCore::empty`. -/
def empty : NodeCore F := ⟨[], [], 0, "", -1, [], [], none, fun _ => none⟩

variable (core : NodeCore F)

/-- `add_input`. -/
def addInput (input : Input F) : NodeCore F :=
  { core with inputs := core.inputs ++ [input] }

/-- `NodeCore::new`: the standard input comes first. -/
def new : NodeCore F := empty.addInput (.new enabledInput .boolean (.boolean true))

variable (id : String)

/-- `get_input`. -/
def getInput : Option (Input F) :=
  core.inputs.find? fun i => i.id = id

/-- `input_data_type`. -/
def inputDataType : Option ValueType :=
  (core.getInput id).map Input.valueType

/-- `input_array_size`. -/
def inputArraySize : ℕ :=
  ((core.getInput id).map Input.arraySize).getD 0

/-- `get_input_mut`: the first input called `id` is changed by `f`. -/
def modifyInput (id : String) (f : Input F → Input F) : List (Input F) → List (Input F)
  | [] => []
  | i :: is => if i.id = id then f i :: is else i :: modifyInput id f is

variable (element : ℤ)

/-- `keyframe_track`. -/
def keyframeTrack : Option (KeyframeTrack F) :=
  (core.keyframes.find? fun k => k.1 = id && k.2.1 = element).map fun k => k.2.2

/-- The tracks after the one of `(id, element)` was set to `track`, at its place or at the end. -/
def setTrack (id : String) (element : ℤ) (track : KeyframeTrack F) :
    List (String × ℤ × KeyframeTrack F) → List (String × ℤ × KeyframeTrack F)
  | [] => [(id, element, track)]
  | k :: ks =>
    if k.1 = id && k.2.1 = element then (id, element, track) :: ks
    else k :: setTrack id element track ks

/-- `keyframe_track_mut`: the track of `(id, element)`, which is created on demand, is changed
by `f`. -/
def modifyKeyframeTrack (f : KeyframeTrack F → KeyframeTrack F) : NodeCore F :=
  { core with
    keyframes := setTrack id element (f ((core.keyframeTrack id element).getD .empty))
      core.keyframes }

/-- `standard_value`: the value set for the element, or the default of the input. -/
def standardValue : NodeValue F :=
  ((core.standardValues (id, element)).or ((core.getInput id).map Input.default)).getD .none

/-- `set_standard_value`. -/
def setStandardValue (value : NodeValue F) : NodeCore F :=
  { core with standardValues := Function.update core.standardValues (id, element) (some value) }

/-- `value_at_time`: the keyframes when there are any, else the standard value. -/
def valueAtTime [Interpolate F] (time : Rational) : NodeValue F :=
  match core.keyframeTrack id element with
  | some track =>
    if track.keys.isEmpty then core.standardValue id element
    else (track.valueAt time).getD (core.standardValue id element)
  | none => core.standardValue id element

/-! ### Array elements -/

variable (source target : ℕ)

/-- `move_element_value`. -/
def moveElementValue : NodeCore F :=
  match core.standardValues (id, toI32 source) with
  | none => core
  | some v =>
    { core with
      standardValues := Function.update
        (Function.update core.standardValues (id, toI32 source) none) (id, toI32 target) (some v) }

/-- `move_element_keyframes`. -/
def moveElementKeyframes : NodeCore F :=
  match core.keyframes.find? fun k => k.1 = id && k.2.1 = toI32 source with
  | none => core
  | some k =>
    { core with
      keyframes := setTrack id (toI32 target) k.2.2
        (core.keyframes.eraseP fun k => k.1 = id && k.2.1 = toI32 source) }

/-- `remove_element_keyframes`. -/
def removeElementKeyframes (element : ℕ) : NodeCore F :=
  { core with
    keyframes := core.keyframes.filter fun k => !(k.1 = id && k.2.1 = toI32 element) }

/-- Element `source` of the input becomes element `target`. -/
def moveElement : NodeCore F :=
  (core.moveElementValue id source target).moveElementKeyframes id source target

/-- The element of the input loses its value and its track. -/
def clearElement (element : ℕ) : NodeCore F :=
  let cleared := { core with
    standardValues := Function.update core.standardValues (id, toI32 element) none }
  cleared.removeElementKeyframes id element

variable (index : ℕ)

/-- `input_array_insert`: the elements from `index` on move up by one. -/
def inputArrayInsert : NodeCore F :=
  let grown := { core with
    inputs := modifyInput id (fun i => { i with arraySize := i.arraySize + 1 }) core.inputs }
  let size := grown.inputArraySize id
  let shifted := (List.range' (index + 1) (size - (index + 1))).reverse.foldl
    (fun c e => c.moveElement id (e - 1) e) grown
  shifted.clearElement id index

/-- `input_array_remove`: the elements behind `index` move down by one. -/
def inputArrayRemove : NodeCore F :=
  let size := core.inputArraySize id
  if size ≤ index then core
  else
    let shifted := (List.range' index (size - 1 - index)).foldl
      (fun c e => c.moveElement id (e + 1) e) (core.clearElement id index)
    let cut := shifted.clearElement id (size - 1)
    { cut with
      inputs := modifyInput id (fun i => { i with arraySize := i.arraySize - 1 }) cut.inputs }

/-! ### What the operations on array elements leave alone -/

@[simp] theorem links_moveElement : (core.moveElement id source target).links = core.links := by
  unfold moveElement moveElementValue moveElementKeyframes
  split <;> split <;> rfl

@[simp] theorem links_clearElement (element : ℕ) :
    (core.clearElement id element).links = core.links := rfl

private theorem links_foldl (src dst : ℕ → ℕ) (es : List ℕ) (core : NodeCore F) :
    (es.foldl (fun c e => c.moveElement id (src e) (dst e)) core).links = core.links := by
  induction es generalizing core with
  | nil => rfl
  | cons e es ih => rw [List.foldl_cons, ih, links_moveElement]

@[simp] theorem links_inputArrayInsert : (core.inputArrayInsert id index).links = core.links := by
  simp only [inputArrayInsert, links_clearElement]
  rw [links_foldl id (fun e => e - 1) fun e => e]

@[simp] theorem links_inputArrayRemove : (core.inputArrayRemove id index).links = core.links := by
  simp only [inputArrayRemove]
  split_ifs
  · rfl
  · rw [links_clearElement, links_foldl id (fun e => e + 1) fun e => e, links_clearElement]

end NodeCore

end Oak.Node
