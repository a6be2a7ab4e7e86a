import Oak.Core.TimeRange
import Oak.Node.Id

/-!
# Node values

`oak-node/src/value.rs`: the closed set of values that inputs carry and outputs produce, and the
table of one node's outputs. The 64-bit floats of the source are a type `F`; a texture is the
address behind its handle.
-/

namespace Oak.Node

open Oak.Core

/-- `ValueType`. -/
inductive ValueType where
  | none | int | float | color | text | boolean | texture | samples | rational | vec2 | vec3
  | vec4 | matrix | combo | strCombo | videoParams | audioParams | binary | nodeRef | pushButton
  | parametric
  deriving DecidableEq, Repr

/-- `SampleBuffer`: format discriminant, channel count, samples per channel and the raw data. -/
structure SampleBuffer where
  format : ℤ
  channels : ℕ
  sampleCount : ℕ
  data : List UInt8
  deriving DecidableEq, Repr

/-- `VideoParams` of a value. -/
structure VideoParams where
  width : ℤ
  height : ℤ
  frameRate : Rational
  pixelFormat : ℤ
  channels : ℤ
  interlaced : Bool
  deriving DecidableEq, Repr

/-- `AudioParams` of a value. -/
structure AudioParams where
  sampleRate : ℤ
  channelLayout : ℕ
  format : ℤ
  deriving DecidableEq, Repr

/-- `NodeValue`. -/
inductive NodeValue (F : Type*) where
  | none
  | int (i : ℤ)
  | float (f : F)
  | color (r g b a : F)
  | text (s : String)
  | boolean (b : Bool)
  | texture (handle : ℕ)
  | samples (buffer : SampleBuffer)
  | rational (r : Rational)
  | vec2 (x y : F)
  | vec3 (x y z : F)
  | vec4 (x y z w : F)
  | matrix (rows : List F)
  | vec4Array (points : List (F × F × F × F))
  | combo (i : ℤ)
  | strCombo (s : String)
  | videoParams (p : VideoParams)
  | audioParams (p : AudioParams)
  | binary (bytes : List UInt8)
  | nodeRef (id : NodeId)
  | pushButton
  deriving DecidableEq, Repr

/-- `ValueType::can_interpolate`. -/
def ValueType.canInterpolate : ValueType → Bool
  | .float | .vec2 | .vec3 | .vec4 | .color | .rational => true
  | _ => false

namespace NodeValue

variable {F : Type*}

/-- `NodeValue::value_type`. -/
def valueType : NodeValue F → ValueType
  | .none => .none
  | .int _ => .int
  | .float _ => .float
  | .color .. => .color
  | .text _ => .text
  | .boolean _ => .boolean
  | .texture _ => .texture
  | .samples _ => .samples
  | .rational _ => .rational
  | .vec2 .. => .vec2
  | .vec3 .. => .vec3
  | .vec4 .. => .vec4
  | .matrix _ => .matrix
  | .vec4Array _ => .vec4
  | .combo _ => .combo
  | .strCombo _ => .strCombo
  | .videoParams _ => .videoParams
  | .audioParams _ => .audioParams
  | .binary _ => .binary
  | .nodeRef _ => .nodeRef
  | .pushButton => .pushButton

/-- `NodeValue::can_interpolate`. -/
def canInterpolate (v : NodeValue F) : Bool := v.valueType.canInterpolate

end NodeValue

/-- `NodeValueTable`: the outputs of one evaluation, with optional tags, in push order. -/
@[ext] structure NodeValueTable (F : Type*) where
  rows : List (ValueType × NodeValue F × Option String)
  deriving DecidableEq, Repr

namespace NodeValueTable

variable {F : Type*}

/-- The default table. -/
def empty : NodeValueTable F := ⟨[]⟩

/-- `push`. -/
def push (t : NodeValueTable F) (ty : ValueType) (value : NodeValue F) (tag : Option String) :
    NodeValueTable F := ⟨t.rows ++ [(ty, value, tag)]⟩

/-- `get`: the value of type `ty` that was pushed last. -/
def get (t : NodeValueTable F) (ty : ValueType) : Option (NodeValue F) :=
  (t.rows.reverse.find? fun row => row.1 = ty).map fun row => row.2.1

end NodeValueTable

end Oak.Node
