import Oak.Node.Core

/-!
# Node behaviors

The trait `NodeBehavior` of `oak-node/src/node.rs`, as far as the graph and the evaluation walk
call it. A behavior type is any type with these functions; the source stores trait objects.
-/

namespace Oak.Node

open Oak.Core

/-- `NodeValueRow`: the evaluated inputs of a node, by row key. -/
abbrev NodeValueRow (F : Type*) := String → Option (NodeValue F)

/-- The trait `NodeBehavior`. -/
class NodeBehavior (F : outParam Type*) (β : Type*) where
  /-- Stable type id. -/
  typeId : β → String
  /-- Deep copy, unless the node cannot be copied. -/
  duplicate : β → NodeCore F → Option β
  /-- The elements of an array input that are live at a time; none for no restriction. -/
  activeElementsAtTime : β → String → Rational → List ℤ
  /-- The node an input is connected to at render time, where it is not the one of the edge. -/
  connectedRenderOutput : β → NodeCore F → String → ℤ → Option NodeId
  /-- The time at which an input is evaluated. -/
  inputTimeAdjustment : β → NodeCore F → String → ℤ → TimeRange → Bool → TimeRange
  /-- The outputs, pushed onto a table. -/
  value : β → NodeCore F → NodeValueRow F → Rational → NodeValueTable F → NodeValueTable F

/-- Rational numbers as floats: between keys they are interpolated linearly. -/
instance : Interpolate ℚ where
  interpolate before after time := match before.value, after.value with
    | .float a, .float b =>
      .float (a + (b - a) * ((time - before.time) / (after.time - before.time)))
    | value, _ => value

/-- `Plain`, the behavior of the tests of `graph.rs`: it has no output logic. Its floats are
rational numbers. -/
inductive Plain where
  | plain
  deriving DecidableEq, Repr

instance : NodeBehavior ℚ Plain where
  typeId _ := "org.olivevideoeditor.Olive.plain-test"
  duplicate b _ := some b
  activeElementsAtTime _ _ _ := []
  connectedRenderOutput _ _ _ _ := none
  inputTimeAdjustment _ _ _ _ range _ := range
  value _ _ _ _ table := table

end Oak.Node
