import Mathlib.Data.Prod.Lex
import Mathlib.Order.Lattice.Nat

/-!
# Node ids

`oak-node/src/id.rs`: a node id is a slot of the arena with the generation of the slot's
occupant. Both fields are 32-bit.
-/

namespace Oak.Node

/-- The number of values of a `u32`. -/
def u32Size : ℕ := 2 ^ 32

/-- `NodeId`. -/
@[ext] structure NodeId where
  index : ℕ
  generation : ℕ
  deriving DecidableEq, Repr

namespace NodeId

/-- The derived order: by slot, then by generation. -/
instance : LinearOrder NodeId :=
  LinearOrder.lift' (fun a => toLex (a.index, a.generation)) fun a b h => by
    obtain ⟨i, g⟩ := a
    obtain ⟨j, k⟩ := b
    simpa using h

/-- `NodeId::INVALID`, which names no node. -/
def invalid : NodeId := ⟨u32Size - 1, 0⟩

/-- `valid`: the id names a slot, which the largest index does not. -/
def valid (id : NodeId) : Bool := id.index < u32Size - 1

end NodeId

end Oak.Node
