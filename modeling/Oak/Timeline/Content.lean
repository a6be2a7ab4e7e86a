import Oak.Timeline.Order

/-!
# The content of a track

The blocks of a track that are no gaps are its content. A clip shows media; where it shows them is
told by its place, and everything else about it is what it shows.
-/

namespace Oak.Timeline

open Oak.Core Oak.Node

variable {F β : Type*} {g : ProjectGraph F β} {x : NodeId} {b : Behavior F β}

/-- Whether a behavior is that of a gap. -/
def isGapBlock : Behavior F β → Bool
  | .gap _ => true
  | _ => false

theorem blockKind_eq_gap_iff (h : g.behaviorOf x = some b) :
    blockKind g x = .gap ↔ isGapBlock b = true := by
  rw [blockKind, h]
  cases b <;> simp [isGapBlock]

theorem isGapBlock_modifyCore (f : BlockCore F → BlockCore F) :
    isGapBlock (b.modifyCore f) = isGapBlock b := by
  cases b <;> rfl

variable (blocks : List (NodeId × Behavior F β))

/-- The blocks that are no gaps. -/
def content : List (NodeId × Behavior F β) :=
  blocks.filter fun p => !isGapBlock p.2

section Plays

variable [ClipSpeed F]

/-- The media time that a block shows; only clips have media. -/
def mediaTime (b : Behavior F β) (time : Rational) : Option Rational :=
  match b with
  | .clip c => some (c.mediaAt time)
  | _ => none

/-- A core without its place. -/
def unplaced (c : BlockCore F) : BlockCore F :=
  { c with
    range := ⟨0, 0⟩
    mediaIn := 0
    track := none }

/-- At `time` the blocks show the content of `b`, at the media time `media`. -/
def Plays (time : Rational) (b : Behavior F β) (media : Option Rational) : Prop :=
  ∃ p ∈ blocks, isGapBlock p.2 = false ∧ inOf p.2 ≤ time ∧ time < outOf p.2 ∧
    p.2.modifyCore unplaced = b.modifyCore unplaced ∧ mediaTime p.2 time = media

end Plays

end Oak.Timeline
