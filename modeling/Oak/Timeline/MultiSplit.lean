import Oak.Timeline.Split

/-!
# Splitting several blocks at several times

`BlockSplitPreservingLinksCommand` of `oak-timeline/src/undosplit.rs`. Time after time, every block
that the time is strictly inside of is split there. At the end the halves of linked blocks that were
split at the same time are linked.
-/

namespace Oak.Timeline

open Oak.Core Oak.Node

variable {F β : Type*}

/-- `BlockSplitPreservingLinksCommand`. -/
structure BlockSplitPreservingLinksCommand (F β : Type*) where
  blocks : List NodeId
  times : List Rational
  commands : List (BlockSplitCommand F β)
  /-- For every time and block the second half, if the block was split there. -/
  splits : List (List (Option NodeId))

namespace BlockSplitPreservingLinksCommand

/-- `new`. -/
def new (blocks : List NodeId) (times : List Rational) : BlockSplitPreservingLinksCommand F β :=
  ⟨blocks, times, [], []⟩

/-- The halves of two blocks are linked if the blocks are. -/
def linkHalves (g : ProjectGraph F β) (p q : NodeId × Option NodeId) : ProjectGraph F β :=
  if g.areLinked p.1 q.1 then
    match p.2, q.2 with
    | some a, some b => (g.link a b).1
    | _, _ => g
  else g

/-- Every pair of blocks with their halves at one time. -/
def linkRow : List (NodeId × Option NodeId) → ProjectGraph F β → ProjectGraph F β
  | [], g => g
  | p :: ps, g => linkRow ps (ps.foldl (linkHalves · p) g)

variable [ClipSpeed F] [NodeBehavior F β] (order : List NodeId → List NodeId)

/-- The blocks are split at `time`: the second halves and the commands. -/
def splitRow (time : Rational) : List NodeId → ProjectGraph F β →
    (List (Option NodeId) × List (BlockSplitCommand F β)) × ProjectGraph F β
  | [], g => (([], []), g)
  | block :: blocks, g =>
    if blockIn g block < time ∧ time < blockOut g block then
      let prepared := (BlockSplitCommand.new block time).prepare order g
      let split := prepared.1.redo order prepared.2
      let others := splitRow time blocks split.2
      ((split.1.newBlock :: others.1.1, split.1 :: others.1.2), others.2)
    else
      let others := splitRow time blocks g
      ((none :: others.1.1, others.1.2), others.2)

/-- The blocks are split at every time. -/
def splitRows (blocks : List NodeId) : List Rational → ProjectGraph F β →
    (List (List (Option NodeId)) × List (BlockSplitCommand F β)) × ProjectGraph F β
  | [], g => (([], []), g)
  | time :: times, g =>
    let row := splitRow order time blocks g
    let others := splitRows blocks times row.2
    ((row.1.1 :: others.1.1, row.1.2 ++ others.1.2), others.2)

variable (c : BlockSplitPreservingLinksCommand F β)

/-- `prepare`. -/
def prepare (g : ProjectGraph F β) : BlockSplitPreservingLinksCommand F β × ProjectGraph F β :=
  let rows := splitRows order c.blocks c.times g
  ({ c with
      commands := c.commands ++ rows.1.2
      splits := rows.1.1 },
    rows.1.1.foldl (fun g row => linkRow (c.blocks.zip row) g) rows.2)

/-- The children are redone in order. -/
def redoAll : List (BlockSplitCommand F β) → ProjectGraph F β →
    List (BlockSplitCommand F β) × ProjectGraph F β
  | [], g => ([], g)
  | c :: cs, g =>
    let first := c.redo order g
    let others := redoAll cs first.2
    (first.1 :: others.1, others.2)

/-- `redo`. -/
def redo (g : ProjectGraph F β) : BlockSplitPreservingLinksCommand F β × ProjectGraph F β :=
  if c.commands.isEmpty then c.prepare order g
  else
    let run := redoAll order c.commands g
    ({ c with commands := run.1 }, run.2)

omit [ClipSpeed F] [NodeBehavior F β] in
/-- The children are undone in reverse. -/
def undoAll : List (BlockSplitCommand F β) → ProjectGraph F β →
    List (BlockSplitCommand F β) × ProjectGraph F β
  | [], g => ([], g)
  | c :: cs, g =>
    let others := undoAll cs g
    let first := c.undo others.2
    (first.1 :: others.1, first.2)

omit [ClipSpeed F] [NodeBehavior F β] in
/-- `undo`. -/
def undo (g : ProjectGraph F β) : BlockSplitPreservingLinksCommand F β × ProjectGraph F β :=
  let run := undoAll c.commands g
  ({ c with commands := run.1 }, run.2)

end BlockSplitPreservingLinksCommand

end Oak.Timeline
