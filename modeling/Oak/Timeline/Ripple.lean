import Oak.Lib.Lane
import Oak.Timeline.Common
import Oak.Timeline.Split

/-!
# Clearing an area of a track

`TrackRippleRemoveAreaCommand` of `oak-timeline/src/undoripple.rs`. The command finds the blocks
that meet the area: the first of them is trimmed at its end, or is split when it spans the area;
blocks inside the area are removed; the block at the end of the area is trimmed at its beginning.

* `prepare` derives the operations, `redo` and `undo` run them.
* `Sorted blocks` says that the blocks of a track follow each other without overlap.
* `Area g track t head mid cut rest a b` says how the blocks of a track lie around an area.

## Main results

* `nearest_eq`: the nearest block before or at a time.
* `collect_eq`: the blocks that the loop of `prepare` meets.
-/

namespace Oak.Timeline

open Oak.Core Oak.Lib Oak.Node Oak.Undo

variable {F β : Type*}

/-- `TrimOperation`. -/
structure TrimOperation where
  block : NodeId
  oldLength : Rational
  newLength : Rational
  deriving DecidableEq, Repr

/-- `RemoveOperation`. -/
structure RemoveOperation where
  block : NodeId
  /-- The predecessor, behind which the block is put back. -/
  before : Option NodeId
  deriving DecidableEq, Repr

/-- `TrackRippleRemoveAreaCommand`. -/
structure TrackRippleRemoveAreaCommand (F β : Type*) where
  track : NodeId
  range : TimeRange
  prepared : Bool
  trimOut : Option TrimOperation
  removals : List RemoveOperation
  trimIn : Option TrimOperation
  insertPrevious : Option NodeId
  allowSplittingGaps : Bool
  spliceSplitCommand : Option (BlockSplitCommand F β)
  removeBlockCommands : List (UndoCommand (RemoveNodeCommand F β))

namespace TrackRippleRemoveAreaCommand

/-- `new`, with the flag that `set_allow_splitting_gaps` sets. -/
def new (track : NodeId) (range : TimeRange) (allowSplittingGaps : Bool) :
    TrackRippleRemoveAreaCommand F β :=
  ⟨track, range, false, none, [], none, none, allowSplittingGaps, none, []⟩

/-- `is_gap`. -/
def isGap (g : ProjectGraph F β) (b : NodeId) : Bool := blockKind g b = .gap

/-- The loop of `prepare`, from the block `next` on. On a track that holds a block twice the loop
of the source may not end; `fuel` bounds its steps. -/
def collect (g : ProjectGraph F β) (out : Rational) :
    ℕ → Option NodeId → List RemoveOperation × Option TrimOperation
  | 0, _ => ([], none)
  | _, none => ([], none)
  | fuel + 1, some nx =>
    if out ≤ blockIn g nx then ([], none)
    else if out < blockOut g nx then
      ([], some ⟨nx, blockLength g nx, blockLength g nx - (out - blockIn g nx)⟩)
    else
      let removal := ⟨nx, blockPrevious g nx⟩
      if blockOut g nx = out then ([removal], none)
      else
        let others := collect g out fuel (blockNext g nx)
        (removal :: others.1, others.2)

/-- `prepare`. -/
def prepare (c : TrackRippleRemoveAreaCommand F β) (g : ProjectGraph F β) :
    TrackRippleRemoveAreaCommand F β :=
  let c := { c with
    trimOut := none
    removals := []
    trimIn := none
    insertPrevious := none
    spliceSplitCommand := none }
  let in_ := c.range.in_
  let out := c.range.out
  match trackNearestBlockBeforeOrAt g c.track in_ with
  | none => c
  | some fb =>
    let outTrimmed := blockIn g fb < in_
    let inTrimmed := out < blockOut g fb
    let c := { c with insertPrevious := if outTrimmed then some fb else blockPrevious g fb }
    let length := blockLength g fb
    let c :=
      if outTrimmed ∧ inTrimmed then
        -- gaps are not split unless the caller says so
        if c.allowSplittingGaps = false ∧ isGap g fb then
          { c with trimOut := some ⟨fb, length, length - c.range.length⟩ }
        else { c with spliceSplitCommand := some (.new fb in_) }
      else
        let c :=
          if outTrimmed then
            { c with trimOut := some ⟨fb, length, length - (blockOut g fb - in_)⟩ }
          else if inTrimmed then
            { c with trimIn := some ⟨fb, length, length - (out - blockIn g fb)⟩ }
          else { c with removals := [⟨fb, blockPrevious g fb⟩] }
        if inTrimmed then c
        else
          let count := ((trackBehaviorOf g c.track).map fun t => t.blocks.length).getD 0
          let found := collect g out count (blockNext g fb)
          { c with
            removals := c.removals ++ found.1
            trimIn := found.2 }
    { c with prepared := true }

/-- The trims of a run of the command; `length` selects the lengths to set. -/
def trims (c : TrackRippleRemoveAreaCommand F β) (length : TrimOperation → Rational)
    (g : ProjectGraph F β) : ProjectGraph F β :=
  let g := c.trimOut.elim g fun t => blockSetLengthAndMediaIn g t.block (length t)
  c.trimIn.elim g fun t => blockSetLengthAndMediaOut g t.block (length t)

/-- `block_can_be_removed`. -/
def blockCanBeRemoved (g : ProjectGraph F β) (block : NodeId) : Bool := nodeCanBeRemoved g block

/-- `redo`. -/
def redo [ClipSpeed F] [NodeBehavior F β] (order : List NodeId → List NodeId)
    (c : TrackRippleRemoveAreaCommand F β) (g : ProjectGraph F β) :
    TrackRippleRemoveAreaCommand F β × ProjectGraph F β :=
  let c := if c.prepared then c else c.prepare g
  match c.spliceSplitCommand with
  | some cmd =>
    let split := cmd.redo order g
    let c := { c with spliceSplitCommand := some split.1 }
    match split.1.newBlock with
    | none => (c, split.2)
    | some new =>
      let length := blockLength split.2 new - (c.range.out - blockIn split.2 new)
      (c, blockSetLengthAndMediaIn split.2 new length)
  | none =>
    let g := c.trims TrimOperation.newLength g
    if c.removals.isEmpty then (c, g)
    else
      let g := c.removals.foldl (fun g op => trackRippleRemoveBlock g c.track op.block) g
      let commands :=
        if c.removeBlockCommands.isEmpty then
          (c.removals.filter fun op => blockCanBeRemoved g op.block).map fun op =>
            createRemoveCommand op.block
        else c.removeBlockCommands
      let run := UndoCommand.redoAll commands g
      ({ c with removeBlockCommands := run.1 }, run.2)

/-- `undo`. -/
def undo (c : TrackRippleRemoveAreaCommand F β) (g : ProjectGraph F β) :
    TrackRippleRemoveAreaCommand F β × ProjectGraph F β :=
  match c.spliceSplitCommand with
  | some cmd =>
    let split := cmd.undo g
    ({ c with spliceSplitCommand := some split.1 }, split.2)
  | none =>
    let g := c.trims TrimOperation.oldLength g
    let run := UndoCommand.undoAll c.removeBlockCommands g
    ({ c with removeBlockCommands := run.1 },
      c.removals.foldl (fun g op => trackInsertBlockAfter g c.track op.block op.before) run.2)

end TrackRippleRemoveAreaCommand

/-! ### Blocks in order -/

/-- The in point of a block. -/
def inOf (b : Behavior F β) : Rational := (b.blockCore.map BlockCore.in_).getD 0

/-- The out point of a block. -/
def outOf (b : Behavior F β) : Rational := (b.blockCore.map BlockCore.out).getD 0

/-- The blocks of a track follow each other without overlap, and none is empty. -/
def Sorted (blocks : List (NodeId × Behavior F β)) : Prop :=
  (∀ p ∈ blocks, inOf p.2 < outOf p.2) ∧ blocks.Pairwise fun p q => outOf p.2 ≤ inOf q.2

variable {g : ProjectGraph F β} {track x : NodeId} {t : TrackBehavior F} {b : Behavior F β}
  {core : BlockCore F} {blocks pre post : List (NodeId × Behavior F β)} {time : Rational}

theorem sorted_cons {p : NodeId × Behavior F β} : Sorted (p :: blocks) ↔
    inOf p.2 < outOf p.2 ∧ Sorted blocks ∧ ∀ q ∈ blocks, outOf p.2 ≤ inOf q.2 := by
  simp only [Sorted, List.forall_mem_cons, List.pairwise_cons]
  tauto

theorem sorted_append : Sorted (pre ++ post) ↔
    Sorted pre ∧ Sorted post ∧ ∀ p ∈ pre, ∀ q ∈ post, outOf p.2 ≤ inOf q.2 := by
  simp only [Sorted, List.forall_mem_append, List.pairwise_append]
  tauto

theorem Sorted.sublist {blocks' : List (NodeId × Behavior F β)} (h : Sorted blocks)
    (hsub : blocks'.Sublist blocks) : Sorted blocks' :=
  ⟨fun p hp => h.1 p (hsub.subset hp), h.2.sublist hsub⟩

theorem inOf_eq (h : b.blockCore = some core) : inOf b = core.in_ := by
  rw [inOf, h, Option.map_some, Option.getD_some]

theorem outOf_eq (h : b.blockCore = some core) : outOf b = core.out := by
  rw [outOf, h, Option.map_some, Option.getD_some]

theorem length_eq_outOf_sub (h : b.blockCore = some core) : core.length = outOf b - inOf b := by
  rw [BlockCore.length_eq, ← inOf_eq h, ← outOf_eq h]

theorem blockIn_eq_inOf (h : g.behaviorOf x = some b) : blockIn g x = inOf b := by
  rw [blockIn, blockCoreOf_eq h, inOf]

theorem blockOut_eq_outOf (h : g.behaviorOf x = some b) : blockOut g x = outOf b := by
  rw [blockOut, blockCoreOf_eq h, outOf]

theorem blockLength_eq_sub (h : g.behaviorOf x = some b) :
    blockLength g x = outOf b - inOf b := by
  rw [blockLength, blockCoreOf_eq h, inOf, outOf]
  rcases b.blockCore with _ | core
  · exact (sub_self 0).symm
  · rfl

/-! ### The nearest block -/

/-- The nearest block before or at a time is the last one that begins before or at it. -/
theorem nearestBefore_eq {before : Option NodeId} (h : Sorted (pre ++ post))
    (hcore : ∀ p ∈ pre ++ post, ∃ core, blockCoreOf g p.1 = some core ∧
      p.2.blockCore = some core)
    (hpre : ∀ p ∈ pre, inOf p.2 ≤ time) (hpost : ∀ p ∈ post, time < inOf p.2) :
    nearestBefore g time ((pre ++ post).map Prod.fst) before =
      ((pre.map Prod.fst).getLast?).or before := by
  induction pre generalizing before with
  | nil =>
    clear hpre
    simp only [List.nil_append, List.map_nil, List.getLast?_nil, Option.none_or] at *
    induction post with
    | nil => rfl
    | cons p post ih =>
      obtain ⟨hp, hrest, -⟩ := sorted_cons.1 h
      obtain ⟨⟨core, hg, hb⟩, hcores⟩ := List.forall_mem_cons.1 hcore
      obtain ⟨hlt, hpost⟩ := List.forall_mem_cons.1 hpost
      rw [inOf_eq hb] at hlt hp
      rw [outOf_eq hb] at hp
      simp only [List.map_cons, nearestBefore, hg]
      rw [if_neg fun hover => absurd hover.1 (not_le.2 hlt), if_neg (not_le.2 (hlt.trans hp))]
      exact ih hpost hrest hcores
  | cons p pre ih =>
    rw [List.cons_append] at h hcore
    obtain ⟨hp, hrest, hbehind⟩ := sorted_cons.1 h
    obtain ⟨⟨core, hg, hb⟩, hcores⟩ := List.forall_mem_cons.1 hcore
    obtain ⟨hle, hpre⟩ := List.forall_mem_cons.1 hpre
    have hin := inOf_eq hb
    have hout := outOf_eq hb
    simp only [List.cons_append, List.map_cons, nearestBefore, hg]
    by_cases hover : time < core.out
    · -- the block lies over the time, and all others begin behind it
      rw [if_pos ⟨hin ▸ hle, hover⟩]
      have hnil : pre = [] := by
        rcases pre with _ | ⟨q, pre⟩
        · rfl
        · have hq := hbehind q (by simp)
          have hqle := hpre q List.mem_cons_self
          rw [hout] at hq
          exact absurd (hover.trans_le (hq.trans hqle)) (lt_irrefl _)
      rw [hnil]
      rfl
    · rw [if_neg fun hboth => hover hboth.2, if_pos (not_lt.1 hover), ih hrest hcores hpre]
      rcases List.eq_nil_or_concat' pre with rfl | ⟨init, last, rfl⟩
      · rfl
      · rw [List.map_append, List.map_singleton, ← List.cons_append, List.getLast?_concat,
          List.getLast?_concat]
        rfl

theorem Track.nearest_eq (h : Track g track t (pre ++ post)) (hsorted : Sorted (pre ++ post))
    (hpre : ∀ p ∈ pre, inOf p.2 ≤ time) (hpost : ∀ p ∈ post, time < inOf p.2) :
    trackNearestBlockBeforeOrAt g track time = (pre.map Prod.fst).getLast? := by
  rw [trackNearestBlockBeforeOrAt, trackBehaviorOf_eq_some_iff.2 h.behavior, Option.bind_some,
    h.order, nearestBefore_eq hsorted (fun p hp => ?_) hpre hpost, Option.or_none]
  obtain ⟨hb, core, hcore, -⟩ := h.block p hp
  exact ⟨core, by rw [blockCoreOf_eq hb, hcore], hcore⟩

/-- A block that begins before or at a time, while all blocks behind it begin later. -/
theorem Track.nearest_eq_some (h : Track g track t (pre ++ (x, b) :: post))
    (hsorted : Sorted (pre ++ (x, b) :: post)) (hin : inOf b ≤ time)
    (hpost : ∀ p ∈ post, time < inOf p.2) :
    trackNearestBlockBeforeOrAt g track time = some x := by
  obtain ⟨hspre, -, hbehind⟩ := sorted_append.1 hsorted
  rw [List.append_cons] at h hsorted
  rw [h.nearest_eq hsorted (fun p hp => ?_) hpost]
  · simp
  · rcases List.mem_append.1 hp with hp | hp
    · exact ((hspre.1 p hp).le.trans (hbehind p hp (x, b) List.mem_cons_self)).trans hin
    · obtain rfl := List.mem_singleton.1 hp
      exact hin

/-! ### The blocks around an area -/

/-- How blocks lie around the area from `a` to `c`: `head` begins before it and ends before its
end, `mid` lies in it, a block of `cut` begins in it and ends behind it, and `rest` begins behind
it. -/
structure Area (head mid cut rest : List (NodeId × Behavior F β)) (a c : Rational) : Prop where
  head_in : ∀ p ∈ head, inOf p.2 < a
  head_out : ∀ p ∈ head, outOf p.2 ≤ c
  mid_in : ∀ p ∈ mid, a ≤ inOf p.2
  mid_out : ∀ p ∈ mid, inOf p.2 < c ∧ outOf p.2 ≤ c
  cut_in : ∀ p ∈ cut, a ≤ inOf p.2
  cut_out : ∀ p ∈ cut, inOf p.2 < c ∧ c < outOf p.2
  cut_length : cut.length ≤ 1
  rest_in : ∀ p ∈ rest, c ≤ inOf p.2

/-- Blocks in order lie around an area, unless one of them spans it. -/
theorem exists_area (h : Sorted blocks) (a c : Rational) :
    (∃ pre p post, blocks = pre ++ p :: post ∧ inOf p.2 < a ∧ c < outOf p.2) ∨
      ∃ head mid cut rest, blocks = head ++ (mid ++ (cut ++ rest)) ∧
        Area head mid cut rest a c := by
  have hin : blocks.Pairwise fun p q => inOf p.2 < inOf q.2 :=
    h.2.imp_of_mem fun hp _ hpq => (h.1 _ hp).trans_le hpq
  obtain ⟨head, tail, rfl, hhead, htail⟩ := Segment.exists_append_of_pairwise
    (fun p : NodeId × Behavior F β => inOf p.2 < a) (hin.imp fun hpq hq => hpq.trans hq)
  obtain ⟨hshead, hstail, hbehind⟩ := sorted_append.1 h
  by_cases hspan : ∃ p ∈ head, c < outOf p.2
  · obtain ⟨p, hp, hout⟩ := hspan
    obtain ⟨pre, post, rfl⟩ := List.append_of_mem hp
    exact .inl ⟨pre, p, post ++ tail, by simp, hhead p hp, hout⟩
  · rw [List.pairwise_append] at hin
    obtain ⟨inside, rest, rfl, hinside, hrest⟩ := Segment.exists_append_of_pairwise
      (fun p : NodeId × Behavior F β => inOf p.2 < c) (hin.2.1.imp fun hpq hq => hpq.trans hq)
    obtain ⟨hsinside, -, -⟩ := sorted_append.1 hstail
    obtain ⟨mid, cut, rfl, hmid, hcut⟩ := Segment.exists_append_of_pairwise
      (fun p : NodeId × Behavior F β => outOf p.2 ≤ c) (hsinside.2.imp_of_mem fun _ hq hpq hqc =>
        hpq.trans ((hsinside.1 _ hq).le.trans hqc))
    refine .inr ⟨head, mid, cut, rest, by simp, hhead, fun p hp => ?_, fun p hp => ?_,
      fun p hp => ?_, fun p hp => ?_, fun p hp => ?_, ?_, fun p hp => ?_⟩
    · exact not_lt.1 fun hout => hspan ⟨p, hp, hout⟩
    · exact not_lt.1 (htail p (by simp [hp]))
    · exact ⟨hinside p (by simp [hp]), hmid p hp⟩
    · exact not_lt.1 (htail p (by simp [hp]))
    · exact ⟨hinside p (by simp [hp]), not_le.1 (hcut p hp)⟩
    · rcases cut with _ | ⟨p, _ | ⟨q, cut⟩⟩
      · simp
      · simp
      · -- two blocks cannot both end behind the area and begin in it
        have hpq := (sorted_append.1 hsinside).2.1
        rw [sorted_cons] at hpq
        have hp := not_le.1 (hcut p (by simp))
        have hq := hinside q (by simp)
        have hle := hpq.2.2 q (by simp)
        exact absurd (hp.trans_le (hle.trans hq.le)) (lt_irrefl _)
    · exact not_lt.1 (hrest p hp)

/-- The removals of blocks that follow each other behind `before`. -/
def removalsOf : Option NodeId → List (NodeId × Behavior F β) → List RemoveOperation
  | _, [] => []
  | before, p :: ps => ⟨p.1, before⟩ :: removalsOf (some p.1) ps

/-- The trim of a block at its beginning, to begin at `c`. -/
def trimInOf (c : Rational) (p : NodeId × Behavior F β) : TrimOperation :=
  ⟨p.1, outOf p.2 - inOf p.2, outOf p.2 - c⟩

/-- The trim of a block at its end, to end at `a`. -/
def trimOutOf (a : Rational) (p : NodeId × Behavior F β) : TrimOperation :=
  ⟨p.1, outOf p.2 - inOf p.2, a - inOf p.2⟩

/-- The loop of `prepare` removes the blocks in the area, and trims the block at its end. -/
theorem Track.collect_eq {mid cut rest : List (NodeId × Behavior F β)} {c : Rational} {fuel : ℕ}
    (h : Track g track t (pre ++ (mid ++ (cut ++ rest))))
    (hsorted : Sorted (mid ++ (cut ++ rest)))
    (hmid : ∀ p ∈ mid, inOf p.2 < c ∧ outOf p.2 ≤ c)
    (hcut : ∀ p ∈ cut, inOf p.2 < c ∧ c < outOf p.2) (hlength : cut.length ≤ 1)
    (hrest : ∀ p ∈ rest, c ≤ inOf p.2) (hfuel : mid.length < fuel) :
    TrackRippleRemoveAreaCommand.collect g c fuel
        (((mid ++ (cut ++ rest)).map Prod.fst).head?) =
      (removalsOf ((pre.map Prod.fst).getLast?) mid, cut.head?.map (trimInOf c)) := by
  induction mid generalizing pre fuel with
  | nil =>
    obtain ⟨fuel, rfl⟩ := Nat.exists_eq_succ_of_ne_zero (by omega : fuel ≠ 0)
    rw [List.nil_append] at h ⊢
    rcases cut with _ | ⟨p, cut⟩
    · rcases rest with _ | ⟨p, rest⟩
      · rfl
      · have hb := (h.block p (by simp)).1
        simp only [List.nil_append, List.map_cons, List.head?_cons,
          TrackRippleRemoveAreaCommand.collect, blockIn_eq_inOf hb]
        rw [if_pos (hrest p List.mem_cons_self)]
        rfl
    · have hb := (h.block p (by simp)).1
      obtain ⟨hin, hout⟩ := hcut p List.mem_cons_self
      simp only [List.cons_append, List.map_cons, List.head?_cons,
        TrackRippleRemoveAreaCommand.collect, blockIn_eq_inOf hb, blockOut_eq_outOf hb,
        blockLength_eq_sub hb]
      rw [if_neg (not_le.2 hin), if_pos hout, sub_sub_sub_cancel_right]
      rfl
  | cons p mid ih =>
    obtain ⟨fuel, rfl⟩ := Nat.exists_eq_succ_of_ne_zero (by omega : fuel ≠ 0)
    obtain ⟨x, b⟩ := p
    obtain ⟨⟨hin, hout⟩, hmid⟩ := List.forall_mem_cons.1 hmid
    rw [List.cons_append] at h hsorted
    obtain ⟨-, hsorted, hbehind⟩ := sorted_cons.1 hsorted
    have hb := h.behaviorOf
    have h' : Track g track t ((pre ++ [(x, b)]) ++ (mid ++ (cut ++ rest))) := by
      rw [← List.append_cons]
      exact h
    have hothers := ih h' hsorted hmid (by simpa using hfuel : mid.length < fuel)
    have hlast : ((pre ++ [(x, b)]).map Prod.fst).getLast? = some x := by simp
    rw [hlast] at hothers
    simp only [List.cons_append, List.map_cons, List.head?_cons,
      TrackRippleRemoveAreaCommand.collect, blockIn_eq_inOf hb, blockOut_eq_outOf hb,
      h.blockPrevious_eq, h.blockNext_eq, hothers]
    rw [if_neg (not_le.2 hin), if_neg (not_lt.2 hout)]
    split_ifs with heq
    · -- a block that ends with the area is the last one to meet it
      have hnone : ∀ q ∈ mid ++ (cut ++ rest), c ≤ inOf q.2 := fun q hq => by
        have hle := hbehind q hq
        rwa [heq] at hle
      have hmidnil : mid = [] := by
        rcases mid with _ | ⟨q, mid⟩
        · rfl
        · exact absurd (hnone q (by simp)) (not_le.2 (hmid q List.mem_cons_self).1)
      have hcutnil : cut = [] := by
        rcases cut with _ | ⟨q, cut⟩
        · rfl
        · exact absurd (hnone q (by simp)) (not_le.2 (hcut q List.mem_cons_self).1)
      rw [hmidnil, hcutnil]
      rfl
    · rfl

/-! ### What `prepare` derives -/

section Prepare

open TrackRippleRemoveAreaCommand

variable {head mid cut rest : List (NodeId × Behavior F β)} {range : TimeRange}
  (allow : Bool)

theorem prepare_of_lt (h : Track g track t blocks) (hsorted : Sorted blocks)
    (hlt : ∀ p ∈ blocks, range.in_ < inOf p.2) :
    (new track range allow : TrackRippleRemoveAreaCommand F β).prepare g =
      new track range allow := by
  rw [← List.nil_append blocks] at h hsorted
  have hnearest := h.nearest_eq hsorted (by simp) hlt
  rw [List.map_nil, List.getLast?_nil] at hnearest
  simp only [prepare, new, hnearest]

theorem prepare_of_span (h : Track g track t (pre ++ (x, b) :: post))
    (hsorted : Sorted (pre ++ (x, b) :: post)) (hrange : range.in_ < range.out)
    (hin : inOf b < range.in_) (hout : range.out < outOf b) :
    (new track range allow : TrackRippleRemoveAreaCommand F β).prepare g =
      if allow = false ∧ isGap g x then
        { new track range allow with
          prepared := true
          trimOut := some ⟨x, outOf b - inOf b, outOf b - inOf b - range.length⟩
          insertPrevious := some x }
      else
        { new track range allow with
          prepared := true
          insertPrevious := some x
          spliceSplitCommand := some (.new x range.in_) } := by
  have hb := h.behaviorOf
  have hnearest := h.nearest_eq_some hsorted hin.le fun p hp =>
    (hrange.trans hout).trans_le ((sorted_cons.1 (sorted_append.1 hsorted).2.1).2.2 p hp)
  simp only [prepare, new, hnearest, blockIn_eq_inOf hb, blockOut_eq_outOf hb,
    blockLength_eq_sub hb]
  rw [if_pos ⟨hin, hout⟩, if_pos hin]
  split_ifs <;> rfl

/-- The first of the blocks begins at `a`. -/
def FirstAt (a : Rational) (blocks : List (NodeId × Behavior F β)) : Prop :=
  ∃ p ∈ blocks.head?, inOf p.2 = a

/-- No block spans the area. -/
theorem prepare_of_area (h : Track g track t (head ++ (mid ++ (cut ++ rest))))
    (hsorted : Sorted (head ++ (mid ++ (cut ++ rest)))) (hrange : range.in_ < range.out)
    (harea : Area head mid cut rest range.in_ range.out)
    (hsome : ∃ p ∈ head ++ (mid ++ (cut ++ rest)), inOf p.2 ≤ range.in_) :
    ∃ trimOut previous, (new track range allow : TrackRippleRemoveAreaCommand F β).prepare g =
      ⟨track, range, true, trimOut, removalsOf ((head.map Prod.fst).getLast?) mid,
        cut.head?.map (trimInOf range.out), previous, allow, none, []⟩ ∧
      (FirstAt range.in_ (mid ++ (cut ++ rest)) ∧ trimOut = none ∨
        ¬ FirstAt range.in_ (mid ++ (cut ++ rest)) ∧
          ∃ init p, head = init ++ [p] ∧ trimOut = some (trimOutOf range.in_ p)) := by
  have hcount : (((trackBehaviorOf g track).map fun t => t.blocks.length).getD 0) =
      head.length + (mid.length + (cut.length + rest.length)) := by
    rw [trackBehaviorOf_eq_some_iff.2 h.behavior, Option.map_some, Option.getD_some, h.order]
    simp
  obtain ⟨-, hstail, -⟩ := sorted_append.1 hsorted
  by_cases hfirst : FirstAt range.in_ (mid ++ (cut ++ rest))
  · -- the nearest block begins with the area
    have hnearest {y : NodeId} {d : Behavior F β} {tail : List (NodeId × Behavior F β)}
        (heq : mid ++ (cut ++ rest) = (y, d) :: tail) (hin : inOf d = range.in_) :
        trackNearestBlockBeforeOrAt g track range.in_ = some y := by
      rw [heq] at h hsorted hstail
      obtain ⟨hd, -, hbehind⟩ := sorted_cons.1 hstail
      exact h.nearest_eq_some hsorted hin.le fun p hp =>
        (hin ▸ hd : range.in_ < outOf d).trans_le (hbehind p hp)
    rcases mid with _ | ⟨⟨y, d⟩, mid⟩
    · rcases cut with _ | ⟨⟨y, d⟩, cut⟩
      · obtain ⟨p, hp, hin⟩ := hfirst
        have hmem : p ∈ rest := List.mem_of_mem_head? hp
        exact absurd (harea.rest_in p hmem) (by rw [hin]; exact not_le.2 hrange)
      · -- and ends behind it
        obtain ⟨hd, hout⟩ : g.behaviorOf y = some d ∧ range.out < outOf d :=
          ⟨(h.block (y, d) (by simp)).1, (harea.cut_out (y, d) List.mem_cons_self).2⟩
        have hin : inOf d = range.in_ := by simpa [FirstAt] using hfirst
        have hlt : ¬ inOf d < range.in_ := by
          rw [hin]
          exact lt_irrefl _
        refine ⟨none, blockPrevious g y, ?_, .inl ⟨hfirst, rfl⟩⟩
        simp only [prepare, new, hnearest rfl hin, blockIn_eq_inOf hd, blockOut_eq_outOf hd,
          blockLength_eq_sub hd, hlt, hout, false_and, if_true, if_false, sub_sub_sub_cancel_right]
        rfl
    · -- and ends in it
      have hd := (h.block (y, d) (by simp)).1
      have hout := (harea.mid_out (y, d) List.mem_cons_self).2
      have hin : inOf d = range.in_ := by simpa [FirstAt] using hfirst
      have hlt : ¬ inOf d < range.in_ := by
        rw [hin]
        exact lt_irrefl _
      refine ⟨none, blockPrevious g y, ?_, .inl ⟨hfirst, rfl⟩⟩
      rw [List.length_cons] at hcount
      have hmore : mid.length < head.length + (mid.length + 1 + (cut.length + rest.length)) := by
        omega
      have hbehind : Track g track t ((head ++ [(y, d)]) ++ (mid ++ (cut ++ rest))) := by
        rw [← List.append_cons]
        exact h
      have hcollect := hbehind.collect_eq (sorted_cons.1 hstail).2.1
        (fun p hp => harea.mid_out p (List.mem_cons_of_mem _ hp)) harea.cut_out harea.cut_length
        harea.rest_in hmore
      have hnext : blockNext g y = ((mid ++ (cut ++ rest)).map Prod.fst).head? := h.blockNext_eq
      have hprevious : blockPrevious g y = (head.map Prod.fst).getLast? := h.blockPrevious_eq
      have hlast : ((head ++ [(y, d)]).map Prod.fst).getLast? = some y := by simp
      simp only [prepare, new, hnearest rfl hin, blockIn_eq_inOf hd, blockOut_eq_outOf hd,
        blockLength_eq_sub hd, hcount, hnext, hcollect, hlast, hlt, not_lt.2 hout, false_and,
        if_false, hprevious]
      rfl
  · -- the nearest block begins before the area, and is the last one to do so
    have hle : ∀ p ∈ mid ++ (cut ++ rest), range.in_ ≤ inOf p.2 := by
      intro p hp
      rcases List.mem_append.1 hp with hp | hp
      · exact harea.mid_in p hp
      rcases List.mem_append.1 hp with hp | hp
      · exact harea.cut_in p hp
      · exact hrange.le.trans (harea.rest_in p hp)
    have htail : ∀ p ∈ mid ++ (cut ++ rest), range.in_ < inOf p.2 := by
      rcases hlist : mid ++ (cut ++ rest) with _ | ⟨q, tail⟩
      · simp
      · rw [hlist] at hfirst hle hstail
        obtain ⟨hq, -, hbehind⟩ := sorted_cons.1 hstail
        have hqlt : range.in_ < inOf q.2 :=
          lt_of_le_of_ne (hle q List.mem_cons_self) fun heq => hfirst ⟨q, rfl, heq.symm⟩
        exact List.forall_mem_cons.2 ⟨hqlt, fun p hp => (hqlt.trans hq).trans_le (hbehind p hp)⟩
    rcases List.eq_nil_or_concat' head with rfl | ⟨init, ⟨y, d⟩, rfl⟩
    · obtain ⟨p, hp, hin⟩ := hsome
      exact absurd hin (not_le.2 (htail p (by simpa using hp)))
    · have hin := harea.head_in (y, d) (by simp)
      have hout := harea.head_out (y, d) (by simp)
      have hd := (h.block (y, d) (by simp)).1
      have hmore : mid.length <
          (init ++ [(y, d)]).length + (mid.length + (cut.length + rest.length)) := by
        rw [List.length_append, List.length_singleton]
        omega
      have hcollect := h.collect_eq hstail harea.mid_out harea.cut_out harea.cut_length
        harea.rest_in hmore
      rw [List.append_assoc] at h hsorted
      have hnear := h.nearest_eq_some hsorted hin.le htail
      have hnext : blockNext g y = ((mid ++ (cut ++ rest)).map Prod.fst).head? := h.blockNext_eq
      refine ⟨some (trimOutOf range.in_ (y, d)), some y, ?_, .inr ⟨hfirst, init, (y, d), rfl, rfl⟩⟩
      simp only [prepare, new, hnear, blockIn_eq_inOf hd, blockOut_eq_outOf hd,
        blockLength_eq_sub hd, hcount, hnext, hcollect, hin, not_lt.2 hout, and_false, if_true,
        if_false, List.nil_append, trimOutOf, sub_sub_sub_cancel_left]

end Prepare

end Oak.Timeline
