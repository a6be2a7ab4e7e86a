import Oak.Node.Copy
import Oak.Timeline.Util

/-!
# Splitting a block

`BlockSplitCommand` of `oak-timeline/src/undosplit.rs`: the block becomes the first half, and a copy
of it, with everything upstream of it, the second half. The command keeps the ids of the copies
and, between an `undo` and the next `redo`, their entries.

The copies are recorded in the order in which a hash map iterates over its keys; `order` stands for
it, and nothing here depends on it.

## Main results

* `BlockSplitCommand.redo_copied`, `BlockSplitCommand.redo_refused`: the first `redo`.
* `split_plays_iff`: exactly when a split preserves what plays.
-/

namespace Oak.Timeline

open Oak.Core Oak.Node

variable {F β : Type*}

/-- `BlockSplitCommand`. -/
structure BlockSplitCommand (F β : Type*) where
  block : NodeId
  point : Rational
  newBlock : Option NodeId
  /-- The copies, the second half first. -/
  copied : List NodeId
  /-- The edges into the copies, as source, target, input and element. -/
  copiedEdges : List (NodeId × NodeId × String × ℤ)
  /-- The entries of the copies while these are detached. -/
  detached : List (Option (NodeEntry F (Behavior F β)))
  oldLength : Rational

variable (c : BlockSplitCommand F β)

namespace BlockSplitCommand

/-- `new`. -/
def new (block : NodeId) (point : Rational) : BlockSplitCommand F β :=
  ⟨block, point, none, [], [], [], 0⟩

variable (g : ProjectGraph F β)

/-- `connect`, whose refusal is ignored. -/
def connectOk (edge : NodeId × NodeId × String × ℤ) : ProjectGraph F β :=
  match g.connect edge.1 edge.2.1 edge.2.2.1 edge.2.2.2 with
  | .ok g' => g'
  | .error _ => g

/-- `re_attach_subgraph`. -/
def reAttachSubgraph : BlockSplitCommand F β × ProjectGraph F β :=
  if c.detached.all Option.isNone then (c, g)
  else
    let added := (c.copied.zip c.detached).foldl (fun g p => blockAddToGraph g p.1 p.2) g
    ({ c with detached := c.detached.map fun _ => none }, c.copiedEdges.foldl connectOk added)

/-- The loop of `detach_subgraph`. -/
def detachAll : List (NodeId × Option (NodeEntry F (Behavior F β))) → ProjectGraph F β →
    List (Option (NodeEntry F (Behavior F β))) × ProjectGraph F β
  | [], g => ([], g)
  | (id, none) :: rest, g =>
    let taken := blockRemoveFromGraph g id
    let others := detachAll rest taken.2
    (taken.1 :: others.1, others.2)
  | (_, some entry) :: rest, g =>
    let others := detachAll rest g
    (some entry :: others.1, others.2)

/-- `detach_subgraph`. -/
def detachSubgraph : BlockSplitCommand F β × ProjectGraph F β :=
  let detached := detachAll (c.copied.zip c.detached) g
  ({ c with detached := detached.1 }, detached.2)

variable (order : List NodeId → List NodeId)

/-- The copies but for `id`; items stand for themselves. -/
def otherCopies (g : ProjectGraph F β) (created : NodeId → Option NodeId) (id : NodeId) :
    List NodeId :=
  (order (g.nodeIds.filter fun n => (created n).isSome)).filterMap fun old =>
    (created old).bind fun new => if old ≠ new ∧ new ≠ id then some new else none

/-- The edges into the copies. -/
def edgesInto (copied : List NodeId) : List (NodeId × NodeId × String × ℤ) :=
  copied.flatMap fun node => (g.inputConnections node).map fun e => (e.1, node, e.2.1, e.2.2)

variable [ClipSpeed F] [NodeBehavior F β]

/-- `prepare`. -/
def prepare (c : BlockSplitCommand F β) (g : ProjectGraph F β) :
    BlockSplitCommand F β × ProjectGraph F β :=
  if c.newBlock.isSome then (c, g)
  else
    match g.copyNodeAndDependencyGraphMinusItems c.block with
    | (none, s) => (c, s.graph)
    | (some id, s) =>
      let copied := id :: otherCopies order g s.created id
      ({ c with
          newBlock := some id
          copied := copied
          copiedEdges := edgesInto s.graph copied
          detached := copied.map fun _ => none }, s.graph)

/-- `redo`. -/
def redo (c : BlockSplitCommand F β) (g : ProjectGraph F β) :
    BlockSplitCommand F β × ProjectGraph F β :=
  let (c, g) := c.prepare order g
  let (c, g) := c.reAttachSubgraph g
  let c := { c with oldLength := blockLength g c.block }
  let firstHalfLength := c.point - blockIn g c.block
  let secondHalfLength := blockOut g c.block - c.point
  match c.newBlock with
  | none => (c, g)
  | some newBlock =>
    let g := blockSetLengthAndMediaIn g c.block firstHalfLength
    let g := blockSetLengthAndMediaOut g newBlock secondHalfLength
    match blockTrack g c.block with
    | none => (c, g)
    | some track => (c, trackInsertBlockAfter g track newBlock (some c.block))

omit [ClipSpeed F] [NodeBehavior F β] in
/-- `undo`. -/
def undo : BlockSplitCommand F β × ProjectGraph F β :=
  let restored :=
    match blockTrack g c.block with
    | none => g
    | some track =>
      let g := blockSetLengthAndMediaIn g c.block c.oldLength
      c.newBlock.elim g fun newBlock => trackRippleRemoveBlock g track newBlock
  c.detachSubgraph restored

end BlockSplitCommand

/-! ### The first redo -/

variable {s : Graph.CopyState F (Behavior F β)}

section Redo

variable [ClipSpeed F] [NodeBehavior F β] (order : List NodeId → List NodeId)

theorem duplicate_block {b : Behavior F β} {core : BlockCore F} (h : b.blockCore = some core)
    (node : NodeCore F) : NodeBehavior.duplicate b node = some b := by
  cases b <;> first | rfl | exact absurd h (by simp [Behavior.blockCore])

/-- The second half of a block that is split at `point`. -/
def secondHalf (point : Rational) (c : BlockCore F) : BlockCore F :=
  { c with
    range := ⟨point, c.out⟩
    mediaIn := point }

/-- The first half. -/
def firstHalf (point : Rational) (c : BlockCore F) : BlockCore F :=
  { c with range := ⟨c.in_, point⟩ }

/-- What can be split: a block on a track of a sound graph, which is no item. -/
structure Splittable (g : ProjectGraph F β) (carried : List (NodeId × NodeId)) (track : NodeId)
    (t : TrackBehavior F) (pre : List (NodeId × Behavior F β)) (x : NodeId) (b : Behavior F β)
    (post : List (NodeId × Behavior F β)) : Prop where
  sound : g.Sound carried
  room : g.HasRoom
  track : Track g track t (pre ++ (x, b) :: post)
  notItem : ∀ entry, g.get x = some entry → entry.core.flags &&& NodeFlags.isItem = 0

variable {g : ProjectGraph F β} {carried : List (NodeId × NodeId)} {track x : NodeId}
  {t : TrackBehavior F} {pre post : List (NodeId × Behavior F β)} {b : Behavior F β}
  {core : BlockCore F}

theorem Splittable.copy (h : Splittable g carried track t pre x b post) :
    ∃ new s, Graph.Copying g carried s ∧ s.created x = some new ∧ g.get new = none ∧
      s.graph.behaviorOf new = some b ∧
      (g.Copyable x → g.copyNodeAndDependencyGraphMinusItems x = (some new, s)) ∧
      (¬ g.Copyable x → g.copyNodeAndDependencyGraphMinusItems x = (none, s)) := by
  obtain ⟨entry, hget, rfl⟩ := Graph.behaviorOf_eq_some_iff.1 h.track.behaviorOf
  obtain ⟨core, hcore, -⟩ := h.track.exists_core
  have hduplicate := duplicate_block hcore entry.core
  obtain ⟨new, s, hcopying, hcreated, ⟨hfresh, e, copy, he, hcopy, hbehavior⟩, ok, heq⟩ :=
    Graph.copy_spec h.sound h.room hget (h.notItem entry hget)
      (by rw [hduplicate, Option.isSome_some])
  obtain rfl := Option.some.inj (hget.symm.trans he)
  have hiff := Graph.copy_isSome_iff h.sound h.room (Graph.isValid_of_get hget)
  rw [heq] at hiff
  refine ⟨new, s, hcopying, hcreated, hfresh, ?_, fun hcopyable => ?_, fun hcopyable => ?_⟩
  · rw [Graph.behaviorOf_of_get hcopy, ← hbehavior, hduplicate]
  · cases ok with
    | true => exact heq
    | false => exact absurd (hiff.2 hcopyable) (by simp)
  · cases ok with
    | true => exact absurd (hiff.1 rfl) hcopyable
    | false => exact heq

/-- The nodes that were there keep their behavior while others are copied. -/
theorem behaviorOf_copying (h : Graph.Copying g carried s) {y : NodeId} {b : Behavior F β}
    (hy : g.behaviorOf y = some b) : s.graph.behaviorOf y = some b := by
  obtain ⟨e, he, rfl⟩ := Graph.behaviorOf_eq_some_iff.1 hy
  exact Graph.behaviorOf_of_get (h.get y e he)

theorem prepare_new_of_none (h : g.copyNodeAndDependencyGraphMinusItems x = (none, s))
    (point : Rational) :
    (BlockSplitCommand.new x point).prepare order g = (BlockSplitCommand.new x point, s.graph) := by
  simp only [BlockSplitCommand.prepare, BlockSplitCommand.new, h, Option.isSome_none,
    Bool.false_eq_true, if_false]

theorem prepare_new_of_some {new : NodeId}
    (h : g.copyNodeAndDependencyGraphMinusItems x = (some new, s)) (point : Rational) :
    ∃ others edges, (BlockSplitCommand.new x point).prepare order g =
      (⟨x, point, some new, new :: others, edges, (new :: others).map fun _ => none, 0⟩, s.graph) ∧
      ∀ y ∈ others, ∃ old, s.created old = some y ∧ old ≠ y := by
  refine ⟨BlockSplitCommand.otherCopies order g s.created new, BlockSplitCommand.edgesInto s.graph
    (new :: BlockSplitCommand.otherCopies order g s.created new), ?_, fun y hy => ?_⟩
  · simp only [BlockSplitCommand.prepare, BlockSplitCommand.new, h, Option.isSome_none,
      Bool.false_eq_true, if_false]
  · obtain ⟨old, -, hold⟩ := List.mem_filterMap.1 hy
    obtain ⟨new', hcreated, hif⟩ := Option.bind_eq_some_iff.1 hold
    split_ifs at hif with hne
    obtain rfl := Option.some.inj hif
    exact ⟨old, hcreated, hne.1⟩

omit [ClipSpeed F] [NodeBehavior F β] in
theorem reAttachSubgraph_of_attached {c : BlockSplitCommand F β} {ids : List NodeId}
    (h : c.detached = ids.map fun _ => none) (g : ProjectGraph F β) :
    c.reAttachSubgraph g = (c, g) := by
  rw [BlockSplitCommand.reAttachSubgraph, if_pos]
  rw [h]
  simp

/-- When the block cannot be copied, a split leaves the blocks as they are. What was copied so far
stays in the graph. -/
theorem redo_refused (h : Splittable g carried track t pre x b post) (hcopyable : ¬ g.Copyable x)
    (point : Rational) :
    ∃ new s, Graph.Copying g carried s ∧ g.get new = none ∧ s.graph.behaviorOf new = some b ∧
      (BlockSplitCommand.new x point).redo order g =
        ({ BlockSplitCommand.new x point with oldLength := blockLength s.graph x }, s.graph) := by
  obtain ⟨new, s, hcopying, -, hfresh, hnew, -, hrefused⟩ := h.copy
  refine ⟨new, s, hcopying, hfresh, hnew, ?_⟩
  rw [BlockSplitCommand.redo, prepare_new_of_none order (hrefused hcopyable)]
  rfl

/-- When the block can be copied, it becomes the first half, and the copy, right behind it, the
second. -/
theorem redo_copied (h : Splittable g carried track t pre x b post) (hcopyable : g.Copyable x)
    (hcore : b.blockCore = some core) {point : Rational} (hin : core.in_ ≤ point)
    (hout : point ≤ core.out) :
    ∃ new s others edges g', Graph.Copying g carried s ∧ g.get new = none ∧
      (∀ y ∈ others, g.get y = none) ∧
      (BlockSplitCommand.new x point).redo order g =
        (⟨x, point, some new, new :: others, edges, (new :: others).map fun _ => none,
          core.length⟩, g') ∧
      ∀ y, g'.behaviorOf y =
        if y = track then
          some (.track { t with blocks := pre.map Prod.fst ++ x :: new :: post.map Prod.fst })
        else if y = new then some (b.modifyCore (secondHalf point))
        else if y = x then some (b.modifyCore (firstHalf point))
        else s.graph.behaviorOf y := by
  obtain ⟨new, s, hcopying, -, hfresh, hnew, hcopied, -⟩ := h.copy
  obtain ⟨others, edges, hprepare, hothers⟩ := prepare_new_of_some order (hcopied hcopyable)
    point
  have hx : s.graph.behaviorOf x = some b := behaviorOf_copying hcopying h.track.behaviorOf
  have htrack : s.graph.behaviorOf track = some (.track t) :=
    behaviorOf_copying hcopying h.track.behavior
  obtain ⟨core', hcore', -, howner⟩ := h.track.exists_core
  obtain rfl := Option.some.inj (hcore.symm.trans hcore')
  have hxcore : blockCoreOf s.graph x = some core := by rw [blockCoreOf_eq hx, hcore]
  have hxtrack : x ≠ track := h.track.ne_track (p := (x, b)) (by simp)
  have hnew' : ∀ y c, g.behaviorOf y = some c → new ≠ y := by
    rintro y c hy rfl
    rw [Graph.behaviorOf, hfresh] at hy
    exact absurd hy (by simp)
  have hnewx : new ≠ x := hnew' x b h.track.behaviorOf
  have hnewtrack : new ≠ track := hnew' track _ h.track.behavior
  -- the graph in which the halves have their ranges
  let halves := blockSetLengthAndMediaOut
    (blockSetLengthAndMediaIn s.graph x (point - core.in_)) new (core.out - point)
  have hhalves (y : NodeId) : halves.behaviorOf y =
      if y = new then some (b.modifyCore (secondHalf point))
      else if y = x then some (b.modifyCore (firstHalf point)) else s.graph.behaviorOf y := by
    rw [show halves.behaviorOf y = _ from behaviorOf_modifyBlock _, blockSetLengthAndMediaIn,
      behaviorOf_modifyBlock]
    by_cases hy : y = new
    · rw [if_pos hy, if_pos hy, hy, if_neg hnewx, hnew, Option.map_some]
      refine congrArg some (Behavior.modifyCore_congr hcore ?_)
      rw [BlockCore.setLengthAndMediaOut_of_le _ (by linarith), sub_sub_cancel, secondHalf]
    · rw [if_neg hy, if_neg hy]
      split_ifs with hyx
      · rw [hyx, hx, Option.map_some]
        refine congrArg some (Behavior.modifyCore_congr hcore ?_)
        rw [BlockCore.setLengthAndMediaIn_of_le _ (by linarith), add_sub_cancel, firstHalf]
      · rfl
  have hhtrack : halves.behaviorOf track = some (.track t) := by
    rw [hhalves, if_neg (Ne.symm hnewtrack), if_neg (Ne.symm hxtrack), htrack]
  have howned : blockTrack halves x = some track := by
    have hhx : halves.behaviorOf x = some (b.modifyCore (firstHalf point)) := by
      rw [hhalves, if_neg (Ne.symm hnewx), if_pos rfl]
    rw [blockTrack, blockCoreOf_eq hhx, Behavior.blockCore_modifyCore, hcore, Option.map_some,
      Option.bind_some]
    exact howner
  have hlast : some x = (pre.map Prod.fst ++ [x]).getLast? := List.getLast?_concat.symm
  have hnodup : (pre.map Prod.fst ++ [x]).Nodup := by
    have := h.track.nodup
    rw [List.map_append, List.map_cons, List.append_cons] at this
    exact (List.nodup_append.1 this).1
  have hblocks : t.blocks = (pre.map Prod.fst ++ [x]) ++ post.map Prod.fst := by
    rw [h.track.order, List.map_append, List.map_cons, List.append_cons]
  refine ⟨new, s, others, edges, trackInsertBlockAfter halves track new (some x), hcopying, hfresh,
    fun y hy => ?_, ?_, fun y => ?_⟩
  · obtain ⟨old, hcreated, hne⟩ := hothers y hy
    rcases hcopying.created old y hcreated with ⟨heq, -⟩ | ⟨hnone, -⟩
    · exact absurd heq.symm hne
    · exact hnone
  · rw [BlockSplitCommand.redo, hprepare]
    dsimp only
    rw [reAttachSubgraph_of_attached rfl]
    dsimp only
    rw [blockLength_eq hxcore, blockIn_eq hxcore, blockOut_eq hxcore]
    show (match blockTrack halves x with
      | none => _
      | some track => (_, trackInsertBlockAfter halves track new (some x))) = _
    rw [howned]
  · rw [hlast, behaviorOf_trackInsertBlockAfter hhtrack hblocks hnodup hnewtrack, hhalves]
    by_cases hy : y = track
    · rw [if_pos hy, if_pos hy, List.append_assoc]
      rfl
    · rw [if_neg hy, if_neg hy]
      by_cases hyn : y = new
      · rw [if_pos hyn, if_pos hyn, Option.map_some, Behavior.modifyCore_modifyCore]
        refine congrArg some (Behavior.modifyCore_congr hcore ?_)
        simp only [Function.comp_apply, secondHalf, howner]
      · rw [if_neg hyn, if_neg hyn]

end Redo

/-! ### What plays after a split -/

section Plays

variable [ClipSpeed F]

/-- In place of the clip the track holds two clips, one behind the other, that meet at `point`, and
at every time of the clip the half over it evaluates its texture at the times the clip did. -/
def SplitPlays (g' : ProjectGraph F β) (track : NodeId) (pre post : List NodeId)
    (clip : ClipBlockBehavior F) (point : Rational) : Prop :=
  ∃ t' x y first second, g'.behaviorOf track = some (.track t') ∧
    t'.blocks = pre ++ x :: y :: post ∧
    g'.behaviorOf x = some (.clip first) ∧ first.core.range = ⟨clip.core.in_, point⟩ ∧
    g'.behaviorOf y = some (.clip second) ∧ second.core.range = ⟨point, clip.core.out⟩ ∧
    ∀ time : TimeRange, clip.core.in_ ≤ time.in_ → time.in_ < clip.core.out →
      (if time.in_ < point then first else second).inputTimeAdjustment ClipInput.textureInput time =
        clip.inputTimeAdjustment ClipInput.textureInput time

variable [NodeBehavior F β] {order : List NodeId → List NodeId} {g : ProjectGraph F β}
  {carried : List (NodeId × NodeId)} {track x : NodeId} {t : TrackBehavior F}
  {pre post : List (NodeId × Behavior F β)} {clip : ClipBlockBehavior F} {point : Rational}

omit [NodeBehavior F β] in
/-- The halves of a clip at normal speed: the first plays as before, the second begins with the
media at `point`. -/
theorem halves_play_iff (hspeed : ClipSpeed.isNormal clip.core.speed = true)
    (hforward : clip.core.reversed = false) (hin : clip.core.in_ < point)
    (hout : point < clip.core.out) :
    (∀ time : TimeRange, clip.core.in_ ≤ time.in_ → time.in_ < clip.core.out →
      (if time.in_ < point then { clip with core := firstHalf point clip.core }
        else { clip with core := secondHalf point clip.core }).inputTimeAdjustment
          ClipInput.textureInput time = clip.inputTimeAdjustment ClipInput.textureInput time) ↔
      clip.core.mediaIn = clip.core.in_ := by
  have hmedia (c : ClipBlockBehavior F) (hs : ClipSpeed.isNormal c.core.speed = true)
      (hr : c.core.reversed = false) (s : Rational) :
      c.mediaAt s = s - c.core.in_ + c.core.mediaIn := by
    rw [ClipBlockBehavior.mediaAt, hr, BlockCore.elapsed_of_normal hs]
    rfl
  constructor
  · intro h
    have hpoint := congrArg TimeRange.in_ (h ⟨point, point⟩ hin.le hout)
    rw [if_neg (lt_irrefl _), ClipBlockBehavior.inputTimeAdjustment_point,
      ClipBlockBehavior.inputTimeAdjustment_point, hmedia clip hspeed hforward,
      hmedia { clip with core := secondHalf point clip.core } hspeed hforward] at hpoint
    simp only [secondHalf, BlockCore.in_] at hpoint ⊢
    linarith
  · intro hanchored time _ _
    rw [ClipBlockBehavior.inputTimeAdjustment_eq, ClipBlockBehavior.inputTimeAdjustment_eq]
    have hsame : (if time.in_ < point then { clip with core := firstHalf point clip.core }
        else { clip with core := secondHalf point clip.core }).mediaAt time.in_ =
          clip.mediaAt time.in_ := by
      rw [hmedia clip hspeed hforward]
      split_ifs
      · exact hmedia { clip with core := firstHalf point clip.core } hspeed hforward _
      · rw [hmedia { clip with core := secondHalf point clip.core } hspeed hforward]
        simp only [secondHalf, BlockCore.in_] at hanchored ⊢
        linarith
    rw [hsame]

/-- A split of a clip at normal speed preserves what plays exactly when the clip begins with its
media at its own in point, and everything upstream of it can be duplicated. -/
theorem split_plays_iff (h : Splittable g carried track t pre x (.clip clip) post)
    (hspeed : ClipSpeed.isNormal clip.core.speed = true) (hforward : clip.core.reversed = false)
    (hin : clip.core.in_ < point) (hout : point < clip.core.out) :
    SplitPlays ((BlockSplitCommand.new x point).redo order g).2 track (pre.map Prod.fst)
        (post.map Prod.fst) clip point ↔
      clip.core.mediaIn = clip.core.in_ ∧ g.Copyable x := by
  by_cases hcopyable : g.Copyable x
  · obtain ⟨new, s, others, edges, g', hcopying, hfresh, -, hredo, hbehavior⟩ :=
      redo_copied order h hcopyable rfl hin.le hout.le
    have hxtrack : x ≠ track := h.track.ne_track (p := (x, .clip clip)) (by simp)
    have hne (y : NodeId) (c : Behavior F β) (hy : g.behaviorOf y = some c) : new ≠ y := by
      rintro rfl
      rw [Graph.behaviorOf, hfresh] at hy
      exact absurd hy (by simp)
    have hnewx : new ≠ x := hne x _ h.track.behaviorOf
    have hnewtrack : new ≠ track := hne track _ h.track.behavior
    have ht : g'.behaviorOf track =
        some (.track { t with blocks := pre.map Prod.fst ++ x :: new :: post.map Prod.fst }) := by
      rw [hbehavior, if_pos rfl]
    have hfirst : g'.behaviorOf x =
        some (.clip { clip with core := firstHalf point clip.core }) := by
      rw [hbehavior, if_neg hxtrack, if_neg (Ne.symm hnewx), if_pos rfl]
      rfl
    have hsecond : g'.behaviorOf new =
        some (.clip { clip with core := secondHalf point clip.core }) := by
      rw [hbehavior, if_neg hnewtrack, if_pos rfl]
      rfl
    rw [hredo]
    simp only [hcopyable, and_true]
    rw [← halves_play_iff hspeed hforward hin hout]
    constructor
    · rintro ⟨t', y, z, first, second, ht', hblocks, hy, -, hz, -, hplays⟩
      rw [ht] at ht'
      obtain rfl := Behavior.track.inj (Option.some.inj ht')
      obtain ⟨rfl, hrest⟩ := List.cons.inj (List.append_cancel_left hblocks)
      obtain ⟨rfl, -⟩ := List.cons.inj hrest
      rw [hfirst] at hy
      rw [hsecond] at hz
      obtain rfl := Behavior.clip.inj (Option.some.inj hy)
      obtain rfl := Behavior.clip.inj (Option.some.inj hz)
      exact hplays
    · intro hplays
      exact ⟨_, x, new, _, _, ht, rfl, hfirst, rfl, hsecond, rfl, hplays⟩
  · obtain ⟨new, s, hcopying, -, -, hredo⟩ := redo_refused order h hcopyable point
    rw [hredo]
    simp only [hcopyable, and_false, iff_false]
    rintro ⟨t', y, z, first, second, ht', hblocks, -⟩
    rw [behaviorOf_copying hcopying h.track.behavior] at ht'
    obtain rfl := Behavior.track.inj (Option.some.inj ht')
    rw [h.track.order] at hblocks
    have hlength := congrArg List.length hblocks
    simp at hlength

end Plays

variable (media : Rational)

section Moved

/-- A clip of ten seconds at ten seconds, whose media begin at `media`. -/
def tenSeconds : ClipBlockBehavior ℚ :=
  ⟨⟨⟨10, 20⟩, media, 1, false, [], true, false, 0, some ⟨0, 0⟩⟩, none⟩

/-- A video track with this clip. -/
def oneClip : ProjectGraph ℚ Plain :=
  ((Graph.new.addNode .new (.track ⟨.video, [⟨1, 0⟩], false, false, 3, 0, none⟩)).1.addNode .new
    (.clip (tenSeconds media))).1

theorem splittable_oneClip :
    Splittable (oneClip media) [] ⟨0, 0⟩ ⟨.video, [⟨1, 0⟩], false, false, 3, 0, none⟩ [] ⟨1, 0⟩
      (.clip (tenSeconds media)) [] := by
  have hroom : (oneClip media).HasRoom := by
    show 2 * 2 < u32Size
    decide
  refine ⟨(Graph.sound_new.allocate _ _).allocate _ _, hroom,
    ⟨rfl, rfl, List.nodup_singleton _, ?_⟩, ?_⟩
  · rintro p hp
    obtain rfl := List.mem_singleton.1 hp
    exact ⟨rfl, _, rfl, rfl⟩
  · intro entry hget
    obtain rfl := Option.some.inj hget
    exact Nat.zero_and _

theorem copyable_oneClip : (oneClip media).Copyable ⟨1, 0⟩ := by
  have hinto (n : NodeId) : (oneClip media).edgesInto n = [] := rfl
  intro n hn
  have hroot : n = ⟨1, 0⟩ := by
    induction hn with
    | refl => rfl
    | tail _ hstep _ =>
      obtain ⟨-, -, -, e, he, -⟩ := hstep
      rw [hinto] at he
      exact absurd he List.not_mem_nil
  subst hroot
  exact ⟨_, rfl, rfl⟩

theorem split_plays_iff_anchored :
    SplitPlays ((BlockSplitCommand.new ⟨1, 0⟩ 15).redo id (oneClip 10)).2 ⟨0, 0⟩ [] []
      (tenSeconds 10) 15 :=
  (split_plays_iff (splittable_oneClip 10) (by decide +kernel) rfl (by decide +kernel)
    (by decide)).2 ⟨rfl, copyable_oneClip 10⟩

/-- A clip that was moved to ten seconds plays its media from the start. Split at fifteen seconds,
its second half skips to the fifteenth second of the media. -/
theorem split_skips_media :
    ¬ SplitPlays ((BlockSplitCommand.new ⟨1, 0⟩ 15).redo id (oneClip 0)).2 ⟨0, 0⟩ [] []
      (tenSeconds 0) 15 := by
  rintro ⟨t', x, y, first, second, ht', hblocks, -, -, hy, -, hplays⟩
  have ht : (((BlockSplitCommand.new ⟨1, 0⟩ 15).redo id (oneClip 0)).2.behaviorOf ⟨0, 0⟩) =
      some (.track ⟨.video, [⟨1, 0⟩, ⟨2, 0⟩], false, false, 3, 0, none⟩) := by decide
  rw [ht] at ht'
  obtain rfl := Behavior.track.inj (Option.some.inj ht')
  obtain ⟨-, hrest⟩ := List.cons.inj hblocks
  obtain ⟨rfl, -⟩ := List.cons.inj hrest
  have hnew : (((BlockSplitCommand.new ⟨1, 0⟩ 15).redo id (oneClip 0)).2.behaviorOf ⟨2, 0⟩) =
      some (.clip { tenSeconds 0 with core := secondHalf 15 (tenSeconds 0).core }) := by
    decide +kernel
  rw [hnew] at hy
  obtain rfl := Behavior.clip.inj (Option.some.inj hy)
  have hhalf := hplays ⟨15, 15⟩ (by decide) (by decide)
  rw [if_neg (lt_irrefl _)] at hhalf
  exact absurd hhalf (by decide +kernel)

end Moved

end Oak.Timeline
