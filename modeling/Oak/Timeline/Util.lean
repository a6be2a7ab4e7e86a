import Oak.Lib.Bisect
import Oak.Node.BlockTimes
import Oak.Node.Heap

/-!
# Blocks and tracks of a project

`oak-timeline/src/util.rs`: the queries and changes that the timeline commands are made of. A
reference to a block, a track or another node is its id in the graph of the one project.

* A query for a node that is stale, or of another kind, has the default of the source; a change of
  such a node does nothing.
* `Track g track blocks` says that a track holds `blocks`, each once, and that each of them is a
  block that knows its track.

## Main results

* `behaviorOf_trackInsertBlockAfter`, `behaviorOf_trackRippleRemoveBlock`: the changes of a track.
* `Track.blockPrevious_eq`, `Track.blockNext_eq`: the neighbours of a block on its track.
-/

namespace Oak.Timeline

open Oak.Core Oak.Node

/-- The graph of a project. -/
abbrev ProjectGraph (F β : Type*) := Node.Graph F (Behavior F β)

variable {F β : Type*}

/-- `block_core_of`. -/
def blockCoreOf (g : ProjectGraph F β) (id : NodeId) : Option (BlockCore F) :=
  (g.behaviorOf id).bind Behavior.blockCore

/-- `track_behavior_of`. -/
def trackBehaviorOf (g : ProjectGraph F β) (id : NodeId) : Option (TrackBehavior F) :=
  (g.behaviorOf id).bind Behavior.track?

/-- `block_in`. -/
def blockIn (g : ProjectGraph F β) (b : NodeId) : Rational :=
  ((blockCoreOf g b).map BlockCore.in_).getD 0

/-- `block_out`. -/
def blockOut (g : ProjectGraph F β) (b : NodeId) : Rational :=
  ((blockCoreOf g b).map BlockCore.out).getD 0

/-- `block_length`. -/
def blockLength (g : ProjectGraph F β) (b : NodeId) : Rational :=
  ((blockCoreOf g b).map BlockCore.length).getD 0

/-- `BlockKind`. -/
inductive BlockKind where
  | other | clip | gap | transition
  deriving DecidableEq, Repr

/-- `block_kind`. An adjustment has no kind of its own. -/
def blockKind (g : ProjectGraph F β) (b : NodeId) : BlockKind :=
  match g.behaviorOf b with
  | some (.clip _) => .clip
  | some (.gap _) => .gap
  | some (.transition _) => .transition
  | _ => .other

/-- The core of a block is changed by `f`. -/
def modifyBlock (g : ProjectGraph F β) (f : BlockCore F → BlockCore F) (b : NodeId) :
    ProjectGraph F β :=
  g.modifyBehavior (Behavior.modifyCore f) b

/-- `block_set_length_and_media_out`. -/
def blockSetLengthAndMediaOut (g : ProjectGraph F β) (b : NodeId) (length : Rational) :
    ProjectGraph F β :=
  modifyBlock g (fun c => c.setLengthAndMediaOut length) b

/-- `block_set_length_and_media_in`. -/
def blockSetLengthAndMediaIn (g : ProjectGraph F β) (b : NodeId) (length : Rational) :
    ProjectGraph F β :=
  modifyBlock g (fun c => c.setLengthAndMediaIn length) b

/-- `block_set_in`. -/
def blockSetIn (g : ProjectGraph F β) (b : NodeId) (in_ : Rational) : ProjectGraph F β :=
  modifyBlock g (fun c => c.setIn in_) b

/-- `block_track`. -/
def blockTrack (g : ProjectGraph F β) (b : NodeId) : Option NodeId :=
  (blockCoreOf g b).bind BlockCore.track

/-- The blocks of the track that owns `b`. -/
def siblings (g : ProjectGraph F β) (b : NodeId) : Option (List NodeId) :=
  (blockTrack g b).bind fun track => (trackBehaviorOf g track).map TrackBehavior.blocks

/-- `block_previous`. -/
def blockPrevious (g : ProjectGraph F β) (b : NodeId) : Option NodeId :=
  (siblings g b).bind fun blocks => (blocks.idxOf? b).bind fun i =>
    if i = 0 then none else blocks[i - 1]?

/-- `block_next`. -/
def blockNext (g : ProjectGraph F β) (b : NodeId) : Option NodeId :=
  (siblings g b).bind fun blocks => (blocks.idxOf? b).bind fun i => blocks[i + 1]?

/-- The loop of `track_nearest_block_before_or_at`. -/
def nearestBefore (g : ProjectGraph F β) (time : Rational) :
    List NodeId → Option NodeId → Option NodeId
  | [], before => before
  | id :: ids, before =>
    match blockCoreOf g id with
    | none => none
    | some core =>
      if core.in_ ≤ time ∧ time < core.out then some id
      else nearestBefore g time ids (if core.out ≤ time then some id else before)

/-- `track_nearest_block_before_or_at`. -/
def trackNearestBlockBeforeOrAt (g : ProjectGraph F β) (track : NodeId) (time : Rational) :
    Option NodeId :=
  (trackBehaviorOf g track).bind fun t => nearestBefore g time t.blocks none

/-- The block knows its track. -/
def setTrack (g : ProjectGraph F β) (b : NodeId) (track : Option NodeId) : ProjectGraph F β :=
  modifyBlock g (fun c => { c with track := track }) b

/-- `track_insert_block_after`; before everything else when there is no predecessor. -/
def trackInsertBlockAfter (g : ProjectGraph F β) (track block : NodeId) (before : Option NodeId) :
    ProjectGraph F β :=
  match trackBehaviorOf g track with
  | none => g
  | some t =>
    match before.elim (some (t.prependBlock block)) (t.insertBlockAfter block) with
    | none => g
    | some t' => setTrack (g.modifyBehavior (fun _ => .track t') track) block (some track)

/-- `track_insert_block_before`. -/
def trackInsertBlockBefore (g : ProjectGraph F β) (track block next : NodeId) :
    ProjectGraph F β :=
  match (trackBehaviorOf g track).bind fun t => t.insertBlockBefore block next with
  | none => g
  | some t' => setTrack (g.modifyBehavior (fun _ => .track t') track) block (some track)

/-- `track_ripple_remove_block`. -/
def trackRippleRemoveBlock (g : ProjectGraph F β) (track block : NodeId) : ProjectGraph F β :=
  match (trackBehaviorOf g track).bind fun t => t.rippleRemoveBlock block with
  | none => g
  | some t' => setTrack (g.modifyBehavior (fun _ => .track t') track) block none

/-- `block_add_to_graph`. -/
def blockAddToGraph (g : ProjectGraph F β) (block : NodeId)
    (entry : Option (NodeEntry F (Behavior F β))) : ProjectGraph F β :=
  entry.elim g fun e => (g.addEntry e block).1

/-- `block_remove_from_graph`: the entry is the caller's. -/
def blockRemoveFromGraph (g : ProjectGraph F β) (block : NodeId) :
    Option (NodeEntry F (Behavior F β)) × ProjectGraph F β :=
  match g.takeNode block with
  | none => (none, g)
  | some (g', entry) => (some entry, g')

/-- `block_gap_create`: a gap of one second at the start, which no track holds yet. -/
def blockGapCreate [ClipSpeed F] (g : ProjectGraph F β) : ProjectGraph F β × NodeId :=
  g.addNode .new (.gap ⟨.default⟩)

/-! ### Blocks -/

variable {g g' : ProjectGraph F β} {track x y : NodeId} {b : Behavior F β} {core : BlockCore F}

theorem blockCoreOf_eq (h : g.behaviorOf x = some b) : blockCoreOf g x = b.blockCore := by
  rw [blockCoreOf, h, Option.bind_some]

section

variable (h : blockCoreOf g x = some core)

include h

theorem blockIn_eq : blockIn g x = core.in_ := by
  rw [blockIn, h, Option.map_some, Option.getD_some]

theorem blockOut_eq : blockOut g x = core.out := by
  rw [blockOut, h, Option.map_some, Option.getD_some]

theorem blockLength_eq : blockLength g x = core.length := by
  rw [blockLength, h, Option.map_some, Option.getD_some]

theorem blockTrack_eq : blockTrack g x = core.track := by
  rw [blockTrack, h, Option.bind_some]

end

theorem trackBehaviorOf_eq_some_iff {t : TrackBehavior F} :
    trackBehaviorOf g track = some t ↔ g.behaviorOf track = some (.track t) := by
  simp [trackBehaviorOf, Option.bind_eq_some_iff]

variable (f : BlockCore F → BlockCore F)

theorem behaviorOf_modifyBlock :
    (modifyBlock g f x).behaviorOf y =
      if y = x then (g.behaviorOf y).map (Behavior.modifyCore f) else g.behaviorOf y :=
  Graph.behaviorOf_modifyBehavior _

@[simp] theorem edges_modifyBlock :
    (modifyBlock g f x).edges = g.edges := Graph.edges_modifyBehavior _

variable {i n : ℕ}

theorem vacant_modifyBlock :
    (modifyBlock g f x).entries[i]? = some (.vacant n) ↔ g.entries[i]? = some (.vacant n) :=
  Graph.vacant_modifyBehavior _

/-! ### Changing a track -/

theorem blockIndex_eq {t : TrackBehavior F} {pre post : List NodeId}
    (hblocks : t.blocks = pre ++ x :: post) (hx : x ∉ pre) : t.blockIndex x = some pre.length := by
  rw [TrackBehavior.blockIndex, hblocks, List.idxOf?_eq_some_iff]
  refine ⟨by simp, by simp, fun j hj => ?_⟩
  rw [List.getElem_append_left hj]
  exact fun heq => hx (heq ▸ List.getElem_mem hj)

/-- `insert_block_after` puts a block behind the first place of its predecessor. -/
theorem insertBlockAfter_eq {t : TrackBehavior F} {pre post : List NodeId} {before : NodeId}
    (hblocks : t.blocks = pre ++ before :: post) (hbefore : before ∉ pre) (block : NodeId) :
    t.insertBlockAfter block before =
      some { t with blocks := pre ++ before :: block :: post } := by
  have hinsert := Lib.insertIdx_append (pre ++ [before]) post block
  rw [List.length_append, List.length_singleton, List.append_assoc, List.append_assoc] at hinsert
  rw [TrackBehavior.insertBlockAfter, blockIndex_eq hblocks hbefore, Option.map_some, hblocks]
  exact congrArg (fun blocks => some { t with blocks := blocks }) hinsert

theorem rippleRemoveBlock_eq {t : TrackBehavior F} (hx : x ∈ t.blocks) :
    t.rippleRemoveBlock x = some { t with blocks := t.blocks.filter fun y => y ≠ x } := by
  refine if_pos fun hlength => ?_
  have hall := List.length_filter_eq_length_iff.1 hlength x hx
  simp at hall

theorem behaviorOf_setTrack_of_ne (f : Behavior F β → Behavior F β) (owner : Option NodeId)
    (hy : y ≠ track) (hyx : y ≠ x) :
    (setTrack (g.modifyBehavior f track) x owner).behaviorOf y = g.behaviorOf y := by
  rw [setTrack, behaviorOf_modifyBlock, if_neg hyx, Graph.behaviorOf_modifyBehavior, if_neg hy]

variable (before : Option NodeId)

theorem behaviorOf_trackInsertBlockAfter_of_ne (hy : y ≠ track) (hyx : y ≠ x) :
    (trackInsertBlockAfter g track x before).behaviorOf y = g.behaviorOf y := by
  rw [trackInsertBlockAfter]
  split
  · rfl
  split
  · rfl
  · exact behaviorOf_setTrack_of_ne _ _ hy hyx

theorem behaviorOf_trackInsertBlockBefore_of_ne (next : NodeId) (hy : y ≠ track) (hyx : y ≠ x) :
    (trackInsertBlockBefore g track x next).behaviorOf y = g.behaviorOf y := by
  rw [trackInsertBlockBefore]
  split
  · rfl
  · exact behaviorOf_setTrack_of_ne _ _ hy hyx

theorem behaviorOf_trackRippleRemoveBlock_of_ne (hy : y ≠ track) (hyx : y ≠ x) :
    (trackRippleRemoveBlock g track x).behaviorOf y = g.behaviorOf y := by
  rw [trackRippleRemoveBlock]
  split
  · rfl
  · exact behaviorOf_setTrack_of_ne _ _ hy hyx

theorem behaviorOf_setTrack {t t' : TrackBehavior F} (ht : g.behaviorOf track = some (.track t))
    (hx : x ≠ track) (owner : Option NodeId) :
    (setTrack (g.modifyBehavior (fun _ => .track t') track) x owner).behaviorOf y =
      if y = track then some (.track t')
      else if y = x then (g.behaviorOf y).map (.modifyCore fun c => { c with track := owner })
      else g.behaviorOf y := by
  rw [setTrack, behaviorOf_modifyBlock, Graph.behaviorOf_modifyBehavior]
  by_cases hy : y = track
  · subst hy
    simp [Ne.symm hx, ht]
  · simp [hy]

theorem behaviorOf_trackInsertBlockAfter {t : TrackBehavior F} {pre post : List NodeId}
    (ht : g.behaviorOf track = some (.track t)) (hblocks : t.blocks = pre ++ post)
    (hnodup : pre.Nodup) (hx : x ≠ track) :
    (trackInsertBlockAfter g track x pre.getLast?).behaviorOf y =
      if y = track then some (.track { t with blocks := pre ++ x :: post })
      else if y = x then (g.behaviorOf y).map (.modifyCore fun c => { c with track := some track })
      else g.behaviorOf y := by
  have hinsert : pre.getLast?.elim (some (t.prependBlock x)) (t.insertBlockAfter x) =
      some { t with blocks := pre ++ x :: post } := by
    rcases List.eq_nil_or_concat' pre with rfl | ⟨init, last, rfl⟩
    · rw [List.getLast?_nil, Option.elim_none, TrackBehavior.prependBlock, hblocks]
      rfl
    · rw [List.getLast?_concat, Option.elim_some]
      have hlast : last ∉ init := fun hmem =>
        (List.nodup_append.1 hnodup).2.2 last hmem last List.mem_cons_self rfl
      rw [insertBlockAfter_eq (by rw [hblocks, List.append_assoc]; rfl) hlast, List.append_assoc]
      rfl
  simp only [trackInsertBlockAfter, trackBehaviorOf_eq_some_iff.2 ht, hinsert]
  exact behaviorOf_setTrack ht hx _

theorem behaviorOf_trackRippleRemoveBlock {t : TrackBehavior F}
    (ht : g.behaviorOf track = some (.track t)) (hmem : x ∈ t.blocks) (hx : x ≠ track) :
    (trackRippleRemoveBlock g track x).behaviorOf y =
      if y = track then some (.track { t with blocks := t.blocks.filter fun z => z ≠ x })
      else if y = x then (g.behaviorOf y).map (.modifyCore fun c => { c with track := none })
      else g.behaviorOf y := by
  simp only [trackRippleRemoveBlock, trackBehaviorOf_eq_some_iff.2 ht, Option.bind_some,
    rippleRemoveBlock_eq hmem]
  exact behaviorOf_setTrack ht hx _

@[simp] theorem edges_trackInsertBlockAfter :
    (trackInsertBlockAfter g track x before).edges = g.edges := by
  rw [trackInsertBlockAfter]
  split
  · rfl
  split
  · rfl
  · rw [setTrack, edges_modifyBlock, Graph.edges_modifyBehavior]

@[simp] theorem edges_trackRippleRemoveBlock :
    (trackRippleRemoveBlock g track x).edges = g.edges := by
  rw [trackRippleRemoveBlock]
  split
  · rfl
  · rw [setTrack, edges_modifyBlock, Graph.edges_modifyBehavior]

theorem vacant_setTrack (f : Behavior F β → Behavior F β) (owner : Option NodeId) :
    (setTrack (g.modifyBehavior f track) x owner).entries[i]? = some (.vacant n) ↔
      g.entries[i]? = some (.vacant n) := by
  rw [setTrack, vacant_modifyBlock, Graph.vacant_modifyBehavior]

theorem vacant_trackInsertBlockAfter :
    (trackInsertBlockAfter g track x before).entries[i]? = some (.vacant n) ↔
      g.entries[i]? = some (.vacant n) := by
  rw [trackInsertBlockAfter]
  split
  · rfl
  split
  · rfl
  · exact vacant_setTrack _ _

theorem vacant_trackRippleRemoveBlock :
    (trackRippleRemoveBlock g track x).entries[i]? = some (.vacant n) ↔
      g.entries[i]? = some (.vacant n) := by
  rw [trackRippleRemoveBlock]
  split
  · rfl
  · exact vacant_setTrack _ _

/-! ### Tracks -/

theorem ne_of_blockCore {y : NodeId} {b c : Behavior F β} {core : BlockCore F}
    (hc : g.behaviorOf y = some c) (hb : g.behaviorOf x = some b) (hcore : b.blockCore = some core)
    (hnone : c.blockCore = none := by rfl) : x ≠ y :=
  ne_of_found hb hc fun heq => absurd (hcore.symm.trans (Option.some.inj heq ▸ hnone)) (by simp)

/-- A track holds `blocks`, each once, and each of them is a block that knows its track. -/
structure Track (g : ProjectGraph F β) (track : NodeId) (t : TrackBehavior F)
    (blocks : List (NodeId × Behavior F β)) : Prop where
  behavior : g.behaviorOf track = some (.track t)
  order : t.blocks = blocks.map Prod.fst
  nodup : (blocks.map Prod.fst).Nodup
  block : ∀ p ∈ blocks, g.behaviorOf p.1 = some p.2 ∧
    ∃ core, p.2.blockCore = some core ∧ core.track = some track

variable {p : NodeId × Behavior F β}

namespace Track

variable {t : TrackBehavior F} {blocks pre post : List (NodeId × Behavior F β)}

theorem behaviorOf (h : Track g track t (pre ++ (x, b) :: post)) : g.behaviorOf x = some b :=
  (h.block (x, b) (by simp)).1

theorem exists_core (h : Track g track t (pre ++ (x, b) :: post)) :
    ∃ core, b.blockCore = some core ∧ blockCoreOf g x = some core ∧ core.track = some track := by
  obtain ⟨hb, core, hcore, htrack⟩ := h.block (x, b) (by simp)
  exact ⟨core, hcore, by rw [blockCoreOf_eq hb, hcore], htrack⟩

theorem ne_track (h : Track g track t blocks) (hp : p ∈ blocks) : p.1 ≠ track := by
  obtain ⟨hb, core, hcore, -⟩ := h.block p hp
  exact ne_of_blockCore h.behavior hb hcore

section

variable (h : Track g track t (pre ++ (x, b) :: post))

include h

theorem notMem_pre : x ∉ pre.map Prod.fst := by
  have hnodup := h.nodup
  rw [List.map_append, List.nodup_append] at hnodup
  exact fun hmem => hnodup.2.2 x hmem x (by simp) rfl

theorem idxOf?_eq : t.blocks.idxOf? x = some pre.length := by
  rw [h.order, List.idxOf?_eq_some_iff]
  refine ⟨by simp, by simp, fun j hj => ?_⟩
  have hj' : j < (pre.map Prod.fst).length := by simpa using hj
  simp only [List.map_append, List.getElem_append_left hj']
  exact fun heq => h.notMem_pre (heq ▸ List.getElem_mem hj')

theorem siblings_eq : siblings g x = some t.blocks := by
  obtain ⟨core, -, hcore, htrack⟩ := h.exists_core
  rw [siblings, blockTrack_eq hcore, htrack, Option.bind_some,
    trackBehaviorOf_eq_some_iff.2 h.behavior, Option.map_some]

/-- The block before one. -/
theorem blockPrevious_eq : blockPrevious g x = (pre.map Prod.fst).getLast? := by
  rw [blockPrevious, h.siblings_eq, Option.bind_some, h.idxOf?_eq, Option.bind_some, h.order]
  rcases List.eq_nil_or_concat' pre with rfl | ⟨init, last, rfl⟩
  · rfl
  · simp

/-- The block after one. -/
theorem blockNext_eq : blockNext g x = (post.map Prod.fst).head? := by
  rw [blockNext, h.siblings_eq, Option.bind_some, h.idxOf?_eq, Option.bind_some, h.order,
    List.map_append, List.getElem?_append_right (by simp)]
  cases post <;> simp

end

/-- A track is as good as the behaviors of it and of its blocks. -/
theorem congr (h : Track g track t blocks) (htrack : g'.behaviorOf track = g.behaviorOf track)
    (hblocks : ∀ p ∈ blocks, g'.behaviorOf p.1 = g.behaviorOf p.1) : Track g' track t blocks where
  behavior := htrack.trans h.behavior
  order := h.order
  nodup := h.nodup
  block p hp := by
    rw [hblocks p hp]
    exact h.block p hp

/-- The other blocks of a track are not the one between them. -/
theorem fst_ne (h : Track g track t (pre ++ (x, b) :: post)) (hp : p ∈ pre ++ post) : p.1 ≠ x := by
  have hnodup := h.nodup
  rw [List.map_append, List.map_cons, List.nodup_middle, List.nodup_cons, ← List.map_append]
    at hnodup
  exact fun heq => hnodup.1 (List.mem_map.2 ⟨p, hp, heq⟩)

theorem modifyBlock (h : Track g track t (pre ++ (x, b) :: post))
    {f : BlockCore F → BlockCore F} (hf : ∀ c, (f c).track = c.track) :
    Track (modifyBlock g f x) track t (pre ++ (x, b.modifyCore f) :: post) where
  behavior := by
    rw [behaviorOf_modifyBlock, if_neg (Ne.symm (h.ne_track (p := (x, b)) (by simp))), h.behavior]
  order := by
    rw [h.order]
    simp
  nodup := by simpa using h.nodup
  block p hp := by
    rw [behaviorOf_modifyBlock]
    rcases List.mem_append.1 hp with hp' | hp'
    · rw [if_neg (h.fst_ne (List.mem_append_left _ hp'))]
      exact h.block p (List.mem_append_left _ hp')
    rcases List.mem_cons.1 hp' with rfl | hp'
    · obtain ⟨core, hcore, -, howner⟩ := h.exists_core
      rw [if_pos rfl, h.behaviorOf]
      exact ⟨rfl, f core, by rw [Behavior.blockCore_modifyCore, hcore, Option.map_some],
        (hf core).trans howner⟩
    · rw [if_neg (h.fst_ne (List.mem_append_right _ hp'))]
      exact h.block p (List.mem_append_right _ (List.mem_cons_of_mem _ hp'))

end Track

end Oak.Timeline
