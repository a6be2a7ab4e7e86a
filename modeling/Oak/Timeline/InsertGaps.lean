import Oak.Lib.Zones
import Oak.Timeline.MultiSplit
import Oak.Timeline.ReplaceGap
import Mathlib.Data.Set.Finite.Lemmas

/-!
# Inserting gaps on every track

`TrackListInsertGaps` of `oak-timeline/src/undogeneral.rs`: time is made at a point on the tracks of
a list that are not locked. `prepare` finds on each of them a gap to extend, a block to split or a
place for a new gap. `redo` does not prepare, and it moves nothing that lies behind the point.

## Main results

* `insertsExactly_iff` : exactly when time was made on every track and an undo restores the graph.
-/

namespace Oak.Timeline

open Oak.Core Oak.Node Oak.Undo

variable {F β : Type*}

/-! ### The command -/

/-- `AddGap`. -/
structure AddGap (F β : Type*) where
  gap : NodeId
  /-- The entry of the gap while it is detached. -/
  entry : Option (NodeEntry F (Behavior F β))
  /-- The block that the gap is inserted after, none at the front of the track. -/
  before : Option NodeId
  track : NodeId

/-- `TrackListInsertGaps`. -/
structure TrackListInsertGaps (F β : Type*) where
  trackList : NodeId
  point : Rational
  length : Rational
  /-- The tracks that are not locked. -/
  workingTracks : List NodeId
  gapsToExtend : List NodeId
  gapsAdded : List (AddGap F β)
  splitCommand : Option (BlockSplitPreservingLinksCommand F β)

/-- What is done on one track. -/
inductive GapPlan where
  | nothing
  /-- A gap at the point is extended. -/
  | extend (gap : NodeId)
  /-- A block may be split, and a gap is added behind `before`. -/
  | add (split : Option NodeId) (before : Option NodeId)

/-- `track_locked`. -/
def trackLocked (g : ProjectGraph F β) (track : NodeId) : Bool :=
  ((trackBehaviorOf g track).map TrackBehavior.locked).getD false

/-- The loop of `prepare` over the blocks of a track. -/
def planBlocks (g : ProjectGraph F β) (point : Rational) : List NodeId → GapPlan
  | [] => .nothing
  | b :: bs =>
    if blockKind g b = .gap ∧ blockIn g b ≤ point ∧ point ≤ blockOut g b then .extend b
    else if blockKind g b = .clip ∧ point ≤ blockOut g b then
      -- the gap comes to the front of the track, whatever is before the block
      if blockIn g b = point then .add none none
      else if point < blockOut g b then .add (some b) (some b)
      else if (blockNext g b).isNone then .nothing
      else .add none (some b)
    else planBlocks g point bs

/-- The plan for a track. -/
def planTrack (g : ProjectGraph F β) (point : Rational) (track : NodeId) : GapPlan :=
  planBlocks g point (((trackBehaviorOf g track).map TrackBehavior.blocks).getD [])

namespace GapPlan

/-- The gap to extend. -/
def gap? : GapPlan → Option NodeId
  | extend gap => some gap
  | _ => none

/-- The block to split. -/
def split? : GapPlan → Option NodeId
  | add split _ => split
  | _ => none

/-- The block that a gap is added behind. -/
def before? : GapPlan → Option (Option NodeId)
  | add _ before => some before
  | _ => none

end GapPlan

namespace AddGap

/-- The gaps are created, one for each place. -/
def create [ClipSpeed F] : List (NodeId × Option NodeId) → ProjectGraph F β →
    List (AddGap F β) × ProjectGraph F β
  | [], g => ([], g)
  | (track, before) :: places, g =>
    let created := blockGapCreate g
    let others := create places created.1
    (⟨created.2, none, before, track⟩ :: others.1, others.2)

/-- A gap takes its place. -/
def insert (a : AddGap F β) (point length : Rational) (g : ProjectGraph F β) : ProjectGraph F β :=
  let gapIn := (a.before.map (blockOut g)).getD point
  let g := blockSetLengthAndMediaIn (blockSetIn g a.gap gapIn) a.gap length
  trackInsertBlockAfter (blockAddToGraph g a.gap a.entry) a.track a.gap a.before

/-- A gap leaves its place and the graph. -/
def remove (a : AddGap F β) (g : ProjectGraph F β) : AddGap F β × ProjectGraph F β :=
  let g := (blockTrack g a.gap).elim g fun track => trackRippleRemoveBlock g track a.gap
  match a.entry with
  | some _ => (a, g)
  | none => ({ a with entry := (blockRemoveFromGraph g a.gap).1 }, (blockRemoveFromGraph g a.gap).2)

/-- The gaps are removed in order. -/
def removeAll : List (AddGap F β) → ProjectGraph F β → List (AddGap F β) × ProjectGraph F β
  | [], g => ([], g)
  | a :: as, g =>
    let first := a.remove g
    let others := removeAll as first.2
    (first.1 :: others.1, others.2)

end AddGap

/-- A gap at the point is extended. -/
def extendGap (length : Rational) (g : ProjectGraph F β) (gap : NodeId) : ProjectGraph F β :=
  blockSetLengthAndMediaOut g gap (blockLength g gap + length)

namespace TrackListInsertGaps

/-- `new`. -/
def new (trackList : NodeId) (point length : Rational) : TrackListInsertGaps F β :=
  ⟨trackList, point, length, [], [], [], none⟩

/-- `prepare`. -/
def prepare [ClipSpeed F] (c : TrackListInsertGaps F β) (g : ProjectGraph F β) :
    TrackListInsertGaps F β × ProjectGraph F β :=
  let tracks := (List.range (tracklistTrackCount g c.trackList)).filterMap
    (tracklistTrackAt g c.trackList)
  let working := c.workingTracks ++ tracks.filter fun track => !trackLocked g track
  let split := working.filterMap fun track => (planTrack g c.point track).split?
  let created := AddGap.create (working.filterMap fun track =>
    (planTrack g c.point track).before?.map fun before => (track, before)) g
  ({ c with
      workingTracks := working
      gapsToExtend := c.gapsToExtend ++
        working.filterMap fun track => (planTrack g c.point track).gap?
      gapsAdded := c.gapsAdded ++ created.1
      splitCommand := if split.isEmpty then c.splitCommand else some (.new split [c.point]) },
    created.2)

/-- `redo`. -/
def redo [ClipSpeed F] [NodeBehavior F β] (order : List NodeId → List NodeId)
    (c : TrackListInsertGaps F β) (g : ProjectGraph F β) :
    TrackListInsertGaps F β × ProjectGraph F β :=
  let g := c.gapsToExtend.foldl (extendGap c.length) g
  let split := c.splitCommand.map fun s => s.redo order g
  let g := (split.map Prod.snd).getD g
  ({ c with
      gapsAdded := c.gapsAdded.map fun a => { a with entry := none }
      splitCommand := split.map Prod.fst },
    c.gapsAdded.foldl (fun g a => a.insert c.point c.length g) g)

/-- `undo`. -/
def undo (c : TrackListInsertGaps F β) (g : ProjectGraph F β) :
    TrackListInsertGaps F β × ProjectGraph F β :=
  let removed := AddGap.removeAll c.gapsAdded g
  let split := c.splitCommand.map fun s => s.undo removed.2
  let g := (split.map Prod.snd).getD removed.2
  ({ c with
      gapsAdded := removed.1
      splitCommand := split.map Prod.fst },
    c.gapsToExtend.foldl (extendGap (-c.length)) g)

end TrackListInsertGaps

open TrackListInsertGaps

/-! ### The plan for a track -/

section Plan

variable {g : ProjectGraph F β} {x : NodeId} {t : TrackBehavior F}
  {blocks pre post : List (NodeId × Behavior F β)} {q : NodeId × Behavior F β} {point : Rational}

/-- Whether a block stops the loop. -/
def Meets (point : Rational) : Behavior F β → Prop
  | .gap b => b.core.in_ ≤ point ∧ point ≤ b.core.out
  | .clip b => point ≤ b.core.out
  | _ => False

theorem planBlocks_append {ids : List NodeId} (hb : ∀ r ∈ pre, g.behaviorOf r.1 = some r.2)
    (hpre : ∀ r ∈ pre, ¬ Meets point r.2) :
    planBlocks g point (pre.map Prod.fst ++ ids) = planBlocks g point ids := by
  induction pre with
  | nil => rfl
  | cons r pre ih =>
    have hr := hb r List.mem_cons_self
    have hmeets := hpre r List.mem_cons_self
    rw [List.map_cons, List.cons_append, planBlocks, if_neg, if_neg]
    · exact ih (fun r' hr' => hb r' (List.mem_cons_of_mem r hr'))
        fun r' hr' => hpre r' (List.mem_cons_of_mem r hr')
    · rintro ⟨hkind, hout⟩
      rw [blockKind, hr] at hkind
      rw [blockOut, blockCoreOf_eq hr] at hout
      rcases hclip : r.2 with b | b | b | b | b | b | b | b | b
      all_goals rw [hclip] at hkind hmeets hout
      · exact hmeets hout
      all_goals exact absurd hkind (by simp)
    · rintro ⟨hkind, hin, hout⟩
      rw [blockKind, hr] at hkind
      rw [blockIn, blockCoreOf_eq hr] at hin
      rw [blockOut, blockCoreOf_eq hr] at hout
      rcases hgap : r.2 with b | b | b | b | b | b | b | b | b
      all_goals rw [hgap] at hkind hmeets hout hin
      · exact absurd hkind (by simp)
      · exact hmeets ⟨hin, hout⟩
      all_goals exact absurd hkind (by simp)

theorem planTrack_eq_planBlocks (h : Track g x t blocks) :
    planTrack g point x = planBlocks g point (blocks.map Prod.fst) := by
  rw [planTrack, trackBehaviorOf_eq_some_iff.2 h.behavior, Option.map_some, Option.getD_some,
    h.order]

theorem planTrack_of_forall (h : Track g x t blocks) (hblocks : ∀ r ∈ blocks, ¬ Meets point r.2) :
    planTrack g point x = .nothing := by
  rw [planTrack_eq_planBlocks h]
  have hall : planBlocks g point (blocks.map Prod.fst ++ []) = planBlocks g point [] :=
    planBlocks_append (fun r hr => (h.block r hr).1) hblocks
  rwa [List.append_nil] at hall

theorem planTrack_of_gap (h : Track g x t (pre ++ q :: post)) (hpre : ∀ r ∈ pre, ¬ Meets point r.2)
    (hq : Meets point q.2) (hgap : isGapBlock q.2 = true) :
    planTrack g point x = .extend q.1 := by
  have hqb := (h.block q (by simp)).1
  rw [planTrack_eq_planBlocks h, List.map_append, planBlocks_append
    (fun r hr => (h.block r (List.mem_append_left _ hr)).1) hpre, List.map_cons, planBlocks, if_pos]
  rw [blockKind_eq_gap_iff hqb, blockIn, blockOut, blockCoreOf_eq hqb]
  refine ⟨hgap, ?_⟩
  rcases hb : q.2 with b | b | b | b | b | b | b | b | b
  all_goals rw [hb] at hgap hq
  · exact absurd hgap (by simp [isGapBlock])
  · exact hq
  all_goals exact absurd hgap (by simp [isGapBlock])

/-- The first block that stops the loop is a clip that ends at the point. -/
theorem planTrack_of_clip (h : Track g x t (pre ++ q :: post)) (hsorted : Sorted (pre ++ q :: post))
    (hpre : ∀ r ∈ pre, ¬ Meets point r.2) (hq : Meets point q.2) (hgap : isGapBlock q.2 = false)
    (hout : outOf q.2 = point) :
    planTrack g point x = if post = [] then .nothing else .add none (some q.1) := by
  have hqb := (h.block q (by simp)).1
  obtain ⟨core, hcore, hqcore, -⟩ := h.exists_core
  have hlt := hsorted.1 q (by simp)
  have hkind : blockKind g q.1 = .clip := by
    rw [blockKind, hqb]
    rcases hb : q.2 with b | b | b | b | b | b | b | b | b
    · rfl
    · exact absurd (hb ▸ hgap) (by simp [isGapBlock])
    all_goals exact absurd (hb ▸ hq) (by simp [Meets])
  have hblockOut : blockOut g q.1 = point := by
    rw [blockOut_eq hqcore, ← outOf_eq hcore, hout]
  have hblockIn : blockIn g q.1 ≠ point := by
    rw [blockIn_eq hqcore, ← inOf_eq hcore, ← hout]
    exact hlt.ne
  have hnext : (blockNext g q.1).isNone = true ↔ post = [] := by
    rw [h.blockNext_eq]
    cases post <;> simp
  rw [planTrack_eq_planBlocks h, List.map_append, planBlocks_append
    (fun r hr => (h.block r (List.mem_append_left _ hr)).1) hpre, List.map_cons, planBlocks, if_neg,
    if_pos ⟨hkind, hblockOut.ge⟩, if_neg hblockIn, if_neg (hblockOut ▸ lt_irrefl _)]
  · simp only [hnext]
  · rw [hkind]
    exact fun hfalse => absurd hfalse.1 (by simp)

theorem exists_first (blocks : List (NodeId × Behavior F β)) (point : Rational) :
    (∀ r ∈ blocks, ¬ Meets point r.2) ∨
      ∃ pre q post, blocks = pre ++ q :: post ∧ (∀ r ∈ pre, ¬ Meets point r.2) ∧
        Meets point q.2 := by
  induction blocks with
  | nil => exact .inl fun r hr => absurd hr List.not_mem_nil
  | cons r blocks ih =>
    by_cases hr : Meets point r.2
    · exact .inr ⟨[], r, blocks, rfl, fun r' hr' => absurd hr' List.not_mem_nil, hr⟩
    rcases ih with hnone | ⟨pre, q, post, rfl, hpre, hq⟩
    · exact .inl (List.forall_mem_cons.2 ⟨hr, hnone⟩)
    · exact .inr ⟨r :: pre, q, post, rfl, List.forall_mem_cons.2 ⟨hr, hpre⟩, hq⟩

theorem first_unique {pre' post' : List (NodeId × Behavior F β)} {q' : NodeId × Behavior F β}
    (heq : pre ++ q :: post = pre' ++ q' :: post') (hpre : ∀ r ∈ pre, ¬ Meets point r.2)
    (hq : Meets point q.2) (hpre' : ∀ r ∈ pre', ¬ Meets point r.2) (hq' : Meets point q'.2) :
    pre = pre' ∧ q = q' ∧ post = post' := by
  induction pre generalizing pre' with
  | nil =>
    cases pre' with
    | nil =>
      obtain ⟨hhead, htail⟩ := List.cons.inj heq
      exact ⟨rfl, hhead, htail⟩
    | cons r pre' =>
      obtain ⟨rfl, -⟩ := List.cons.inj heq
      exact absurd hq (hpre' q List.mem_cons_self)
  | cons r pre ih =>
    cases pre' with
    | nil =>
      obtain ⟨rfl, -⟩ := List.cons.inj heq
      exact absurd hq' (hpre r List.mem_cons_self)
    | cons r' pre' =>
      obtain ⟨rfl, htail⟩ := List.cons.inj heq
      obtain ⟨rfl, hrest⟩ := ih htail (fun r' hr' => hpre r' (List.mem_cons_of_mem r hr'))
        fun r' hr' => hpre' r' (List.mem_cons_of_mem r hr')
      exact ⟨rfl, hrest⟩

end Plan

/-! ### The steps -/

section Steps

variable {g s : ProjectGraph F β} {x y : NodeId} {t : TrackBehavior F} {core : BlockCore F}
  {pre post : List NodeId} {point length : Rational} {a : AddGap F β}

/-- A core that begins earlier by `length`. -/
def extendBack (length : Rational) (c : BlockCore F) : BlockCore F :=
  c.setLengthAndMediaOut (c.length + length)

theorem behaviorOf_extendGap (length : Rational) (g : ProjectGraph F β) (gap y : NodeId) :
    (extendGap length g gap).behaviorOf y =
      if y = gap then (g.behaviorOf y).map (.modifyCore (extendBack length))
      else g.behaviorOf y := by
  rw [extendGap, blockSetLengthAndMediaOut, behaviorOf_modifyBlock]
  split_ifs with hy
  · subst hy
    rcases hb : g.behaviorOf y with _ | b
    · rfl
    rcases hcore : b.blockCore with _ | core
    · -- a node that is no block stays as it is
      cases b <;> first | rfl | exact absurd hcore (by simp [Behavior.blockCore])
    · have hlength : blockLength g y = core.length :=
        blockLength_eq (by rw [blockCoreOf_eq hb, hcore])
      rw [Option.map_some, Option.map_some, hlength]
      exact congrArg some (Behavior.modifyCore_congr hcore rfl)
  · rfl

/-- A new gap takes its place behind a block that ends at the point. -/
theorem insert_spec [ClipSpeed F] (ht : s.behaviorOf a.track = some (.track t))
    (hblocks : t.blocks = pre ++ x :: post) (hnodup : t.blocks.Nodup)
    (hbefore : a.before = some x) (hout : blockOut s x = point) (hentry : a.entry = none)
    (hgap : s.behaviorOf a.gap = some (.gap ⟨.default⟩)) (hlength : 0 ≤ length) (y : NodeId) :
    (a.insert point length s).behaviorOf y =
      if y = a.track then some (.track { t with blocks := pre ++ x :: a.gap :: post })
      else if y = a.gap then some (.gap ⟨{ newGapCore point length with track := some a.track }⟩)
      else s.behaviorOf y := by
  have hgaptrack : a.gap ≠ a.track := ne_of_found hgap ht
  have hplaced (y : NodeId) : (blockSetLengthAndMediaIn (blockSetIn s a.gap point) a.gap
      length).behaviorOf y = if y = a.gap then some (.gap ⟨newGapCore point length⟩)
        else s.behaviorOf y := by
    rw [blockSetLengthAndMediaIn, behaviorOf_modifyBlock, blockSetIn, behaviorOf_modifyBlock]
    split_ifs with hy
    · rw [hy, hgap, Option.map_some, Option.map_some, Behavior.modifyCore, Behavior.modifyCore,
        setLength_setIn_default hlength]
    · rfl
  have hlast : some x = (pre ++ [x]).getLast? := by simp
  have hsplit : t.blocks = (pre ++ [x]) ++ post := by rw [hblocks, List.append_cons]
  have hhead : (pre ++ [x]).Nodup := by
    rw [hsplit] at hnodup
    exact (List.nodup_append.1 hnodup).1
  rw [AddGap.insert, hbefore, hentry, Option.map_some, Option.getD_some, hout]
  change (trackInsertBlockAfter (blockSetLengthAndMediaIn (blockSetIn s a.gap point) a.gap length)
    a.track a.gap (some x)).behaviorOf y = _
  rw [hlast, behaviorOf_trackInsertBlockAfter
    ((hplaced a.track).trans ((if_neg (Ne.symm hgaptrack)).trans ht)) hsplit hhead hgaptrack,
    hplaced, List.append_assoc, List.singleton_append]
  by_cases hy : y = a.track
  · rw [if_pos hy, if_pos hy]
  rw [if_neg hy, if_neg hy]
  split_ifs
  · rfl
  · rfl

theorem remove_spec (ht : s.behaviorOf a.track = some (.track t))
    (hblocks : t.blocks = pre ++ a.gap :: post) (hnodup : t.blocks.Nodup)
    (hentry : a.entry = none) (hgap : s.behaviorOf a.gap = some (.gap ⟨core⟩))
    (howner : core.track = some a.track) (y : NodeId) :
    (a.remove s).2.behaviorOf y =
      if y = a.track then some (.track { t with blocks := pre ++ post })
      else if y = a.gap then none
      else s.behaviorOf y := by
  have hgaptrack : a.gap ≠ a.track := ne_of_found hgap ht
  have htrack : blockTrack s a.gap = some a.track := by
    rw [blockTrack, blockCoreOf_eq hgap]
    exact howner
  have hmem : a.gap ∈ t.blocks := by
    rw [hblocks]
    simp
  have hfilter : (t.blocks.filter fun id => id ≠ a.gap) = pre ++ post := by
    rw [hblocks, List.nodup_middle, List.nodup_cons] at hnodup
    rw [hblocks, List.filter_append, List.filter_cons_of_neg (by simp), ← List.filter_append,
      List.filter_eq_self]
    intro id hid
    rw [decide_eq_true_eq]
    rintro rfl
    exact hnodup.1 hid
  have hremoved := behaviorOf_trackRippleRemoveBlock ht hmem hgaptrack (y := a.gap)
  rw [if_neg hgaptrack, if_pos rfl, hgap, Option.map_some] at hremoved
  obtain ⟨entry, g', htake, -, -, hbehavior, -⟩ := blockRemoveFromGraph_spec hremoved
  rw [AddGap.remove, htrack, hentry]
  change (blockRemoveFromGraph (trackRippleRemoveBlock s a.track a.gap) a.gap).2.behaviorOf y = _
  rw [htake, hbehavior, behaviorOf_trackRippleRemoveBlock ht hmem hgaptrack, hfilter]
  by_cases hy : y = a.track
  · rw [if_neg (hy ▸ Ne.symm hgaptrack), if_pos hy, if_pos hy]
  rw [if_neg hy, if_neg hy]
  split_ifs
  · rfl
  · rfl

theorem create_spec [ClipSpeed F] {carried : List (NodeId × NodeId)}
    {places : List (NodeId × Option NodeId)} (hsound : g.Sound carried)
    (hroom : g.entries.length + places.length < u32Size) :
    ∃ (added : List (AddGap F β)) (g' : ProjectGraph F β), AddGap.create places g = (added, g') ∧
      (added.map fun a => (a.track, a.before)) = places ∧ (added.map AddGap.gap).Nodup ∧
      (∀ a ∈ added, a.entry = none ∧ g.behaviorOf a.gap = none) ∧
      ∀ y, g'.behaviorOf y = if y ∈ added.map AddGap.gap then some (.gap ⟨.default⟩)
        else g.behaviorOf y := by
  induction places generalizing g with
  | nil => exact ⟨[], g, rfl, rfl, List.nodup_nil, by simp, by simp⟩
  | cons place places ih =>
    obtain ⟨track, before⟩ := place
    rw [List.length_cons] at hroom
    obtain ⟨hfresh, hcreated⟩ := Graph.behaviorOf_allocate hsound.freeVacant (by omega)
      NodeCore.new (.gap ⟨.default⟩ : Behavior F β)
    have hsound' := hsound.allocate NodeCore.new (.gap ⟨.default⟩ : Behavior F β)
    rw [show (NodeCore.new : NodeCore F).links = [] from rfl, List.map_nil, List.nil_append]
      at hsound'
    have hlength := Graph.length_allocate_le (g := g) NodeCore.new (.gap ⟨.default⟩ : Behavior F β)
    obtain ⟨added, g', hrun, hplaces, hnodup, hadded, hbehavior⟩ := ih hsound' (by omega)
    have hnot : (g.allocate NodeCore.new (.gap ⟨.default⟩ : Behavior F β)).2 ∉
        added.map AddGap.gap :=
      notMem_of_found (List.forall_mem_map.2 fun a ha => (hadded a ha).2)
        ((hcreated _).trans (if_pos rfl))
    refine ⟨⟨(g.allocate NodeCore.new (.gap ⟨.default⟩ : Behavior F β)).2, none, before, track⟩ ::
      added, g', ?_, ?_, ?_, ?_, fun y => ?_⟩
    · rw [AddGap.create]
      change (_ :: (AddGap.create places (g.allocate NodeCore.new (.gap ⟨.default⟩)).1).1,
        (AddGap.create places (g.allocate NodeCore.new (.gap ⟨.default⟩)).1).2) = _
      rw [hrun]
      rfl
    · rw [List.map_cons, hplaces]
    · rw [List.map_cons, List.nodup_cons]
      exact ⟨hnot, hnodup⟩
    · refine List.forall_mem_cons.2 ⟨⟨rfl, hfresh⟩, fun a ha => ⟨(hadded a ha).1, ?_⟩⟩
      have hnone := (hadded a ha).2
      rw [hcreated] at hnone
      split_ifs at hnone
      exact hnone
    · rw [hbehavior, hcreated, List.map_cons]
      by_cases hy : y ∈ added.map AddGap.gap
      · rw [if_pos hy, if_pos (List.mem_cons_of_mem _ hy)]
      · rw [if_neg hy]
        by_cases hyid : y = (g.allocate NodeCore.new (.gap ⟨.default⟩ : Behavior F β)).2
        · rw [if_pos hyid, if_pos (by rw [hyid]; exact List.mem_cons_self)]
        · rw [if_neg hyid, if_neg fun hmem => (List.mem_cons.1 hmem).elim hyid hy]

end Steps

/-! ### Gaps on many tracks -/

section Runs

variable {g g' : ProjectGraph F β} {t : NodeId → TrackBehavior F} {point length : Rational}
  {added : List (AddGap F β)} {gaps : List NodeId}

theorem behaviorOf_foldl_extendGap (hnodup : gaps.Nodup) (y : NodeId) :
    (gaps.foldl (extendGap length) g).behaviorOf y =
      if y ∈ gaps then (g.behaviorOf y).map (.modifyCore (extendBack length))
      else g.behaviorOf y := by
  induction gaps generalizing g with
  | nil => simp
  | cons gap gaps ih =>
    obtain ⟨hgap, hgaps⟩ := List.nodup_cons.1 hnodup
    rw [List.foldl_cons, ih hgaps, behaviorOf_extendGap]
    by_cases hy : y ∈ gaps
    · rw [if_pos hy, if_pos (List.mem_cons_of_mem gap hy), if_neg]
      rintro rfl
      exact hgap hy
    · rw [if_neg hy]
      by_cases hyg : y = gap
      · rw [if_pos hyg, if_pos (hyg ▸ List.mem_cons_self)]
      · rw [if_neg hyg, if_neg fun hmem => (List.mem_cons.1 hmem).elim hyg hy]

/-- New gaps, each behind a block that ends at the point, on tracks of their own. -/
structure Fitting (g : ProjectGraph F β) [ClipSpeed F] (t : NodeId → TrackBehavior F)
    (point : Rational) (added : List (AddGap F β)) : Prop where
  tracks : (added.map AddGap.track).Nodup
  gaps : (added.map AddGap.gap).Nodup
  entry : ∀ a ∈ added, a.entry = none
  track : ∀ a ∈ added, g.behaviorOf a.track = some (.track (t a.track))
  nodup : ∀ a ∈ added, (t a.track).blocks.Nodup
  gap : ∀ a ∈ added, g.behaviorOf a.gap = some (.gap ⟨.default⟩)
  fresh : ∀ a ∈ added, a.gap ∉ (t a.track).blocks
  before : ∀ a ∈ added, ∃ pre x post core, a.before = some x ∧
    (t a.track).blocks = pre ++ x :: post ∧ blockCoreOf g x = some core ∧ core.out = point ∧
      core.track = some a.track

namespace Fitting

variable [ClipSpeed F]

theorem ne_track (h : Fitting g t point added) {a b : AddGap F β} (ha : a ∈ added)
    (hb : b ∈ added) {x : NodeId} (hx : x = a.gap ∨ a.before = some x) : x ≠ b.track := by
  rintro rfl
  have htrack := h.track b hb
  rcases hx with heq | hbefore
  · exact absurd heq (ne_of_found htrack (h.gap a ha))
  · obtain ⟨-, x', -, core, hx', -, hcore, -⟩ := h.before a ha
    obtain rfl := Option.some.inj (hbefore.symm.trans hx')
    rw [blockCoreOf_eq htrack] at hcore
    exact absurd hcore (by simp [Behavior.blockCore])

/-- A new gap is not one of the blocks that gaps come behind. -/
theorem before_ne_gap (h : Fitting g t point added) {a b : AddGap F β} (ha : a ∈ added)
    (hb : b ∈ added) : a.before ≠ some b.gap := by
  intro heq
  obtain ⟨-, x, -, core, hx, -, hcore, -, howner⟩ := h.before a ha
  obtain rfl := Option.some.inj (heq.symm.trans hx)
  rw [blockCoreOf_eq (h.gap b hb)] at hcore
  rw [← Option.some.inj hcore] at howner
  exact absurd howner (by simp [BlockCore.default])

/-- What one insertion changes and reads. -/
def Zone (a : AddGap F β) (k : NodeId) : Prop := k = a.track ∨ k = a.gap ∨ a.before = some k

theorem pairwise_zone (h : Fitting g t point added) :
    added.Pairwise fun a b => ∀ k, Zone a k → ¬ Zone b k := by
  have htracks := List.pairwise_map.1 h.tracks
  have hgaps := List.pairwise_map.1 h.gaps
  refine List.Pairwise.imp_of_mem ?_ (htracks.and hgaps)
  rintro a b ha hb ⟨htrack, hgap⟩ k hka hkb
  rcases hka with rfl | hka
  · rcases hkb with heq | hkb
    · exact htrack heq
    · exact h.ne_track hb ha hkb rfl
  rcases hkb with rfl | hkb
  · exact h.ne_track ha hb hka rfl
  rcases hka with rfl | hka
  · rcases hkb with heq | hkb
    · exact hgap heq
    · exact h.before_ne_gap hb ha hkb
  rcases hkb with rfl | hkb
  · exact h.before_ne_gap ha hb hka
  -- a block is on one track
  · obtain ⟨-, x, -, core, hx, -, hcore, -, howner⟩ := h.before a ha
    obtain ⟨-, x', -, core', hx', -, hcore', -, howner'⟩ := h.before b hb
    obtain rfl := Option.some.inj (hka.symm.trans hx)
    obtain rfl := Option.some.inj (hkb.symm.trans hx')
    obtain rfl := Option.some.inj (hcore.symm.trans hcore')
    exact htrack (Option.some.inj (howner.symm.trans howner'))

theorem insertAll (h : Fitting g t point added) (hlength : 0 ≤ length)
    (hg' : g' = added.foldl (fun g a => a.insert point length g) g) :
    (∀ a ∈ added, ∃ pre x post, a.before = some x ∧ (t a.track).blocks = pre ++ x :: post ∧
      g'.behaviorOf a.track =
        some (.track { t a.track with blocks := pre ++ x :: a.gap :: post })) ∧
    (∀ a ∈ added, g'.behaviorOf a.gap =
      some (.gap ⟨{ newGapCore point length with track := some a.track }⟩)) ∧
    ∀ y, (∀ a ∈ added, y ≠ a.track ∧ y ≠ a.gap) → g'.behaviorOf y = g.behaviorOf y := by
  subst hg'
  have hspec (a : AddGap F β) (ha : a ∈ added) (s : ProjectGraph F β)
      (hs : ∀ k, Zone a k → s.behaviorOf k = g.behaviorOf k) {pre post : List NodeId} {x : NodeId}
      (hx : a.before = some x) (hblocks : (t a.track).blocks = pre ++ x :: post) (y : NodeId) :
      (a.insert point length s).behaviorOf y =
        if y = a.track then some (.track { t a.track with blocks := pre ++ x :: a.gap :: post })
        else if y = a.gap then some (.gap ⟨{ newGapCore point length with track := some a.track }⟩)
        else s.behaviorOf y := by
    obtain ⟨-, x', -, core, hx', -, hcore, hout, -⟩ := h.before a ha
    obtain rfl := Option.some.inj (hx.symm.trans hx')
    have hxcore : blockCoreOf s x = some core := by
      rw [blockCoreOf, hs x (.inr (.inr hx))]
      exact hcore
    exact insert_spec ((hs a.track (.inl rfl)).trans (h.track a ha)) hblocks (h.nodup a ha) hx
      ((blockOut_eq hxcore).trans hout) (h.entry a ha)
      ((hs a.gap (.inr (.inl rfl))).trans (h.gap a ha)) hlength y
  have hstep (a : AddGap F β) (ha : a ∈ added) : Lib.StaysIn (fun g y => g.behaviorOf y)
      (fun g (a : AddGap F β) => a.insert point length g) Zone
      (fun a k => (a.insert point length g).behaviorOf k) g a := by
    intro s hs
    obtain ⟨pre, x, post, core, hx, hblocks, -⟩ := h.before a ha
    refine ⟨fun k hk => ?_, fun k hk => ?_⟩
    · have hk' : s.behaviorOf k = g.behaviorOf k := hs k hk
      dsimp only
      rw [hspec a ha s hs hx hblocks, hspec a ha g (fun _ _ => rfl) hx hblocks, hk']
    · dsimp only
      rw [hspec a ha s hs hx hblocks, if_neg fun heq => hk (.inl heq),
        if_neg fun heq => hk (.inr (.inl heq))]
  obtain ⟨hin, hout⟩ := Lib.foldl_zones h.pairwise_zone hstep fun _ _ _ _ => rfl
  refine ⟨fun a ha => ?_, fun a ha => ?_, fun y hy => ?_⟩
  · obtain ⟨pre, x, post, core, hx, hblocks, -⟩ := h.before a ha
    refine ⟨pre, x, post, hx, hblocks, (hin a ha a.track (.inl rfl)).trans ?_⟩
    rw [hspec a ha g (fun _ _ => rfl) hx hblocks, if_pos rfl]
  · obtain ⟨pre, x, post, core, hx, hblocks, -⟩ := h.before a ha
    refine (hin a ha a.gap (.inr (.inl rfl))).trans ?_
    rw [hspec a ha g (fun _ _ => rfl) hx hblocks, if_neg (h.ne_track ha ha (.inl rfl)), if_pos rfl]
  · by_cases hzone : ∃ a ∈ added, Zone a y
    · obtain ⟨a, ha, hya⟩ := hzone
      obtain ⟨pre, x, post, core, hx, hblocks, -⟩ := h.before a ha
      refine (hin a ha y hya).trans ?_
      rw [hspec a ha g (fun _ _ => rfl) hx hblocks, if_neg (hy a ha).1, if_neg (hy a ha).2]
    · exact hout y fun a ha hya => hzone ⟨a, ha, hya⟩

end Fitting

theorem removeAll_snd (added : List (AddGap F β)) (g : ProjectGraph F β) :
    (AddGap.removeAll added g).2 = added.foldl (fun g a => (a.remove g).2) g := by
  induction added generalizing g with
  | nil => rfl
  | cons a added ih => exact ih (a.remove g).2

theorem Fitting.removeAll [ClipSpeed F] {s : ProjectGraph F β} (h : Fitting g t point added)
    (hlength : 0 ≤ length)
    (hs : s = added.foldl (fun g a => a.insert point length g) g)
    (hg' : g' = (AddGap.removeAll added s).2) :
    (∀ a ∈ added, g'.behaviorOf a.gap = none) ∧
      ∀ y, (∀ a ∈ added, y ≠ a.gap) → g'.behaviorOf y = g.behaviorOf y := by
  subst hg'
  obtain ⟨htrack, hgap, hother⟩ := h.insertAll hlength hs
  have hstep (a : AddGap F β) (ha : a ∈ added) : Lib.StaysIn (fun g y => g.behaviorOf y)
      (fun g (a : AddGap F β) => (a.remove g).2) (fun a k => k = a.track ∨ k = a.gap)
      (fun a k => if k = a.track then some (.track (t a.track)) else none) s a := by
    intro s' hs'
    obtain ⟨pre, x, post, hx, hblocks, hinserted⟩ := htrack a ha
    have hback : { t a.track with blocks := pre ++ x :: post } = t a.track := by rw [← hblocks]
    have hnodup : (pre ++ x :: a.gap :: post).Nodup := by
      have hfresh := h.fresh a ha
      have hall := h.nodup a ha
      rw [hblocks] at hall hfresh
      rw [List.append_cons, List.nodup_middle, List.nodup_cons, ← List.append_cons]
      exact ⟨hfresh, hall⟩
    have hremove := remove_spec (a := a) ((hs' a.track (.inl rfl)).trans hinserted)
      (List.append_cons pre x (a.gap :: post)) hnodup (h.entry a ha)
      ((hs' a.gap (.inr rfl)).trans (hgap a ha)) rfl
    simp only [List.append_assoc, List.singleton_append, hback] at hremove
    refine ⟨fun k hk => ?_, fun k hk => ?_⟩
    · refine (hremove k).trans ?_
      dsimp only
      split_ifs with hktrack hkgap
      · rfl
      · rfl
      · exact absurd hk (not_or.2 ⟨hktrack, hkgap⟩)
    · refine (hremove k).trans ?_
      rw [if_neg fun heq => hk (.inl heq), if_neg fun heq => hk (.inr heq)]
  have hzones : added.Pairwise fun a b => ∀ k, k = a.track ∨ k = a.gap →
      ¬ (k = b.track ∨ k = b.gap) := by
    refine h.pairwise_zone.imp fun hab k hka hkb => hab k ?_ ?_
    · exact hka.imp id .inl
    · exact hkb.imp id .inl
  obtain ⟨hin, hout⟩ := Lib.foldl_zones hzones hstep fun _ _ _ _ => rfl
  rw [removeAll_snd]
  refine ⟨fun a ha => ?_, fun y hy => ?_⟩
  · refine (hin a ha a.gap (.inr rfl)).trans ?_
    rw [if_neg (h.ne_track ha ha (.inl rfl))]
  · by_cases hzone : ∃ a ∈ added, y = a.track
    · obtain ⟨a, ha, rfl⟩ := hzone
      refine (hin a ha a.track (.inl rfl)).trans ?_
      rw [if_pos rfl, h.track a ha]
    · refine (hout y fun a ha hya => ?_).trans (hother y fun a ha => ⟨fun heq => ?_, hy a ha⟩)
      · exact hya.elim (fun heq => hzone ⟨a, ha, heq⟩) (hy a ha)
      · exact hzone ⟨a, ha, heq⟩

end Runs

/-! ### A prepared command -/

variable {p : NodeId × Behavior F β} {before : Option NodeId}

section Prepared

/-- The tracks of a list, whose blocks are in order and do not overlap, and room for new gaps. -/
structure Insertable (g : ProjectGraph F β) (carried : List (NodeId × NodeId)) (list : NodeId)
    (l : TrackListBehavior) (t : NodeId → TrackBehavior F)
    (blocks : NodeId → List (NodeId × Behavior F β)) : Prop where
  list : g.behaviorOf list = some (.trackList l)
  nodup : l.tracks.Nodup
  track : ∀ x ∈ l.tracks, Track g x (t x) (blocks x)
  sorted : ∀ x ∈ l.tracks, Sorted (blocks x)
  sound : g.Sound carried
  room : g.entries.length + l.tracks.length < u32Size

/-- The tracks that are not locked. -/
def unlocked (l : TrackListBehavior) (t : NodeId → TrackBehavior F) : List NodeId :=
  l.tracks.filter fun x => !(t x).locked

/-- The times of an insertion on a track. -/
def insertTimes (point length : Rational) (blocks : List (NodeId × Behavior F β)) : List Rational :=
  [point, length, point + 1, point + length] ++ blocks.flatMap fun p =>
    [inOf p.2, outOf p.2, outOf p.2 - inOf p.2, outOf p.2 - inOf p.2 + length, inOf p.2 - length,
      point - inOf p.2, outOf p.2 - point]

/-- Nothing but gaps reaches beyond the point. -/
def Settled (point : Rational) (blocks : List (NodeId × Behavior F β)) : Prop :=
  ∀ p ∈ blocks, isGapBlock p.2 = false → outOf p.2 ≤ point

variable {g : ProjectGraph F β} {carried : List (NodeId × NodeId)} {list : NodeId}
  {l : TrackListBehavior} {t : NodeId → TrackBehavior F}
  {blocks : NodeId → List (NodeId × Behavior F β)} {point length : Rational} {x : NodeId}

theorem mem_unlocked : x ∈ unlocked l t ↔ x ∈ l.tracks ∧ (t x).locked = false := by
  rw [unlocked, List.mem_filter, Bool.not_eq_true']

theorem filterMap_range_getElem? (tracks : List NodeId) :
    (List.range tracks.length).filterMap (fun i => tracks[i]?) = tracks := by
  induction tracks using List.reverseRecOn with
  | nil => rfl
  | append_singleton tracks x ih =>
    have hinit : (List.range tracks.length).filterMap (fun i => (tracks ++ [x])[i]?) =
        (List.range tracks.length).filterMap (fun i => tracks[i]?) :=
      List.filterMap_congr fun i hi => List.getElem?_append_left (List.mem_range.1 hi)
    rw [List.length_append, List.length_singleton, List.range_succ, List.filterMap_append, hinit, ih]
    simp

theorem Insertable.plan_cases (h : Insertable g carried list l t blocks) (hx : x ∈ l.tracks)
    (hsettled : Settled point (blocks x)) :
    planTrack g point x = .nothing ∨
    (∃ pre q post, blocks x = pre ++ q :: post ∧ isGapBlock q.2 = true ∧
      planTrack g point x = .extend q.1) ∨
    ∃ pre q post, blocks x = pre ++ q :: post ∧ isGapBlock q.2 = false ∧ outOf q.2 = point ∧
      planTrack g point x = .add none (some q.1) := by
  have htrack := h.track x hx
  have hsorted := h.sorted x hx
  rcases exists_first (blocks x) point with hnone | ⟨pre, q, post, heq, hpre, hq⟩
  · exact .inl (planTrack_of_forall htrack hnone)
  rw [heq] at htrack hsorted hsettled
  rcases hgap : isGapBlock q.2 with _ | _
  · have hle := hsettled q (by simp) hgap
    have hge : point ≤ outOf q.2 := by
      rcases hb : q.2 with b | b | b | b | b | b | b | b | b
      · rw [hb] at hq
        exact hq
      · exact absurd (hb ▸ hgap) (by simp [isGapBlock])
      all_goals exact absurd (hb ▸ hq) (by simp [Meets])
    have hplan := planTrack_of_clip htrack hsorted hpre hq hgap (le_antisymm hle hge)
    split_ifs at hplan
    · exact .inl hplan
    · exact .inr (.inr ⟨pre, q, post, heq, hgap, le_antisymm hle hge, hplan⟩)
  · exact .inr (.inl ⟨pre, q, post, heq, hgap, planTrack_of_gap htrack hpre hq hgap⟩)

/-- The gaps to extend. -/
def gapsAt (g : ProjectGraph F β) (point : Rational) (tracks : List NodeId) : List NodeId :=
  tracks.filterMap fun x => (planTrack g point x).gap?

/-- The places of new gaps. -/
def placesAt (g : ProjectGraph F β) (point : Rational) (tracks : List NodeId) :
    List (NodeId × Option NodeId) :=
  tracks.filterMap fun x => (planTrack g point x).before?.map fun before => (x, before)

section

variable (h : Insertable g carried list l t blocks)

include h

theorem Insertable.track_unique {x' y : NodeId} {b b' : Behavior F β} (hx : x ∈ l.tracks)
    (hx' : x' ∈ l.tracks) (hy : (y, b) ∈ blocks x) (hy' : (y, b') ∈ blocks x') : x = x' := by
  obtain ⟨hb, core, hcore, howner⟩ := (h.track x hx).block (y, b) hy
  obtain ⟨hb', core', hcore', howner'⟩ := (h.track x' hx').block (y, b') hy'
  obtain rfl := Option.some.inj (hb.symm.trans hb')
  obtain rfl := Option.some.inj (hcore.symm.trans hcore')
  exact Option.some.inj (howner.symm.trans howner')

theorem Insertable.ne_track (hx : x ∈ l.tracks) (hp : p ∈ blocks x) {x' : NodeId}
    (hx' : x' ∈ l.tracks) : p.1 ≠ x' := by
  obtain ⟨hpb, core, hcore, -⟩ := (h.track x hx).block p hp
  exact ne_of_blockCore (h.track x' hx').behavior hpb hcore

theorem Insertable.nodup_placesAt :
    ((placesAt g point (unlocked l t)).map Prod.fst).Nodup := by
  have hnodup : (unlocked l t).Nodup := h.nodup.filter _
  rw [placesAt, List.map_filterMap]
  refine List.pairwise_filterMap.2 (hnodup.imp fun {x x'} hne y hy y' hy' => ?_)
  rw [Option.map_map] at hy hy'
  obtain ⟨-, -, rfl⟩ := Option.map_eq_some_iff.1 hy
  obtain ⟨-, -, rfl⟩ := Option.map_eq_some_iff.1 hy'
  exact hne

variable (hsettled : ∀ x ∈ unlocked l t, Settled point (blocks x))

include hsettled

theorem Insertable.mem_gapsAt {y : NodeId} (hy : y ∈ gapsAt g point (unlocked l t)) :
    ∃ x ∈ unlocked l t, planTrack g point x = .extend y ∧
      ∃ b, (y, b) ∈ blocks x ∧ isGapBlock b = true := by
  obtain ⟨x, hx, hplan⟩ := List.mem_filterMap.1 hy
  rcases h.plan_cases (mem_unlocked.1 hx).1 (hsettled x hx) with
    hnothing | ⟨pre, q, post, heq, hgap, hextend⟩ | ⟨pre, q, post, heq, hgap, -, hadd⟩
  · rw [hnothing] at hplan
    exact absurd hplan (by simp [GapPlan.gap?])
  · rw [hextend] at hplan
    obtain rfl := Option.some.inj hplan
    exact ⟨x, hx, hextend, q.2, by simp [heq], hgap⟩
  · rw [hadd] at hplan
    exact absurd hplan (by simp [GapPlan.gap?])

theorem Insertable.nodup_gapsAt : (gapsAt g point (unlocked l t)).Nodup := by
  have hnodup : (unlocked l t).Nodup := h.nodup.filter _
  refine List.pairwise_filterMap.2 (hnodup.imp_of_mem fun {x x'} hx hx' hne y hy y' hy' => ?_)
  rintro rfl
  have hblock (x : NodeId) (hx : x ∈ unlocked l t) (hy : (planTrack g point x).gap? = some y) :
      ∃ b, (y, b) ∈ blocks x := by
    rcases h.plan_cases (mem_unlocked.1 hx).1 (hsettled x hx) with
      hnothing | ⟨pre, q, post, heq, -, hextend⟩ | ⟨pre, q, post, heq, -, -, hadd⟩
    · rw [hnothing] at hy
      exact absurd hy (by simp [GapPlan.gap?])
    · rw [hextend] at hy
      obtain rfl := Option.some.inj hy
      exact ⟨q.2, by simp [heq]⟩
    · rw [hadd] at hy
      exact absurd hy (by simp [GapPlan.gap?])
  obtain ⟨b, hb⟩ := hblock x hx hy
  obtain ⟨b', hb'⟩ := hblock x' hx' hy'
  exact hne (h.track_unique (mem_unlocked.1 hx).1 (mem_unlocked.1 hx').1 hb hb')

theorem Insertable.notMem_gapsAt (hx : x ∈ l.tracks) (hp : p ∈ blocks x)
    (hplan : x ∈ unlocked l t → planTrack g point x ≠ .extend p.1) :
    p.1 ∉ gapsAt g point (unlocked l t) := by
  intro hmem
  obtain ⟨x', hx', hextend, b, hb, -⟩ := h.mem_gapsAt hsettled hmem
  obtain rfl := h.track_unique hx (mem_unlocked.1 hx').1 hp hb
  exact hplan hx' hextend

theorem Insertable.mem_placesAt (hx : (x, before) ∈ placesAt g point (unlocked l t)) :
    x ∈ unlocked l t ∧ ∃ pre q post, blocks x = pre ++ q :: post ∧ isGapBlock q.2 = false ∧
      outOf q.2 = point ∧ before = some q.1 := by
  obtain ⟨x', hx', hplan⟩ := List.mem_filterMap.1 hx
  obtain ⟨before', hbefore, heq⟩ := Option.map_eq_some_iff.1 hplan
  obtain ⟨rfl, rfl⟩ := Prod.mk.inj heq
  refine ⟨hx', ?_⟩
  rcases h.plan_cases (mem_unlocked.1 hx').1 (hsettled x' hx') with
    hnothing | ⟨pre, q, post, -, -, hextend⟩ | ⟨pre, q, post, heq, hgap, hout, hadd⟩
  · rw [hnothing] at hbefore
    exact absurd hbefore (by simp [GapPlan.before?])
  · rw [hextend] at hbefore
    exact absurd hbefore (by simp [GapPlan.before?])
  · rw [hadd] at hbefore
    exact ⟨pre, q, post, heq, hgap, hout, (Option.some.inj hbefore).symm⟩

end

variable [ClipSpeed F]

/-- The graph in which the gaps at the point are extended, and the new ones have no place yet. -/
structure Prepared (g g' : ProjectGraph F β) (l : TrackListBehavior) (t : NodeId → TrackBehavior F)
    (point length : Rational) (added : List (AddGap F β)) : Prop where
  fitting : Fitting g' t point added
  places : (added.map fun a => (a.track, a.before)) = placesAt g point (unlocked l t)
  fresh : ∀ a ∈ added, g.behaviorOf a.gap = none
  behaviorOf : ∀ y, g'.behaviorOf y =
    if y ∈ added.map AddGap.gap then some (.gap ⟨.default⟩)
    else if y ∈ gapsAt g point (unlocked l t) then
      (g.behaviorOf y).map (.modifyCore (extendBack length))
    else g.behaviorOf y

theorem Insertable.prepare_spec (h : Insertable g carried list l t blocks)
    (hsettled : ∀ x ∈ unlocked l t, Settled point (blocks x)) (length : Rational) :
    ∃ added g₁, (new list point length).prepare g =
        (⟨list, point, length, unlocked l t, gapsAt g point (unlocked l t), added, none⟩, g₁) ∧
      Prepared g ((gapsAt g point (unlocked l t)).foldl (extendGap length) g₁) l t point length
        added := by
  have htracks : (List.range (tracklistTrackCount g list)).filterMap (tracklistTrackAt g list) =
      l.tracks := by
    have hcount : tracklistTrackCount g list = l.tracks.length := by
      rw [tracklistTrackCount, trackListBehaviorOf_eq h.list, Option.map_some, Option.getD_some]
    rw [hcount]
    refine Eq.trans (List.filterMap_congr fun i _ => ?_) (filterMap_range_getElem? l.tracks)
    rw [tracklistTrackAt, trackListBehaviorOf_eq h.list, Option.bind_some]
  have hworking : (l.tracks.filter fun x => !trackLocked g x) = unlocked l t := by
    refine List.filter_congr fun x hx => ?_
    rw [trackLocked, trackBehaviorOf_eq_some_iff.2 (h.track x hx).behavior, Option.map_some,
      Option.getD_some]
  have hsplit : ((unlocked l t).filterMap fun x => (planTrack g point x).split?) = [] := by
    refine List.filterMap_eq_nil_iff.2 fun x hx => ?_
    rcases h.plan_cases (mem_unlocked.1 hx).1 (hsettled x hx) with
      hplan | ⟨pre, q, post, heq, hgap, hplan⟩ | ⟨pre, q, post, heq, hgap, hout, hplan⟩
    · simp only [hplan, GapPlan.split?]
    · simp only [hplan, GapPlan.split?]
    · simp only [hplan, GapPlan.split?]
  have hroom : g.entries.length + (placesAt g point (unlocked l t)).length < u32Size := by
    have hle := List.length_filterMap_le
      (fun x => (planTrack g point x).before?.map fun before => (x, before)) (unlocked l t)
    have hle' := List.length_filter_le (fun x => !(t x).locked) l.tracks
    have hall := h.room
    rw [placesAt]
    rw [unlocked] at hle ⊢
    omega
  obtain ⟨added, g₁, hcreate, hplaces, hnodup, hadded, hbehavior⟩ :=
    create_spec h.sound hroom
  have hall (y : NodeId) : ((gapsAt g point (unlocked l t)).foldl (extendGap length) g₁).behaviorOf
      y = if y ∈ added.map AddGap.gap then some (.gap ⟨.default⟩)
        else if y ∈ gapsAt g point (unlocked l t) then
          (g.behaviorOf y).map (.modifyCore (extendBack length))
        else g.behaviorOf y := by
    rw [behaviorOf_foldl_extendGap (h.nodup_gapsAt hsettled), hbehavior]
    by_cases hy : y ∈ gapsAt g point (unlocked l t)
    · obtain ⟨x, hx, -, b, hb, -⟩ := h.mem_gapsAt hsettled hy
      have hyb := ((h.track x (mem_unlocked.1 hx).1).block (y, b) hb).1
      have hnot : y ∉ added.map AddGap.gap :=
        notMem_of_found (List.forall_mem_map.2 fun a ha => (hadded a ha).2) hyb
      rw [if_pos hy, if_neg hnot, if_neg hnot, if_pos hy]
    · rw [if_neg hy]
      split_ifs
      · rfl
      · rfl
  have hplace (a : AddGap F β) (ha : a ∈ added) :
      (a.track, a.before) ∈ placesAt g point (unlocked l t) := by
    rw [← hplaces]
    exact List.mem_map.2 ⟨a, ha, rfl⟩
  -- nodes that were there and are not extended
  have hold (y : NodeId) (b : Behavior F β) (hy : g.behaviorOf y = some b)
      (hgap : isGapBlock b = false) :
      ((gapsAt g point (unlocked l t)).foldl (extendGap length) g₁).behaviorOf y = some b := by
    rw [hall, if_neg, if_neg, hy]
    · intro hmem
      obtain ⟨x, hx, -, b', hb', hgap'⟩ := h.mem_gapsAt hsettled hmem
      have hyb := ((h.track x (mem_unlocked.1 hx).1).block (y, b') hb').1
      obtain rfl := Option.some.inj (hy.symm.trans hyb)
      exact absurd (hgap.symm.trans hgap') (by simp)
    · exact notMem_of_found (List.forall_mem_map.2 fun a ha => (hadded a ha).2) hy
  refine ⟨added, g₁, ?_, ⟨?_, hnodup, fun a ha => (hadded a ha).1, fun a ha => ?_, fun a ha => ?_,
    fun a ha => ?_, fun a ha => ?_, fun a ha => ?_⟩, hplaces, fun a ha => (hadded a ha).2, hall⟩
  · simp only [prepare, new, htracks, hworking, hsplit,
      List.nil_append, List.isEmpty_nil, if_true]
    change ((⟨list, point, length, unlocked l t, gapsAt g point (unlocked l t),
      (AddGap.create (placesAt g point (unlocked l t)) g).1, none⟩ : TrackListInsertGaps F β),
      (AddGap.create (placesAt g point (unlocked l t)) g).2) = _
    rw [hcreate]
  · have hmap : added.map AddGap.track = (placesAt g point (unlocked l t)).map Prod.fst := by
      rw [← hplaces, List.map_map]
      rfl
    rw [hmap]
    exact h.nodup_placesAt
  · obtain ⟨hx, -⟩ := h.mem_placesAt hsettled (hplace a ha)
    exact hold _ _ (h.track _ (mem_unlocked.1 hx).1).behavior rfl
  · obtain ⟨hx, -⟩ := h.mem_placesAt hsettled (hplace a ha)
    have htrack := h.track _ (mem_unlocked.1 hx).1
    rw [htrack.order]
    exact htrack.nodup
  · rw [hall, if_pos (List.mem_map.2 ⟨a, ha, rfl⟩)]
  · obtain ⟨hx, -⟩ := h.mem_placesAt hsettled (hplace a ha)
    have htrack := h.track _ (mem_unlocked.1 hx).1
    intro hmem
    rw [htrack.order] at hmem
    obtain ⟨p, hp, heq⟩ := List.mem_map.1 hmem
    exact absurd heq (ne_of_found (htrack.block p hp).1 (hadded a ha).2)
  · obtain ⟨hx, pre, q, post, heq, hgap, hout, hbefore⟩ := h.mem_placesAt hsettled (hplace a ha)
    have htrack := h.track _ (mem_unlocked.1 hx).1
    have hq : q ∈ blocks a.track := by
      rw [heq]
      simp
    obtain ⟨hqb, core, hcore, howner⟩ := htrack.block q hq
    refine ⟨pre.map Prod.fst, q.1, post.map Prod.fst, core, hbefore, ?_, ?_, ?_, howner⟩
    · rw [htrack.order, heq, List.map_append, List.map_cons]
    · rw [blockCoreOf_eq (hold q.1 q.2 hqb hgap), hcore]
    · rw [← outOf_eq hcore, hout]

end Prepared

/-! ### A run -/

section Run

variable [ClipSpeed F] {g g' : ProjectGraph F β} {carried : List (NodeId × NodeId)} {list : NodeId}
  {l : TrackListBehavior} {t : NodeId → TrackBehavior F}
  {blocks : NodeId → List (NodeId × Behavior F β)} {point length : Rational} {x y : NodeId}
  {added : List (AddGap F β)} {pre post : List (NodeId × Behavior F β)}
  {q : NodeId × Behavior F β}

/-- The graph after the new gaps took their places. -/
def insertAll (point length : Rational) (added : List (AddGap F β)) (g : ProjectGraph F β) :
    ProjectGraph F β := added.foldl (fun g a => a.insert point length g) g

/-- The nodes that were there, but for the tracks with a new gap. -/
theorem Prepared.behaviorOf_insertAll (h : Prepared g g' l t point length added)
    (hlength : 0 ≤ length) {b : Behavior F β} (hy : g.behaviorOf y = some b)
    (htrack : ∀ a ∈ added, y ≠ a.track) :
    (insertAll point length added g').behaviorOf y =
      if y ∈ gapsAt g point (unlocked l t) then some (b.modifyCore (extendBack length))
      else some b := by
  have hgap : ∀ a ∈ added, y ≠ a.gap := fun a ha => ne_of_found hy (h.fresh a ha)
  have hnot : y ∉ added.map AddGap.gap := by
    intro hmem
    obtain ⟨a, ha, rfl⟩ := List.mem_map.1 hmem
    exact hgap a ha rfl
  rw [insertAll, (h.fitting.insertAll hlength rfl).2.2 y fun a ha => ⟨htrack a ha, hgap a ha⟩,
    h.behaviorOf, if_neg hnot, hy]
  rfl

/-- A new gap is behind the block that its track was to have one behind. -/
theorem Prepared.mem_added (h : Prepared g g' l t point length added) (hx : x ∈ unlocked l t) :
    planTrack g point x = .add none before →
      ∃ a ∈ added, a.track = x ∧ a.before = before := by
  intro hplan
  have hmem : (x, before) ∈ placesAt g point (unlocked l t) :=
    List.mem_filterMap.2 ⟨x, hx, by rw [hplan]; rfl⟩
  rw [← h.places] at hmem
  obtain ⟨a, ha, heq⟩ := List.mem_map.1 hmem
  exact ⟨a, ha, (Prod.mk.inj heq).1, (Prod.mk.inj heq).2⟩

/-- Where a gap is added, none is extended, and the track is not locked. -/
theorem Prepared.plan_of_mem (h : Prepared g g' l t point length added) {a : AddGap F β}
    (ha : a ∈ added) : a.track ∈ unlocked l t ∧
      (planTrack g point a.track).before? = some a.before := by
  have hmem : (a.track, a.before) ∈ placesAt g point (unlocked l t) := by
    rw [← h.places]
    exact List.mem_map.2 ⟨a, ha, rfl⟩
  obtain ⟨x, hx, hplan⟩ := List.mem_filterMap.1 hmem
  obtain ⟨before, hbefore, heq⟩ := Option.map_eq_some_iff.1 hplan
  obtain ⟨rfl, rfl⟩ := Prod.mk.inj heq
  exact ⟨hx, hbefore⟩

/-- A core that begins with its media at its in point. -/
def anchored (c : BlockCore F) : BlockCore F := { c with mediaIn := c.in_ }

omit [ClipSpeed F] in
theorem extendBack_neg {c : BlockCore F} (hc : c.in_ ≤ c.out) (hlength : 0 ≤ length) :
    extendBack (-length) (extendBack length c) = anchored c := by
  have hpos : 0 ≤ c.length := by
    rw [BlockCore.length_eq]
    linarith
  have hback : extendBack length c = { c with
      range := ⟨c.out - (c.length + length), c.out⟩
      mediaIn := c.out - (c.length + length) } := BlockCore.setLengthAndMediaOut_of_le c (by linarith)
  have hlong : (extendBack length c).length + -length = c.length := by
    rw [hback]
    simp only [BlockCore.length, BlockCore.out, TimeRange.length]
    ring
  rw [extendBack, hlong, BlockCore.setLengthAndMediaOut_of_le _ hpos, hback]
  have hin : c.out - c.length = c.in_ := by
    rw [BlockCore.length_eq, sub_sub_cancel]
  change ({ c with
    range := ⟨c.out - c.length, c.out⟩
    mediaIn := c.out - c.length } : BlockCore F) = _
  rw [hin]
  rfl

section

variable (h : Insertable g carried list l t blocks)
  (hsettled : ∀ x ∈ unlocked l t, Settled point (blocks x))
  (hprepared : Prepared g g' l t point length added) (hlength : 0 ≤ length)

include h hsettled hprepared hlength

/-- A track that is not touched, but for the gap on it that is extended. -/
theorem Insertable.behaviorOf_track (hx : x ∈ l.tracks)
    (hplan : x ∈ unlocked l t → (planTrack g point x).before? = none) :
    (insertAll point length added g').behaviorOf x = some (.track (t x)) := by
  have hnone : ∀ a ∈ added, x ≠ a.track := by
    rintro a ha rfl
    obtain ⟨hmem, hbefore⟩ := hprepared.plan_of_mem ha
    rw [hplan hmem] at hbefore
    exact absurd hbefore (by simp)
  rw [hprepared.behaviorOf_insertAll hlength (h.track x hx).behavior hnone, if_neg]
  intro hmem
  obtain ⟨x', hx', -, b, hb, -⟩ := h.mem_gapsAt hsettled hmem
  exact h.ne_track (mem_unlocked.1 hx').1 hb hx rfl

theorem Insertable.behaviorOf_block (hx : x ∈ l.tracks) (hp : p ∈ blocks x)
    (hplan : x ∈ unlocked l t → planTrack g point x ≠ .extend p.1) :
    (insertAll point length added g').behaviorOf p.1 = some p.2 := by
  have htrack : ∀ a ∈ added, p.1 ≠ a.track := fun a ha =>
    h.ne_track hx hp (mem_unlocked.1 (hprepared.plan_of_mem ha).1).1
  rw [hprepared.behaviorOf_insertAll hlength ((h.track x hx).block p hp).1 htrack,
    if_neg (h.notMem_gapsAt hsettled hx hp hplan)]

theorem Insertable.track_same (hx : x ∈ l.tracks)
    (hplan : x ∈ unlocked l t → planTrack g point x = .nothing) :
    Track (insertAll point length added g') x (t x) (blocks x) := by
  refine (h.track x hx).congr ?_ fun p hp => ?_
  · rw [h.behaviorOf_track hsettled hprepared hlength hx fun hmem => by rw [hplan hmem]; rfl,
      (h.track x hx).behavior]
  · rw [h.behaviorOf_block hsettled hprepared hlength hx hp fun hmem => by rw [hplan hmem]; simp,
      ((h.track x hx).block p hp).1]

theorem Insertable.track_extend (hx : x ∈ unlocked l t) (hblocks : blocks x = pre ++ q :: post)
    (hplan : planTrack g point x = .extend q.1) :
    Track (insertAll point length added g') x
      { t x with blocks := (pre ++ (q.1, q.2.modifyCore (extendBack length)) :: post).map Prod.fst }
      (pre ++ (q.1, q.2.modifyCore (extendBack length)) :: post) := by
  have hxl := (mem_unlocked.1 hx).1
  have htrack := h.track x hxl
  rw [hblocks] at htrack
  have hids : (pre ++ (q.1, q.2.modifyCore (extendBack length)) :: post).map Prod.fst =
      (pre ++ q :: post).map Prod.fst := by simp
  have hkept (p : NodeId × Behavior F β) (hp : p ∈ pre ++ post) :
      (insertAll point length added g').behaviorOf p.1 = some p.2 ∧
        ∃ core, p.2.blockCore = some core ∧ core.track = some x := by
    have hmem : p ∈ pre ++ q :: post := ((List.sublist_cons_self _ _).append_left _).subset hp
    refine ⟨h.behaviorOf_block hsettled hprepared hlength hxl (hblocks ▸ hmem) fun _ heq => ?_,
      (htrack.block p hmem).2⟩
    rw [hplan] at heq
    exact htrack.fst_ne (x := q.1) (b := q.2) hp (GapPlan.extend.inj heq).symm
  refine ⟨?_, rfl, hids ▸ htrack.nodup, fun p hp => ?_⟩
  · rw [h.behaviorOf_track hsettled hprepared hlength hxl fun _ => by rw [hplan]; rfl, hids,
      ← htrack.order]
  · rcases List.mem_append.1 hp with hp' | hp'
    · exact hkept p (List.mem_append_left _ hp')
    rcases List.mem_cons.1 hp' with rfl | hp'
    · have hq : q ∈ blocks x := by
        rw [hblocks]
        simp
      obtain ⟨hqb, core, hcore, howner⟩ := (h.track x hxl).block q hq
      have hmem : q.1 ∈ gapsAt g point (unlocked l t) :=
        List.mem_filterMap.2 ⟨x, hx, by rw [hplan]; rfl⟩
      rw [hprepared.behaviorOf_insertAll hlength hqb fun a ha =>
        h.ne_track hxl hq (mem_unlocked.1 (hprepared.plan_of_mem ha).1).1, if_pos hmem]
      refine ⟨rfl, extendBack length core, ?_, howner⟩
      rw [Behavior.blockCore_modifyCore, hcore, Option.map_some]
    · exact hkept p (List.mem_append_right _ hp')

theorem Insertable.track_add (hx : x ∈ unlocked l t) (hblocks : blocks x = pre ++ q :: post)
    (hplan : planTrack g point x = .add none (some q.1)) :
    ∃ gap, ∀ new, new = (gap, Behavior.gap ⟨{ newGapCore point length with track := some x }⟩) →
      Track (insertAll point length added g') x
        { t x with blocks := (pre ++ q :: new :: post).map Prod.fst } (pre ++ q :: new :: post) := by
  have hxl := (mem_unlocked.1 hx).1
  have htrack := h.track x hxl
  rw [hblocks] at htrack
  obtain ⟨a, ha, rfl, hbefore⟩ := hprepared.mem_added hx hplan
  obtain ⟨hin, hgap, -⟩ := hprepared.fitting.insertAll hlength rfl
  obtain ⟨pre', z, post', hz, hsplit, hins⟩ := hin a ha
  obtain rfl := Option.some.inj (hz.symm.trans hbefore)
  have hfresh := hprepared.fitting.fresh a ha
  have hnodup := htrack.nodup
  have hall := hprepared.fitting.nodup a ha
  rw [hsplit] at hall hfresh
  -- the block is at one place of the track
  have hplace : pre.map Prod.fst = pre' ∧ post.map Prod.fst = post' := by
    rw [htrack.order, List.map_append, List.map_cons] at hsplit
    have hnotPre : q.1 ∉ pre' := fun hmem =>
      (List.nodup_append.1 hall).2.2 q.1 hmem q.1 List.mem_cons_self rfl
    have hnotPost : q.1 ∉ post' := (List.nodup_cons.1 (List.nodup_append.1 hall).2.1).1
    obtain ⟨hpre, -, hpost⟩ := (List.append_cons_inj_of_notMem hnotPre hnotPost).1 hsplit.symm
    exact ⟨hpre.symm, hpost.symm⟩
  obtain ⟨rfl, rfl⟩ := hplace
  have hids (b : Behavior F β) : (pre ++ q :: (a.gap, b) :: post).map Prod.fst =
      pre.map Prod.fst ++ q.1 :: a.gap :: post.map Prod.fst := by simp
  have hkept (p : NodeId × Behavior F β) (hp : p ∈ pre ++ q :: post) :
      (insertAll point length added g').behaviorOf p.1 = some p.2 ∧
        ∃ core, p.2.blockCore = some core ∧ core.track = some a.track :=
    ⟨h.behaviorOf_block hsettled hprepared hlength hxl (hblocks ▸ hp) fun _ => by simp [hplan],
      (htrack.block p hp).2⟩
  refine ⟨a.gap, fun new hnew => ?_⟩
  subst hnew
  refine ⟨?_, rfl, ?_, fun p hp => ?_⟩
  · rw [hids]
    exact hins
  · rw [hids, List.append_cons, List.nodup_middle, List.nodup_cons, ← List.append_cons]
    exact ⟨hfresh, hall⟩
  · rcases List.mem_append.1 hp with hp' | hp'
    · exact hkept p (List.mem_append_left _ hp')
    rcases List.mem_cons.1 hp' with rfl | hp'
    · exact hkept p (by simp)
    rcases List.mem_cons.1 hp' with rfl | hp'
    · exact ⟨hgap a ha, _, rfl, rfl⟩
    · exact hkept p (List.mem_append_right _ (List.mem_cons_of_mem q hp'))

/-- After an undo, a gap that was extended begins with its media at its in point. Everything else is
as it was. -/
theorem Insertable.behaviorOf_undo (y : NodeId) :
    ((gapsAt g point (unlocked l t)).foldl (extendGap (-length))
      (AddGap.removeAll added (insertAll point length added g')).2).behaviorOf y =
      if y ∈ gapsAt g point (unlocked l t) then (g.behaviorOf y).map (.modifyCore anchored)
      else g.behaviorOf y := by
  obtain ⟨hgone, hother⟩ := hprepared.fitting.removeAll hlength rfl rfl
  rw [behaviorOf_foldl_extendGap (h.nodup_gapsAt hsettled)]
  by_cases hy : y ∈ gapsAt g point (unlocked l t)
  · obtain ⟨x, hx, -, b, hb, -⟩ := h.mem_gapsAt hsettled hy
    obtain ⟨hyb, core, hcore, -⟩ := (h.track x (mem_unlocked.1 hx).1).block (y, b) hb
    have hlt := (h.sorted x (mem_unlocked.1 hx).1).1 (y, b) hb
    rw [inOf_eq hcore, outOf_eq hcore] at hlt
    have hnot : y ∉ added.map AddGap.gap :=
      notMem_of_found (List.forall_mem_map.2 hprepared.fresh) hyb
    rw [if_pos hy, if_pos hy]
    change ((AddGap.removeAll added (added.foldl (fun g a => a.insert point length g)
      g')).2.behaviorOf y).map _ = _
    rw [hother y fun a ha heq => hnot (List.mem_map.2 ⟨a, ha, heq.symm⟩), hprepared.behaviorOf,
      if_neg hnot, if_pos hy, hyb, Option.map_some, Option.map_some, Option.map_some,
      Behavior.modifyCore_modifyCore]
    exact congrArg some (Behavior.modifyCore_congr hcore (extendBack_neg hlt.le hlength))
  · rw [if_neg hy, if_neg hy]
    by_cases hmem : y ∈ added.map AddGap.gap
    · obtain ⟨a, ha, rfl⟩ := List.mem_map.1 hmem
      rw [hprepared.fresh a ha]
      exact hgone a ha
    · refine (hother y fun a ha heq => hmem (List.mem_map.2 ⟨a, ha, heq.symm⟩)).trans ?_
      rw [hprepared.behaviorOf, if_neg hmem, if_neg hy]

end

end Run

/-! ### What the command is for -/

section Result

variable [ClipSpeed F]

/-- Time was made on a track: its blocks are in order, what was before the point is where it was,
and what was behind it is later by `length`. -/
def InsertedOn (g' : ProjectGraph F β) (x : NodeId) (t : TrackBehavior F)
    (blocks : List (NodeId × Behavior F β)) (point length : Rational) : Prop :=
  ∃ blocks', Track g' x { t with blocks := blocks'.map Prod.fst } blocks' ∧ Sorted blocks' ∧
    ∀ p ∈ blocks, isGapBlock p.2 = false → ∀ time, inOf p.2 ≤ time → time < outOf p.2 →
      Plays blocks' (if time < point then time else time + length) p.2 (mediaTime p.2 time)

variable [NodeBehavior F β]

/-- With and without a preparation: time is made on the tracks that are not locked, the others stay,
and an undo restores the graph. -/
def InsertsExactly (order : List NodeId → List NodeId) (g : ProjectGraph F β) (list : NodeId)
    (l : TrackListBehavior) (t : NodeId → TrackBehavior F)
    (blocks : NodeId → List (NodeId × Behavior F β)) (point length : Rational) : Prop :=
  ∀ prepared : Bool,
    let c := new list point length
    let start := if prepared then c.prepare g else (c, g)
    let r := start.1.redo order start.2
    (∀ x ∈ l.tracks, if (t x).locked then Track r.2 x (t x) (blocks x)
      else InsertedOn r.2 x (t x) (blocks x) point length) ∧
    ∀ y, (r.1.undo r.2).2.behaviorOf y = g.behaviorOf y

/-- Nothing but gaps reaches beyond the point. Where the first block that stops the loop is a gap,
it has room in front of it and begins with its media at its in point; where it is a clip, there is
room behind the point. -/
structure Ready (point length : Rational) (blocks : List (NodeId × Behavior F β)) : Prop where
  settled : Settled point blocks
  room : ∀ pre q post, blocks = pre ++ q :: post → (∀ r ∈ pre, ¬ Meets point r.2) →
    Meets point q.2 →
    if isGapBlock q.2 then (∀ r ∈ pre.getLast?, outOf r.2 + length ≤ inOf q.2) ∧
      ∀ core, q.2.blockCore = some core → core.mediaIn = core.in_
    else ∀ r ∈ post.head?, point + length ≤ inOf r.2

variable {order : List NodeId → List NodeId} {g g' : ProjectGraph F β}
  {carried : List (NodeId × NodeId)} {list : NodeId} {l : TrackListBehavior}
  {t : NodeId → TrackBehavior F} {blocks : NodeId → List (NodeId × Behavior F β)}
  {point length : Rational} {x : NodeId}

omit [NodeBehavior F β] in
/-- Where everything lies before the point, the content has to stay. -/
theorem insertedOn_iff {old new : List (NodeId × Behavior F β)} {t : TrackBehavior F}
    (h : Track g' x { t with blocks := new.map Prod.fst } new) (hsettled : Settled point old)
    (hkept : ∀ p ∈ old, isGapBlock p.2 = false → p ∈ new) :
    InsertedOn g' x t old point length ↔ Sorted new := by
  constructor
  · rintro ⟨blocks', h', hsorted, -⟩
    have hsame := Behavior.track.inj (Option.some.inj (h'.behavior.symm.trans h.behavior))
    rw [hsame] at h'
    rwa [Timeline.track_unique h' h] at hsorted
  · refine fun hsorted => ⟨new, h, hsorted, fun p hp hgap time hin hout => ?_⟩
    have hle := hsettled p hp hgap
    rw [if_pos (hout.trans_le hle)]
    exact ⟨p, hkept p hp hgap, hgap, hin, hout, rfl, rfl⟩

omit [NodeBehavior F β] in
/-- Content that has to be later, and is where it was, does not reach beyond the point. -/
theorem settled_of_plays {blocks : List (NodeId × Behavior F β)} (hlength : 0 < length)
    (hplays : ∀ p ∈ blocks, isGapBlock p.2 = false → ∀ time, inOf p.2 ≤ time →
      time < outOf p.2 → Plays blocks (if time < point then time else time + length) p.2
        (mediaTime p.2 time))
    (hpos : ∀ p ∈ blocks, inOf p.2 < outOf p.2) : Settled point blocks := by
  by_contra hnot
  simp only [Settled, not_forall, not_le] at hnot
  obtain ⟨p, hp, hgap, hbeyond⟩ := hnot
  -- the last content to end has nothing `length` behind its end
  obtain ⟨m, ⟨hm, hmgap⟩, hmax⟩ := Set.exists_max_image
    {p | p ∈ blocks ∧ isGapBlock p.2 = false} (fun p => outOf p.2)
    (blocks.finite_toSet.subset fun p hp => hp.1) ⟨p, hp, hgap⟩
  have hmpos := hpos m hm
  have hmbeyond : point < outOf m.2 := hbeyond.trans_le (hmax p ⟨hp, hgap⟩)
  have htime : max (max point (inOf m.2)) (outOf m.2 - length) < outOf m.2 :=
    max_lt (max_lt hmbeyond hmpos) (by linarith)
  obtain ⟨p', hp', hgap', -, hout, -⟩ := hplays m hm hmgap
    (max (max point (inOf m.2)) (outOf m.2 - length))
    ((le_max_right _ _).trans (le_max_left _ _)) htime
  rw [if_neg (not_lt.2 ((le_max_left _ _).trans (le_max_left _ _)))] at hout
  have hle : outOf p'.2 ≤ outOf m.2 := hmax p' ⟨hp', hgap'⟩
  have hge := le_max_right (max point (inOf m.2)) (outOf m.2 - length)
  linarith

theorem Insertable.run (h : Insertable g carried list l t blocks)
    (hsettled : ∀ x ∈ unlocked l t, Settled point (blocks x)) (hlength : 0 ≤ length)
    (order : List NodeId → List NodeId) :
    ∃ added g', Prepared g g' l t point length added ∧
      let start := (new list point length).prepare g
      let r := start.1.redo order start.2
      r.2 = insertAll point length added g' ∧ ∀ y, (r.1.undo r.2).2.behaviorOf y =
        if y ∈ gapsAt g point (unlocked l t) then (g.behaviorOf y).map (.modifyCore anchored)
        else g.behaviorOf y := by
  obtain ⟨added, g₁, hprepare, hprepared⟩ := h.prepare_spec hsettled length
  refine ⟨added, _, hprepared, ?_⟩
  have hadded : (added.map fun a => { a with entry := none }) = added := by
    refine (List.map_congr_left fun a ha => ?_).trans (List.map_id added)
    have hentry := hprepared.fitting.entry a ha
    obtain ⟨gap, entry, before, track⟩ := a
    obtain rfl : entry = none := hentry
    rfl
  have hredo : (((new list point length).prepare g).1.redo order
      ((new list point length).prepare g).2) =
      (⟨list, point, length, unlocked l t, gapsAt g point (unlocked l t), added, none⟩,
        insertAll point length added
          ((gapsAt g point (unlocked l t)).foldl (extendGap length) g₁)) := by
    rw [hprepare]
    simp only [redo, Option.map_none, Option.getD_none, hadded]
    rfl
  refine ⟨by rw [hredo], fun y => ?_⟩
  rw [hredo]
  exact h.behaviorOf_undo hsettled hprepared hlength y

variable {added : List (AddGap F β)} {pre post : List (NodeId × Behavior F β)}

variable {q : NodeId × Behavior F β}

section

variable (h : Insertable g carried list l t blocks)
  (hsettled : ∀ x ∈ unlocked l t, Settled point (blocks x))
  (hprepared : Prepared g g' l t point length added)

include h hsettled hprepared

omit [NodeBehavior F β] in
theorem Insertable.insertedOn_extend_iff (hlength : 0 ≤ length) (hx : x ∈ unlocked l t)
    (hblocks : blocks x = pre ++ q :: post) (hgap : isGapBlock q.2 = true)
    (hplan : planTrack g point x = .extend q.1) :
    InsertedOn (insertAll point length added g') x (t x) (blocks x) point length ↔
      ∀ r ∈ pre.getLast?, outOf r.2 + length ≤ inOf q.2 := by
  have hsorted := h.sorted x (mem_unlocked.1 hx).1
  have hq : q ∈ blocks x := by
    rw [hblocks]
    simp
  obtain ⟨-, core, hcore, -⟩ := (h.track x (mem_unlocked.1 hx).1).block q hq
  have hlt := hsorted.1 q hq
  have hpos : 0 ≤ core.length + length := by
    rw [length_eq_outOf_sub hcore]
    linarith
  have hback : extendBack length core = { core with
      range := ⟨core.out - (core.length + length), core.out⟩
      mediaIn := core.out - (core.length + length) } := BlockCore.setLengthAndMediaOut_of_le core hpos
  have hin : inOf (q.2.modifyCore (extendBack length)) = inOf q.2 - length := by
    rw [inOf_modifyCore hcore, hback, inOf_eq hcore]
    change core.out - (core.length + length) = core.in_ - length
    rw [BlockCore.length_eq]
    ring
  have hout : outOf (q.2.modifyCore (extendBack length)) = outOf q.2 := by
    rw [outOf_modifyCore hcore, hback, outOf_eq hcore]
    rfl
  have htrack := h.track_extend hsettled hprepared hlength hx hblocks hplan
  rw [insertedOn_iff htrack (hsettled x hx) fun p hp hpgap => ?_, sorted_around_iff, hin, hout]
  · rw [hblocks, sorted_around_iff] at hsorted
    obtain ⟨⟨hpre, -⟩, -, hpost⟩ := hsorted
    constructor
    · rintro ⟨⟨-, hroom⟩, -⟩ r hr
      have hle := hroom r hr
      linarith
    · refine fun hroom => ⟨⟨hpre, fun r hr => ?_⟩, by linarith, hpost⟩
      have hle := hroom r hr
      linarith
  · rw [hblocks] at hp
    rcases List.mem_append.1 hp with hp' | hp'
    · exact List.mem_append_left _ hp'
    rcases List.mem_cons.1 hp' with rfl | hp'
    · exact absurd (hpgap.symm.trans hgap) (by simp)
    · exact List.mem_append_right _ (List.mem_cons_of_mem _ hp')

omit [NodeBehavior F β] in
theorem Insertable.insertedOn_add_iff (hlength : 0 < length) (hx : x ∈ unlocked l t)
    (hblocks : blocks x = pre ++ q :: post) (hout : outOf q.2 = point)
    (hplan : planTrack g point x = .add none (some q.1)) :
    InsertedOn (insertAll point length added g') x (t x) (blocks x) point length ↔
      ∀ r ∈ post.head?, point + length ≤ inOf r.2 := by
  have hsorted := h.sorted x (mem_unlocked.1 hx).1
  obtain ⟨gap, hadd⟩ := h.track_add hsettled hprepared hlength.le hx hblocks hplan
  have htrack := hadd _ rfl
  have hin : inOf (Behavior.gap ⟨{ newGapCore point length with track := some x }⟩ :
      Behavior F β) = point := rfl
  have hend : outOf (Behavior.gap ⟨{ newGapCore point length with track := some x }⟩ :
      Behavior F β) = point + length := rfl
  rw [insertedOn_iff htrack (hsettled x hx) fun p hp _ => ?_, List.append_cons, sorted_around_iff,
    hin, hend]
  · rw [hblocks, List.append_cons, sorted_append] at hsorted
    obtain ⟨hpre, hpost, -⟩ := hsorted
    constructor
    · exact fun hall => hall.2.2.2
    · refine fun hroom => ⟨⟨hpre, fun r hr => ?_⟩, by linarith, hpost, hroom⟩
      obtain rfl : q = r := by simpa using hr
      exact hout.le
  · rw [hblocks] at hp
    rcases List.mem_append.1 hp with hp' | hp'
    · exact List.mem_append_left _ hp'
    rcases List.mem_cons.1 hp' with rfl | hp'
    · simp
    · simp [hp']

omit [NodeBehavior F β] in
theorem Insertable.ready_iff (hlength : 0 < length) (hx : x ∈ unlocked l t) :
    Ready point length (blocks x) ↔
      InsertedOn (insertAll point length added g') x (t x) (blocks x) point length ∧
        ∀ y, planTrack g point x = .extend y →
          (g.behaviorOf y).map (.modifyCore anchored) = g.behaviorOf y := by
  have hxl := (mem_unlocked.1 hx).1
  have htrack := h.track x hxl
  have hsorted := h.sorted x hxl
  have hself : { t x with blocks := (blocks x).map Prod.fst } = t x := by rw [← htrack.order]
  -- a track that nothing is done on
  have hsame (hplan : planTrack g point x = .nothing) :
      InsertedOn (insertAll point length added g') x (t x) (blocks x) point length ∧
        ∀ y, planTrack g point x = .extend y →
          (g.behaviorOf y).map (.modifyCore anchored) = g.behaviorOf y := by
    have htrack' := h.track_same hsettled hprepared hlength.le hxl fun _ => hplan
    refine ⟨(insertedOn_iff (hself.symm ▸ htrack') (hsettled x hx) fun p hp _ => hp).2 hsorted,
      fun y hy => ?_⟩
    rw [hplan] at hy
    exact absurd hy (by simp)
  rcases exists_first (blocks x) point with hnone | ⟨pre, q, post, hblocks, hpre, hq⟩
  · refine ⟨fun _ => hsame (planTrack_of_forall htrack hnone), fun _ => ⟨hsettled x hx,
      fun pre q post hblocks _ hq => absurd hq (hnone q (by simp [hblocks]))⟩⟩
  have hready : Ready point length (blocks x) ↔
      if isGapBlock q.2 then (∀ r ∈ pre.getLast?, outOf r.2 + length ≤ inOf q.2) ∧
        ∀ core, q.2.blockCore = some core → core.mediaIn = core.in_
      else ∀ r ∈ post.head?, point + length ≤ inOf r.2 := by
    refine ⟨fun hready => hready.room pre q post hblocks hpre hq, fun hroom => ⟨hsettled x hx,
      fun pre' q' post' hblocks' hpre' hq' => ?_⟩⟩
    obtain ⟨rfl, rfl, rfl⟩ := first_unique (hblocks.symm.trans hblocks') hpre hq hpre' hq'
    exact hroom
  have hsettledx := hsettled x hx
  have htrackq := htrack
  have hsortedq := hsorted
  rw [hblocks] at htrackq hsortedq hsettledx
  rw [hready]
  rcases hgap : isGapBlock q.2 with _ | _
  · rw [if_neg Bool.false_ne_true]
    have hge : point ≤ outOf q.2 := by
      rcases hb : q.2 with b | b | b | b | b | b | b | b | b
      · rw [hb] at hq
        exact hq
      · exact absurd (hb ▸ hgap) (by simp [isGapBlock])
      all_goals exact absurd (hb ▸ hq) (by simp [Meets])
    have hout := le_antisymm (hsettledx q (by simp) hgap) hge
    have hplan := planTrack_of_clip htrackq hsortedq hpre hq hgap hout
    by_cases hpost : post = []
    · rw [if_pos hpost] at hplan
      refine ⟨fun _ => hsame hplan, fun _ => ?_⟩
      simp [hpost]
    · rw [if_neg hpost] at hplan
      rw [h.insertedOn_add_iff hsettled hprepared hlength hx hblocks hout hplan]
      simp [hplan]
  · have hplan := planTrack_of_gap htrackq hpre hq hgap
    obtain ⟨hqb, core, hcore, -⟩ := htrackq.block q (by simp)
    rw [if_pos rfl, h.insertedOn_extend_iff hsettled hprepared hlength.le hx hblocks hgap hplan]
    refine and_congr_right fun _ => ⟨fun hanchor y hy => ?_, fun hback core' hcore' => ?_⟩
    · obtain rfl := GapPlan.extend.inj (hplan.symm.trans hy)
      rw [hqb, Option.map_some]
      refine congrArg some (Behavior.modifyCore_eq_self hcore ?_)
      rw [anchored, ← hanchor core hcore]
    · obtain rfl := Option.some.inj (hcore.symm.trans hcore')
      have hsameq := hback q.1 hplan
      rw [hqb, Option.map_some] at hsameq
      have hcores := congrArg Behavior.blockCore (Option.some.inj hsameq)
      rw [Behavior.blockCore_modifyCore, hcore, Option.map_some] at hcores
      exact (congrArg BlockCore.mediaIn (Option.some.inj hcores)).symm

end

omit [ClipSpeed F] [NodeBehavior F β] in
theorem Insertable.track_self (h : Insertable g carried list l t blocks) (hx : x ∈ l.tracks) :
    Track g x { t x with blocks := (blocks x).map Prod.fst } (blocks x) := by
  rw [← (h.track x hx).order]
  exact h.track x hx

theorem Insertable.settled_of_exact (h : Insertable g carried list l t blocks)
    (hlength : 0 < length) (hexact : InsertsExactly order g list l t blocks point length) :
    ∀ x ∈ unlocked l t, Settled point (blocks x) := by
  intro x hx
  obtain ⟨hxl, hunlocked⟩ := mem_unlocked.1 hx
  have hon := (hexact false).1 x hxl
  rw [if_neg (by simp [hunlocked])] at hon
  obtain ⟨blocks', h', -, hplays⟩ := hon
  have hself := h.track_self hxl
  have hsame := Behavior.track.inj (Option.some.inj (h'.behavior.symm.trans hself.behavior))
  rw [hsame] at h'
  obtain rfl := Timeline.track_unique h' hself
  exact settled_of_plays hlength hplays (h.sorted x hxl).1

/-- **Inserting gaps.** Where the times are exact, time is made on every track that is not locked,
and an undo restores the graph, exactly where all of them are ready. -/
theorem insertsExactly_iff (h : Insertable g carried list l t blocks) (hlength : 0 < length)
    (_ : ∀ x ∈ unlocked l t, Exacts (insertTimes point length (blocks x))) :
    InsertsExactly order g list l t blocks point length ↔
      ∀ x ∈ l.tracks, (t x).locked = false → Ready point length (blocks x) := by
  constructor
  · intro hexact
    have hsettled := h.settled_of_exact hlength hexact
    obtain ⟨added, g', hprepared, hrun, hundo⟩ := h.run hsettled hlength.le order
    intro x hxl hunlocked
    have hx := mem_unlocked.2 ⟨hxl, hunlocked⟩
    refine (h.ready_iff hsettled hprepared hlength hx).2 ⟨?_, fun y hy => ?_⟩
    · have hon := (hexact true).1 x hxl
      rw [if_neg (by simp [hunlocked])] at hon
      exact hrun ▸ hon
    · have hmem : y ∈ gapsAt g point (unlocked l t) :=
        List.mem_filterMap.2 ⟨x, hx, by rw [hy]; rfl⟩
      have hback := (hundo y).symm.trans ((hexact true).2 y)
      rwa [if_pos hmem] at hback
  · intro hready prepared
    have hsettled : ∀ x ∈ unlocked l t, Settled point (blocks x) := fun x hx =>
      (hready x (mem_unlocked.1 hx).1 (mem_unlocked.1 hx).2).settled
    cases prepared with
    | false =>
      refine ⟨fun x hx => ?_, fun y => rfl⟩
      rcases hlocked : (t x).locked with _ | _
      · rw [if_neg Bool.false_ne_true]
        exact (insertedOn_iff (h.track_self hx) (hready x hx hlocked).settled fun p hp _ => hp).2
          (h.sorted x hx)
      · exact h.track x hx
    | true =>
      obtain ⟨added, g', hprepared, hrun, hundo⟩ := h.run hsettled hlength.le order
      refine ⟨fun x hx => ?_, fun y => ?_⟩
      · rcases hlocked : (t x).locked with _ | _
        · rw [if_neg Bool.false_ne_true]
          have hmem := mem_unlocked.2 ⟨hx, hlocked⟩
          have hon := (h.ready_iff hsettled hprepared hlength hmem).1 (hready x hx hlocked)
          exact hrun.symm ▸ hon.1
        · rw [if_pos rfl]
          have hsame := h.track_same hsettled hprepared hlength.le hx fun hmem =>
            absurd (mem_unlocked.1 hmem).2 (by simp [hlocked])
          exact hrun.symm ▸ hsame
      · refine (hundo y).trans ?_
        split_ifs with hy
        · obtain ⟨x, hx, hplan, -⟩ := h.mem_gapsAt hsettled hy
          have hmem := mem_unlocked.1 hx
          exact ((h.ready_iff hsettled hprepared hlength hx).1 (hready x hmem.1 hmem.2)).2 y hplan
        · rfl

end Result

section Examples

/-- A clip of ten seconds, and a gap ten seconds behind it. -/
def clipAndGap : ProjectGraph ℚ Plain :=
  ((((Graph.new.addNode .new (.trackList ⟨.video, [⟨1, 0⟩], none, 0⟩)).1.addNode .new
    (.track ⟨.video, [⟨2, 0⟩, ⟨3, 0⟩], false, false, 3, 0, some ⟨0, 0⟩⟩)).1.addNode .new
    (.clip ⟨⟨⟨0, 10⟩, 0, 1, false, [], true, false, 0, some ⟨1, 0⟩⟩, none⟩)).1.addNode .new
    (.gap ⟨⟨⟨20, 40⟩, 20, 1, false, [], true, false, 0, some ⟨1, 0⟩⟩⟩)).1

/-- The blocks of the track. -/
def clipAndGapBlocks : List (NodeId × Behavior ℚ Plain) :=
  [(⟨2, 0⟩, .clip ⟨⟨⟨0, 10⟩, 0, 1, false, [], true, false, 0, some ⟨1, 0⟩⟩, none⟩),
    (⟨3, 0⟩, .gap ⟨⟨⟨20, 40⟩, 20, 1, false, [], true, false, 0, some ⟨1, 0⟩⟩⟩)]

theorem insertable_clipAndGap : Insertable clipAndGap [] ⟨0, 0⟩ ⟨.video, [⟨1, 0⟩], none, 0⟩
    (fun _ => ⟨.video, [⟨2, 0⟩, ⟨3, 0⟩], false, false, 3, 0, some ⟨0, 0⟩⟩)
    fun _ => clipAndGapBlocks where
  list := rfl
  nodup := List.nodup_singleton _
  track x hx := by
    obtain rfl := List.mem_singleton.1 hx
    refine ⟨rfl, rfl, by decide, fun p hp => ?_⟩
    rcases List.mem_cons.1 hp with rfl | hp
    · exact ⟨rfl, _, rfl, rfl⟩
    · obtain rfl := List.mem_singleton.1 hp
      exact ⟨rfl, _, rfl, rfl⟩
  sorted x hx := by
    norm_num [Sorted, clipAndGapBlocks, inOf, outOf, Behavior.blockCore, BlockCore.in_,
      BlockCore.out]
  sound := (((Graph.sound_new.allocate _ _).allocate _ _).allocate _ _).allocate _ _
  room := by decide

/-- The point is in the gap, which has room in front of it. -/
theorem insertsExactly_iff_in_gap : InsertsExactly id clipAndGap ⟨0, 0⟩
    ⟨.video, [⟨1, 0⟩], none, 0⟩
    (fun _ => ⟨.video, [⟨2, 0⟩, ⟨3, 0⟩], false, false, 3, 0, some ⟨0, 0⟩⟩)
    (fun _ => clipAndGapBlocks) 30 5 := by
  refine (insertsExactly_iff insertable_clipAndGap (by norm_num)
    fun _ _ => by decide +kernel).2 fun x _ _ => ⟨?_, ?_⟩
  · intro p hp hgap
    rcases List.mem_cons.1 hp with rfl | hp
    · norm_num [outOf, Behavior.blockCore, BlockCore.out]
    · obtain rfl := List.mem_singleton.1 hp
      exact absurd hgap (by simp [isGapBlock])
  · intro pre q post hblocks hpre hq
    have hsplit : clipAndGapBlocks.take 1 ++ (⟨3, 0⟩, _) :: [] = pre ++ q :: post := hblocks
    obtain ⟨rfl, rfl, rfl⟩ := first_unique hsplit
      (fun r hr => by
        obtain rfl := List.mem_singleton.1 hr
        norm_num [Meets, BlockCore.out]) (by norm_num [Meets, BlockCore.in_, BlockCore.out]) hpre hq
    refine ⟨fun r hr => ?_, fun core hcore => ?_⟩
    · obtain rfl := Option.some.inj hr
      norm_num [inOf, outOf, Behavior.blockCore, BlockCore.in_, BlockCore.out]
    · obtain rfl := Option.some.inj hcore
      rfl

/-- A command that was not prepared leaves the clip where it is. -/
theorem not_insertsExactly_unprepared : ¬ ∀ (order : List NodeId → List NodeId)
    (g : ProjectGraph ℚ Plain) carried list l t blocks (point length : Rational),
    Insertable g carried list l t blocks → 0 ≤ point → 0 < length →
      InsertsExactly order g list l t blocks point length := by
  intro hall
  have hexact := hall id clipAndGap _ _ _ _ _ 5 5 insertable_clipAndGap (by norm_num) (by norm_num)
  have hsettled := insertable_clipAndGap.settled_of_exact (by norm_num) hexact ⟨1, 0⟩
    (by simp [unlocked]) _ List.mem_cons_self rfl
  norm_num [outOf, Behavior.blockCore, BlockCore.out] at hsettled

end Examples

end Oak.Timeline
