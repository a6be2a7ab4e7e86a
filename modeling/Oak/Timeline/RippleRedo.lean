import Oak.Timeline.Ripple

/-!
# A redo of derived operations

`TrackRippleRemoveAreaCommand::redo`, when the operations were derived and no block is split. Its
three phases are the trims, the removal of the blocks from their track, and the removal of those
nodes from the graph that feed no input.

## Main results

* `behaviorOf_trims`, `Track.behaviorOf_rippleRemoveAll`: the behavior of a node after the first two
  phases.
* `redo_prepared`: the graph after a redo.
-/

namespace Oak.Timeline

open Oak.Core Oak.Lib Oak.Node Oak.Undo TrackRippleRemoveAreaCommand

variable {F β : Type*} {g : ProjectGraph F β} {track x : NodeId} {t : TrackBehavior F}
  {b : Behavior F β} {core : BlockCore F} {blocks pre post mid : List (NodeId × Behavior F β)}
  {c : TrackRippleRemoveAreaCommand F β} {length : TrimOperation → Rational}

/-! ### The trims -/

/-- What the trims make of the behavior of a node. -/
def TrackRippleRemoveAreaCommand.trimmed (c : TrackRippleRemoveAreaCommand F β)
    (length : TrimOperation → Rational) (y : NodeId) (b : Behavior F β) : Behavior F β :=
  let b := c.trimOut.elim b fun t =>
    if y = t.block then b.modifyCore fun core => core.setLengthAndMediaIn (length t) else b
  c.trimIn.elim b fun t =>
    if y = t.block then b.modifyCore fun core => core.setLengthAndMediaOut (length t) else b

theorem behaviorOf_trims (y : NodeId) :
    (c.trims length g).behaviorOf y = (g.behaviorOf y).map (c.trimmed length y) := by
  have hout (g : ProjectGraph F β) (t : TrimOperation) :
      (blockSetLengthAndMediaIn g t.block (length t)).behaviorOf y = (g.behaviorOf y).map fun b =>
        if y = t.block then b.modifyCore fun core => core.setLengthAndMediaIn (length t)
        else b := by
    rw [blockSetLengthAndMediaIn, behaviorOf_modifyBlock]
    split_ifs <;> simp
  have hin (g : ProjectGraph F β) (t : TrimOperation) :
      (blockSetLengthAndMediaOut g t.block (length t)).behaviorOf y = (g.behaviorOf y).map fun b =>
        if y = t.block then b.modifyCore fun core => core.setLengthAndMediaOut (length t)
        else b := by
    rw [blockSetLengthAndMediaOut, behaviorOf_modifyBlock]
    split_ifs <;> simp
  obtain ⟨_, _, _, _ | t, _, _ | t', _, _, _, _⟩ := c
  · exact Option.map_id'.symm
  · exact hin g t'
  · exact hout g t
  · show (blockSetLengthAndMediaOut (blockSetLengthAndMediaIn g t.block (length t)) t'.block
      (length t')).behaviorOf y = _
    rw [hin, hout, Option.map_map]
    rfl

@[simp] theorem edges_trims : (c.trims length g).edges = g.edges := by
  rcases hc : c.trimOut with _ | t <;> rcases hc' : c.trimIn with _ | t' <;>
    simp [trims, hc, hc', blockSetLengthAndMediaIn, blockSetLengthAndMediaOut]

theorem vacant_trims {i n : ℕ} :
    (c.trims length g).entries[i]? = some (.vacant n) ↔ g.entries[i]? = some (.vacant n) := by
  rcases hc : c.trimOut with _ | t <;> rcases hc' : c.trimIn with _ | t' <;>
    simp [trims, hc, hc', blockSetLengthAndMediaIn, blockSetLengthAndMediaOut, vacant_modifyBlock]

/-! ### The blocks leave their track -/

/-- The blocks that are removed leave their track. -/
def rippleRemoveAll (g : ProjectGraph F β) (track : NodeId) (ops : List RemoveOperation) :
    ProjectGraph F β :=
  ops.foldl (fun g op => trackRippleRemoveBlock g track op.block) g

/-- The block without a track. -/
def withoutTrack (c : BlockCore F) : BlockCore F := { c with track := none }

theorem edges_rippleRemoveAll (ops : List RemoveOperation) :
    (rippleRemoveAll g track ops).edges = g.edges := by
  induction ops generalizing g with
  | nil => rfl
  | cons op ops ih => exact ih.trans edges_trackRippleRemoveBlock

theorem filter_ne_of_nodup {γ : Type*} [DecidableEq γ] {l l' : List γ} {a : γ}
    (h : (l ++ a :: l').Nodup) : (l ++ a :: l').filter (fun y => y ≠ a) = l ++ l' := by
  rw [List.nodup_middle, List.nodup_cons] at h
  have hne {y : γ} (hy : y ∈ l ++ l') : y ≠ a := fun heq => h.1 (heq ▸ hy)
  have hl : l.filter (fun y => y ≠ a) = l :=
    List.filter_eq_self.2 fun y hy => by simpa using hne (List.mem_append_left _ hy)
  have hl' : l'.filter (fun y => y ≠ a) = l' :=
    List.filter_eq_self.2 fun y hy => by simpa using hne (List.mem_append_right _ hy)
  rw [List.filter_append, List.filter_cons_of_neg (by simp), hl, hl']

section

variable (h : Track g track t (pre ++ (x, b) :: post))

include h

theorem Track.filter_ne : t.blocks.filter (fun z => z ≠ x) = (pre ++ post).map Prod.fst := by
  have hnodup := h.nodup
  rw [List.map_append, List.map_cons] at hnodup
  rw [h.order, List.map_append, List.map_cons, filter_ne_of_nodup hnodup, List.map_append]

theorem Track.behaviorOf_remove (y : NodeId) :
    (trackRippleRemoveBlock g track x).behaviorOf y =
      if y = track then some (.track { t with blocks := (pre ++ post).map Prod.fst })
      else if y = x then (g.behaviorOf y).map (.modifyCore withoutTrack)
      else g.behaviorOf y := by
  have hmem : x ∈ t.blocks := by
    rw [h.order]
    simp
  rw [behaviorOf_trackRippleRemoveBlock h.behavior hmem (h.ne_track (p := (x, b)) (by simp)),
    h.filter_ne]
  rfl

theorem Track.remove :
    Track (trackRippleRemoveBlock g track x) track
      { t with blocks := (pre ++ post).map Prod.fst } (pre ++ post) where
  behavior := by rw [h.behaviorOf_remove, if_pos rfl]
  order := rfl
  nodup := h.nodup.sublist (((List.sublist_cons_self _ _).append_left _).map _)
  block p hp := by
    have hmem : p ∈ pre ++ (x, b) :: post :=
      ((List.sublist_cons_self _ _).append_left _).subset hp
    rw [h.behaviorOf_remove, if_neg (h.ne_track hmem), if_neg (h.fst_ne hp)]
    exact h.block p hmem

end

/-- Blocks that follow each other leave their track. -/
theorem Track.behaviorOf_rippleRemoveAll (h : Track g track t (pre ++ (mid ++ post)))
    (before : Option NodeId) (y : NodeId) :
    (rippleRemoveAll g track (removalsOf before mid)).behaviorOf y =
      if y = track then some (.track { t with blocks := (pre ++ post).map Prod.fst })
      else if y ∈ mid.map Prod.fst then (g.behaviorOf y).map (.modifyCore withoutTrack)
      else g.behaviorOf y := by
  induction mid generalizing g t before with
  | nil =>
    split_ifs with hy hmem
    · rw [hy, rippleRemoveAll, removalsOf, List.foldl_nil, h.behavior, ← List.nil_append post,
        ← h.order]
    · exact absurd hmem (by simp)
    · rfl
  | cons p mid ih =>
    obtain ⟨x, b⟩ := p
    rw [List.cons_append] at h
    have hrest : rippleRemoveAll g track (removalsOf before ((x, b) :: mid)) =
        rippleRemoveAll (trackRippleRemoveBlock g track x) track (removalsOf (some x) mid) := rfl
    rw [hrest, ih h.remove, h.behaviorOf_remove]
    have hx : x ∉ mid.map Prod.fst := by
      intro hmem
      obtain ⟨q, hq, heq⟩ := List.mem_map.1 hmem
      exact h.fst_ne (List.mem_append_right pre (List.mem_append_left post hq)) heq
    by_cases hy : y = track
    · simp only [hy, if_true]
    · simp only [hy, if_false, List.map_cons, List.mem_cons]
      by_cases hyx : y = x
      · simp only [hyx, hx, if_true, if_false, true_or]
      · simp only [hyx, if_false, false_or]

/-! ### A redo of derived operations -/

theorem map_block_removalsOf (before : Option NodeId) (mid : List (NodeId × Behavior F β)) :
    (removalsOf before mid).map RemoveOperation.block = mid.map Prod.fst := by
  induction mid generalizing before with
  | nil => rfl
  | cons p mid ih => rw [removalsOf, List.map_cons, List.map_cons, ih]

/-- The nodes among the blocks that feed no input. -/
def removable (g : ProjectGraph F β) (mid : List (NodeId × Behavior F β)) : List NodeId :=
  (mid.map Prod.fst).filter fun id => nodeCanBeRemoved g id

theorem nodeCanBeRemoved_congr {g g' : ProjectGraph F β} (h : g'.edges = g.edges) (id : NodeId) :
    nodeCanBeRemoved g' id = nodeCanBeRemoved g id := by
  rw [Bool.eq_iff_iff, nodeCanBeRemoved_iff, nodeCanBeRemoved_iff, h]

variable [ClipSpeed F] [NodeBehavior F β] (order : List NodeId → List NodeId)
  {before : Option NodeId}

/-- A redo of operations that were derived before, be it the first one or a later one. -/
theorem redo_prepared (hprepared : c.prepared = true) (hsplice : c.spliceSplitCommand = none)
    (hremovals : c.removals = removalsOf before mid)
    (hcommands : c.removeBlockCommands = [] ∨
      c.removeBlockCommands = (removable g mid).map createRemoveCommand)
    (h : Track (c.trims TrimOperation.newLength g) c.track t (pre ++ (mid ++ post))) :
    ∃ ps g', c.redo order g = ({ c with removeBlockCommands := ps.map removed }, g') ∧
      EntriesOf (rippleRemoveAll (c.trims TrimOperation.newLength g) c.track c.removals)
        (removable g mid) ps ∧
      Without (rippleRemoveAll (c.trims TrimOperation.newLength g) c.track c.removals) g'
        (removable g mid) := by
  have hlive : ∀ id ∈ removable g mid, (rippleRemoveAll (c.trims TrimOperation.newLength g) c.track
      c.removals).isValid id = true := by
    intro id hid
    have hmem : id ∈ mid.map Prod.fst := (List.mem_filter.1 hid).1
    obtain ⟨p, hp, rfl⟩ := List.mem_map.1 hmem
    have hpmem : p ∈ pre ++ (mid ++ post) := by simp [hp]
    rw [Graph.isValid_eq_isSome_behaviorOf, hremovals, h.behaviorOf_rippleRemoveAll,
      if_neg (h.ne_track hpmem), if_pos hmem, (h.block p hpmem).1]
    rfl
  have hnodup : (removable g mid).Nodup := by
    have hsub : mid.Sublist (pre ++ (mid ++ post)) :=
      (List.sublist_append_left _ _).trans (List.sublist_append_right _ _)
    exact (h.nodup.sublist (hsub.map _)).filter _
  obtain ⟨ps, g', hredo, hwithout, hentries⟩ := removeAll_spec hlive hnodup
  refine ⟨ps, g', ?_, hentries, hwithout⟩
  rw [redo, if_pos hprepared]
  dsimp only
  split
  · next cmd hcmd => exact absurd (hsplice.symm.trans hcmd) (by simp)
  by_cases hempty : c.removals.isEmpty
  · -- nothing is removed
    have hmid : mid = [] := by
      rcases mid with _ | ⟨p, mid⟩
      · rfl
      · rw [hremovals] at hempty
        exact absurd hempty (by simp [removalsOf])
    have hnone : c.removeBlockCommands = [] := by
      rcases hcommands with hnil | hmap
      · exact hnil
      · rw [hmap, hmid]
        rfl
    rw [if_pos hempty]
    rw [hmid, hremovals, hmid] at hredo
    obtain ⟨hps, rfl⟩ := Prod.mk.inj hredo
    have hcommand : { c with removeBlockCommands := [] } = c := by rw [← hnone]
    rw [← hps, hcommand]
    rfl
  · have hblocks : ((c.removals.filter fun op => blockCanBeRemoved
        (rippleRemoveAll (c.trims TrimOperation.newLength g) c.track c.removals) op.block).map
          fun op => createRemoveCommand op.block) =
        (removable g mid).map
          (createRemoveCommand : NodeId → UndoCommand (RemoveNodeCommand F β)) := by
      have hcan (id : NodeId) : blockCanBeRemoved
          (rippleRemoveAll (c.trims TrimOperation.newLength g) c.track c.removals) id =
            nodeCanBeRemoved g id :=
        nodeCanBeRemoved_congr (by rw [edges_rippleRemoveAll, edges_trims]) id
      simp only [hcan, removable]
      rw [← map_block_removalsOf before mid, ← hremovals, List.filter_map, List.map_map]
      rfl
    have hchosen : (if c.removeBlockCommands.isEmpty then
        (c.removals.filter fun op => blockCanBeRemoved
          (rippleRemoveAll (c.trims TrimOperation.newLength g) c.track c.removals) op.block).map
            fun op => createRemoveCommand op.block
        else c.removeBlockCommands) = (removable g mid).map createRemoveCommand := by
      rcases hcommands with hnil | hmap
      · rw [hnil, hblocks]
        rfl
      · split_ifs
        · exact hblocks
        · exact hmap
    have hfold : c.removals.foldl (fun g op => trackRippleRemoveBlock g c.track op.block)
        (c.trims TrimOperation.newLength g) =
          rippleRemoveAll (c.trims TrimOperation.newLength g) c.track c.removals := rfl
    rw [if_neg hempty, hfold, hchosen, hredo]

end Oak.Timeline
