import Oak.Timeline.RippleArea

/-!
# Undoing the removal of an area

`TrackRippleRemoveAreaCommand::undo` takes back what a redo did: the trims, the removal of nodes
from the graph, and the removal of the blocks from their track.

* `Same g g'`: the same nodes with the same behaviors, and the same edges.
* `trimmedBack c y b`: what is left of a block when its trims are taken back.

## Main results

* `undo_prepared`: the project after a redo of derived operations and its undo.
* `redo_again`: another redo.
-/

namespace Oak.Timeline

open Oak.Core Oak.Node Oak.Undo TrackRippleRemoveAreaCommand
open TrimOperation

variable {F β : Type*} {g g' : ProjectGraph F β} {track x y : NodeId} {t : TrackBehavior F}
  {b : Behavior F β} {core : BlockCore F} {p : NodeId × Behavior F β}
  {blocks pre post head mid cut rest : List (NodeId × Behavior F β)}
  {c : TrackRippleRemoveAreaCommand F β} {length : TrimOperation → Rational}

/-! ### The same project -/

/-- The same nodes with the same behaviors, and the same edges. -/
structure Same (g g' : ProjectGraph F β) : Prop where
  behaviorOf : ∀ y, g'.behaviorOf y = g.behaviorOf y
  edges : ∀ e, e ∈ g'.edges ↔ e ∈ g.edges

theorem Same.refl (g : ProjectGraph F β) : Same g g := ⟨fun _ => rfl, fun _ => Iff.rfl⟩

theorem Same.track_congr (h : Same g g') (ht : Track g track t blocks) : Track g' track t blocks :=
  ht.congr (h.behaviorOf track) fun p _ => h.behaviorOf p.1

theorem Same.removable (h : Same g g') (mid : List (NodeId × Behavior F β)) :
    removable g' mid = removable g mid := by
  refine List.filter_congr fun id _ => ?_
  rw [Bool.eq_iff_iff, nodeCanBeRemoved_iff, nodeCanBeRemoved_iff]
  simp only [h.edges]

/-! ### The trims and their blocks -/

/-- A trim changes the core of a block, and leaves it on its track. -/
theorem trimmed_eq_modifyCore (length : TrimOperation → Rational) (y : NodeId) :
    ∃ f : BlockCore F → BlockCore F, (∀ core, (f core).track = core.track) ∧
      ∀ b : Behavior F β, c.trimmed length y b = b.modifyCore f := by
  have hstep (o : Option TrimOperation) (f : TrimOperation → BlockCore F → BlockCore F)
      (hf : ∀ o core, (f o core).track = core.track) :
      ∃ f' : BlockCore F → BlockCore F, (∀ core, (f' core).track = core.track) ∧
        ∀ b : Behavior F β, (o.elim b fun o => if y = o.block then b.modifyCore (f o) else b) =
          b.modifyCore f' := by
    rcases o with _ | o
    · exact ⟨id, fun _ => rfl, fun b => b.modifyCore_id.symm⟩
    by_cases hy : y = o.block
    · exact ⟨f o, hf o, fun b => if_pos hy⟩
    · exact ⟨id, fun _ => rfl, fun b => (if_neg hy).trans b.modifyCore_id.symm⟩
  obtain ⟨f, hf, hout⟩ := hstep c.trimOut (fun o core => core.setLengthAndMediaIn (length o))
    fun _ _ => rfl
  obtain ⟨f', hf', hin⟩ := hstep c.trimIn (fun o core => core.setLengthAndMediaOut (length o))
    fun _ _ => rfl
  refine ⟨f' ∘ f, fun core => (hf' (f core)).trans (hf core), fun b => ?_⟩
  rw [TrackRippleRemoveAreaCommand.trimmed, hout, hin, Behavior.modifyCore_modifyCore]

/-- The blocks after the trims. -/
def trimAll (c : TrackRippleRemoveAreaCommand F β) (length : TrimOperation → Rational)
    (blocks : List (NodeId × Behavior F β)) : List (NodeId × Behavior F β) :=
  blocks.map fun p => (p.1, c.trimmed length p.1 p.2)

theorem map_fst_trimAll (blocks : List (NodeId × Behavior F β)) :
    (trimAll c length blocks).map Prod.fst = blocks.map Prod.fst := by
  rw [trimAll, List.map_map]
  rfl

theorem trimmed_track (length : TrimOperation → Rational) (y : NodeId) (t : TrackBehavior F) :
    c.trimmed length y (.track t : Behavior F β) = .track t := by
  obtain ⟨f, -, hf⟩ := trimmed_eq_modifyCore (β := β) (c := c) length y
  rw [hf]
  rfl

theorem Track.trims (h : Track g track t blocks) (c : TrackRippleRemoveAreaCommand F β)
    (length : TrimOperation → Rational) :
    Track (c.trims length g) track t (trimAll c length blocks) := by
  refine ⟨?_, h.order.trans (map_fst_trimAll _).symm, map_fst_trimAll blocks ▸ h.nodup,
    fun p' hp' => ?_⟩
  · rw [behaviorOf_trims, h.behavior, Option.map_some, trimmed_track]
  · obtain ⟨p, hp, rfl⟩ := List.mem_map.1 hp'
    obtain ⟨hb, core, hcore, howner⟩ := h.block p hp
    obtain ⟨f, htrack, hf⟩ := trimmed_eq_modifyCore (β := β) (c := c) length p.1
    refine ⟨by rw [behaviorOf_trims, hb, Option.map_some], f core, ?_, (htrack core).trans howner⟩
    rw [hf, Behavior.blockCore_modifyCore, hcore, Option.map_some]

theorem trimAll_append : trimAll c length (pre ++ post) =
    trimAll c length pre ++ trimAll c length post := List.map_append

theorem Track.trims_apart (h : Track g track t (pre ++ (mid ++ post)))
    (hapart : ∀ p ∈ mid, ∀ b : Behavior F β, c.trimmed length p.1 b = b) :
    Track (c.trims length g) track t (trimAll c length pre ++ (mid ++ trimAll c length post)) := by
  have hmid : trimAll c length mid = mid := by
    refine (List.map_congr_left fun p hp => ?_).trans (List.map_id mid)
    rw [hapart p hp]
    rfl
  have htrims := h.trims c length
  rwa [trimAll_append, trimAll_append, hmid] at htrims

/-! ### The blocks go back to their track -/

/-- The block on a track. -/
def backOnTrack (track : NodeId) (core : BlockCore F) : BlockCore F :=
  { core with track := some track }

/-- Blocks that left their track one after the other go back to it. -/
theorem behaviorOf_insertAll {t : TrackBehavior F} (ht : g.behaviorOf track = some (.track t))
    (hblocks : t.blocks = pre.map Prod.fst ++ post.map Prod.fst)
    (hnodup : ((pre ++ (mid ++ post)).map Prod.fst).Nodup)
    (hmid : ∀ p ∈ mid, p.1 ≠ track) (y : NodeId) :
    ((removalsOf ((pre.map Prod.fst).getLast?) mid).foldl
        (fun g op => trackInsertBlockAfter g track op.block op.before) g).behaviorOf y =
      if y = track then some (.track { t with blocks := (pre ++ (mid ++ post)).map Prod.fst })
      else if y ∈ mid.map Prod.fst then (g.behaviorOf y).map (.modifyCore (backOnTrack track))
      else g.behaviorOf y := by
  induction mid generalizing g t pre with
  | nil =>
    rw [removalsOf, List.foldl_nil]
    split_ifs with hy hmem
    · rw [hy, ht, List.nil_append, List.map_append, ← hblocks]
    · exact absurd hmem List.not_mem_nil
    · rfl
  | cons p mid ih =>
    obtain ⟨hp, hmid⟩ := List.forall_mem_cons.1 hmid
    have hpre : (pre.map Prod.fst).Nodup := by
      rw [List.map_append] at hnodup
      exact (List.nodup_append.1 hnodup).1
    have hfirst (y : NodeId) := behaviorOf_trackInsertBlockAfter (y := y) ht hblocks hpre hp
    have htrack : (trackInsertBlockAfter g track p.1 ((pre.map Prod.fst).getLast?)).behaviorOf
        track = some (.track { t with
          blocks := (pre ++ [p]).map Prod.fst ++ post.map Prod.fst }) := by
      rw [hfirst, if_pos rfl, List.map_append, List.append_assoc]
      rfl
    have hlast : some p.1 = ((pre ++ [p]).map Prod.fst).getLast? := by simp
    rw [List.cons_append, List.append_cons] at hnodup
    have hrest := ih htrack rfl hnodup hmid
    rw [← hlast] at hrest
    rw [removalsOf, List.foldl_cons, hrest, hfirst, ← List.append_cons]
    by_cases hy : y = track
    · rw [if_pos hy, if_pos hy]
      rfl
    rw [if_neg hy, if_neg hy, if_neg hy, List.map_cons]
    have hnotMem : p.1 ∉ mid.map Prod.fst := by
      rw [List.append_assoc, List.singleton_append, List.map_append, List.map_cons] at hnodup
      have hcons := (List.nodup_append.1 hnodup).2.1
      rw [List.nodup_cons, List.map_append, List.mem_append, not_or] at hcons
      exact hcons.1.1
    by_cases hyp : y = p.1
    · rw [hyp, if_neg hnotMem, if_pos rfl, if_pos List.mem_cons_self]
      rfl
    · simp only [List.mem_cons, hyp, false_or, if_false]

theorem edges_insertAll (ops : List RemoveOperation) :
    (ops.foldl (fun g op => trackInsertBlockAfter g track op.block op.before) g).edges =
      g.edges := by
  induction ops generalizing g with
  | nil => rfl
  | cons op ops ih => exact ih.trans (edges_trackInsertBlockAfter _)

/-! ### Redo, undo and redo of derived operations -/

section Prepared

variable [ClipSpeed F] [NodeBehavior F β] (order : List NodeId → List NodeId)

/-- What is left of a block when its trims are taken back. -/
def trimmedBack (c : TrackRippleRemoveAreaCommand F β) (y : NodeId) (b : Behavior F β) :
    Behavior F β :=
  c.trimmed oldLength y (c.trimmed newLength y b)

section

variable (hprepared : c.prepared = true) (hsplice : c.spliceSplitCommand = none)
  (hremovals : c.removals = removalsOf ((pre.map Prod.fst).getLast?) mid)
  (hcommands : c.removeBlockCommands = []) (h : Track g c.track t (pre ++ (mid ++ post)))
  (hapart : ∀ p ∈ mid, ∀ length, ∀ b : Behavior F β, c.trimmed length p.1 b = b)

include hprepared hsplice hremovals hcommands h hapart

/-- The project after a redo of derived operations and its undo. -/
theorem undo_prepared :
    ((c.redo order g).1.undo (c.redo order g).2).1 =
        { c with removeBlockCommands := (removable g mid).map createRemoveCommand } ∧
      (∀ y, ((c.redo order g).1.undo (c.redo order g).2).2.behaviorOf y =
        (g.behaviorOf y).map (trimmedBack c y)) ∧
      ∀ e, e ∈ ((c.redo order g).1.undo (c.redo order g).2).2.edges ↔
        e ∈ g.edges ∧ e.source ∉ removable g mid ∧ e.target ∉ removable g mid := by
  have htrims := h.trims_apart fun p hp => hapart p hp newLength
  obtain ⟨ps, g', hredo, hentries, hwithout⟩ :=
    redo_prepared order hprepared hsplice hremovals (.inl hcommands) htrims
  have hremoved := htrims.behaviorOf_rippleRemoveAll ((pre.map Prod.fst).getLast?)
  rw [← hremovals] at hremoved
  rw [hredo]
  -- the removed nodes go back to their slots
  have hmidtrack : ∀ p ∈ mid, p.1 ≠ c.track := fun p hp => h.ne_track (by simp [hp])
  have hsub : ∀ y ∈ removable g mid, y ∈ mid.map Prod.fst := fun y hy => (List.mem_filter.1 hy).1
  have hnodup : (removable g mid).Nodup := by
    have hmap : (mid.map Prod.fst).Sublist ((pre ++ (mid ++ post)).map Prod.fst) :=
      ((List.sublist_append_left _ _).trans (List.sublist_append_right _ _)).map _
    exact (h.nodup.sublist hmap).filter _
  obtain ⟨h', hundo, hback, hedges, -⟩ := restoreAll_spec (h := c.trims oldLength g')
    hentries hnodup fun y hy => by
      obtain ⟨n, hn⟩ := hwithout.vacant y hy
      exact ⟨n, vacant_trims.2 hn⟩
  have hresult : TrackRippleRemoveAreaCommand.undo
      { c with removeBlockCommands := ps.map removed } g' =
        ({ c with removeBlockCommands := (removable g mid).map createRemoveCommand },
          c.removals.foldl (fun g op =>
            trackInsertBlockAfter g c.track op.block op.before) h') := by
    rw [TrackRippleRemoveAreaCommand.undo]
    dsimp only
    split
    · next cmd hcmd => exact absurd (hsplice.symm.trans hcmd) (by simp)
    · have htrim : TrackRippleRemoveAreaCommand.trims
          { c with removeBlockCommands := ps.map removed }
          oldLength g' = c.trims oldLength g' := rfl
      rw [htrim, hundo]
  rw [hresult]
  refine ⟨rfl, fun y => ?_, fun e => ?_⟩
  · have hkept : ∀ y, y ∉ removable g mid → h'.behaviorOf y =
        ((rippleRemoveAll (c.trims newLength g) c.track c.removals).behaviorOf y).map
          (c.trimmed oldLength y) := by
      intro y hy
      rw [hback, if_neg hy, behaviorOf_trims, hwithout.behaviorOf, if_neg hy]
    have htrackmid : c.track ∉ mid.map Prod.fst := by
      intro hmem
      obtain ⟨p, hp, heq⟩ := List.mem_map.1 hmem
      exact hmidtrack p hp heq
    have htrack : h'.behaviorOf c.track =
        some (.track { t with blocks := pre.map Prod.fst ++ post.map Prod.fst }) := by
      rw [hkept _ fun hmem => htrackmid (hsub _ hmem), hremoved, if_pos rfl, Option.map_some,
        trimmed_track, List.map_append, map_fst_trimAll, map_fst_trimAll]
    dsimp only
    rw [hremovals, behaviorOf_insertAll htrack rfl h.nodup hmidtrack]
    by_cases hy : y = c.track
    · rw [if_pos hy, hy, h.behavior, Option.map_some, trimmedBack, trimmed_track, trimmed_track,
        ← h.order]
    rw [if_neg hy]
    split_ifs with hymid
    · obtain ⟨p, hp, rfl⟩ := List.mem_map.1 hymid
      obtain ⟨hb, core, hcore, howner⟩ := h.block p (by simp [hp])
      have hgone : (rippleRemoveAll (c.trims newLength g) c.track
          c.removals).behaviorOf p.1 = some (p.2.modifyCore withoutTrack) := by
        rw [hremoved, if_neg hy, if_pos hymid, behaviorOf_trims, hb, Option.map_some, hapart p hp,
          Option.map_some]
      have hin : h'.behaviorOf p.1 = some (p.2.modifyCore withoutTrack) := by
        by_cases hremovable : p.1 ∈ removable g mid
        · rw [hback, if_pos hremovable, hgone]
        · rw [hkept _ hremovable, hgone, Option.map_some, hapart p hp]
      rw [hin, hb, Option.map_some, Option.map_some, Behavior.modifyCore_modifyCore, trimmedBack,
        hapart p hp, hapart p hp]
      refine congrArg some (Behavior.modifyCore_eq_self hcore ?_)
      simp only [Function.comp_apply, backOnTrack, withoutTrack, ← howner]
    · rw [hkept y fun hmem => hymid (hsub y hmem), hremoved, if_neg hy, if_neg hymid,
        behaviorOf_trims, Option.map_map]
      rfl
  · dsimp only
    rw [edges_insertAll, hedges, edges_trims, hwithout.edges, edges_rippleRemoveAll, edges_trims]

/-- Another redo gives what the first one gave. -/
theorem redo_again (hsame : Same g g') :
    Same (c.redo order g).2 (TrackRippleRemoveAreaCommand.redo order
      { c with removeBlockCommands := (removable g mid).map createRemoveCommand } g').2 := by
  have htrims {g : ProjectGraph F β} (h : Track g c.track t (pre ++ (mid ++ post))) :=
    h.trims_apart fun p hp => hapart p hp newLength
  have hcommands' : (removable g mid).map createRemoveCommand =
      (removable g' mid).map (createRemoveCommand (F := F) (β := β)) := by
    rw [hsame.removable]
  obtain ⟨ps, g₁, hredo, -, hwithout⟩ :=
    redo_prepared order hprepared hsplice hremovals (.inl hcommands) (htrims h)
  obtain ⟨ps', g₂, hredo', -, hwithout'⟩ :=
    redo_prepared (c := { c with
      removeBlockCommands := (removable g mid).map createRemoveCommand }) order hprepared hsplice
        hremovals (.inr hcommands') (htrims (hsame.track_congr h))
  rw [hredo, hredo']
  have hbehavior (y : NodeId) : (rippleRemoveAll (c.trims newLength g') c.track
      c.removals).behaviorOf y = (rippleRemoveAll (c.trims newLength g) c.track
        c.removals).behaviorOf y := by
    rw [hremovals, (htrims h).behaviorOf_rippleRemoveAll,
      (htrims (hsame.track_congr h)).behaviorOf_rippleRemoveAll, behaviorOf_trims, behaviorOf_trims,
      hsame.behaviorOf]
  refine ⟨fun y => ?_, fun e => ?_⟩
  · rw [hwithout'.behaviorOf, hwithout.behaviorOf, hsame.removable, ← hbehavior]
    rfl
  · rw [hwithout'.edges, hwithout.edges, edges_rippleRemoveAll, edges_rippleRemoveAll, edges_trims,
      edges_trims, hsame.edges, hsame.removable]

end

end Prepared

end Oak.Timeline
