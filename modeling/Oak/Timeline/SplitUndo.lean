import Oak.Timeline.RippleRedo

/-!
# Undoing a split

`BlockSplitCommand::undo`, and the redo after it. The copies leave the graph with the lengths that
they have at the time of the undo, and come back with these.

## Main results

* `undo_split`: what an undo leaves of the halves.
* `redo_undo_split`: the range of the second half after another redo.
-/

namespace Oak.Timeline

open Oak.Core Oak.Node BlockSplitCommand

variable {F β : Type*} {g : ProjectGraph F β} {carried : List (NodeId × NodeId)}
  {track x y new : NodeId} {t : TrackBehavior F} {b d : Behavior F β} {core : BlockCore F}
  {entry : NodeEntry F (Behavior F β)} {pre post : List (NodeId × Behavior F β)}
  {others : List NodeId} {cmd : BlockSplitCommand F β}

/-! ### Sound graphs -/

theorem sound_modifyBlock (h : g.Sound carried) (f : BlockCore F → BlockCore F) (x : NodeId) :
    (modifyBlock g f x).Sound carried := h.modifyBehavior _ x

theorem sound_trackInsertBlockAfter (h : g.Sound carried) (track x : NodeId)
    (before : Option NodeId) : (trackInsertBlockAfter g track x before).Sound carried := by
  rw [trackInsertBlockAfter]
  split
  · exact h
  split
  · exact h
  · exact sound_modifyBlock (h.modifyBehavior _ _) _ _

theorem sound_trackRippleRemoveBlock (h : g.Sound carried) (track x : NodeId) :
    (trackRippleRemoveBlock g track x).Sound carried := by
  rw [trackRippleRemoveBlock]
  split
  · exact h
  · exact sound_modifyBlock (h.modifyBehavior _ _) _ _

theorem Splittable.sound_redo [ClipSpeed F] [NodeBehavior F β] (order : List NodeId → List NodeId)
    (h : Splittable g carried track t pre x b post) (point : Rational) :
    ((BlockSplitCommand.new x point).redo order g).2.Sound carried := by
  obtain ⟨new, s, hcopying, -, -, -, hcopied, hrefused⟩ := h.copy
  by_cases hcopyable : g.Copyable x
  · obtain ⟨others, edges, hprepare, -⟩ := prepare_new_of_some order (hcopied hcopyable) point
    rw [BlockSplitCommand.redo, hprepare]
    dsimp only
    rw [reAttachSubgraph_of_attached rfl]
    dsimp only
    have hhalves (u v : Rational) : (blockSetLengthAndMediaOut
        (blockSetLengthAndMediaIn s.graph x u) new v).Sound carried :=
      sound_modifyBlock (sound_modifyBlock hcopying.sound _ _) _ _
    split
    · exact hhalves _ _
    · exact sound_trackInsertBlockAfter (hhalves _ _) _ _ _
  · rw [BlockSplitCommand.redo, prepare_new_of_none order (hrefused hcopyable)]
    exact hcopying.sound

/-! ### The copies leave and come back -/

theorem detachAll_spec (ids : List NodeId) (h : g.Sound carried) :
    (∃ carried', (detachAll (ids.zip (ids.map fun _ => none)) g).2.Sound carried') ∧
      (∀ y ∉ ids, (detachAll (ids.zip (ids.map fun _ => none)) g).2.behaviorOf y =
        g.behaviorOf y) ∧
      ∀ (i n : ℕ), g.entries[i]? = some (.vacant n) →
        ∃ m, (detachAll (ids.zip (ids.map fun _ => none)) g).2.entries[i]? = some (.vacant m) := by
  induction ids generalizing g carried with
  | nil => exact ⟨⟨carried, h⟩, fun _ _ => rfl, fun _ n hn => ⟨n, hn⟩⟩
  | cons id ids ih =>
    rw [List.map_cons, List.zip_cons_cons, detachAll, blockRemoveFromGraph]
    rcases htake : g.takeNode id with _ | ⟨g', e⟩
    · obtain ⟨hsound, hbehavior, hvacant⟩ := ih h
      exact ⟨hsound, fun y hy => hbehavior y fun hmem => hy (List.mem_cons_of_mem _ hmem), hvacant⟩
    · obtain ⟨hsound, hbehavior, hvacant⟩ := ih (h.takeNode htake)
      refine ⟨hsound, fun y hy => ?_, fun i n hn => ?_⟩
      · rw [List.mem_cons, not_or] at hy
        obtain ⟨hne, hmem⟩ := hy
        exact (hbehavior y hmem).trans
          ((Graph.behaviorOf_takeNode htake).trans (if_neg hne))
      · obtain ⟨m, hm⟩ := Graph.vacant_takeNode htake hn
        exact hvacant i m hm

/-- The copies that come back leave the nodes that are there. -/
theorem get_addAll (copies : List (NodeId × Option (NodeEntry F (Behavior F β))))
    (h : g.Sound carried) (hy : g.get y = some entry) :
    (copies.foldl (fun g p => blockAddToGraph g p.1 p.2) g).get y = some entry := by
  induction copies generalizing g carried with
  | nil => exact hy
  | cons p copies ih =>
    obtain ⟨id, _ | e⟩ := p
    · exact ih h hy
    · exact ih (h.addEntry e id) (Graph.get_addEntry_of_get h.freeVacant hy e)

theorem entries_connectOk (edge : NodeId × NodeId × String × ℤ) :
    (connectOk g edge).entries = g.entries := by
  rw [connectOk]
  split
  · next g' hconnect => exact (Graph.connect_spec hconnect).1
  · rfl

theorem behaviorOf_connectAll (edges : List (NodeId × NodeId × String × ℤ)) (y : NodeId) :
    (edges.foldl connectOk g).behaviorOf y = g.behaviorOf y := by
  induction edges generalizing g with
  | nil => rfl
  | cons edge edges ih =>
    have hget : (connectOk g edge).get y = g.get y :=
      Graph.get_congr (by rw [entries_connectOk])
    exact ih.trans (congrArg (Option.map NodeEntry.behavior) hget)

/-! ### The undo -/

/-- An undo of a split keeps the second half as it is. -/
theorem undo_split (hblock : cmd.block = x) (hnew : cmd.newBlock = some new)
    (hcopied : cmd.copied = new :: others)
    (hdetached : cmd.detached = (new :: others).map fun _ => none) (hothers : x ∉ others)
    (hsound : g.Sound carried) (h : Track g track t (pre ++ (x, b) :: (new, d) :: post)) :
    ∃ e ds, (cmd.undo g).1 = { cmd with detached := some e :: ds } ∧
      e.generation = new.generation ∧ new.valid = true ∧
      e.behavior = d.modifyCore withoutTrack ∧
      (∃ carried', (cmd.undo g).2.Sound carried') ∧
      (∃ n, (cmd.undo g).2.entries[new.index]? = some (.vacant n)) ∧
      (cmd.undo g).2.behaviorOf x =
        some (b.modifyCore fun core => core.setLengthAndMediaIn cmd.oldLength) := by
  obtain ⟨core, -, hcore, howner⟩ := h.exists_core
  have htrack : blockTrack g x = some track := (blockTrack_eq hcore).trans howner
  -- the project before the copies leave
  let restored := trackRippleRemoveBlock (blockSetLengthAndMediaIn g x cmd.oldLength) track new
  have hlengths : Track (blockSetLengthAndMediaIn g x cmd.oldLength) track t
      ((pre ++ [(x, b.modifyCore fun core => core.setLengthAndMediaIn cmd.oldLength)]) ++
        (new, d) :: post) := by
    rw [← List.append_cons]
    exact h.modifyBlock fun _ => rfl
  have hxnew : x ≠ new := hlengths.fst_ne
    (p := (x, b.modifyCore fun core => core.setLengthAndMediaIn cmd.oldLength)) (by simp)
  have hgone : restored.behaviorOf new = some (d.modifyCore withoutTrack) := by
    rw [hlengths.behaviorOf_remove, if_neg (hlengths.ne_track (p := (new, d)) (by simp)),
      if_pos rfl, hlengths.behaviorOf, Option.map_some]
  have hkept : restored.behaviorOf x =
      some (b.modifyCore fun core => core.setLengthAndMediaIn cmd.oldLength) := by
    rw [hlengths.behaviorOf_remove, if_neg (h.ne_track (p := (x, b)) (by simp)), if_neg hxnew]
    exact (hlengths.block (x, b.modifyCore fun core => core.setLengthAndMediaIn cmd.oldLength)
      (by simp)).1
  have hrestored : restored.Sound carried :=
    sound_trackRippleRemoveBlock (sound_modifyBlock hsound _ _) _ _
  have hundo : cmd.undo g = cmd.detachSubgraph restored := by
    rw [BlockSplitCommand.undo, hblock, htrack, hnew]
    rfl
  -- the second half leaves first
  obtain ⟨e, hget, hbehavior⟩ := Graph.behaviorOf_eq_some_iff.1 hgone
  obtain ⟨hvalid, -, hgeneration⟩ := Graph.get_eq_some_iff.1 hget
  obtain ⟨⟨g', e'⟩, htake⟩ : ∃ r, restored.takeNode new = some r := by
    rw [← Option.isSome_iff_exists, Graph.takeNode_isSome_iff]
    exact Graph.isValid_of_get hget
  obtain rfl := Option.some.inj (hget.symm.trans (Graph.takeNode_spec htake).1)
  obtain ⟨hsound', hbehaviors, hvacant⟩ := detachAll_spec others (hrestored.takeNode htake)
  have hdetach : cmd.detachSubgraph restored =
      ({ cmd with
          detached := some e :: (detachAll (others.zip (others.map fun _ => none)) g').1 },
        (detachAll (others.zip (others.map fun _ => none)) g').2) := by
    rw [detachSubgraph, hcopied, hdetached, List.map_cons, List.zip_cons_cons, detachAll,
      blockRemoveFromGraph, htake]
  rw [hundo, hdetach]
  refine ⟨e, _, rfl, hgeneration, hvalid, hbehavior, hsound',
    hvacant _ _ (Graph.vacant_of_takeNode htake), ?_⟩
  dsimp only
  rw [hbehaviors x hothers, Graph.behaviorOf_takeNode htake, if_neg hxnew, hkept]

/-! ### The redo after an undo -/

theorem range_trackInsertBlockAfter (track x : NodeId) (before : Option NodeId)
    (h : blockCoreOf g y = some core) :
    ∃ core', blockCoreOf (trackInsertBlockAfter g track x before) y = some core' ∧
      core'.range = core.range := by
  obtain ⟨d, hd, hcore⟩ := Option.bind_eq_some_iff.1 h
  rw [trackInsertBlockAfter]
  split
  · exact ⟨core, h, rfl⟩
  next t ht =>
  split
  · exact ⟨core, h, rfl⟩
  have hne : y ≠ track := ne_of_blockCore (trackBehaviorOf_eq_some_iff.1 ht) hd hcore
  rw [setTrack, blockCoreOf, behaviorOf_modifyBlock, Graph.behaviorOf_modifyBehavior, if_neg hne,
    hd]
  split_ifs
  · refine ⟨{ core with track := some track }, ?_, rfl⟩
    rw [Option.map_some, Option.bind_some, Behavior.blockCore_modifyCore, hcore, Option.map_some]
  · exact ⟨core, hcore, rfl⟩

variable [ClipSpeed F] [NodeBehavior F β] (order : List NodeId → List NodeId)

/-- Another redo of a split trims the second half as the undo found it. -/
theorem redo_detached (cmd : BlockSplitCommand F β) {core' : BlockCore F}
    {ds : List (Option (NodeEntry F (Behavior F β)))}
    (hblock : cmd.block = x) (hnew : cmd.newBlock = some new)
    (hcopied : cmd.copied = new :: others) (hdetached : cmd.detached = some entry :: ds)
    (hgeneration : entry.generation = new.generation) (hvalid : new.valid = true)
    (hsound : g.Sound carried) {n : ℕ} (hslot : g.entries[new.index]? = some (.vacant n))
    (hx : g.behaviorOf x = some b) (hcore : b.blockCore = some core)
    (hcore' : entry.behavior.blockCore = some core') :
    (cmd.redo order g).1.newBlock = some new ∧
      ∃ core'', blockCoreOf (cmd.redo order g).2 new = some core'' ∧
        core''.range = (core'.setLengthAndMediaOut (core.out - cmd.point)).range := by
  -- the copies come back
  have hplaced (y : NodeId) : (g.addEntry entry new).1.behaviorOf y =
      if y = new then some entry.behavior else g.behaviorOf y :=
    Graph.behaviorOf_addEntry hslot hvalid hgeneration
  have hxnew : x ≠ new := by
    rintro rfl
    obtain ⟨e, he, -⟩ := Graph.behaviorOf_eq_some_iff.1 hx
    rw [Graph.get_of_vacant hslot] at he
    exact absurd he (by simp)
  let attached := cmd.copiedEdges.foldl connectOk
    ((others.zip ds).foldl (fun g p => blockAddToGraph g p.1 p.2) (g.addEntry entry new).1)
  have hattached {y : NodeId} {d : Behavior F β}
      (hy : (g.addEntry entry new).1.behaviorOf y = some d) : attached.behaviorOf y = some d := by
    obtain ⟨e, he, rfl⟩ := Graph.behaviorOf_eq_some_iff.1 hy
    rw [show attached.behaviorOf y = _ from behaviorOf_connectAll _ _]
    exact Graph.behaviorOf_of_get (get_addAll _ (hsound.addEntry entry new) he)
  have hreattach : cmd.reAttachSubgraph g =
      ({ cmd with detached := cmd.detached.map fun _ => none }, attached) := by
    rw [reAttachSubgraph, if_neg (by simp [hdetached]), hcopied, hdetached]
    rfl
  have hxattached : blockCoreOf attached x = some core := by
    rw [blockCoreOf_eq (hattached ((hplaced x).trans ((if_neg hxnew).trans hx))), hcore]
  have hnewattached : attached.behaviorOf new = some entry.behavior :=
    hattached ((hplaced new).trans (if_pos rfl))
  -- the halves have their lengths
  have hhalves (u v : Rational) : blockCoreOf (blockSetLengthAndMediaOut
      (blockSetLengthAndMediaIn attached x u) new v) new = some (core'.setLengthAndMediaOut v) := by
    rw [blockCoreOf, blockSetLengthAndMediaOut, behaviorOf_modifyBlock, if_pos rfl,
      blockSetLengthAndMediaIn, behaviorOf_modifyBlock, if_neg hxnew.symm, hnewattached,
      Option.map_some, Option.bind_some, Behavior.blockCore_modifyCore, hcore', Option.map_some]
  have hprepare : cmd.prepare order g = (cmd, g) := by
    rw [BlockSplitCommand.prepare, if_pos (by rw [hnew]; rfl)]
  rw [BlockSplitCommand.redo, hprepare]
  dsimp only
  rw [hreattach]
  dsimp only
  rw [hnew, hblock, blockOut_eq hxattached]
  dsimp only
  split
  · exact ⟨rfl, _, hhalves _ _, rfl⟩
  · exact ⟨rfl, range_trackInsertBlockAfter _ _ _ (hhalves _ _)⟩

/-- After an undo and another redo, the second half ends where it ended before, and has the length
that the split gave it. -/
theorem redo_undo_split (cmd : BlockSplitCommand F β) {core' : BlockCore F} (hblock : cmd.block = x)
    (hnew : cmd.newBlock = some new) (hcopied : cmd.copied = new :: others)
    (hdetached : cmd.detached = (new :: others).map fun _ => none)
    (hlength : cmd.oldLength = core.length) (hothers : x ∉ others) (hsound : g.Sound carried)
    (h : Track g track t (pre ++ (x, b.modifyCore (firstHalf cmd.point)) :: (new, d) :: post))
    (hcore : b.blockCore = some core) (hcore' : d.blockCore = some core')
    (hin : core.in_ ≤ core.out) (hout : cmd.point ≤ core.out) :
    ((cmd.undo g).1.redo order (cmd.undo g).2).1.newBlock = some new ∧
      ∃ core'', blockCoreOf ((cmd.undo g).1.redo order (cmd.undo g).2).2 new = some core'' ∧
        core''.range = ⟨core'.out - (core.out - cmd.point), core'.out⟩ := by
  obtain ⟨e, ds, hcmd, hgeneration, hvalid, he, ⟨carried', hsound'⟩, ⟨n, hslot⟩, hx⟩ :=
    undo_split hblock hnew hcopied hdetached hothers hsound h
  have hfirst : ((b.modifyCore (firstHalf cmd.point)).modifyCore fun core =>
      core.setLengthAndMediaIn cmd.oldLength).blockCore =
        some ((firstHalf cmd.point core).setLengthAndMediaIn cmd.oldLength) := by
    rw [Behavior.blockCore_modifyCore, Behavior.blockCore_modifyCore, hcore]
    rfl
  have hend : ((firstHalf cmd.point core).setLengthAndMediaIn cmd.oldLength).out = core.out := by
    have hlength' : 0 ≤ core.length := sub_nonneg.2 hin
    rw [hlength, BlockCore.setLengthAndMediaIn_of_le _ hlength']
    exact core.in_add_length
  have hsecond : e.behavior.blockCore = some (withoutTrack core') := by
    rw [he, Behavior.blockCore_modifyCore, hcore', Option.map_some]
  rw [hcmd]
  obtain ⟨hnew', core'', hcore'', hrange⟩ := redo_detached order { cmd with
    detached := some e :: ds } hblock hnew hcopied rfl hgeneration hvalid hsound' hslot hx hfirst
      hsecond
  refine ⟨hnew', core'', hcore'', hrange.trans ?_⟩
  rw [hend, BlockCore.setLengthAndMediaOut_of_le _ (sub_nonneg.2 hout)]
  rfl

end Oak.Timeline
