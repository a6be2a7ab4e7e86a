import Oak.Interchange.Loaded

/-!
# The project that the task loads

From the items of a track to the whole document: `loaded timeline` is what the project shows for a
timeline.

## Main results

* `projectView_run`: the project shows one sequence for each timeline, in order, with the tracks
  that `loaded` gives.
-/

namespace Oak.Interchange

open Oak.Core Oak.Node Oak.Node.Graph Oak.Timeline
open Oak.Otio (Composable)

variable {F γ : Type*} {g g' g₀ : MediaGraph F γ} {n m : ℕ}

/-! ### The sequences of a project -/

/-- The sequences in a folder. -/
def sequencesIn (g : MediaGraph F γ) (folder : NodeId) : List NodeId :=
  match g.behaviorOf folder with
  | some (.folder f) => f.children.filter (nodeIsSequence g)
  | _ => []

/-- What is seen of the sequences in a folder. -/
def projectView (find : MediaGraph F γ → NodeId → Option NodeId) (g : MediaGraph F γ)
    (root : NodeId) : List SequenceView :=
  (sequencesIn g root).map (sequenceView find g)

variable (items : List (Composable ℚ)) (timeline : Otio.Timeline ℚ)

namespace LoadOTIOTask

/-- The tracks that are made for the items of a timeline. -/
def loadedTracks : SequenceView := fun kind =>
  ((items.filterMap Composable.asTrack).filter fun t => trackType t.kind = some kind).map
    fun t => t.children.map loadedView

/-- What the project shows for a timeline. -/
def loaded : SequenceView := loadedTracks timeline.tracks.children

/-- The nodes that are made for an item of a timeline, at most. -/
def trackNodes (item : Composable ℚ) : ℕ :=
  match item.asTrack with
  | none => 0
  | some t => 2 + 3 * t.children.length

/-- The nodes that are made for the tracks of a timeline, at most. -/
def tracksNodes : ℕ := (items.map trackNodes).sum

/-- The nodes that are made for a document, at most: the root folder and the endpoints of the
graph, a sequence and a folder for each timeline, and its tracks. -/
def nodes (timelines : List (Otio.Timeline ℚ)) : ℕ :=
  3 + timelines.length + (timelines.map fun t => 1 + tracksNodes t.tracks.children).sum

/-! ### A track list -/

section TrackList

variable {sequence : NodeId} {s : SequenceBehavior} {kind : TrackType}

/-- A track list that is put into its place leaves the others where they are. -/
theorem listOf_set (lists : List NodeId) {list : NodeId} (hvalid : list.valid = true)
    (kind k : TrackType) :
    listOf ⟨(lists ++ List.replicate (base kind + 1 - lists.length) NodeId.invalid).set (base kind)
      list⟩ k = if k = kind then some list else listOf ⟨lists⟩ k := by
  split_ifs with hk
  · subst hk
    have hlt : base k < (lists ++ List.replicate (base k + 1 - lists.length)
        NodeId.invalid).length := by
      rw [List.length_append, List.length_replicate]
      omega
    rw [listOf, List.getElem?_set_self hlt, Option.filter_some, if_pos hvalid]
  · have hbase : base kind ≠ base k := by
      revert hk
      cases k <;> cases kind <;> decide
    rw [listOf, listOf, List.getElem?_set_ne hbase]
    by_cases hlt : base k < lists.length
    · rw [List.getElem?_append_left hlt]
    · rw [List.getElem?_append_right (Nat.le_of_not_lt hlt), List.getElem?_replicate,
        List.getElem?_eq_none (Nat.le_of_not_lt hlt)]
      -- what the list is padded with is no node
      split_ifs
      · rfl
      · rfl

/-- The track list of a kind is there afterwards. -/
theorem sequenceTrackList_spec (hroom : g.Room 1)
    (hs : g.behaviorOf sequence = some (.sequence s)) {view : SequenceView}
    (hshows : ShowsKind g kind (view kind) (listOf s kind)) :
    ∃ g' l list s', sequenceTrackList g sequence kind = some (g', l) ∧
      Extends 1 {sequence} g g' ∧ g'.behaviorOf sequence = some (.sequence s') ∧
      listOf s' kind = some l ∧ (∀ k, k ≠ kind → listOf s' k = listOf s k) ∧
      (listOf s kind = some l ∨ g.behaviorOf l = none) ∧
      g'.behaviorOf l = some (.trackList list) ∧ list.kind = kind ∧
      List.Forall₂ (ShowsTrack g) list.tracks (view kind) := by
  rcases hl : listOf s kind with _ | l <;> rw [hl] at hshows
  · -- the track list is made
    have hempty : view kind = [] := hshows
    obtain ⟨hfresh, hget⟩ := hroom.behaviorOf_addNode .new
      (.trackList ⟨kind, [], some sequence, base kind⟩ : Behavior F (Media γ))
    have hadd : Extends 1 {sequence} g (g.addNode .new
      (.trackList ⟨kind, [], some sequence, base kind⟩)).1 := .addNode hroom _ _
    rw [sequenceTrackList, hs]
    simp only [hl]
    generalize g.addNode .new (.trackList ⟨kind, [], some sequence, base kind⟩ :
      Behavior F (Media γ)) = p at hfresh hget hadd
    have hne : sequence ≠ p.2 := ne_of_found hs hfresh
    have hlist : p.1.behaviorOf p.2 =
        some (.trackList ⟨kind, [], some sequence, base kind⟩) := by
      rw [hget, if_pos rfl]
    have hvalid := valid_of_behaviorOf hlist
    have hstep : ∀ f : Behavior F (Media γ) → Behavior F (Media γ),
        Extends 0 {sequence} p.1 (p.1.modifyBehavior f sequence) := fun f => .modifyBehavior f rfl
    refine ⟨_, p.2, ⟨kind, [], some sequence, base kind⟩,
      ⟨(s.trackLists ++ List.replicate (base kind + 1 - s.trackLists.length)
        NodeId.invalid).set (base kind) p.2⟩,
      rfl, hadd.trans (hstep _) (.of_subset le_rfl) ?_, ?_, ?_, fun k hk => ?_, .inr hfresh, ?_, rfl,
      hempty ▸ .nil⟩
    · rintro _ rfl b hb
      rw [hs] at hb
      obtain rfl := Option.some.inj hb
      exact Nat.succ_pos 2
    · rw [behaviorOf_modifyBehavior, if_pos rfl, hget, if_neg hne, hs]
      rfl
    · rw [listOf_set s.trackLists hvalid, if_pos rfl]
    · rw [listOf_set s.trackLists hvalid, if_neg hk]
    · rw [behaviorOf_modifyBehavior, if_neg hne.symm, hlist]
  · -- the track list is there
    obtain ⟨list, hlist, hkind, htracks⟩ := hshows
    refine ⟨g, l, list, s, ?_, ?_, hs, hl, fun _ _ => rfl, .inl rfl, hlist, hkind, htracks⟩
    · rw [sequenceTrackList, hs]
      simp only [hl]
    · exact (Grows.refl _ _ _).mono (Nat.zero_le 1) (.of_subset le_rfl) (.of_subset le_rfl)

/-- The last track of the list is the new one, which has no blocks. -/
theorem addTrack_spec [OfNat F 3] {l : NodeId} {list : TrackListBehavior} (hroom : g.Room 1)
    (hl : g.behaviorOf l = some (.trackList list)) :
    ∃ track t, g.behaviorOf track = none ∧ t.blocks = [] ∧
      Extends 1 {l} g (addTrack g l) ∧ (addTrack g l).behaviorOf track = some (.track t) ∧
      (addTrack g l).behaviorOf l =
        some (.trackList { list with tracks := list.tracks ++ [track] }) ∧
      tracklistTrackAt (addTrack g l) l (tracklistTrackCount (addTrack g l) l - 1) =
        some track := by
  obtain ⟨hfresh, hget⟩ := hroom.behaviorOf_addNode .new (.track
    { (newTrackBehavior list.kind : TrackBehavior F) with
      index := toI32 list.tracks.length
      trackList := some l } : Behavior F (Media γ))
  have hadd : Extends 1 {l} g (g.addNode .new (.track
    { (newTrackBehavior list.kind : TrackBehavior F) with
      index := toI32 list.tracks.length
      trackList := some l })).1 := .addNode hroom _ _
  have hlist : trackListBehaviorOf g l = some list := by rw [trackListBehaviorOf, hl]
  rw [addTrack, hlist]
  simp only
  generalize g.addNode .new (.track
    { (newTrackBehavior list.kind : TrackBehavior F) with
      index := toI32 list.tracks.length
      trackList := some l } : Behavior F (Media γ)) = p at hfresh hget hadd
  have hne : l ≠ p.2 := ne_of_found hl hfresh
  have hstep : ∀ f : Behavior F (Media γ) → Behavior F (Media γ),
      Extends 0 {l} p.1 (p.1.modifyBehavior f l) := fun f => .modifyBehavior f rfl
  have hl' : ∀ f : Behavior F (Media γ) → Behavior F (Media γ),
      (p.1.modifyBehavior f l).behaviorOf l = some (f (.trackList list)) := by
    intro f
    rw [behaviorOf_modifyBehavior, if_pos rfl, hget, if_neg hne, hl, Option.map_some]
  refine ⟨p.2, { (newTrackBehavior list.kind : TrackBehavior F) with
      index := toI32 list.tracks.length
      trackList := some l }, hfresh, rfl, hadd.trans (hstep _) (.of_subset le_rfl) ?_, ?_,
    hl' _, ?_⟩
  · exact above_singleton hl (Nat.succ_pos 1)
  · rw [behaviorOf_modifyBehavior, if_neg hne.symm, hget, if_pos rfl]
  · rw [tracklistTrackAt, tracklistTrackCount, trackListBehaviorOf, hl']
    simp

end TrackList

/-! ### The loop over the tracks of a timeline -/

section Timeline

variable [ClipSpeed F] [OfNat F 0] [OfNat F 1] [OfNat F 2] [Neg F] [OfNat F 3] (kit : Kit F γ)
  {root sequence folder : NodeId} {bin : FolderBehavior} {view : SequenceView} {s : State F γ}

/-- The tracks of a sequence, with the one that is made for an item. -/
def withTrack (view : SequenceView) (item : Composable ℚ) : SequenceView :=
  match item.asTrack with
  | none => view
  | some t =>
    match trackType t.kind with
    | none => view
    | some kind => Function.update view kind (view kind ++ [t.children.map loadedView])

/-- Since `g₀` some tracks of a timeline were loaded into its sequence. -/
structure Loading (g₀ : MediaGraph F γ) (root sequence folder : NodeId) (bin : FolderBehavior)
    (n m : ℕ) (view : SequenceView) (s : State F γ) : Prop where
  grows : Extends n {root, sequence} g₀ s.graph
  above : Above g₀ 2 {root, sequence}
  known : g₀.behaviorOf root ≠ none
  root_eq : s.graph.behaviorOf root = some (.folder bin)
  shows_ : ShowsSequence s.graph sequence view
  lists : ∀ b kind l, s.graph.behaviorOf sequence = some (.sequence b) →
    listOf b kind = some l → g₀.behaviorOf l = none
  folder_fresh : g₀.behaviorOf folder = none
  folder_eq : ∃ f, s.graph.behaviorOf folder = some (.folder f)
  ready : Ready s m

theorem Loading.loadTrack {item : Composable ℚ}
    (h : Loading g₀ root sequence folder bin n (trackNodes item + m) view s) :
    Loading g₀ root sequence folder bin (n + trackNodes item) m (withTrack view item)
      (loadTrack kit sequence (some folder) s item) := by
  have hskip : Loading g₀ root sequence folder bin (n + trackNodes item) m view s :=
    { h with
      grows := h.grows.mono (Nat.le_add_right _ _) (.of_subset le_rfl)
      ready := h.ready.mono (Nat.le_add_left m _) }
  rcases htrack : item.asTrack with _ | otioTrack
  · rw [withTrack, LoadOTIOTask.loadTrack, htrack]
    exact hskip
  rcases hkind : trackType otioTrack.kind with _ | kind
  · rw [withTrack, LoadOTIOTask.loadTrack, htrack]
    simp only [hkind]
    exact hskip
  have hnodes : trackNodes item = 2 + 3 * otioTrack.children.length := by
    rw [trackNodes, htrack]
  obtain ⟨b, hb, hlists⟩ := h.shows_
  obtain ⟨f, hf⟩ := h.folder_eq
  -- the track list and the track
  obtain ⟨g₁, l, list, b', hget, hgrows₁, hb', hl, hothers, hold, hlist, hlkind, htracks⟩ :=
    sequenceTrackList_spec (h.ready.room.mono (by omega)) hb (hlists kind)
  have hroom₁ : g₁.Room (1 + 3 * otioTrack.children.length + m) :=
    hgrows₁.room (by rw [hnodes] at h; convert h.ready.room using 1; omega)
  obtain ⟨track, t, hfresh, hblocks, hgrows₂, ht, hl₂, hlast⟩ :=
    addTrack_spec (hroom₁.mono (by omega)) hlist
  have hbase : Above s.graph 1 {sequence, l, folder} := by
    rintro x (rfl | rfl | rfl) c hc
    · exact lt_level_of_found hb (Nat.le_add_left 2 1) hc
    · exact lt_level_of_found hlist (Nat.lt_succ_self 1)
        (hgrows₁.kept (ne_of_found hlist hb') hc)
    · exact lt_level_of_found hf (Nat.le_add_left 2 2) hc
  have hf₁ : g₁.behaviorOf folder = some (.folder f) := hgrows₁.kept (ne_of_found hf hb) hf
  have hf₂ : (addTrack g₁ l).behaviorOf folder = some (.folder f) :=
    hgrows₂.kept (ne_of_found hf₁ hlist) hf₁
  have hmade : Extends 2 {sequence, l, folder} s.graph (addTrack g₁ l) :=
    (hgrows₁.mono le_rfl (.of_subset (by simp))).trans hgrows₂ (.of_subset (by simp))
      (hbase.mono (Nat.zero_le 1))
  have hnot : ∀ x ∈ ({sequence, l, folder} : Set NodeId), ∀ b : FootageBehavior,
      s.graph.behaviorOf x ≠ some (.other (.footage b)) :=
    fun x hx b hb => absurd (hbase x hx _ hb) (Nat.not_lt_zero 1)
  have hready : Ready s (2 + (3 * otioTrack.children.length + m)) := by
    have := h.ready
    rw [hnodes] at this
    rwa [← Nat.add_assoc]
  -- the blocks
  have hstart : Filled (addTrack g₁ l) track folder 0 (3 * otioTrack.children.length + m) []
      ⟨⟨addTrack g₁ l, s.importedFootage⟩, none, false⟩ :=
    { grows := .refl _ _ _
      above := above_track_folder ht hf₂
      shows_ := ⟨t, ht, hblocks ▸ .nil⟩
      folder_eq := ⟨f, hf₂⟩
      ready := hready.extends hmade hnot
      ok := fun hflag => absurd hflag (by simp) }
  have hfilled := Filled.foldl kit kind otioTrack.children hstart
  rw [withTrack, LoadOTIOTask.loadTrack, htrack]
  simp only [hkind, hget, hlast]
  generalize otioTrack.children.foldl (loadBlock kit kind (some folder) track)
    ⟨⟨addTrack g₁ l, s.importedFootage⟩, none, false⟩ = c at hfilled ⊢
  have htotal : Extends (2 + 3 * otioTrack.children.length) {sequence, l, folder} s.graph
      c.graph := by
    refine (hmade.trans hfilled.grows ?_ (hbase.mono (Nat.zero_le 1))).mono (by omega)
      (.of_subset le_rfl)
    rintro x (rfl | rfl)
    · exact .inl (hgrows₁.live hfresh)
    · exact .inr (by simp)
  -- what the graph shows now
  have hsequence₂ : (addTrack g₁ l).behaviorOf sequence = some (.sequence b') :=
    hgrows₂.kept (ne_of_found hb' hlist) hb'
  have hsequence : c.graph.behaviorOf sequence = some (.sequence b') :=
    hfilled.grows.kept (by simp [ne_of_found hsequence₂ ht, ne_of_found hsequence₂ hf₂])
      hsequence₂
  have hl₃ : c.graph.behaviorOf l =
      some (.trackList { list with tracks := list.tracks ++ [track] }) :=
    hfilled.grows.kept (by simp [ne_of_found hl₂ ht, ne_of_found hl₂ hf₂]) hl₂
  have hkinds : ∀ x ∈ ({sequence, l, folder} : Set NodeId), ∀ b,
      s.graph.behaviorOf x = some (.trackList b) → b.kind = kind := by
    rintro x (rfl | rfl | rfl) b₁ hb₁
    · exact absurd rfl (ne_of_found hb hb₁)
    · rcases hold with hold | hnone
      · have hshown := hlists kind
        rw [hold] at hshown
        obtain ⟨b₂, hb₂, hkind₂, -⟩ := hshown
        rw [hb₁] at hb₂
        obtain rfl : b₁ = b₂ := by simpa using hb₂
        exact hkind₂
      · exact absurd rfl (ne_of_found hnone hb₁)
    · exact absurd rfl (ne_of_found hf hb₁)
  have hothers' : ∀ b₀ k, s.graph.behaviorOf sequence = some (.sequence b₀) → k ≠ kind →
      listOf b' k = listOf b₀ k := by
    intro b₀ k hb₀ hk
    rw [hb] at hb₀
    obtain rfl : b = b₀ := by simpa using hb₀
    exact hothers k hk
  have hroot : root ∉ ({sequence, l, folder} : Set NodeId) := by
    have hroot₀ := h.root_eq
    rintro (rfl | rfl | rfl)
    · exact absurd rfl (ne_of_found hb hroot₀)
    · rcases hold with hold | hnone
      · have hshown := hlists kind
        rw [hold] at hshown
        obtain ⟨b₂, hb₂, -⟩ := hshown
        exact absurd rfl (ne_of_found hb₂ hroot₀)
      · exact absurd rfl (ne_of_found hnone hroot₀)
    · exact h.known h.folder_fresh
  refine
    { grows := ?_
      above := h.above
      known := h.known
      root_eq := htotal.kept hroot h.root_eq
      shows_ := ShowsSequence.addTrack htotal h.shows_ hbase hkinds hsequence hl hothers' hlkind
        hl₃ htracks hfilled.shows_
      lists := ?_
      folder_fresh := h.folder_fresh
      folder_eq := hfilled.folder_eq
      ready := hfilled.ready }
  · rw [hnodes]
    refine h.grows.trans htotal ?_ (h.above.mono (Nat.zero_le 2))
    rintro x (rfl | rfl | rfl)
    · exact .inr (by simp)
    · rcases hold with hold | hnone
      · exact .inl (h.lists b kind x hb hold)
      · exact .inl (h.grows.live hnone)
    · exact .inl h.folder_fresh
  · intro b₀ k l₀ hb₀ hl₀
    rw [hsequence] at hb₀
    obtain rfl : b' = b₀ := by simpa using hb₀
    by_cases hk : k = kind
    · subst hk
      rw [hl] at hl₀
      obtain rfl := Option.some.inj hl₀
      rcases hold with hold | hnone
      · exact h.lists b k l hb hold
      · exact h.grows.live hnone
    · rw [hothers k hk] at hl₀
      exact h.lists b k l₀ hb hl₀

theorem Loading.foldl : ∀ (items : List (Composable ℚ)) {n : ℕ} {view : SequenceView}
    {s : State F γ}, Loading g₀ root sequence folder bin n (tracksNodes items + m) view s →
      Loading g₀ root sequence folder bin (n + tracksNodes items) m (items.foldl withTrack view)
        (items.foldl (LoadOTIOTask.loadTrack kit sequence (some folder)) s)
  | [], _, _, _, h => by simpa [tracksNodes] using h
  | item :: items, n, view, s, h => by
    have hcons : tracksNodes (item :: items) = trackNodes item + tracksNodes items := rfl
    rw [hcons, Nat.add_assoc] at h
    rw [hcons, ← Nat.add_assoc]
    exact Loading.foldl items (h.loadTrack kit)

omit [ClipSpeed F] [OfNat F 0] [OfNat F 1] [OfNat F 2] [Neg F] [OfNat F 3] in
theorem withTrack_foldl (items : List (Composable ℚ)) (view : SequenceView) (kind : TrackType) :
    items.foldl withTrack view kind = view kind ++ loadedTracks items kind := by
  induction items generalizing view with
  | nil => simp [loadedTracks]
  | cons item items ih =>
    rw [List.foldl_cons, ih, loadedTracks, loadedTracks, withTrack]
    rcases htrack : item.asTrack with _ | t
    · rw [List.filterMap_cons, htrack]
    · rw [List.filterMap_cons, htrack, List.filter_cons]
      rcases hkind : trackType t.kind with _ | k
      · simp [hkind]
      · by_cases hk : kind = k
        · subst hk
          simp [hkind]
        · simp [hkind, hk, Ne.symm hk]

end Timeline

/-! ### The loop over the timelines -/

section Run

variable [ClipSpeed F] [OfNat F 0] [OfNat F 1] [OfNat F 2] [Neg F] [OfNat F 3] (kit : Kit F γ)
  {root : NodeId}

/-- The nodes that are made for a timeline, but for its sequence, at most. -/
def timelineNodes : ℕ := 1 + tracksNodes timeline.tracks.children

/-- The timelines of `done` were loaded into their sequences, which are in the root folder; those
of `todo` were not, and have empty sequences. -/
structure Running (root : NodeId) (done : List (NodeId × SequenceView)) (todo : List NodeId)
    (m : ℕ) (s : State F γ) : Prop where
  root_eq : ∃ f, s.graph.behaviorOf root = some (.folder f) ∧
    (∀ x ∈ f.children, s.graph.behaviorOf x ≠ none ∧ x ≠ root ∧ x ∉ todo) ∧
    f.children.filter (nodeIsSequence s.graph) = done.map Prod.fst
  loaded : ∀ p ∈ done, ShowsSequence s.graph p.1 p.2
  empty : ∀ x ∈ todo, s.graph.behaviorOf x = some (.sequence ⟨[]⟩)
  apart : (done.map Prod.fst ++ todo).Nodup
  ready : Ready s m

/-- The sequence of a timeline and the folder for its footage are put into the bin. -/
theorem bin_spec {sequence : NodeId} {timeline : Otio.Timeline ℚ} {s : State F γ}
    {f : FolderBehavior} (hroom : s.graph.Room 1)
    (hroot : s.graph.behaviorOf root = some (.folder f))
    (hchildren : ∀ x ∈ f.children, s.graph.behaviorOf x ≠ none) (hsequence : sequence ∉ f.children)
    (hknown : s.graph.behaviorOf sequence ≠ none) :
    ∃ g folder, loadTimeline kit root s (timeline, sequence) =
        timeline.tracks.children.foldl (loadTrack kit sequence (some folder))
          { s with graph := g } ∧
      s.graph.behaviorOf folder = none ∧ Extends 1 {root} s.graph g ∧
      (∃ f', g.behaviorOf folder = some (.folder f')) ∧
      g.behaviorOf root =
        some (.folder { f with children := f.children ++ [sequence, folder] }) := by
  have hadded : addChild f sequence = { f with children := f.children ++ [sequence] } := by
    rw [addChild, if_neg hsequence]
  have hroot₁ := behaviorOf_folderAddChild sequence hroot
  have hg₁ := grows_folderAddChild s.graph root sequence
  obtain ⟨hfresh, hget⟩ := (hg₁.room (m := 1) hroom).behaviorOf_addNode (kit.newFolder "").1
    (kit.newFolder "").2
  have hadd : Grows 1 {root} ∅ (folderAddChild s.graph root sequence)
    ((folderAddChild s.graph root sequence).addNode (kit.newFolder "").1
      (kit.newFolder "").2).1 := .addNode (hg₁.room (m := 1) hroom) _ _
  rw [LoadOTIOTask.loadTimeline]
  simp only
  generalize (folderAddChild s.graph root sequence).addNode (kit.newFolder "").1
    (kit.newFolder "").2 = p at hfresh hget hadd
  have hfresh₀ : s.graph.behaviorOf p.2 = none := hg₁.live hfresh
  have hlabel : Grows 0 {root} ∅ p.1 (setNodeLabel p.1 p.2 timeline.name) := .modifyCore _ p.2
  have hg₂ := grows_folderAddChild (setNodeLabel p.1 p.2 timeline.name) root p.2
  have hne : p.2 ≠ root := by
    rintro heq
    rw [heq, hroot] at hfresh₀
    exact absurd hfresh₀ (by simp)
  have hroot₂ : (setNodeLabel p.1 p.2 timeline.name).behaviorOf root =
      some (.folder (addChild f sequence)) := by
    rw [setNodeLabel, behaviorOf_modifyCore, hget, if_neg hne.symm, hroot₁]
  have hnotMem : p.2 ∉ (addChild f sequence).children := by
    rw [hadded]
    intro hmem
    rcases List.mem_append.1 hmem with hmem | hmem
    · exact hchildren _ hmem hfresh₀
    · exact hknown (List.mem_singleton.1 hmem ▸ hfresh₀)
  refine ⟨folderAddChild (setNodeLabel p.1 p.2 timeline.name) root p.2, p.2, rfl, hfresh₀, ?_,
    ⟨⟨"", []⟩, hg₂.kept hne ?_⟩, ?_⟩
  · exact (((hg₁.trans hadd (.of_subset le_rfl) (.of_subset le_rfl)).trans hlabel
      (.of_subset le_rfl) (.of_subset le_rfl)).trans hg₂ (.of_subset le_rfl)
        (.of_subset le_rfl)).mono le_rfl (.of_subset le_rfl) (.of_subset (Set.empty_subset _))
  · rw [setNodeLabel, behaviorOf_modifyCore, hget, if_pos rfl]
    rfl
  · rw [behaviorOf_folderAddChild p.2 hroot₂, addChild, if_neg hnotMem, hadded,
      List.append_assoc]
    rfl

theorem Running.loadTimeline {done : List (NodeId × SequenceView)} {sequence : NodeId}
    {todo : List NodeId} {timeline : Otio.Timeline ℚ} {s : State F γ}
    (h : Running root done (sequence :: todo) (timelineNodes timeline + m) s) :
    Running root (done ++ [(sequence, LoadOTIOTask.loaded timeline)]) todo m
      (loadTimeline kit root s (timeline, sequence)) := by
  obtain ⟨f, hroot, hchildren, hfilter⟩ := h.root_eq
  have hsequence : s.graph.behaviorOf sequence = some (.sequence ⟨[]⟩) :=
    h.empty sequence List.mem_cons_self
  have hne : sequence ≠ root := ne_of_found hsequence hroot
  have habove : Above s.graph 2 {root, sequence} := by
    rintro x (rfl | rfl) b hb
    · exact lt_level_of_found hroot (Nat.le_add_left 3 1) hb
    · exact lt_level_of_found hsequence (Nat.lt_succ_self 2) hb
  have hready : Ready s (1 + (tracksNodes timeline.tracks.children + m)) := by
    rw [← Nat.add_assoc]
    exact h.ready
  obtain ⟨g, folder, hload, hfresh, hgrows, hfolder, hroot'⟩ := bin_spec kit
    (hready.room.mono (Nat.le_add_right 1 _)) hroot
    (fun x hx => (hchildren x hx).1) (fun hx => (hchildren _ hx).2.2 List.mem_cons_self)
    (by simp [hsequence])
  have hgrows' : Extends 1 {root, sequence} s.graph g :=
    hgrows.mono le_rfl (.of_subset (by simp))
  have hsequence' : g.behaviorOf sequence = some (.sequence ⟨[]⟩) := hgrows.kept hne hsequence
  have hnot : ∀ x ∈ ({root, sequence} : Set NodeId), ∀ b : FootageBehavior,
      s.graph.behaviorOf x ≠ some (.other (.footage b)) :=
    fun x hx b hb => absurd (habove x hx _ hb) (Nat.not_lt_zero 2)
  -- the tracks
  have hstart : Loading s.graph root sequence folder
      { f with children := f.children ++ [sequence, folder] } 1
      (tracksNodes timeline.tracks.children + m) (fun _ => []) { s with graph := g } :=
    { grows := hgrows'
      above := habove
      known := by simp [hroot]
      root_eq := hroot'
      shows_ := ⟨_, hsequence', fun _ => rfl⟩
      lists := fun b kind l hb hl => by
        rw [hsequence'] at hb
        obtain rfl : (⟨[]⟩ : SequenceBehavior) = b := by simpa using hb
        exact absurd hl (by simp [listOf])
      folder_fresh := hfresh
      folder_eq := hfolder
      ready := hready.extends hgrows' hnot }
  have hdone := hstart.foldl kit timeline.tracks.children
  rw [hload]
  generalize timeline.tracks.children.foldl (loadTrack kit sequence (some folder))
    { s with graph := g } = s' at hdone
  have hview : timeline.tracks.children.foldl withTrack (fun _ => []) =
      LoadOTIOTask.loaded timeline := by
    funext kind
    rw [withTrack_foldl, List.nil_append, LoadOTIOTask.loaded]
  rw [hview] at hdone
  have hkept : ∀ x, x ≠ root → x ≠ sequence → ∀ b, s.graph.behaviorOf x = some b →
      s'.graph.behaviorOf x = some b := fun x hx hx' b =>
    hdone.grows.kept (by simp [hx, hx'])
  have hnodup : (done.map Prod.fst ++ sequence :: todo).Nodup := h.apart
  have hsequence_done : ∀ p ∈ done, p.1 ≠ sequence := by
    rintro p hp rfl
    exact (List.nodup_append.1 hnodup).2.2 p.1 (List.mem_map_of_mem hp) p.1
      List.mem_cons_self rfl
  have hsequence_todo : sequence ∉ todo :=
    (List.nodup_cons.1 (List.nodup_append.1 hnodup).2.1).1
  have hroot_of_sequence : ∀ x b, s.graph.behaviorOf x = some (.sequence b) → x ≠ root :=
    fun x b hb => ne_of_found hb hroot
  refine
    { root_eq := ⟨_, hdone.root_eq, fun x hx => ?_, ?_⟩
      loaded := fun p hp => ?_
      empty := fun x hx => ?_
      apart := by simpa using hnodup
      ready := hdone.ready }
  · -- the nodes in the bin
    rcases List.mem_append.1 hx with hx | hx
    · obtain ⟨hlive, hnotRoot, hnotTodo⟩ := hchildren x hx
      exact ⟨fun hnone => hlive (hdone.grows.live hnone), hnotRoot,
        fun hmem => hnotTodo (List.mem_cons_of_mem _ hmem)⟩
    · obtain rfl | rfl : x = sequence ∨ x = folder := by simpa using hx
      · refine ⟨fun hnone => ?_, hne, hsequence_todo⟩
        rw [hdone.grows.live hnone] at hsequence
        exact absurd hsequence (by simp)
      · obtain ⟨f', hf'⟩ := hdone.folder_eq
        refine ⟨by simp [hf'], ?_, fun hmem => ?_⟩
        · exact ne_of_found hfresh hroot
        · exact absurd rfl (ne_of_found (h.empty x (List.mem_cons_of_mem _ hmem)) hfresh)
  · -- the sequences in the bin
    have hsame : f.children.filter (nodeIsSequence s'.graph) =
        f.children.filter (nodeIsSequence s.graph) := by
      refine List.filter_congr fun x hx => ?_
      obtain ⟨hlive, hnotRoot, hnotTodo⟩ := hchildren x hx
      obtain ⟨b, hb⟩ := Option.ne_none_iff_exists'.1 hlive
      have hx' : x ≠ sequence := fun heq => hnotTodo (heq ▸ List.mem_cons_self)
      rw [nodeIsSequence, nodeIsSequence, hkept x hnotRoot hx' b hb, hb]
    obtain ⟨f', hf'⟩ := hdone.folder_eq
    obtain ⟨b, hb, -⟩ := hdone.shows_
    have htail : [sequence, folder].filter (nodeIsSequence s'.graph) = [sequence] := by
      simp [nodeIsSequence, hb, hf']
    rw [List.filter_append, hsame, hfilter, htail, List.map_append]
    rfl
  · -- what was loaded before stays
    rcases List.mem_append.1 hp with hp | hp
    · have hshown := h.loaded p hp
      obtain ⟨b, hb, -⟩ := id hshown
      exact hshown.extends hdone.grows habove
        (by simp [hroot_of_sequence p.1 b hb, hsequence_done p hp])
    · obtain rfl : p = _ := List.mem_singleton.1 hp
      exact hdone.shows_
  · have hempty := h.empty x (List.mem_cons_of_mem _ hx)
    exact hkept x (hroot_of_sequence x _ hempty)
      (fun heq => hsequence_todo (heq ▸ hx)) _ hempty

theorem Running.foldl : ∀ (ps : List (Otio.Timeline ℚ × NodeId))
    {done : List (NodeId × SequenceView)} {s : State F γ},
    Running root done (ps.map Prod.snd) ((ps.map fun p => timelineNodes p.1).sum + m) s →
      Running root (done ++ ps.map fun p => (p.2, LoadOTIOTask.loaded p.1)) [] m
        (ps.foldl (LoadOTIOTask.loadTimeline kit root) s)
  | [], done, s, h => by simpa using h
  | p :: ps, done, s, h => by
    rw [List.map_cons, List.map_cons, List.sum_cons, Nat.add_assoc] at h
    rw [List.foldl_cons, List.map_cons, List.append_cons]
    exact Running.foldl ps (h.loadTimeline kit)

omit [ClipSpeed F] [OfNat F 0] [OfNat F 1] [OfNat F 2] [Neg F] [OfNat F 3] in
theorem createSequences_spec : ∀ (timelines : List (Otio.Timeline ℚ)) (unnamed : ℕ)
    {g : MediaGraph F γ}, g.Room timelines.length →
      Extends timelines.length ∅ g (createSequences kit unnamed timelines g).1 ∧
      (createSequences kit unnamed timelines g).2.length = timelines.length ∧
      (createSequences kit unnamed timelines g).2.Nodup ∧
      ∀ x ∈ (createSequences kit unnamed timelines g).2, g.behaviorOf x = none ∧
        (createSequences kit unnamed timelines g).1.behaviorOf x = some (.sequence ⟨[]⟩)
  | [], _, g, _ => ⟨.refl _ _ _, rfl, .nil, fun _ hx => absurd hx List.not_mem_nil⟩
  | timeline :: timelines, unnamed, g, hroom => by
    have hroom₁ : g.Room 1 := hroom.mono (by rw [List.length_cons]; omega)
    obtain ⟨hfresh, hget⟩ := hroom₁.behaviorOf_addNode kit.sequence
      (.sequence ⟨[]⟩ : Behavior F (Media γ))
    have hadd : Extends 1 ∅ g (g.addNode kit.sequence (.sequence ⟨[]⟩)).1 :=
      .addNode hroom₁ _ _
    rw [createSequences]
    simp only
    generalize g.addNode kit.sequence (.sequence ⟨[]⟩ : Behavior F (Media γ)) = p
      at hfresh hget hadd
    generalize (if timeline.name = "" then unnamed + 1 else unnamed) = count
    generalize (if timeline.name = "" then s!"Sequence {count}" else timeline.name) = label
    have hlabel : Extends 0 ∅ p.1 (setNodeLabel p.1 p.2 label) := .modifyCore _ p.2
    have habove : Above g 0 ∅ := fun x hx => absurd hx (Set.notMem_empty x)
    have hfirst := hadd.trans hlabel (.of_subset le_rfl) habove
    have hroom₂ : (setNodeLabel p.1 p.2 label).Room timelines.length :=
      hfirst.room (by rw [Nat.add_comm]; exact hroom)
    obtain ⟨hrest, hlength, hnodup, hmem⟩ := createSequences_spec timelines count hroom₂
    have hself : (setNodeLabel p.1 p.2 label).behaviorOf p.2 = some (.sequence ⟨[]⟩) := by
      rw [setNodeLabel, behaviorOf_modifyCore, hget, if_pos rfl]
    refine ⟨(hfirst.trans hrest (.of_subset le_rfl) habove).mono
      (by rw [List.length_cons]; omega) (.of_subset le_rfl), ?_, ?_, fun x hx => ?_⟩
    · rw [List.length_cons, List.length_cons, hlength]
    · refine List.nodup_cons.2 ⟨fun hp => ?_, hnodup⟩
      have := (hmem p.2 hp).1
      rw [hself] at this
      exact absurd this (by simp)
    · rcases List.mem_cons.1 hx with rfl | hx
      · exact ⟨hfresh, hrest.kept (Set.notMem_empty _) hself⟩
      · exact ⟨hfirst.live (hmem x hx).1, (hmem x hx).2⟩

/-- The root folder has one sequence for each timeline, in order. -/
theorem running_run (timelines : List (Otio.Timeline ℚ)) (hroom : nodes timelines < u32Size) :
    ∃ sequences : List NodeId, sequences.length = timelines.length ∧
      ∃ s : State F γ, s.graph = (run kit timelines).1 ∧ Running (run kit timelines).2
        ((timelines.zip sequences).map fun p => (p.2, LoadOTIOTask.loaded p.1)) [] 0 s := by
  have hnodes : nodes timelines =
      3 + (timelines.length + (timelines.map timelineNodes).sum) := by
    rw [nodes, Nat.add_assoc]
    rfl
  obtain ⟨hroom₀, hwired₀, hroot₀, -⟩ := initialized_spec kit (hnodes ▸ hroom)
  rw [run]
  simp only
  generalize initialized kit = p at hroom₀ hwired₀ hroot₀
  obtain ⟨hgrows, hlength, hnodup, hmem⟩ := createSequences_spec kit timelines 0
    (hroom₀.mono (Nat.le_add_right _ _))
  generalize createSequences kit 0 timelines p.1 = q at hgrows hlength hnodup hmem
  have hfst : (timelines.zip q.2).map Prod.fst = timelines :=
    List.map_fst_zip hlength.ge
  have hsnd : (timelines.zip q.2).map Prod.snd = q.2 := List.map_snd_zip hlength.le
  have hsum : (timelines.zip q.2).map (fun p => timelineNodes p.1) =
      timelines.map timelineNodes := by
    conv_rhs => rw [← hfst, List.map_map]
    rfl
  have hstart : Running p.2 [] ((timelines.zip q.2).map Prod.snd)
      (((timelines.zip q.2).map fun p => timelineNodes p.1).sum + 0) ⟨q.1, []⟩ := by
    rw [hsnd, hsum, Nat.add_zero]
    refine ⟨⟨⟨"Root", []⟩, hgrows.kept (Set.notMem_empty _) hroot₀, fun _ hx =>
      absurd hx List.not_mem_nil, rfl⟩, fun _ hp => absurd hp List.not_mem_nil,
      fun x hx => (hmem x hx).2, by simpa using hnodup, hgrows.room hroom₀, hgrows.wired hwired₀,
      fun _ _ hf => absurd hf (by simp)⟩
  have hdone := hstart.foldl kit
  rw [List.nil_append] at hdone
  exact ⟨q.2, hlength, _, rfl, hdone⟩

/-- The project shows, for each timeline, the tracks that `loaded` gives. -/
theorem projectView_run {find : MediaGraph F γ → NodeId → Option NodeId} (hfind : Finds find)
    (timelines : List (Otio.Timeline ℚ)) (hroom : nodes timelines < u32Size) :
    projectView find (run kit timelines).1 (run kit timelines).2 =
      timelines.map LoadOTIOTask.loaded := by
  obtain ⟨sequences, hlength, s, hgraph, hrun⟩ := running_run kit timelines hroom
  obtain ⟨f, hroot, -, hfilter⟩ := hrun.root_eq
  rw [projectView, sequencesIn, ← hgraph, hroot]
  simp only [hfilter, List.map_map]
  have hfst : (timelines.zip sequences).map Prod.fst = timelines := List.map_fst_zip hlength.ge
  conv_rhs => rw [← hfst, List.map_map]
  refine List.map_congr_left fun p hp => ?_
  exact sequenceView_eq hfind (hrun.loaded _ (List.mem_map_of_mem hp))

end Run

end LoadOTIOTask

end Oak.Interchange
