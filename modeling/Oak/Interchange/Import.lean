import Oak.Interchange.View
import Oak.Otio.Model

/-!
# Loading timelines as a storage backend

`import_timeline` of `oak-storage/src/backends/otio.rs`, with `create_sequence` of `nodeutil.rs`. A
block gets its range when it is made, at a position that the loop adds up. The track lists of a
sequence are made with it.

## Main results

* `sequencesView_load`: the project shows one sequence for each timeline, in the order of their
  ids, with the tracks that `imported` gives.
-/

namespace Oak.Interchange

open Oak.Core Oak.Node Oak.Node.Graph Oak.Timeline
open Oak.Otio (Composable)

variable {F γ : Type*} {g g' g₀ : MediaGraph F γ} {n m : ℕ} {r : Otio.TimeRange ℚ}

variable (timeline : Otio.Timeline ℚ) {b : Behavior F (Media γ)}

namespace OtioBackend

/-! ### The code -/

/-- `from_file_uri`: a `file://` url without the scheme. -/
def fromFileUri (url : String) : String :=
  if "file://".toList.isPrefixOf url.toList then String.ofList (url.toList.drop 7) else url

/-- `track_kind_from_str`: what is unknown counts as subtitles. -/
def trackKindFromStr (kind : String) : TrackType :=
  if kind = "Video" then .video
  else if kind = "Audio" then .audio
  else .subtitle

/-- The length of a block: one second when the range is missing or has no duration. -/
def lengthOf (range : Option (Otio.TimeRange ℚ)) : Rational :=
  ((range.map fun r => r.duration.toRational).filter fun r => r ≠ 0).getD 1

/-- The file behind a clip. -/
def filenameOf (c : Otio.Clip ℚ) : Option String :=
  (c.mediaReference.bind Otio.MediaReference.asExternalReference).map fun e =>
    fromFileUri e.targetUrl

section Code

variable [ClipSpeed F] (kit : Kit F γ)

/-- `create_sequence`: a sequence with its three track lists. -/
def createSequence (g : MediaGraph F γ) : MediaGraph F γ × NodeId × (TrackType → NodeId) :=
  let (g, sequence) := g.addNode kit.sequence (.sequence ⟨[]⟩)
  let (g, video) := g.addNode .new (.trackList ⟨.video, [], some sequence, 0⟩)
  let (g, audio) := g.addNode .new (.trackList ⟨.audio, [], some sequence, 1⟩)
  let (g, subtitle) := g.addNode .new (.trackList ⟨.subtitle, [], some sequence, 2⟩)
  let g := g.modifyBehavior (fun b => match b with
    | .sequence _ => .sequence ⟨[video, audio, subtitle]⟩
    | b => b) sequence
  (g, sequence, fun kind => match kind with
    | .video => video
    | .audio => audio
    | .subtitle => subtitle)

/-- The loop over the items of a track: the blocks so far, and the position of the next one. -/
structure Blocks (F γ : Type*) where
  graph : MediaGraph F γ
  ids : List NodeId
  pos : Rational

/-- A clip, and the footage of its file. -/
def addClip (core : BlockCore F) (filename : Option String) (g : MediaGraph F γ) :
    MediaGraph F γ × NodeId :=
  let (g, id) := g.addNode kit.newClip.1 (.clip ⟨core, none⟩)
  match filename with
  | none => (g, id)
  | some fname =>
    let (g, footage) := g.addNode .new (.other (.footage (.new fname)))
    (g.modifyBehavior (onClip fun c => { c with footage := some footage }) id, id)

/-- The body of the loop. -/
def importBlock (track : NodeId) (s : Blocks F γ) : Composable ℚ → Blocks F γ
  | .clip c =>
    let len := lengthOf c.sourceRange
    let mediaIn := (c.sourceRange.map fun r => r.startTime.toRational).getD 0
    let core : BlockCore F :=
      { kit.newClip.2.core with
        range := .new s.pos (s.pos + len)
        mediaIn := mediaIn
        track := some track }
    let (g, id) := addClip kit core (filenameOf c) s.graph
    ⟨g, s.ids ++ [id], s.pos + len⟩
  | .gap b =>
    let len := lengthOf b.sourceRange
    let core : BlockCore F :=
      { kit.newGap.2.core with
        range := .new s.pos (s.pos + len)
        track := some track }
    let (g, id) := s.graph.addNode kit.newGap.1 (.gap ⟨core⟩)
    ⟨g, s.ids ++ [id], s.pos + len⟩
  | .transition t =>
    -- a transition does not advance the position
    let core : BlockCore F :=
      { kit.newTransition.2.core with
        range := .new s.pos (s.pos + 1)
        track := some track }
    let (g, id) := s.graph.addNode kit.newTransition.1
      (.transition ⟨core, t.inOffset.toRational, t.outOffset.toRational⟩)
    ⟨g, s.ids ++ [id], s.pos⟩
  | _ => s

variable [OfNat F 3]

/-- The loop over the tracks of a timeline, with the number of tracks on each list. -/
structure Tracks (F γ : Type*) where
  graph : MediaGraph F γ
  count : TrackType → ℤ

/-- The body of the loop. -/
def importTrack (lists : TrackType → NodeId) (s : Tracks F γ) (item : Composable ℚ) :
    Tracks F γ :=
  match item.asTrack with
  | none => s
  | some otioTrack =>
    let kind := trackKindFromStr otioTrack.kind
    let (g, track) := s.graph.addNode .new (.track
      { (newTrackBehavior kind : TrackBehavior F) with
        trackList := some (lists kind)
        index := s.count kind })
    let blocks := otioTrack.children.foldl (importBlock kit track) ⟨g, [], 0⟩
    let g := modifyTrack blocks.graph (fun t => { t with blocks := blocks.ids }) track
    let g := g.modifyBehavior (fun b => match b with
      | .trackList l => .trackList { l with tracks := l.tracks ++ [track] }
      | b => b) (lists kind)
    ⟨g, Function.update s.count kind (toI32 (s.count kind + 1))⟩

/-- `import_timeline`. -/
def importTimeline (g : MediaGraph F γ) (timeline : Otio.Timeline ℚ) : MediaGraph F γ :=
  let (g, sequence, lists) := createSequence kit g
  let g := if timeline.name = "" then g
    else g.modifyCore (fun core => { core with label := timeline.name }) sequence
  (timeline.tracks.children.foldl (importTrack kit lists) ⟨g, fun _ => 0⟩).graph

/-- `load`, from the timelines of the document on. -/
def load (timelines : List (Otio.Timeline ℚ)) : MediaGraph F γ :=
  timelines.foldl (importTimeline kit) (initialized kit).1

end Code

/-! ### What the project shows -/

/-- The blocks for the items of a track, from a position on. -/
def importedBlocks : Rational → List (Composable ℚ) → List BlockView
  | _, [] => []
  | pos, .clip c :: items =>
    let range : TimeRange := .new pos (pos + lengthOf c.sourceRange)
    ⟨.clip, range.in_, range.out, (c.sourceRange.map fun r => r.startTime.toRational).getD 0,
      (filenameOf c).getD ""⟩ :: importedBlocks (pos + lengthOf c.sourceRange) items
  | pos, .gap b :: items =>
    let range : TimeRange := .new pos (pos + lengthOf b.sourceRange)
    ⟨.gap, range.in_, range.out, 0, ""⟩ :: importedBlocks (pos + lengthOf b.sourceRange) items
  | pos, .transition _ :: items =>
    let range : TimeRange := .new pos (pos + 1)
    ⟨.transition, range.in_, range.out, 0, ""⟩ :: importedBlocks pos items
  | pos, _ :: items => importedBlocks pos items

/-- What the project shows for a timeline. -/
def imported : SequenceView := fun kind =>
  ((timeline.tracks.children.filterMap Composable.asTrack).filter fun t =>
    trackKindFromStr t.kind = kind).map fun t => importedBlocks 0 t.children

theorem lengthOf_eq {range : Option (Otio.TimeRange ℚ)} {d : Rational} (hrange : range = some r)
    (hd : d = r.duration.toRational) (hpos : 0 < d) : lengthOf range = d := by
  rw [lengthOf, hrange, Option.map_some, ← hd, Option.filter_some,
    if_pos (by simpa using hpos.ne'), Option.getD_some]

theorem importedBlocks_clip {c : Otio.Clip ℚ} (hrange : c.sourceRange = some r)
    (hpos : 0 < r.duration.toRational) (pos : Rational) (items : List (Composable ℚ)) :
    importedBlocks pos (.clip c :: items) =
      ⟨.clip, pos, pos + r.duration.toRational, r.startTime.toRational,
        (filenameOf c).getD ""⟩ :: importedBlocks (pos + r.duration.toRational) items := by
  rw [importedBlocks, lengthOf_eq hrange rfl hpos,
    TimeRange.new_of_le (le_add_of_nonneg_right hpos.le), hrange, Option.map_some,
    Option.getD_some]

theorem importedBlocks_gap {b : Otio.Gap ℚ} (hrange : b.sourceRange = some r)
    (hpos : 0 < r.duration.toRational) (pos : Rational) (items : List (Composable ℚ)) :
    importedBlocks pos (.gap b :: items) =
      ⟨.gap, pos, pos + r.duration.toRational, 0, ""⟩ ::
        importedBlocks (pos + r.duration.toRational) items := by
  rw [importedBlocks, lengthOf_eq hrange rfl hpos,
    TimeRange.new_of_le (le_add_of_nonneg_right hpos.le)]

/-- The nodes that are made for an item of a timeline, at most. -/
def trackNodes (item : Composable ℚ) : ℕ :=
  match item.asTrack with
  | none => 0
  | some t => 1 + 2 * t.children.length

/-- The nodes that are made for a timeline, at most. -/
def timelineNodes : ℕ :=
  4 + (timeline.tracks.children.map trackNodes).sum

/-- The nodes that are made for a document, at most. -/
def nodes (timelines : List (Otio.Timeline ℚ)) : ℕ := 3 + (timelines.map timelineNodes).sum

/-! ### The blocks of a track -/

/-- Nodes are added, none of them a sequence, and nothing that was there is changed. -/
structure Quiet (n : ℕ) (g g' : MediaGraph F γ) : Prop where
  extends_ : Extends n ∅ g g'
  sequences : sequenceIds g' = sequenceIds g

theorem above_empty (g : MediaGraph F γ) (l : ℕ) : Above g l ∅ :=
  fun x hx => absurd hx (Set.notMem_empty x)

theorem Quiet.refl (g : MediaGraph F γ) : Quiet 0 g g := ⟨.refl _ _ _, rfl⟩

theorem Quiet.mono (h : Quiet n g g') (hn : n ≤ m) : Quiet m g g' :=
  ⟨h.extends_.mono hn (.of_subset le_rfl), h.sequences⟩

theorem Quiet.trans {g'' : MediaGraph F γ} (h : Quiet n g g') (h' : Quiet m g' g'') :
    Quiet (n + m) g g'' :=
  ⟨h.extends_.trans h'.extends_ (.of_subset le_rfl) (above_empty _ _),
    h'.sequences.trans h.sequences⟩

theorem Quiet.addNode (h : g.Room 1) (core : NodeCore F) (hb : ∀ s, b ≠ .sequence s) :
    Quiet 1 g (g.addNode core b).1 :=
  ⟨.addNode h core b, sequenceIds_addNode_of_ne h core hb⟩

/-- The blocks `views` were made since `g₀`, and nothing knows them yet. -/
structure Made (g₀ : MediaGraph F γ) (n m : ℕ) (views : List BlockView) (s : Blocks F γ) :
    Prop where
  quiet : Quiet n g₀ s.graph
  shows_ : List.Forall₂ (ShowsBlock s.graph) s.ids views
  room : s.graph.Room m
  wired : s.graph.Wired

section

variable {views : List BlockView} {s : Blocks F γ}

theorem Made.next {view : BlockView} {id : NodeId} {k : ℕ} (h : Made g₀ n (k + m) views s)
    (hquiet : Quiet k s.graph g) (hview : ShowsBlock g id view) (pos : Rational) :
    Made g₀ (n + k) m (views ++ [view]) ⟨g, s.ids ++ [id], pos⟩ where
  quiet := h.quiet.trans hquiet
  shows_ := List.rel_append
    (h.shows_.imp fun _ _ hb => hb.extends hquiet.extends_ (above_empty _ _)) (.cons hview .nil)
  room := hquiet.extends_.room h.room
  wired := hquiet.extends_.wired h.wired

theorem Made.mono {n' m' : ℕ} (h : Made g₀ n m views s) (hn : n ≤ n') (hm : m' ≤ m) :
    Made g₀ n' m' views s :=
  ⟨h.quiet.mono hn, h.shows_, h.room.mono hm, h.wired⟩

theorem Made.addNode (h : Made g₀ n (2 + m) views s) (core : NodeCore F) (hb : ∀ s, b ≠ .sequence s)
    {view : BlockView}
    (hview : ∀ g id, (g : MediaGraph F γ).behaviorOf id = some b → ShowsBlock g id view)
    (pos : Rational) :
    Made g₀ (n + 2) m (views ++ [view])
      ⟨(s.graph.addNode core b).1, s.ids ++ [(s.graph.addNode core b).2], pos⟩ := by
  have hroom : s.graph.Room 1 := h.room.mono (by omega)
  have hself : (s.graph.addNode core b).1.behaviorOf (s.graph.addNode core b).2 = some b := by
    rw [(hroom.behaviorOf_addNode core b).2, if_pos rfl]
  exact (h.mono le_rfl (by omega)).next ((Quiet.addNode hroom core hb).mono (by omega))
    (hview _ _ hself) pos

end

section Blocks

variable [ClipSpeed F] (kit : Kit F γ) {track : NodeId}

theorem addClip_spec (hroom : g.Room 2) (hwired : g.Wired) (core : BlockCore F)
    (filename : Option String) :
    Quiet 2 g (addClip kit core filename g).1 ∧
      ShowsBlock (addClip kit core filename g).1 (addClip kit core filename g).2
        ⟨.clip, core.in_, core.out, core.mediaIn, filename.getD ""⟩ := by
  have hroom₁ : g.Room 1 := hroom.mono (by omega)
  obtain ⟨hfresh, hget⟩ := hroom₁.behaviorOf_addNode kit.newClip.1
    (.clip ⟨core, none⟩ : Behavior F (Media γ))
  have hadd : Quiet 1 g (g.addNode kit.newClip.1 (.clip ⟨core, none⟩)).1 :=
    .addNode hroom₁ _ (by simp)
  have hedges : (g.addNode kit.newClip.1
    (.clip ⟨core, none⟩ : Behavior F (Media γ))).1.edges = g.edges := edges_allocate _ _
  rw [addClip]
  simp only
  generalize g.addNode kit.newClip.1 (.clip ⟨core, none⟩ : Behavior F (Media γ)) = p
    at hfresh hget hadd hedges
  have hclip : p.1.behaviorOf p.2 = some (.clip ⟨core, none⟩) := by rw [hget, if_pos rfl]
  rcases filename with _ | fname
  · refine ⟨hadd.mono (by omega), .clip hclip (.nothing rfl fun e he => ?_)⟩
    exact hwired.notMem hfresh e (hedges ▸ he)
  · have hroom₂ : p.1.Room 1 := hadd.extends_.room hroom
    obtain ⟨hfresh₂, hget₂⟩ := hroom₂.behaviorOf_addNode .new
      (.other (.footage (.new fname)) : Behavior F (Media γ))
    have hadd₂ : Quiet 1 p.1 (p.1.addNode .new (.other (.footage (.new fname)))).1 :=
      .addNode hroom₂ _ (by simp)
    simp only
    generalize p.1.addNode .new (.other (.footage (.new fname)) : Behavior F (Media γ)) = q
      at hfresh₂ hget₂ hadd₂
    have hne : p.2 ≠ q.2 := by
      intro heq
      rw [heq, hfresh₂] at hclip
      exact absurd hclip (by simp)
    have hstep : Extends 0 {p.2} q.1 (q.1.modifyBehavior
      (onClip fun c => { c with footage := some q.2 }) p.2) := .modifyBehavior _ rfl
    have hboth := hadd.trans hadd₂
    refine ⟨⟨hboth.extends_.trans hstep (within_singleton hfresh) (above_empty _ _), ?_⟩, ?_⟩
    · have hlt : q.1.entries.length < u32Size := (hadd₂.extends_.room (m := 0) hroom₂).lt
      exact (sequenceIds_modifyBehavior hlt _ (fun b => by cases b <;> simp [onClip])
        p.2).trans hboth.sequences
    · refine .clip (c := ⟨core, some q.2⟩) ?_ (.footage (b := .new fname) rfl ?_)
      · rw [behaviorOf_modifyBehavior, if_pos rfl, hget₂, if_neg hne, hclip]
        rfl
      · rw [behaviorOf_modifyBehavior, if_neg hne.symm, hget₂, if_pos rfl]

theorem Made.foldl : ∀ (items : List (Composable ℚ)) {n : ℕ} {views : List BlockView}
    {s : Blocks F γ}, Made g₀ n (2 * items.length + m) views s →
      Made g₀ (n + 2 * items.length) m (views ++ importedBlocks s.pos items)
        (items.foldl (importBlock kit track) s)
  | [], n, views, s, h => by simpa [importedBlocks] using h
  | item :: items, n, views, s, h => by
    have hlength : 2 * (item :: items).length + m = 2 + (2 * items.length + m) := by
      rw [List.length_cons]
      omega
    have hlength' : n + 2 * (item :: items).length = n + 2 + 2 * items.length := by
      rw [List.length_cons]
      omega
    rw [hlength] at h
    rw [hlength', List.foldl_cons]
    -- items of other kinds are skipped
    have hskip : importBlock kit track s item = s → importedBlocks s.pos (item :: items) =
        importedBlocks s.pos items → Made g₀ (n + 2 + 2 * items.length) m
          (views ++ importedBlocks s.pos (item :: items))
            (items.foldl (importBlock kit track) (importBlock kit track s item)) := by
      intro himport hviews
      rw [himport, hviews]
      exact Made.foldl items (h.mono (Nat.le_add_right n 2) (Nat.le_add_left _ 2))
    cases item with
    | clip c =>
      obtain ⟨hquiet, hshows⟩ := addClip_spec kit (h.room.mono (by omega)) h.wired
        { (kit.newClip.2.core : BlockCore F) with
          range := .new s.pos (s.pos + lengthOf c.sourceRange)
          mediaIn := (c.sourceRange.map fun r => r.startTime.toRational).getD 0
          track := some track } (filenameOf c)
      have hnext := Made.foldl items (h.next hquiet hshows (s.pos + lengthOf c.sourceRange))
      rw [List.append_assoc] at hnext
      exact hnext
    | gap b =>
      have hnext := Made.foldl items (h.addNode kit.newGap.1 (b := .gap
        ⟨{ (kit.newGap.2.core : BlockCore F) with
          range := .new s.pos (s.pos + lengthOf b.sourceRange)
          track := some track }⟩) (by simp) (fun _ _ hb => .gap hb)
            (s.pos + lengthOf b.sourceRange))
      rw [List.append_assoc] at hnext
      exact hnext
    | transition t =>
      have hnext := Made.foldl items (h.addNode kit.newTransition.1 (b := .transition
        { core := { (kit.newTransition.2.core : BlockCore F) with
            range := .new s.pos (s.pos + 1)
            track := some track }
          inOffset := t.inOffset.toRational
          outOffset := t.outOffset.toRational }) (by simp) (fun _ _ hb => .transition hb) s.pos)
      rw [List.append_assoc] at hnext
      exact hnext
    | track t => exact hskip rfl rfl
    | stack t => exact hskip rfl rfl
    | raw v => exact hskip rfl rfl

end Blocks

/-! ### The tracks of a timeline -/

section Tracks

variable {sequence : NodeId} {lists : TrackType → NodeId} {view : SequenceView}

/-- Since `g₀` a sequence was made, with some of the tracks of a timeline. -/
structure Importing (g₀ : MediaGraph F γ) (sequence : NodeId) (lists : TrackType → NodeId)
    (n m : ℕ) (view : SequenceView) (g : MediaGraph F γ) : Prop where
  extends_ : Extends n ∅ g₀ g
  sequences : sequenceIds g = sequenceIds g₀ ++ [sequence]
  sequence_eq : ∃ s, g.behaviorOf sequence = some (.sequence s) ∧
    ∀ kind, listOf s kind = some (lists kind)
  fresh : g₀.behaviorOf sequence = none ∧ ∀ kind, g₀.behaviorOf (lists kind) = none
  shows_ : ShowsSequence g sequence view
  room : g.Room m
  wired : g.Wired

/-- The tracks of a sequence, with the one that is made for an item. -/
def withTrack (view : SequenceView) (item : Composable ℚ) : SequenceView :=
  match item.asTrack with
  | none => view
  | some t => Function.update view (trackKindFromStr t.kind)
      (view (trackKindFromStr t.kind) ++ [importedBlocks 0 t.children])

theorem withTrack_foldl (items : List (Composable ℚ)) (view : SequenceView) (kind : TrackType) :
    items.foldl withTrack view kind = view kind ++
      ((items.filterMap Composable.asTrack).filter fun t => trackKindFromStr t.kind = kind).map
        fun t => importedBlocks 0 t.children := by
  induction items generalizing view with
  | nil => simp
  | cons item items ih =>
    rw [List.foldl_cons, ih, withTrack, List.filterMap_cons]
    rcases item.asTrack with _ | t
    · rfl
    · by_cases hk : trackKindFromStr t.kind = kind
      · subst hk
        simp
      · simp [hk, Ne.symm hk]

theorem Importing.modifyCore (h : Importing g₀ sequence lists n m view g)
    (f : NodeCore F → NodeCore F) (id : NodeId) :
    Importing g₀ sequence lists n m view (g.modifyCore f id) := by
  have hstep : Extends 0 ∅ g (g.modifyCore f id) := .modifyCore f id
  have hroom : (g.modifyCore f id).Room m := hstep.room (by rw [Nat.zero_add]; exact h.room)
  obtain ⟨s, hs, hlists⟩ := h.sequence_eq
  refine ⟨h.extends_.trans hstep (.of_subset le_rfl) (above_empty _ _), ?_,
    ⟨s, hstep.kept (Set.notMem_empty _) hs, hlists⟩, h.fresh,
    h.shows_.extends hstep (above_empty _ _) (Set.notMem_empty _), hroom, hstep.wired h.wired⟩
  rw [sequenceIds_of_behaviorOf (h.room.mono (Nat.zero_le m)).lt (hroom.mono (Nat.zero_le m)).lt
    fun x => behaviorOf_modifyCore f, h.sequences]

variable [ClipSpeed F] [OfNat F 3] (kit : Kit F γ)

theorem Importing.importTrack {s : Tracks F γ} {item : Composable ℚ}
    (h : Importing g₀ sequence lists n (trackNodes item + m) view s.graph) :
    Importing g₀ sequence lists (n + trackNodes item) m (withTrack view item)
      (importTrack kit lists s item).graph := by
  rcases htrack : item.asTrack with _ | otioTrack
  · rw [withTrack, OtioBackend.importTrack, htrack]
    exact { h with
      extends_ := h.extends_.mono (Nat.le_add_right _ _) (.of_subset le_rfl)
      room := h.room.mono (Nat.le_add_left _ _) }
  have hnodes : trackNodes item = 1 + 2 * otioTrack.children.length := by
    rw [trackNodes, htrack]
  have hroom := h.room
  rw [hnodes, Nat.add_assoc] at hroom
  rw [withTrack, OtioBackend.importTrack, htrack]
  simp only
  generalize trackKindFromStr otioTrack.kind = kind
  generalize ({ (newTrackBehavior kind : TrackBehavior F) with
    trackList := some (lists kind)
    index := s.count kind } : TrackBehavior F) = t
  obtain ⟨b, hb, hlists⟩ := h.sequence_eq
  obtain ⟨hsequence, hlistFresh⟩ := h.fresh
  have hshown := h.shows_
  obtain ⟨b', hb', hkinds⟩ := hshown
  obtain rfl : b = b' := by simpa [hb] using hb'
  have hlist := hkinds kind
  rw [hlists kind] at hlist
  obtain ⟨list, hlist, hkind, htracks⟩ := hlist
  -- the track
  have hroom₁ : s.graph.Room 1 := hroom.mono (by omega)
  obtain ⟨hfresh, hget⟩ := hroom₁.behaviorOf_addNode .new (.track t : Behavior F (Media γ))
  have hadd : Quiet 1 s.graph (s.graph.addNode .new (.track t)).1 :=
    .addNode hroom₁ _ (by simp)
  generalize s.graph.addNode .new (.track t : Behavior F (Media γ)) = p at hfresh hget hadd ⊢
  have htrack₁ : p.1.behaviorOf p.2 = some (.track t) := by rw [hget, if_pos rfl]
  -- its blocks
  have hstart : Made p.1 0 (2 * otioTrack.children.length + m) [] ⟨p.1, [], 0⟩ :=
    ⟨.refl _, .nil, hadd.extends_.room hroom, hadd.extends_.wired h.wired⟩
  have hmade : Made p.1 (0 + 2 * otioTrack.children.length) m
      ([] ++ importedBlocks 0 otioTrack.children)
      (otioTrack.children.foldl (importBlock kit p.2) ⟨p.1, [], 0⟩) :=
    Made.foldl kit otioTrack.children hstart
  generalize otioTrack.children.foldl (importBlock kit p.2) ⟨p.1, [], 0⟩ = blocks
    at hmade ⊢
  rw [Nat.zero_add, List.nil_append] at hmade
  have htrack₂ : blocks.graph.behaviorOf p.2 = some (.track t) :=
    hmade.quiet.extends_.kept (Set.notMem_empty _) htrack₁
  have hmost := hadd.trans hmade.quiet
  have hne : lists kind ≠ p.2 := ne_of_found hlist hfresh
  have hlist₂ : blocks.graph.behaviorOf (lists kind) = some (.trackList list) :=
    hmost.extends_.kept (Set.notMem_empty _) hlist
  have hfill : Extends 0 {p.2} blocks.graph
      (modifyTrack blocks.graph (fun t => { t with blocks := blocks.ids }) p.2) :=
    .modifyBehavior _ rfl
  have htrack₃ : (modifyTrack blocks.graph (fun t => { t with blocks := blocks.ids })
      p.2).behaviorOf p.2 = some (.track { t with blocks := blocks.ids }) := by
    rw [modifyTrack, behaviorOf_modifyBehavior, if_pos rfl, htrack₂]
    rfl
  have hlist₃ : (modifyTrack blocks.graph (fun t => { t with blocks := blocks.ids })
      p.2).behaviorOf (lists kind) = some (.trackList list) := hfill.kept hne hlist₂
  have hshows₃ : List.Forall₂ (ShowsBlock (modifyTrack blocks.graph
      (fun t => { t with blocks := blocks.ids }) p.2)) blocks.ids
        (importedBlocks 0 otioTrack.children) := by
    refine hmade.shows_.imp fun _ _ hv => hv.extends hfill
      (above_singleton htrack₂ Nat.one_pos)
  have hsequences₃ : sequenceIds (modifyTrack blocks.graph
      (fun t => { t with blocks := blocks.ids }) p.2) = sequenceIds s.graph := by
    refine (sequenceIds_modifyBehavior (hmade.room.mono (Nat.zero_le m)).lt _
      (fun c => ?_) p.2).trans hmost.sequences
    cases c <;> simp
  generalize modifyTrack blocks.graph (fun t => { t with blocks := blocks.ids }) p.2 = g₃
    at hfill htrack₃ hlist₃ hshows₃ hsequences₃ ⊢
  -- the track goes to its list
  have hfilled : Extends (1 + 2 * otioTrack.children.length) ∅ s.graph g₃ :=
    hmost.extends_.trans hfill (within_singleton hfresh) (above_empty _ _)
  have hlast : ∀ f : Behavior F (Media γ) → Behavior F (Media γ),
      Extends 0 {lists kind} g₃ (g₃.modifyBehavior f (lists kind)) := fun f =>
    .modifyBehavior f rfl
  have habove : Above s.graph 1 {lists kind} := above_singleton hlist (Nat.lt_succ_self 1)
  have hroom₃ : g₃.Room m := hfilled.room (by rw [Nat.add_assoc]; exact hroom)
  have htotal : ∀ f : Behavior F (Media γ) → Behavior F (Media γ),
      Extends (1 + 2 * otioTrack.children.length) {lists kind} s.graph
        (g₃.modifyBehavior f (lists kind)) := fun f =>
    (hfilled.mono le_rfl (.of_subset (Set.empty_subset _))).trans (hlast f) (.of_subset le_rfl)
      (habove.mono (Nat.zero_le 1))
  have hsequence₃ : g₃.behaviorOf sequence = some (.sequence b) :=
    hfilled.kept (Set.notMem_empty _) hb
  have hsequence_ne : sequence ≠ lists kind := ne_of_found hsequence₃ hlist₃
  refine ⟨?_, ?_, ⟨b, (hlast _).kept hsequence_ne hsequence₃, hlists⟩, h.fresh, ?_,
    (hlast _).room (by rw [Nat.zero_add]; exact hroom₃), (htotal _).wired h.wired⟩
  · rw [hnodes]
    exact h.extends_.trans (htotal _) (within_singleton (hlistFresh kind)) (above_empty _ _)
  · refine (sequenceIds_modifyBehavior (hroom₃.mono (Nat.zero_le m)).lt _ (fun c => ?_)
      (lists kind)).trans (hsequences₃.trans h.sequences)
    cases c <;> simp
  · refine ShowsSequence.addTrack (l := lists kind)
      (htotal _) h.shows_ habove ?_ ((hlast _).kept hsequence_ne hsequence₃) (hlists kind)
      (fun b₀ k hb₀ _ => ?_) hkind ?_ htracks ⟨_, (hlast _).kept hne.symm htrack₃, ?_⟩
    · rintro _ rfl c hc
      rw [hlist] at hc
      obtain rfl : list = c := by simpa using hc
      exact hkind
    · rw [hb] at hb₀
      obtain rfl : b = b₀ := by simpa using hb₀
      rfl
    · rw [behaviorOf_modifyBehavior, if_pos rfl, hlist₃, Option.map_some]
    · exact hshows₃.imp fun _ _ hv => hv.extends (hlast _) (above_singleton hlist₃ (Nat.succ_pos 1))

theorem Importing.foldl : ∀ (items : List (Composable ℚ)) {n : ℕ} {view : SequenceView}
    {s : Tracks F γ},
    Importing g₀ sequence lists n ((items.map trackNodes).sum + m) view s.graph →
      Importing g₀ sequence lists (n + (items.map trackNodes).sum) m (items.foldl withTrack view)
        (items.foldl (OtioBackend.importTrack kit lists) s).graph
  | [], n, view, s, h => by simpa using h
  | item :: items, n, view, s, h => by
    rw [List.map_cons, List.sum_cons, Nat.add_assoc] at h
    rw [List.map_cons, List.sum_cons, ← Nat.add_assoc]
    exact Importing.foldl items (h.importTrack kit)

end Tracks

/-! ### The timelines of a document -/

section Load

variable [ClipSpeed F] [OfNat F 3] (kit : Kit F γ)

omit [ClipSpeed F] [OfNat F 3] in
/-- A track list is added to a graph that has a new sequence. -/
theorem addList_spec (hroom : g.Room 1) (list : TrackListBehavior) :
    Quiet 1 g (g.addNode .new (.trackList list)).1 ∧
      g.behaviorOf (g.addNode .new (.trackList list)).2 = none ∧
      (g.addNode .new (.trackList list)).1.behaviorOf (g.addNode .new (.trackList list)).2 =
        some (.trackList list) := by
  obtain ⟨hfresh, hget⟩ := hroom.behaviorOf_addNode .new (.trackList list : Behavior F (Media γ))
  exact ⟨.addNode hroom _ (by simp), hfresh, by rw [hget, if_pos rfl]⟩

omit [ClipSpeed F] [OfNat F 3] in
theorem createSequence_spec (hroom : g.Room (4 + m)) (hwired : g.Wired) :
    Importing g (createSequence kit g).2.1 (createSequence kit g).2.2 4 m (fun _ => [])
      (createSequence kit g).1 := by
  -- the four nodes
  have hroom₀ : g.Room 1 := hroom.mono (by omega)
  obtain ⟨hfresh, hget⟩ := hroom₀.behaviorOf_addNode kit.sequence
    (.sequence ⟨[]⟩ : Behavior F (Media γ))
  have hadd : Extends 1 ∅ g (g.addNode kit.sequence (.sequence ⟨[]⟩)).1 := .addNode hroom₀ _ _
  have hids := sequenceIds_addNode hroom₀ kit.sequence (.sequence ⟨[]⟩)
  rw [createSequence]
  simp only
  generalize g.addNode kit.sequence (.sequence ⟨[]⟩ : Behavior F (Media γ)) = p
    at hfresh hget hadd hids ⊢
  have hsequence : p.1.behaviorOf p.2 = some (.sequence ⟨[]⟩) := by rw [hget, if_pos rfl]
  have hroom₁ : p.1.Room (3 + m) := hadd.room (by rw [← Nat.add_assoc]; exact hroom)
  obtain ⟨hvideo, hvfresh, hv⟩ := addList_spec (hroom₁.mono (by omega))
    ⟨.video, [], some p.2, 0⟩
  generalize p.1.addNode .new (.trackList ⟨.video, [], some p.2, 0⟩ : Behavior F (Media γ)) = v
    at hvideo hvfresh hv ⊢
  have hroom₂ : v.1.Room (2 + m) :=
    hvideo.extends_.room (by rw [← Nat.add_assoc]; exact hroom₁)
  obtain ⟨haudio, hafresh, ha⟩ := addList_spec (hroom₂.mono (by omega))
    ⟨.audio, [], some p.2, 1⟩
  generalize v.1.addNode .new (.trackList ⟨.audio, [], some p.2, 1⟩ : Behavior F (Media γ)) = a
    at haudio hafresh ha ⊢
  have hroom₃ : a.1.Room (1 + m) :=
    haudio.extends_.room (by rw [← Nat.add_assoc]; exact hroom₂)
  obtain ⟨hsubtitle, hsfresh, hs⟩ := addList_spec (hroom₃.mono (by omega))
    ⟨.subtitle, [], some p.2, 2⟩
  generalize a.1.addNode .new (.trackList ⟨.subtitle, [], some p.2, 2⟩ :
    Behavior F (Media γ)) = t at hsubtitle hsfresh hs ⊢
  have hroom₄ : t.1.Room m := hsubtitle.extends_.room hroom₃
  have hquiet : Quiet 3 p.1 t.1 := (hvideo.trans haudio).trans hsubtitle
  have hv₃ : t.1.behaviorOf v.2 = some (.trackList ⟨.video, [], some p.2, 0⟩) :=
    hsubtitle.extends_.kept (Set.notMem_empty _) (haudio.extends_.kept (Set.notMem_empty _) hv)
  have ha₃ : t.1.behaviorOf a.2 = some (.trackList ⟨.audio, [], some p.2, 1⟩) :=
    hsubtitle.extends_.kept (Set.notMem_empty _) ha
  have hsequence₃ : t.1.behaviorOf p.2 = some (.sequence ⟨[]⟩) :=
    hquiet.extends_.kept (Set.notMem_empty _) hsequence
  -- the sequence knows its lists
  have hstep : ∀ f : Behavior F (Media γ) → Behavior F (Media γ),
      Extends 0 {p.2} t.1 (t.1.modifyBehavior f p.2) := fun f => .modifyBehavior f rfl
  have hall : Extends 4 ∅ g t.1 :=
    hadd.trans hquiet.extends_ (.of_subset le_rfl) (above_empty _ _)
  have hlist : ∀ (kind : TrackType) (x : NodeId) (i : ℤ),
      t.1.behaviorOf x = some (.trackList ⟨kind, [], some p.2, i⟩) →
        ∀ f : Behavior F (Media γ) → Behavior F (Media γ),
          ShowsKind (t.1.modifyBehavior f p.2) kind [] (some x) := by
    intro kind x i hx f
    exact ⟨_, (hstep f).kept (ne_of_found hx hsequence₃) hx, rfl, .nil⟩
  have hlistOf : ∀ kind, listOf ⟨[v.2, a.2, t.2]⟩ kind = some (match kind with
      | .video => v.2
      | .audio => a.2
      | .subtitle => t.2) := by
    intro kind
    cases kind
    · simp [listOf, base, valid_of_behaviorOf hv₃]
    · simp [listOf, base, valid_of_behaviorOf ha₃]
    · simp [listOf, base, valid_of_behaviorOf hs]
  have hsequence₄ : (t.1.modifyBehavior (fun b => match b with
      | .sequence _ => .sequence ⟨[v.2, a.2, t.2]⟩
      | b => b) p.2).behaviorOf p.2 = some (.sequence ⟨[v.2, a.2, t.2]⟩) := by
    rw [behaviorOf_modifyBehavior, if_pos rfl, hsequence₃, Option.map_some]
  refine ⟨hall.trans (hstep _) (within_singleton hfresh) (above_empty _ _), ?_,
    ⟨_, hsequence₄, hlistOf⟩, ⟨hfresh, fun kind => ?_⟩, ⟨_, hsequence₄, fun kind => ?_⟩,
    (hstep _).room (by rw [Nat.zero_add]; exact hroom₄),
    (hstep _).wired (hall.wired hwired)⟩
  · rw [sequenceIds_modifyBehavior (hroom₄.mono (Nat.zero_le m)).lt _ (fun b => ?_) p.2,
      hquiet.sequences, hids]
    · have hself : nodeIsSequence p.1 p.2 = true := by rw [nodeIsSequence, hsequence]
      simp [hself]
    · cases b <;> simp
  · cases kind
    · exact hadd.live hvfresh
    · exact hadd.live (hvideo.extends_.live hafresh)
    · exact hadd.live (hvideo.extends_.live (haudio.extends_.live hsfresh))
  · rw [hlistOf]
    cases kind
    · exact hlist .video v.2 0 hv₃ _
    · exact hlist .audio a.2 1 ha₃ _
    · exact hlist .subtitle t.2 2 hs _

/-- The timelines of `done` are the sequences of the project. -/
structure Loaded (done : List (NodeId × SequenceView)) (m : ℕ) (g : MediaGraph F γ) : Prop where
  sequences : sequenceIds g = done.map Prod.fst
  shows_ : ∀ p ∈ done, ShowsSequence g p.1 p.2
  room : g.Room m
  wired : g.Wired

theorem Loaded.importTimeline {done : List (NodeId × SequenceView)} (timeline : Otio.Timeline ℚ)
    (h : Loaded done (timelineNodes timeline + m) g) :
    ∃ sequence, Loaded (done ++ [(sequence, imported timeline)]) m
      (importTimeline kit g timeline) := by
  have hroom : g.Room (4 + ((timeline.tracks.children.map trackNodes).sum + m)) := by
    rw [← Nat.add_assoc]
    exact h.room
  have hcreated := createSequence_spec kit hroom h.wired
  rw [OtioBackend.importTimeline]
  simp only
  generalize createSequence kit g = p at hcreated ⊢
  have hlabel : Importing g p.2.1 p.2.2 4 ((timeline.tracks.children.map trackNodes).sum + m)
      (fun _ => []) (if timeline.name = "" then p.1
        else p.1.modifyCore (fun core => { core with label := timeline.name }) p.2.1) := by
    split_ifs
    · exact hcreated
    · exact hcreated.modifyCore _ _
  generalize (if timeline.name = "" then p.1
    else p.1.modifyCore (fun core => { core with label := timeline.name }) p.2.1) = g₁
    at hlabel ⊢
  have hdone := Importing.foldl kit timeline.tracks.children (s := ⟨g₁, fun _ => 0⟩) hlabel
  generalize timeline.tracks.children.foldl (importTrack kit p.2.2) ⟨g₁, fun _ => 0⟩ = s
    at hdone ⊢
  have hview : timeline.tracks.children.foldl withTrack (fun _ => []) = imported timeline := by
    funext kind
    rw [withTrack_foldl, List.nil_append, imported]
  rw [hview] at hdone
  refine ⟨p.2.1, ?_, fun q hq => ?_, hdone.room, hdone.wired⟩
  · rw [hdone.sequences, h.sequences, List.map_append]
    rfl
  · rcases List.mem_append.1 hq with hq | hq
    · exact (h.shows_ q hq).extends hdone.extends_ (above_empty _ _) (Set.notMem_empty _)
    · obtain rfl : q = _ := List.mem_singleton.1 hq
      exact hdone.shows_

theorem Loaded.foldl : ∀ (timelines : List (Otio.Timeline ℚ)) {done : List (NodeId × SequenceView)}
    {g : MediaGraph F γ}, Loaded done ((timelines.map timelineNodes).sum + m) g →
      ∃ sequences : List NodeId, sequences.length = timelines.length ∧
        Loaded (done ++ sequences.zip (timelines.map imported)) m
          (timelines.foldl (OtioBackend.importTimeline kit) g)
  | [], done, g, h => ⟨[], rfl, by simpa using h⟩
  | timeline :: timelines, done, g, h => by
    rw [List.map_cons, List.sum_cons, Nat.add_assoc] at h
    obtain ⟨sequence, hfirst⟩ := h.importTimeline kit timeline
    obtain ⟨sequences, hlength, hrest⟩ := Loaded.foldl timelines hfirst
    refine ⟨sequence :: sequences, by rw [List.length_cons, List.length_cons, hlength], ?_⟩
    rw [List.map_cons, List.zip_cons_cons, List.append_cons]
    exact hrest

/-- The project shows one sequence for each timeline, with the tracks that `imported` gives. -/
theorem sequencesView_load {find : MediaGraph F γ → NodeId → Option NodeId} (hfind : Finds find)
    (timelines : List (Otio.Timeline ℚ)) (hroom : nodes timelines < u32Size) :
    (sequenceIds (load kit timelines)).map (sequenceView find (load kit timelines)) =
      timelines.map imported := by
  obtain ⟨hroom₀, hwired₀, -, hids⟩ := initialized_spec (F := F) kit hroom
  have hstart : Loaded [] ((timelines.map timelineNodes).sum + 0) (initialized kit).1 :=
    ⟨hids, fun _ hp => absurd hp List.not_mem_nil, hroom₀, hwired₀⟩
  obtain ⟨sequences, hlength, hdone⟩ := Loaded.foldl kit timelines hstart
  rw [List.nil_append] at hdone
  have hlength' : sequences.length = (timelines.map imported).length := by
    rw [hlength, List.length_map]
  rw [load, hdone.sequences, List.map_map]
  conv_rhs => rw [← List.map_snd_zip hlength'.ge]
  refine List.map_congr_left fun p hp => ?_
  exact sequenceView_eq hfind (hdone.shows_ p hp)

end Load

end OtioBackend

end Oak.Interchange
