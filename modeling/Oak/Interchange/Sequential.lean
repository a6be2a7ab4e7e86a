import Oak.Interchange.Import
import Oak.Interchange.LoadedRun
import Mathlib.Tactic.NormNum

/-!
# Tracks that are laid out one block after the other

A track of a document has no positions: a block begins where the blocks before it end. `Tiles` says
that the blocks on a track are laid out so, `LaidOut` that both importers do it for a track of a
document.

The storage backend adds up positions. The task gives every new block the second from zero to one
and then moves its in point, so that a track is laid out by it only if it is a single block of one
second.

## Main results

* `tiles_importedBlocks`: the storage backend lays out clips and gaps.
* `laidOut_iff`: the tracks that both importers lay out.
-/

namespace Oak.Interchange

open Oak.Core Oak.Node Oak.Node.Graph
open LoadOTIOTask
open Oak.Otio (Composable)
open OtioBackend (trackKindFromStr importedBlocks)
open LoadOTIOTask (loadedView)

/-! ### Blocks one after the other -/

/-- The blocks for some items follow each other from a position on, and their clips play from where
the sources begin. -/
def Tiles (span : Composable ℚ → Rational) :
    Rational → List (Composable ℚ) → List BlockView → Prop
  | _, [], [] => True
  | pos, item :: items, block :: blocks =>
    block.in_ = pos ∧ block.out = pos + span item ∧
      (∀ c range, item = .clip c → c.sourceRange = some range →
        block.mediaIn = range.startTime.toRational) ∧
      Tiles span (pos + span item) items blocks
  | _, _, _ => False

/-- Where a block lies, and what it plays from there. -/
def BlockView.placement (b : BlockView) : Rational × Rational × Rational := (b.in_, b.out, b.mediaIn)

/-- An item is a clip, a gap or not known, and lasts for a positive span: that of its source range
when it is known. -/
def Spans (span : Composable ℚ → Rational) (item : Composable ℚ) : Prop :=
  0 < span item ∧
    match item with
    | .clip c => ∃ range, c.sourceRange = some range ∧ span item = range.duration.toRational
    | .gap b => ∃ range, b.sourceRange = some range ∧ span item = range.duration.toRational
    | .transition _ => False
    | _ => True

/-- The item is a clip or a gap. -/
def Known (item : Composable ℚ) : Prop := (∃ c, item = .clip c) ∨ ∃ b, item = .gap b

variable {span : Composable ℚ → Rational} {items : List (Composable ℚ)} {item : Composable ℚ}
  {pos : Rational}

/-- The storage backend lays out clips and gaps. -/
theorem tiles_importedBlocks : ∀ {items : List (Composable ℚ)} {pos : Rational},
    (∀ item ∈ items, Spans span item) → (∀ item ∈ items, Known item) →
      Tiles span pos items (importedBlocks pos items)
  | [], _, _, _ => trivial
  | item :: items, pos, hspans, hknown => by
    obtain ⟨hpos, hsource⟩ := hspans item List.mem_cons_self
    have hrest : Tiles span (pos + span item) items (importedBlocks (pos + span item) items) :=
      tiles_importedBlocks (fun i hi => hspans i (List.mem_cons_of_mem _ hi))
        fun i hi => hknown i (List.mem_cons_of_mem _ hi)
    have hle : pos ≤ pos + span item := le_add_of_nonneg_right hpos.le
    rcases hknown item List.mem_cons_self with ⟨c, rfl⟩ | ⟨b, rfl⟩
    · obtain ⟨range, hrange, hspan⟩ := hsource
      rw [importedBlocks, OtioBackend.lengthOf_eq hrange hspan hpos, TimeRange.new_of_le hle]
      refine ⟨rfl, rfl, fun c' range' hc hrange' => ?_, hrest⟩
      obtain rfl : c = c' := by simpa using hc
      rw [hrange', Option.map_some, Option.getD_some]
    · obtain ⟨range, hrange, hspan⟩ := hsource
      rw [importedBlocks, OtioBackend.lengthOf_eq hrange hspan hpos, TimeRange.new_of_le hle]
      exact ⟨rfl, rfl, fun c' range' hc _ => absurd hc (by simp), hrest⟩

theorem Tiles.congr : ∀ {items : List (Composable ℚ)} {pos : Rational}
    {blocks blocks' : List BlockView},
    Tiles span pos items blocks → blocks'.map BlockView.placement = blocks.map BlockView.placement →
      Tiles span pos items blocks'
  | [], _, [], blocks', h, heq => by
    obtain rfl : blocks' = [] := by simpa using heq
    exact h
  | [], _, _ :: _, _, h, _ => h.elim
  | _ :: _, _, [], _, h, _ => h.elim
  | item :: items, pos, block :: blocks, [], _, heq => by simp at heq
  | item :: items, pos, block :: blocks, block' :: blocks', ⟨hin, hout, hmedia, hrest⟩, heq => by
    obtain ⟨hblock, hblocks⟩ : block'.placement = block.placement ∧ _ := by simpa using heq
    obtain ⟨hin', hout', hmedia'⟩ : block'.in_ = block.in_ ∧ block'.out = block.out ∧
        block'.mediaIn = block.mediaIn := by simpa [BlockView.placement] using hblock
    exact ⟨hin'.trans hin, hout'.trans hout, fun c range hc hrange =>
      hmedia'.trans (hmedia c range hc hrange), hrest.congr hblocks⟩

/-! ### What the task makes of an item -/

theorem lengthened_of_pos {d : Rational} (hd : 0 < d) :
    loadedRange.lengthened (some d) = ⟨1 - d, 1⟩ :=
  TimeRange.new_of_le (by linarith)

variable {range : Otio.TimeRange ℚ}

theorem loadedRange_clip {c : Otio.Clip ℚ} (hrange : c.sourceRange = some range)
    (hpos : 0 < range.duration.toRational) :
    loadedRange (.clip c) = ⟨1 - range.duration.toRational, 1⟩ := by
  rw [loadedRange, hrange]
  exact lengthened_of_pos hpos

theorem loadedRange_gap {b : Otio.Gap ℚ} (hrange : b.sourceRange = some range)
    (hpos : 0 < range.duration.toRational) :
    loadedRange (.gap b) = ⟨1 - range.duration.toRational, 1⟩ := by
  rw [loadedRange, hrange]
  exact lengthened_of_pos hpos

theorem out_loadedView (h : Spans span item) : (loadedView item).out = 1 := by
  obtain ⟨hpos, hsource⟩ := h
  have hunknown : (TimeRange.new 0 1).out = 1 := by rw [TimeRange.new_of_le zero_le_one]
  cases item with
  | clip c =>
    obtain ⟨range, hrange, hspan⟩ := hsource
    rw [loadedView, loadedRange_clip hrange (hspan ▸ hpos)]
  | gap b =>
    obtain ⟨range, hrange, hspan⟩ := hsource
    rw [loadedView, loadedRange_gap hrange (hspan ▸ hpos)]
  | transition t => exact hsource.elim
  | track t => exact hunknown
  | stack s => exact hunknown
  | raw v => exact hunknown

theorem mediaIn_loadedView (item : Composable ℚ) :
    (loadedView item).mediaIn = (loadedView item).in_ := rfl

/-- One block of one second, of which a clip plays its source from the start, or none. -/
inductive AtMostOne : List (Composable ℚ) → Prop
  | none : AtMostOne []
  | clip {c : Otio.Clip ℚ} {range : Otio.TimeRange ℚ} (hrange : c.sourceRange = some range)
    (hstart : range.startTime.toRational = 0) (hduration : range.duration.toRational = 1) :
    AtMostOne [.clip c]
  | gap {b : Otio.Gap ℚ} {range : Otio.TimeRange ℚ} (hrange : b.sourceRange = some range)
    (hduration : range.duration.toRational = 1) : AtMostOne [.gap b]

theorem tiles_loadedView_iff (hspans : ∀ item ∈ items, Spans span item) :
    (Tiles span 0 items (items.map loadedView) ∧
      (importedBlocks 0 items).map BlockView.placement =
        (items.map loadedView).map BlockView.placement) ↔ AtMostOne items := by
  constructor
  · rintro ⟨htiles, heq⟩
    rcases items with _ | ⟨first, _ | ⟨second, rest⟩⟩
    · exact .none
    · -- a single block has to begin at zero
      obtain ⟨hin, hout, hmedia, -⟩ := htiles
      have hone := out_loadedView (hspans first List.mem_cons_self)
      obtain ⟨hpos, hsource⟩ := hspans first List.mem_cons_self
      have hspan : span first = 1 := by linarith
      cases first with
      | clip c =>
        obtain ⟨range, hrange, hd⟩ := hsource
        refine .clip hrange ?_ (hd.symm.trans hspan)
        rw [← hmedia c range rfl hrange, mediaIn_loadedView, hin]
      | gap b =>
        obtain ⟨range, hrange, hd⟩ := hsource
        exact .gap hrange (hd.symm.trans hspan)
      | transition t => exact hsource.elim
      | track t => simp [importedBlocks] at heq
      | stack s => simp [importedBlocks] at heq
      | raw v => simp [importedBlocks] at heq
    · -- the second block ends where it begins
      obtain ⟨-, hout, -, -, hout', -, -⟩ := htiles
      have hone := out_loadedView (hspans first List.mem_cons_self)
      have hspans' := hspans second (by simp)
      have hone' := out_loadedView hspans'
      linarith [hspans'.1]
  · intro h
    obtain ⟨hknown, heq⟩ : (∀ item ∈ items, Known item) ∧
        (importedBlocks 0 items).map BlockView.placement =
          (items.map loadedView).map BlockView.placement := by
      rcases h with _ | @⟨c, range, hrange, hstart, hduration⟩ | @⟨b, range, hrange, hduration⟩
      · exact ⟨by simp, rfl⟩
      · refine ⟨by simp [Known], ?_⟩
        rw [importedBlocks, OtioBackend.lengthOf_eq hrange hduration.symm one_pos, zero_add,
          TimeRange.new_of_le zero_le_one, hrange, Option.map_some, hstart, List.map_singleton,
          loadedView, loadedRange_clip hrange (hduration ▸ one_pos), hduration, sub_self]
        rfl
      · refine ⟨by simp [Known], ?_⟩
        rw [importedBlocks, OtioBackend.lengthOf_eq hrange hduration.symm one_pos, zero_add,
          TimeRange.new_of_le zero_le_one, List.map_singleton,
          loadedView, loadedRange_gap hrange (hduration ▸ one_pos), hduration, sub_self]
        rfl
    exact ⟨(tiles_importedBlocks hspans hknown).congr heq.symm, heq⟩

/-! ### A track of a document -/

/-- The tracks of a kind among the items of a timeline. -/
def ofKind (kind : TrackType) (items : List (Composable ℚ)) : List (Otio.Track ℚ (Composable ℚ)) :=
  (items.filterMap Composable.asTrack).filter fun t => trackKindFromStr t.kind = kind

/-- The blocks that a project shows for the `j`-th item of the `i`-th timeline, which is a track:
its sequence is the `i`-th one, and it comes after the tracks of its kind before it. -/
def trackAt (views : List SequenceView) (timeline : Otio.Timeline ℚ) (i j : ℕ) (kind : TrackType) :
    Option (List BlockView) :=
  views[i]?.bind fun view => (view kind)[(ofKind kind (timeline.tracks.children.take j)).length]?

theorem getElem?_ofKind {items : List (Composable ℚ)} {j : ℕ}
    {t : Otio.Track ℚ (Composable ℚ)} (h : items[j]? = some (.track t)) :
    (ofKind (trackKindFromStr t.kind) items)[
      (ofKind (trackKindFromStr t.kind) (items.take j)).length]? = some t := by
  obtain ⟨hj, hget⟩ := List.getElem?_eq_some_iff.1 h
  have hsplit : ofKind (trackKindFromStr t.kind) items =
      ofKind (trackKindFromStr t.kind) (items.take j) ++
        t :: ofKind (trackKindFromStr t.kind) (items.drop (j + 1)) := by
    conv_lhs => rw [← List.take_append_drop j items, List.drop_eq_getElem_cons hj, hget]
    rw [ofKind, List.filterMap_append, List.filter_append]
    congr 1
    exact List.filter_cons_of_pos (by simp)
  rw [hsplit, List.getElem?_append_right le_rfl, Nat.sub_self]
  rfl

theorem imported_eq (timeline : Otio.Timeline ℚ) (kind : TrackType) :
    OtioBackend.imported timeline kind =
      (ofKind kind timeline.tracks.children).map fun t => importedBlocks 0 t.children := rfl

theorem loaded_eq (timeline : Otio.Timeline ℚ) {kind : TrackType} (hkind : kind ≠ .subtitle) :
    loaded timeline kind =
      (ofKind kind timeline.tracks.children).map fun t => t.children.map loadedView := by
  rw [loaded, loadedTracks, ofKind]
  congr 1
  refine List.filter_congr fun t _ => ?_
  rw [trackType, trackKindFromStr]
  split_ifs <;> simp [hkind.symm]

theorem loaded_subtitle (timeline : Otio.Timeline ℚ) :
    loaded timeline .subtitle = [] := by
  rw [loaded, loadedTracks, List.filter_eq_nil_iff.2, List.map_nil]
  intro t _
  rw [trackType]
  split_ifs <;> simp

theorem trackKindFromStr_ne_subtitle_iff {kind : String} :
    trackKindFromStr kind ≠ .subtitle ↔ kind = "Video" ∨ kind = "Audio" := by
  rw [trackKindFromStr]
  split_ifs with hvideo haudio
  · simp [hvideo]
  · simp [haudio]
  · simp [hvideo, haudio]

section Document

variable {F γ : Type*} [ClipSpeed F] [OfNat F 0] [OfNat F 1] [OfNat F 2] [OfNat F 3] [Neg F]
  (kit kit' : Kit F γ) {timelines : List (Otio.Timeline ℚ)} {timeline : Otio.Timeline ℚ}
  {i j : ℕ} {t : Otio.Track ℚ (Composable ℚ)}

/-- The task makes a track whose blocks follow each other, and the storage backend one whose blocks
have the same places. -/
def LaidOut (span : Composable ℚ → Rational) (timelines : List (Otio.Timeline ℚ))
    (timeline : Otio.Timeline ℚ) (i j : ℕ) (t : Otio.Track ℚ (Composable ℚ)) : Prop :=
  ∃ blocks blocks',
    trackAt (projectView findInputFootage (run kit timelines).1
      (run kit timelines).2) timeline i j (trackKindFromStr t.kind) = some blocks ∧
    trackAt ((sequenceIds (OtioBackend.load kit' timelines)).map
      (sequenceView clipFootage (OtioBackend.load kit' timelines))) timeline i j
        (trackKindFromStr t.kind) = some blocks' ∧
    Tiles span 0 t.children blocks ∧
    blocks'.map BlockView.placement = blocks.map BlockView.placement

variable {kit kit'}

theorem laidOut_def (hroom : nodes timelines < u32Size)
    (hroom' : OtioBackend.nodes timelines < u32Size) (htimeline : timelines[i]? = some timeline)
    (ht : timeline.tracks.children[j]? = some (.track t)) :
    LaidOut kit kit' span timelines timeline i j t ↔
      (t.kind = "Video" ∨ t.kind = "Audio") ∧ Tiles span 0 t.children (t.children.map loadedView) ∧
        (importedBlocks 0 t.children).map BlockView.placement =
          (t.children.map loadedView).map BlockView.placement := by
  have hplace := getElem?_ofKind ht
  rw [LaidOut, projectView_run kit finds_findInputFootage timelines hroom,
    OtioBackend.sequencesView_load kit' finds_clipFootage timelines hroom', trackAt, trackAt,
    List.getElem?_map, htimeline, List.getElem?_map, htimeline, Option.map_some, Option.bind_some,
    Option.map_some, Option.bind_some, imported_eq, List.getElem?_map, hplace, Option.map_some,
    ← trackKindFromStr_ne_subtitle_iff]
  by_cases hkind : trackKindFromStr t.kind = .subtitle
  · simp [hkind, loaded_subtitle]
  · rw [loaded_eq timeline hkind, List.getElem?_map, hplace, Option.map_some]
    simp [hkind]

/-- A track is laid out by both importers if and only if it is a video or audio track of at most one
block, which lasts for a second and plays its source from the start. -/
theorem laidOut_iff (hroom : LoadOTIOTask.nodes timelines < u32Size)
    (hroom' : OtioBackend.nodes timelines < u32Size) (htimeline : timelines[i]? = some timeline)
    (ht : timeline.tracks.children[j]? = some (.track t))
    (hspans : ∀ item ∈ t.children, Spans span item) :
    LaidOut kit kit' span timelines timeline i j t ↔
      (t.kind = "Video" ∨ t.kind = "Audio") ∧ AtMostOne t.children := by
  rw [laidOut_def hroom hroom' htimeline ht, tiles_loadedView_iff hspans]

end Document

/-! ### One clip and two -/

/-- A clip of the first second of its source. -/
def secondClip : Composable ℚ :=
  .clip { Otio.Clip.new "" with sourceRange := some (.new (.new 0 1) (.new 1 1)) }

variable (children : List (Composable ℚ))

/-- A video track. -/
def videoTrack : Otio.Track ℚ (Composable ℚ) :=
  { (Otio.Track.new "Video" : Otio.Track ℚ (Composable ℚ)) with children := children }

/-- A timeline of one video track. -/
def videoTimeline : Otio.Timeline ℚ :=
  (Otio.Timeline.new "").appendTrack (.track (videoTrack children))

theorem spans_secondClip : Spans (fun _ => 1) secondClip := by
  refine ⟨one_pos, _, rfl, ?_⟩
  norm_num [Otio.TimeRange.new, Otio.RationalTime.toRational, Otio.RationalTime.toSeconds,
    Otio.RationalTime.new]

theorem nodes_videoTimeline_lt {children : List (Composable ℚ)} (h : children.length ≤ 2) :
    nodes [videoTimeline children] < u32Size ∧
      OtioBackend.nodes [videoTimeline children] < u32Size := by
  simp only [nodes, tracksNodes, trackNodes,
    OtioBackend.nodes, OtioBackend.timelineNodes, OtioBackend.trackNodes, videoTimeline,
    Otio.Timeline.appendTrack, Otio.Timeline.new, Otio.Stack.default, Composable.asTrack,
    videoTrack, u32Size, List.map_cons, List.map_nil, List.sum_cons, List.sum_nil,
    List.length_singleton, List.nil_append]
  omega

/-- A single clip is laid out. -/
theorem laidOut_one : LaidOut plainKit plainKit (fun _ => 1) [videoTimeline [secondClip]]
    (videoTimeline [secondClip]) 0 0 (videoTrack [secondClip]) := by
  refine (laidOut_iff (nodes_videoTimeline_lt (by decide)).1
    (nodes_videoTimeline_lt (by decide)).2 rfl rfl fun item hitem => ?_).2 ⟨.inl rfl, ?_⟩
  · obtain rfl := List.mem_singleton.1 hitem
    exact spans_secondClip
  · refine .clip rfl ?_ ?_
    · norm_num [Otio.TimeRange.new, Otio.RationalTime.toRational, Otio.RationalTime.toSeconds,
        Otio.RationalTime.new]
    · norm_num [Otio.TimeRange.new, Otio.RationalTime.toRational, Otio.RationalTime.toSeconds,
        Otio.RationalTime.new]

/-- Two clips lie on each other. -/
theorem not_laidOut_two : ¬LaidOut plainKit plainKit (fun _ => 1)
    [videoTimeline [secondClip, secondClip]] (videoTimeline [secondClip, secondClip]) 0 0
      (videoTrack [secondClip, secondClip]) := by
  rw [laidOut_def (nodes_videoTimeline_lt le_rfl).1 (nodes_videoTimeline_lt le_rfl).2 rfl rfl]
  rintro ⟨-, ⟨-, hout, -, -, hout', -, -⟩, -⟩
  have hone := out_loadedView spans_secondClip
  linarith

end Oak.Interchange
