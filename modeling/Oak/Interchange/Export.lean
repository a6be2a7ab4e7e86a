import Oak.Interchange.Import

/-!
# Saving timelines as a storage backend

`project_to_timelines` of `oak-storage/src/backends/otio.rs`, and the root object that
`save_project` writes and `load` reads. Blocks have positions and the items of a track do not, so a
gap is written where a block begins later than the one before it ends.

The frame rates of the video streams of a sequence are a parameter.

## Main results

* `restores_exportBlocks`: the blocks that are imported from an exported track.
* `roundTrips`: a project that is saved and loaded has the same clips.
-/

namespace Oak.Interchange

open Oak.Core Oak.Node Oak.Node.Graph Oak.Timeline
open Oak.Otio (Composable)

variable {F γ : Type*} {g : MediaGraph F γ} (frameRates : NodeId → List Rational) (file : String)

namespace OtioBackend

/-! ### The code -/

/-- `track_kind_str`. -/
def trackKindStr : TrackType → String
  | .video => "Video"
  | .audio => "Audio"
  | .subtitle => "Subtitle"

/-- `to_file_uri`. -/
def toFileUri (path : String) : String :=
  if "file://".toList.isPrefixOf path.toList then path else "file://" ++ path

/-- `file_base`: the last part of a path, without the extension. -/
def fileBase (path : String) : String :=
  let name := path.toList.reverse.takeWhile fun c => c ≠ '/'
  match name.dropWhile fun c => c ≠ '.' with
  | _ :: c :: base => String.ofList (c :: base).reverse
  | _ => String.ofList name.reverse

/-- `clip_name`. -/
def clipName (g : MediaGraph F γ) (footage : Option NodeId) : String :=
  match footage.bind g.get with
  | none => "Clip"
  | some entry =>
    if entry.core.label ≠ "" then entry.core.label
    else match footage.bind (footageOf g) with
      | some f => fileBase f.filename
      | none => "Clip"

/-- `sequence_fps`, from the frame rates of the video streams. -/
def sequenceFps (frameRates : List Rational) : ℚ :=
  (frameRates.head?.filter fun r => r ≠ 0).getD 24

/-- The media reference of a clip. -/
def mediaRef (g : MediaGraph F γ) (footage : Option NodeId) : Otio.MediaReference ℚ :=
  match footage.bind (footageOf g) with
  | some f => .externalReference (.new (toFileUri f.filename) none)
  | none => .missingReference .new

/-- `classify_block`: the core of a block that is exported. -/
def classifyBlock : Behavior F (Media γ) → Option (BlockCore F)
  | .clip c => some c.core
  | .gap b => some b.core
  | .transition t => some t.core
  | _ => none

/-- The item of a clip. -/
def exportClip (g : MediaGraph F γ) (fps : ℚ) (id : NodeId) (c : ClipBlockBehavior F) :
    Otio.Clip ℚ :=
  let footage := clipFootage g id
  let clip := (Otio.Clip.new (clipName g footage)).setMediaReference (mediaRef g footage)
  { clip with sourceRange := some (.atRate fps c.core.mediaIn c.core.length) }

/-- The items for a block. -/
def exportBlock (g : MediaGraph F γ) (fps : ℚ) (id : NodeId) :
    Behavior F (Media γ) → List (Composable ℚ)
  | .clip c => [.clip (exportClip g fps id c)]
  | .gap b => [.gap (.new (.atRate fps b.core.in_ b.core.length) "Gap")]
  | .transition t =>
    [.transition
      { (Otio.Transition.new "Transition" : Otio.Transition ℚ) with
        inOffset := .fromRational t.inOffset fps
        outOffset := .fromRational t.outOffset fps }]
  | _ => []

/-- A gap before a block, when the timeline position jumped. -/
def holeBefore (fps : ℚ) (pos in_ : Rational) : List (Composable ℚ) :=
  if pos < in_ then [.gap (.new (.atRate fps pos (in_ - pos)) "Gap")] else []

/-- The loop of `export_track`, from a position on. -/
def exportBlocks (g : MediaGraph F γ) (fps : ℚ) : Rational → List NodeId → List (Composable ℚ)
  | _, [] => []
  | pos, id :: ids =>
    match g.behaviorOf id with
    | none => exportBlocks g fps pos ids
    | some b =>
      match classifyBlock b with
      | none => exportBlocks g fps pos ids
      | some core =>
        holeBefore fps pos core.in_ ++ exportBlock g fps id b ++ exportBlocks g fps core.out ids

/-- `export_track`. -/
def exportTrack (g : MediaGraph F γ) (fps : ℚ) (t : TrackBehavior F) :
    Otio.Track ℚ (Composable ℚ) :=
  { (Otio.Track.new (trackKindStr t.kind) : Otio.Track ℚ (Composable ℚ)) with
    children := exportBlocks g fps 0 t.blocks }

/-- The tracks of a sequence, over all its track lists. -/
def tracksIn (g : MediaGraph F γ) (s : SequenceBehavior) : List (TrackBehavior F) :=
  s.trackLists.flatMap fun list =>
    match trackListBehaviorOf g list with
    | none => []
    | some l => l.tracks.filterMap (trackBehaviorOf g)

/-- The timeline of a sequence. -/
def exportSequence (g : MediaGraph F γ) (fps : ℚ) (label : String) (s : SequenceBehavior) :
    Otio.Timeline ℚ :=
  (tracksIn g s).foldl (fun timeline t => timeline.appendTrack (.track (exportTrack g fps t)))
    (.new (if label = "" then "Sequence" else label))

/-- The timeline of a node, if that is a sequence. -/
def timelineOf (g : MediaGraph F γ) (id : NodeId) : Option (Otio.Timeline ℚ) :=
  match g.get id with
  | none => none
  | some entry =>
    match entry.behavior with
    | .sequence s =>
      some (exportSequence g (sequenceFps (frameRates id)) entry.core.label s)
    | _ => none

/-- `project_to_timelines`. -/
def projectToTimelines (g : MediaGraph F γ) : List (Otio.Timeline ℚ) :=
  g.nodeIds.filterMap (timelineOf frameRates g)

/-- The root that `save_project` writes. A project without sequences is an empty timeline. -/
def savedRoot : List (Otio.Timeline ℚ) → Otio.Serializable ℚ
  | [] => .timeline (.new "Timeline")
  | [t] => .timeline t
  | ts => .serializableCollection (.new "oak" (ts.map .timeline))

/-- The timelines that `load` reads from a root. -/
def loadedRoot : Otio.Serializable ℚ → Option (List (Otio.Timeline ℚ))
  | .timeline t => some [t]
  | .serializableCollection c => some (c.children.filterMap Otio.Serializable.asTimeline)
  | .raw _ => none

/-! ### What comes back -/

/-- The file name that is read from the url of a file: what looks like a url is taken for one. -/
def restoredFile : String := fromFileUri (toFileUri file)

theorem restoredFile_of_not_isPrefix {file : String}
    (h : "file://".toList.isPrefixOf file.toList = false) : restoredFile file = file := by
  rw [restoredFile, toFileUri, h, if_neg Bool.false_ne_true, fromFileUri, String.toList_append,
    if_pos (List.isPrefixOf_iff_prefix.2 (List.prefix_append _ _))]
  exact String.ofList_toList

/-- A clip with the file that is read back. -/
def restored (v : BlockView) : BlockView := { v with file := restoredFile v.file }

/-- The blocks `after` are the clips of `before` with the files that are read back, and gaps, one
after the other from a position on. -/
structure Restores (pos : Rational) (before after : List BlockView) : Prop where
  clips : after.filter (fun v => v.kind = .clip) =
    (before.filter fun v => v.kind = .clip).map restored
  gaps : ∀ v ∈ after, v.kind = .clip ∨ v.kind = .gap
  ordered : after.Pairwise fun v w => v.out ≤ w.in_
  from_ : ∀ v ∈ after, pos ≤ v.in_

/-- The blocks of a track: they have lengths and are in order, and none is a transition. -/
structure WellFormed (blocks : List BlockView) : Prop where
  ordered : blocks.Pairwise fun v w => v.out ≤ w.in_
  block : ∀ v ∈ blocks, 0 ≤ v.in_ ∧ v.in_ < v.out ∧ v.kind ≠ .transition

theorem WellFormed.tail {v : BlockView} {vs : List BlockView} (h : WellFormed (v :: vs)) :
    WellFormed vs :=
  ⟨(List.pairwise_cons.1 h.ordered).2, fun w hw => h.block w (List.mem_cons_of_mem _ hw)⟩

namespace Restores

variable {pos pos' : Rational} {before after : List BlockView}

theorem nil (pos : Rational) : Restores pos [] [] :=
  ⟨rfl, by simp, .nil, by simp⟩

theorem skip (h : Restores pos before after) {v : BlockView} (hv : v.kind ≠ .clip) :
    Restores pos (v :: before) after :=
  { h with clips := by rw [h.clips, List.filter_cons_of_neg (by simpa using hv)] }

theorem gap (h : Restores pos before after) (hpos : pos' ≤ pos) :
    Restores pos' before (⟨.gap, pos', pos, 0, ""⟩ :: after) where
  clips := by rw [List.filter_cons_of_neg (by simp), h.clips]
  gaps := List.forall_mem_cons.2 ⟨.inr rfl, h.gaps⟩
  ordered := List.pairwise_cons.2 ⟨h.from_, h.ordered⟩
  from_ := List.forall_mem_cons.2 ⟨le_rfl, fun v hv => hpos.trans (h.from_ v hv)⟩

theorem clip (h : Restores pos before after) (hpos : pos' ≤ pos) (mediaIn : Rational)
    (file : String) :
    Restores pos' (⟨.clip, pos', pos, mediaIn, file⟩ :: before)
      (⟨.clip, pos', pos, mediaIn, restoredFile file⟩ :: after) where
  clips := by
    rw [List.filter_cons_of_pos (by simp), List.filter_cons_of_pos (by simp), h.clips]
    rfl
  gaps := List.forall_mem_cons.2 ⟨.inl rfl, h.gaps⟩
  ordered := List.pairwise_cons.2 ⟨h.from_, h.ordered⟩
  from_ := List.forall_mem_cons.2 ⟨le_rfl, fun v hv => hpos.trans (h.from_ v hv)⟩

end Restores

theorem sequenceFps_ne_zero (frameRates : List Rational) : sequenceFps frameRates ≠ 0 := by
  rcases frameRates with _ | ⟨r, frameRates⟩
  · norm_num [sequenceFps]
  · rw [sequenceFps, List.head?_cons, Option.filter_some]
    split_ifs with h
    · simpa using h
    · norm_num

/-- The file that is written for a clip is read from the url. -/
theorem filenameOf_exportClip (fps : ℚ) (id : NodeId) (c : ClipBlockBehavior F) :
    (filenameOf (exportClip g fps id c)).getD "" = restoredFile (fileOf g (clipFootage g id)) := by
  have hreference : (exportClip g fps id c).mediaReference =
      some (mediaRef g (clipFootage g id)) := Otio.lookup_insertByKey _ _ _
  rw [filenameOf, hreference, Option.bind_some, mediaRef, fileOf]
  rcases (clipFootage g id).bind (footageOf g) with _ | f
  · rfl
  · rfl

section Track

variable {fps : ℚ} (hfps : fps ≠ 0) {pos : Rational} {items : List (Composable ℚ)}
include hfps

/-- The gap before a block brings the position to the block. -/
theorem restores_holeBefore {in_ : Rational} {before : List BlockView} (hpos : pos ≤ in_)
    (h : Restores in_ before (importedBlocks in_ items)) :
    Restores pos before (importedBlocks pos (holeBefore fps pos in_ ++ items)) := by
  rw [holeBefore]
  split_ifs with hlt
  · have hduration := Otio.TimeRange.duration_atRate hfps pos (in_ - pos)
    rw [List.singleton_append, importedBlocks_gap rfl (by rw [hduration]; linarith), hduration,
      add_sub_cancel]
    exact h.gap hpos
  · obtain rfl : pos = in_ := hpos.antisymm (not_lt.1 hlt)
    exact h

theorem importedBlocks_exportBlock_clip {id : NodeId} {c : ClipBlockBehavior F}
    (hlt : c.core.in_ < c.core.out) :
    importedBlocks c.core.in_ (exportBlock g fps id (.clip c) ++ items) =
      ⟨.clip, c.core.in_, c.core.out, c.core.mediaIn,
        restoredFile (fileOf g (clipFootage g id))⟩ :: importedBlocks c.core.out items := by
  have hduration := Otio.TimeRange.duration_atRate hfps c.core.mediaIn c.core.length
  have hstart := Otio.TimeRange.startTime_atRate hfps c.core.mediaIn c.core.length
  have hrange : (exportClip g fps id c).sourceRange =
      some (.atRate fps c.core.mediaIn c.core.length) := rfl
  rw [exportBlock, List.singleton_append, importedBlocks_clip hrange
    (by rw [hduration, BlockCore.length_eq]; linarith), hduration, hstart,
    BlockCore.in_add_length, filenameOf_exportClip]

theorem importedBlocks_exportBlock_gap {id : NodeId} {b : GapBlockBehavior F}
    (hlt : b.core.in_ < b.core.out) :
    importedBlocks b.core.in_ (exportBlock g fps id (.gap b) ++ items) =
      ⟨.gap, b.core.in_, b.core.out, 0, ""⟩ :: importedBlocks b.core.out items := by
  have hduration := Otio.TimeRange.duration_atRate hfps b.core.in_ b.core.length
  rw [exportBlock, List.singleton_append, importedBlocks_gap rfl
    (by rw [hduration, BlockCore.length_eq]; linarith), hduration, BlockCore.in_add_length]

/-- The items of a track bring its clips back. -/
theorem restores_exportBlocks : ∀ (ids : List NodeId) (pos : Rational),
    WellFormed (ids.filterMap (blockView clipFootage g)) →
      (∀ v ∈ ids.filterMap (blockView clipFootage g), pos ≤ v.in_) →
        Restores pos (ids.filterMap (blockView clipFootage g))
          (importedBlocks pos (exportBlocks g fps pos ids))
  | [], pos, _, _ => .nil pos
  | id :: ids, pos, hwf, hpos => by
    rw [exportBlocks]
    rcases hb : g.behaviorOf id with _ | b
    · have hview : blockView clipFootage g id = none := by rw [blockView, blockCoreOf, hb]; rfl
      rw [List.filterMap_cons_none hview] at hwf hpos ⊢
      exact restores_exportBlocks ids pos hwf hpos
    -- what is not exported is not shown, or no clip
    have hskip : classifyBlock b = none → (∀ v, blockView clipFootage g id = some v →
        v.kind ≠ .clip) → Restores pos ((id :: ids).filterMap (blockView clipFootage g))
          (importedBlocks pos (exportBlocks g fps pos ids)) := by
      intro _ hkind
      rcases hview : blockView clipFootage g id with _ | v
      · rw [List.filterMap_cons_none hview] at hwf hpos ⊢
        exact restores_exportBlocks ids pos hwf hpos
      · rw [List.filterMap_cons_some hview] at hwf hpos ⊢
        exact (restores_exportBlocks ids pos hwf.tail (List.forall_mem_cons.1 hpos).2).skip
          (hkind v hview)
    have hviewOf : blockView clipFootage g id = b.blockCore.map fun core =>
        ⟨blockKind g id, core.in_, core.out, core.mediaIn,
          if blockKind g id = .clip then fileOf g (clipFootage g id) else ""⟩ := by
      rw [blockView, blockCoreOf, hb]
      rfl
    -- what is exported comes after the gap before it
    have hnext : ∀ core v, classifyBlock b = some core → blockView clipFootage g id = some v →
        v.in_ = core.in_ → v.out = core.out → (core.in_ < core.out →
          Restores core.out (ids.filterMap (blockView clipFootage g))
              (importedBlocks core.out (exportBlocks g fps core.out ids)) →
            Restores core.in_ (v :: ids.filterMap (blockView clipFootage g))
              (importedBlocks core.in_ (exportBlock g fps id b ++
                exportBlocks g fps core.out ids))) →
        Restores pos ((id :: ids).filterMap (blockView clipFootage g))
          (importedBlocks pos (holeBefore fps pos core.in_ ++ exportBlock g fps id b ++
            exportBlocks g fps core.out ids)) := by
      intro core v _ hview hin hout hblock
      rw [List.filterMap_cons_some hview] at hwf hpos ⊢
      obtain ⟨-, hlt, -⟩ := hwf.block v List.mem_cons_self
      rw [hin, hout] at hlt
      rw [List.append_assoc]
      refine restores_holeBefore hfps (hin ▸ hpos v List.mem_cons_self) (hblock hlt ?_)
      refine restores_exportBlocks ids core.out hwf.tail fun w hw => ?_
      exact hout ▸ (List.pairwise_cons.1 hwf.ordered).1 w hw
    cases b with
    | clip c =>
      have hview : blockView clipFootage g id = some ⟨.clip, c.core.in_, c.core.out,
          c.core.mediaIn, fileOf g (clipFootage g id)⟩ := by
        rw [hviewOf, blockKind, hb]
        rfl
      refine hnext c.core _ rfl hview rfl rfl fun hlt hrest => ?_
      rw [importedBlocks_exportBlock_clip hfps hlt]
      exact hrest.clip hlt.le _ _
    | gap b =>
      have hview : blockView clipFootage g id = some ⟨.gap, b.core.in_, b.core.out,
          b.core.mediaIn, ""⟩ := by
        rw [hviewOf, blockKind, hb]
        rfl
      refine hnext b.core _ rfl hview rfl rfl fun hlt hrest => ?_
      rw [importedBlocks_exportBlock_gap hfps hlt]
      exact (hrest.gap hlt.le).skip (by simp)
    | transition t =>
      have hview : blockView clipFootage g id = some ⟨.transition, t.core.in_, t.core.out,
          t.core.mediaIn, ""⟩ := by
        rw [hviewOf, blockKind, hb]
        rfl
      rw [List.filterMap_cons_some hview] at hwf
      exact absurd rfl (hwf.block _ List.mem_cons_self).2.2
    | adjustment a =>
      refine hskip rfl fun v hv => ?_
      rw [hviewOf, blockKind, hb] at hv
      obtain rfl := Option.some.inj hv
      simp
    | track _ | trackList _ | sequence _ | folder _ | other _ =>
      refine hskip rfl fun v hv => absurd (hviewOf.symm.trans hv) ?_
      simp [Behavior.blockCore]

end Track

/-! ### The tracks of a sequence -/

/-- The track lists of a sequence are at the places of their kinds, and have tracks of their kind. -/
def InPlace (g : MediaGraph F γ) (s : SequenceBehavior) : Prop :=
  ∀ i l list, s.trackLists[i]? = some l → trackListBehaviorOf g l = some list →
    i = base list.kind ∧ ∀ track ∈ list.tracks, ∃ t, trackBehaviorOf g track = some t ∧
      t.kind = list.kind

theorem base_injective : Function.Injective base := by
  intro k k'
  cases k <;> cases k' <;> simp [base]

/-- Of a list of lists, only the one at `i` has elements that pass a filter. -/
theorem filter_flatMap_of_index {α β : Type*} (f : α → List β) (p : β → Bool) :
    ∀ (l : List α) (i : ℕ), (∀ j x, l[j]? = some x → ∀ b ∈ f x, p b = decide (j = i)) →
      (l.flatMap f).filter p = ((l[i]?).map f).getD []
  | [], i, _ => by simp
  | x :: l, i, h => by
    have hx : ∀ b ∈ f x, p b = decide (0 = i) := h 0 x rfl
    rw [List.flatMap_cons, List.filter_append]
    rcases i with _ | i
    · have hrest : (l.flatMap f).filter p = [] := by
        refine List.filter_eq_nil_iff.2 fun b hb => ?_
        obtain ⟨y, hy, hby⟩ := List.mem_flatMap.1 hb
        obtain ⟨j, hj⟩ := List.getElem?_of_mem hy
        simpa using h (j + 1) y hj b hby
      rw [hrest, List.append_nil, List.filter_eq_self.2 fun b hb => by simpa using hx b hb]
      rfl
    · rw [List.filter_eq_nil_iff.2 fun b hb => by simp [hx b hb], List.nil_append,
        List.getElem?_cons_succ]
      refine filter_flatMap_of_index f p l i fun j y hj b hb => ?_
      simpa using h (j + 1) y hj b hb

section

variable {s : SequenceBehavior} {seq : NodeId} (h : InPlace g s)
  (hs : g.behaviorOf seq = some (.sequence s)) (kind : TrackType)

include h hs

theorem filter_tracksIn :
    (tracksIn g s).filter (fun t => t.kind = kind) =
      (tracksOf g seq kind).filterMap (trackBehaviorOf g) := by
  rw [tracksIn, filter_flatMap_of_index _ _ _ (base kind), tracksOf, hs]
  · show _ = (((((s.trackLists[base kind]?).filter NodeId.valid).bind
      (trackListBehaviorOf g)).map TrackListBehavior.tracks).getD []).filterMap _
    rcases s.trackLists[base kind]? with _ | l
    · rfl
    · rcases hl : trackListBehaviorOf g l with _ | list
      · rcases hvalid : l.valid with _ | _ <;> simp [Option.filter_some, hvalid, hl]
      · have hvalid : l.valid = true := by
          refine valid_of_behaviorOf (g := g) (b := .trackList list) ?_
          rw [trackListBehaviorOf] at hl
          split at hl
          · simp_all
          · exact absurd hl (by simp)
        simp [Option.filter_some, hvalid, hl]
  · intro j l hj t ht
    rcases hl : trackListBehaviorOf g l with _ | list <;> simp only [hl] at ht
    · exact absurd ht List.not_mem_nil
    · obtain ⟨hplace, htracks⟩ := h j l list hj hl
      obtain ⟨track, htrack, htb⟩ := List.mem_filterMap.1 ht
      obtain ⟨t', ht', hkind⟩ := htracks track htrack
      obtain rfl : t' = t := by simpa [htb] using ht'.symm
      rw [hkind, hplace]
      exact decide_eq_decide.2 base_injective.eq_iff.symm

theorem tracksOf_of_inPlace :
    ∀ track ∈ tracksOf g seq kind, ∃ t, trackBehaviorOf g track = some t := by
  intro track htrack
  rw [tracksOf, hs] at htrack
  change track ∈ (((listOf s kind).bind (trackListBehaviorOf g)).map
    TrackListBehavior.tracks).getD [] at htrack
  rcases hlist : (listOf s kind).bind (trackListBehaviorOf g) with _ | list <;>
    rw [hlist] at htrack
  · exact absurd htrack List.not_mem_nil
  · obtain ⟨l, hl, hlist⟩ := Option.bind_eq_some_iff.1 hlist
    obtain ⟨t, ht, -⟩ := (h _ l list (Option.filter_eq_some_iff.1 hl).1 hlist).2 track htrack
    exact ⟨t, ht⟩

end

/-- What is seen of tracks is what is seen of their blocks. -/
theorem map_trackView {tracks : List NodeId}
    (h : ∀ track ∈ tracks, ∃ t, trackBehaviorOf g track = some t) :
    tracks.map (trackView clipFootage g) = (tracks.filterMap (trackBehaviorOf g)).map
      fun t => t.blocks.filterMap (blockView clipFootage g) := by
  induction tracks with
  | nil => rfl
  | cons track tracks ih =>
    obtain ⟨t, ht⟩ := h track List.mem_cons_self
    rw [List.map_cons, List.filterMap_cons_some ht, List.map_cons,
      ih fun x hx => h x (List.mem_cons_of_mem _ hx), trackView, ht]
    rfl

theorem trackKindFromStr_trackKindStr (kind : TrackType) :
    trackKindFromStr (trackKindStr kind) = kind := by
  cases kind <;> rfl

/-- The tracks that are imported from an exported sequence. -/
theorem imported_exportSequence (fps : ℚ) (label : String) (s : SequenceBehavior)
    (kind : TrackType) :
    imported (exportSequence g fps label s) kind =
      ((tracksIn g s).filter fun t => t.kind = kind).map
        fun t => importedBlocks 0 (exportBlocks g fps 0 t.blocks) := by
  rw [imported, exportSequence, Otio.Timeline.children_foldl_appendTrack]
  have htracks : (([] : List (Composable ℚ)) ++ (tracksIn g s).map
      fun t => Composable.track (exportTrack g fps t)).filterMap Composable.asTrack =
        (tracksIn g s).map (exportTrack g fps) := by
    rw [List.nil_append, List.filterMap_map]
    exact List.filterMap_eq_map (f := exportTrack g fps) ▸ rfl
  have hkind : (fun t => decide (trackKindFromStr t.kind = kind)) ∘ exportTrack g fps =
      fun t => decide (t.kind = kind) := by
    funext t
    show decide (trackKindFromStr (trackKindStr t.kind) = kind) = _
    rw [trackKindFromStr_trackKindStr]
  show ((([] ++ (tracksIn g s).map _).filterMap Composable.asTrack).filter _).map _ = _
  rw [htracks, List.filter_map, hkind, List.map_map]
  rfl

/-- A sequence whose tracks are well formed. -/
structure Exportable (g : MediaGraph F γ) (seq : NodeId) : Prop where
  inPlace : ∀ s, g.behaviorOf seq = some (.sequence s) → InPlace g s
  wellFormed : ∀ kind, ∀ blocks ∈ sequenceView clipFootage g seq kind, WellFormed blocks

theorem restores_timelineOf {frameRates : NodeId → List Rational} {seq : NodeId}
    {timeline : Otio.Timeline ℚ} (h : Exportable g seq)
    (htimeline : timelineOf frameRates g seq = some timeline) (kind : TrackType) :
    List.Forall₂ (Restores 0) (sequenceView clipFootage g seq kind) (imported timeline kind) := by
  rw [timelineOf] at htimeline
  rcases hget : g.get seq with _ | entry <;> rw [hget] at htimeline
  · exact absurd htimeline (by simp)
  have hbehavior : g.behaviorOf seq = some entry.behavior := by rw [behaviorOf, hget]; rfl
  rcases hentry : entry.behavior with _ | _ | _ | _ | _ | _ | s | _ | _ <;>
    simp only [hentry, reduceCtorEq, Option.some.injEq] at htimeline
  rw [hentry] at hbehavior
  have hplace := h.inPlace s hbehavior
  have htracks := tracksOf_of_inPlace hplace hbehavior kind
  have hview : sequenceView clipFootage g seq kind =
      ((tracksIn g s).filter fun t => t.kind = kind).map
        fun t => t.blocks.filterMap (blockView clipFootage g) := by
    rw [filter_tracksIn hplace hbehavior, ← map_trackView htracks]
    rfl
  have hwf := h.wellFormed kind
  rw [hview] at hwf
  rw [← htimeline, imported_exportSequence, hview, List.forall₂_map_left_iff,
    List.forall₂_map_right_iff, List.forall₂_same]
  intro t ht
  have hblocks := hwf _ (List.mem_map_of_mem ht)
  exact restores_exportBlocks (sequenceFps_ne_zero _) t.blocks 0 hblocks fun v hv =>
    (hblocks.block v hv).1

/-! ### The round trip -/

theorem isSome_timelineOf (g : MediaGraph F γ) (id : NodeId) :
    (timelineOf frameRates g id).isSome = nodeIsSequence g id := by
  rw [timelineOf, nodeIsSequence, behaviorOf]
  rcases g.get id with _ | ⟨core, behavior, generation⟩
  · rfl
  · cases behavior <;> rfl

theorem forall₂_projectToTimelines (g : MediaGraph F γ) :
    List.Forall₂ (fun seq timeline => timelineOf frameRates g seq = some timeline)
      (sequenceIds g) (projectToTimelines frameRates g) := by
  rw [sequenceIds, projectToTimelines]
  induction g.nodeIds with
  | nil => exact .nil
  | cons id ids ih =>
    have hsome := isSome_timelineOf frameRates g id
    rcases htimeline : timelineOf frameRates g id with _ | timeline <;> rw [htimeline] at hsome
    · rw [List.filterMap_cons_none htimeline, List.filter_cons_of_neg (by simp [← hsome])]
      exact ih
    · rw [List.filterMap_cons_some htimeline, List.filter_cons_of_pos hsome.symm]
      exact .cons htimeline ih

theorem loadedRoot_savedRoot {timelines : List (Otio.Timeline ℚ)} (h : timelines ≠ []) :
    loadedRoot (savedRoot timelines) = some timelines := by
  rcases timelines with _ | ⟨t, _ | ⟨t', ts⟩⟩
  · exact absurd rfl h
  · rfl
  · show some (((t :: t' :: ts).map Otio.Serializable.timeline).filterMap
      Otio.Serializable.asTimeline) = _
    rw [List.filterMap_map]
    exact congrArg some List.filterMap_some

/-- The blocks `after` have the clips of `before`, and gaps otherwise, without overlap. -/
structure SameClips (before after : List BlockView) : Prop where
  clips : after.filter (fun v => v.kind = .clip) = before.filter fun v => v.kind = .clip
  gaps : ∀ v ∈ after, v.kind = .clip ∨ v.kind = .gap
  ordered : after.Pairwise fun v w => v.out ≤ w.in_

/-- No file name looks like a url. -/
def PlainFiles (blocks : List BlockView) : Prop :=
  ∀ v ∈ blocks, v.kind = .clip → "file://".toList.isPrefixOf v.file.toList = false

theorem Restores.sameClips {pos : Rational} {before after : List BlockView}
    (h : Restores pos before after) (hplain : PlainFiles before) : SameClips before after := by
  refine ⟨?_, h.gaps, h.ordered⟩
  rw [h.clips]
  conv_rhs => rw [← List.map_id (before.filter _)]
  refine List.map_congr_left fun v hv => ?_
  obtain ⟨hmem, hkind⟩ := List.mem_filter.1 hv
  rw [restored, restoredFile_of_not_isPrefix (hplain v hmem (by simpa using hkind))]
  rfl

section Load

variable [ClipSpeed F] [OfNat F 3] (kit : Kit F γ)

/-- A project is saved and loaded, and each sequence has the same clips on the same tracks. -/
def RoundTrips (frameRates : NodeId → List Rational) (g : MediaGraph F γ) : Prop :=
  ∃ timelines, loadedRoot (savedRoot (projectToTimelines frameRates g)) = some timelines ∧
    List.Forall₂ (fun seq view => ∀ kind, List.Forall₂ SameClips
        (sequenceView clipFootage g seq kind) (view kind))
      (sequenceIds g)
      ((sequenceIds (load kit timelines)).map (sequenceView clipFootage (load kit timelines)))

/-- A project with sequences whose files have no urls for names is saved and loaded. -/
theorem roundTrips (frameRates : NodeId → List Rational) (hne : sequenceIds g ≠ [])
    (hexportable : ∀ seq ∈ sequenceIds g, Exportable g seq)
    (hplain : ∀ seq ∈ sequenceIds g, ∀ kind, ∀ blocks ∈ sequenceView clipFootage g seq kind,
      PlainFiles blocks)
    (hroom : nodes (projectToTimelines frameRates g) < u32Size) :
    RoundTrips kit frameRates g := by
  have htimelines := forall₂_projectToTimelines frameRates g
  have hsome : projectToTimelines frameRates g ≠ [] := by
    intro hnil
    rw [hnil] at htimelines
    exact hne (List.forall₂_nil_right_iff.1 htimelines)
  refine ⟨_, loadedRoot_savedRoot hsome, ?_⟩
  rw [sequencesView_load kit finds_clipFootage _ hroom, List.forall₂_map_right_iff]
  have hboth := (List.forall₂_and_left _ _).2 ⟨fun seq hseq => hseq, htimelines⟩
  refine hboth.imp fun seq timeline h kind => ?_
  obtain ⟨hseq, htimeline⟩ := h
  have hplain' := hplain seq hseq kind
  have hrestores := restores_timelineOf (hexportable seq hseq) htimeline kind
  exact ((List.forall₂_and_left _ _).2 ⟨hplain', hrestores⟩).imp fun _ _ h => h.2.sameClips h.1

end Load

/-! ### A project with one clip -/

/-- A clip two seconds long, after a hole of one second, from a file. -/
def oneClip : MediaGraph ℚ Unit :=
  { (Graph.new : MediaGraph ℚ Unit) with
    entries := [
      .live ⟨.new, .sequence ⟨[⟨1, 0⟩]⟩, 0⟩,
      .live ⟨.new, .trackList ⟨.video, [⟨2, 0⟩], some ⟨0, 0⟩, 0⟩, 0⟩,
      .live ⟨.new, .track { newTrackBehavior .video with blocks := [⟨3, 0⟩] }, 0⟩,
      .live ⟨.new, .clip ⟨{ BlockCore.default with range := ⟨1, 3⟩, mediaIn := 5 },
        some ⟨4, 0⟩⟩, 0⟩,
      .live ⟨.new, .other (.footage (.new file)), 0⟩] }

theorem sequenceIds_oneClip : sequenceIds (oneClip file) = [⟨0, 0⟩] := rfl

theorem sequenceView_oneClip (kind : TrackType) :
    sequenceView clipFootage (oneClip file) ⟨0, 0⟩ kind =
      if kind = .video then [[⟨.clip, 1, 3, 5, file⟩]] else [] := by
  cases kind <;> rfl

theorem exportable_oneClip : Exportable (oneClip file) ⟨0, 0⟩ where
  inPlace := by
    rintro s hs i l list hl hlist
    obtain rfl : (⟨[⟨1, 0⟩]⟩ : SequenceBehavior) = s :=
      Behavior.sequence.inj (Option.some.inj hs)
    obtain ⟨rfl, rfl⟩ : i = 0 ∧ (⟨1, 0⟩ : NodeId) = l := by
      rcases i with _ | i
      · exact ⟨rfl, Option.some.inj hl⟩
      · exact absurd hl (by simp)
    obtain rfl : (⟨.video, [⟨2, 0⟩], some ⟨0, 0⟩, 0⟩ : TrackListBehavior) = list :=
      Option.some.inj hlist
    refine ⟨rfl, fun track htrack => ?_⟩
    obtain rfl := List.mem_singleton.1 htrack
    exact ⟨_, rfl, rfl⟩
  wellFormed := by
    intro kind blocks hblocks
    rw [sequenceView_oneClip] at hblocks
    split_ifs at hblocks
    · obtain rfl := List.mem_singleton.1 hblocks
      exact ⟨by simp, by simp⟩
    · exact absurd hblocks List.not_mem_nil

theorem nodes_oneClip : nodes (projectToTimelines (fun _ => []) (oneClip file)) = 12 := rfl

/-- A clip from a path comes back. -/
theorem roundTrips_oneClip : RoundTrips plainKit (fun _ => []) (oneClip "a.mov") := by
  refine roundTrips plainKit (fun _ => []) (by rw [sequenceIds_oneClip]; simp) ?_ ?_ ?_
  · rw [sequenceIds_oneClip]
    intro seq hseq
    obtain rfl := List.mem_singleton.1 hseq
    exact exportable_oneClip _
  · rw [sequenceIds_oneClip]
    intro seq hseq kind blocks hblocks v hv _
    obtain rfl := List.mem_singleton.1 hseq
    rw [sequenceView_oneClip] at hblocks
    split_ifs at hblocks
    · obtain rfl := List.mem_singleton.1 hblocks
      obtain rfl := List.mem_singleton.1 hv
      decide
    · exact absurd hblocks List.not_mem_nil
  · rw [nodes_oneClip]
    decide

/-- A project without sequences comes back with one, and a clip from a url with another file. -/
theorem not_roundTrips : ¬RoundTrips plainKit (fun _ => []) Graph.new ∧
    ¬RoundTrips plainKit (fun _ => []) (oneClip "file:///a.mov") := by
  constructor
  · rintro ⟨timelines, hts, h⟩
    obtain rfl : [Otio.Timeline.new "Timeline"] = timelines := Option.some.inj hts
    rw [sequencesView_load plainKit finds_clipFootage _ (by decide)] at h
    exact nomatch h
  · rintro ⟨timelines, hts, h⟩
    obtain rfl : projectToTimelines (fun _ => []) (oneClip "file:///a.mov") = timelines :=
      Option.some.inj hts
    have htimelines := forall₂_projectToTimelines (fun _ => []) (oneClip "file:///a.mov")
    rw [sequencesView_load plainKit finds_clipFootage _ (by rw [nodes_oneClip]; decide),
      List.forall₂_map_right_iff] at h
    rw [sequenceIds_oneClip] at h htimelines
    generalize projectToTimelines (fun _ => []) (oneClip "file:///a.mov") = timelines
      at h htimelines
    obtain ⟨timeline, rest, htimeline, -, rfl⟩ := List.forall₂_cons_left_iff.1 htimelines
    obtain ⟨hsame, -⟩ := List.forall₂_cons.1 h
    have hrestores := restores_timelineOf (exportable_oneClip _) htimeline .video
    have hvideo := hsame .video
    rw [sequenceView_oneClip, if_pos rfl] at hvideo hrestores
    obtain ⟨after, rest', hafter, -, heq⟩ := List.forall₂_cons_left_iff.1 hrestores
    rw [heq] at hvideo
    obtain ⟨hclips, -⟩ := List.forall₂_cons.1 hvideo
    have hfile := hafter.clips.symm.trans hclips.clips
    revert hfile
    decide

end OtioBackend

end Oak.Interchange
