import Oak.Interchange.Save

/-!
# Saving and loading as a task

What `LoadOTIOTask` makes of the timelines that `SaveOTIOTask` writes. The item of a clip has the
place of the clip for its source range, and the task that loads it keeps its length only.

## Main results

* `timelineOf_spec`: the clips that are loaded from the timeline of a sequence.
* `preserved_iff`: a project comes back if and only if its clips all end after one second and play
  from where they begin.
-/

namespace Oak.Interchange

open Oak.Core Oak.Node Oak.Node.Graph Oak.Timeline
open Oak.Otio (Composable)
open LoadOTIOTask (loadedView loaded)

variable {F γ : Type*} {g : MediaGraph F γ} {rate : ℚ} {kind : TrackType}

/-- The clips among some blocks. -/
def clipsOf (blocks : List BlockView) : List BlockView := blocks.filter fun v => v.kind = .clip

variable {id : NodeId}

namespace SaveOTIOTask

/-! ### A block -/

/-- What becomes of a clip that is saved and loaded. -/
def reloaded (v : BlockView) : BlockView :=
  ⟨.clip, 1 - (v.out - v.in_), 1, 1 - (v.out - v.in_), v.file⟩

theorem blockLength_eq {core : BlockCore F} (h : blockCoreOf g id = some core) :
    blockLength g id = core.out - core.in_ := by
  rw [blockLength, h]
  rfl

/-- The range of a block that is loaded with a range of the length of a block. -/
theorem lengthened_atRate (hrate : rate ≠ 0) (start length : Rational) (hlength : 0 < length) :
    LoadOTIOTask.loadedRange.lengthened (some
      (Otio.TimeRange.atRate rate start length).duration.toSeconds) = ⟨1 - length, 1⟩ := by
  have hduration : (Otio.TimeRange.atRate rate start length).duration.toSeconds = length :=
    Otio.TimeRange.duration_atRate hrate start length
  rw [hduration, LoadOTIOTask.loadedRange.lengthened, TimeRange.new_of_le (by linarith)]

theorem sourceRange_serializeClip (g : MediaGraph F γ) (rate : ℚ) (kind : TrackType)
    (id : NodeId) : (serializeClip g rate kind id).sourceRange =
      some (.atRate rate (blockIn g id) (blockLength g id)) := by
  rw [serializeClip]
  split
  · rfl
  · split_ifs
    · rfl
    · rfl

theorem urlOf_serializeClip (g : MediaGraph F γ) (rate : ℚ) (kind : TrackType) (id : NodeId) :
    (LoadOTIOTask.urlOf (.clip (serializeClip g rate kind id))).getD "" =
      fileOf g (findInputFootage g id) := by
  rw [serializeClip, fileOf]
  rcases (findInputFootage g id).bind (footageOf g) with _ | f
  · rfl
  · rw [Option.map_some, Option.getD_some]
    simp only
    split_ifs with hempty
    · exact hempty.symm
    · simp [LoadOTIOTask.urlOf, Composable.asClip, Otio.MediaReference.asExternalReference,
        Otio.ExternalReference.new]

/-- A block is written as an item that the clip is loaded from, without its place. -/
theorem serializeBlock_spec (hrate : rate ≠ 0) {v : BlockView}
    (hv : blockView findInputFootage g id = some v) (hlt : v.in_ < v.out)
    (hkind : v.kind ≠ .transition) :
    ∃ item, serializeBlock g rate kind id = some item ∧
      item.asClip.isSome = decide (v.kind = .clip) ∧
      clipsOf [loadedView item] = (clipsOf [v]).map reloaded := by
  obtain ⟨core, hcore, rfl⟩ := Option.map_eq_some_iff.1 hv
  have hlength : blockLength g id = core.out - core.in_ := blockLength_eq hcore
  rw [blockCoreOf] at hcore
  obtain ⟨b, hb, hcore⟩ := Option.bind_eq_some_iff.1 hcore
  have hrange := lengthened_atRate hrate (blockIn g id) (blockLength g id)
    (by rw [hlength]; exact sub_pos.2 hlt)
  have hgap : (loadedView (.gap (serializeGap g rate id))).kind ≠ .clip := by
    simp [loadedView, LoadOTIOTask.kindOf, Composable.schemaName]
  cases b with
  | clip c =>
    have hblock : blockKind g id = .clip := by rw [blockKind, hb]
    refine ⟨_, by rw [serializeBlock, hb], ?_, ?_⟩
    · simp [hblock, Composable.asClip]
    · have hview : loadedView (.clip (serializeClip g rate kind id)) =
          ⟨.clip, 1 - blockLength g id, 1, 1 - blockLength g id,
            fileOf g (findInputFootage g id)⟩ := by
        rw [loadedView, urlOf_serializeClip, LoadOTIOTask.loadedRange,
          sourceRange_serializeClip, Option.map_some, hrange]
        rfl
      rw [hview]
      simp [clipsOf, hblock, reloaded, hlength]
  | gap c =>
    have hblock : blockKind g id = .gap := by rw [blockKind, hb]
    refine ⟨_, by rw [serializeBlock, hb], ?_, ?_⟩
    · simp [hblock, Composable.asClip]
    · simp [clipsOf, hblock, hgap]
  | transition t =>
    exact absurd (by rw [blockKind, hb]) hkind
  | adjustment a =>
    have hblock : blockKind g id = .other := by rw [blockKind, hb]
    refine ⟨_, by rw [serializeBlock, hb], ?_, ?_⟩
    · simp [hblock, Composable.asClip]
    · simp [clipsOf, hblock, hgap]
  | track t => exact absurd hcore (by simp [Behavior.blockCore])
  | trackList l => exact absurd hcore (by simp [Behavior.blockCore])
  | sequence s => exact absurd hcore (by simp [Behavior.blockCore])
  | folder f => exact absurd hcore (by simp [Behavior.blockCore])
  | other o => exact absurd hcore (by simp [Behavior.blockCore])

/-! ### Tracks and sequences -/

theorem mapM_eq_some_iff_forall₂ {α β : Type*} {f : α → Option β} {l : List α} {l' : List β} :
    l.mapM f = some l' ↔ List.Forall₂ (fun a b => f a = some b) l l' := by
  induction l generalizing l' with
  | nil => simp [eq_comm]
  | cons a l ih =>
    rw [List.mapM_cons, List.forall₂_cons_left_iff]
    rcases hf : f a with _ | b
    · simp
    · rcases hl : l.mapM f with _ | bs
      · simp [← ih, hl]
      · simp [← ih, hl, eq_comm]

/-- What is loaded for the items of a track that is saved. -/
structure Reloads (before after : List BlockView) : Prop where
  clips : clipsOf after = (clipsOf before).map reloaded

/-- The blocks of a track are there, they have lengths, and none is a transition. -/
def WellFormed (g : MediaGraph F γ) (ids : List NodeId) : Prop :=
  ∀ id ∈ ids, ∃ v, blockView findInputFootage g id = some v ∧ v.in_ < v.out ∧
    v.kind ≠ .transition

theorem mapM_serializeBlock (hrate : rate ≠ 0) {ids : List NodeId} (hwf : WellFormed g ids) :
    ∃ items, ids.mapM (serializeBlock g rate kind) = some items ∧
      (items.any fun b => b.asClip.isSome) =
        (ids.filterMap (blockView findInputFootage g)).any (fun v => v.kind = .clip) ∧
      clipsOf (items.map loadedView) =
        (clipsOf (ids.filterMap (blockView findInputFootage g))).map reloaded := by
  induction ids with
  | nil => exact ⟨[], rfl, rfl, rfl⟩
  | cons id ids ih =>
    obtain ⟨v, hv, hlt, hkind⟩ := hwf id List.mem_cons_self
    obtain ⟨item, hitem, hclip, hview⟩ := serializeBlock_spec hrate hv hlt hkind
    obtain ⟨items, hitems, hclips, hviews⟩ := ih fun x hx => hwf x (List.mem_cons_of_mem _ hx)
    refine ⟨item :: items, ?_, ?_, ?_⟩
    · rw [List.mapM_cons, hitem, hitems]
      rfl
    · rw [List.filterMap_cons_some hv, List.any_cons, List.any_cons, hclip, hclips]
    · rw [List.filterMap_cons_some hv, List.map_cons]
      have happend : ∀ (x : BlockView) l, clipsOf (x :: l) = clipsOf [x] ++ clipsOf l := by
        intro x l
        rw [clipsOf, clipsOf, clipsOf, ← List.filter_append, List.singleton_append]
      rw [happend, happend v, hview, hviews, List.map_append]

theorem trailingGap_spec (rate : ℚ) (maxTrackLength : Rational) (items : List (Composable ℚ)) :
    ((trailingGap rate maxTrackLength items).any fun b => b.asClip.isSome) = false ∧
      clipsOf ((trailingGap rate maxTrackLength items).map loadedView) = [] := by
  rw [trailingGap]
  split
  · exact ⟨rfl, rfl⟩
  · split_ifs
    · exact ⟨rfl, rfl⟩
    · exact ⟨rfl, rfl⟩

/-- A track of a kind that is exported. -/
def WellFormedTrack (g : MediaGraph F γ) (kind : TrackType) (track : NodeId) : Prop :=
  ∃ t, trackBehaviorOf g track = some t ∧ t.kind = kind ∧ WellFormed g t.blocks

theorem serializeTrack_spec (hrate : rate ≠ 0) (hkind : kind ≠ .subtitle) (maxTrackLength : Rational)
    {track : NodeId} (hwf : WellFormedTrack g kind track) :
    ∃ t, serializeTrack g rate maxTrackLength track = some t ∧
      LoadOTIOTask.trackType t.kind = some kind ∧
      (t.children.any fun b => b.asClip.isSome) =
        (trackView findInputFootage g track).any (fun v => v.kind = .clip) ∧
      Reloads (trackView findInputFootage g track) (t.children.map loadedView) := by
  obtain ⟨t, ht, rfl, hblocks⟩ := hwf
  obtain ⟨items, hitems, hclips, hviews⟩ := mapM_serializeBlock hrate hblocks
  obtain ⟨hnone, hgap⟩ := trailingGap_spec rate maxTrackLength items
  have hview : trackView findInputFootage g track =
      t.blocks.filterMap (blockView findInputFootage g) := by
    rw [trackView, ht]
    rfl
  obtain ⟨name, hname, htype⟩ : ∃ name, trackKind t.kind = some name ∧
      LoadOTIOTask.trackType name = some t.kind := by
    rcases hk : t.kind with _ | _ | _
    · exact ⟨_, rfl, rfl⟩
    · exact ⟨_, rfl, rfl⟩
    · exact absurd hk hkind
  refine ⟨_, by rw [serializeTrack, ht]; simp only [hname]; rw [hitems]; rfl, htype, ?_, ⟨?_⟩⟩
  · show (items ++ _).any _ = _
    rw [List.any_append, hnone, Bool.or_false, hview, hclips]
  · show clipsOf ((items ++ _).map loadedView) = _
    rw [hview, ← hviews, List.map_append, clipsOf, List.filter_append]
    exact (congrArg (_ ++ ·) hgap).trans (List.append_nil _)

theorem serializeTracks_spec (hrate : rate ≠ 0) (hkind : kind ≠ .subtitle) {tracks : List NodeId}
    (hwf : ∀ track ∈ tracks, WellFormedTrack g kind track) :
    ∃ ts, serializeTracks g rate tracks = some ts ∧
      List.Forall₂ (fun track t => LoadOTIOTask.trackType t.kind = some kind ∧
        (t.children.any fun b => b.asClip.isSome) =
          (trackView findInputFootage g track).any (fun v => v.kind = .clip) ∧
        Reloads (trackView findInputFootage g track) (t.children.map loadedView)) tracks ts := by
  rw [serializeTracks]
  generalize tracks.foldl _ _ = maxTrackLength
  induction tracks with
  | nil => exact ⟨[], rfl, .nil⟩
  | cons track tracks ih =>
    obtain ⟨t, ht, hspec⟩ := serializeTrack_spec hrate hkind maxTrackLength
      (hwf track List.mem_cons_self)
    obtain ⟨ts, hts, hspecs⟩ := ih fun x hx => hwf x (List.mem_cons_of_mem _ hx)
    refine ⟨t :: ts, ?_, .cons hspec hspecs⟩
    rw [List.mapM_cons, ht, hts]
    rfl

theorem any_of_forall₂ {α β : Type*} {f : α → Bool} {f' : β → Bool} {l : List α} {l' : List β}
    (h : List.Forall₂ (fun a b => f' b = f a) l l') : l'.any f' = l.any f := by
  induction h with
  | nil => rfl
  | cons hab _ ih => rw [List.any_cons, List.any_cons, hab, ih]

/-- A sequence whose video and audio tracks are well formed. -/
def Exportable (g : MediaGraph F γ) (seq : NodeId) : Prop :=
  ∀ kind, kind ≠ .subtitle → ∀ track ∈ tracksOf g seq kind, WellFormedTrack g kind track

/-- There is a clip on a video or audio track of a sequence. -/
def Edited (g : MediaGraph F γ) (seq : NodeId) : Prop :=
  ∃ kind, kind ≠ .subtitle ∧ ∃ blocks ∈ sequenceView findInputFootage g seq kind,
    ∃ v ∈ blocks, v.kind = .clip

/-- The clips of a sequence are loaded from its timeline. -/
theorem timelineOf_spec {frameRates : NodeId → List Rational} {seq : NodeId}
    (hwf : Exportable g seq) (hrate : 0 < sequenceRate (frameRates seq)) :
    ∃ timeline, timelineOf frameRates g seq = some timeline ∧
      (hasClip timeline = true ↔ Edited g seq) ∧
      ∀ kind, kind ≠ .subtitle → List.Forall₂ Reloads
        (sequenceView findInputFootage g seq kind) (loaded timeline kind) := by
  obtain ⟨vs, hvs, hvideo⟩ := serializeTracks_spec hrate.ne' (by decide) (hwf .video (by decide))
  obtain ⟨as, has, haudio⟩ := serializeTracks_spec hrate.ne' (by decide) (hwf .audio (by decide))
  have htracks : (timelineWith (nodeLabel g seq) (vs ++ as)).tracks.children.filterMap
      Composable.asTrack = vs ++ as := by
    rw [timelineWith, Otio.Timeline.children_foldl_appendTrack, List.filterMap_append,
      List.filterMap_map]
    exact List.filterMap_some
  have hall : ∀ {k : TrackType} {tracks : List NodeId}
      {ts : List (Otio.Track ℚ (Composable ℚ))} {P Q : NodeId → Otio.Track ℚ (Composable ℚ) → Prop},
      List.Forall₂ (fun track t => LoadOTIOTask.trackType t.kind = some k ∧ P track t ∧
        Q track t) tracks ts → ∀ t ∈ ts, LoadOTIOTask.trackType t.kind = some k := by
    intro k tracks ts P Q h t ht
    induction h with
    | nil => exact absurd ht List.not_mem_nil
    | cons hab _ ih =>
      rcases List.mem_cons.1 ht with rfl | ht
      · exact hab.1
      · exact ih ht
  refine ⟨timelineWith (nodeLabel g seq) (vs ++ as), ?_, ?_, fun kind hkind => ?_⟩
  · rw [timelineOf, if_neg (not_le.2 hrate), hvs, has]
    rfl
  · have hany : hasClip (timelineWith (nodeLabel g seq) (vs ++ as)) =
        (vs ++ as).any fun t => t.children.any fun b => b.asClip.isSome := by
      rw [hasClip, timelineWith, Otio.Timeline.children_foldl_appendTrack]
      show (((vs ++ as).map Composable.track).any _) = _
      rw [List.any_map]
      rfl
    rw [hany, List.any_append, any_of_forall₂ (hvideo.imp fun _ _ h => h.2.1),
      any_of_forall₂ (haudio.imp fun _ _ h => h.2.1), Bool.or_eq_true, List.any_eq_true,
      List.any_eq_true]
    simp only [List.any_eq_true, decide_eq_true_eq]
    constructor
    · rintro (⟨track, htrack, v, hv, hkind⟩ | ⟨track, htrack, v, hv, hkind⟩)
      · exact ⟨.video, by decide, _, List.mem_map_of_mem htrack, v, hv, hkind⟩
      · exact ⟨.audio, by decide, _, List.mem_map_of_mem htrack, v, hv, hkind⟩
    · rintro ⟨kind, hkind, blocks, hblocks, v, hv, hclip⟩
      obtain ⟨track, htrack, rfl⟩ := List.mem_map.1 hblocks
      rcases kind with _ | _ | _
      · exact .inl ⟨track, htrack, v, hv, hclip⟩
      · exact .inr ⟨track, htrack, v, hv, hclip⟩
      · exact absurd rfl hkind
  · rw [loaded, LoadOTIOTask.loadedTracks, htracks, List.filter_append]
    rcases kind with _ | _ | _
    · rw [List.filter_eq_self.2 fun t ht => by simpa using hall hvideo t ht,
        List.filter_eq_nil_iff.2 fun t ht => by simp [hall haudio t ht], List.append_nil,
        sequenceView, List.forall₂_map_left_iff, List.forall₂_map_right_iff]
      exact hvideo.imp fun _ _ h => h.2.2
    · rw [List.filter_eq_nil_iff.2 fun t ht => by simp [hall hvideo t ht],
        List.filter_eq_self.2 fun t ht => by simpa using hall haudio t ht, List.nil_append,
        sequenceView, List.forall₂_map_left_iff, List.forall₂_map_right_iff]
      exact haudio.imp fun _ _ h => h.2.2
    · exact absurd rfl hkind

/-! ### The round trip -/

theorem exists_of_forall₂ {α β : Type*} {R : α → β → Prop} {l : List α} {l' : List β}
    (h : List.Forall₂ R l l') {a : α} (ha : a ∈ l) : ∃ b, R a b := by
  induction h with
  | nil => exact absurd ha List.not_mem_nil
  | cons hab _ ih =>
    rcases List.mem_cons.1 ha with rfl | ha
    · exact ⟨_, hab⟩
    · exact ih ha

theorem exists_forall₂ {α β : Type*} {R : α → β → Prop} {l : List α}
    (h : ∀ a ∈ l, ∃ b, R a b) : ∃ l', List.Forall₂ R l l' := by
  induction l with
  | nil => exact ⟨[], .nil⟩
  | cons a l ih =>
    obtain ⟨b, hb⟩ := h a List.mem_cons_self
    obtain ⟨l', hl'⟩ := ih fun x hx => h x (List.mem_cons_of_mem _ hx)
    exact ⟨b :: l', .cons hb hl'⟩

theorem forall_mem_of_forall₂ {α β : Type*} {P : β → Prop} {l : List α} {l' : List β}
    (h : List.Forall₂ (fun _ b => P b) l l') : ∀ b ∈ l', P b := by
  induction h with
  | nil => simp
  | cons hab _ ih => exact List.forall_mem_cons.2 ⟨hab, ih⟩

theorem forall₂_and_right {α β : Type*} {R : α → β → Prop} {P : β → Prop} {l : List α}
    {l' : List β} (h : List.Forall₂ R l l') (hP : ∀ b ∈ l', P b) :
    List.Forall₂ (fun a b => R a b ∧ P b) l l' := by
  induction h with
  | nil => exact .nil
  | cons hab _ ih =>
    obtain ⟨hb, hP⟩ := List.forall_mem_cons.1 hP
    exact .cons ⟨hab, hb⟩ (ih hP)

section RoundTrip

variable {frameRates : NodeId → List Rational} {root : NodeId}

/-- The projects that come back: the sequences are in the root folder, each has a frame rate and a
clip, and every clip ends after one second and plays from where it begins. -/
structure Keeps (frameRates : NodeId → List Rational) (g : MediaGraph F γ) (root : NodeId) :
    Prop where
  any : sequencesIn g root ≠ []
  all : ∀ seq ∈ sequenceIds g, seq ∈ sequencesIn g root
  rate : ∀ seq ∈ sequencesIn g root, 0 < sequenceRate (frameRates seq)
  edited : ∀ seq ∈ sequencesIn g root, Edited g seq
  clip : ∀ seq ∈ sequencesIn g root, ∀ kind, kind ≠ .subtitle →
    ∀ blocks ∈ sequenceView findInputFootage g seq kind, ∀ v ∈ blocks, v.kind = .clip →
      v.out = 1 ∧ v.mediaIn = v.in_

/-- A clip is reloaded as it is if it ends after one second and plays from where it begins. -/
theorem reloaded_eq_self_iff {v : BlockView} (hv : v.kind = .clip) :
    reloaded v = v ↔ v.out = 1 ∧ v.mediaIn = v.in_ := by
  obtain ⟨kind, in_, out, mediaIn, file⟩ := v
  obtain rfl : kind = .clip := hv
  simp only [reloaded, BlockView.mk.injEq, true_and, and_true]
  constructor
  · rintro ⟨hin, rfl, hmedia⟩
    exact ⟨rfl, by linarith⟩
  · rintro ⟨rfl, rfl⟩
    exact ⟨by ring, rfl, by ring⟩

/-- The clips of a track come back if and only if each of them does. -/
theorem Reloads.clips_eq_iff {before after : List BlockView} (h : Reloads before after) :
    clipsOf after = clipsOf before ↔
      ∀ v ∈ before, v.kind = .clip → v.out = 1 ∧ v.mediaIn = v.in_ := by
  have hself : (clipsOf before).map reloaded = clipsOf before ↔
      ∀ v ∈ clipsOf before, reloaded v = v := by
    conv_lhs => rhs; rw [← List.map_id (clipsOf before)]
    exact List.map_eq_map_iff
  rw [h.clips, hself]
  simp only [clipsOf, List.mem_filter, decide_eq_true_eq, and_imp]
  exact forall₂_congr fun v _ => forall_congr' reloaded_eq_self_iff

/-- The timelines of the sequences, if all can be written. -/
theorem serializeAll_toOption (frameRates : NodeId → List Rational)
    (h : Ready g (2 * (sequencesIn g root).length)) :
    (serializeAll frameRates g (sequencesIn g root)).toOption =
      (sequencesIn g root).mapM (timelineOf frameRates g) := by
  refine serializeAll_eq frameRates (.refl g) h fun seq hseq => ?_
  rw [sequencesIn] at hseq
  split at hseq
  · exact (List.mem_filter.1 hseq).2
  · exact absurd hseq List.not_mem_nil

theorem rate_pos_of_timelineOf {seq : NodeId} {timeline : Otio.Timeline ℚ}
    (h : timelineOf frameRates g seq = some timeline) :
    0 < sequenceRate (frameRates seq) := by
  by_contra hle
  rw [timelineOf, if_pos (not_lt.1 hle)] at h
  exact absurd h (by simp)

theorem run_eq_ok_iff (h : Ready g (2 * (sequencesIn g root).length))
    {timelines : List (Otio.Timeline ℚ)} :
    run frameRates g root = .ok timelines ↔ sequencesIn g root ≠ [] ∧
      ∃ ts, List.Forall₂ (fun seq t => timelineOf frameRates g seq = some t)
        (sequencesIn g root) ts ∧ ts.filter hasClip ≠ [] ∧ timelines = ts.filter hasClip := by
  have hall := serializeAll_toOption frameRates h
  rw [run]
  split_ifs with hempty
  · simp [hempty]
  · rcases hserialize : serializeAll frameRates g (sequencesIn g root) with e | ts <;>
      rw [hserialize] at hall
    · refine ⟨fun h => absurd h (by simp), ?_⟩
      rintro ⟨-, ts, hts, -⟩
      rw [mapM_eq_some_iff_forall₂.2 hts] at hall
      exact absurd hall (by simp [Except.toOption])
    · have hts := mapM_eq_some_iff_forall₂.1 hall.symm
      simp only
      split_ifs with hclips
      · refine ⟨fun h => absurd h (by simp), ?_⟩
        rintro ⟨-, ts', hts', hne, -⟩
        rw [mapM_eq_some_iff_forall₂.2 hts'] at hall
        obtain rfl : ts = ts' := Option.some.inj hall
        exact absurd hclips hne
      · constructor
        · intro h
          obtain rfl := Except.ok.inj h
          exact ⟨hempty, ts, hts, hclips, rfl⟩
        · rintro ⟨-, ts', hts', -, rfl⟩
          rw [mapM_eq_some_iff_forall₂.2 hts'] at hall
          obtain rfl : ts = ts' := Option.some.inj hall
          rfl

variable [ClipSpeed F] [OfNat F 0] [OfNat F 1] [OfNat F 2] [OfNat F 3] [Neg F]

/-- A project is saved and loaded, and each of its sequences has the same clips on the same video
and audio tracks. -/
def Preserved (kit : Kit F γ) (frameRates : NodeId → List Rational) (g : MediaGraph F γ)
    (root : NodeId) : Prop :=
  ∃ timelines, run frameRates g root = .ok timelines ∧
    (∀ seq ∈ sequenceIds g, seq ∈ sequencesIn g root) ∧
    List.Forall₂ (fun seq view => ∀ kind, kind ≠ .subtitle →
        List.Forall₂ (fun before after => clipsOf after = clipsOf before)
          (sequenceView findInputFootage g seq kind) (view kind))
      (sequencesIn g root)
      (projectView findInputFootage (LoadOTIOTask.run kit timelines).1
        (LoadOTIOTask.run kit timelines).2)

theorem Preserved.keeps {kit : Kit F γ} (h : Preserved kit frameRates g root)
    (hready : Ready g (2 * (sequencesIn g root).length))
    (hwf : ∀ seq ∈ sequencesIn g root, Exportable g seq)
    (hroom : ∀ timelines, run frameRates g root = .ok timelines →
      LoadOTIOTask.nodes timelines < u32Size) :
    Keeps frameRates g root := by
  obtain ⟨timelines, hrun, hall, hsame⟩ := h
  rw [LoadOTIOTask.projectView_run kit finds_findInputFootage timelines (hroom _ hrun),
    List.forall₂_map_right_iff] at hsame
  obtain ⟨hany, ts, hts, -, rfl⟩ := (run_eq_ok_iff hready).1 hrun
  -- no timeline was dropped
  have hkeep : ts.filter hasClip = ts := by
    refine List.filter_sublist.eq_of_length ?_
    rw [← hsame.length_eq, hts.length_eq]
  rw [hkeep] at hsame
  have hclip := List.filter_eq_self.1 hkeep
  have hboth : List.Forall₂ (fun seq t => (timelineOf frameRates g seq = some t ∧
      ∀ kind, kind ≠ .subtitle → List.Forall₂ (fun before after =>
        clipsOf after = clipsOf before) (sequenceView findInputFootage g seq kind)
          (loaded t kind)) ∧ hasClip t = true) (sequencesIn g root) ts :=
    forall₂_and_right (hts.mp (fun _ _ h₁ h₂ => ⟨h₁, h₂⟩) hsame) hclip
  have heach := fun seq hseq => exists_of_forall₂ hboth (a := seq) hseq
  have hrate : ∀ seq ∈ sequencesIn g root, 0 < sequenceRate (frameRates seq) :=
    fun seq hseq => rate_pos_of_timelineOf (heach seq hseq).choose_spec.1.1
  refine ⟨hany, hall, hrate, fun seq hseq => ?_, fun seq hseq kind hkind blocks hblocks => ?_⟩
  · obtain ⟨t, ⟨ht, -⟩, hedited⟩ := heach seq hseq
    obtain ⟨t', ht', hiff, -⟩ := timelineOf_spec (hwf seq hseq) (hrate seq hseq)
    obtain rfl : t = t' := Option.some.inj (ht.symm.trans ht')
    exact hiff.1 hedited
  · obtain ⟨t, ⟨ht, hclips⟩, -⟩ := heach seq hseq
    obtain ⟨t', ht', -, hreloads⟩ := timelineOf_spec (hwf seq hseq) (hrate seq hseq)
    obtain rfl : t = t' := Option.some.inj (ht.symm.trans ht')
    obtain ⟨after, hreload, hafter⟩ := exists_of_forall₂ ((hreloads kind hkind).mp
      (fun _ _ h₁ h₂ => And.intro h₁ h₂) (hclips kind hkind)) hblocks
    exact hreload.clips_eq_iff.1 hafter

/-- A project is written with all its clips, which keep their places. -/
theorem Keeps.preserved (h : Keeps frameRates g root) (kit : Kit F γ)
    (hready : Ready g (2 * (sequencesIn g root).length))
    (hwf : ∀ seq ∈ sequencesIn g root, Exportable g seq)
    (hroom : ∀ timelines, run frameRates g root = .ok timelines →
      LoadOTIOTask.nodes timelines < u32Size) :
    Preserved kit frameRates g root := by
  obtain ⟨ts, hts⟩ := exists_forall₂ fun seq hseq =>
    timelineOf_spec (hwf seq hseq) (h.rate seq hseq)
  have hclip : ∀ t ∈ ts, hasClip t = true := forall_mem_of_forall₂
    (((List.forall₂_and_left _ _).2 ⟨h.edited, hts⟩).imp fun _ _ h => h.2.2.1.2 h.1)
  have hkeep : ts.filter hasClip = ts := List.filter_eq_self.2 hclip
  have hne : ts ≠ [] := by
    rintro rfl
    exact h.any (List.forall₂_nil_right_iff.1 hts)
  have hrun : run frameRates g root = .ok ts := (run_eq_ok_iff hready).2
    ⟨h.any, ts, hts.imp fun _ _ h => h.1, by rwa [hkeep], hkeep.symm⟩
  refine ⟨ts, hrun, h.all, ?_⟩
  rw [LoadOTIOTask.projectView_run kit finds_findInputFootage ts (hroom _ hrun),
    List.forall₂_map_right_iff]
  refine ((List.forall₂_and_left _ _).2 ⟨h.clip, hts⟩).imp fun seq t hseq kind hkind => ?_
  obtain ⟨hplace, -, -, hreloads⟩ := hseq
  exact ((List.forall₂_and_left _ _).2 ⟨hplace kind hkind, hreloads kind hkind⟩).imp
    fun _ _ h => h.2.clips_eq_iff.2 h.1

/-- A project comes back if and only if its sequences are in the root folder and have a frame rate
and a clip each, and every clip ends after one second and plays from where it begins. -/
theorem preserved_iff (kit : Kit F γ) (hready : Ready g (2 * (sequencesIn g root).length))
    (hwf : ∀ seq ∈ sequencesIn g root, Exportable g seq)
    (hroom : ∀ timelines, run frameRates g root = .ok timelines →
      LoadOTIOTask.nodes timelines < u32Size) :
    Preserved kit frameRates g root ↔ Keeps frameRates g root :=
  ⟨fun h => h.keeps hready hwf hroom, fun h => h.preserved kit hready hwf hroom⟩

end RoundTrip

/-! ### A project with one clip -/

/-- A sequence with one clip, and no audio. -/
def oneClip (range : TimeRange) (mediaIn : Rational) : MediaGraph ℚ Unit :=
  { (Graph.new : MediaGraph ℚ Unit) with
    entries := [
      .live ⟨.new, .folder ⟨"Root", [⟨1, 0⟩]⟩, 0⟩,
      .live ⟨.new, .sequence ⟨[⟨2, 0⟩]⟩, 0⟩,
      .live ⟨.new, .trackList ⟨.video, [⟨3, 0⟩], some ⟨1, 0⟩, 0⟩, 0⟩,
      .live ⟨.new, .track { newTrackBehavior .video with blocks := [⟨4, 0⟩] }, 0⟩,
      .live ⟨.new, .clip ⟨{ BlockCore.default with range := range, mediaIn := mediaIn },
        some ⟨5, 0⟩⟩, 0⟩,
      .live ⟨.new, .other (.footage (.new "a.mov")), 0⟩] }

section OneClip

variable (range : TimeRange) (mediaIn : Rational)

theorem sequencesIn_oneClip : sequencesIn (oneClip range mediaIn) ⟨0, 0⟩ = [⟨1, 0⟩] := rfl

theorem sequenceView_oneClip (kind : TrackType) :
    sequenceView findInputFootage (oneClip range mediaIn) ⟨1, 0⟩ kind =
      if kind = .video then [[⟨.clip, range.in_, range.out, mediaIn, "a.mov"⟩]] else [] := by
  cases kind <;> rfl

theorem mem_oneClip {entry : NodeEntry ℚ (Behavior ℚ (Media Unit))}
    (h : (oneClip range mediaIn).get id = some entry) :
    entry.core = .new ∧ ∀ c, entry.behavior = .clip c → c.footage = some ⟨5, 0⟩ := by
  have hmem := List.mem_of_getElem? (get_eq_some_iff.1 h).2.1
  simp only [oneClip, List.mem_cons, Slot.live.injEq, List.not_mem_nil, or_false] at hmem
  rcases hmem with rfl | rfl | rfl | rfl | rfl | rfl
  case inr.inr.inr.inr.inl =>
    exact ⟨rfl, fun c hc => by rw [← Behavior.clip.inj hc]⟩
  all_goals exact ⟨rfl, fun c hc => absurd hc (by simp)⟩

theorem ready_oneClip : Ready (oneClip range mediaIn)
    (2 * (sequencesIn (oneClip range mediaIn) ⟨0, 0⟩).length) where
  sound := by
    refine ⟨[], ⟨List.nodup_nil, fun i => ?_⟩, EdgesOk.empty, fun a b hb _ => ?_⟩
    · refine ⟨fun hi => absurd hi List.not_mem_nil, ?_⟩
      rintro ⟨n, hn⟩
      have hmem := List.mem_of_getElem? hn
      simp [shells, oneClip, Slot.shell, Slot.occupant] at hmem
    · rcases hget : (oneClip range mediaIn).get a with _ | entry
      · rw [linksOf_of_stale hget] at hb
        exact absurd hb List.not_mem_nil
      · rw [linksOf_of_get hget, (mem_oneClip range mediaIn hget).1] at hb
        exact absurd hb List.not_mem_nil
  room := by
    show 6 + 2 * 1 < u32Size - 1
    decide
  footage := by
    intro id c f hc hf
    obtain ⟨entry, hentry, hbehavior⟩ := behaviorOf_eq_some_iff.1 hc
    rw [(mem_oneClip range mediaIn hentry).2 c hbehavior] at hf
    obtain rfl := Option.some.inj hf
    rfl

theorem exportable_oneClip (hlt : range.in_ < range.out) :
    ∀ seq ∈ sequencesIn (oneClip range mediaIn) ⟨0, 0⟩,
      Exportable (oneClip range mediaIn) seq := by
  rw [sequencesIn_oneClip]
  intro seq hseq kind hkind track htrack
  obtain rfl := List.mem_singleton.1 hseq
  rcases kind with _ | _ | _
  · obtain rfl : track = ⟨3, 0⟩ := List.mem_singleton.1 htrack
    refine ⟨_, rfl, rfl, fun id hid => ?_⟩
    obtain rfl : id = ⟨4, 0⟩ := List.mem_singleton.1 hid
    exact ⟨_, rfl, hlt, show BlockKind.clip ≠ .transition by decide⟩
  · exact absurd htrack List.not_mem_nil
  · exact absurd rfl hkind

end OneClip

/-- The timelines that are written, in nodes. -/
def nodesOf : Except String (List (Otio.Timeline ℚ)) → ℕ
  | .ok timelines => LoadOTIOTask.nodes timelines
  | .error _ => 0

theorem nodes_lt_of_nodesOf {r : Except String (List (Otio.Timeline ℚ))} (h : nodesOf r = 10) :
    ∀ timelines, r = .ok timelines → LoadOTIOTask.nodes timelines < u32Size := by
  rintro timelines rfl
  rw [show LoadOTIOTask.nodes timelines = 10 from h]
  decide

/-- A clip of one second that begins with the sequence and its source comes back. -/
theorem preserved_oneClip : Preserved plainKit (fun _ => [24]) (oneClip ⟨0, 1⟩ 0) ⟨0, 0⟩ := by
  refine (preserved_iff plainKit (ready_oneClip _ _) (exportable_oneClip _ _ one_pos)
    (nodes_lt_of_nodesOf (by decide +kernel))).2 ?_
  refine ⟨by rw [sequencesIn_oneClip]; simp, fun seq hseq => hseq, fun _ _ => by decide,
    fun seq hseq => ?_, fun seq hseq kind hkind blocks hblocks v hv _ => ?_⟩
  · obtain rfl : seq = ⟨1, 0⟩ := List.mem_singleton.1 hseq
    refine ⟨.video, by decide, ?_⟩
    rw [sequenceView_oneClip, if_pos rfl]
    exact ⟨_, List.mem_singleton.2 rfl, _, List.mem_singleton.2 rfl, rfl⟩
  · obtain rfl : seq = ⟨1, 0⟩ := List.mem_singleton.1 hseq
    rw [sequenceView_oneClip] at hblocks
    split_ifs at hblocks
    · obtain rfl := List.mem_singleton.1 hblocks
      obtain rfl := List.mem_singleton.1 hv
      exact ⟨rfl, rfl⟩
    · exact absurd hblocks List.not_mem_nil

/-- A clip of two seconds comes back a second too early. -/
theorem not_preserved_oneClip :
    ¬Preserved plainKit (fun _ => [24]) (oneClip ⟨0, 2⟩ 0) ⟨0, 0⟩ := by
  intro h
  have hkeeps := h.keeps (ready_oneClip _ _) (exportable_oneClip _ _ two_pos)
    (nodes_lt_of_nodesOf (by decide +kernel))
  have hclip := hkeeps.clip ⟨1, 0⟩ (by rw [sequencesIn_oneClip]; simp) .video (by decide)
  rw [sequenceView_oneClip, if_pos rfl] at hclip
  have hout := (hclip _ (List.mem_singleton.2 rfl) _ (List.mem_singleton.2 rfl) rfl).1
  norm_num at hout

end SaveOTIOTask

end Oak.Interchange
