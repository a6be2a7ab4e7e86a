import Oak.Interchange.LoadedRun
import Oak.Node.Invariant
import Mathlib.Data.Rat.Floor

/-!
# Saving timelines as a task

`SaveOTIOTask` of `oak-task/src/project/saveotio.rs`. The items of a track are written one for each
block, with the place of the block on the timeline for a source range.

The frame rates of the video streams of a sequence are a parameter. Seconds are exact.

## Main results

* `serializeAll_eq`: a track list that is made while a project is saved changes nothing.
-/

namespace Oak.Interchange

open Oak.Core Oak.Node Oak.Node.Graph Oak.Timeline
open Oak.Otio (Composable)

variable {F γ : Type*} {g g' g'' : MediaGraph F γ} (frameRates : NodeId → List Rational)

namespace SaveOTIOTask

/-! ### The code -/

/-- `f64::round`: halves are rounded away from zero. -/
def round (x : ℚ) : ℤ := if x < 0 then -⌊-x + 1 / 2⌋ else ⌊x + 1 / 2⌋

/-- `node_label`. -/
def nodeLabel (g : MediaGraph F γ) (node : NodeId) : String :=
  ((g.get node).map fun entry => entry.core.label).getD ""

/-- The range of the whole media, in the time base of the media. -/
def availableRange (rate : ℚ) (kind : TrackType) (f : FootageBehavior) : Otio.TimeRange ℚ :=
  let base : ℚ := if kind = .video then (f.frameRate.filter fun r => 0 < r).getD rate
    else ((f.sampleRate.getD 48000 : ℤ) : ℚ)
  .new (.new 0 base) (.new (round (f.videoLength * base)) base)

/-- The item of a clip. -/
def serializeClip (g : MediaGraph F γ) (rate : ℚ) (kind : TrackType) (block : NodeId) :
    Otio.Clip ℚ :=
  let clip : Otio.Clip ℚ :=
    { Otio.Clip.new (nodeLabel g block) with
      sourceRange := some (.atRate rate (blockIn g block) (blockLength g block)) }
  match (findInputFootage g block).bind (footageOf g) with
  | none => clip
  | some f =>
    if f.filename = "" then clip
    else clip.setMediaReference
      (.externalReference (.new f.filename (some (availableRange rate kind f))))

/-- The item of a gap. -/
def serializeGap (g : MediaGraph F γ) (rate : ℚ) (block : NodeId) : Otio.Gap ℚ :=
  .new (.atRate rate (blockIn g block) (blockLength g block)) (nodeLabel g block)

/-- The item of a transition. -/
def serializeTransition (g : MediaGraph F γ) (block : NodeId) (t : TransitionBlockBehavior F) :
    Otio.Transition ℚ :=
  { (Otio.Transition.new (nodeLabel g block) : Otio.Transition ℚ) with
    inOffset := .fromRational t.inOffset 24
    outOffset := .fromRational t.outOffset 24 }

/-- The item of a block. An adjustment layer becomes a gap. -/
def serializeBlock (g : MediaGraph F γ) (rate : ℚ) (kind : TrackType) (block : NodeId) :
    Option (Composable ℚ) :=
  match g.behaviorOf block with
  | some (.clip _) => some (.clip (serializeClip g rate kind block))
  | some (.gap _) => some (.gap (serializeGap g rate block))
  | some (.transition t) => some (.transition (serializeTransition g block t))
  | some (.adjustment _) => some (.gap (serializeGap g rate block))
  | _ => none

/-- The time that an item takes. -/
def itemDuration (item : Composable ℚ) : Otio.RationalTime ℚ :=
  (item.sourceRange.map fun r => r.duration).getD (.new 0 1)

/-- `track_duration`. Without items that is the invalid time, which is less than no other. -/
def trackDuration (items : List (Composable ℚ)) : Option (Otio.RationalTime ℚ) :=
  items.foldl (fun acc item => match acc with
    | none => some (itemDuration item)
    | some a => some (.new (a.value + ((itemDuration item).rescaledTo a.rate).value) a.rate)) none

/-- A gap that fills a track up to the length of the longest one. -/
def trailingGap (rate : ℚ) (maxTrackLength : Rational) (items : List (Composable ℚ)) :
    List (Composable ℚ) :=
  match trackDuration items with
  | none => []
  | some duration =>
    if duration.toSeconds < maxTrackLength then
      [.gap (.new (.new (.new 0 rate)
        (.new (round ((maxTrackLength - duration.toSeconds) * rate)) rate)) "")]
    else []

/-- The kind of a track that is written. -/
def trackKind : TrackType → Option String
  | .video => some "Video"
  | .audio => some "Audio"
  | .subtitle => none

/-- `serialize_track`. -/
def serializeTrack (g : MediaGraph F γ) (rate : ℚ) (maxTrackLength : Rational) (track : NodeId) :
    Option (Otio.Track ℚ (Composable ℚ)) :=
  match trackBehaviorOf g track with
  | none => none
  | some t =>
    match trackKind t.kind with
    | none => none
    | some kind =>
      (t.blocks.mapM (serializeBlock g rate t.kind)).map fun items =>
        { (Otio.Track.new kind : Otio.Track ℚ (Composable ℚ)) with
          children := items ++ trailingGap rate maxTrackLength items }

/-- `serialize_track_list`, over the tracks of the list. -/
def serializeTracks (g : MediaGraph F γ) (rate : ℚ) (tracks : List NodeId) :
    Option (List (Otio.Track ℚ (Composable ℚ))) :=
  let maxTrackLength := tracks.foldl (fun longest track =>
    if longest < trackLength g track then trackLength g track else longest) (-2147483647)
  tracks.mapM (serializeTrack g rate maxTrackLength)

/-- The track list of a kind, which is made on first use. -/
def trackListFor (g : MediaGraph F γ) (sequence : NodeId) (kind : TrackType) :
    MediaGraph F γ × Option NodeId :=
  match sequenceTrackList g sequence kind with
  | none => (g, none)
  | some (g, list) => (g, some list)

/-- The tracks of a track list. -/
def tracksOfList (g : MediaGraph F γ) (list : Option NodeId) : List NodeId :=
  ((list.bind (trackListBehaviorOf g)).map TrackListBehavior.tracks).getD []

/-- The timeline of a sequence with its tracks. -/
def timelineWith (label : String) (tracks : List (Otio.Track ℚ (Composable ℚ))) :
    Otio.Timeline ℚ :=
  tracks.foldl (fun timeline t => timeline.appendTrack (.track t)) (.new label)

/-- The rate of a sequence, from the frame rates of its video streams. -/
def sequenceRate (frameRates : List Rational) : ℚ := frameRates.head?.getD 0

/-- `serialize_timeline`. -/
def serializeTimeline (frameRates : List Rational) (g : MediaGraph F γ) (sequence : NodeId) :
    MediaGraph F γ × Option (Otio.Timeline ℚ) :=
  let label := nodeLabel g sequence
  let rate := sequenceRate frameRates
  if rate ≤ 0 then (g, none)
  else
    let (g, videoList) := trackListFor g sequence .video
    let (g, audioList) := trackListFor g sequence .audio
    (g, (serializeTracks g rate (tracksOfList g videoList)).bind fun video =>
      (serializeTracks g rate (tracksOfList g audioList)).map fun audio =>
        timelineWith label (video ++ audio))

/-- All sequences, up to the first that fails. -/
def serializeAll (frameRates : NodeId → List Rational) :
    MediaGraph F γ → List NodeId → Except String (List (Otio.Timeline ℚ))
  | _, [] => .ok []
  | g, sequence :: sequences =>
    match serializeTimeline (frameRates sequence) g sequence with
    | (g, none) => .error ("Failed to serialize sequence \"" ++ nodeLabel g sequence ++ "\"")
    | (g, some timeline) => (serializeAll frameRates g sequences).map fun ts => timeline :: ts

/-- Whether a timeline has a clip. -/
def hasClip (timeline : Otio.Timeline ℚ) : Bool :=
  timeline.tracks.children.any fun child =>
    (child.asTrack.map fun t => t.children.any fun b => b.asClip.isSome).getD false

/-- `run`: the timelines that are written. -/
def run (g : MediaGraph F γ) (root : NodeId) : Except String (List (Otio.Timeline ℚ)) :=
  if sequencesIn g root = [] then .error "Project contains no sequences to export."
  else
    match serializeAll frameRates g (sequencesIn g root) with
    | .error e => .error e
    | .ok timelines =>
      if timelines.filter hasClip = [] then
        .error "Project contains no edited sequences to export."
      else .ok (timelines.filter hasClip)

/-! ### Track lists that are made on the way -/

/-- What a save sees nothing of: a sequence, and a track list without tracks. -/
def Neutral (b : Option (Behavior F (Media γ))) : Prop :=
  b = none ∨ (∃ s, b = some (.sequence s)) ∨ ∃ l, b = some (.trackList l) ∧ l.tracks = []

/-- Two graphs of which the same is saved. -/
structure Alike (g g' : MediaGraph F γ) : Prop where
  behavior : ∀ id, g'.behaviorOf id = g.behaviorOf id ∨
    Neutral (g.behaviorOf id) ∧ Neutral (g'.behaviorOf id)
  label : ∀ id, nodeLabel g' id = nodeLabel g id
  edges : g'.edges = g.edges
  recorded : ∀ id, recordedFootage g' id = recordedFootage g id
  sequences : ∀ id, nodeIsSequence g' id = nodeIsSequence g id
  lists : ∀ list, tracksOfList g' list = tracksOfList g list
  tracks : ∀ seq kind, tracksOf g' seq kind = tracksOf g seq kind

namespace Alike

theorem refl (g : MediaGraph F γ) : Alike g g :=
  ⟨fun _ => .inl rfl, fun _ => rfl, rfl, fun _ => rfl, fun _ => rfl, fun _ => rfl, fun _ _ => rfl⟩

theorem trans (h : Alike g g') (h' : Alike g' g'') : Alike g g'' := by
  refine ⟨fun id => ?_, fun id => (h'.label id).trans (h.label id), h'.edges.trans h.edges,
    fun id => (h'.recorded id).trans (h.recorded id),
    fun id => (h'.sequences id).trans (h.sequences id),
    fun list => (h'.lists list).trans (h.lists list),
    fun seq kind => (h'.tracks seq kind).trans (h.tracks seq kind)⟩
  rcases h'.behavior id with heq | ⟨hn, hn'⟩
  · rw [heq]
    exact h.behavior id
  · rcases h.behavior id with heq | ⟨hm, -⟩
    · exact .inr ⟨heq ▸ hn, hn'⟩
    · exact .inr ⟨hm, hn'⟩

variable (h : Alike g g')
include h

theorem congr {α : Type*} (f : Option (Behavior F (Media γ)) → α)
    (hf : ∀ b, Neutral b → f b = f none) (id : NodeId) :
    f (g'.behaviorOf id) = f (g.behaviorOf id) := by
  rcases h.behavior id with heq | ⟨hn, hn'⟩
  · rw [heq]
  · rw [hf _ hn, hf _ hn']

variable (id : NodeId)

theorem blockCoreOf_eq : blockCoreOf g' id = blockCoreOf g id :=
  h.congr (fun b => b.bind Behavior.blockCore)
    (by rintro b (rfl | ⟨s, rfl⟩ | ⟨l, rfl, -⟩) <;> rfl) id

theorem trackBehaviorOf_eq : trackBehaviorOf g' id = trackBehaviorOf g id :=
  h.congr (fun b => b.bind Behavior.track?)
    (by rintro b (rfl | ⟨s, rfl⟩ | ⟨l, rfl, -⟩) <;> rfl) id

theorem footageOf_eq : footageOf g' id = footageOf g id := by
  rw [footageOf, footageOf]
  rcases h.behavior id with heq | ⟨hn, hn'⟩
  · rw [heq]
  · rcases hn with hn | ⟨s, hn⟩ | ⟨l, hn, -⟩ <;> rcases hn' with hn' | ⟨s', hn'⟩ | ⟨l', hn', -⟩ <;>
      rw [hn, hn']

theorem findInputFootage_eq : findInputFootage g' id = findInputFootage g id := by
  have hfootage : nodeIsFootage g' = nodeIsFootage g := by
    funext x
    rw [nodeIsFootage, nodeIsFootage, h.footageOf_eq]
  have hsources : ∀ n, (g'.inputConnections n).map Prod.fst =
      (g.inputConnections n).map Prod.fst := by
    intro n
    rw [inputConnections, inputConnections, h.edges, List.map_map, List.map_map]
    rfl
  have hsearch : ∀ fuel stack seen, searchInputs g' fuel stack seen =
      searchInputs g fuel stack seen := by
    intro fuel
    induction fuel with
    | zero => intro stack seen; rfl
    | succ fuel ih =>
      intro stack seen
      rcases stack with _ | ⟨n, stack⟩
      · rfl
      · simp only [searchInputs, hsources, hfootage, ih]
  rw [findInputFootage, findInputFootage, h.recorded, hfootage, h.edges]
  simp only [hsearch]

theorem serializeBlock_eq (rate : ℚ) (kind : TrackType) (block : NodeId) :
    serializeBlock g' rate kind block = serializeBlock g rate kind block := by
  have hclip : serializeClip g' rate kind block = serializeClip g rate kind block := by
    have hfootage : footageOf g' = footageOf g := funext h.footageOf_eq
    simp only [serializeClip, blockIn, blockLength, h.label, h.blockCoreOf_eq,
      h.findInputFootage_eq, hfootage]
  have hgap : serializeGap g' rate block = serializeGap g rate block := by
    simp only [serializeGap, blockIn, blockLength, h.label, h.blockCoreOf_eq]
  have htransition : ∀ t, serializeTransition g' block t = serializeTransition g block t := by
    intro t
    simp only [serializeTransition, h.label]
  rw [serializeBlock, serializeBlock, hclip, hgap]
  simp only [htransition]
  rcases h.behavior block with heq | ⟨hn, hn'⟩
  · rw [heq]
  · rcases hn with hn | ⟨s, hn⟩ | ⟨l, hn, -⟩ <;> rcases hn' with hn' | ⟨s', hn'⟩ | ⟨l', hn', -⟩ <;>
      rw [hn, hn']

theorem serializeTracks_eq (rate : ℚ) (tracks : List NodeId) :
    serializeTracks g' rate tracks = serializeTracks g rate tracks := by
  have hlength : ∀ track, trackLength g' track = trackLength g track := by
    intro track
    have hout : blockOut g' = blockOut g := by
      funext b
      rw [blockOut, blockOut, h.blockCoreOf_eq]
    rw [trackLength, trackLength, h.trackBehaviorOf_eq, hout]
  have htrack : ∀ max track, serializeTrack g' rate max track = serializeTrack g rate max track := by
    intro max track
    have hblock : ∀ kind, serializeBlock g' rate kind = serializeBlock g rate kind :=
      fun kind => funext (h.serializeBlock_eq rate kind)
    simp only [serializeTrack, h.trackBehaviorOf_eq, hblock]
  rw [serializeTracks, serializeTracks, funext hlength]
  exact congrArg (fun f => tracks.mapM f) (funext (htrack _))

end Alike

/-- A graph in which nothing is in the way of a new track list. -/
structure Ready (g : MediaGraph F γ) (n : ℕ) : Prop where
  sound : ∃ carried, g.Sound carried
  room : g.entries.length + n < u32Size - 1
  /-- The footage that a clip has recorded is there. -/
  footage : ∀ id c f, g.behaviorOf id = some (.clip c) → c.footage = some f → g.isValid f = true

theorem tracksOf_eq {seq : NodeId} {s : SequenceBehavior} {kind : TrackType}
    (hs : g.behaviorOf seq = some (.sequence s)) :
    tracksOf g seq kind = tracksOfList g (listOf s kind) := by
  rw [tracksOf, hs]
  rfl

theorem tracksOf_of_not {seq : NodeId} {kind : TrackType}
    (h : ∀ s, g.behaviorOf seq ≠ some (.sequence s)) : tracksOf g seq kind = [] := by
  rw [tracksOf]
  split
  next s hs => exact absurd hs (h s)
  next => rfl

section NewList

variable {seq list : NodeId} {s s' : SequenceBehavior} {l : TrackListBehavior} {kind : TrackType}
  (hfresh : g.behaviorOf list = none) (hs : g.behaviorOf seq = some (.sequence s))
  (hbehavior : ∀ y, g'.behaviorOf y = if y = seq then some (.sequence s') else
    if y = list then some (.trackList l) else g.behaviorOf y)
  (hl : l.tracks = []) (hnone : listOf s kind = none)
  (hlists : ∀ k, listOf s' k = if k = kind then some list else listOf s k)
include hfresh hs hbehavior hl

theorem tracksOfList_newList (o : Option NodeId) : tracksOfList g' o = tracksOfList g o := by
  rcases o with _ | x
  · rfl
  have hx := hbehavior x
  rw [tracksOfList, tracksOfList, Option.bind_some, Option.bind_some, trackListBehaviorOf,
    trackListBehaviorOf, hx]
  split_ifs with hseq hlist
  · rw [hseq, hs]
  · rw [hlist, hfresh]
    exact hl
  · rfl

include hnone hlists in
theorem tracksOf_newList (x : NodeId) (k : TrackType) : tracksOf g' x k = tracksOf g x k := by
  have hlist := tracksOfList_newList hfresh hs hbehavior hl
  by_cases hx : x = seq
  · subst hx
    have hs' : g'.behaviorOf x = some (.sequence s') := by rw [hbehavior, if_pos rfl]
    rw [tracksOf_eq hs', tracksOf_eq hs, hlist, hlists]
    split_ifs with hk
    · rw [hk, hnone, tracksOfList, Option.bind_some, trackListBehaviorOf, hfresh]
      rfl
    · rfl
  · by_cases hnew : x = list
    · rw [tracksOf_of_not fun s₀ h₀ => ?_, tracksOf_of_not fun s₀ h₀ => ?_]
      · rw [hnew, hfresh] at h₀
        exact absurd h₀ (by simp)
      · rw [hbehavior, if_neg hx, if_pos hnew] at h₀
        exact absurd h₀ (by simp)
    · have hsame : g'.behaviorOf x = g.behaviorOf x := by rw [hbehavior, if_neg hx, if_neg hnew]
      rcases hb : g.behaviorOf x with _ | b
      · rw [tracksOf, hsame, tracksOf, hb]
      · rcases b with _ | _ | _ | _ | _ | _ | s₀ | _ | _
        case sequence => rw [tracksOf_eq (hsame.trans hb), tracksOf_eq hb, hlist]
        all_goals rw [tracksOf, hsame, tracksOf, hb]

omit hl in
theorem clip_newList {id : NodeId} {c : ClipBlockBehavior F} :
    g'.behaviorOf id = some (.clip c) ↔ g.behaviorOf id = some (.clip c) := by
  rw [hbehavior]
  split_ifs with hseq hlist
  · rw [hseq, hs]
    simp
  · rw [hlist, hfresh]
    simp
  · rfl

include hnone hlists in
/-- Where a track list without tracks is new, the same is saved. -/
theorem alike_newList {n : ℕ} (hready : Ready g n) (hlabel : ∀ id, nodeLabel g' id = nodeLabel g id)
    (hedges : g'.edges = g.edges) : Alike g g' where
  behavior id := by
    rw [hbehavior]
    split_ifs with hseq hlist
    · exact .inr ⟨.inr (.inl ⟨s, hseq ▸ hs⟩), .inr (.inl ⟨s', rfl⟩)⟩
    · exact .inr ⟨.inl (hlist ▸ hfresh), .inr (.inr ⟨l, rfl, hl⟩)⟩
    · exact .inl rfl
  label := hlabel
  edges := hedges
  recorded id := by
    have hclip : clipOf g' id = clipOf g id := by
      rw [clipOf, clipOf, hbehavior]
      split_ifs with hseq hlist
      · rw [hseq, hs]
      · rw [hlist, hfresh]
      · rfl
    rw [recordedFootage, recordedFootage, hclip]
    rcases hc : (clipOf g id).bind ClipBlockBehavior.footage with _ | f
    · rfl
    · obtain ⟨c, hclip, hf⟩ := Option.bind_eq_some_iff.1 hc
      have hb : g.behaviorOf id = some (.clip c) := by
        rw [clipOf] at hclip
        split at hclip
        · simp_all
        · exact absurd hclip (by simp)
      have hlive := hready.footage id c f hb hf
      have hlive' : g'.isValid f = true := by
        rw [isValid_eq_isSome_behaviorOf, hbehavior]
        split_ifs
        · rfl
        · rfl
        · rwa [← isValid_eq_isSome_behaviorOf]
      rw [Option.filter_some, Option.filter_some, if_pos hlive', if_pos hlive]
  sequences id := by
    rw [nodeIsSequence, nodeIsSequence, hbehavior]
    split_ifs with hseq hlist
    · rw [hseq, hs]
    · rw [hlist, hfresh]
    · rfl
  lists := tracksOfList_newList hfresh hs hbehavior hl
  tracks := tracksOf_newList hfresh hs hbehavior hl hnone hlists

end NewList

/-- A track list is found or made, and the same is saved. -/
theorem trackListFor_spec {n : ℕ} {seq : NodeId} {s : SequenceBehavior} (h : Ready g (n + 1))
    (hs : g.behaviorOf seq = some (.sequence s)) (kind : TrackType) :
    Alike g (trackListFor g seq kind).1 ∧ Ready (trackListFor g seq kind).1 n ∧
      tracksOfList (trackListFor g seq kind).1 (trackListFor g seq kind).2 =
        tracksOf g seq kind ∧
      ∃ s', (trackListFor g seq kind).1.behaviorOf seq = some (.sequence s') := by
  rw [trackListFor, sequenceTrackList, hs]
  simp only
  rcases hl : listOf s kind with _ | list
  · have hroom := h.room
    obtain ⟨carried, hsound⟩ := h.sound
    have hvacant := hsound.freeVacant
    obtain ⟨hfresh, hget⟩ := behaviorOf_allocate hvacant (by omega) .new
      (.trackList ⟨kind, [], some seq, base kind⟩ : Behavior F (Media γ))
    have hsound' := hsound.allocate .new (.trackList ⟨kind, [], some seq, base kind⟩)
    have hlength := length_allocate_le (g := g) .new
      (.trackList ⟨kind, [], some seq, base kind⟩)
    have hlabel : ∀ x, nodeLabel (g.allocate .new (.trackList ⟨kind, [], some seq, base kind⟩)).1
        x = nodeLabel g x := by
      intro x
      rw [nodeLabel, nodeLabel]
      rcases hx : g.get x with _ | entry
      · rcases hx' : (g.allocate .new (.trackList ⟨kind, [], some seq, base kind⟩)).1.get x
          with _ | entry
        · rfl
        · rcases get_allocate_cases hx' with hold | ⟨-, hcore, -⟩
          · exact absurd (hx.symm.trans hold) (by simp)
          · rw [Option.map_some, hcore]
            rfl
      · rw [get_allocate_of_get hvacant hx]
    have hedges := edges_allocate (g := g) .new (.trackList ⟨kind, [], some seq, base kind⟩)
    simp only [addNode]
    generalize g.allocate .new (.trackList ⟨kind, [], some seq, base kind⟩ :
      Behavior F (Media γ)) = p at hfresh hget hsound' hlength hlabel hedges ⊢
    have hne : seq ≠ p.2 := ne_of_found hs hfresh
    have hlist : p.1.behaviorOf p.2 = some (.trackList ⟨kind, [], some seq, base kind⟩) := by
      rw [hget, if_pos rfl]
    have hlists := LoadOTIOTask.listOf_set s.trackLists (valid_of_behaviorOf hlist) kind
    generalize (⟨(s.trackLists ++ List.replicate (base kind + 1 - s.trackLists.length)
      NodeId.invalid).set (base kind) p.2⟩ : SequenceBehavior) = s' at hlists ⊢
    have hbehavior : ∀ y, (p.1.modifyBehavior (fun _ => .sequence s') seq).behaviorOf y =
        if y = seq then some (.sequence s') else
          if y = p.2 then some (.trackList ⟨kind, [], some seq, base kind⟩)
          else g.behaviorOf y := by
      intro y
      rw [behaviorOf_modifyBehavior, hget]
      split_ifs with hy hy'
      · rfl
      · rw [hy, hs, Option.map_some]
      · rfl
      · rfl
    have hlabel' : ∀ x, nodeLabel (p.1.modifyBehavior (fun _ => .sequence s') seq) x =
        nodeLabel g x := by
      intro x
      rw [← hlabel, nodeLabel, nodeLabel, get_modifyBehavior]
      split_ifs
      · rw [Option.map_map]
        rfl
      · rfl
    have hself : (p.1.modifyBehavior (fun _ => .sequence s') seq).behaviorOf seq =
        some (.sequence s') := by rw [hbehavior, if_pos rfl]
    have halike : Alike g (p.1.modifyBehavior (fun _ => .sequence s') seq) :=
      alike_newList hfresh hs hbehavior rfl hl hlists h hlabel'
        ((edges_modifyBehavior _).trans hedges)
    refine ⟨halike, ⟨⟨_, hsound'.modifyBehavior _ seq⟩, ?_, fun id c f hb hf => ?_⟩, ?_, s', hself⟩
    · rw [length_modifyBehavior]
      omega
    · have hlive := h.footage id c f ((clip_newList hfresh hs hbehavior).1 hb) hf
      rw [isValid_eq_isSome_behaviorOf, hbehavior]
      split_ifs
      · rfl
      · rfl
      · rwa [← isValid_eq_isSome_behaviorOf]
    · rw [← halike.tracks, tracksOf_eq hself, hlists, if_pos rfl]
  · refine ⟨.refl g, ⟨h.sound, ?_, h.footage⟩, ?_, s, hs⟩
    · have := h.room
      simp only
      omega
    · rw [tracksOf_eq hs, hl]

/-- The timeline of a sequence, from a graph that stays as it is. -/
def timelineOf (g : MediaGraph F γ) (sequence : NodeId) : Option (Otio.Timeline ℚ) :=
  let rate := sequenceRate (frameRates sequence)
  if rate ≤ 0 then none
  else
    (serializeTracks g rate (tracksOf g sequence .video)).bind fun video =>
      (serializeTracks g rate (tracksOf g sequence .audio)).map fun audio =>
        timelineWith (nodeLabel g sequence) (video ++ audio)

theorem serializeTimeline_spec {frameRates : NodeId → List Rational} {g₀ : MediaGraph F γ} {n : ℕ}
    {seq : NodeId} (halike : Alike g₀ g) (h : Ready g (n + 2))
    (hseq : nodeIsSequence g₀ seq = true) :
    Alike g₀ (serializeTimeline (frameRates seq) g seq).1 ∧
      Ready (serializeTimeline (frameRates seq) g seq).1 n ∧
      (serializeTimeline (frameRates seq) g seq).2 = timelineOf frameRates g₀ seq := by
  rw [serializeTimeline, timelineOf]
  simp only
  split_ifs
  · exact ⟨halike, ⟨h.sound, by have := h.room; simp only; omega, h.footage⟩, rfl⟩
  rw [← halike.sequences, nodeIsSequence] at hseq
  obtain ⟨s, hs⟩ : ∃ s, g.behaviorOf seq = some (.sequence s) := by
    split at hseq
    next s hs => exact ⟨s, hs⟩
    next => exact absurd hseq (by simp)
  obtain ⟨halike₁, hready₁, htracks₁, s₁, hs₁⟩ := trackListFor_spec h hs .video
  rcases hfirst : trackListFor g seq .video with ⟨g₁, video⟩
  rw [hfirst] at halike₁ hready₁ htracks₁ hs₁
  obtain ⟨halike₂, hready₂, htracks₂, -⟩ := trackListFor_spec hready₁ hs₁ .audio
  rcases hsecond : trackListFor g₁ seq .audio with ⟨g₂, audio⟩
  simp only [hsecond] at halike₂ hready₂ htracks₂ ⊢
  have hall : Alike g₀ g₂ := (halike.trans halike₁).trans halike₂
  refine ⟨hall, hready₂, ?_⟩
  have hvideo : tracksOfList g₂ video = tracksOf g₀ seq .video := by
    rw [halike₂.lists, htracks₁, halike.tracks]
  have haudio : tracksOfList g₂ audio = tracksOf g₀ seq .audio := by
    rw [htracks₂, halike₁.tracks, halike.tracks]
  rw [hvideo, haudio, hall.serializeTracks_eq, hall.serializeTracks_eq, halike.label]

/-- A track list that is made while a project is saved changes nothing. -/
theorem serializeAll_eq (frameRates : NodeId → List Rational) {g₀ : MediaGraph F γ} :
    ∀ {seqs : List NodeId} {g : MediaGraph F γ}, Alike g₀ g → Ready g (2 * seqs.length) →
      (∀ seq ∈ seqs, nodeIsSequence g₀ seq = true) →
        (serializeAll frameRates g seqs).toOption = seqs.mapM (timelineOf frameRates g₀)
  | [], _, _, _, _ => rfl
  | seq :: seqs, g, halike, hready, hseqs => by
    obtain ⟨halike', hready', htimeline⟩ := serializeTimeline_spec
      halike (n := 2 * seqs.length) hready (hseqs seq List.mem_cons_self)
    rw [serializeAll, List.mapM_cons, ← htimeline]
    generalize serializeTimeline (frameRates seq) g seq = r at halike' hready' ⊢
    rcases r with ⟨g', _ | timeline⟩
    · rfl
    · have hrest := serializeAll_eq frameRates halike' hready'
        fun x hx => hseqs x (List.mem_cons_of_mem _ hx)
      show ((serializeAll frameRates g' seqs).map _).toOption =
        (seqs.mapM (timelineOf frameRates g₀)).bind _
      rw [← hrest]
      rcases serializeAll frameRates g' seqs with _ | ts
      · rfl
      · rfl

end SaveOTIOTask

end Oak.Interchange
