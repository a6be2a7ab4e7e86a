import Oak.Interchange.View
import Oak.Otio.Model

/-!
# Loading timelines as a task

`LoadOTIOTask` of `oak-task/src/project/loadotio.rs`, with the operations of
`oak-task/src/nodeops.rs` that it makes a project of. A block is appended to its track first, and
gets its media in point and its length afterwards.

The task runs to its end: the confirmation callback accepts and nothing is cancelled. Seconds are
exact.
-/

namespace Oak.Interchange

open Oak.Core Oak.Node Oak.Node.Graph Oak.Timeline
open Oak.Otio (Composable)

variable {F γ : Type*} {g g' : MediaGraph F γ} {id : NodeId}

/-! ### Operations on nodes -/

/-- `set_node_label`. -/
def setNodeLabel (g : MediaGraph F γ) (node : NodeId) (label : String) : MediaGraph F γ :=
  g.modifyCore (fun core => { core with label := label }) node

/-- `set_context_position`. -/
def setContextPosition (core : NodeCore F) (context : NodeId) (x y : F) (expanded : Bool) :
    NodeCore F :=
  match core.contextPositions.findIdx? fun p => p.1 = context with
  | some i => { core with
      contextPositions := core.contextPositions.set i (context, (x, y), expanded) }
  | none => { core with
      contextPositions := core.contextPositions ++ [(context, (x, y), expanded)] }

/-- `node_set_context_position`. -/
def nodeSetContextPosition (g : MediaGraph F γ) (node context : NodeId) (x y : F)
    (expanded : Bool) : MediaGraph F γ :=
  g.modifyCore (fun core => setContextPosition core context x y expanded) node

/-- `set_own_context_position`. -/
def setOwnContextPosition [OfNat F 0] (g : MediaGraph F γ) (node : NodeId) : MediaGraph F γ :=
  nodeSetContextPosition g node node 0 0 false

/-- `add_child`. -/
def addChild (f : FolderBehavior) (child : NodeId) : FolderBehavior :=
  if child ∈ f.children then f else { f with children := f.children ++ [child] }

/-- `FolderAddChildCommand::redo`. -/
def folderAddChild (g : MediaGraph F γ) (folder child : NodeId) : MediaGraph F γ :=
  let g := g.modifyBehavior (fun b => match b with
    | .folder f => .folder (addChild f child)
    | b => b) folder
  g.modifyCore (fun core => { core with binFolder := some folder }) child

/-- `track_append_block`. -/
def appendBlock (g : MediaGraph F γ) (track block : NodeId) : MediaGraph F γ :=
  modifyTrack (setTrack g block (some track)) (fun t => { t with blocks := t.blocks ++ [block] })
    track

/-- A clip is changed by `f`. -/
def modifyClip (g : MediaGraph F γ) (f : ClipBlockBehavior F → ClipBlockBehavior F)
    (block : NodeId) : MediaGraph F γ :=
  g.modifyBehavior (onClip f) block

/-- `clip_set_media_in`. -/
def clipSetMediaIn (g : MediaGraph F γ) (block : NodeId) (mediaIn : Rational) : MediaGraph F γ :=
  modifyClip g (fun c => { c with core := { c.core with mediaIn := mediaIn } }) block

/-- `clip_set_footage`. -/
def clipSetFootage (g : MediaGraph F γ) (block footage : NodeId) : MediaGraph F γ :=
  modifyClip g (fun c => { c with footage := some footage }) block

/-- `transition_set_offsets_and_length`. -/
def transitionSetOffsetsAndLength (g : MediaGraph F γ) (block : NodeId)
    (inOffset outOffset : Rational) : MediaGraph F γ :=
  g.modifyBehavior (onTransition fun t =>
    { core := t.core.setLengthAndMediaOut (inOffset + outOffset)
      inOffset := inOffset
      outOffset := outOffset }) block

/-- `sequence_track_list`: the track list of a kind is made on first use. -/
def sequenceTrackList (g : MediaGraph F γ) (sequence : NodeId) (kind : TrackType) :
    Option (MediaGraph F γ × NodeId) :=
  match g.behaviorOf sequence with
  | some (.sequence s) =>
    match listOf s kind with
    | some list => some (g, list)
    | none =>
      let (g, list) := g.addNode .new (.trackList ⟨kind, [], some sequence, base kind⟩)
      let padded := s.trackLists ++ List.replicate (base kind + 1 - s.trackLists.length) .invalid
      some (g.modifyBehavior (fun _ => .sequence ⟨padded.set (base kind) list⟩) sequence, list)
  | _ => none

/-- `TimelineAddTrackCommand::redo` of the tasks: a new track on a track list. -/
def addTrack [OfNat F 3] (g : MediaGraph F γ) (list : NodeId) : MediaGraph F γ :=
  match trackListBehaviorOf g list with
  | none => g
  | some l =>
    let (g, track) := g.addNode .new (.track
      { (newTrackBehavior l.kind : TrackBehavior F) with
        index := toI32 l.tracks.length
        trackList := some list })
    g.modifyBehavior (fun b => match b with
      | .trackList l => .trackList { l with tracks := l.tracks ++ [track] }
      | b => b) list

namespace LoadOTIOTask

/-! ### One block -/

/-- The project under construction, and the footage that was imported already, by its url. -/
structure State (F γ : Type*) where
  graph : MediaGraph F γ
  importedFootage : List (String × NodeId)

variable [ClipSpeed F] (kit : Kit F γ)

/-- `block_create`. -/
def blockCreate (kind : BlockKind) (g : MediaGraph F γ) : Option (MediaGraph F γ × NodeId) :=
  match kind with
  | .clip => some (g.addNode kit.newClip.1 (.clip kit.newClip.2))
  | .gap => some (g.addNode kit.newGap.1 (.gap kit.newGap.2))
  | .transition => some (g.addNode kit.newTransition.1 (.transition kit.newTransition.2))
  | .other => none

/-- The kind of block that is made for an item. What is not known becomes a gap, so that something
is there. -/
def kindOf (schemaName : String) : BlockKind :=
  if schemaName = "Clip" then .clip
  else if schemaName = "Gap" then .gap
  else if schemaName = "Transition" then .transition
  else .gap

/-- The source range of an item is given to its block. -/
def placeBlock (item : Composable ℚ) (block : NodeId) (g : MediaGraph F γ) : MediaGraph F γ :=
  if item.schemaName = "Clip" ∨ item.schemaName = "Gap" then
    match item.sourceRange with
    | none => g
    | some range =>
      let g := if item.schemaName = "Clip" then
          clipSetMediaIn g block range.startTime.toSeconds
        else g
      blockSetLengthAndMediaOut g block range.duration.toSeconds
  else g

/-- The footage of a url: the one that was imported already, or a new one in the folder of the
sequence. -/
def importFootage (folder : Option NodeId) (url : String) (s : State F γ) : State F γ × NodeId :=
  match s.importedFootage.lookup url with
  | some footage => (s, footage)
  | none =>
    let (g, footage) := s.graph.addNode kit.footage (.other (.footage (.new url)))
    let g := setNodeLabel g footage (kit.fileName url)
    let g := match folder with
      | some folder => folderAddChild g folder footage
      | none => g
    (⟨g, (url, footage) :: s.importedFootage⟩, footage)

variable (kind : TrackType)

/-- The effect between a clip and its footage: a transform for video, the volume for audio. -/
def addEffect [OfNat F 0] [OfNat F 1] [Neg F] (block footage : NodeId) (g : MediaGraph F γ) :
    MediaGraph F γ :=
  match if kind = .video then kit.transform else kit.volume with
  | none => g
  | some effect =>
    let (g, node) := g.addNode effect.1 (.other (.node effect.2))
    let g := g.tryConnect footage node (if kind = .video then "tex_in" else "samples_in")
    let g := g.tryConnect node block ClipInput.textureInput
    nodeSetContextPosition g block node (-1) 0 false

/-- A clip is linked to the footage of its external reference. -/
def linkFootage [OfNat F 0] [OfNat F 1] [OfNat F 2] [Neg F] (folder : Option NodeId)
    (item : Composable ℚ) (block : NodeId) (s : State F γ) : State F γ :=
  match (item.asClip.bind Otio.Clip.mediaReference).bind
      Otio.MediaReference.asExternalReference with
  | none => s
  | some external =>
    let (s, footage) := importFootage kit folder external.targetUrl s
    let g := setOwnContextPosition s.graph block
    let g := nodeSetContextPosition g block footage (-2) 0 false
    let g := clipSetFootage g block footage
    { s with graph := addEffect kit kind block footage g }

/-- The loop over the items of a track remembers the last block, and whether that is a
transition. -/
structure Cursor (F γ : Type*) extends State F γ where
  previous : Option NodeId
  previousTransition : Bool

/-- The block after a transition is connected to it. -/
def connectToTransition (c : Cursor F γ) (block : NodeId) (g : MediaGraph F γ) : MediaGraph F γ :=
  match c.previousTransition, c.previous with
  | true, some previous => g.tryConnect block previous "in_block_in"
  | _, _ => g

/-- A transition gets its offsets and is connected to the block before it. -/
def placeTransition [OfNat F 0] (previous : Option NodeId) (item : Composable ℚ)
    (block : NodeId) (g : MediaGraph F γ) : MediaGraph F γ :=
  match item.asTransition with
  | none => g
  | some transition =>
    let g := transitionSetOffsetsAndLength g block transition.inOffset.toRational
      transition.outOffset.toRational
    let g := match previous with
      | some previous => g.tryConnect previous block "out_block_in"
      | none => g
    setOwnContextPosition g block

variable [OfNat F 0] [OfNat F 1] [OfNat F 2] [Neg F]

/-- The block for an item, at the end of the track. -/
def makeBlock (track : NodeId) (c : Cursor F γ) (item : Composable ℚ) :
    Option (MediaGraph F γ × NodeId) :=
  (blockCreate kit (kindOf item.schemaName) c.graph).map fun p =>
    let block := p.2
    let g := setNodeLabel p.1 block item.name
    let g := appendBlock g track block
    let g := placeBlock item block g
    let g := connectToTransition c block g
    let g := placeTransition c.previous item block g
    (if item.schemaName = "Gap" then setOwnContextPosition g block else g, block)

/-- The body of the loop over the items of a track. -/
def loadBlock (folder : Option NodeId) (track : NodeId) (c : Cursor F γ) (item : Composable ℚ) :
    Cursor F γ :=
  match makeBlock kit track c item with
  | none => c
  | some (g, block) =>
    let s := if item.schemaName = "Clip" then
        linkFootage kit kind folder item block ⟨g, c.importedFootage⟩
      else ⟨g, c.importedFootage⟩
    { s with
      previous := some block
      previousTransition := item.asTransition.isSome }

/-! ### Tracks and timelines -/

variable [OfNat F 3]

/-- The kind of a track. Other kinds are skipped. -/
def trackType (kind : String) : Option TrackType :=
  if kind = "Video" then some .video
  else if kind = "Audio" then some .audio
  else none

/-- The body of the loop over the tracks of a timeline. -/
def loadTrack (sequence : NodeId) (folder : Option NodeId) (s : State F γ)
    (item : Composable ℚ) : State F γ :=
  match item.asTrack with
  | none => s
  | some otioTrack =>
    match trackType otioTrack.kind with
    | none => s
    | some kind =>
      match sequenceTrackList s.graph sequence kind with
      | none => s
      | some (g, list) =>
        let g := addTrack g list
        match tracklistTrackAt g list (tracklistTrackCount g list - 1) with
        | none => { s with graph := g }
        | some track =>
          (otioTrack.children.foldl (loadBlock kit kind folder track)
            ⟨⟨g, s.importedFootage⟩, none, false⟩).toState

/-- The sequence of a timeline and the folder for its footage go to the bin, and its tracks are
loaded. -/
def loadTimeline (root : NodeId) (s : State F γ) (p : Otio.Timeline ℚ × NodeId) : State F γ :=
  let g := folderAddChild s.graph root p.2
  let (g, folder) := g.addNode (kit.newFolder "").1 (kit.newFolder "").2
  let g := setNodeLabel g folder p.1.name
  let g := folderAddChild g root folder
  p.1.tracks.children.foldl (loadTrack kit p.2 (some folder)) { s with graph := g }

/-- One sequence for each timeline, with the name of the timeline or a number. -/
def createSequences : ℕ → List (Otio.Timeline ℚ) → MediaGraph F γ → MediaGraph F γ × List NodeId
  | _, [], g => (g, [])
  | unnamed, timeline :: timelines, g =>
    let (g, sequence) := g.addNode kit.sequence (.sequence ⟨[]⟩)
    let unnamed := if timeline.name = "" then unnamed + 1 else unnamed
    let label := if timeline.name = "" then s!"Sequence {unnamed}" else timeline.name
    let (g, sequences) := createSequences unnamed timelines (setNodeLabel g sequence label)
    (g, sequence :: sequences)

/-- `run`: the project for the timelines of a document, with its root folder. -/
def run (timelines : List (Otio.Timeline ℚ)) : MediaGraph F γ × NodeId :=
  let (g, root) := initialized kit
  let (g, sequences) := createSequences kit 0 timelines g
  (((timelines.zip sequences).foldl (loadTimeline kit root) ⟨g, []⟩).graph, root)

end LoadOTIOTask

end Oak.Interchange
