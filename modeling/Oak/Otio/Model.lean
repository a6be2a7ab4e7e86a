import Mathlib.Algebra.Order.Field.Rat
import Oak.Core.TimeRange
import Oak.Lib.Json

/-!
# The OTIO object model

The types of `oak-otio/src/model.rs`. A schema type keeps the fields it does not know in `unknown`;
a value of a schema that is not known at all is kept whole as `raw`. Children are boxed in the
source.

Floats are a parameter of the types. Times are computed with where floats are the rational numbers,
so that seconds are exact.
-/

namespace Oak.Otio

open Oak.Lib (Json)

/-- `serde_json::Map`, in the order of the document. -/
abbrev Map (F : Type*) := List (String × Json F)

/-! ### Schema names -/

def schemaRationalTime : String := "RationalTime.1"
def schemaTimeRange : String := "TimeRange.1"
def schemaClip : String := "Clip.2"
def schemaGap : String := "Gap.1"
def schemaTransition : String := "Transition.1"
def schemaTrack : String := "Track.1"
def schemaStack : String := "Stack.1"
def schemaTimeline : String := "Timeline.1"
def schemaExternalReference : String := "ExternalReference.1"
def schemaMissingReference : String := "MissingReference.1"
def schemaSerializableCollection : String := "SerializableCollection.1"

/-- `Value::as_str`. -/
def asStr {F : Type*} : Json F → Option String
  | .string s => some s
  | _ => none

/-- `raw_schema_name`. -/
def rawSchemaName {F : Type*} : Json F → String
  | .object fields => ((fields.lookup "OTIO_SCHEMA").bind asStr).getD ""
  | _ => ""

/-! ### Times -/

/-- `RationalTime`. -/
structure RationalTime (F : Type*) where
  otioSchema : String
  rate : F
  value : F
  deriving DecidableEq

variable (t : RationalTime ℚ)

namespace RationalTime

/-- `RationalTime::new`. -/
def new {F : Type*} (value rate : F) : RationalTime F := ⟨schemaRationalTime, rate, value⟩

/-- `to_seconds`. -/
def toSeconds : ℚ := t.value / t.rate

/-- `to_rational`. -/
def toRational : ℚ := t.toSeconds

/-- `rescaled_to`. -/
def rescaledTo (newRate : ℚ) : RationalTime ℚ :=
  if t.rate = newRate then t else .new (t.value * (newRate / t.rate)) newRate

/-- `from_rational`. -/
def fromRational (r : ℚ) (framerate : ℚ) : RationalTime ℚ :=
  (RationalTime.new (r.num : ℚ) (r.den : ℚ)).rescaledTo framerate

/-- A time is read back from its value and rate. -/
@[simp] theorem toSeconds_fromRational (r : ℚ) {framerate : ℚ} (h : framerate ≠ 0) :
    (fromRational r framerate).toSeconds = r := by
  have hden : (r.den : ℚ) ≠ 0 := Nat.cast_ne_zero.2 r.den_nz
  have hr : (r.num : ℚ) / r.den = r := Rat.num_div_den r
  rw [fromRational, rescaledTo]
  split_ifs
  · exact hr
  · show (r.num : ℚ) * (framerate / r.den) / framerate = r
    rw [div_eq_iff h, ← mul_div_assoc, mul_div_right_comm, hr]

@[simp] theorem toRational_fromRational (r : ℚ) {framerate : ℚ} (h : framerate ≠ 0) :
    (fromRational r framerate).toRational = r :=
  toSeconds_fromRational r h

end RationalTime

/-- `TimeRange`. -/
structure TimeRange (F : Type*) where
  otioSchema : String
  duration : RationalTime F
  startTime : RationalTime F
  deriving DecidableEq

/-- `TimeRange::new`. -/
def TimeRange.new {F : Type*} (startTime duration : RationalTime F) : TimeRange F :=
  ⟨schemaTimeRange, duration, startTime⟩

/-- A range at a frame rate. -/
def TimeRange.atRate (framerate start length : ℚ) : TimeRange ℚ :=
  .new (.fromRational start framerate) (.fromRational length framerate)

section AtRate

variable {framerate : ℚ} (h : framerate ≠ 0) (start length : ℚ)
include h

@[simp] theorem TimeRange.startTime_atRate :
    (TimeRange.atRate framerate start length).startTime.toRational = start :=
  RationalTime.toRational_fromRational start h

@[simp] theorem TimeRange.duration_atRate :
    (TimeRange.atRate framerate start length).duration.toRational = length :=
  RationalTime.toRational_fromRational length h

end AtRate

/-! ### Media references -/

/-- `ExternalReference`. -/
structure ExternalReference (F : Type*) where
  otioSchema : String
  metadata : Map F
  name : String
  availableRange : Option (TimeRange F)
  availableImageBounds : Option (Json F)
  targetUrl : String
  unknown : Map F

/-- `ExternalReference::new`. -/
def ExternalReference.new {F : Type*} (targetUrl : String)
    (availableRange : Option (TimeRange F)) : ExternalReference F :=
  ⟨schemaExternalReference, [], "", availableRange, none, targetUrl, []⟩

/-- `MissingReference`. -/
structure MissingReference (F : Type*) where
  otioSchema : String
  metadata : Map F
  name : String
  availableRange : Option (TimeRange F)
  availableImageBounds : Option (Json F)
  unknown : Map F

/-- `MissingReference::new`. -/
def MissingReference.new {F : Type*} : MissingReference F :=
  ⟨schemaMissingReference, [], "", none, none, []⟩

/-- `MediaReference`. -/
inductive MediaReference (F : Type*) where
  | externalReference (reference : ExternalReference F)
  | missingReference (reference : MissingReference F)
  | raw (value : Json F)

/-- `as_external_reference`. -/
def MediaReference.asExternalReference {F : Type*} :
    MediaReference F → Option (ExternalReference F)
  | .externalReference reference => some reference
  | _ => none

/-! ### Blocks and containers -/

/-- `Clip`. The media references are in the order of their keys. -/
structure Clip (F : Type*) where
  otioSchema : String
  metadata : Map F
  name : String
  sourceRange : Option (TimeRange F)
  effects : List (Json F)
  markers : List (Json F)
  enabled : Bool
  mediaReferences : List (String × MediaReference F)
  activeMediaReferenceKey : Option String
  unknown : Map F

/-- Insertion into a map that is ordered by its keys; a value that is there is replaced. -/
def insertByKey {α : Type*} (key : String) (value : α) :
    List (String × α) → List (String × α)
  | [] => [(key, value)]
  | e :: es =>
    if key < e.1 then (key, value) :: e :: es
    else if key = e.1 then (key, value) :: es
    else e :: insertByKey key value es

theorem lookup_insertByKey {α : Type*} (key : String) (value : α) (es : List (String × α)) :
    (insertByKey key value es).lookup key = some value := by
  induction es with
  | nil => simp [insertByKey]
  | cons e es ih =>
    rw [insertByKey]
    split_ifs with hlt heq
    · simp
    · simp
    · rw [List.lookup_cons, beq_false_of_ne heq, ih]

namespace Clip

variable {F : Type*}

/-- `Clip::new`. -/
def new (name : String) : Clip F := ⟨schemaClip, [], name, none, [], [], true, [], none, []⟩

variable (c : Clip F)

/-- `media_reference`. -/
def mediaReference : Option (MediaReference F) :=
  c.mediaReferences.lookup (c.activeMediaReferenceKey.getD "DEFAULT_MEDIA")

variable (reference : MediaReference F)

/-- `set_media_reference`. -/
def setMediaReference : Clip F :=
  { c with
    mediaReferences := insertByKey "DEFAULT_MEDIA" reference c.mediaReferences
    activeMediaReferenceKey := some "DEFAULT_MEDIA" }

/-- The reference that was set is the active one. -/
@[simp] theorem mediaReference_setMediaReference :
    (c.setMediaReference reference).mediaReference = some reference :=
  lookup_insertByKey _ reference c.mediaReferences

end Clip

/-- `Gap`. -/
structure Gap (F : Type*) where
  otioSchema : String
  metadata : Map F
  name : String
  sourceRange : Option (TimeRange F)
  effects : List (Json F)
  markers : List (Json F)
  enabled : Bool
  unknown : Map F

/-- `Gap::new`. -/
def Gap.new {F : Type*} (sourceRange : TimeRange F) (name : String) : Gap F :=
  ⟨schemaGap, [], name, some sourceRange, [], [], true, []⟩

/-- `Transition`. -/
structure Transition (F : Type*) where
  otioSchema : String
  metadata : Map F
  name : String
  inOffset : RationalTime F
  outOffset : RationalTime F
  transitionType : String
  unknown : Map F

/-- `Transition::new`. -/
def Transition.new {F : Type*} [Zero F] [One F] (name : String) : Transition F :=
  ⟨schemaTransition, [], name, .new 0 1, .new 0 1, "", []⟩

/-- `Stack`, over its children. -/
structure Stack (F C : Type*) where
  otioSchema : String
  metadata : Map F
  name : String
  sourceRange : Option (TimeRange F)
  effects : List (Json F)
  markers : List (Json F)
  enabled : Bool
  children : List C
  unknown : Map F

/-- `Stack::default`. -/
def Stack.default {F C : Type*} : Stack F C := ⟨schemaStack, [], "", none, [], [], true, [], []⟩

/-- `Track`, over its children. -/
structure Track (F C : Type*) where
  otioSchema : String
  metadata : Map F
  name : String
  sourceRange : Option (TimeRange F)
  effects : List (Json F)
  markers : List (Json F)
  enabled : Bool
  children : List C
  kind : String
  unknown : Map F

/-- `Track::new`. -/
def Track.new {F C : Type*} (kind : String) : Track F C :=
  ⟨schemaTrack, [], "", none, [], [], true, [], kind, []⟩

/-- `append_child`. -/
def Track.appendChild {F C : Type*} (t : Track F C) (child : C) : Track F C :=
  { t with children := t.children ++ [child] }

/-- `Composable`. -/
inductive Composable (F : Type*) where
  | clip (c : Clip F)
  | gap (g : Gap F)
  | transition (t : Transition F)
  | track (t : Track F (Composable F))
  | stack (s : Stack F (Composable F))
  | raw (value : Json F)

namespace Composable

variable {F : Type*}

/-- `schema_name`. -/
def schemaName : Composable F → String
  | .clip _ => "Clip"
  | .gap _ => "Gap"
  | .transition _ => "Transition"
  | .track _ => "Track"
  | .stack _ => "Stack"
  | .raw value => rawSchemaName value

/-- `name`. -/
def name : Composable F → String
  | .clip c => c.name
  | .gap g => g.name
  | .transition t => t.name
  | .track t => t.name
  | .stack s => s.name
  | .raw _ => ""

/-- `source_range`. -/
def sourceRange : Composable F → Option (TimeRange F)
  | .clip c => c.sourceRange
  | .gap g => g.sourceRange
  | _ => none

/-- `as_clip`. -/
def asClip : Composable F → Option (Clip F)
  | .clip c => some c
  | _ => none

/-- `as_transition`. -/
def asTransition : Composable F → Option (Transition F)
  | .transition t => some t
  | _ => none

/-- `as_track`. -/
def asTrack : Composable F → Option (Track F (Composable F))
  | .track t => some t
  | _ => none

end Composable

/-! ### Documents -/

/-- `Timeline`. -/
structure Timeline (F : Type*) where
  otioSchema : String
  metadata : Map F
  name : String
  globalStartTime : Option (RationalTime F)
  tracks : Stack F (Composable F)
  unknown : Map F

namespace Timeline

variable {F : Type*}

/-- `Timeline::new`. -/
def new (name : String) : Timeline F :=
  ⟨schemaTimeline, [], name, none, { Stack.default with name := "tracks" }, []⟩

/-- `append_child` on the tracks. -/
def appendTrack (t : Timeline F) (child : Composable F) : Timeline F :=
  { t with tracks := { t.tracks with children := t.tracks.children ++ [child] } }

theorem children_foldl_appendTrack {α : Type*} (f : α → Composable F) (ts : List α)
    (timeline : Timeline F) :
    (ts.foldl (fun timeline t => timeline.appendTrack (f t)) timeline).tracks.children =
      timeline.tracks.children ++ ts.map f := by
  induction ts generalizing timeline with
  | nil => simp
  | cons t ts ih =>
    rw [List.foldl_cons, ih, List.map_cons]
    exact (List.append_cons _ _ _).symm

end Timeline

/-- `SerializableCollection`, over its children. -/
structure SerializableCollection (F C : Type*) where
  otioSchema : String
  metadata : Map F
  name : String
  children : List C
  unknown : Map F

/-- `Serializable`. -/
inductive Serializable (F : Type*) where
  | timeline (t : Timeline F)
  | serializableCollection (c : SerializableCollection F (Serializable F))
  | raw (value : Json F)

/-- `SerializableCollection::new`. -/
def SerializableCollection.new {F C : Type*} (name : String) (children : List C) :
    SerializableCollection F C :=
  ⟨schemaSerializableCollection, [], name, children, []⟩

/-- `as_timeline`. -/
def Serializable.asTimeline {F : Type*} : Serializable F → Option (Timeline F)
  | .timeline t => some t
  | _ => none

end Oak.Otio
