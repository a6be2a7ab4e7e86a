import Oak.Lib.Decimal
import Oak.Otio.Model

/-!
# Reading FCPXML

The reader of `oak-otio/src/fcpxml.rs`, from the elements of a track to its blocks. Seconds and
frame rates are exact rationals; what the source approximates to keep a fraction within 32 bits is
left out, and so are the bounds of the integers in a document.
-/

namespace Oak.Otio.Fcpxml

open Oak.Lib

/-- `FcpxmlError`. Files are not read here. -/
inductive FcpxmlError where
  | xml (text : String)
  | malformed (text : String)
  | unsupportedVersion (text : String)
  deriving DecidableEq, Repr

/-- `Result`. -/
abbrev Result := Except FcpxmlError

/-! ### Time values -/

/-- `parse_time`, behind the unit. -/
def parseSeconds (cs : List Char) : Result ℚ :=
  let s := String.ofList cs
  if cs.getLast? = some 'f' then
    .error (.malformed
      s!"frame-count time value \"{s}f\" cannot be converted without a rate")
  else
    match splitOnce '/' cs with
    | some (num, den) =>
      match parseInt (trim num), parseInt (trim den) with
      | some num, some den =>
        if den = 0 then .error (.malformed s!"time value \"{s}\" has a zero denominator")
        else .ok (num / den)
      | _, _ => .error (.malformed s!"invalid time value \"{s}\"")
    | none =>
      match parseInt cs with
      | some whole => .ok whole
      | none =>
        match parseFloat cs with
        | some (some frac) => .ok frac
        | some none => .error (.malformed s!"non-finite time value \"{s}\"")
        | none => .error (.malformed s!"invalid time value \"{s}\"")

/-- `parse_time`. -/
def parseTime (text : String) : Result ℚ :=
  let cs := trim text.toList
  parseSeconds (if cs.getLast? = some 's' then trim cs.dropLast else cs)

/-- `format_time`. -/
def formatTime (r : ℚ) : String :=
  if r.num = 0 then "0s"
  else if r.den = 1 then toString r.num ++ "s"
  else toString r.num ++ "/" ++ toString (r.den : ℤ) ++ "s"

/-- `time_at_rate`. -/
def timeAtRate (seconds rate : ℚ) : RationalTime ℚ := .new (seconds * rate) rate

/-- `seconds_of`. -/
def secondsOf (time : RationalTime ℚ) : ℚ := time.value / time.rate

/-- `rate_of`. -/
def rateOf (frameDuration : ℚ) : Option ℚ :=
  if frameDuration.num = 0 ∨ frameDuration.den = 0 then none
  else some (frameDuration.den / frameDuration.num)

/-- `frame_duration_of`. -/
def frameDurationOf (rate : ℚ) : ℚ := 1 / rate

/-! ### Elements -/

/-- `Node`, without its text, which nothing reads. -/
structure Node where
  name : String
  attrs : List (String × String)
  children : List Node

/-- `attr`. -/
def Node.attr (node : Node) (key : String) : Option String := node.attrs.lookup key

/-- The resources of a document by their ids, the last one first. -/
abbrev Resources (α : Type) := List (String × α)

/-- `FormatInfo`. -/
structure FormatInfo where
  frameDuration : ℚ

/-- `AssetInfo`. -/
structure AssetInfo where
  src : String
  format : Option String
  duration : ℚ

/-! ### Blocks -/

/-- The asset of a clip. -/
def assetOf (node : Node) (assets : Resources AssetInfo) : Option AssetInfo := do
  assets.lookup (← node.attr "ref")

/-- The rate of a format. -/
def formatRate (formats : Resources FormatInfo) (id : Option String) : Option ℚ := do
  let format ← formats.lookup (← id)
  rateOf format.frameDuration

/-- `clip_rate_of`. -/
def clipRateOf (node : Node) (formats : Resources FormatInfo) (assets : Resources AssetInfo)
    (fallback : ℚ) : ℚ :=
  match formatRate formats (node.attr "format") with
  | some rate => rate
  | none =>
    match formatRate formats ((assetOf node assets).bind AssetInfo.format) with
    | some rate => rate
    | none => fallback

/-- `asset_rate_of`. -/
def assetRateOf (asset : AssetInfo) (formats : Resources FormatInfo) (fallback : ℚ) : ℚ :=
  (formatRate formats asset.format).getD fallback

/-- An attribute that holds a time, or what it is when missing. -/
def timeOr (node : Node) (key : String) (missing : Result ℚ) : Result ℚ :=
  match node.attr key with
  | some s => parseTime s
  | none => missing

/-- The time of an attribute that has to be there. -/
def requiredTime (node : Node) (name key : String) : Result ℚ :=
  timeOr node key (.error (.malformed s!"<{name}> is missing its {key} attribute"))

/-- A range at a rate. -/
def rangeAtRate (start duration rate : ℚ) : TimeRange ℚ :=
  .new (timeAtRate start rate) (timeAtRate duration rate)

/-- The elements that are imported as gaps. -/
def unmapped : List String := ["sync-clip", "title", "generator", "caption", "multicam", "titles"]

/-- The media reference of a clip. -/
def referenceOf (node : Node) (seqRate : ℚ) (formats : Resources FormatInfo)
    (assets : Resources AssetInfo) : MediaReference ℚ :=
  match assetOf node assets with
  | some asset =>
    .externalReference (.new asset.src
      (some (rangeAtRate 0 asset.duration (assetRateOf asset formats seqRate))))
  | none => .missingReference .new

/-- The clip of an element. -/
def makeClip (node : Node) (range : TimeRange ℚ) (reference : MediaReference ℚ) : Clip ℚ :=
  let clip : Clip ℚ := { Clip.new ((node.attr "name").getD "") with sourceRange := some range }
  let clip := match node.attr "enabled" with
    | some enabled => { clip with enabled := enabled ≠ "0" }
    | none => clip
  clip.setMediaReference reference

/-- The transition of an element. -/
def makeTransition (node : Node) (half : RationalTime ℚ) : Transition ℚ :=
  { Transition.new ((node.attr "name").getD "") with inOffset := half, outOffset := half }

section MakeClip

variable (node : Node) (range : TimeRange ℚ) (reference : MediaReference ℚ)

@[simp] theorem sourceRange_makeClip : (makeClip node range reference).sourceRange = some range := by
  rw [makeClip]
  cases node.attr "enabled" <;> rfl

end MakeClip

/-- `parse_block`, with the end of the blocks so far; `none` takes no place. -/
def parseBlock (node : Node) (name : String) (seqRate : ℚ) (formats : Resources FormatInfo)
    (assets : Resources AssetInfo) (pos : ℚ) : Result (Option (Composable ℚ) × ℚ) := do
  let offset ← timeOr node "offset" (.ok pos)
  if name = "asset-clip" ∨ name = "clip" then
    let duration ← requiredTime node name "duration"
    let start ← timeOr node "start" (.ok 0)
    let range := rangeAtRate start duration (clipRateOf node formats assets seqRate)
    let clip := makeClip node range (referenceOf node seqRate formats assets)
    return (some (.clip clip), offset + duration)
  else if name = "gap" then
    let duration ← timeOr node "duration" (.ok 0)
    let range := rangeAtRate offset duration seqRate
    return (some (.gap (.new range ((node.attr "name").getD ""))), offset + duration)
  else if name = "transition" then
    let duration ← requiredTime node name "duration"
    let half := duration / 2
    let transition := makeTransition node (timeAtRate half seqRate)
    return (some (.transition transition), offset + duration)
  else if name ∈ unmapped then
    let duration ← timeOr node "duration" (.ok 0)
    return (some (.gap (.new (rangeAtRate offset duration seqRate) "")), offset + duration)
  else
    return (none, pos)

/-! ### Containers -/

/-- A track under construction, the end of its blocks, and the finished tracks. -/
structure Container where
  track : Track ℚ (Composable ℚ)
  pos : ℚ
  tracks : List (Track ℚ (Composable ℚ))

/-- A block at the end of a track under construction, if there is one. -/
def Container.append (c : Container) : Option (Composable ℚ) × ℚ → Container
  | (some block, pos) => { c with track := c.track.appendChild block, pos := pos }
  | (none, pos) => { c with pos := pos }

section Containers

variable (seqRate : ℚ) (formats : Resources FormatInfo) (assets : Resources AssetInfo)

mutual

/-- `parse_container`. -/
def parseContainer (kind : String) :
    Node → List (Track ℚ (Composable ℚ)) → Result (List (Track ℚ (Composable ℚ)))
  | ⟨_, _, children⟩, tracks => do
    let c ← parseChildren children ⟨.new kind, 0, tracks⟩
    return c.tracks ++ [c.track]

/-- The loop of `parse_container`. -/
def parseChildren : List Node → Container → Result Container
  | [], c => return c
  | child :: children, c => do
    if child.name = "video" then
      parseChildren children { c with tracks := ← parseContainer "Video" child c.tracks }
    else if child.name = "audio" then
      parseChildren children { c with tracks := ← parseContainer "Audio" child c.tracks }
    else
      parseChildren children
        (c.append (← parseBlock child child.name seqRate formats assets c.pos))

end

end Containers

end Oak.Otio.Fcpxml
