import Mathlib.Algebra.Order.Round
import Mathlib.Data.Rat.Floor
import Oak.Otio.Fcpxml

/-!
# Writing FCPXML

The writer of `oak-otio/src/fcpxml.rs`, from the blocks of a track to their elements, with the
formats that they share. An attribute holds the value that is given to `push_attr`.
-/

namespace Oak.Otio.Fcpxml

/-! ### Resources -/

def defaultFormatWidth : String := "1920"
def defaultFormatHeight : String := "1080"

/-- `FormatEntry`. -/
structure FormatEntry where
  id : String
  name : String
  frameDuration : ℚ
  width : String
  height : String

/-- `AssetEntry`. -/
structure AssetEntry where
  id : String
  name : String
  src : String
  formatId : String
  duration : ℚ
  hasVideo : Bool
  hasAudio : Bool

/-- `ResourceSet`. -/
structure ResourceSet where
  formats : List FormatEntry
  assets : List AssetEntry
  formatIds : List (ℚ × String)
  assetIds : List (String × String)
  nextId : ℕ

/-- The nearest hundredth of a number that is not negative, to even between two. -/
def roundHundredths (q : ℚ) : ℕ :=
  let n := ⌊q * 100⌋₊
  let rest := q * 100 - n
  if rest < 1 / 2 ∨ (rest = 1 / 2 ∧ n % 2 = 0) then n else n + 1

/-- The text of a rate in the name of a format: two decimals behind an underscore, unless the rate
is whole. -/
def rateText (rate : ℚ) : String :=
  if |rate - round rate| < 1 / 1000000 then toString (round rate)
  else
    let n := roundHundredths |rate|
    (if rate < 0 then "-" else "") ++ toString (n / 100) ++ "_" ++
      toString (n % 100 / 10) ++ toString (n % 10)

/-- `format_name`. -/
def formatName (frameDuration : ℚ) : String :=
  let rateStr := rateText ((rateOf frameDuration).getD 0)
  s!"FFVideoFormat{defaultFormatWidth}x{defaultFormatHeight}p{rateStr}"

namespace ResourceSet

/-- `ResourceSet::default`. -/
def default : ResourceSet := ⟨[], [], [], [], 0⟩

/-- `format_id_for`. -/
def formatIdFor (rs : ResourceSet) (frameDuration : ℚ) : String × ResourceSet :=
  match rs.formatIds.lookup frameDuration with
  | some id => (id, rs)
  | none =>
    let id := "r" ++ toString (rs.nextId + 1)
    let format : FormatEntry :=
      ⟨id, formatName frameDuration, frameDuration, defaultFormatWidth, defaultFormatHeight⟩
    (id, { rs with
      formats := rs.formats ++ [format]
      formatIds := rs.formatIds ++ [(frameDuration, id)]
      nextId := rs.nextId + 1 })

end ResourceSet

/-- The rate of the duration of a range. -/
def rangeRate (range : TimeRange ℚ) : ℚ := range.duration.rate

/-- The seconds of the duration of a range. -/
def rangeSeconds (range : TimeRange ℚ) : ℚ := secondsOf range.duration

/-- The external reference of a clip. -/
def externalOf (clip : Clip ℚ) : Option (ExternalReference ℚ) :=
  clip.mediaReference.bind MediaReference.asExternalReference

/-! ### Blocks -/

/-- The seconds of the duration of a range that may be missing. -/
def lengthOf (range : Option (TimeRange ℚ)) : ℚ := (range.map rangeSeconds).getD 0

/-- `block_duration`. -/
def blockDuration : Composable ℚ → ℚ
  | .clip c => lengthOf c.sourceRange
  | .gap g => lengthOf g.sourceRange
  | .transition t => secondsOf t.inOffset + secondsOf t.outOffset
  | _ => 0

/-- How far a block moves the end of its track. -/
def advance : Composable ℚ → ℚ
  | .transition t => secondsOf t.outOffset
  | other => blockDuration other

/-- An attribute that is there only if it has a value. -/
def optionAttr (key : String) (value : Option String) : List (String × String) :=
  (value.map fun v => (key, v)).toList

/-- An element of `write_blocks`. -/
def writeElement (name : String) (attrs : List (String × String)) : Node := ⟨name, attrs, []⟩

/-- The element of a clip. -/
def clipElement (name : String) (ref : Option String) (offset duration start : ℚ)
    (format : Option String) (enabled : Bool) : Node :=
  writeElement "asset-clip" (("name", name) :: optionAttr "ref" ref ++
    [("offset", formatTime offset), ("duration", formatTime duration),
      ("start", formatTime start)] ++
    optionAttr "format" format ++ optionAttr "enabled" (if enabled then none else some "0"))

section ClipElement

variable (name : String) (ref : Option String) (offset duration start : ℚ)
  (format : Option String) (enabled : Bool)

theorem attr_clipElement_offset :
    (clipElement name ref offset duration start format enabled).attr "offset" =
      some (formatTime offset) := by
  cases ref <;> rfl

end ClipElement

/-- `write_blocks` at one block: what is written, the resources, and where the next block is. -/
def writeBlock (seqRate : ℚ) (resources : ResourceSet) (pos : ℚ) :
    Composable ℚ → Option Node × ResourceSet × ℚ
  | .clip clip =>
    let start := (clip.sourceRange.map fun range => secondsOf range.startTime).getD 0
    let duration := lengthOf clip.sourceRange
    let clipRate := (clip.sourceRange.map rangeRate).getD seqRate
    let (format, resources) :=
      if clipRate ≠ seqRate then
        let (id, resources) := resources.formatIdFor (frameDurationOf clipRate)
        (some id, resources)
      else (none, resources)
    let ref := (externalOf clip).bind fun e => resources.assetIds.lookup e.targetUrl
    (clipElement clip.name ref pos duration start format clip.enabled, resources, pos + duration)
  | .gap gap =>
    let duration := lengthOf gap.sourceRange
    (writeElement "gap" [("name", gap.name), ("offset", formatTime pos),
        ("duration", formatTime duration)], resources, pos + duration)
  | .transition transition =>
    let inS := secondsOf transition.inOffset
    let outS := secondsOf transition.outOffset
    let duration := inS + outS
    let offset := pos - inS
    (writeElement "transition" [("name", transition.name), ("offset", formatTime offset),
        ("duration", formatTime duration)], resources, offset + duration)
  | _ => (none, resources, pos)

/-- `write_blocks`. -/
def writeBlocks (seqRate : ℚ) :
    List (Composable ℚ) → ResourceSet → ℚ → List Node × ResourceSet × ℚ
  | [], resources, pos => ([], resources, pos)
  | block :: blocks, resources, pos =>
    let (element, resources, pos) := writeBlock seqRate resources pos block
    let (elements, resources, pos) := writeBlocks seqRate blocks resources pos
    (element.toList ++ elements, resources, pos)

end Oak.Otio.Fcpxml
