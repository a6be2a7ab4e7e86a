import Oak.Codec.Preset

/-!
# Export presets

The parameters of an export are saved as a small XML document and loaded from it.

* `EncodingParams`: the parameters that a preset holds.
* `cstr`, `setCstr`: texts in buffers of bytes that end with a zero.
* `saveToString p`, `load wide p data`: the two directions.
* `Restores p q`: the fields of `p` that are written, without the custom range, are those of `q`.

## Main results

* `load_saveToString`: what is loaded from what is saved.
* `preset_roundTrips_iff`: for which texts the parser gives a tree or an error, and which presets
  come back.
-/

namespace Oak.Codec

open Oak.Lib Oak.Lib.Text

/-! ### The parameters -/

/-- `PixelFormat`. -/
inductive PixelFormat
  | invalid | u8 | u10 | u16 | f16 | f32
deriving DecidableEq

/-- `PixelFormat as i32`. -/
def PixelFormat.toInt : PixelFormat → ℤ
  | .invalid => -1
  | .u8 => 0
  | .u10 => 1
  | .u16 => 2
  | .f16 => 3
  | .f32 => 4

/-- The pixel format of a code. -/
def pixelFormatFromI32 (v : Int32) : PixelFormat :=
  match v.toInt with
  | -1 => .invalid
  | 0 => .u8
  | 1 => .u10
  | 2 => .u16
  | 3 => .f16
  | 4 => .f32
  | _ => .invalid

/-- `SampleFormat`. -/
inductive SampleFormat
  | invalid | u8Planar | s16Planar | s32Planar | s64Planar | f32Planar | f64Planar
  | u8 | s16 | s32 | s64 | f32 | f64
deriving DecidableEq

/-- `SampleFormat as i32`. -/
def SampleFormat.toInt : SampleFormat → ℤ
  | .invalid => -1
  | .u8Planar => 0
  | .s16Planar => 1
  | .s32Planar => 2
  | .s64Planar => 3
  | .f32Planar => 4
  | .f64Planar => 5
  | .u8 => 6
  | .s16 => 7
  | .s32 => 8
  | .s64 => 9
  | .f32 => 10
  | .f64 => 11

/-- `sample_format_from_i32`. -/
def sampleFormatFromI32 (v : Int32) : SampleFormat :=
  match v.toInt with
  | -1 => .invalid
  | 0 => .u8Planar
  | 1 => .s16Planar
  | 2 => .s32Planar
  | 3 => .s64Planar
  | 4 => .f32Planar
  | 5 => .f64Planar
  | 6 => .u8
  | 7 => .s16
  | 8 => .s32
  | 9 => .s64
  | 10 => .f32
  | 11 => .f64
  | _ => .invalid

/-- `VideoScalingMethod`. -/
inductive VideoScalingMethod
  | fit | stretch | crop
deriving DecidableEq

/-- `VideoScalingMethod as i32`. -/
def VideoScalingMethod.toInt : VideoScalingMethod → ℤ
  | .fit => 0
  | .stretch => 1
  | .crop => 2

/-- `scaling_from_i32`. -/
def scalingFromI32 (v : Int32) : VideoScalingMethod :=
  match v.toInt with
  | 0 => .fit
  | 1 => .stretch
  | 2 => .crop
  | _ => .stretch

/-- The fields of `EncodingParams` for video. -/
structure VideoPart where
  enabled : Int32
  codec : Int32
  width : Int32
  height : Int32
  timeBaseNum : Int32
  timeBaseDen : Int32
  pixelFormat : PixelFormat
  interlacing : Int32
  pixelAspectNum : Int32
  pixelAspectDen : Int32
  bitRate : Int64
  minBitRate : Int64
  maxBitRate : Int64
  bufferSize : Int64
  threads : Int32
  pixFmt : Vector UInt8 64
  isImageSequence : Int32
  scalingMethod : VideoScalingMethod

/-- The fields for audio. -/
structure AudioPart where
  enabled : Int32
  codec : Int32
  sampleRate : Int32
  channelLayout : UInt64
  sampleFormat : SampleFormat
  bitRate : Int64

/-- The fields for subtitles. -/
structure SubtitlesPart where
  enabled : Int32
  codec : Int32
  areSidecar : Int32
  sidecarFormat : Int32

/-- `EncodingParams`. -/
structure EncodingParams where
  filename : Vector UInt8 1024
  format : Int32
  video : VideoPart
  audio : AudioPart
  subtitles : SubtitlesPart
  hasCustomRange : Int32
  customRangeInNum : Int64
  customRangeInDen : Int64
  customRangeOutNum : Int64
  customRangeOutDen : Int64

/-! ### Texts and numbers -/

/-- `cstr`: the text before the first zero, empty if it is no text. -/
def cstr {n : ℕ} (arr : Vector UInt8 n) : Text :=
  match (arr.toList.takeWhile (· ≠ 0)).toByteArray.utf8Decode? with
  | some chars => chars.toList
  | none => []

/-- `set_cstr`: the bytes of a text as far as they fit, and zeros behind them. -/
def setCstr (n : ℕ) (s : Text) : Vector UInt8 n := .ofFn fun i => (bytes s).getD i 0

/-- `str::replace`; the number counts the characters that belong to an occurrence. -/
def replaceFrom (pat new : Text) : ℕ → Text → Text
  | _, [] => []
  | k + 1, _ :: s => replaceFrom pat new k s
  | 0, c :: s =>
    if pat.isPrefixOf (c :: s) then new ++ replaceFrom pat new (pat.length - 1) s
    else c :: replaceFrom pat new 0 s

/-- `str::replace`. -/
def replace (pat new s : Text) : Text := replaceFrom pat new 0 s

/-- `escape_xml`. -/
def escapeXml (s : Text) : Text :=
  replace ">".toList "&gt;".toList
    (replace "<".toList "&lt;".toList (replace "&".toList "&amp;".toList s))

/-- `unescape_xml`. -/
def unescapeXml (s : Text) : Text :=
  replace "&amp;".toList "&".toList
    (replace "&gt;".toList ">".toList (replace "&lt;".toList "<".toList s))

/-- `text`. -/
def text (el : El) : Text := unescapeXml (el.text.getD [])

/-- `parse_i32`. -/
def parseI32 (s : Text) : Int32 :=
  ((parseInt (trim s)).bind fun i =>
    if -2 ^ 31 ≤ i ∧ i < 2 ^ 31 then some (Int32.ofInt i) else none).getD 0

/-- `parse_i64`. -/
def parseI64 (s : Text) : Int64 :=
  ((parseInt (trim s)).bind fun i =>
    if -2 ^ 63 ≤ i ∧ i < 2 ^ 63 then some (Int64.ofInt i) else none).getD 0

/-- `parse_bool`. -/
def parseBool (s : Text) : Bool := parseI32 s ≠ 0

/-- `parse_bool` as an integer. -/
def parseFlag (s : Text) : Int32 := if parseBool s then 1 else 0

/-- `Display` for integers. -/
def display (i : ℤ) : Text := (toString i).toList

/-- Two integers with a slash between them. -/
def displayPair (i j : ℤ) : Text := display i ++ '/' :: display j

/-! ### Saving -/

/-- Elements of texts, one behind the other. -/
def writeFields (fields : List (Text × Text)) : Text := fields.flatMap fun f => element f.1 f.2

variable (p : EncodingParams)

/-- The elements that come first. -/
def fileFields : List (Text × Text) :=
  [("filename".toList, escapeXml (cstr p.filename)),
    ("format".toList, display p.format.toInt),
    ("range".toList, display p.hasCustomRange.toInt),
    ("customrangein".toList, displayPair p.customRangeInNum.toInt p.customRangeInDen.toInt),
    ("customrangeout".toList, displayPair p.customRangeOutNum.toInt p.customRangeOutDen.toInt)]

def videoFields (v : VideoPart) : List (Text × Text) :=
  [("codec".toList, display v.codec.toInt),
    ("width".toList, display v.width.toInt),
    ("height".toList, display v.height.toInt),
    ("format".toList, display v.pixelFormat.toInt),
    ("timebase".toList, displayPair v.timeBaseNum.toInt v.timeBaseDen.toInt),
    ("divider".toList, display v.interlacing.toInt),
    ("pixelaspect".toList, displayPair v.pixelAspectNum.toInt v.pixelAspectDen.toInt),
    ("bitrate".toList, display v.bitRate.toInt),
    ("minbitrate".toList, display v.minBitRate.toInt),
    ("maxbitrate".toList, display v.maxBitRate.toInt),
    ("bufsize".toList, display v.bufferSize.toInt),
    ("threads".toList, display v.threads.toInt),
    ("pixfmt".toList, escapeXml (cstr v.pixFmt)),
    ("imgseq".toList, display v.isImageSequence.toInt),
    ("vscale".toList, display v.scalingMethod.toInt)]

def audioFields (a : AudioPart) : List (Text × Text) :=
  [("codec".toList, display a.codec.toInt),
    ("samplerate".toList, display a.sampleRate.toInt),
    ("channellayout".toList, display a.channelLayout.toNat),
    ("format".toList, display a.sampleFormat.toInt),
    ("bitrate".toList, display a.bitRate.toInt)]

def subtitlesFields (s : SubtitlesPart) : List (Text × Text) :=
  [("sidecar".toList, display s.areSidecar.toInt),
    ("sidecarformat".toList, display s.sidecarFormat.toInt),
    ("codec".toList, display s.codec.toInt)]

variable (name : Text)

/-- A part with the elements in it if it is enabled. -/
def savePart (enabled : Int32) (fields : List (Text × Text)) : Text :=
  startTag name "enabled".toList (display enabled.toInt) ++
    (if enabled ≠ 0 then writeFields fields else []) ++ endTag name

/-- `EncodingParams::save_to_string`. -/
def saveToString : Text :=
  startTag "export".toList "version".toList "1".toList ++
    (writeFields (fileFields p) ++
      (savePart "video".toList p.video.enabled (videoFields p.video) ++
        (savePart "audio".toList p.audio.enabled (audioFields p.audio) ++
          savePart "subtitles".toList p.subtitles.enabled (subtitlesFields p.subtitles)))) ++
    endTag "export".toList

/-! ### Loading -/

/-- `Error::Failed`. -/
inductive LoadError
  | failed (message : Text)

/-- A field is set from the text of a child, if there is one. -/
def readChild {α : Type} (el : El) (name : Text) (set : Text → α → α) (a : α) : α :=
  match child el name with
  | some c => set (text c) a
  | none => a

/-- A field is set from an attribute, if there is one. -/
def readAttr {α : Type} (el : El) (name : Text) (set : Text → α → α) (a : α) : α :=
  match attr el name with
  | some value => set value a
  | none => a

/-- A part is loaded from a child, if there is one. -/
def readPart {α : Type} (el : El) (name : Text) (load : El → α → α) (a : α) : α :=
  match child el name with
  | some c => load c a
  | none => a

/-- Two fields are set from the numbers on both sides of a slash. -/
def setPair {α : Type} (set : Int32 → Int32 → α → α) (t : Text) (a : α) : α :=
  match splitOnce '/' t with
  | some (n, d) => set (parseI32 n) (parseI32 d) a
  | none => a

def loadVideo (el : El) (v : VideoPart) : VideoPart :=
  readAttr el "enabled".toList (fun t v => { v with enabled := parseFlag t }) v
  |> readChild el "codec".toList (fun t v => { v with codec := parseI32 t })
  |> readChild el "width".toList (fun t v => { v with width := parseI32 t })
  |> readChild el "height".toList (fun t v => { v with height := parseI32 t })
  |> readChild el "format".toList
      (fun t v => { v with pixelFormat := pixelFormatFromI32 (parseI32 t) })
  |> readChild el "timebase".toList
      (setPair fun n d v => { v with timeBaseNum := n, timeBaseDen := d })
  |> readChild el "divider".toList (fun t v => { v with interlacing := parseI32 t })
  |> readChild el "pixelaspect".toList
      (setPair fun n d v => { v with pixelAspectNum := n, pixelAspectDen := d })
  |> readChild el "bitrate".toList (fun t v => { v with bitRate := parseI64 t })
  |> readChild el "minbitrate".toList (fun t v => { v with minBitRate := parseI64 t })
  |> readChild el "maxbitrate".toList (fun t v => { v with maxBitRate := parseI64 t })
  |> readChild el "bufsize".toList (fun t v => { v with bufferSize := parseI64 t })
  |> readChild el "threads".toList (fun t v => { v with threads := parseI32 t })
  |> readChild el "pixfmt".toList (fun t v => { v with pixFmt := setCstr 64 t })
  |> readChild el "imgseq".toList (fun t v => { v with isImageSequence := parseFlag t })
  |> readChild el "vscale".toList
      (fun t v => { v with scalingMethod := scalingFromI32 (parseI32 t) })

def loadAudio (el : El) (a : AudioPart) : AudioPart :=
  readAttr el "enabled".toList (fun t a => { a with enabled := parseFlag t }) a
  |> readChild el "codec".toList (fun t a => { a with codec := parseI32 t })
  |> readChild el "samplerate".toList (fun t a => { a with sampleRate := parseI32 t })
  |> readChild el "channellayout".toList
      (fun t a => { a with channelLayout := (parseI64 t).toUInt64 })
  |> readChild el "format".toList
      (fun t a => { a with sampleFormat := sampleFormatFromI32 (parseI32 t) })
  |> readChild el "bitrate".toList (fun t a => { a with bitRate := parseI64 t })

def loadSubtitles (el : El) (s : SubtitlesPart) : SubtitlesPart :=
  readAttr el "enabled".toList (fun t s => { s with enabled := parseFlag t }) s
  |> readChild el "sidecar".toList (fun t s => { s with areSidecar := parseFlag t })
  |> readChild el "sidecarformat".toList (fun t s => { s with sidecarFormat := parseI32 t })
  |> readChild el "codec".toList (fun t s => { s with codec := parseI32 t })

/-- What is loaded from the root. The elements of the custom range are read, but not kept. -/
def loadRoot (root : El) (p : EncodingParams) : EncodingParams :=
  readChild root "filename".toList (fun t p => { p with filename := setCstr 1024 t }) p
  |> readChild root "format".toList (fun t p => { p with format := parseI32 t })
  |> readPart root "video".toList (fun el p => { p with video := loadVideo el p.video })
  |> readPart root "audio".toList (fun el p => { p with audio := loadAudio el p.audio })
  |> readPart root "subtitles".toList
      (fun el p => { p with subtitles := loadSubtitles el p.subtitles })

/-- The text of an error of the parser. -/
def message : Fault → Text
  | .failed t => t
  | .stuck => []

/-- `EncodingParams::load`. -/
def load (wide : Char → Bool) (p : EncodingParams) (data : Text) :
    Option (Except LoadError EncodingParams) :=
  match parsePreset wide data with
  | none => none
  | some (.error e) => some (.error (.failed ("invalid export preset: ".toList ++ message e)))
  | some (.ok root) =>
    if root.name = "export".toList then some (.ok (loadRoot root p))
    else some (.error (.failed "not an export preset document".toList))

/-! ### Round trips -/

/-- The fields that are written, without the custom range, are kept. -/
def Restores (p q : EncodingParams) : Prop :=
  q.filename = p.filename ∧ q.format = p.format ∧ q.video = p.video ∧ q.audio = p.audio ∧
    q.subtitles = p.subtitles

/-- Whatever is loaded into, the saved fields come back. -/
def RoundTrips (wide : Char → Bool) (p : EncodingParams) : Prop :=
  ∀ q, ∃ r, load wide q (saveToString p) = some (.ok r) ∧ Restores p r

/-- A text that fits a buffer. -/
def Fits (n : ℕ) (t : Text) : Prop := '\x00' ∉ t ∧ size t ≤ n

/-! ### Buffers -/

section Buffers

variable {n : ℕ} {t : Text}

theorem ne_zero_of_mem_bytes (h : '\x00' ∉ t) : ∀ b ∈ bytes t, b ≠ 0 := by
  intro b hb
  obtain ⟨c, hc, hb⟩ := List.mem_flatMap.1 hb
  cases hascii : isAscii c with
  | true =>
    rw [encode_of_isAscii hascii, List.mem_singleton] at hb
    rintro rfl
    have hzero : c.val.toNat = 0 := by rw [← toNat_of_isAscii hascii, ← hb]; rfl
    have hchar : c = '\x00' := Char.ext (UInt32.toNat_inj.1 hzero)
    exact h (hchar ▸ hc)
  | false =>
    rintro rfl
    exact absurd (le_of_mem_encode hascii _ hb) (by decide)

theorem toList_setCstr (h : size t ≤ n) :
    (setCstr n t).toList = bytes t ++ List.replicate (n - size t) 0 := by
  refine List.ext_getElem ?_ fun i hi hi' => ?_
  · rw [Vector.length_toList, List.length_append, List.length_replicate, ← size]
    omega
  · simp only [Vector.getElem_toList, setCstr, Vector.getElem_ofFn]
    by_cases hlt : i < (bytes t).length
    · rw [List.getElem_append_left hlt, List.getD_eq_getElem?_getD,
        List.getElem?_eq_getElem hlt, Option.getD_some]
    · rw [List.getElem_append_right (not_lt.1 hlt), List.getElem_replicate,
        List.getD_eq_getElem?_getD, List.getElem?_eq_none (not_lt.1 hlt), Option.getD_none]

theorem cstr_setCstr (h : Fits n t) : cstr (setCstr n t) = t := by
  have hbytes : ((setCstr n t).toList.takeWhile (· ≠ 0)) = bytes t := by
    have hall : ∀ b ∈ bytes t, decide (b ≠ 0) = true := fun b hb =>
      decide_eq_true (ne_zero_of_mem_bytes h.1 b hb)
    rw [toList_setCstr h.2, List.takeWhile_append_of_pos hall]
    cases n - size t with
    | zero => rw [List.replicate_zero, List.takeWhile_nil, List.append_nil]
    | succ k =>
      rw [List.replicate_succ, List.takeWhile_cons_of_neg (by decide), List.append_nil]
  have hdecode : (bytes t).toByteArray.utf8Decode? = some t.toArray := List.utf8Decode?_utf8Encode
  rw [cstr, hbytes, hdecode]

theorem Fits.dropWhile (h : Fits n t) (p : Char → Bool) : Fits n (t.dropWhile p) := by
  have hsplit := t.takeWhile_append_dropWhile (p := p)
  have hsize : size t = size (t.takeWhile p) + size (t.dropWhile p) := by
    rw [← size_append, hsplit]
  exact ⟨fun hmem => h.1 ((List.dropWhile_sublist p).subset hmem), by have := h.2; omega⟩

end Buffers

/-! ### Escapes -/

section Escapes

variable {pat new s t : Text} {c d : Char} {k : ℕ}

theorem replaceFrom_skip (mid t : Text) :
    replaceFrom pat new mid.length (mid ++ t) = replaceFrom pat new 0 t := by
  induction mid with
  | nil => rfl
  | cons c mid ih => rw [List.length_cons, List.cons_append, replaceFrom, ih]

theorem replace_append (hpat : pat ≠ []) (t : Text) :
    replace pat new (pat ++ t) = new ++ replace pat new t := by
  obtain ⟨c, rest, rfl⟩ := List.exists_cons_of_ne_nil hpat
  have hpre : (c :: rest).isPrefixOf (c :: (rest ++ t)) = true :=
    List.isPrefixOf_iff_prefix.2 (List.prefix_append (c :: rest) t)
  rw [replace, List.cons_append, replaceFrom, if_pos hpre, List.length_cons, Nat.add_sub_cancel,
    replaceFrom_skip, replace]

theorem replace_cons (h : ¬ pat <+: c :: t) :
    replace pat new (c :: t) = c :: replace pat new t := by
  rw [replace, replaceFrom, if_neg (mt List.isPrefixOf_iff_prefix.1 h), replace]

theorem replace_cons_of_ne (hne : c ≠ d) (t : Text) :
    replace (d :: pat) new (c :: t) = c :: replace (d :: pat) new t :=
  replace_cons fun h => hne (List.cons_prefix_cons.1 h).1.symm

theorem replace_singleton (a : Char) (s : Text) :
    replace [a] new s = s.flatMap fun c => if c = a then new else [c] := by
  induction s with
  | nil => rfl
  | cons c s ih =>
    rw [List.flatMap_cons, ← ih]
    by_cases hc : c = a
    · rw [if_pos hc, hc]
      exact replace_append (List.cons_ne_nil a []) s
    · rw [if_neg hc, replace_cons_of_ne hc]
      rfl

/-- The escape of a character. -/
def escapeChar (c : Char) : Text :=
  if c = '&' then ['&', 'a', 'm', 'p', ';']
  else if c = '<' then ['&', 'l', 't', ';']
  else if c = '>' then ['&', 'g', 't', ';']
  else [c]

theorem escapeXml_eq (s : Text) : escapeXml s = s.flatMap escapeChar := by
  have hamp : "&".toList = ['&'] ∧ "&amp;".toList = ['&', 'a', 'm', 'p', ';'] := by decide
  have hlt : "<".toList = ['<'] ∧ "&lt;".toList = ['&', 'l', 't', ';'] := by decide
  have hgt : ">".toList = ['>'] ∧ "&gt;".toList = ['&', 'g', 't', ';'] := by decide
  rw [escapeXml, hamp.1, hamp.2, hlt.1, hlt.2, hgt.1, hgt.2, replace_singleton, replace_singleton,
    replace_singleton, List.flatMap_assoc, List.flatMap_assoc]
  congr 1
  funext c
  rw [escapeChar]
  split_ifs with h₁ h₂ h₃
  · rfl
  · rw [h₂]; rfl
  · rw [h₃]; rfl
  · simp only [List.flatMap_cons, List.flatMap_nil, if_neg h₂, if_neg h₃, List.append_nil]

/-- The escape of a character when some of the escapes are gone. -/
def escapeOf (special : List Char) (c : Char) : Text := if c ∈ special then escapeChar c else [c]

theorem replace_append_of_notMem (h : d ∉ s) (t : Text) :
    replace (d :: pat) new (s ++ t) = s ++ replace (d :: pat) new t := by
  induction s with
  | nil => rfl
  | cons c s ih =>
    obtain ⟨hd, hs⟩ := not_or.1 (mt List.mem_cons.2 h)
    rw [List.cons_append, replace_cons_of_ne (Ne.symm hd), ih hs, List.cons_append]

theorem replace_flatMap_escapeOf {special : List Char} {a e : Char} {word : Text}
    (ha : escapeChar a = '&' :: e :: word) (hnot : a ∉ special) (hamp : '&' ∈ a :: special)
    (hwords : ∀ b ∈ special, ∃ f v, escapeChar b = '&' :: f :: v ∧ e ≠ f ∧ '&' ∉ f :: v)
    (s : Text) : replace ('&' :: e :: word) [a] (s.flatMap (escapeOf (a :: special))) =
      s.flatMap (escapeOf special) := by
  induction s with
  | nil => rfl
  | cons c s ih =>
    rw [List.flatMap_cons, List.flatMap_cons, ← ih]
    by_cases hc : c = a
    · subst hc
      rw [escapeOf, if_pos List.mem_cons_self, ha, replace_append (List.cons_ne_nil _ _), escapeOf,
        if_neg hnot]
    by_cases hmem : c ∈ special
    · obtain ⟨f, v, hf, hne, hv⟩ := hwords c hmem
      have hpre (t : Text) : ¬ '&' :: e :: word <+: '&' :: (f :: v ++ t) := fun h =>
        hne (List.cons_prefix_cons.1 (List.cons_prefix_cons.1 h).2).1
      rw [escapeOf, if_pos (List.mem_cons_of_mem a hmem), escapeOf, if_pos hmem, hf,
        List.cons_append, replace_cons (hpre _), replace_append_of_notMem hv]
      rfl
    · have hall : c ∉ a :: special := fun h => (List.mem_cons.1 h).elim hc hmem
      have hne : c ≠ '&' := fun heq => hall (heq ▸ hamp)
      rw [escapeOf, if_neg hall, escapeOf, if_neg hmem]
      exact replace_cons_of_ne hne _

theorem unescapeXml_escapeXml (s : Text) : unescapeXml (escapeXml s) = s := by
  have hamp : "&".toList = ['&'] ∧ "&amp;".toList = ['&', 'a', 'm', 'p', ';'] := by decide
  have hlt : "<".toList = ['<'] ∧ "&lt;".toList = ['&', 'l', 't', ';'] := by decide
  have hgt : ">".toList = ['>'] ∧ "&gt;".toList = ['&', 'g', 't', ';'] := by decide
  have hall : escapeChar = escapeOf ['<', '>', '&'] := by
    funext c
    rw [escapeOf]
    split_ifs with hc
    · rfl
    · simp only [List.mem_cons, List.not_mem_nil, or_false, not_or] at hc
      rw [escapeChar, if_neg hc.2.2, if_neg hc.1, if_neg hc.2.1]
  have hnone : escapeOf [] = fun c => [c] := rfl
  have hword₁ : ∀ b ∈ ['>', '&'], ∃ f v, escapeChar b = '&' :: f :: v ∧ 'l' ≠ f ∧
      '&' ∉ f :: v := by
    rw [List.forall_mem_cons, List.forall_mem_singleton]
    exact ⟨⟨'g', ['t', ';'], by decide⟩, 'a', ['m', 'p', ';'], by decide⟩
  have hword₂ : ∀ b ∈ ['&'], ∃ f v, escapeChar b = '&' :: f :: v ∧ 'g' ≠ f ∧ '&' ∉ f :: v := by
    rw [List.forall_mem_singleton]
    exact ⟨'a', ['m', 'p', ';'], by decide⟩
  have hword₃ : ∀ b ∈ ([] : List Char), ∃ f v, escapeChar b = '&' :: f :: v ∧ 'a' ≠ f ∧
      '&' ∉ f :: v := by simp
  rw [escapeXml_eq, unescapeXml, hamp.1, hamp.2, hlt.1, hlt.2, hgt.1, hgt.2, hall,
    replace_flatMap_escapeOf (by decide) (by decide) (by decide) hword₁,
    replace_flatMap_escapeOf (by decide) (by decide) (by decide) hword₂,
    replace_flatMap_escapeOf (by decide) (by decide) (by decide) hword₃, hnone]
  exact List.flatMap_singleton' s

theorem unescapeXml_of_notMem (h : '&' ∉ s) : unescapeXml s = s := by
  have hkeep (word new : Text) : replace ('&' :: word) new s = s := by
    have happend : replace ('&' :: word) new (s ++ []) = _ := replace_append_of_notMem h []
    have hnil : replace ('&' :: word) new [] = [] := rfl
    rwa [hnil, List.append_nil] at happend
  have hwords : "&lt;".toList = '&' :: ['l', 't', ';'] ∧ "&gt;".toList = '&' :: ['g', 't', ';'] ∧
      "&amp;".toList = '&' :: ['a', 'm', 'p', ';'] := by decide
  rw [unescapeXml, hwords.1, hwords.2.1, hwords.2.2, hkeep, hkeep, hkeep]

theorem escapeChar_cases (c : Char) :
    escapeChar c = [c] ∨ isWhitespace c = false ∧ isAscii c = true ∧
      ∃ word, escapeChar c = '&' :: word ∧ '<' ∉ word ∧ ∀ d ∈ word, isAscii d = true := by
  rw [escapeChar]
  split_ifs with h₁ h₂ h₃
  · exact .inr ⟨h₁ ▸ by decide, h₁ ▸ by decide, _, rfl, by decide, by decide⟩
  · exact .inr ⟨h₂ ▸ by decide, h₂ ▸ by decide, _, rfl, by decide, by decide⟩
  · exact .inr ⟨h₃ ▸ by decide, h₃ ▸ by decide, _, rfl, by decide, by decide⟩
  · exact .inl rfl

theorem notMem_escapeXml (s : Text) : '<' ∉ escapeXml s := by
  rw [escapeXml_eq, List.mem_flatMap]
  rintro ⟨c, -, hc⟩
  rcases escapeChar_cases c with heq | ⟨-, -, word, heq, hword, -⟩
  · rw [heq, List.mem_singleton] at hc
    subst hc
    exact absurd heq (by decide)
  · rw [heq] at hc
    exact (List.mem_cons.1 hc).elim (by decide) hword

theorem forall_isAscii_escapeXml :
    (∀ c ∈ escapeXml s, isAscii c = true) ↔ ∀ c ∈ s, isAscii c = true := by
  rw [escapeXml_eq]
  induction s with
  | nil => exact Iff.rfl
  | cons c s ih =>
    rw [List.flatMap_cons, List.forall_mem_append, ih, List.forall_mem_cons]
    refine and_congr_left fun _ => ?_
    rcases escapeChar_cases c with heq | ⟨-, hc, word, heq, -, hword⟩
    · rw [heq, List.forall_mem_singleton]
    · rw [heq, List.forall_mem_cons]
      exact iff_of_true ⟨by decide, hword⟩ hc

theorem dropWhile_escapeXml (s : Text) :
    (escapeXml s).dropWhile isWhitespace = escapeXml (s.dropWhile isWhitespace) := by
  rw [escapeXml_eq, escapeXml_eq]
  induction s with
  | nil => rfl
  | cons c s ih =>
    rw [List.flatMap_cons]
    rcases escapeChar_cases c with heq | ⟨hc, -, word, heq, -, -⟩
    · rw [heq, List.singleton_append]
      cases hc : isWhitespace c with
      | true => rw [List.dropWhile_cons_of_pos hc, List.dropWhile_cons_of_pos hc, ih]
      | false =>
        rw [List.dropWhile_cons_of_neg (by rw [hc]; decide),
          List.dropWhile_cons_of_neg (by rw [hc]; decide), List.flatMap_cons, heq]
        rfl
    · rw [List.dropWhile_cons_of_neg (by rw [hc]; decide), List.flatMap_cons, heq, List.cons_append,
        List.dropWhile_cons_of_neg (by decide)]

theorem text_escapeXml (name s : Text) :
    text ⟨name, [], leafText (escapeXml s), []⟩ = s.dropWhile isWhitespace := by
  rw [text, leafText, dropWhile_escapeXml]
  split_ifs with hnil
  · rw [Option.getD_none, ← hnil, unescapeXml_escapeXml]
  · rw [Option.getD_some, unescapeXml_escapeXml]

theorem text_plain (h : '&' ∉ s) (hspace : ∀ c ∈ s, isWhitespace c = false) (name : Text) :
    text ⟨name, [], leafText s, []⟩ = s := by
  have hdrop : s.dropWhile isWhitespace = s := by
    cases s with
    | nil => rfl
    | cons c s =>
      exact List.dropWhile_cons_of_neg (by rw [hspace c List.mem_cons_self]; decide)
  rw [text, leafText, hdrop]
  split_ifs with hnil
  · rw [hnil, Option.getD_none]
    rfl
  · rw [Option.getD_some, unescapeXml_of_notMem h]

end Escapes

/-! ### Numbers -/

section Numbers

/-- The characters of numbers. -/
def IsPlain (t : Text) : Prop :=
  ∀ c ∈ t, c ∉ ['&', '<', '"'] ∧ isWhitespace c = false ∧ isAscii c = true

theorem isAscii_of_isDigit {c : Char} (h : c.isDigit = true) : isAscii c = true := by
  have hc : 48 ≤ c.toNat ∧ c.toNat ≤ 57 := by
    simpa [Char.isDigit, UInt32.le_iff_toNat_le] using h
  have hle : c.val.toNat ≤ 127 := hc.2.trans (by decide)
  exact decide_eq_true (UInt32.le_iff_toNat_le.2 hle)

theorem isPlain_display (i : ℤ) : IsPlain (display i) := by
  intro c hc
  rcases of_mem_toString_int hc with rfl | hdigit
  · decide
  · refine ⟨?_, isWhitespace_of_isDigit hdigit, isAscii_of_isDigit hdigit⟩
    have hmarks : ∀ d ∈ ['&', '<', '"'], d.isDigit = false := by decide
    exact fun hmem => Bool.false_ne_true ((hmarks c hmem).symm.trans hdigit)

theorem isPlain_displayPair (i j : ℤ) : IsPlain (displayPair i j) := by
  intro c hc
  rcases List.mem_append.1 hc with hc | hc
  · exact isPlain_display i c hc
  · rcases List.mem_cons.1 hc with rfl | hc
    · decide
    · exact isPlain_display j c hc

theorem slash_notMem_display (i : ℤ) : '/' ∉ display i := by
  intro hc
  rcases of_mem_toString_int hc with h | h <;> exact absurd h (by decide)

theorem parseI32_display_eq {i : ℤ} (h : -2 ^ 31 ≤ i ∧ i < 2 ^ 31) :
    parseI32 (display i) = Int32.ofInt i := by
  have htrim : trim (display i) = display i :=
    trim_of_forall fun c hc => (isPlain_display _ c hc).2.1
  rw [parseI32, htrim, display, parseInt_toString, Option.bind_some, if_pos h, Option.getD_some]

theorem parseI32_display (n : Int32) : parseI32 (display n.toInt) = n := by
  rw [parseI32_display_eq ⟨n.le_toInt, n.toInt_lt⟩, Int32.ofInt_toInt]

theorem parseI64_display (n : Int64) : parseI64 (display n.toInt) = n := by
  have htrim : trim (display n.toInt) = display n.toInt :=
    trim_of_forall fun c hc => (isPlain_display _ c hc).2.1
  have hrange : -2 ^ 63 ≤ n.toInt ∧ n.toInt < 2 ^ 63 := ⟨n.le_toInt, n.toInt_lt⟩
  rw [parseI64, htrim, display, parseInt_toString, Option.bind_some, if_pos hrange,
    Option.getD_some, Int64.ofInt_toInt]

/-- A channel layout comes back if it fits the signed type. -/
theorem toUInt64_parseI64_display_iff (n : UInt64) :
    (parseI64 (display n.toNat)).toUInt64 = n ↔ n.toNat < 2 ^ 63 := by
  have htrim : trim (display n.toNat) = display n.toNat :=
    trim_of_forall fun c hc => (isPlain_display _ c hc).2.1
  rw [parseI64, htrim, display, parseInt_toString, Option.bind_some]
  by_cases hn : n.toNat < 2 ^ 63
  · rw [if_pos ⟨by omega, by omega⟩, Option.getD_some, iff_true_right hn, ← UInt64.toNat_inj,
      ← Int64.toNat_toBitVec, Int64.toBitVec_ofInt, BitVec.ofInt_natCast, BitVec.toNat_ofNat]
    exact Nat.mod_eq_of_lt n.toNat_lt
  · rw [if_neg (by omega), Option.getD_none]
    refine iff_of_false (fun h => hn ?_) hn
    rw [← h]
    decide

theorem pixelFormatFromI32_display (f : PixelFormat) :
    pixelFormatFromI32 (parseI32 (display f.toInt)) = f := by
  rw [parseI32_display_eq (by cases f <;> decide)]
  cases f <;> rfl

theorem sampleFormatFromI32_display (f : SampleFormat) :
    sampleFormatFromI32 (parseI32 (display f.toInt)) = f := by
  rw [parseI32_display_eq (by cases f <;> decide)]
  cases f <;> rfl

theorem scalingFromI32_display (m : VideoScalingMethod) :
    scalingFromI32 (parseI32 (display m.toInt)) = m := by
  rw [parseI32_display_eq (by cases m <;> decide)]
  cases m <;> rfl

theorem setPair_displayPair {α : Type} (set : Int32 → Int32 → α → α) (n d : Int32) (a : α) :
    setPair set (displayPair n.toInt d.toInt) a = set n d a := by
  rw [setPair, displayPair, splitOnce_append (slash_notMem_display _)]
  dsimp only
  rw [parseI32_display, parseI32_display]

theorem parseFlag_display_iff (n : Int32) : parseFlag (display n.toInt) = n ↔ n = 0 ∨ n = 1 := by
  rw [parseFlag, parseBool, parseI32_display]
  by_cases hn : n = 0
  · subst hn
    decide
  · rw [if_pos (decide_eq_true hn)]
    exact ⟨fun h => .inr h.symm, fun h => (h.resolve_left hn).symm⟩

end Numbers

/-! ### The document -/

section Document

variable {wide : Char → Bool} {el : El} {fields : List (Text × Text)}

/-- The element of a field. -/
def leafEl (f : Text × Text) : El := ⟨f.1, [], leafText f.2, []⟩

/-- A field that can be written. -/
def IsField (f : Text × Text) : Prop := IsName f.1 ∧ '<' ∉ f.2

theorem IsPlain.notMem {t : Text} (h : IsPlain t) :
    '<' ∉ t ∧ '&' ∉ t ∧ '"' ∉ t :=
  ⟨fun hc => (h _ hc).1 (by decide), fun hc => (h _ hc).1 (by decide),
    fun hc => (h _ hc).1 (by decide)⟩

theorem IsPlain.isField {name t : Text} (h : IsPlain t) (hname : IsName name) :
    IsField (name, t) := ⟨hname, h.notMem.1⟩

theorem IsPlain.text {t : Text} (h : IsPlain t) (name : Text) : text (leafEl (name, t)) = t :=
  text_plain h.notMem.2.1 (fun c hc => (h c hc).2.1) name

theorem isField_escapeXml {name : Text} (hname : IsName name) (t : Text) :
    IsField (name, escapeXml t) := ⟨hname, notMem_escapeXml t⟩

/-- The texts of some fields. -/
def fieldPieces (wide : Char → Bool) (fields : List (Text × Text))
    (h : ∀ f ∈ fields, IsField f) : List (Piece wide) :=
  fields.pmap (fun f hf => leaf wide f.1 hf.1 f.2 hf.2) h

variable (h : ∀ f ∈ fields, IsField f)

theorem flatMap_text_fieldPieces (wide : Char → Bool) :
    (fieldPieces wide fields h).flatMap Piece.text = writeFields fields := by
  induction fields with
  | nil => rfl
  | cons f fields ih =>
    rw [fieldPieces, List.pmap_cons, List.flatMap_cons, writeFields, List.flatMap_cons]
    exact congrArg _ (ih fun g hg => h g (List.mem_cons_of_mem f hg))

theorem map_el_fieldPieces (wide : Char → Bool) :
    (fieldPieces wide fields h).map Piece.el = fields.map leafEl := by
  induction fields with
  | nil => rfl
  | cons f fields ih =>
    rw [fieldPieces, List.pmap_cons, List.map_cons, List.map_cons]
    exact congrArg _ (ih fun g hg => h g (List.mem_cons_of_mem f hg))

theorem flatMap_passed_fieldPieces :
    (fieldPieces wide fields h).flatMap Piece.passed = fields.flatMap Prod.snd := by
  induction fields with
  | nil => rfl
  | cons f fields ih =>
    rw [fieldPieces, List.pmap_cons, List.flatMap_cons, List.flatMap_cons]
    exact congrArg _ (ih fun g hg => h g (List.mem_cons_of_mem f hg))

/-- A part that is enabled. -/
def partPiece (wide : Char → Bool) (name : Text) (hname : IsName name) (enabled : Int32)
    (fields : List (Text × Text)) (h : ∀ f ∈ fields, IsField f) : Piece wide :=
  parent wide name "enabled".toList (display enabled.toInt) hname (by decide)
    (isPlain_display _).notMem.2.2 (fieldPieces wide fields h)

/-- The element of such a part. -/
def partEl (name : Text) (enabled : Int32) (fields : List (Text × Text)) : El :=
  ⟨name, [("enabled".toList, display enabled.toInt)], none, fields.map leafEl⟩

theorem el_partPiece {name : Text} (hname : IsName name) (enabled : Int32)
    (h : ∀ f ∈ fields, IsField f) :
    (partPiece wide name hname enabled fields h).el = partEl name enabled fields := by
  rw [partEl, ← map_el_fieldPieces h wide]
  rfl

theorem text_partPiece (wide : Char → Bool) {name : Text} (hname : IsName name) {enabled : Int32}
    (hne : enabled ≠ 0) (h : ∀ f ∈ fields, IsField f) :
    (partPiece wide name hname enabled fields h).text = savePart name enabled fields := by
  rw [savePart, if_pos hne, ← flatMap_text_fieldPieces h wide]
  rfl

theorem isField_fileFields : ∀ f ∈ fileFields p, IsField f := by
  simp only [fileFields, List.forall_mem_cons, List.not_mem_nil, false_imp_iff, implies_true,
    and_true]
  exact ⟨isField_escapeXml (by decide) _, (isPlain_display _).isField (by decide),
    (isPlain_display _).isField (by decide), (isPlain_displayPair _ _).isField (by decide),
    (isPlain_displayPair _ _).isField (by decide)⟩

theorem isField_videoFields (v : VideoPart) : ∀ f ∈ videoFields v, IsField f := by
  simp only [videoFields, List.forall_mem_cons, List.not_mem_nil, false_imp_iff, implies_true,
    and_true]
  have hnum {name : Text} (hname : IsName name) (i : ℤ) : IsField (name, display i) :=
    (isPlain_display i).isField hname
  have hpair {name : Text} (hname : IsName name) (i j : ℤ) : IsField (name, displayPair i j) :=
    (isPlain_displayPair i j).isField hname
  exact ⟨hnum (by decide) _, hnum (by decide) _, hnum (by decide) _, hnum (by decide) _,
    hpair (by decide) _ _, hnum (by decide) _, hpair (by decide) _ _, hnum (by decide) _,
    hnum (by decide) _, hnum (by decide) _, hnum (by decide) _, hnum (by decide) _,
    isField_escapeXml (by decide) _, hnum (by decide) _, hnum (by decide) _⟩

theorem isField_audioFields (a : AudioPart) : ∀ f ∈ audioFields a, IsField f := by
  simp only [audioFields, List.forall_mem_cons, List.not_mem_nil, false_imp_iff, implies_true,
    and_true]
  have hnum {name : Text} (hname : IsName name) (i : ℤ) : IsField (name, display i) :=
    (isPlain_display i).isField hname
  exact ⟨hnum (by decide) _, hnum (by decide) _, hnum (by decide) _, hnum (by decide) _,
    hnum (by decide) _⟩

theorem isField_subtitlesFields (s : SubtitlesPart) : ∀ f ∈ subtitlesFields s, IsField f := by
  simp only [subtitlesFields, List.forall_mem_cons, List.not_mem_nil, false_imp_iff, implies_true,
    and_true]
  have hnum {name : Text} (hname : IsName name) (i : ℤ) : IsField (name, display i) :=
    (isPlain_display i).isField hname
  exact ⟨hnum (by decide) _, hnum (by decide) _, hnum (by decide) _⟩

/-- The whole document when all parts are enabled. -/
def document (wide : Char → Bool) (p : EncodingParams) : Piece wide :=
  parent wide "export".toList "version".toList "1".toList (by decide) (by decide) (by decide)
    (fieldPieces wide (fileFields p) (isField_fileFields p) ++
      [partPiece wide "video".toList (by decide) p.video.enabled (videoFields p.video)
          (isField_videoFields p.video),
        partPiece wide "audio".toList (by decide) p.audio.enabled (audioFields p.audio)
          (isField_audioFields p.audio),
        partPiece wide "subtitles".toList (by decide) p.subtitles.enabled
          (subtitlesFields p.subtitles) (isField_subtitlesFields p.subtitles)])

theorem text_document (wide : Char → Bool) {p : EncodingParams} (hvideo : p.video.enabled ≠ 0)
    (haudio : p.audio.enabled ≠ 0) (hsubtitles : p.subtitles.enabled ≠ 0) :
    (document wide p).text = saveToString p := by
  rw [saveToString, ← text_partPiece wide (by decide) hvideo (isField_videoFields _),
    ← text_partPiece wide (by decide) haudio (isField_audioFields _),
    ← text_partPiece wide (by decide) hsubtitles (isField_subtitlesFields _),
    ← flatMap_text_fieldPieces (isField_fileFields p) wide]
  rw [document, parent]
  simp only [List.flatMap_append, List.flatMap_cons, List.flatMap_nil, List.append_nil]

theorem forall_isAscii_passed (wide : Char → Bool) (p : EncodingParams) :
    (∀ c ∈ (document wide p).passed, isAscii c = true) ↔
      (∀ c ∈ cstr p.filename, isAscii c = true) ∧ ∀ c ∈ cstr p.video.pixFmt, isAscii c = true := by
  have hplain {t : Text} (h : IsPlain t) : (∀ c ∈ t, isAscii c = true) ↔ True :=
    iff_true_intro fun c hc => (h c hc).2.2
  have hnum (i : ℤ) := hplain (isPlain_display i)
  have hpair (i j : ℤ) := hplain (isPlain_displayPair i j)
  have hpassed : (document wide p).passed = ' ' :: "1".toList ++
      ((fileFields p).flatMap Prod.snd ++
        ((' ' :: display p.video.enabled.toInt ++ (videoFields p.video).flatMap Prod.snd) ++
          ((' ' :: display p.audio.enabled.toInt ++ (audioFields p.audio).flatMap Prod.snd) ++
            (' ' :: display p.subtitles.enabled.toInt ++
              (subtitlesFields p.subtitles).flatMap Prod.snd)))) := by
    rw [document, parent]
    simp only [List.flatMap_append, List.flatMap_cons, List.flatMap_nil, List.append_nil,
      partPiece, parent, flatMap_passed_fieldPieces]
  have hone : (∀ c ∈ "1".toList, isAscii c = true) ↔ True := iff_true_intro (by decide)
  have hspace : isAscii ' ' = true := by decide
  rw [hpassed]
  simp only [fileFields, videoFields, audioFields, subtitlesFields, List.flatMap_cons,
    List.flatMap_nil, List.append_nil, List.cons_append, List.forall_mem_cons,
    List.forall_mem_append, forall_isAscii_escapeXml, hnum, hpair, hone, hspace, true_and, and_true]

theorem child_of_getElem? {k : ℕ} {c : El} (hnodup : (el.children.map El.name).Nodup)
    (hk : el.children[k]? = some c) : child el c.name = some c := by
  rw [child]
  generalize el.children = l at hnodup hk
  induction l generalizing k with
  | nil => cases hk
  | cons d l ih =>
    rw [List.map_cons, List.nodup_cons] at hnodup
    cases k with
    | zero =>
      obtain rfl := Option.some.inj hk
      exact List.find?_cons_of_pos (decide_eq_true rfl)
    | succ k =>
      rw [List.getElem?_cons_succ] at hk
      have hne : d.name ≠ c.name := fun heq =>
        hnodup.1 (heq ▸ List.mem_map_of_mem (List.mem_of_getElem? hk))
      rw [List.find?_cons_of_neg (by rw [decide_eq_false hne]; decide), ih hnodup.2 hk]

theorem readChild_field {α : Type} {k : ℕ} {name t : Text}
    (hchildren : el.children = fields.map leafEl) (hnodup : (fields.map Prod.fst).Nodup)
    (hk : fields[k]? = some (name, t)) (set : Text → α → α) (a : α) :
    readChild el name set a = set (text (leafEl (name, t))) a := by
  have hnames : (el.children.map El.name).Nodup := by
    rw [hchildren, List.map_map]
    exact hnodup
  have hget : el.children[k]? = some (leafEl (name, t)) := by
    rw [hchildren, List.getElem?_map, hk, Option.map_some]
  have hchild : child el name = some (leafEl (name, t)) := child_of_getElem? hnames hget
  rw [readChild, hchild]

theorem readAttr_eq {α : Type} {name value : Text} (hattrs : el.attrs = [(name, value)])
    (set : Text → α → α) (a : α) : readAttr el name set a = set value a := by
  rw [readAttr, attr, hattrs, List.lookup_cons_self]

theorem text_num (i : ℤ) : text (leafEl (name, display i)) = display i :=
  (isPlain_display i).text name

theorem text_pair (i j : ℤ) :
    text (leafEl (name, displayPair i j)) = displayPair i j := (isPlain_displayPair i j).text name

theorem text_escape (name t : Text) :
    text (leafEl (name, escapeXml t)) = t.dropWhile isWhitespace := text_escapeXml name t

theorem loadVideo_field (v w : VideoPart)
    (hattrs : el.attrs = [("enabled".toList, display v.enabled.toInt)])
    (hchildren : el.children = (videoFields v).map leafEl) :
    loadVideo el w = { v with
      enabled := parseFlag (display v.enabled.toInt)
      pixFmt := setCstr 64 ((cstr v.pixFmt).dropWhile isWhitespace)
      isImageSequence := parseFlag (display v.isImageSequence.toInt) } := by
  have hnames : ((videoFields v).map Prod.fst).Nodup := by
    have hlist : ["codec".toList, "width".toList, "height".toList, "format".toList,
        "timebase".toList, "divider".toList, "pixelaspect".toList, "bitrate".toList,
        "minbitrate".toList, "maxbitrate".toList, "bufsize".toList, "threads".toList,
        "pixfmt".toList, "imgseq".toList, "vscale".toList].Nodup := by decide
    exact hlist
  have hfield {k : ℕ} {name t : Text} (hk : (videoFields v)[k]? = some (name, t))
      (set : Text → VideoPart → VideoPart) (w : VideoPart) :
      readChild el name set w = set (text (leafEl (name, t))) w :=
    readChild_field hchildren hnames hk set w
  rw [loadVideo, readAttr_eq hattrs, hfield (k := 0) rfl, hfield (k := 1) rfl, hfield (k := 2) rfl,
    hfield (k := 3) rfl, hfield (k := 4) rfl, hfield (k := 5) rfl, hfield (k := 6) rfl,
    hfield (k := 7) rfl, hfield (k := 8) rfl, hfield (k := 9) rfl, hfield (k := 10) rfl,
    hfield (k := 11) rfl, hfield (k := 12) rfl, hfield (k := 13) rfl, hfield (k := 14) rfl]
  simp only [text_num, text_pair, text_escape, setPair_displayPair, parseI32_display,
    parseI64_display, pixelFormatFromI32_display, scalingFromI32_display]

theorem loadAudio_field (a b : AudioPart)
    (hattrs : el.attrs = [("enabled".toList, display a.enabled.toInt)])
    (hchildren : el.children = (audioFields a).map leafEl) :
    loadAudio el b = { a with
      enabled := parseFlag (display a.enabled.toInt)
      channelLayout := (parseI64 (display a.channelLayout.toNat)).toUInt64 } := by
  have hnames : ((audioFields a).map Prod.fst).Nodup := by
    have hlist : ["codec".toList, "samplerate".toList, "channellayout".toList, "format".toList,
        "bitrate".toList].Nodup := by decide
    exact hlist
  have hfield {k : ℕ} {name t : Text} (hk : (audioFields a)[k]? = some (name, t))
      (set : Text → AudioPart → AudioPart) (b : AudioPart) :
      readChild el name set b = set (text (leafEl (name, t))) b :=
    readChild_field hchildren hnames hk set b
  rw [loadAudio, readAttr_eq hattrs, hfield (k := 0) rfl, hfield (k := 1) rfl, hfield (k := 2) rfl,
    hfield (k := 3) rfl, hfield (k := 4) rfl]
  simp only [text_num, parseI32_display, parseI64_display, sampleFormatFromI32_display]

theorem loadSubtitles_field (s r : SubtitlesPart)
    (hattrs : el.attrs = [("enabled".toList, display s.enabled.toInt)])
    (hchildren : el.children = (subtitlesFields s).map leafEl) :
    loadSubtitles el r = { s with
      enabled := parseFlag (display s.enabled.toInt)
      areSidecar := parseFlag (display s.areSidecar.toInt) } := by
  have hnames : ((subtitlesFields s).map Prod.fst).Nodup := by
    have hlist : ["sidecar".toList, "sidecarformat".toList, "codec".toList].Nodup := by decide
    exact hlist
  have hfield {k : ℕ} {name t : Text} (hk : (subtitlesFields s)[k]? = some (name, t))
      (set : Text → SubtitlesPart → SubtitlesPart) (r : SubtitlesPart) :
      readChild el name set r = set (text (leafEl (name, t))) r :=
    readChild_field hchildren hnames hk set r
  rw [loadSubtitles, readAttr_eq hattrs, hfield (k := 0) rfl, hfield (k := 1) rfl,
    hfield (k := 2) rfl]
  simp only [text_num, parseI32_display]

/-- What is loaded from an element with the fields of a file and the three parts. -/
theorem loadRoot_eq {root video audio subtitles : El} (p q : EncodingParams)
    (hchildren : root.children = (fileFields p).map leafEl ++ [video, audio, subtitles])
    (hvideo : video.name = "video".toList) (haudio : audio.name = "audio".toList)
    (hsubtitles : subtitles.name = "subtitles".toList) :
    loadRoot root q = { q with
      filename := setCstr 1024 ((cstr p.filename).dropWhile isWhitespace)
      format := p.format
      video := loadVideo video q.video
      audio := loadAudio audio q.audio
      subtitles := loadSubtitles subtitles q.subtitles } := by
  have hnames : (root.children.map El.name).Nodup := by
    have hlist : ["filename".toList, "format".toList, "range".toList, "customrangein".toList,
        "customrangeout".toList, "video".toList, "audio".toList, "subtitles".toList].Nodup := by
      decide
    rw [hchildren, List.map_append, List.map_cons, List.map_cons, List.map_cons, hvideo, haudio,
      hsubtitles]
    exact hlist
  have hchild {k : ℕ} {c : El}
      (hk : ((fileFields p).map leafEl ++ [video, audio, subtitles])[k]? = some c) :
      child root c.name = some c := by
    rw [← hchildren] at hk
    exact child_of_getElem? hnames hk
  have hfilename : child root "filename".toList =
      some (leafEl ("filename".toList, escapeXml (cstr p.filename))) := hchild (k := 0) rfl
  have hformat : child root "format".toList =
      some (leafEl ("format".toList, display p.format.toInt)) := hchild (k := 1) rfl
  have hv : child root video.name = some video := hchild (k := 5) rfl
  have ha : child root audio.name = some audio := hchild (k := 6) rfl
  have hs : child root subtitles.name = some subtitles := hchild (k := 7) rfl
  rw [hvideo] at hv
  rw [haudio] at ha
  rw [hsubtitles] at hs
  simp only [loadRoot, readChild, readPart, hfilename, hformat, hv, ha, hs, text_escape, text_num,
    parseI32_display]

theorem children_document (wide : Char → Bool) (p : EncodingParams) :
    (document wide p).el.children = (fileFields p).map leafEl ++
      [partEl "video".toList p.video.enabled (videoFields p.video),
        partEl "audio".toList p.audio.enabled (audioFields p.audio),
        partEl "subtitles".toList p.subtitles.enabled (subtitlesFields p.subtitles)] := by
  rw [document, parent]
  dsimp only
  rw [List.map_append, map_el_fieldPieces, List.map_cons, List.map_cons, List.map_cons,
    List.map_nil, el_partPiece, el_partPiece, el_partPiece]

theorem loadRoot_document (wide : Char → Bool) (p q : EncodingParams) :
    loadRoot (document wide p).el q = { q with
      filename := setCstr 1024 ((cstr p.filename).dropWhile isWhitespace)
      format := p.format
      video := { p.video with
        enabled := parseFlag (display p.video.enabled.toInt)
        pixFmt := setCstr 64 ((cstr p.video.pixFmt).dropWhile isWhitespace)
        isImageSequence := parseFlag (display p.video.isImageSequence.toInt) }
      audio := { p.audio with
        enabled := parseFlag (display p.audio.enabled.toInt)
        channelLayout := (parseI64 (display p.audio.channelLayout.toNat)).toUInt64 }
      subtitles := { p.subtitles with
        enabled := parseFlag (display p.subtitles.enabled.toInt)
        areSidecar := parseFlag (display p.subtitles.areSidecar.toInt) } } := by
  rw [loadRoot_eq p q (children_document wide p) rfl rfl rfl,
    loadVideo_field p.video q.video rfl rfl, loadAudio_field p.audio q.audio rfl rfl,
    loadSubtitles_field p.subtitles q.subtitles rfl rfl]

/-- What is loaded from what is saved. -/
theorem load_saveToString (wide : Char → Bool) {p : EncodingParams} (hvideo : p.video.enabled ≠ 0)
    (haudio : p.audio.enabled ≠ 0) (hsubtitles : p.subtitles.enabled ≠ 0) (q : EncodingParams) :
    load wide q (saveToString p) =
      if (∀ c ∈ cstr p.filename, isAscii c = true) ∧ ∀ c ∈ cstr p.video.pixFmt, isAscii c = true
      then some (.ok (loadRoot (document wide p).el q)) else none := by
  rw [load, ← text_document wide hvideo haudio hsubtitles, Piece.parsePreset_text]
  simp only [forall_isAscii_passed]
  split_ifs
  · rfl
  · rfl

end Document

/-! ### When a preset comes back -/

/-- A text of characters of one byte that does not begin with white space. -/
def IsKept (t : Text) : Prop :=
  (∀ c ∈ t, isAscii c = true) ∧ ∀ c ∈ t.head?, isWhitespace c = false

theorem dropWhile_eq_self_iff_head (t : Text) :
    t.dropWhile isWhitespace = t ↔ ∀ c ∈ t.head?, isWhitespace c = false := by
  cases t with
  | nil => exact iff_of_true rfl (by simp)
  | cons c t =>
    rw [List.head?_cons]
    cases hc : isWhitespace c with
    | true =>
      refine iff_of_false (fun h => ?_) fun h => Bool.false_ne_true ((h c rfl).symm.trans hc)
      have hle := (List.dropWhile_sublist isWhitespace (l := t)).length_le
      rw [List.dropWhile_cons_of_pos hc] at h
      rw [h, List.length_cons] at hle
      omega
    | false =>
      refine iff_of_true (List.dropWhile_cons_of_neg (by rw [hc]; decide)) ?_
      rintro d ⟨⟩
      exact hc

theorem setCstr_dropWhile_iff {n : ℕ} {t : Text} (h : Fits n t) :
    setCstr n (t.dropWhile isWhitespace) = setCstr n t ↔ ∀ c ∈ t.head?, isWhitespace c = false := by
  rw [← dropWhile_eq_self_iff_head]
  refine ⟨fun heq => ?_, fun heq => by rw [heq]⟩
  have hcstr := congrArg cstr heq
  rwa [cstr_setCstr (h.dropWhile _), cstr_setCstr h] at hcstr

theorem videoPart_eq_iff {v : VideoPart} {enabled img : Int32} {fmt : Vector UInt8 64} :
    { v with enabled := enabled, pixFmt := fmt, isImageSequence := img } = v ↔
      enabled = v.enabled ∧ fmt = v.pixFmt ∧ img = v.isImageSequence := by
  cases v
  simp only [VideoPart.mk.injEq, true_and, and_true]

theorem audioPart_eq_iff {a : AudioPart} {enabled : Int32} {layout : UInt64} :
    { a with enabled := enabled, channelLayout := layout } = a ↔
      enabled = a.enabled ∧ layout = a.channelLayout := by
  cases a
  simp only [AudioPart.mk.injEq, true_and, and_true]

theorem subtitlesPart_eq_iff {s : SubtitlesPart} {enabled side : Int32} :
    { s with enabled := enabled, areSidecar := side } = s ↔
      enabled = s.enabled ∧ side = s.areSidecar := by
  cases s
  simp only [SubtitlesPart.mk.injEq, true_and, and_true]

/-- When the loaded fields are those that were saved. -/
theorem restores_loadRoot_iff (wide : Char → Bool) (p q : EncodingParams) :
    Restores p (loadRoot (document wide p).el q) ↔
      setCstr 1024 ((cstr p.filename).dropWhile isWhitespace) = p.filename ∧
      setCstr 64 ((cstr p.video.pixFmt).dropWhile isWhitespace) = p.video.pixFmt ∧
      parseFlag (display p.video.enabled.toInt) = p.video.enabled ∧
      parseFlag (display p.audio.enabled.toInt) = p.audio.enabled ∧
      parseFlag (display p.subtitles.enabled.toInt) = p.subtitles.enabled ∧
      parseFlag (display p.video.isImageSequence.toInt) = p.video.isImageSequence ∧
      parseFlag (display p.subtitles.areSidecar.toInt) = p.subtitles.areSidecar ∧
      (parseI64 (display p.audio.channelLayout.toNat)).toUInt64 = p.audio.channelLayout := by
  rw [loadRoot_document, Restores]
  dsimp only
  rw [videoPart_eq_iff, audioPart_eq_iff, subtitlesPart_eq_iff]
  constructor
  · rintro ⟨hfile, -, ⟨hv, hfmt, himg⟩, ⟨ha, hlayout⟩, hs, hside⟩
    exact ⟨hfile, hfmt, hv, ha, hs, himg, hside, hlayout⟩
  · rintro ⟨hfile, hfmt, hv, ha, hs, himg, hside, hlayout⟩
    exact ⟨hfile, rfl, ⟨hv, hfmt, himg⟩, ⟨ha, hlayout⟩, hs, hside⟩

theorem roundTrips_iff_restores (wide : Char → Bool) {p : EncodingParams}
    (hvideo : p.video.enabled ≠ 0) (haudio : p.audio.enabled ≠ 0)
    (hsubtitles : p.subtitles.enabled ≠ 0) :
    RoundTrips wide p ↔
      ((∀ c ∈ cstr p.filename, isAscii c = true) ∧
        ∀ c ∈ cstr p.video.pixFmt, isAscii c = true) ∧
      Restores p (loadRoot (document wide p).el p) := by
  have hload := load_saveToString wide hvideo haudio hsubtitles
  constructor
  · intro h
    obtain ⟨r, hr, hrestores⟩ := h p
    rw [hload] at hr
    split_ifs at hr with hascii
    obtain rfl := Except.ok.inj (Option.some.inj hr)
    exact ⟨hascii, hrestores⟩
  · rintro ⟨hascii, hrestores⟩ q
    refine ⟨_, (hload q).trans (if_pos hascii), ?_⟩
    rw [restores_loadRoot_iff] at hrestores ⊢
    exact hrestores

/-- The parser gives a tree or an error exactly if no character that it passes in white space, a
value or a text is longer than a byte. A preset comes back exactly if that holds of its texts, none
of them begins with white space, and its numbers have the ranges that are read. -/
theorem preset_roundTrips_iff (wide : Char → Bool) :
    (∀ data, (∃ r, parsePreset wide data = some r ∧ r ≠ .error .stuck) ↔
      ∀ c ∈ passed wide data, isAscii c = true) ∧
    ∀ (p : EncodingParams) (file fmt : Text), Fits 1024 file → Fits 64 fmt →
      p.filename = setCstr 1024 file → p.video.pixFmt = setCstr 64 fmt →
      p.video.enabled ≠ 0 → p.audio.enabled ≠ 0 → p.subtitles.enabled ≠ 0 →
      (RoundTrips wide p ↔ IsKept file ∧ IsKept fmt ∧
        p.video.enabled = 1 ∧ p.audio.enabled = 1 ∧ p.subtitles.enabled = 1 ∧
        (p.video.isImageSequence = 0 ∨ p.video.isImageSequence = 1) ∧
        (p.subtitles.areSidecar = 0 ∨ p.subtitles.areSidecar = 1) ∧
        p.audio.channelLayout.toNat < 2 ^ 63) := by
  refine ⟨fun data => ?_, ?_⟩
  · rw [parsePreset_eq]
    split_ifs with hall
    · exact iff_of_true ⟨_, rfl, tree_ne_stuck wide data⟩ hall
    · exact iff_of_false (fun ⟨_, h, _⟩ => by cases h) hall
  · intro p file fmt hfile hfmt hfilename hpixFmt hvideo haudio hsubtitles
    have hcfile : cstr p.filename = file := by rw [hfilename, cstr_setCstr hfile]
    have hcfmt : cstr p.video.pixFmt = fmt := by rw [hpixFmt, cstr_setCstr hfmt]
    have hload := roundTrips_iff_restores wide hvideo haudio hsubtitles
    simp only [restores_loadRoot_iff, parseFlag_display_iff, toUInt64_parseI64_display_iff,
      or_iff_right hvideo, or_iff_right haudio, or_iff_right hsubtitles] at hload
    rw [hcfile, hcfmt, hfilename, hpixFmt, setCstr_dropWhile_iff hfile,
      setCstr_dropWhile_iff hfmt] at hload
    rw [hload, IsKept, IsKept]
    constructor
    · rintro ⟨⟨hfile, hfmt⟩, hfile', hfmt', h⟩
      exact ⟨⟨hfile, hfile'⟩, ⟨hfmt, hfmt'⟩, h⟩
    · rintro ⟨⟨hfile, hfile'⟩, ⟨hfmt, hfmt'⟩, h⟩
      exact ⟨⟨hfile, hfmt⟩, hfile', hfmt', h⟩

/-- A preset for a movie with sound and subtitles. -/
def moviePreset (file : Text) : EncodingParams where
  filename := setCstr 1024 file
  format := 2
  video :=
    { enabled := 1, codec := 3, width := 1920, height := 1080, timeBaseNum := 1001,
      timeBaseDen := 30000, pixelFormat := .u10, interlacing := 0, pixelAspectNum := 1,
      pixelAspectDen := 1, bitRate := 8000000, minBitRate := 0, maxBitRate := 12000000,
      bufferSize := 2000000, threads := -1, pixFmt := setCstr 64 "yuv420p".toList,
      isImageSequence := 0, scalingMethod := .crop }
  audio :=
    { enabled := 1, codec := 7, sampleRate := 48000, channelLayout := 3, sampleFormat := .f32,
      bitRate := 320000 }
  subtitles := { enabled := 1, codec := 11, areSidecar := 1, sidecarFormat := 13 }
  hasCustomRange := 0
  customRangeInNum := 0
  customRangeInDen := 1
  customRangeOutNum := 0
  customRangeOutDen := 1

theorem preset_roundTrips_iff_movie :
    RoundTrips (fun _ => false) (moviePreset "a & <b>.mp4".toList) :=
  ((preset_roundTrips_iff fun _ => false).2 (moviePreset "a & <b>.mp4".toList) "a & <b>.mp4".toList
      "yuv420p".toList ⟨by decide, by decide⟩ ⟨by decide, by decide⟩ rfl rfl (by decide)
      (by decide) (by decide)).2
    ⟨⟨by decide, by decide⟩, ⟨by decide, by decide⟩, rfl, rfl, rfl, .inl rfl, .inr rfl,
      by decide⟩

/-- A long character in a file name. -/
theorem not_preset_roundTrips :
    parsePreset (fun _ => false) "<export><filename>é</filename></export>".toList = none ∧
      ¬ RoundTrips (fun _ => false) (moviePreset "é".toList) := by
  have hcstr : cstr (moviePreset "é".toList).filename = "é".toList :=
    cstr_setCstr ⟨by decide, by decide⟩
  refine ⟨by decide +kernel, fun h => ?_⟩
  have hascii := ((roundTrips_iff_restores _ (by decide) (by decide) (by decide)).1 h).1.1
  rw [hcstr] at hascii
  exact absurd hascii (by decide)

end Oak.Codec
