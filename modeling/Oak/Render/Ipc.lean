import Oak.Lib.Json
import Oak.Render.Wire

/-!
# The fields of a video ticket on the wire

The parameters of a video ticket (`oak-render/src/ticket.rs`), the messages of a batch
(`oak-render/src/ipc.rs`) and what the dispatcher writes into them (`build_ticket_spec` of
`oak-render/src/procpool.rs`), with all their fields; `Oak.Render.Wire` keeps those that the
dispatcher itself looks at. The derived readers and writers are codecs: an object is read field by
field, and a field that is missing is its default.

The cache fields of a ticket are left out; the dispatcher does not send them.

## Main results

* `floats_buildTicketSpec`: the floats of a message are those of its tickets.
-/

namespace Oak.Render.Ipc

open Oak.Node Oak.Lib
open Oak.Core (Rational)

variable {F : Type*}

/-! ### Ticket parameters -/

/-- `MontageEffect`. -/
structure MontageEffect (F : Type*) where
  typeId : String
  enabled : Bool
  effectInputId : Option String
  params : List (String × NodeValue F)

/-- `MontageClip`. -/
structure MontageClip (F : Type*) where
  filename : String
  streamIndex : ℤ
  inTime : Rational
  outTime : Rational
  mediaIn : Rational
  gain : F
  effects : List (MontageEffect F)

/-- `AdjustmentSpan`. -/
structure AdjustmentSpan (F : Type*) where
  inTime : Rational
  outTime : Rational
  trackIndex : ℕ
  effects : List (MontageEffect F)

/-- `VideoTicketParams`. -/
structure VideoTicketParams (F : Type*) where
  viewer : ℕ
  project : String
  time : Rational
  forceSize : Option (ℤ × ℤ)
  forceFormat : Option ℤ
  footage : Option (String × ℤ)
  montage : List (MontageClip F)
  adjustments : List (AdjustmentSpan F)

/-! ### The wire form -/

/-- `WireMontageEffect`. -/
structure WireMontageEffect (F : Type*) where
  typeId : String
  enabled : Bool
  effectInputId : String
  params : List (String × WireNodeValue F)

/-- `WireMontageClip`. -/
structure WireMontageClip (F : Type*) where
  filename : String
  streamIndex : ℤ
  inNum : ℤ
  inDen : ℤ
  outNum : ℤ
  outDen : ℤ
  mediaInNum : ℤ
  mediaInDen : ℤ
  gain : F
  effects : List (WireMontageEffect F)

/-- `WireAdjustmentSpan`. -/
structure WireAdjustmentSpan (F : Type*) where
  inNum : ℤ
  inDen : ℤ
  outNum : ℤ
  outDen : ℤ
  trackIndex : ℕ
  effects : List (WireMontageEffect F)

/-- `BatchTicketSpec`. -/
structure BatchTicketSpec (F : Type*) where
  ticket : ℤ
  slot : ℤ
  timeNum : ℤ
  timeDen : ℤ
  width : ℤ
  height : ℤ
  format : ℤ
  channels : ℤ
  footageFile : String
  footageStream : ℤ
  montage : List (WireMontageClip F)
  adjustments : List (WireAdjustmentSpan F)
  viewerNode : ℕ
  projectKey : String

/-- `RenderBatchMsg`. -/
structure RenderBatchMsg (F : Type*) where
  batchId : ℤ
  tickets : List (BatchTicketSpec F)

/-- `wire_effect_from`. -/
def wireEffectFrom (effect : MontageEffect F) : WireMontageEffect F where
  typeId := effect.typeId
  enabled := effect.enabled
  effectInputId := effect.effectInputId.getD ""
  params := effect.params.filterMap fun p =>
    (WireNodeValue.fromNodeValue p.2).map fun v => (p.1, v)

/-- The wire form of a clip, as `build_ticket_spec` writes it. -/
def wireClipFrom (c : MontageClip F) : WireMontageClip F where
  filename := c.filename
  streamIndex := c.streamIndex
  inNum := c.inTime.num
  inDen := c.inTime.den
  outNum := c.outTime.num
  outDen := c.outTime.den
  mediaInNum := c.mediaIn.num
  mediaInDen := c.mediaIn.den
  gain := c.gain
  effects := c.effects.map wireEffectFrom

/-- `wire_adjustment_from`. -/
def wireAdjustmentFrom (span : AdjustmentSpan F) : WireAdjustmentSpan F where
  inNum := span.inTime.num
  inDen := span.inTime.den
  outNum := span.outTime.num
  outDen := span.outTime.den
  trackIndex := span.trackIndex
  effects := span.effects.map wireEffectFrom

/-- `build_ticket_spec`. -/
def buildTicketSpec (ticket : ℤ) (slot : ℕ) (params : VideoTicketParams F) (slotFormat : ℤ) :
    BatchTicketSpec F where
  ticket := ticket
  slot := slot
  timeNum := params.time.num
  timeDen := params.time.den
  width := (params.forceSize.getD (1920, 1080)).1
  height := (params.forceSize.getD (1920, 1080)).2
  format := params.forceFormat.getD slotFormat
  channels := 4
  footageFile := (params.footage.getD ("", 0)).1
  footageStream := (params.footage.getD ("", 0)).2
  montage := params.montage.map wireClipFrom
  adjustments := params.adjustments.map wireAdjustmentFrom
  viewerNode := params.viewer
  projectKey := params.project

/-! ### Codecs -/

section Codecs

variable [JsonFloat F]

open Fields (field)

/-- A value under its tag. -/
def tagged (t : String) (v : Json F) : Json F := .object [("t", .string t), ("v", v)]

/-- The writer of `WireNodeValue`: the tag is the name of the variant. -/
def writeValue : WireNodeValue F → Json F
  | .none => .object [("t", .string "none")]
  | .int i => tagged "int" (.int i)
  | .float f => tagged "float" (.ofFloat f)
  | .color r g b a => tagged "color" (.array ([r, g, b, a].map Json.ofFloat))
  | .text s => tagged "text" (.string s)
  | .boolean b => tagged "boolean" (.bool b)
  | .rational r => tagged "rational" (.array [.int r.num, .int r.den])
  | .vec2 x y => tagged "vec2" (.array ([x, y].map Json.ofFloat))
  | .vec3 x y z => tagged "vec3" (.array ([x, y, z].map Json.ofFloat))
  | .vec4 x y z w => tagged "vec4" (.array ([x, y, z, w].map Json.ofFloat))
  | .matrix rows => tagged "matrix" (.array (rows.map Json.ofFloat))
  | .combo i => tagged "combo" (.int i)
  | .strCombo s => tagged "str_combo" (.string s)
  | .binary bytes => tagged "binary" (.array (bytes.map fun b => .int b.toNat))

/-- The floats of an array. -/
def readFloats (g : FloatWidth → F → F) : Json F → Option (List F) :=
  (Codec.float .double).list.read g

/-- An array of two, three or four floats. -/
def ofFloats2 {α : Type*} (make : F → F → α) : List F → Option α
  | [x, y] => some (make x y)
  | _ => none

@[inherit_doc ofFloats2]
def ofFloats3 {α : Type*} (make : F → F → F → α) : List F → Option α
  | [x, y, z] => some (make x y z)
  | _ => none

@[inherit_doc ofFloats2]
def ofFloats4 {α : Type*} (make : F → F → F → F → α) : List F → Option α
  | [x, y, z, w] => some (make x y z w)
  | _ => none

/-- The bytes of an array. -/
def readBytes : List (Json F) → Option (List UInt8)
  | [] => some []
  | .int i :: js => if 0 ≤ i ∧ i < 256 then (readBytes js).map (UInt8.ofNat i.toNat :: ·) else none
  | _ :: _ => none

/-- The content of a variant. -/
def readVariant (g : FloatWidth → F → F) (t : String) (v : Json F) : Option (WireNodeValue F) :=
  if t = "int" then (Codec.int.read g v).map .int
  else if t = "float" then ((Codec.float .double).read g v).map .float
  else if t = "color" then (readFloats g v).bind (ofFloats4 .color)
  else if t = "text" then (Codec.string.read g v).map .text
  else if t = "boolean" then (Codec.bool.read g v).map .boolean
  else if t = "rational" then
    match v with
    | .array [.int n, .int d] => some (.rational ((n : ℚ) / d))
    | _ => none
  else if t = "vec2" then (readFloats g v).bind (ofFloats2 .vec2)
  else if t = "vec3" then (readFloats g v).bind (ofFloats3 .vec3)
  else if t = "vec4" then (readFloats g v).bind (ofFloats4 .vec4)
  else if t = "matrix" then (readFloats g v).bind fun rows => some (.matrix rows)
  else if t = "combo" then (Codec.int.read g v).map .combo
  else if t = "str_combo" then (Codec.string.read g v).map .strCombo
  else if t = "binary" then
    match v with
    | .array js => (readBytes js).map .binary
    | _ => none
  else none

/-- The reader of `WireNodeValue`. -/
def readValue (g : FloatWidth → F → F) : Json F → Option (WireNodeValue F)
  | .object fields =>
    match fields.lookup "t", fields.lookup "v" with
    | some (.string t), some v => readVariant g t v
    | some (.string t), none => if t = "none" then some .none else none
    | _, _ => none
  | _ => none

/-- Other floats in a value. -/
def mapValue (g : F → F) : WireNodeValue F → WireNodeValue F
  | .float f => .float (g f)
  | .color r x b a => .color (g r) (g x) (g b) (g a)
  | .vec2 x y => .vec2 (g x) (g y)
  | .vec3 x y z => .vec3 (g x) (g y) (g z)
  | .vec4 x y z w => .vec4 (g x) (g y) (g z) (g w)
  | .matrix rows => .matrix (rows.map g)
  | v => v

/-- The floats of a value, which are 64 bits wide. -/
def valueFloats (v : WireNodeValue F) : List (FloatWidth × F) := v.floats.map fun f => (.double, f)

theorem readFloats_write (g : FloatWidth → F → F) (fs : List F) :
    readFloats g (.array (fs.map Json.ofFloat)) =
      if finite (fs.map fun f => (FloatWidth.double, f)) then some (fs.map (g .double))
      else none := by
  have hread := (Codec.float (F := F) .double).list.read_write g fs
  have hfloats : (Codec.float (F := F) .double).list.floats fs =
      fs.map fun f => (FloatWidth.double, f) := (List.map_eq_flatMap).symm
  rw [hfloats] at hread
  exact hread

omit [JsonFloat F] in
theorem readBytes_write (bytes : List UInt8) :
    readBytes (bytes.map fun b => (.int b.toNat : Json F)) = some bytes := by
  induction bytes with
  | nil => rfl
  | cons b bytes ih =>
    have hlt : ((b.toNat : ℤ)) < 256 := by exact_mod_cast b.toNat_lt
    rw [List.map_cons, readBytes, if_pos ⟨Int.natCast_nonneg _, hlt⟩, ih]
    simp

theorem mapValue_eq_iff (g : F → F) (v : WireNodeValue F) :
    mapValue g v = v ↔ ∀ f ∈ v.floats, g f = f := by
  cases v with
  | matrix rows =>
    rw [mapValue, WireNodeValue.matrix.injEq, WireNodeValue.floats]
    have hrows := (Codec.float (F := F) .double).list.mapFloats_eq_iff (fun _ => g) rows
    refine hrows.trans ⟨fun h f hf => ?_, fun h x hx => ?_⟩
    · exact h (.double, f) (List.mem_flatMap.2 ⟨f, hf, List.mem_singleton_self _⟩)
    · obtain ⟨f, hf, hx⟩ := List.mem_flatMap.1 hx
      rw [List.mem_singleton.1 hx]
      exact h f hf
  | _ => simp [mapValue, WireNodeValue.floats]

theorem readValue_write (g : FloatWidth → F → F) (v : WireNodeValue F) :
    readValue g (writeValue v) =
      if finite (valueFloats v) then some (mapValue (g .double) v) else none := by
  have hfloats (t : String) (fs : List F) (make : List F → Option (WireNodeValue F))
      (hread : ∀ j, readVariant g t j = (readFloats g j).bind make) :
      readValue g (tagged t (.array (fs.map Json.ofFloat))) =
        if finite (fs.map fun f => (FloatWidth.double, f)) then make (fs.map (g .double))
        else none := by
    have htagged : readValue g (tagged t (.array (fs.map Json.ofFloat))) =
        readVariant g t (.array (fs.map Json.ofFloat)) := rfl
    rw [htagged, hread, readFloats_write]
    split_ifs <;> rfl
  cases v with
  | none => rfl
  | int i => rfl
  | float f =>
    rw [writeValue, Json.ofFloat, valueFloats, WireNodeValue.floats, finite]
    cases hfinite : JsonFloat.isFinite f with
    | true => simp [hfinite]; rfl
    | false => simp [hfinite]; rfl
  | color r x b a => exact hfloats "color" [r, x, b, a] (ofFloats4 .color) fun _ => rfl
  | text s => rfl
  | boolean b => rfl
  | rational r =>
    have hread : readValue g (writeValue (.rational r)) = some (.rational ((r.num : ℚ) / r.den)) :=
      rfl
    rw [hread, Rat.num_div_den]
    rfl
  | vec2 x y => exact hfloats "vec2" [x, y] (ofFloats2 .vec2) fun _ => rfl
  | vec3 x y z => exact hfloats "vec3" [x, y, z] (ofFloats3 .vec3) fun _ => rfl
  | vec4 x y z w => exact hfloats "vec4" [x, y, z, w] (ofFloats4 .vec4) fun _ => rfl
  | matrix rows => exact hfloats "matrix" rows (fun rows => some (.matrix rows)) fun _ => rfl
  | combo i => rfl
  | strCombo s => rfl
  | binary bytes =>
    have hread : readValue g (writeValue (.binary bytes)) =
        (readBytes (bytes.map fun b => (.int b.toNat : Json F))).map .binary := rfl
    rw [hread, readBytes_write]
    rfl

/-- `WireNodeValue`. -/
def wireNodeValue : Codec F (WireNodeValue F) where
  write := writeValue
  read := readValue
  floats := valueFloats
  mapFloats g := mapValue (g .double)
  mapFloats_eq_iff g v := by
    rw [mapValue_eq_iff, valueFloats]
    simp only [List.forall_mem_map]
  read_write := readValue_write

/-- `WireEffectParam`. -/
def wireEffectParam : Codec F (String × WireNodeValue F) :=
  ((field "input" .string "").and (field "value" wireNodeValue .none)).object []
    (show ["input", "value"].Nodup by decide)

/-- `WireMontageEffect`. -/
def wireMontageEffect : Codec F (WireMontageEffect F) :=
  (((field "type_id" .string "").and <| (field "enabled" .bool false).and <|
      (field "effect_input_id" .string "").and <|
      field "params" wireEffectParam.list []).record
    (fun a => ⟨a.1, a.2.1, a.2.2.1, a.2.2.2⟩)
    (fun e => (e.typeId, e.enabled, e.effectInputId, e.params))
    (fun _ => rfl) fun _ => rfl).object []
  (show ["type_id", "enabled", "effect_input_id", "params"].Nodup by decide)

/-- `WireMontageClip`. -/
def wireMontageClip : Codec F (WireMontageClip F) :=
  (((field "filename" .string "").and <| (field "stream_index" .int 0).and <|
      (field "in_num" .int 0).and <| (field "in_den" .int 0).and <|
      (field "out_num" .int 0).and <| (field "out_den" .int 0).and <|
      (field "media_in_num" .int 0).and <| (field "media_in_den" .int 0).and <|
      (field "gain" (.float .single) JsonFloat.zero).and <|
      field "effects" wireMontageEffect.list []).record
    (fun a => ⟨a.1, a.2.1, a.2.2.1, a.2.2.2.1, a.2.2.2.2.1, a.2.2.2.2.2.1, a.2.2.2.2.2.2.1,
      a.2.2.2.2.2.2.2.1, a.2.2.2.2.2.2.2.2.1, a.2.2.2.2.2.2.2.2.2⟩)
    (fun c => (c.filename, c.streamIndex, c.inNum, c.inDen, c.outNum, c.outDen, c.mediaInNum,
      c.mediaInDen, c.gain, c.effects))
    (fun _ => rfl) fun _ => rfl).object []
  (show ["filename", "stream_index", "in_num", "in_den", "out_num", "out_den", "media_in_num",
    "media_in_den", "gain", "effects"].Nodup by decide)

/-- `WireAdjustmentSpan`. -/
def wireAdjustmentSpan : Codec F (WireAdjustmentSpan F) :=
  (((field "in_num" .int 0).and <| (field "in_den" .int 0).and <|
      (field "out_num" .int 0).and <| (field "out_den" .int 0).and <|
      (field "track_index" .nat 0).and <| field "effects" wireMontageEffect.list []).record
    (fun a => ⟨a.1, a.2.1, a.2.2.1, a.2.2.2.1, a.2.2.2.2.1, a.2.2.2.2.2⟩)
    (fun s => (s.inNum, s.inDen, s.outNum, s.outDen, s.trackIndex, s.effects))
    (fun _ => rfl) fun _ => rfl).object []
  (show ["in_num", "in_den", "out_num", "out_den", "track_index", "effects"].Nodup by decide)

/-- `BatchTicketSpec`. -/
def batchTicketSpec : Codec F (BatchTicketSpec F) :=
  (((field "ticket" .int 0).and <| (field "slot" .int 0).and <|
      (field "time_num" .int 0).and <| (field "time_den" .int 0).and <|
      (field "width" .int 0).and <| (field "height" .int 0).and <|
      (field "format" .int 0).and <| (field "channels" .int 0).and <|
      (field "footage_file" .string "").and <| (field "footage_stream" .int 0).and <|
      (field "montage" wireMontageClip.list []).and <|
      (field "adjustments" wireAdjustmentSpan.list []).and <|
      (field "viewer_node" .nat 0).and <| field "project_key" .string "").record
    (fun a => ⟨a.1, a.2.1, a.2.2.1, a.2.2.2.1, a.2.2.2.2.1, a.2.2.2.2.2.1, a.2.2.2.2.2.2.1,
      a.2.2.2.2.2.2.2.1, a.2.2.2.2.2.2.2.2.1, a.2.2.2.2.2.2.2.2.2.1, a.2.2.2.2.2.2.2.2.2.2.1,
      a.2.2.2.2.2.2.2.2.2.2.2.1, a.2.2.2.2.2.2.2.2.2.2.2.2.1, a.2.2.2.2.2.2.2.2.2.2.2.2.2⟩)
    (fun t => (t.ticket, t.slot, t.timeNum, t.timeDen, t.width, t.height, t.format, t.channels,
      t.footageFile, t.footageStream, t.montage, t.adjustments, t.viewerNode, t.projectKey))
    (fun _ => rfl) fun _ => rfl).object []
  (show ["ticket", "slot", "time_num", "time_den", "width", "height", "format", "channels",
    "footage_file", "footage_stream", "montage", "adjustments", "viewer_node",
    "project_key"].Nodup by decide)

/-- `RenderBatchMsg`, with the `type` that the dispatcher adds. -/
def renderBatchMsg : Codec F (RenderBatchMsg F) :=
  (((field "batch_id" .int 0).and <| field "tickets" batchTicketSpec.list []).record
    (fun a => ⟨a.1, a.2⟩) (fun m => (m.batchId, m.tickets))
    (fun _ => rfl) fun _ => rfl).object [("type", .string "render_batch")]
  (show ["batch_id", "tickets", "type"].Nodup by decide)

/-! ### Floats -/

/-- The floats of an effect stack that have a wire form. -/
def effectFloats (effects : List (MontageEffect F)) : List (FloatWidth × F) :=
  effects.flatMap fun e => e.params.flatMap fun p =>
    (WireNodeValue.fromNodeValue p.2).elim [] valueFloats

/-- The floats of a ticket that have a wire form. -/
def VideoTicketParams.floats (params : VideoTicketParams F) : List (FloatWidth × F) :=
  (params.montage.flatMap fun c => (.single, c.gain) :: effectFloats c.effects) ++
    params.adjustments.flatMap fun span => effectFloats span.effects

theorem floats_wireMontageEffect (e : WireMontageEffect F) :
    wireMontageEffect.floats e = e.params.flatMap fun p => valueFloats p.2 := rfl

theorem floats_wireMontageClip (c : WireMontageClip F) :
    wireMontageClip.floats c =
      (.single, c.gain) :: c.effects.flatMap wireMontageEffect.floats := rfl

theorem floats_wireAdjustmentSpan (span : WireAdjustmentSpan F) :
    wireAdjustmentSpan.floats span = span.effects.flatMap wireMontageEffect.floats := rfl

theorem floats_batchTicketSpec (spec : BatchTicketSpec F) :
    batchTicketSpec.floats spec = spec.montage.flatMap wireMontageClip.floats ++
      spec.adjustments.flatMap wireAdjustmentSpan.floats := by
  have hfloats : batchTicketSpec.floats spec = spec.montage.flatMap wireMontageClip.floats ++
      (spec.adjustments.flatMap wireAdjustmentSpan.floats ++ []) := rfl
  rw [hfloats, List.append_nil]

theorem floats_renderBatchMsg (msg : RenderBatchMsg F) :
    renderBatchMsg.floats msg = msg.tickets.flatMap batchTicketSpec.floats := rfl

/-- The parameters of an effect that have a wire form keep their floats. -/
theorem floats_wireEffectFrom (effects : List (MontageEffect F)) :
    (effects.map wireEffectFrom).flatMap wireMontageEffect.floats = effectFloats effects := by
  rw [List.flatMap_map, effectFloats]
  congr 1
  funext e
  rw [floats_wireMontageEffect, wireEffectFrom]
  dsimp only
  induction e.params with
  | nil => rfl
  | cons p params ih =>
    rw [List.flatMap_cons, ← ih]
    cases hvalue : WireNodeValue.fromNodeValue p.2 with
    | none =>
      rw [List.filterMap_cons_none (by rw [hvalue]; rfl)]
      rfl
    | some v =>
      rw [List.filterMap_cons_some (b := (p.1, v)) (by rw [hvalue]; rfl), List.flatMap_cons]
      rfl

/-- A ticket is sent with its floats. -/
theorem floats_buildTicketSpec (ticket : ℤ) (slot : ℕ) (params : VideoTicketParams F)
    (slotFormat : ℤ) :
    batchTicketSpec.floats (buildTicketSpec ticket slot params slotFormat) = params.floats := by
  rw [floats_batchTicketSpec, VideoTicketParams.floats, buildTicketSpec]
  dsimp only
  rw [List.flatMap_map, List.flatMap_map]
  congr 1
  · congr 1
    funext c
    rw [floats_wireMontageClip, wireClipFrom]
    dsimp only
    rw [floats_wireEffectFrom]
  · congr 1
    funext span
    rw [floats_wireAdjustmentSpan, wireAdjustmentFrom]
    dsimp only
    rw [floats_wireEffectFrom]

end Codecs

/-- Rational numbers with an infinity, read back as they were. -/
instance : JsonFloat (Option ℚ) := ⟨some 0, Option.isSome, fun _ f => f⟩

end Oak.Render.Ipc
