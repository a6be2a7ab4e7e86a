import Oak.Render.Ipc

/-!
# Frame cache keys

The worker keeps rendered frames under a key (`spec_cache_key` of `oak-worker/src/framecache.rs`),
the text of some fields of the ticket; here it is the document, which the text determines. The
frame itself comes from `render_f32_into` of `oak-worker/src/worker.rs`, which asks the loaded graph
first, and else stacks the montage (`render_montage_frame_into` of `oak-render/src/eval.rs`). What
is kept is the frame before it is converted to the format of the slot.

`Evaluator` is what is done to pixels: decoding, arithmetic with floats, plugins, the conversion.

The key has neither the delivery of the frame nor its adjustment layers, and all floats that are not
finite are null in it.

## Main results

* `frame_of_key`: tickets with one key and the same adjustment layers have the same frame, and the
  same pixels in slots of one format.
-/

namespace Oak.Render.Ipc

open Oak.Node Oak.Lib
open Oak.Core (Rational)

universe u

variable {F : Type u}

/-! ### The key -/

section Key

variable [JsonFloat F]

/-- `spec_cache_key`: the fields of `SpecKey`, in their order. -/
def specCacheKey (spec : BatchTicketSpec F) : Json F :=
  .object [("time_num", .int spec.timeNum), ("time_den", .int spec.timeDen),
    ("width", .int spec.width), ("height", .int spec.height),
    ("footage_file", .string spec.footageFile), ("footage_stream", .int spec.footageStream),
    ("montage", wireMontageClip.list.write spec.montage),
    ("viewer_node", .int spec.viewerNode), ("project_key", .string spec.projectKey)]

variable {spec spec' : BatchTicketSpec F}

/-- The key determines all fields but the delivery and the adjustment layers. -/
theorem eq_of_key (hkey : specCacheKey spec = specCacheKey spec')
    (hfinite : finite (wireMontageClip.list.floats spec.montage) = true) :
    spec' = { spec with
      ticket := spec'.ticket, slot := spec'.slot, format := spec'.format,
      channels := spec'.channels, adjustments := spec'.adjustments } := by
  simp only [specCacheKey, Json.object.injEq, List.cons.injEq, Prod.mk.injEq, Json.int.injEq,
    Json.string.injEq, true_and, and_true, Int.natCast_inj] at hkey
  obtain ⟨htime, hden, hwidth, hheight, hfile, hstream, hmontage, hviewer, hproject⟩ := hkey
  have hclips := wireMontageClip.list.write_injective_of_finite hmontage hfinite
  rw [htime, hden, hwidth, hheight, hfile, hstream, hclips, hviewer, hproject]

end Key

/-! ### Rendering -/

/-- `to_node_value`. -/
def toNodeValue : WireNodeValue F → NodeValue F
  | .none => .none
  | .int i => .int i
  | .float f => .float f
  | .color r g b a => .color r g b a
  | .text s => .text s
  | .boolean b => .boolean b
  | .rational r => .rational r
  | .vec2 x y => .vec2 x y
  | .vec3 x y z => .vec3 x y z
  | .vec4 x y z w => .vec4 x y z w
  | .matrix rows => .matrix rows
  | .combo i => .combo i
  | .strCombo s => .strCombo s
  | .binary bytes => .binary bytes

/-- `montage_effect_from`. -/
def montageEffectFrom (wire : WireMontageEffect F) : MontageEffect F where
  typeId := wire.typeId
  enabled := wire.enabled
  effectInputId := if wire.effectInputId = "" then none else some wire.effectInputId
  params := wire.params.map fun p => (p.1, toNodeValue p.2)

/-- A clip of the wire, as `ticket_params` takes it. -/
def montageClipFrom (c : WireMontageClip F) : MontageClip F where
  filename := c.filename
  streamIndex := c.streamIndex
  inTime := (c.inNum : ℚ) / c.inDen
  outTime := (c.outNum : ℚ) / c.outDen
  mediaIn := (c.mediaInNum : ℚ) / c.mediaInDen
  gain := c.gain
  effects := c.effects.map montageEffectFrom

/-- `adjustment_from_wire`. -/
def adjustmentFromWire (wire : WireAdjustmentSpan F) : AdjustmentSpan F where
  inTime := (wire.inNum : ℚ) / wire.inDen
  outTime := (wire.outNum : ℚ) / wire.outDen
  trackIndex := wire.trackIndex
  effects := wire.effects.map montageEffectFrom

/-- `LoadedGraph`. `frame` is what the project renders for a viewer: nothing when there is no such
viewer or it cannot be rendered, an error when the frame has another geometry. -/
structure LoadedGraph (P : Type u) where
  projectUuid : Option String
  projectCopy : ℕ
  frame : ℕ → Rational → ℤ × ℤ → Option (Option P)

/-- What is done to the pixels `P` of a frame, to textures `T`, and to the pixels `Q` of a BGRA8
slot. `opacity` is the factor of the value of an Opacity effect, unless it is unity; `stage` and
`unstage` are `copy_rows`, into a new texture and back; `plugin` takes the fields of `JobSpec`. -/
structure Evaluator (F P T Q : Type u) where
  blank : ℤ × ℤ → P
  footage : String → ℤ → Rational → ℤ × ℤ → Option T
  toFrame : T → ℤ × ℤ → Option P
  isCpu : T → Bool
  opacity : Option (NodeValue F) → Option F
  scale : P → F → P
  scaleTexture : T → F → T
  plugin : T → String → Option String → List (String × NodeValue F) → Rational → T
  stage : P → Rational → ℤ × ℤ → Option T
  unstage : P → T → ℤ × ℤ → P
  compositeOver : P → T → F → ℤ × ℤ → P
  toBgra8 : P → ℤ × ℤ → Q

/-- `ticket_params`. -/
def ticketParams {P : Type u} (graph : Option (LoadedGraph P)) (spec : BatchTicketSpec F) :
    VideoTicketParams F where
  viewer := if spec.viewerNode ≠ 0 then spec.viewerNode
    else (graph.map LoadedGraph.projectCopy).getD 0
  project := spec.projectKey
  time := (spec.timeNum : ℚ) / spec.timeDen
  forceSize := some (spec.width, spec.height)
  forceFormat := some 4
  footage := if spec.footageFile = "" then none else some (spec.footageFile, spec.footageStream)
  montage := spec.montage.map montageClipFrom
  adjustments := spec.adjustments.map adjustmentFromWire

/-- `OPACITY_EFFECT_TYPE_ID`. -/
def opacityEffectTypeId : String := "org.olivevideoeditor.Olive.opacity"

/-- `OPACITY_VALUE_INPUT`. -/
def opacityValueInput : String := "opacity_in"

/-- What is written into a slot. -/
inductive SlotPixels (P Q : Type u) where
  | f32 (frame : P)
  | bgra8 (pixels : Q)
  deriving DecidableEq

section Render

variable {P T Q : Type u} (E : Evaluator F P T Q)

/-- `opacity_factor`. -/
def opacityFactor (effect : MontageEffect F) : Option F :=
  if effect.typeId ≠ opacityEffectTypeId then none
  else E.opacity ((effect.params.find? fun p => p.1 = opacityValueInput).map Prod.snd)

/-- `apply_montage_effect`: an Opacity of unity passes the texture through. -/
def applyMontageEffect (src : T) (effect : MontageEffect F) (time : Rational) : T :=
  if effect.typeId = opacityEffectTypeId then
    match opacityFactor E effect with
    | none => src
    | some factor => if E.isCpu src then E.scaleTexture src factor else src
  else E.plugin src effect.typeId effect.effectInputId effect.params time

/-- `apply_effect_list`: disabled effects are bypassed. -/
def applyEffectList (src : T) (effects : List (MontageEffect F)) (time : Rational) : T :=
  effects.foldl (fun tex effect =>
    if effect.enabled then applyMontageEffect E tex effect time else tex) src

/-- `apply_adjustment_span`: a stack of Opacity effects scales the frame in place, any other runs
over a copy of it. -/
def applyAdjustmentSpan (time : Rational) (size : ℤ × ℤ) (dst : P) (span : AdjustmentSpan F) : P :=
  if time < span.inTime ∨ span.outTime ≤ time then dst
  else
    let enabled := span.effects.filter MontageEffect.enabled
    if enabled.all fun effect => effect.typeId = opacityEffectTypeId then
      (enabled.filterMap (opacityFactor E)).foldl E.scale dst
    else
      match E.stage dst time size with
      | none => dst
      | some frame =>
        let tex := applyEffectList E frame span.effects time
        if E.isCpu tex then E.unstage dst tex size else dst

/-- The loop of `render_montage_frame_into`: the spans whose boundary is reached, then the clip,
unless its effects left it on the GPU. -/
def renderMontage (time : Rational) (size : ℤ × ℤ) :
    ℕ → List (AdjustmentSpan F) → List (MontageClip F) → P → Option P
  | _, spans, [], dst => some (spans.foldl (applyAdjustmentSpan E time size) dst)
  | index, spans, clip :: clips, dst =>
    let reached := spans.takeWhile fun span => span.trackIndex ≤ index
    let rest := spans.dropWhile fun span => span.trackIndex ≤ index
    let dst := reached.foldl (applyAdjustmentSpan E time size) dst
    if time < clip.inTime ∨ clip.outTime ≤ time then
      renderMontage time size (index + 1) rest clips dst
    else
      match E.footage clip.filename clip.streamIndex (clip.mediaIn + (time - clip.inTime)) size with
      | none => none
      | some decoded =>
        let effected := applyEffectList E decoded clip.effects time
        renderMontage time size (index + 1) rest clips
          (if E.isCpu effected then E.compositeOver dst effected clip.gain size else dst)

/-- The graph mode of `render_f32_into`: the loaded graph answers for its own project. -/
def graphFrame (graph : Option (LoadedGraph P)) (viewerNode : ℕ) (projectKey : String)
    (time : Rational) (size : ℤ × ℤ) : Option (Option P) :=
  if viewerNode ≠ 0 then
    graph.bind fun g =>
      if g.projectUuid = some projectKey then g.frame viewerNode time size else none
  else none

/-- `render_f32_into`: no pixels where it fails. -/
def renderF32Into (spec : BatchTicketSpec F) (params : VideoTicketParams F)
    (graph : Option (LoadedGraph P)) (time : Rational) (size : ℤ × ℤ) : Option P :=
  match graphFrame graph spec.viewerNode spec.projectKey time size with
  | some frame => frame
  | none =>
    if params.montage ≠ [] then
      renderMontage E time size 0 params.adjustments params.montage (E.blank size)
    else if spec.footageFile ≠ "" then
      (E.footage spec.footageFile spec.footageStream time size).bind fun t => E.toFrame t size
    else some (E.blank size)

/-- The frame that `render_spec_pixels` renders and keeps. -/
def specFrame (graph : Option (LoadedGraph P)) (spec : BatchTicketSpec F) : Option P :=
  renderF32Into E spec (ticketParams graph spec) graph ((spec.timeNum : ℚ) / spec.timeDen)
    (spec.width, spec.height)

/-- The bytes that a frame takes in its slot. -/
def dstNeed (spec : BatchTicketSpec F) : ℕ :=
  spec.height.toNat * (spec.width * if spec.format = slotFormatBgra8 then 4 else 16).toNat

/-- `render_spec_pixels`, with the frame that the cache has under the key: what it writes into a
slot, and nothing where it fails. -/
def renderSpecPixels (graph : Option (LoadedGraph P)) (slotDataBytes : ℕ) (cached : Option P)
    (spec : BatchTicketSpec F) : Option (SlotPixels P Q) :=
  if spec.width ≤ 0 ∨ spec.height ≤ 0 then none
  else if slotDataBytes < dstNeed spec then none
  else
    (cached.or (specFrame E graph spec)).map fun frame =>
      if spec.format = slotFormatBgra8 then .bgra8 (E.toBgra8 frame (spec.width, spec.height))
      else .f32 frame

end Render

/-! ### Sound keys -/

/-- Two tickets have the same frame with any evaluator and any graph. -/
def SameFrame (spec spec' : BatchTicketSpec F) : Prop :=
  ∀ (P T Q : Type u) (E : Evaluator F P T Q) (graph : Option (LoadedGraph P)),
    specFrame E graph spec = specFrame E graph spec'

/-- Two tickets have the same pixels in their slots, with any evaluator, any graph, slots of any
size, and any frame or none in the cache. -/
def SamePixels (spec spec' : BatchTicketSpec F) : Prop :=
  ∀ (P T Q : Type u) (E : Evaluator F P T Q) (graph : Option (LoadedGraph P)) (slotDataBytes : ℕ)
    (cached : Option P),
    renderSpecPixels E graph slotDataBytes cached spec =
      renderSpecPixels E graph slotDataBytes cached spec'

/-- The frame that was kept for the second ticket serves the first one. -/
def Serves (spec spec' : BatchTicketSpec F) : Prop :=
  ∀ (P T Q : Type u) (E : Evaluator F P T Q) (graph : Option (LoadedGraph P)) (slotDataBytes : ℕ),
    renderSpecPixels E graph slotDataBytes (specFrame E graph spec') spec =
      renderSpecPixels E graph slotDataBytes none spec

variable {spec spec' : BatchTicketSpec F}

theorem SameFrame.serves (h : SameFrame spec spec') : Serves spec spec' := by
  intro P T Q E graph slotDataBytes
  rw [renderSpecPixels, renderSpecPixels, ← h P T Q E graph, Option.or_self, Option.none_or]

/-- With one frame and one geometry, slots of one format have the same pixels. -/
theorem SameFrame.samePixels (h : SameFrame spec spec') (hwidth : spec.width = spec'.width)
    (hheight : spec.height = spec'.height)
    (hformat : spec.format = slotFormatBgra8 ↔ spec'.format = slotFormatBgra8) :
    SamePixels spec spec' := by
  intro P T Q E graph slotDataBytes cached
  rw [renderSpecPixels, renderSpecPixels, dstNeed, dstNeed, h P T Q E graph, hwidth, hheight]
  simp only [hformat]

/-- Tickets with one key and the same adjustment layers differ in their delivery at most. They have
the same frame, each is served by the frame of the other, and the pixels are the same when both
slots are BGRA8 or neither is. -/
theorem frame_of_key [JsonFloat F] (hkey : specCacheKey spec = specCacheKey spec')
    (hfinite : finite (wireMontageClip.list.floats spec.montage) = true)
    (hadjustments : spec.adjustments = spec'.adjustments) :
    spec' = { spec with
      ticket := spec'.ticket, slot := spec'.slot, format := spec'.format,
      channels := spec'.channels } ∧
    SameFrame spec spec' ∧ Serves spec spec' ∧
    ((spec.format = slotFormatBgra8 ↔ spec'.format = slotFormatBgra8) → SamePixels spec spec') := by
  have hspec := eq_of_key hkey hfinite
  rw [← hadjustments] at hspec
  have hframe : SameFrame spec spec' := by
    intro P T Q E graph
    rw [hspec]
    rfl
  refine ⟨hspec, hframe, hframe.serves, hframe.samePixels ?_ ?_⟩
  · rw [hspec]
  · rw [hspec]

/-- A frame with one clip that has an effect, under an adjustment layer with another. -/
def gradedFrame (ticket slot format channels : ℤ) : BatchTicketSpec (Option ℚ) where
  ticket := ticket
  slot := slot
  timeNum := 0
  timeDen := 1
  width := 1920
  height := 1080
  format := format
  channels := channels
  footageFile := ""
  footageStream := 0
  montage := [⟨"a.mov", 0, 0, 1, 1, 1, 0, 1, some 1,
    [⟨opacityEffectTypeId, true, "tex_in", [(opacityValueInput, .float (some (1 / 2)))]⟩]⟩]
  adjustments := [⟨0, 1, 1, 1, 1, [⟨"org.example.glow", true, "Source", []⟩]⟩]
  viewerNode := 0
  projectKey := ""

theorem frame_of_key_gradedFrame :
    SameFrame (gradedFrame 1 0 slotFormatBgra8 4) (gradedFrame 2 3 0 2) ∧
      SamePixels (gradedFrame 1 0 slotFormatBgra8 4) (gradedFrame 5 1 slotFormatBgra8 2) :=
  ⟨(frame_of_key rfl rfl rfl).2.1, (frame_of_key rfl rfl rfl).2.2.2 Iff.rfl⟩

/-- An evaluator of frames without pixels. -/
def bareEvaluator : Evaluator (Option ℚ) Unit Unit Unit where
  blank _ := ()
  footage _ _ _ _ := some ()
  toFrame _ _ := some ()
  isCpu _ := true
  opacity _ := none
  scale _ _ := ()
  scaleTexture _ _ := ()
  plugin _ _ _ _ _ := ()
  stage _ _ _ := some ()
  unstage _ _ _ := ()
  compositeOver _ _ _ _ := ()
  toBgra8 _ _ := ()

/-- A BGRA8 slot and one of floats have one key, but other pixels. -/
theorem gradedFrame_delivery :
    ¬ ∀ spec spec' : BatchTicketSpec (Option ℚ),
      specCacheKey spec = specCacheKey spec' → SamePixels spec spec' := by
  intro h
  have hpixels := h (gradedFrame 1 0 slotFormatBgra8 4) (gradedFrame 1 0 0 4) rfl Unit Unit Unit
    bareEvaluator none (2 ^ 30) none
  exact absurd hpixels (by decide +kernel)

end Oak.Render.Ipc
