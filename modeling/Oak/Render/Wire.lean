import Oak.Node.Value

/-!
# Tickets on the wire

The parameters of a ticket (`oak-render/src/ticket.rs`), as far as the dispatcher reads them, and
their wire form (`oak-render/src/ipc.rs`): the messages between the dispatcher and a worker are
lines of JSON. A float that is not finite is written as null, and null is not read as a float, so a
message that carries one is not read at all; every other value is read as it was written.
-/

namespace Oak.Render

open Oak.Node

/-- Which floats are numbers, and not infinite. -/
class Finite64 (F : Type*) where
  isFinite : F → Bool

/-- Rational numbers with an infinity, as floats. -/
instance : Finite64 (Option ℚ) := ⟨Option.isSome⟩

variable {F : Type*}

/-! ### Ticket parameters -/

/-- `MontageEffect`: the values of its parameters, by input. -/
structure MontageEffect (F : Type*) where
  params : List (String × NodeValue F)

/-- `MontageClip`. -/
structure MontageClip (F : Type*) where
  gain : F
  effects : List (MontageEffect F)

/-- `AdjustmentSpan`. -/
structure AdjustmentSpan (F : Type*) where
  effects : List (MontageEffect F)

/-- `VideoTicketParams`. -/
structure VideoTicketParams (F : Type*) where
  forceSize : Option (ℤ × ℤ)
  forceFormat : Option ℤ
  montage : List (MontageClip F)
  adjustments : List (AdjustmentSpan F)

/-- `AudioTicketParams`; `byteLen` is the number of bytes of the samples (`audio_samples_byte_len`),
unless the range is invalid. -/
structure AudioTicketParams (F : Type*) where
  byteLen : Option ℕ
  montage : List (MontageClip F)

variable (p : VideoTicketParams F)

/-- `render_size`. -/
def VideoTicketParams.renderSize : ℤ × ℤ := p.forceSize.getD (1920, 1080)

/-- The slot format of the viewer's preview. -/
def slotFormatBgra8 : ℤ := 100

/-- `slot_bytes_for`; the source saturates. -/
def slotBytesFor (width height format : ℤ) : ℕ :=
  let pixels := width.toNat * height.toNat
  let bytesPerPixel :=
    if format = slotFormatBgra8 then 4
    else if format = 0 then 4
    else if format = 2 ∨ format = 3 then 8
    else 16
  min (pixels * bytesPerPixel) (2 ^ 64 - 1)

/-- `ticket_wire_format`. -/
def ticketWireFormat (configFormat : ℤ) : ℤ :=
  p.forceFormat.getD configFormat

/-! ### The wire form -/

/-- `WireNodeValue`. -/
inductive WireNodeValue (F : Type*) where
  | none
  | int (i : ℤ)
  | float (f : F)
  | color (r g b a : F)
  | text (s : String)
  | boolean (b : Bool)
  | rational (r : Core.Rational)
  | vec2 (x y : F)
  | vec3 (x y z : F)
  | vec4 (x y z w : F)
  | matrix (rows : List F)
  | combo (i : ℤ)
  | strCombo (s : String)
  | binary (bytes : List UInt8)

/-- `from_node_value`: the values that have no wire form are dropped. -/
def WireNodeValue.fromNodeValue : NodeValue F → Option (WireNodeValue F)
  | .none => some .none
  | .int i => some (.int i)
  | .float f => some (.float f)
  | .color r g b a => some (.color r g b a)
  | .text s => some (.text s)
  | .boolean b => some (.boolean b)
  | .rational r => some (.rational r)
  | .vec2 x y => some (.vec2 x y)
  | .vec3 x y z => some (.vec3 x y z)
  | .vec4 x y z w => some (.vec4 x y z w)
  | .matrix rows => some (.matrix rows)
  | .combo i => some (.combo i)
  | .strCombo s => some (.strCombo s)
  | .binary bytes => some (.binary bytes)
  | _ => Option.none

/-- The floats of a value. -/
def WireNodeValue.floats : WireNodeValue F → List F
  | .float f => [f]
  | .color r g b a => [r, g, b, a]
  | .vec2 x y => [x, y]
  | .vec3 x y z => [x, y, z]
  | .vec4 x y z w => [x, y, z, w]
  | .matrix rows => rows
  | _ => []

/-- `WireMontageEffect`. -/
structure WireMontageEffect (F : Type*) where
  params : List (String × WireNodeValue F)

/-- `WireMontageClip`. -/
structure WireMontageClip (F : Type*) where
  gain : F
  effects : List (WireMontageEffect F)

/-- `WireAdjustmentSpan`. -/
structure WireAdjustmentSpan (F : Type*) where
  effects : List (WireMontageEffect F)

/-- `wire_effect_from`. -/
def wireEffectFrom (effect : MontageEffect F) : WireMontageEffect F :=
  ⟨effect.params.filterMap fun p => (WireNodeValue.fromNodeValue p.2).map fun v => (p.1, v)⟩

/-- The montage of a ticket in its wire form. -/
def wireMontageFrom (montage : List (MontageClip F)) : List (WireMontageClip F) :=
  montage.map fun c => ⟨c.gain, c.effects.map wireEffectFrom⟩

/-- `wire_adjustment_from`. -/
def wireAdjustmentFrom (span : AdjustmentSpan F) : WireAdjustmentSpan F :=
  ⟨span.effects.map wireEffectFrom⟩

/-- `BatchTicketSpec`. -/
structure BatchTicketSpec (F : Type*) where
  ticket : ℤ
  slot : ℕ
  width : ℤ
  height : ℤ
  format : ℤ
  montage : List (WireMontageClip F)
  adjustments : List (WireAdjustmentSpan F)

/-- `AudioTicketSpec`. -/
structure AudioTicketSpec (F : Type*) where
  ticket : ℤ
  slot : ℕ
  montage : List (WireMontageClip F)

/-- `build_ticket_spec`. -/
def buildTicketSpec (ticket : ℤ) (slot : ℕ) (p : VideoTicketParams F) (slotFormat : ℤ) :
    BatchTicketSpec F :=
  ⟨ticket, slot, p.renderSize.1, p.renderSize.2, ticketWireFormat p slotFormat,
    wireMontageFrom p.montage, p.adjustments.map wireAdjustmentFrom⟩

/-- `build_audio_ticket_spec`. -/
def buildAudioTicketSpec (ticket : ℤ) (slot : ℕ) (p : AudioTicketParams F) : AudioTicketSpec F :=
  ⟨ticket, slot, wireMontageFrom p.montage⟩

/-! ### What is read -/

/-- The floats of an effect stack. -/
def effectFloats (effects : List (WireMontageEffect F)) : List F :=
  effects.flatMap fun e => e.params.flatMap fun p => p.2.floats

/-- The floats of a montage. -/
def montageFloats (montage : List (WireMontageClip F)) : List F :=
  montage.flatMap fun c => c.gain :: effectFloats c.effects

/-- The floats of a video ticket. -/
def BatchTicketSpec.floats (spec : BatchTicketSpec F) : List F :=
  montageFloats spec.montage ++ spec.adjustments.flatMap fun a => effectFloats a.effects

/-- The messages of the dispatcher to a worker. -/
inductive ControlMsg (F : Type*) where
  | handshake (shm slots slotBytes : ℕ)
  | loadGraph (path : String)
  | renderBatch (batchId : ℕ) (tickets : List (BatchTicketSpec F))
  | renderAudioBatch (batchId : ℕ) (tickets : List (AudioTicketSpec F))
  | pluginCancel
  | shutdown

/-- The floats of a message. -/
def ControlMsg.floats : ControlMsg F → List F
  | .renderBatch _ tickets => tickets.flatMap BatchTicketSpec.floats
  | .renderAudioBatch _ tickets => tickets.flatMap fun t => montageFloats t.montage
  | _ => []

/-- The worker can read the line that a message is written as. -/
def ControlMsg.readable [Finite64 F] (msg : ControlMsg F) : Bool :=
  msg.floats.all Finite64.isFinite

/-- The ticket and slot of every ticket of a message, in its order. -/
def ControlMsg.assignments : ControlMsg F → List (ℤ × ℕ)
  | .renderBatch _ tickets => tickets.map fun t => (t.ticket, t.slot)
  | .renderAudioBatch _ tickets => tickets.map fun t => (t.ticket, t.slot)
  | _ => []

end Oak.Render
