import Vocoder.Decoder
import Vocoder.Frame.Content
import Vocoder.Lines.Separation
import Vocoder.Quantiser.Lines
import Vocoder.Stage

/-!
Decoding of a frame. Its fields are read and dequantised, the subframes between the updates are
interpolated, by a weight that is zero at the earlier and one at the later update, and all subframes
are synthesised in turn. When the channel is known to be bad, the
voicing flags and the energies of a frame are not trusted.
-/

namespace Vocoder

namespace Interpolation

variable {α : Type} [Analytic α]

/-- Sets the fundamental of a subframe with a voicing flag. A voiced subframe between two unvoiced
updates counts as unvoiced; an unvoiced subframe has the lowest fundamental. -/
def fundamental (model prev next : Model α) (weight lowest : α) : Except Fault (Model α) :=
  let voiced := model.voiced && (prev.voiced || next.voiced)
  let wo :=
    if voiced then
      if prev.voiced && next.voiced then (1.0 - weight) * prev.wo + weight * next.wo
      else if next.voiced then next.wo
      else prev.wo
    else lowest
  { model with voiced }.withFundamental wo

/-- The energy between two, on a logarithmic scale. -/
def energy (prev next weight : α) : α :=
  Analytic.pow 10.0 ((1.0 - weight) * Analytic.log10 prev + weight * Analytic.log10 next)

/-- The first `count` lines between two vectors of lines. -/
def lines (count : Nat) (prev next : Array α) (weight : α) : Except Fault (Array α) :=
  tabulate count fun i => do
    return (1.0 - weight) * (← fetch prev i) + weight * (← fetch next i)

end Interpolation

namespace Frame

variable {α : Type} [Analytic α]

/-- The subframes of a frame that is being decoded. -/
structure Subframes (α : Type) where
  models : Array (Model α)
  energies : Array α

/-- Subframes with their voicing flags and nothing else. -/
def Subframes.start (count : Nat) (voicing : List Bool) : Subframes α where
  models := (Array.range count).map fun (i : Nat) =>
    { Model.blank with voiced := voicing.getD i false }
  energies := Array.replicate count 0.0

/-- Sets the fundamental and the energy of the subframes that carry an update. -/
def dequantise (range : PitchRange α) : List Int → List UpdateCode → Subframes α →
    UpdateCode.Reference α → Except Fault (Subframes α × UpdateCode.Reference α)
  | subframe :: updates, code :: codes, subframes, reference => do
    let ((wo, energy), reference) ← code.decode range reference
    let model ← (← fetch subframes.models subframe).withFundamental wo
    let models ← store subframes.models subframe model
    let energies ← store subframes.energies subframe energy
    dequantise range updates codes ⟨models, energies⟩ reference
  | _, _, subframes, reference => .ok (subframes, reference)

/-- The subframes of a frame after its updates, and what they leave for the next frame. The last
subframe of the frame before is the first reference. -/
def updated (layout : Layout) (decoder : Decoder α) (count : Nat) (content : Content) :
    Except Fault (Subframes α × UpdateCode.Reference α) :=
  dequantise PitchRange.speech layout.updates content.updates
    (Subframes.start count content.voicing) ⟨decoder.lastModel.wo, decoder.predictor⟩

/-- The subframe of the next update after a subframe, or the number of subframes. -/
def nextUpdate (layout : Layout) (i : Int) : (fuel : Nat) → Int
  | 0 => i + 1
  | fuel + 1 =>
    if (layout.updateAt? (i + 1)).isSome then i + 1 else nextUpdate layout (i + 1) fuel

/-- The earlier end of an interpolation: a model, its energy and its subframe. -/
structure Anchor (α : Type) where
  model : Model α
  energy : α
  subframe : Int

/-- The last update, if there is one in the frame, or the end of the frame before. -/
def anchor (decoder : Decoder α) (last : Option Nat) (subframes : Subframes α) :
    Except Fault (Anchor α) :=
  match last with
  | some k => do return ⟨← fetch subframes.models k, ← fetch subframes.energies k, k⟩
  | none => .ok ⟨decoder.lastModel, decoder.lastEnergy, -1⟩

/-- Interpolates a subframe between the last update and the next. -/
def interpolateAt (layout : Layout) (decoder : Decoder α) (count i : Nat) (last : Option Nat)
    (subframes : Subframes α) : Except Fault (Subframes α) := do
  let next := nextUpdate layout i (count - 1 - i)
  let prev ← anchor decoder last subframes
  let nextModel ← fetch subframes.models next
  let weight := (Scalar.ofInt (i - prev.subframe) : α) / Scalar.ofInt (next - prev.subframe)
  let model ← Interpolation.fundamental (← fetch subframes.models i) prev.model nextModel weight
    (PitchRange.speech : PitchRange α).low
  let energy := Interpolation.energy prev.energy (← fetch subframes.energies next) weight
  return ⟨← store subframes.models i model, ← store subframes.energies i energy⟩

/-- Interpolates the subframes without an update. -/
def interpolate (layout : Layout) (decoder : Decoder α) (count : Nat) (subframes : Subframes α) :
    Except Fault (Subframes α) := do
  let (subframes, _) ← (List.range count).foldlM (fun (subframes, last) i => do
    if (layout.updateAt? i).isSome then return (subframes, some i)
    else return (← interpolateAt layout decoder count i last subframes, last))
    (subframes, (none : Option Nat))
  return subframes

/-- The bit error rate above which a frame is muted. -/
@[inline] def muteThreshold : α := 0.15

/-- Takes all subframes of a muted frame for unvoiced. -/
def muteVoicing (mute : Bool) (subframes : Subframes α) : Subframes α :=
  if mute then
    { subframes with models := subframes.models.map fun model => { model with voiced := false } }
  else subframes

/-- Gives all subframes of a muted frame a low energy. -/
def muteEnergy (mute : Bool) (subframes : Subframes α) : Subframes α :=
  if mute then
    { subframes with energies := subframes.energies.map fun _ => Energy.decode 10 energyBits }
  else subframes

/-- The lines of every subframe, on the way from the last frame's lines to this frame's. -/
def lineTracks (decoder : Decoder α) (order : Int) (count : Nat) (lines : Array α) :
    Except Fault (Array (Array α)) := do
  let size ← length order
  tabulate count fun i =>
    if i + 1 < count then
      Interpolation.lines size decoder.lastLines lines
        (Scalar.ofInt (i + 1 : Int) / Scalar.ofInt (count : Int))
    else pure lines

/-- Synthesis on the way through the subframes. -/
structure Sounding (α : Type) where
  decoder : Decoder α
  models : List (Model α)
  samples : List Int16
  noisy : Nat
  notices : List (Notice α)

def soundAt (engine : Engine α) (settings : PostFilter α) (order : Int) (subframes : Subframes α)
    (tracks : Array (Array α)) (sounding : Sounding α) (i : Nat) :
    Except Fault (Sounding α) := do
  let filter ← Lines.toFilter (← fetch tracks i) order
  let energy ← fetch subframes.energies i
  let sampled ← Envelope.sample engine.transform filter order (← fetch subframes.models i) energy
    settings
  let model ← Envelope.correct sampled.model
  let sounded ← sounding.decoder.sound engine model sampled.bins
  return {
    decoder := sounded.decoder
    models := sounding.models ++ [sounded.model]
    samples := sounding.samples ++ sounded.samples
    noisy := sounding.noisy + sounded.noisy
    notices := sounding.notices ++ [.entered ⟨.synthesising, i, model, energy⟩] }

structure Decoded (α : Type) where
  samples : List Int16
  decoder : Decoder α
  /-- Whether the lines were out of order. -/
  reordered : Bool
  /-- The number of harmonics that counted as noise. -/
  noisy : Nat
  notices : List (Notice α)

/-- Decodes a frame, given an estimate of the bit error rate of the channel. -/
def decode (engine : Engine α) (layout : Layout) (settings : PostFilter α) (decoder : Decoder α)
    (bytes : List UInt8) (errorRate : α) : Except Fault (Decoded α) := do
  let count ← length layout.subframes
  let content ← read layout bytes
  let (received, reference) ← updated layout decoder count content
  let (ordered, swaps) ←
    Lines.reorder (← layout.lines.decode content.lines.toArray) layout.order
  let lines ← Lines.spread ordered layout.order
  let last : Int := count - 1
  let dequantised : Event α :=
    ⟨.dequantising, last, ← fetch received.models last, ← fetch received.energies last⟩
  let mute := decide (muteThreshold < errorRate)
  let interpolated ← interpolate layout decoder count (muteVoicing mute received)
  let tracks ← lineTracks decoder layout.order count lines
  let subframes := muteEnergy mute interpolated
  let sounding ← (List.range count).foldlM
    (soundAt engine settings layout.order subframes tracks) ⟨decoder, [], [], 0, []⟩
  return {
    samples := sounding.samples
    decoder := { sounding.decoder with
      lastModel := ← fetch sounding.models.toArray last
      lastLines := lines
      lastEnergy := ← fetch subframes.energies last
      predictor := reference.predictor }
    reordered := decide (0 < swaps)
    noisy := sounding.noisy
    notices := [.entered (Event.ofFrame .unpacked), .entered dequantised,
      .entered (Event.ofFrame .interpolating)] ++ sounding.notices ++
      [.entered (Event.ofFrame .idle)] }

end Frame

end Vocoder
