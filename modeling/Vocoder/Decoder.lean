import Vocoder.Engine
import Vocoder.Lines.Cascade
import Vocoder.Model
import Vocoder.Quantiser.Joint
import Vocoder.Synthesis.Background
import Vocoder.Synthesis.Envelope
import Vocoder.Synthesis.OverlapAdd
import Vocoder.Synthesis.Phase

/-!
The memory of the decoder, and the synthesis of one subframe. In its last steps to samples of 16
bits, a subframe whose peak is too loud is attenuated, and what remains too large is cut off.
-/

namespace Vocoder

namespace Output

variable {α : Type} [Analytic α]

/-- The highest sample of a frame, at least zero. -/
def peak (frame : List α) : α := frame.foldl (fun top x => if top < x then x else top) 0.0

/-- Attenuates a frame whose peak exceeds 30000 by the square of the excess, so that large peaks,
which come from bit errors, are cut harder than small ones. -/
def protect (frame : List α) : List α :=
  let excess := peak frame / 30000.0
  if 1.0 < excess then
    let gain := 1.0 / (excess * excess)
    frame.map fun x => x * gain
  else frame

/-- The sample of 16 bits for a value. -/
def saturate (x : α) : Int16 :=
  if 32767.0 < x then 32767
  else if x < -32767.0 then -32767
  else Int16.ofInt (Analytic.toWord x)

end Output

/-- What the decoder keeps from one frame to the next. -/
structure Decoder (α : Type) where
  /-- The buffer of two overlapping subframes. -/
  overlap : Array α
  /-- The last subframe: its model, lines and energy. -/
  lastModel : Model α
  lastLines : Array α
  lastEnergy : α
  predictor : Predictor α
  /-- The phase of the pulse train. -/
  pulse : α
  /-- The estimate of the noise level. -/
  background : α
  noise : NoiseSource

namespace Decoder

variable {α : Type} [Analytic α]

/-- The decoder before any frame, for lines of a given order. -/
def start (order : Int) (seed : UInt64) : Except Fault (Decoder α) := do
  let count ← length order
  return {
    overlap := Array.replicate 160 0.0
    lastModel := ← Model.blank.withFundamental (Analytic.turn / Scalar.ofInt maxPeriod)
    lastLines := (Array.range count).map fun (i : Nat) =>
      Scalar.ofInt i * Analytic.pi / Scalar.ofInt (order + 1)
    lastEnergy := 1.0
    predictor := Predictor.start
    pulse := 0.0
    background := 0.0
    noise := ⟨seed⟩ }

/-- What synthesis of a subframe gives. -/
structure Sounded (α : Type) where
  samples : List Int16
  /-- The model with its phases. -/
  model : Model α
  decoder : Decoder α
  /-- The number of harmonics that counted as noise. -/
  noisy : Nat

/-- Turns a model with amplitudes, and the spectrum of its filter, into samples. -/
def sound (engine : Engine α) (decoder : Decoder α) (model : Model α) (bins : Bins α) :
    Except Fault (Sounded α) := do
  let response ← Phase.sample model bins
  let phased ← Phase.synthesise subframeSize model decoder.pulse response decoder.noise
  let treated ← Background.treat phased.model decoder.background phased.noise
  let buffer ← OverlapAdd.synthesise subframeSize engine.transform decoder.overlap treated.model
    engine.synthesisWindow.toArray true
  let samples := Output.protect (buffer.toList.take subframeSize)
  return {
    samples := samples.map Output.saturate
    model := treated.model
    decoder := { decoder with
      overlap := (samples ++ buffer.toList.drop subframeSize).toArray
      pulse := phased.pulse
      background := treated.estimate
      noise := treated.noise }
    noisy := treated.count }

end Decoder

end Vocoder
