import Vocoder.Analysis.Amplitudes
import Vocoder.Analysis.Pitch
import Vocoder.Analysis.Voicing
import Vocoder.Engine
import Vocoder.Prediction.Recursion
import Vocoder.Quantiser.Joint

/-!
The memory of the encoder, and the analysis of one subframe.
-/

namespace Vocoder

/-- What the encoder keeps from one subframe to the next. -/
structure Encoder (α : Type) where
  /-- The analysis buffer, whose last 80 samples are the newest. -/
  speech : Vector α 320
  pitch : Pitch.Memory α
  /-- The last estimate of the fundamental in Hz, before and after refinement. -/
  lastEstimate : α
  lastF0 : α
  lastVoiced : Bool
  predictor : Predictor α

namespace Encoder

variable {α : Type} [Analytic α]

def start : Encoder α where
  speech := Vector.replicate 320 1.0
  pitch := Pitch.Memory.start
  lastEstimate := 50.0
  lastF0 := 0.0
  lastVoiced := false
  predictor := Predictor.start

/-- The buffer after a subframe of new samples. -/
def shift (speech : Vector α 320) (fresh : Vector α 80) : Vector α 320 :=
  Vector.ofFn fun i =>
    if h : i.val < 240 then speech.get ⟨i.val + 80, by omega⟩
    else fresh.get ⟨i.val - 240, by omega⟩

/-- Takes in a subframe and sets the fundamental, the amplitudes and the voicing of a model. -/
def analyse (engine : Engine α) (encoder : Encoder α) (fresh : Vector α 80) (model : Model α) :
    Except Fault (Model α × Encoder α) := do
  let speech := shift encoder.speech fresh
  let bins := (← engine.speechBins speech.toArray).toArray
  let (found, pitch) ← Pitch.estimate engine.transform engine.pitchWindow encoder.pitch
    fresh.toList encoder.lastEstimate
  let rough := { model with wo := Analytic.turn / found.period }
  let model ← Refinement.refine PitchRange.speech rough bins
  let model ← Amplitudes.estimate model bins
  let (model, evidence) ← Voicing.estimate model bins engine.response.toArray
  let f0 := model.wo * Scalar.ofInt sampleRate / Analytic.turn
  let voiced := model.voiced &&
    !Voicing.jumped f0 encoder.lastF0 encoder.lastVoiced evidence.ratio
  return ({ model with voiced },
    { encoder with speech, pitch, lastEstimate := found.f0, lastF0 := f0, lastVoiced := voiced })

/-- Takes in the first 80 samples of a block and sets a model. -/
def analyseBlock (engine : Engine α) (encoder : Encoder α) (block : Array α) (model : Model α) :
    Except Fault (Model α × Encoder α) :=
  if h : 80 ≤ block.size then
    encoder.analyse engine (Vector.ofFn fun i => block[i.val]) model
  else .error .outOfRange

def spectrum (engine : Engine α) (encoder : Encoder α) (order : Int) :
    Except Fault (Prediction.Spectrum α) :=
  Prediction.spectrum encoder.speech.toArray engine.window.toArray order

end Encoder

end Vocoder
