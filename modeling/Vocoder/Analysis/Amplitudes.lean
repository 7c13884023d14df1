import Vocoder.Analysis.Refinement

/-!
Amplitudes and phases of the harmonics, read off a spectrum. The band of a harmonic reaches half the
fundamental to either side; its amplitude is the root of the power in it.
-/

namespace Vocoder.Amplitudes

variable {α : Type} [Analytic α]

/-- The first bin of the band of harmonic `m`, whose last bin is the one before the next band. -/
def bandEdge (wo : α) (m : Int) : Int :=
  Analytic.toWord ((Scalar.ofInt m - 0.5) * wo * Refinement.binsPerRad + 0.5)

/-- The end of the band of harmonic `m`. -/
def bandEnd (wo : α) (m : Int) : Int :=
  Analytic.toWord ((Scalar.ofInt m + 0.5) * wo * Refinement.binsPerRad + 0.5)

/-- The bin at the centre of harmonic `m`. -/
def centre (wo : α) (m : Int) : Int :=
  Analytic.toWord (Scalar.ofInt m * wo * Refinement.binsPerRad + 0.5)

/-- The root of the power in the band of a harmonic. -/
def amplitude (bins : Array (Phasor α)) (wo : α) (m : Int) : Except Fault α := do
  let power ← sumBetween (bandEdge wo m) (bandEnd wo m) 0.0 fun i => do
    return (← fetch bins i).power
  return Analytic.sqrt power

/-- Reads the amplitudes of a model. -/
def estimate (model : Model α) (bins : Array (Phasor α)) : Except Fault (Model α) := do
  return { model with amps := ← model.amps.fill model.count (amplitude bins model.wo) }

def estimatePhases (model : Model α) (bins : Array (Phasor α)) : Except Fault (Model α) := do
  let phase (m : Int) : Except Fault α := do
    let bin ← fetch bins (centre model.wo m)
    return Analytic.atan2 bin.im bin.re
  return { model with phases := ← model.phases.fill model.count phase }

end Vocoder.Amplitudes
