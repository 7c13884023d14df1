import Vocoder.Synthesis.Phase

/-!
Background noise. Its level is tracked in quiet unvoiced subframes; harmonics of a voiced subframe
that hardly rise above it get a random phase, since regular phases of noise sound like a buzz.
-/

namespace Vocoder.Background

variable {α : Type} [Analytic α]

/-- The mean level of the harmonics of a model, in decibels. -/
def level (model : Model α) : Except Fault α := do
  let e ← sumBetween 1 (model.count + 1) 1e-12 fun m => do
    let a ← model.amps.value m
    return a * a
  return Analytic.decibels (e / Scalar.ofInt model.count)

/-- The estimate of the noise level after a subframe of a given level. -/
def track (estimate : α) (voiced : Bool) (level : α) : α :=
  if level < 40.0 ∧ ¬ voiced then estimate * 0.9 + level * 0.1 else estimate

/-- The amplitude below which a harmonic counts as noise. -/
def threshold (estimate : α) : α := Analytic.pow 10.0 ((estimate + 6.0) / 20.0)

/-- What the treatment of noise carries on and produces. -/
structure Treated (α : Type) where
  model : Model α
  estimate : α
  noise : NoiseSource
  /-- The number of harmonics with a new phase. -/
  count : Nat

/-- Tracks the noise level and gives random phases to the harmonics of a voiced model that are below
the threshold. -/
def treat (model : Model α) (estimate : α) (noise : NoiseSource) : Except Fault (Treated α) := do
  let estimate := track estimate model.voiced (← level model)
  if model.voiced then
    let limit := threshold estimate
    let (phases, noise, count) ← foldBetween 1 (model.count + 1) (model.phases, noise, 0)
      fun (phases, noise, count) m => do
        if (← model.amps.value m) < limit then
          let (phase, noise) := noise.phase
          return (← phases.put m phase, noise, count + 1)
        else return (phases, noise, count)
    return ⟨{ model with phases }, estimate, noise, count⟩
  else return ⟨model, estimate, noise, 0⟩

end Vocoder.Background
