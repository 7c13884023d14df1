import Vocoder.Model
import Vocoder.Transform

/-!
Phases of the harmonics, none of which is transmitted. A voiced subframe is excited by a train of
pulses, an unvoiced one by noise; the filter adds its own phase to that of the excitation. The
random phases come from a linear congruential generator on words of 64 bits, of which each draw
shows fifteen.
-/

namespace Vocoder

/-- A generator of random phases. -/
structure NoiseSource where
  state : UInt64
deriving DecidableEq, Repr

namespace NoiseSource

def drawMax : Nat := 32767

def step (source : NoiseSource) : NoiseSource := ⟨source.state * 1103515245 + 12345⟩

/-- The value that a draw shows of the new state. -/
def shown (source : NoiseSource) : Nat := (source.state / 65536 % 32768).toNat

/-- A draw between `0` and `drawMax`. -/
def next (source : NoiseSource) : Nat × NoiseSource := (source.step.shown, source.step)

/-- A random phase between zero and one turn. -/
def phase {α : Type} [Analytic α] (source : NoiseSource) : α × NoiseSource :=
  (Analytic.turn * Scalar.ofInt source.step.shown / 32767.0, source.step)

end NoiseSource

namespace Phase

variable {α : Type} [Analytic α]

/-- The phase response of the synthesis filter at each harmonic. The inverse of an amplitude has the
phase of its conjugate. -/
def sample (model : Model α) (bins : Bins α) : Except Fault (Harmonics (Phasor α)) :=
  let radPerBin : α := Analytic.turn / 512.0
  let start : Harmonics (Phasor α) := Vector.replicate 81 Phasor.zero
  start.fill model.count fun m => do
    let bin := Analytic.toWord (Scalar.ofInt m * model.wo / radPerBin + 0.5)
    return (← fetch bins.toArray (min bin 511)).conj

/-- The phase of the pulse train after `samples` more samples, between minus and plus half a turn.
-/
def advance (phase wo : α) (samples : Int) : α :=
  let next := phase + wo * Scalar.ofInt samples
  next - Analytic.turn * Analytic.floor (next / Analytic.turn + 0.5)

/-- The excitation of harmonic `m`: the multiple of the pulse phase, or a random phase. -/
def excitation (voiced : Bool) (pulse : α) (m : Int) (noise : NoiseSource) :
    Phasor α × NoiseSource :=
  if voiced then
    let angle := pulse * Scalar.ofInt m
    (⟨Analytic.cos angle, Analytic.sin angle⟩, noise)
  else
    let (angle, noise) : α × NoiseSource := noise.phase
    (⟨Analytic.cos angle, Analytic.sin angle⟩, noise)

/-- What phase synthesis carries on and produces. -/
structure Synthesised (α : Type) where
  model : Model α
  pulse : α
  noise : NoiseSource

/-- Sets the phases of a model after `samples` more samples of the pulse train. -/
def synthesise (samples : Int) (model : Model α) (pulse : α) (response : Harmonics (Phasor α))
    (noise : NoiseSource) : Except Fault (Synthesised α) := do
  let pulse := advance pulse model.wo samples
  let (phases, noise) ← foldBetween 1 (model.count + 1) (model.phases, noise)
    fun (phases, noise) m => do
      let (excited, noise) := excitation model.voiced pulse m noise
      let a := (← response.value m).mul excited
      return (← phases.put m (Analytic.atan2 a.im (a.re + 1e-12)), noise)
  return ⟨{ model with phases }, pulse, noise⟩

end Phase

end Vocoder
