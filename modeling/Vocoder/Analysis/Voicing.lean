import Vocoder.Model
import Vocoder.Transform

/-!
The voicing decision. A voiced subframe looks below 1 kHz like copies of the window's spectrum at
the harmonics, and has most of its energy below 2 kHz.
-/

namespace Vocoder.Voicing

variable {α : Type} [Analytic α]

/-- What the decision rests on, in decibels. -/
structure Evidence (α : Type) where
  /-- The level of the harmonics below 1 kHz over that of what a voiced model misses. -/
  snr : α
  /-- The level below 2 kHz over that above. -/
  ratio : α

/-- The position of harmonic `m` in bins, for a harmonic number that may lie between two. -/
@[inline] def place (wo m : α) : α := m * wo * 512.0 / Analytic.turn

/-- The number of harmonics up to a frequency in Hz. -/
def harmonicsTo (count : Int) (hz : α) : Int :=
  Analytic.toWord (Scalar.ofInt count * hz / 4000.0)

/-- The energy of the harmonics `first` to `last`, above a floor. -/
def energy (amps : Harmonics α) (first last : Int) : Except Fault α :=
  sumBetween first (last + 1) 1e-4 fun m => do
    let a ← amps.value m
    return a * a

/-- The power in the band of harmonic `m` that its best copy of the window's spectrum misses, added
to what other bands missed. -/
def missed (bins : Array (Phasor α)) (response : Array α) (wo : α) (m : Int) (sum : α) :
    Except Fault α := do
  let first := Analytic.ceilInt (place wo (Scalar.ofInt m - 0.5))
  let last := Analytic.ceilInt (place wo (Scalar.ofInt m + 0.5))
  let offset := Analytic.toWord (256.0 - place wo (Scalar.ofInt m) + 0.5)
  let (re, im, den) ← foldBetween first last ((0.0 : α), (0.0 : α), (0.0 : α))
    fun (re, im, den) i => do
      let bin ← fetch bins i
      let w ← fetch response (offset + i)
      return (re + bin.re * w, im + bin.im * w, den + w * w)
  let (re, im) := if 0.0 < den then (re / den, im / den) else (re, im)
  sumBetween first last sum fun i => do
    let bin ← fetch bins i
    let w ← fetch response (offset + i)
    return (Phasor.mk (bin.re - re * w) (bin.im - im * w)).power

/-- The decision from the evidence and the fundamental: a good match, or much energy below 2 kHz;
but not with most energy above, and not with a match of closely spaced harmonics alone. -/
def decide (evidence : Evidence α) (wo : α) : Bool :=
  let voiced := 6.0 < evidence.snr ∨ 10.0 < evidence.ratio
  let sixty : α := 60.0 * (Analytic.turn / Scalar.ofInt sampleRate)
  voiced ∧ ¬ evidence.ratio < -10.0 ∧ ¬ (evidence.ratio < -4.0 ∧ wo ≤ sixty)

/-- Weighs the evidence for voicing of a model with amplitudes. -/
def evidence (model : Model α) (bins : Array (Phasor α)) (response : Array α) :
    Except Fault (Evidence α) := do
  let low := harmonicsTo model.count (1000.0 : α)
  let signal ← energy model.amps 1 low
  let error ← foldBetween 1 (low + 1) (1e-4 : α) fun sum m =>
    missed bins response model.wo m sum
  let half := harmonicsTo model.count (2000.0 : α)
  let top := harmonicsTo model.count (4000.0 : α)
  let below ← energy model.amps 1 half
  let above ← energy model.amps half top
  return ⟨Analytic.decibels (signal / error), Analytic.decibels (below / above)⟩

/-- Sets the voicing of a model. -/
def estimate (model : Model α) (bins : Array (Phasor α)) (response : Array α) :
    Except Fault (Model α × Evidence α) := do
  let found ← evidence model bins response
  return ({ model with voiced := decide found model.wo }, found)

/-- Whether the fundamental moved too far for voiced speech. It may do so at an onset, or when most
energy is below 2 kHz. -/
def jumped (f0 lastF0 : α) (lastVoiced : Bool) (ratio : α) : Bool :=
  lastVoiced ∧ ratio < 0.0 ∧ 15.0 < Scalar.abs (f0 - lastF0)

end Vocoder.Voicing
