import Vocoder.Model
import Vocoder.Prediction.Recursion
import Vocoder.Transform

/-!
Amplitudes from a prediction filter. The power spectrum of the synthesis filter is sampled in the
band of each harmonic. An optional post filter emphasises the resonances and keeps the total power.
-/

namespace Vocoder

/-- The post filter of the decoder. -/
structure PostFilter (α : Type) where
  enabled : Bool
  /-- Whether frequencies below 1 kHz are raised by 3 dB. -/
  bass : Bool
  /-- The strength of the emphasis. -/
  beta : α
  /-- The width of the resonances in the weighting. -/
  gamma : α

namespace Envelope

variable {α : Type} [Analytic α]

def filterBins (transform : Transform α) (filter : Array α) (order : Int) :
    Except Fault (Bins α) := do
  return transform.forward (Block.padded (← slice filter 0 (order + 1)))

/-- The power spectrum of the synthesis filter, up to half the sampling rate. -/
def powers (bins : Bins α) : Array α :=
  (bins.toArray.take 256).map fun bin => 1.0 / (bin.power + 1e-6)

/-- The sum of a power spectrum above a floor. -/
def total (powers : Array α) : α := powers.foldl (fun acc p => acc + p) 1e-4

/-- The spectrum of the weighting filter, whose resonances are wider than those of the filter. -/
def weightingBins (transform : Transform α) (filter : Array α) (order : Int) (gamma : α) :
    Except Fault (Bins α) := do
  let taps ← slice filter 0 (max (order + 1) 1)
  if 512 < taps.size then throw .outOfRange
  return transform.forward (Block.padded (Prediction.widen gamma 1.0 taps.toList).toArray)

/-- Emphasises the resonances of a power spectrum. -/
def emphasise (powers : Array α) (weighting : Bins α) (beta : α) : Except Fault (Array α) :=
  tabulate powers.size fun i => do
    let power ← fetch powers i
    let root := Analytic.sqrt ((← fetch weighting.toArray i).power * power)
    let factor := Analytic.pow root beta
    return power * (factor * factor)

/-- Raises the lowest 64 bins. -/
def boostBass (powers : Array α) : Array α :=
  powers.mapIdx fun i p => if i < 64 then p * 1.96 else p

/-- Filters a power spectrum and scales it by the energy. The filter changes the shape of the
spectrum but not its sum, except for the bass. -/
def postFilter (transform : Transform α) (powers filter : Array α) (order : Int)
    (settings : PostFilter α) (energy : α) : Except Fault (Array α) := do
  let weighting ← weightingBins transform filter order settings.gamma
  let shaped ← emphasise powers weighting settings.beta
  let gain := total powers / total shaped * energy
  let scaled := shaped.map fun p => p * gain
  return if settings.bass then boostBass scaled else scaled

/-- Scales a power spectrum by the energy, after the post filter if it is enabled. -/
def shape (transform : Transform α) (powers filter : Array α) (order : Int)
    (settings : PostFilter α) (energy : α) : Except Fault (Array α) :=
  if settings.enabled then postFilter transform powers filter order settings energy
  else .ok (powers.map fun p => p * energy)

@[inline] def radPerBin : α := Analytic.turn / 512.0

/-- The first bin of the band of harmonic `m`, given half a harmonic below it. -/
def bandEdge (wo m : α) : Int := Analytic.toWord (m * wo / radPerBin + 0.5)

def amplitude (powers : Array α) (wo : α) (m : Int) : Except Fault α := do
  let first := bandEdge wo (Scalar.ofInt m - 0.5)
  let last := min (bandEdge wo (Scalar.ofInt m + 0.5)) 256
  return Analytic.sqrt (← sumBetween first last 0.0 fun i => fetch powers i)

structure Sampled (α : Type) where
  model : Model α
  /-- The level of the old amplitudes over that of their change. -/
  snr : α
  /-- The spectrum of the filter. -/
  bins : Bins α

/-- Replaces the amplitudes of a model by those of a filter with a given energy. -/
def sample (transform : Transform α) (filter : Array α) (order : Int) (model : Model α)
    (energy : α) (settings : PostFilter α) : Except Fault (Sampled α) := do
  let bins ← filterBins transform filter order
  let shaped ← shape transform (powers bins) filter order settings energy
  let (amps, signal, noise) ← foldBetween 1 (model.count + 1)
    (model.amps, (1e-30 : α), (1e-32 : α)) fun (amps, signal, noise) m => do
      let new ← amplitude shaped model.wo m
      let old ← amps.value m
      return (← amps.put m new, signal + old * old, noise + (old - new) * (old - new))
  return ⟨{ model with amps }, Analytic.decibels (signal / noise), bins⟩

/-- Attenuates the first harmonic of a very low voice, which a filter overestimates. -/
def correct (model : Model α) : Except Fault (Model α) := do
  if model.wo < Analytic.pi * 150.0 / 4000.0 then
    return { model with amps := ← model.amps.put 1 ((← model.amps.value 1) * 0.032) }
  else return model

end Envelope

end Vocoder
