import Vocoder.Model
import Vocoder.Transform

/-!
Refinement of a fundamental. Pitch periods around the estimate are tried; the best one has the most
power in the bins of its harmonics.
-/

namespace Vocoder.Refinement

variable {α : Type} [Analytic α]

@[inline] def binsPerRad : α := 512.0 / Analytic.turn

/-- The power in the bins of the next `count` harmonics, the first at position `place`, as far as
they lie inside the spectrum. -/
def harmonicPower (bins : Array (Phasor α)) (spacing : α) :
    (count : Nat) → (place : α) → (power : α) → Except Fault α
  | 0, _, power => .ok power
  | count + 1, place, power => do
    let bin := Analytic.toWord (place + 0.5)
    if bins.size ≤ bin then return power
    harmonicPower bins spacing count (place + spacing) (power + (← fetch bins bin).power)

/-- A bound on the number of periods that count. Steps up end beyond the last period; steps down end
beyond zero, where a period has no harmonics. -/
def stepCount (first last step : α) : Nat :=
  let steps (distance : α) : Nat := (Analytic.trunc (distance / step)).toNat
  2 * max (steps (last - first)) (steps (-first)) + 8

/-- The best fundamental so far and its power. -/
structure Best (α : Type) where
  wo : α
  power : α

/-- The better one of the best fundamental so far and that of a period. -/
def better (bins : Array (Phasor α)) (count : Nat) (best : Best α) (period : α) :
    Except Fault (Best α) := do
  let candidate := Analytic.turn / period
  let spacing := candidate * binsPerRad
  let power ← harmonicPower bins spacing count spacing 0.0
  return if best.power < power then ⟨candidate, power⟩ else best

/-- Tries the periods from `period` to `last` in steps, at most `fuel` of them. -/
def tryPeriods (bins : Array (Phasor α)) (count : Nat) (step last : α) :
    (fuel : Nat) → (period : α) → (best : Best α) → Except Fault (Best α)
  | 0, _, best => .ok best
  | fuel + 1, period, best => do
    if period ≤ last then
      tryPeriods bins count step last fuel (period + step) (← better bins count best period)
    else return best

/-- The fundamental of one of the periods from `first` to `last` that has the most power in its
harmonics, of which there are as many as `wo` has; or `wo` itself if none has any. -/
def search (bins : Array (Phasor α)) (wo first last step : α) : Except Fault α := do
  let count := (Analytic.toWord (Analytic.pi / wo)).toNat
  let best ← tryPeriods bins count step last (stepCount first last step) first ⟨wo, 0.0⟩
  return best.wo

/-- Refines the fundamental of a model in two passes, a coarse and a fine one, keeps it inside the
pitch range and counts its harmonics. -/
def refine (range : PitchRange α) (model : Model α) (bins : Array (Phasor α)) :
    Except Fault (Model α) := do
  let period := Analytic.turn / model.wo
  let wo ← search bins model.wo (period - 5.0) (period + 5.0) 1.0
  let period := Analytic.turn / wo
  let wo ← search bins wo (period - 1.0) (period + 1.0) 0.25
  { model with wo }.withFundamental (range.clamp wo)

end Vocoder.Refinement
