import Vocoder.Lines.Separation
import Vocoder.Lines.Series

/-!
Linear prediction of a block of speech: its autocorrelation, the coefficients that predict it best,
and the energy that they leave. The coefficients are found order by order, each from the reflection
at that order. The inverse filter leaves of a signal what its past does not predict, and the
synthesis filter rebuilds the signal from that residual; samples before the first one count as zero.
-/

namespace Vocoder.Prediction

section Filters

variable {α : Type} [OfNat α 0] [Add α] [Sub α] [Mul α]

/-- The residual of a signal under the coefficients `a` of orders `0` to `order`. -/
def inverseFilter (signal a : Array α) (order : Int) : Except Fault (Array α) :=
  tabulate signal.size fun i =>
    sumBetween 0 (min order i + 1) 0 fun j => do
      return (← fetch signal (i - j)) * (← fetch a j)

/-- The signal with a given residual. -/
def synthesisFilter (residual a : Array α) (order : Int) : Except Fault (Array α) :=
  foldBetween 0 residual.size #[] fun signal i => do
    let start := (← fetch residual i) * (← fetch a 0)
    let sample ← foldBetween 1 (min order i + 1) start fun acc j => do
      return acc - (← fetch signal (i - j)) * (← fetch a j)
    return signal.push sample

end Filters

section Coefficients

variable {α : Type} [Scalar α]

/-- The sum of the products of two lists, place by place. -/
def sumProducts (xs ys : List α) : α :=
  (List.zipWith (fun x y => x * y) xs ys).foldl (fun acc x => acc + x) 0.0

/-- The sum of the products of a signal with itself, `lag` samples later. -/
def correlation (signal : List α) (lag : Nat) : α := sumProducts signal (signal.drop lag)

/-- The autocorrelation of a signal at the lags `0` to `order`. -/
def autocorrelate (signal : Array α) (order : Int) : Except Fault (Array α) := do
  let lags ← length (order + 1)
  let samples := signal.toList
  return (Array.range lags).map (correlation samples)

/-- The coefficients of an order, from the second on, and the error that they leave. -/
structure Fit (α : Type) where
  taps : List α
  error : α

/-- The reflection at the order after a fit. `lags` has the autocorrelation from that order down to
lag one. -/
def reflection (fit : Fit α) (lag : α) (lags : List α) : α :=
  -(lag + sumProducts fit.taps lags) / fit.error

/-- A reflection outside of `[-1, 1]` would make the filter unstable, and counts as zero. -/
def bounded (k : α) : α := if -1.0 ≤ k ∧ k ≤ 1.0 then k else 0.0

/-- The fit of the next order, given its reflection. -/
def Fit.extend (fit : Fit α) (k : α) : Fit α where
  taps := List.zipWith (fun a b => a + k * b) fit.taps fit.taps.reverse ++ [k]
  error := fit.error * (1.0 - k * k)

/-- Raises the order of a fit lag by lag. `seen` has the lags already used, the last one first. -/
def fitAll : (fit : Fit α) → (seen lags : List α) → Fit α
  | fit, _, [] => fit
  | fit, seen, lag :: lags =>
    fitAll (fit.extend (bounded (reflection fit lag seen))) (lag :: seen) lags

/-- The coefficients `0` to `order` that predict a signal from its autocorrelation. -/
def coefficients (lags : Array α) (order : Int) : Except Fault (Array α) := do
  if order < 0 ∨ 20 < order then throw .outOfRange
  match (← slice lags 0 (order + 1)).toList with
  | [] => throw .outOfRange
  | power :: rest => return (1.0 :: (fitAll ⟨[], power⟩ [] rest).taps).toArray

end Coefficients

variable {α : Type} [Analytic α]

/-- The products of a signal and a window, which may be the longer one. -/
def windowed (signal window : Array α) : Except Fault (Array α) :=
  tabulate signal.size fun i => do return (← fetch signal i) * (← fetch window i)

/-- The coefficients that predict a windowed signal, and the energy that they leave. -/
def analyse (signal window : Array α) (order : Int) : Except Fault (Array α × α) := do
  if 20 < order ∨ 512 < signal.size then throw .analysisBounds
  let lags ← autocorrelate (← windowed signal window) order
  let a ← coefficients lags order
  let energy ← sumBetween 0 (order + 1) 0.0 fun i => do return (← fetch a i) * (← fetch lags i)
  return (a, energy)

/-- Multiplies coefficient `i` by the `i`-th power of a factor, which widens the resonances. -/
def widen (factor : α) : (power : α) → List α → List α
  | _, [] => []
  | power, a :: rest => (a * power) :: widen factor (power * factor) rest

structure Spectrum (α : Type) where
  energy : α
  lines : Array α
  /-- Whether all lines were found; otherwise evenly spaced lines stand in. -/
  found : Bool

/-- Finds the energy and the lines of a windowed block. A silent block has no energy and evenly
spaced lines. -/
def spectrum (signal window : Array α) (order : Int) : Except Fault (Spectrum α) := do
  let lines ← length order
  let power := (← windowed signal window).foldl (fun acc x => acc + x * x) 0.0
  if Scalar.IsZero power then
    return ⟨0.0, ← Lines.evenlySpaced order, true⟩
  let (a, energy) ← analyse signal window order
  let widened := (widen 0.994 1.0 a.toList).toArray
  let (roots, found) ← Lines.ofFilter widened (Array.replicate lines 0.0) order 5 0.01
  if (roots : Int) = order then return ⟨energy, found, true⟩
  return ⟨energy, ← Lines.evenlySpaced order, false⟩

end Vocoder.Prediction
