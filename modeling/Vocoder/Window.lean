import Vocoder.Transform

/-!
Windows. The analysis window is a raised cosine over the middle of a buffer of 40 ms, scaled so that
harmonic amplitudes can be read off a spectrum. The synthesis window is a trapezoid, whose flanks of
successive subframes add up to one.
-/

namespace Vocoder

/-- Samples of a subframe of 10 ms. -/
def subframeSize : Nat := 80

/-- Samples of the analysis buffer. -/
def bufferSize : Nat := 320

/-- Samples of half a flank of the synthesis window. -/
def flankSize : Nat := 40

namespace Window

/-- Samples of the analysis window, in the middle of the buffer. -/
def analysisSize : Nat := 279

variable {α : Type} [Analytic α]

/-- Sample `i` of a raised cosine of `n` samples. -/
def raisedCosine (n i : Nat) : α :=
  if n = 1 then 1.0
  else
    0.5 * (1.0 - Analytic.cos (Analytic.turn / Scalar.ofInt ((n : Int) - 1) * Scalar.ofInt i))

/-- The analysis window before scaling: the first 278 samples of a raised cosine of 279, in the
middle of the buffer. -/
def centred : Vector α 320 :=
  Vector.ofFn fun i => if 21 ≤ i.val ∧ i.val < 299 then raisedCosine 279 (i.val - 21) else 0.0

def analysis : Vector α 320 :=
  let shape : Vector α 320 := centred
  let sum := shape.foldl (fun acc x => acc + x * x) 0.0
  let norm := 1.0 / Analytic.sqrt (sum * 512.0)
  shape.map fun x => x * norm

/-- Moves the window of a buffer to a block, its centre at time zero and its first half at the end
of the block. -/
def centreAtZero (buffer : Vector α 320) : Block α :=
  Vector.ofFn fun i =>
    if h : i.val < 139 then buffer.get ⟨i.val + 160, by omega⟩
    else if h : 373 ≤ i.val then buffer.get ⟨i.val - 352, by omega⟩
    else 0.0

/-- The spectrum of a window, real as the window is even, with frequency zero in the middle. -/
def response (transform : Transform α) (window : Vector α 320) : Block α :=
  let bins := transform.forward (centreAtZero window)
  Vector.ofFn fun i =>
    if h : i.val < 256 then (bins.get ⟨i.val + 256, by omega⟩).re
    else (bins.get ⟨i.val - 256, by omega⟩).re

def pitch : Vector α 64 := Vector.ofFn fun i => raisedCosine 64 i.val

/-- Sums of steps: the flank of a trapezoid. -/
def flank (step : α) : (count : Nat) → (height : α) → List α
  | 0, _ => []
  | count + 1, height => height :: flank step count (height + step)

/-- The synthesis window of two subframes. -/
def synthesis : Vector α 160 :=
  let step : α := 1.0 / (2.0 * Scalar.ofInt (flankSize : Int))
  let rising := (flank step 80 0.0).toArray
  let falling := (flank (-step) 80 1.0).toArray
  Vector.ofFn fun i =>
    if i.val < 80 then rising.getD i.val 0.0 else falling.getD (i.val - 80) 0.0

end Window

end Vocoder
