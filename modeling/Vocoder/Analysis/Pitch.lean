import Vocoder.Model
import Vocoder.Window

/-!
The estimate of the pitch. Squared speech has a strong component at the fundamental, even when the
speech itself has none. It is freed of its mean, low-passed, decimated and transformed; the highest
peak in the pitch band, or a sub-multiple of it with a peak of its own, is the fundamental.
-/

namespace Vocoder.Pitch

variable {α : Type} [Analytic α]

/-- The bins of the decimated spectrum that the sampling rate would have. -/
def rateBins : Int := 2560

/-- The lower half of the taps of the low-pass filter, in units of `1e-11`. -/
def lowPassHalf : List Int :=
  [-108181240, -110083440, -92768838, -42289438, 55034190, 200298490, 370585090, 514494150,
    559246660, 430367540, 80284511, -482046100, -1170581000, -1819927500, -2206528200,
    -2092061000, -1280883100, 322047750, 2668381100, 5552062400, 8630594400, 11480192000,
    13674206000, 14867556000]

/-- The taps of the low-pass filter, which are symmetric. -/
def lowPass : List α :=
  (lowPassHalf ++ lowPassHalf.reverse).map fun tap => Scalar.decimal tap 11

/-- What the estimator keeps from one subframe to the next. -/
structure Memory (α : Type) where
  /-- The filtered squares of the analysis buffer. -/
  squares : List α
  /-- The last input and output of the filter that removes the mean. -/
  lastInput : α
  lastOutput : α
  /-- The last inputs of the low-pass filter. -/
  recent : List α

/-- The memory before any speech. -/
def Memory.start : Memory α where
  squares := List.replicate 320 0.0
  lastInput := 0.0
  lastOutput := 0.0
  recent := List.replicate 48 0.0

/-- Squares a sample and removes the mean. The added one keeps silence away from zero. -/
def Memory.notch (memory : Memory α) (x : α) : α × Memory α :=
  let square := x * x
  let output := square - memory.lastInput + 0.95 * memory.lastOutput
  (output + 1.0, { memory with lastInput := square, lastOutput := output })

/-- Runs a value through the low-pass filter. -/
def Memory.smooth (memory : Memory α) (taps : List α) (x : α) : α × Memory α :=
  let recent := memory.recent.drop 1 ++ [x]
  let output := (List.zipWith (fun a b => a * b) recent taps).foldl (fun acc y => acc + y) 0.0
  (output, { memory with recent })

def Memory.filter (taps : List α) : Memory α → List α → List α × Memory α
  | memory, [] => ([], memory)
  | memory, x :: xs =>
    let (x, memory) := memory.notch x
    let (y, memory) := memory.smooth taps x
    let (ys, memory) := memory.filter taps xs
    (y :: ys, memory)

/-- Every fifth value of a list. -/
def decimate : List α → List α
  | [] => []
  | x :: xs => x :: decimate (xs.drop 4)
termination_by xs => xs.length
decreasing_by simp only [List.length_drop, List.length_cons]; omega

/-- The power spectrum of the decimated squares. -/
def spectrum (transform : Transform α) (window : Vector α 64) (squares : List α) : Block α :=
  let block := List.zipWith (fun x w => x * w) (decimate squares) window.toList
  (transform.forward (Block.padded block.toArray)).map Phasor.power

/-- The first of the highest values in the bins `first` to `last`, if it is positive. -/
def peak (powers : Array α) (first last : Int) : Except Fault (α × Int) :=
  foldBetween first (last + 1) ((0.0 : α), first) fun best bin => do
    let power ← fetch powers bin
    return if best.1 < power then (power, bin) else best

/-- Looks for a peak around a sub-multiple `bin` of the highest peak. It counts when it exceeds its
threshold, which is halved around the last estimate, and both neighbours. -/
def subPeak (powers : Array α) (minBin : Int) (gmax : α) (lastBin bin : Int) :
    Except Fault (Option Int) := do
  let first := Analytic.toWord (0.8 * (Scalar.ofInt bin : α))
  let last := Analytic.toWord (1.2 * (Scalar.ofInt bin : α))
  let first := if first < minBin then minBin else first
  let threshold := if first < lastBin ∧ lastBin < last then 0.15 * gmax else 0.3 * gmax
  let (power, top) ← peak powers first last
  if threshold < power ∧ 0 < top ∧ top + 1 < powers.size then
    if (← fetch powers (top - 1)) < power ∧ (← fetch powers (top + 1)) < power then
      return some top
    else return none
  else return none

/-- Goes through the sub-multiples of the highest peak, from the second on, while they are in the
pitch band. The last peak found is the lowest. -/
def lowestPeak (powers : Array α) (minBin : Int) (gmax : α) (gmaxBin lastBin : Int) :
    (fuel : Nat) → (multiple : Int) → (best : Int) → Except Fault Int
  | 0, _, best => .ok best
  | fuel + 1, multiple, best => do
    let bin := gmaxBin.tdiv multiple
    if minBin ≤ bin then
      let found ← subPeak powers minBin gmax lastBin bin
      lowestPeak powers minBin gmax gmaxBin lastBin fuel (multiple + 1) (found.getD best)
    else return best

/-- The fundamental in Hz, given the highest peak and the last estimate. Above the pitch band of
periods up to `maxPeriod` a peak has at most as many sub-multiples as its bin says. -/
def fundamental (powers : Array α) (maxPeriod : Int) (gmax : α) (gmaxBin : Int) (lastF0 : α) :
    Except Fault α := do
  if maxPeriod = 0 then throw .outOfRange
  let minBin := rateBins.tdiv maxPeriod
  let lastBin := Analytic.toWord (lastF0 * Scalar.ofInt rateBins / Scalar.ofInt sampleRate)
  let bin ← lowestPeak powers minBin gmax gmaxBin lastBin gmaxBin.toNat 2 gmaxBin
  return Scalar.ofInt bin * Scalar.ofInt sampleRate / Scalar.ofInt rateBins

/-- The estimate for a subframe: its period in samples and its fundamental in Hz. -/
structure Estimate (α : Type) where
  period : α
  f0 : α

/-- Estimates the pitch after new samples, which favours an estimate close to the last one. -/
def estimate (transform : Transform α) (window : Vector α 64) (memory : Memory α) (fresh : List α)
    (lastF0 : α) : Except Fault (Estimate α × Memory α) := do
  let kept := 320 - fresh.length
  if 320 < fresh.length then throw .outOfRange
  let (filtered, memory) := memory.filter lowPass fresh
  let squares := memory.squares.take kept ++ filtered
  let powers := (spectrum transform window squares).toArray
  let (gmax, gmaxBin) ← peak powers (rateBins.tdiv maxPeriod) (rateBins.tdiv minPeriod)
  let f0 ← fundamental powers maxPeriod gmax gmaxBin lastF0
  let squares := squares.drop fresh.length ++ squares.drop kept
  return (⟨Scalar.ofInt sampleRate / f0, f0⟩, { memory with squares })

end Vocoder.Pitch
