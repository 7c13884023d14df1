import Vocoder.Lines.Series

/-!
The prediction filter of a vector of lines. Each line is a section of second order with its roots on
the unit circle; the even lines make up the symmetric part of the filter, the odd lines the
antisymmetric part, and the filter is the mean of both. Its coefficients are what an impulse leaves
behind.
-/

namespace Vocoder.Lines

variable {α : Type} [Analytic α]

/-- Runs a signal through the section `1 - 2 c z⁻¹ + z⁻²`, given its last two inputs. -/
def sectionFilter (c : α) : (last beforeLast : α) → List α → List α
  | _, _, [] => []
  | last, beforeLast, x :: xs => (x - 2.0 * c * last + beforeLast) :: sectionFilter c x last xs

/-- Runs a signal through a section for each cosine. -/
def cascade (cosines : List α) (signal : List α) : List α :=
  cosines.foldl (fun signal c => sectionFilter c 0.0 0.0 signal) signal

/-- Adds the last input to each input: the factor `1 + z⁻¹`. -/
def addLast : (last : α) → List α → List α
  | _, [] => []
  | last, x :: xs => (x + last) :: addLast x xs

/-- Subtracts the last input from each input: the factor `1 - z⁻¹`. -/
def subLast : (last : α) → List α → List α
  | _, [] => []
  | last, x :: xs => (x - last) :: subLast x xs

/-- A one, followed by zeros. -/
def impulse (n : Nat) : List α :=
  match n with
  | 0 => []
  | k + 1 => 1.0 :: List.replicate k 0.0

/-- The `order + 1` coefficients of the filter with the given lines. -/
def toFilter (lines : Array α) (order : Int) : Except Fault (Array α) := do
  let taps ← length (order + 1)
  if 20 < order ∨ order % 2 ≠ 0 then throw .lineCount
  let pairs ← tabulate (order / 2).toNat fun i => do
    return (Analytic.cos (← fetch lines (2 * i : Nat)),
      Analytic.cos (← fetch lines (2 * i + 1 : Nat)))
  let symmetric := addLast 0.0 (cascade (pairs.toList.map (·.1)) (impulse taps))
  let antisymmetric := subLast 0.0 (cascade (pairs.toList.map (·.2)) (impulse taps))
  return (List.zipWith (fun p q => 0.5 * (p + q)) symmetric antisymmetric).toArray

end Vocoder.Lines
