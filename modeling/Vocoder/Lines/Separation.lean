import Vocoder.Codebook.Lines

/-!
Order and separation of decoded lines. Lines that are out of order or too close make the synthesis
filter unstable, so a decoded vector is put in order, spread out, and kept below the band edge.
-/

namespace Vocoder.Lines

variable {α : Type} [Analytic α]

/-- The first of `count` positions from `i` on at which a line lies below the one before it. -/
def descentFrom (lines : Array α) : (i : Int) → (count : Nat) → Except Fault (Option Int)
  | _, 0 => .ok none
  | i, count + 1 => do
    if (← fetch lines i) < (← fetch lines (i - 1)) then return some i
    else descentFrom lines (i + 1) count

/-- The first position below `order` at which a line lies below the one before it. -/
def firstDescent (lines : Array α) (order : Int) : Except Fault (Option Int) :=
  descentFrom lines 1 (order - 1).toNat

/-- Exchanges a line with the one before it and moves both apart by a tenth of a radian. -/
def exchange (lines : Array α) (i : Int) : Except Fault (Array α) := do
  let high ← fetch lines (i - 1)
  let low ← fetch lines i
  store (← store lines (i - 1) (low - 0.1)) i (high + 0.1)

/-- Exchanges lines at the first descent until there is none, at most `fuel` times. -/
def reorderFuel (order : Int) : (fuel : Nat) → Array α → Nat → Except Fault (Array α × Nat)
  | 0, lines, count => .ok (lines, count)
  | fuel + 1, lines, count => do
    match ← firstDescent lines order with
    | none => return (lines, count)
    | some i => reorderFuel order fuel (← exchange lines i) (count + 1)

/-- Lines in ascending order, and the number of exchanges that it took. Less a tenth of a radian
for each position, exchanges only permute the lines and each removes one inversion, so as many of
them as there are pairs of lines are enough. -/
def reorder (lines : Array α) (order : Int) : Except Fault (Array α × Nat) :=
  reorderFuel order (order.toNat * order.toNat + 1) lines 0

/-- The least distance in Hz of line `i` from the line before it. -/
def separation (i : Int) : α :=
  if i < 4 then 12.5 else if i < 7 then 25.0 else 75.0

/-- The highest frequency of the top line. -/
@[inline] def ceiling : α := 3950.0 * radPerHz

/-- Pushes lines up until each keeps its distance from the one before. -/
def pushUp (lines : Array α) (order : Int) : Except Fault (Array α) :=
  foldBetween 1 order lines fun lines i => do
    let gap := separation i * radPerHz
    let below ← fetch lines (i - 1)
    if (← fetch lines i) - below < gap then store lines i (below + gap) else return lines

/-- Pushes lines down, from the top line on, until each keeps its distance from the one above. -/
def pushDown (lines : Array α) (order : Int) : Except Fault (Array α) :=
  foldBetween 0 (order - 1) lines fun lines k => do
    let i := order - 1 - k
    let gap := separation i * radPerHz
    let above ← fetch lines i
    if above - (← fetch lines (i - 1)) < gap then store lines (i - 1) (above - gap)
    else return lines

/-- Lines that keep their distances and stay below the ceiling. -/
def spread (lines : Array α) (order : Int) : Except Fault (Array α) := do
  let lines ← pushUp lines order
  if ceiling < (← fetch lines (order - 1)) then
    pushDown (← store lines (order - 1) ceiling) order
  else return lines

/-- Lines at even distances between zero and half the sampling rate. -/
def evenlySpaced (order : Int) : Except Fault (Array α) := do
  let n ← length order
  return (Array.range n).map fun (i : Nat) =>
    Analytic.pi * Scalar.ofInt (i + 1) / Scalar.ofInt (order + 1)

end Vocoder.Lines
