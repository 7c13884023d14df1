import Vocoder.Fault
import Vocoder.Scalar

/-!
Spectral lines and prediction filters. The lines of a filter are the angles of the roots, on the
unit circle, of its symmetric and antisymmetric parts. Each part is a Chebyshev series in the
cosine of the angle, whose roots are found on a grid from one down to minus one and by bisection.
-/

namespace Vocoder.Lines

variable {α : Type} [Analytic α]

/-- The first `n + 1` Chebyshev polynomials at a point. -/
def chebyshev (x : α) (n : Nat) : Array α :=
  let rec extend : Nat → α → α → Array α → Array α
    | 0, _, _, acc => acc
    | k + 1, last, current, acc =>
      let next := 2.0 * x * current - last
      extend k current next (acc.push next)
  match n with
  | 0 => #[1.0]
  | k + 1 => extend k 1.0 x #[1.0, x]

/-- The value at a point of a series of `order / 2 + 1` coefficients, the highest first. -/
def evaluate (coefficients : Array α) (x : α) (order : Int) : Except Fault α :=
  let n := order.tdiv 2
  if 10 < n then .error .outOfRange
  else
    let basis := chebyshev x n.toNat
    sumBetween 0 (n + 1) 0.0 fun i => do
      return (← fetch coefficients (n - i)) * (← fetch basis i)

/-- The series of the symmetric and the antisymmetric part of a filter. -/
structure Parts (α : Type) where
  symmetric : Array α
  antisymmetric : Array α

def parts (filter : Array α) (order : Int) : Except Fault (Parts α) := do
  let half := order.tdiv 2
  let (p, q, _, _) ← foldBetween 1 (half + 1) (#[(1.0 : α)], #[(1.0 : α)], (1.0 : α), (1.0 : α))
    fun (p, q, lastP, lastQ) i => do
      let near ← fetch filter i
      let far ← fetch filter (order + 1 - i)
      let nextP := near + far - lastP
      let nextQ := near - far + lastQ
      return (p.push nextP, q.push nextQ, nextP, nextQ)
  let double (series : Array α) : Array α :=
    series.mapIdx fun i c => if (i : Int) < half then c * 2.0 else c
  return ⟨double p, double q⟩

/-- The search for roots: the upper and lower end of the current grid step, and the last root. -/
structure Search (α : Type) where
  upper : α
  lower : α
  root : α

/-- Halves a step that holds a root; the sign at the upper end is kept. -/
def bisect (series : Array α) (order : Int) :
    (times : Nat) → (atUpper : α) → Search α → Except Fault (Search α)
  | 0, _, s => .ok s
  | times + 1, atUpper, s => do
    let middle := (s.upper + s.lower) / 2.0
    let atMiddle ← evaluate series middle order
    if 0.0 < atMiddle * atUpper then
      bisect series order times atMiddle { s with upper := middle, root := middle }
    else
      bisect series order times atUpper { s with lower := middle, root := middle }

/-- Walks down the grid to the next step that holds a root and halves it, at most `fuel` steps. -/
def nextRoot (series : Array α) (order : Int) (halvings : Nat) (spacing : α) :
    (fuel : Nat) → (atUpper : α) → Search α → Except Fault (Bool × Search α)
  | 0, _, s => .ok (false, s)
  | fuel + 1, atUpper, s => do
    if -1.0 ≤ s.lower then
      let s := { s with lower := s.upper - spacing }
      let atLower ← evaluate series s.lower order
      if atLower * atUpper < 0.0 ∨ Scalar.IsZero atLower then
        let s ← bisect series order halvings atUpper s
        return (true, { s with upper := s.root })
      else nextRoot series order halvings spacing fuel atLower { s with upper := s.lower }
    else return (false, s)

/-- A number of grid steps that is enough: those that cover the interval from one down to minus one,
and some more. A grid that does not descend has no end, and is followed a long way. -/
def gridSteps (spacing : α) : Nat :=
  if spacing ≤ 0.0 then 16777216 else (Analytic.trunc (2.0 / spacing)).toNat + 8

/-- Finds the lines of a filter of even order. The parts take turns, one root each. Lines whose root
is not found keep the value they had as a cosine. The answer has the number of roots found. -/
def ofFilter (filter buffer : Array α) (order bisections : Int) (spacing : α) :
    Except Fault (Nat × Array α) := do
  if maxLines < order ∨ order % 2 ≠ 0 then throw .lineCount
  let series ← parts filter order
  let halvings := (bisections + 1).toNat
  let fuel := gridSteps spacing
  let (found, buffer, _) ← foldBetween 0 order (0, buffer, (⟨1.0, 0.0, 0.0⟩ : Search α))
    fun (found, buffer, s) j => do
      let part := if j % 2 = 1 then series.antisymmetric else series.symmetric
      let atUpper ← evaluate part s.upper order
      let (hit, s) ← nextRoot part order halvings spacing fuel atUpper s
      if hit then return (found + 1, ← store buffer j s.root, s) else return (found, buffer, s)
  let buffer ← foldBetween 0 order buffer fun buffer i => do
    let x ← fetch buffer i
    let x := if 1.0 < x then 1.0 else if x < -1.0 then -1.0 else x
    store buffer i (Analytic.acos x)
  return (found, buffer)
where
  maxLines : Int := 20

end Vocoder.Lines
