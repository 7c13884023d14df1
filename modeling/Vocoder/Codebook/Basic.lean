import Vocoder.Fault
import Vocoder.Scalar

/-!
Codebooks, and the search for the entry nearest to a vector. A search walks the entries in order and
keeps the first one with the least distance, as long as that is below a bound.
-/

namespace Vocoder

/-- A table of `size` vectors of dimension `dim`, one after the other, under indexes of `bits`
bits. -/
structure Codebook (α : Type) where
  dim : Int
  bits : Int
  size : Int
  values : Array α

namespace Codebook

variable {α : Type}

/-- The vector with an index. -/
def entry (book : Codebook α) (i : Int) : Except Fault (Array α) :=
  slice book.values (wrap (i * book.dim)) (wrap ((i + 1) * book.dim))

/-- The index of the book that is nearest to `i`. -/
def clamp (book : Codebook α) (i : Int) : Int :=
  if i < 0 then 0 else if i ≥ book.size then wrap (book.size - 1) else i

variable [Scalar α]

/-- The first of the indexes below `count` with the least distance, and that distance. When no
distance is below the bound, the answer is index zero at the bound. -/
@[specialize] def firstNearest (bound : α) (count : Int) (distance : Int → Except Fault α) :
    Except Fault (Int × α) :=
  foldBetween 0 count (0, bound) fun best i => do
    let d ← distance i
    return if d < best.2 then (i, d) else best

/-- The distance of entry `j` of a flat table of vectors of dimension `k` from a vector, each
difference scaled by a weight before it is squared. -/
@[specialize] def scaledDistance (table vec weights : Array α) (k j : Int) : Except Fault α :=
  sumBetween 0 k 0.0 fun i => do
    let diff := ((← fetch table (j * k + i)) - (← fetch vec i)) * (← fetch weights i)
    return diff * diff

/-- The nearest of `m` vectors of dimension `k`, and an error sum to which its distance is added. -/
def quantise (table vec weights : Array α) (k m : Int) (errors : α) : Except Fault (Int × α) := do
  let (index, distance) ← firstNearest 1e32 m (scaledDistance table vec weights k)
  return (index, errors + distance)

@[specialize] def squaredDistance (book : Codebook α) (x : Array α) (i : Int) : Except Fault α := do
  let entry ← book.entry i
  sumBetween 0 entry.size 0.0 fun j => do
    let d := (← fetch x j) - (← fetch entry j)
    return d * d

/-- The squared distance of a vector from an entry, with a weight for each coordinate. -/
@[specialize] def weightedDistance (book : Codebook α) (x weights : Array α) (i : Int) :
    Except Fault α := do
  let entry ← book.entry i
  sumBetween 0 entry.size 0.0 fun j => do
    let d := (← fetch x j) - (← fetch entry j)
    return (← fetch weights j) * d * d

def nearest (book : Codebook α) (x : Array α) : Except Fault Int := do
  let (index, _) ← firstNearest 1e15 book.size (book.squaredDistance x)
  return index

/-- The index of the entry nearest to a vector when coordinates count by their weights. -/
def nearestWeighted (book : Codebook α) (x weights : Array α) : Except Fault Int := do
  let (index, _) ← firstNearest 1e15 book.size (book.weightedDistance x weights)
  return index

end Codebook

end Vocoder
