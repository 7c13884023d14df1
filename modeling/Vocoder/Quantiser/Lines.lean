import Vocoder.Codebook.Lines
import Vocoder.Layout

/-!
Coding of the spectral lines. Every scheme turns a vector of lines in radians into one index for
each field, and the indexes into lines. The error of a scheme is the sum of the squared errors of
the lines in Hz.
-/

namespace Vocoder

variable {α : Type} [Analytic α]

namespace LineScheme

/-- Codes each line by its frequency. -/
def encodeScalar (lines : Array α) : Except Fault (List Int × α) := do
  let books : Array (Codebook α) := Codebook.scalarLines
  let (indexes, errors) ← foldBetween 0 books.size (([] : List Int), (0.0 : α))
    fun (indexes, errors) i => do
      let book ← fetch books i
      let hz := toHz (← fetch lines i)
      let (index, errors) ← Codebook.quantise book.values #[hz] #[1.0] book.dim book.size errors
      return (index :: indexes, errors)
  return (indexes.reverse, errors)

/-- The lines of their frequencies' indexes. -/
def decodeScalar (indexes : Array Int) : Except Fault (Array α) :=
  let books : Array (Codebook α) := Codebook.scalarLines
  tabulate books.size fun i => do
    let book ← fetch books i
    let entry ← book.entry (book.clamp (← fetch indexes i))
    return (← fetch entry 0) * radPerHz

/-- Codes each line by its distance from the last line as the decoder will have it, so that errors
do not add up. -/
def encodeDifference (lines : Array α) : Except Fault (List Int × α) := do
  let books : Array (Codebook α) := Codebook.differenceLines
  let (indexes, _, errors) ← foldBetween 0 books.size (([] : List Int), (0.0 : α), (0.0 : α))
    fun (indexes, last, errors) i => do
      let book ← fetch books i
      let distance := toHz (← fetch lines i) - last
      let (index, errors) ←
        Codebook.quantise book.values #[distance] #[1.0] book.dim book.size errors
      let entry ← book.entry index
      return (index :: indexes, last + (← fetch entry 0), errors)
  return (indexes.reverse, errors)

/-- The lines of their distances' indexes. -/
def decodeDifference (indexes : Array Int) : Except Fault (Array α) := do
  let books : Array (Codebook α) := Codebook.differenceLines
  let (lines, _) ← foldBetween 0 books.size ((#[] : Array α), (0.0 : α))
    fun (lines, hz) i => do
      let book ← fetch books i
      let entry ← book.entry (book.clamp (← fetch indexes i))
      let hz := hz + (← fetch entry 0)
      return (lines.push (hz * radPerHz), hz)
  return lines

/-- The distance of a line from the one before it, or from zero. -/
def gapBelow (lines : Array α) (i : Nat) : Except Fault α :=
  if i = 0 then fetch lines i else do return (← fetch lines i) - (← fetch lines (i - 1 : Int))

/-- The distance of a line from the one after it, or from half the sampling rate. -/
def gapAbove (lines : Array α) (i : Nat) : Except Fault α :=
  if i + 1 = lines.size then do return Analytic.pi - (← fetch lines i)
  else do return (← fetch lines (i + 1 : Int)) - (← fetch lines i)

/-- Weights that favour lines close to a neighbour, which mark a resonance. -/
def weights (lines : Array α) : Except Fault (Array α) := do
  if lines.size < 2 then throw .outOfRange
  tabulate lines.size fun i => do
    return 1.0 / (0.01 + Scalar.least (← gapBelow lines i) (← gapAbove lines i))

/-- The lines of positions and residuals. -/
def decodeSplit (indexes : Array Int) : Except Fault (Array α) := do
  let books : Codebook.SplitLines α := Codebook.splitLines
  let position ← books.positions.entry (books.positions.clamp (← fetch indexes 0))
  let even ← books.even.entry (books.even.clamp (← fetch indexes 1))
  let odd ← books.odd.entry (books.odd.clamp (← fetch indexes 2))
  tabulate position.size fun i => do
    let residual ← if i % 2 = 0 then fetch even (i / 2 : Nat) else fetch odd (i / 2 : Nat)
    return (← fetch position i) + residual

/-- Codes all lines by the nearest position, then the even and the odd lines by the nearest
residuals. The error is that of the lines which the decoder will have. -/
def encodeSplit (lines : Array α) : Except Fault (List Int × α) := do
  let books : Codebook.SplitLines α := Codebook.splitLines
  let w ← weights lines
  let first ← books.positions.nearest lines
  let position ← books.positions.entry first
  let half := lines.size / 2
  let residual (parity : Nat) : Except Fault (Array α) := tabulate half fun i => do
    return (← fetch lines (2 * i + parity : Nat)) - (← fetch position (2 * i + parity : Nat))
  let weight (parity : Nat) : Except Fault (Array α) := tabulate half fun i =>
    fetch w (2 * i + parity : Nat)
  let second ← books.even.nearestWeighted (← residual 0) (← weight 0)
  let third ← books.odd.nearestWeighted (← residual 1) (← weight 1)
  let rebuilt ← decodeSplit (α := α) #[first, second, third]
  let errors ← sumBetween 0 lines.size 0.0 fun i => do
    let line ← if i < rebuilt.size then fetch rebuilt i else pure 0.0
    let d := toHz (line - (← fetch lines i))
    return d * d
  return ([first, second, third], errors)

/-- The indexes of a vector of lines, in the order of the fields, and their error in Hz squared. -/
def encode (scheme : LineScheme) (lines : Array α) : Except Fault (List Int × α) :=
  match scheme with
  | .scalar => encodeScalar lines
  | .difference => encodeDifference lines
  | .split => encodeSplit lines

/-- The lines of indexes; an index outside its codebook counts as the nearest one inside. -/
def decode (scheme : LineScheme) (indexes : Array Int) : Except Fault (Array α) :=
  match scheme with
  | .scalar => decodeScalar indexes
  | .difference => decodeDifference indexes
  | .split => decodeSplit indexes

end LineScheme

end Vocoder
