import Vocoder.Codebook.Basic

/-!
Codebooks of the spectral lines. Those of single lines are evenly spaced frequencies in Hz. The
split codebooks are in radians: the first holds joint positions of the line pairs, the other two
residuals of the even and of the odd lines. The split codebooks are products: their index is a
string of digits, one for each factor, the first factor in the low bits, and every factor has a
power of two of levels.
-/

namespace Vocoder

namespace Product

/-- The number of halvings that bring a number down to one. -/
def log2 (n : Int) : Nat := if n ≤ 1 then 0 else Nat.log2 n.toNat

/-- The bits that two words of 64 bits have in common. -/
def common (a b : Int) : Int := (Int64.ofInt a &&& Int64.ofInt b).toInt

/-- The digit of factor `d` in the index `n` of a product of factors of the given sizes. -/
def digit (n : Int) (sizes : List Int) (d : Nat) : Int :=
  common (n >>> ((sizes.take d).map log2).foldr (· + ·) 0) (sizes.getD d 1 - 1)

/-- The digit of a factor, which has to be one of the product's. -/
def digitAt (n : Int) (sizes : List Int) (d : Int) : Except Fault Int :=
  if 0 ≤ d ∧ d < sizes.length then .ok (digit n sizes d.toNat) else .error .outOfRange

/-- The level of every factor at index `n` of the product. -/
def levels {β : Type} (factors : List (List β)) (n : Nat) : List β :=
  let sizes := factors.map fun levels => (levels.length : Int)
  (factors.zipIdx.filterMap fun (levels, d) => levels[(digit n sizes d).toNat]?)

end Product

variable {α : Type}

/-- Radians per sample of one Hz at a sampling rate of 8 kHz. -/
@[inline] def radPerHz [Analytic α] : α := Analytic.pi / 4000.0

/-- The frequency in Hz of an angle per sample. -/
@[inline] def toHz [Analytic α] (rad : α) : α := rad / radPerHz

namespace Codebook

/-- A codebook of `2 ^ bits` frequencies, evenly spaced from the first one on. -/
def ramp [Scalar α] (first step : Nat) (bits : Nat) : Codebook α where
  dim := 1
  bits := bits
  size := (1 <<< bits : Nat)
  values := (Array.range (1 <<< bits)).map fun (k : Nat) =>
    Scalar.ofInt ((first + step * k : Nat) : Int)

/-- A frequency codebook for each line. -/
def scalarLines [Scalar α] : Array (Codebook α) :=
  #[ramp 225 25 4, ramp 325 25 4, ramp 500 50 4, ramp 700 100 4, ramp 950 100 4, ramp 1100 100 4,
    ramp 1500 100 4, ramp 2300 100 3, ramp 2500 100 3, ramp 2900 200 2]

/-- For each line a codebook of its distance from the line before. -/
def differenceLines [Scalar α] : Array (Codebook α) :=
  #[ramp 25 25 5, ramp 25 25 5, ramp 50 50 5, ramp 50 50 5, ramp 50 50 5, ramp 50 50 5,
    ramp 50 50 5, ramp 50 50 5, ramp 50 50 5, ramp 50 50 5]

/-- The joint positions of each pair of lines, in Hz. -/
def pairPositions : List (List (Int × Int)) :=
  [[(340, 440), (470, 550), (590, 675), (685, 805)],
    [(850, 1440), (915, 1100), (1020, 1305), (1040, 1580)],
    [(1435, 1755), (1520, 2065), (1755, 1900), (1975, 2155)],
    [(2180, 2555), (2385, 2580), (2385, 2840), (2595, 2840)],
    [(2955, 3350), (3100, 3415)]]

/-- The residual levels of the even lines, in Hz. -/
def evenResiduals : List (List Int) :=
  [[-60, -25, 15, 55], [-85, -25, 40, 120], [-120, -40, 35, 115], [-85, -20, 40, 95], [-40, 40]]

/-- The residual levels of the odd lines, in Hz. -/
def oddResiduals : List (List Int) :=
  [[-55, -20, 15, 55], [-105, -30, 30, 100], [-95, -20, 50, 125], [-90, -25, 45, 110], [-60, 40]]

variable [Analytic α]

/-- The positions of all lines in radians. -/
def positionLines : Codebook α where
  dim := 10
  bits := 9
  size := 512
  values := (List.range 512).toArray.flatMap fun n =>
    ((Product.levels pairPositions n).flatMap fun (low, high) =>
      [Scalar.ofInt low * radPerHz, Scalar.ofInt high * radPerHz]).toArray

/-- The residuals in radians of every other line. -/
def residualLines (residuals : List (List Int)) : Codebook α where
  dim := 5
  bits := 9
  size := 512
  values := (List.range 512).toArray.flatMap fun n =>
    ((Product.levels residuals n).map fun hz => Scalar.ofInt hz * radPerHz).toArray

structure SplitLines (α : Type) where
  positions : Codebook α
  even : Codebook α
  odd : Codebook α

def splitLines : SplitLines α :=
  ⟨positionLines, residualLines evenResiduals, residualLines oddResiduals⟩

end Codebook

end Vocoder
