import Vocoder.Error
import Vocoder.Scalar

/-!
The layout of a frame. A frame covers several subframes of 10 ms. Every subframe has a voicing bit,
some carry an update of the fundamental and the energy, and the last one carries the spectral lines.
-/

namespace Vocoder

/-- The number of bits of fields with the given widths. -/
def sumWidths (widths : List Int) : Int := wrap (widths.foldr (· + ·) 0)

def sumBits (counts : List Nat) : Nat := counts.foldr (· + ·) 0

/-- How an update codes the fundamental and the energy. -/
inductive UpdateScheme where
  /-- Both on uniform scales of their own. -/
  | scalar
  /-- The change of the fundamental since the update before, and the energy. -/
  | delta
  /-- Both together, by a predictive codebook. -/
  | joint
deriving DecidableEq, Repr

def pitchBits : Nat := 7

/-- The width of a change of the fundamental. -/
def deltaBits : Nat := 3

def energyBits : Nat := 5

/-- The width of a fundamental and an energy that are coded together. -/
def jointBits : Nat := 8

namespace UpdateScheme

/-- The field widths of an update, in order. -/
def widths : UpdateScheme → List Nat
  | .scalar => [pitchBits, energyBits]
  | .delta => [deltaBits, energyBits]
  | .joint => [jointBits]

def bits (scheme : UpdateScheme) : Nat := sumBits scheme.widths

end UpdateScheme

/-- How the spectral lines of a frame are coded. -/
inductive LineScheme where
  /-- Each line by its own frequency. -/
  | scalar
  /-- Each line by its distance from the one before. -/
  | difference
  /-- A position for all lines, then residuals of the even and of the odd lines. -/
  | split
deriving DecidableEq, Repr

namespace LineScheme

def name : LineScheme → String
  | .scalar => "scalar"
  | .difference => "diff-scalar"
  | .split => "split-vq"

/-- The number of lines that a scheme codes. -/
def order : LineScheme → Int
  | .scalar | .difference | .split => 10

def widths : LineScheme → List Nat
  | .scalar => [4, 4, 4, 4, 4, 4, 4, 3, 3, 2]
  | .difference => [5, 5, 5, 5, 5, 5, 5, 5, 5, 5]
  | .split => [9, 9, 9]

end LineScheme

/-- The greatest order of linear prediction. -/
def maxOrder : Int := 20

/-- The frame layout of a mode. A frame is decoded with as many lines as the line scheme gives, also
where the order is another; the check refuses such a layout. -/
structure Layout where
  name : String
  /-- Bits per second. -/
  bitrate : Int
  subframes : Int
  /-- The subframes that carry an update, ascending. -/
  updates : List Int
  /-- How each update is coded. -/
  schemes : List UpdateScheme
  lines : LineScheme
  /-- The order of linear prediction. -/
  order : Int
  /-- Unused bits at the end. -/
  spare : Int
deriving DecidableEq, Repr

namespace Layout

def totalBits (layout : Layout) : Int :=
  wrap (layout.subframes + layout.spare + sumBits layout.lines.widths +
    sumBits (layout.schemes.map UpdateScheme.bits))

def totalBytes (layout : Layout) : Int := (wrap (layout.totalBits + 7)).tdiv 8

/-- The bits that the bit rate leaves for the subframes of 10 ms. -/
def wantedBits (layout : Layout) : Int := (wrap (layout.bitrate * layout.subframes)).tdiv 100

/-- Which update a subframe carries, if any. -/
def updateAt? (layout : Layout) (subframe : Int) : Option Nat :=
  layout.updates.findIdx? (· == subframe)

def validate (layout : Layout) : Except Error Unit :=
  if layout.order ≠ layout.lines.order ∨ layout.order % 2 ≠ 0 ∨ layout.order > maxOrder then
    .error (.orderMismatch layout.name layout.order layout.lines.name layout.lines.order)
  else if layout.updates.length ≠ layout.schemes.length ∨
      layout.updates.getLast? ≠ some (wrap (layout.subframes - 1)) then
    .error (.malformedUpdates layout.name)
  else if layout.schemes.head? = some .delta then
    .error (.startsWithDelta layout.name)
  else if layout.totalBits ≠ layout.wantedBits then
    .error (.bitCount layout.name layout.totalBits layout.wantedBits)
  else .ok ()

end Layout

end Vocoder
