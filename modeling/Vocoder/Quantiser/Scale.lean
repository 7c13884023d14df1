import Vocoder.Layout
import Vocoder.Model

/-!
Uniform scales of the fundamental and of the energy in decibels, and the scale of changes of the
fundamental. A scale lays `2 ^ bits` levels over its range, from the lower end on; a value goes to
the nearest level, and values outside go to the last level on their side.
-/

namespace Vocoder

/-- The number of levels of a scale, as a signed word of 64 bits. -/
def levelCount (bits : Nat) : Int := if bits < 64 then wrap (1 <<< bits : Nat) else 0

/-- The index of a scale that is nearest to `index`. -/
def clampIndex (index levels : Int) : Int :=
  let top := wrap (levels - 1)
  if index < 0 then 0 else if top < index then top else index

namespace PitchRange

variable {α : Type} [Analytic α]

def encode (range : PitchRange α) (wo : α) (bits : Nat) : Int :=
  let levels := levelCount bits
  let norm := (wo - range.low) / (range.high - range.low)
  clampIndex (Analytic.floorInt (Scalar.ofInt levels * norm + 0.5)) levels

def decode (range : PitchRange α) (index : Int) (bits : Nat) : α :=
  let levels := levelCount bits
  let step := (range.high - range.low) / Scalar.ofInt levels
  range.clamp (range.low + step * Scalar.ofInt (clampIndex index levels))

/-- The change of a fundamental in levels of the full scale, from four down to three up, as a field
of three bits. -/
def encodeDelta (range : PitchRange α) (wo prev : α) : Int :=
  let norm := (wo - prev) / (range.high - range.low)
  let change := Analytic.floorInt (128.0 * norm + 0.5)
  let change := if change > 3 then 3 else change
  let change := if change < -4 then -4 else change
  change % 8

/-- The change that a field of three bits stands for. -/
def signedDelta (index : Int) : Int :=
  let low := index % 8
  if 4 ≤ low then low - 8 else low

def decodeDelta (range : PitchRange α) (index : Int) (prev : α) : α :=
  let step := (range.high - range.low) / 128.0
  range.clamp (prev + step * Scalar.ofInt (signedDelta index))

end PitchRange

namespace Energy

variable {α : Type} [Analytic α]

/-- The lower end of the energy scale in decibels. -/
@[inline] def lowLevel : α := -10.0

/-- The upper end of the energy scale in decibels. -/
@[inline] def highLevel : α := 40.0

/-- The index of an energy; silence has the lowest. -/
def encode (e : α) (bits : Nat) : Int :=
  let levels := levelCount bits
  if e ≤ 0.0 then 0
  else
    let norm := (Analytic.decibels e - lowLevel) / (highLevel - lowLevel)
    clampIndex (Analytic.floorInt (Scalar.ofInt levels * norm + 0.5)) levels

def decode (index : Int) (bits : Nat) : α :=
  let levels := levelCount bits
  let step := (highLevel - lowLevel) / Scalar.ofInt levels
  Analytic.ofDecibels (lowLevel + step * Scalar.ofInt (clampIndex index levels))

end Energy

end Vocoder
