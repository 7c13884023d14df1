import Vocoder.Fault
import Vocoder.Scalar

/-!
The range of the fundamental in radians per sample, and the harmonic model of a subframe: a
fundamental, the number of its harmonics up to half the sampling rate, their amplitudes and phases,
and whether the speech is voiced. Speech at 8 kHz has pitch periods of 20 to 160 samples.
-/

namespace Vocoder

def sampleRate : Int := 8000

/-- The shortest pitch period in samples. -/
def minPeriod : Int := 20

/-- The longest pitch period in samples. -/
def maxPeriod : Int := 160

/-- The lowest and the highest fundamental. -/
structure PitchRange (α : Type) where
  low : α
  high : α

namespace PitchRange

variable {α : Type}

def speech [Analytic α] : PitchRange α where
  low := Analytic.turn / 160.0
  high := Analytic.turn / 20.0

/-- The fundamental of the range that is nearest to `wo`. -/
def clamp [Scalar α] (range : PitchRange α) (wo : α) : α :=
  if wo < range.low then range.low
  else if range.high < wo then range.high
  else wo

end PitchRange

def maxHarmonics : Int := 80

/-- A value for each harmonic from the first on; position zero is not used. -/
abbrev Harmonics (α : Type) := Vector α 81

namespace Harmonics

variable {α : Type}

@[inline] def value (values : Harmonics α) (m : Int) : Except Fault α := fetch values.toArray m

@[inline] def put (values : Harmonics α) (m : Int) (x : α) : Except Fault (Harmonics α) :=
  if 0 ≤ m ∧ m < 81 then .ok (values.setIfInBounds m.toNat x) else .error .outOfRange

/-- Replaces the values of the harmonics `1` to `count` by those of a function, one by one. -/
@[specialize] def fill (values : Harmonics α) (count : Int) (f : Int → Except Fault α) :
    Except Fault (Harmonics α) :=
  foldBetween 1 (count + 1) values fun values m => do values.put m (← f m)

/-- The values of the harmonics `1` to `count`. -/
def upTo (values : Harmonics α) (count : Int) : Except Fault (Array α) :=
  slice values.toArray 1 (count + 1)

end Harmonics

/-- The harmonic model of a subframe. -/
structure Model (α : Type) where
  /-- The fundamental in radians per sample. -/
  wo : α
  /-- The number of harmonics. -/
  count : Int
  amps : Harmonics α
  phases : Harmonics α
  voiced : Bool

namespace Model

variable {α : Type}

/-- The model of a subframe of which nothing is known. -/
def blank [Scalar α] : Model α where
  wo := 0.0
  count := 0
  amps := Vector.replicate 81 0.0
  phases := Vector.replicate 81 0.0
  voiced := false

/-- The number of harmonics of a fundamental below half the sampling rate. -/
def harmonicsOf [Analytic α] (wo : α) : Int := Analytic.floorInt (Analytic.pi / wo)

/-- Sets the fundamental, and the number of harmonics with it. -/
def withFundamental [Analytic α] (model : Model α) (wo : α) : Except Fault (Model α) :=
  let count := harmonicsOf wo
  if count < 1 ∨ maxHarmonics < count then .error .harmonicCount
  else .ok { model with wo, count }

end Model

end Vocoder
