import Vocoder.Codebook.Joint
import Vocoder.Quantiser.Scale

/-!
Joint coding of the fundamental and the energy. Both are predicted from their last values; the index
is that of the residual pair nearest to what the prediction misses. Encoder and decoder move their
predictors in the same way, so they stay equal.
-/

namespace Vocoder

/-- The last coded fundamental, in octaves above 50 Hz, and energy, in decibels. -/
structure Predictor (α : Type) where
  octaves : α
  level : α

namespace Predictor

variable {α : Type} [Analytic α]

def start : Predictor α := ⟨0.0, 0.0⟩

/-- What remains of the last values. -/
def fade (predictor : Predictor α) : Predictor α :=
  ⟨0.8 * predictor.octaves, 0.9 * predictor.level⟩

/-- The values that a residual of the codebook leads to. -/
def advance (predictor : Predictor α) (index : Int) : Except Fault (Predictor α) := do
  let entry ← Codebook.joint.entry index
  let faded := predictor.fade
  return ⟨faded.octaves + (← fetch entry 0), faded.level + (← fetch entry 1)⟩

/-- The weights of both coordinates in the search: less for quiet frames and for falling energy,
more where the fundamental is steady. -/
def weights (target last : Predictor α) : α × α :=
  let w0 : α := 30.0
  let w1 : α := 1.0
  let (w0, w1) := if target.level < 0.0 then (w0 * 0.6, w1 * 0.3) else (w0, w1)
  let (w0, w1) := if target.level < -10.0 then (w0 * 0.3, w1 * 0.3) else (w0, w1)
  let move := Scalar.abs (target.octaves - last.octaves)
  let (w0, w1) :=
    if move < 0.2 then (w0 * 2.0, w1 * 1.5)
    else if 0.5 < move then (w0 * 0.5, w1)
    else (w0, w1)
  let w1 := if target.level < last.level - 10.0 then w1 * 0.5 else w1
  let w1 := if target.level < last.level - 20.0 then w1 * 0.5 else w1
  (w0 * w0, w1 * w1)

/-- The coordinates of a fundamental and an energy. -/
def target (wo e : α) : Predictor α :=
  let e := if e < 0.0 then 0.0 else e
  ⟨Analytic.log2 (wo / Analytic.pi * 4000.0 / 50.0), Analytic.decibels (1e-4 + e)⟩

/-- The index of a fundamental and an energy, and the predictor after it. -/
def encode (predictor : Predictor α) (wo e : α) : Except Fault (Int × Predictor α) := do
  let x := target wo e
  let (w0, w1) := weights x predictor
  let faded := predictor.fade
  let missed := #[x.octaves - faded.octaves, x.level - faded.level]
  let index ← Codebook.joint.nearestWeighted missed #[w0, w1]
  return (index, ← predictor.advance index)

/-- The fundamental and the energy of an index, both inside their ranges, and the predictor after
it. -/
def decode (predictor : Predictor α) (range : PitchRange α) (index : Int) :
    Except Fault ((α × α) × Predictor α) := do
  let next ← predictor.advance ((Codebook.joint (α := α)).clamp index)
  let wo := range.clamp (Analytic.pow 2.0 next.octaves * (Analytic.pi * 50.0) / 4000.0)
  let level :=
    if next.level < Energy.lowLevel then Energy.lowLevel
    else if 60.0 < next.level then 60.0
    else next.level
  return ((wo, Analytic.ofDecibels level), next)

end Predictor

end Vocoder
