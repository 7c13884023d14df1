import Vocoder.Binary64.Scalar
import Vocoder.Window

/-!
What every subframe needs and no subframe changes: the transform and the windows.
-/

namespace Vocoder

/-- The transform and the windows made for it. -/
structure Engine (α : Type) where
  transform : Transform α
  /-- The analysis window and its spectrum. -/
  window : Vector α 320
  response : Block α
  /-- The window of the pitch estimator. -/
  pitchWindow : Vector α 64
  /-- The window of two overlapping subframes. -/
  synthesisWindow : Vector α 160

def Engine.ofTransform {α : Type} [Analytic α] (transform : Transform α) : Engine α where
  transform := transform
  window := Window.analysis
  response := Window.response transform Window.analysis
  pitchWindow := Window.pitch
  synthesisWindow := Window.synthesis

/-- The roots of the transform in binary floating point, computed once. -/
def Engine.roots64 : List (Phasor Float) := Dft.roots 8

theorem Engine.length_roots64 : Engine.roots64.length = 256 := Dft.length_roots 8

/-- The engine that runs on binary floating point. -/
def Engine.binary64 : Engine Float :=
  Engine.ofTransform (Transform.ofRoots Engine.roots64 (Nat.le_of_eq Engine.length_roots64.symm))

/-- The spectrum of the windowed middle of a buffer, with the centre of the window at time zero. -/
def Engine.speechBins {α : Type} [Analytic α] (engine : Engine α) (speech : Array α) :
    Except Fault (Bins α) :=
  if h : 299 ≤ speech.size then
    let product (k : Nat) (hk : k < 299) : α :=
      speech[k] * engine.window.get ⟨k, by omega⟩
    .ok (engine.transform.forward (Vector.ofFn fun i =>
      if hi : i.val < 139 then product (i.val + 160) (by omega)
      else if hj : 373 ≤ i.val then product (i.val - 352) (by omega)
      else 0.0))
  else .error .outOfRange

end Vocoder
