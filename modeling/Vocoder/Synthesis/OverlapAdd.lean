import Vocoder.Model
import Vocoder.Transform

/-!
Sums of sinusoids, overlapped and added. Each harmonic fills one bin of a spectrum, whose inverse
transform is windowed over two subframes; the second half waits for the next subframe.
-/

namespace Vocoder.OverlapAdd

variable {α : Type} [Analytic α]

/-- The bin of harmonic `m`, below half the sampling rate. -/
def bin (wo : α) (m : Int) : Int :=
  min (Analytic.toWord (Scalar.ofInt m * wo * 512.0 / Analytic.turn + 0.5)) 255

def putBin (bins : Bins α) (i : Int) (x : Phasor α) : Except Fault (Bins α) :=
  if 0 ≤ i ∧ i < 512 then .ok (bins.setIfInBounds i.toNat x) else .error .outOfRange

/-- The spectrum of a model. Bins above half the sampling rate hold the conjugates of those below,
so that the signal is real. -/
def spectrum (model : Model α) : Except Fault (Bins α) :=
  foldBetween 1 (model.count + 1) (Vector.replicate 512 Phasor.zero) fun bins m => do
    let b := bin model.wo m
    let x := Phasor.polar (← model.amps.value m) (← model.phases.value m)
    putBin (← putBin bins b x) (512 - b) x.conj

/-- Overlaps two subframes of `n` samples. The frame's last samples come first, as its centre is at
time zero. With `shift`, the second half of the buffer moves to the front before. What a buffer has
beyond two subframes stays. -/
def overlap (n : Nat) (frame window buffer : Array α) (shift : Bool) : Except Fault (Array α) := do
  if buffer.size < 2 * n then throw .outOfRange
  let sums ← tabulate (2 * n) fun i => do
    let w ← fetch window i
    if i + 1 < n then
      let old ← fetch buffer (if shift then n + i else i : Nat)
      return old + (← fetch frame (512 - n + 1 + i : Int)) * w
    else
      let x := (← fetch frame (i - n + 1 : Int)) * w
      if shift then return x else return (← fetch buffer i) + x
  return sums ++ buffer.extract (2 * n) buffer.size

/-- Adds the sinusoids of a model to the buffer. -/
def synthesise (n : Nat) (transform : Transform α) (buffer : Array α) (model : Model α)
    (window : Array α) (shift : Bool) : Except Fault (Array α) := do
  let frame := transform.inverse (← spectrum model)
  overlap n frame.toArray window buffer shift

end Vocoder.OverlapAdd
