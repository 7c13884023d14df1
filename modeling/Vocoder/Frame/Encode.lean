import Vocoder.Encoder
import Vocoder.Frame.Content
import Vocoder.Quantiser.Lines
import Vocoder.Stage

/-!
Encoding of a frame. Its subframes are analysed in turn; at every update the fields up to that
subframe are written, and the lines of the last update end the frame.
-/

namespace Vocoder.Frame

variable {α : Type} [Analytic α]

/-- A frame on the way through its subframes. -/
structure Walk (α : Type) where
  encoder : Encoder α
  model : Model α
  /-- The lines at the last update. -/
  lines : Array α
  /-- The last fundamental as the decoder will have it. -/
  wo : α
  /-- The voicing of the subframes so far, and how many of the flags are written. -/
  voicing : List Bool
  written : Nat
  updates : List UpdateCode
  fields : List BitField
  fallbacks : Nat
  notices : List (Notice α)

def Walk.start (encoder : Encoder α) : Walk α where
  encoder := encoder
  model := Model.blank
  lines := #[]
  wo := 0.0
  voicing := []
  written := 0
  updates := []
  fields := []
  fallbacks := 0
  notices := []

def subframe (pcm : Array Int16) (i : Nat) : Except Fault (Vector Int16 80) := do
  let samples ← slice pcm (80 * i) (80 * i + 80)
  if h : samples.size = 80 then return ⟨samples, h⟩ else throw .outOfRange

def Walk.analyse (engine : Engine α) (walk : Walk α) (pcm : Array Int16) (i : Nat) :
    Except Fault (Walk α) := do
  let fresh := (← subframe pcm i).map fun s => (Scalar.ofInt s.toInt : α)
  let (model, encoder) ← walk.encoder.analyse engine fresh walk.model
  return { walk with
    encoder, model
    voicing := walk.voicing ++ [model.voiced]
    notices := walk.notices ++ [.entered ⟨.analysing, i, model, 0.0⟩] }

/-- Writes the fields of the update at a subframe. -/
def Walk.update (engine : Engine α) (layout : Layout) (frames : Nat) (walk : Walk α) (i u : Nat) :
    Except Fault (Walk α) := do
  let found ← walk.encoder.spectrum engine layout.order
  let scheme ← fetch layout.schemes.toArray u
  let (code, reference) ← UpdateCode.encode PitchRange.speech scheme walk.model.wo found.energy
    ⟨walk.wo, walk.encoder.predictor⟩
  let report : List (Notice α) := if found.found then [] else [.fallback frames found.energy]
  return { walk with
    encoder := { walk.encoder with predictor := reference.predictor }
    lines := found.lines
    wo := reference.wo
    written := max walk.written (i + 1)
    updates := walk.updates ++ [code]
    fields := walk.fields ++ (walk.voicing.drop walk.written).map voicingField ++ code.fields
    fallbacks := walk.fallbacks + report.length
    notices := walk.notices ++ report ++ [.entered ⟨.quantising, i, walk.model, found.energy⟩] }

/-- Goes through a subframe. -/
def Walk.step (engine : Engine α) (layout : Layout) (frames : Nat) (pcm : Array Int16)
    (walk : Walk α) (i : Nat) : Except Fault (Walk α) := do
  let walk ← walk.analyse engine pcm i
  match layout.updateAt? i with
  | some u => walk.update engine layout frames i u
  | none => return walk

/-- Goes through the first `count` subframes of a frame, after `frames` frames of the session. -/
def walk (engine : Engine α) (layout : Layout) (frames : Nat) (encoder : Encoder α)
    (pcm : Array Int16) (count : Nat) : Except Fault (Walk α) :=
  (List.range count).foldlM (Walk.step engine layout frames pcm) (Walk.start encoder)

structure Encoded (α : Type) where
  bytes : List UInt8
  content : Content
  encoder : Encoder α
  /-- The error of the lines in Hz squared. -/
  lineError : α
  /-- How often evenly spaced lines stood in. -/
  fallbacks : Nat
  notices : List (Notice α)

/-- Encodes a frame of samples, after `frames` frames of the session. -/
def encode (engine : Engine α) (layout : Layout) (frames : Nat) (encoder : Encoder α)
    (pcm : Array Int16) : Except Fault (Encoded α) := do
  let size ← length layout.totalBytes
  let subframes ← length layout.subframes
  let walked ← walk engine layout frames encoder pcm subframes
  let (indexes, lineError) ← layout.lines.encode walked.lines
  let spare : BitField := ⟨0, ← shiftWidth layout.spare, .gray⟩
  let fields := walked.fields ++ lineFields layout.lines indexes ++ [spare]
  let writer ← BitWriter.writeAll { size } fields
  return {
    bytes := writer.bytes
    content := ⟨walked.voicing, walked.updates, indexes⟩
    encoder := walked.encoder
    lineError
    fallbacks := walked.fallbacks
    notices := walked.notices ++
      [.entered (Event.ofFrame .packed), .entered (Event.ofFrame .idle)] }

end Vocoder.Frame
