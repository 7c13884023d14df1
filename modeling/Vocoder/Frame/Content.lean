import Vocoder.Bits
import Vocoder.Layout
import Vocoder.Quantiser.Joint

/-!
The content of a frame: what its fields say. The layout of a mode fixes the order of the fields. The
voicing flags of the subframes up to an update come right before that update.
-/

namespace Vocoder

/-- The indexes of an update. -/
inductive UpdateCode where
  | scalar (pitch energy : Int)
  | delta (change energy : Int)
  | joint (index : Int)
deriving DecidableEq, Repr

namespace UpdateCode

def fields : UpdateCode → List BitField
  | .scalar pitch energy => [⟨pitch, pitchBits, .gray⟩, ⟨energy, energyBits, .gray⟩]
  | .delta change energy => [⟨change, deltaBits, .gray⟩, ⟨energy, energyBits, .gray⟩]
  | .joint index => [⟨index, jointBits, .gray⟩]

def read (scheme : UpdateScheme) (reader : BitReader) : Except Fault (UpdateCode × BitReader) := do
  match scheme with
  | .scalar =>
    let (pitch, reader) ← reader.read pitchBits .gray
    let (energy, reader) ← reader.read energyBits .gray
    return (.scalar pitch energy, reader)
  | .delta =>
    let (change, reader) ← reader.read deltaBits .gray
    let (energy, reader) ← reader.read energyBits .gray
    return (.delta change energy, reader)
  | .joint =>
    let (index, reader) ← reader.read jointBits .gray
    return (.joint index, reader)

variable {α : Type} [Analytic α]

/-- What coding an update carries on: the last fundamental as the decoder has it, and the
predictor. -/
structure Reference (α : Type) where
  wo : α
  predictor : Predictor α

/-- Codes a fundamental and an energy. A joint update leaves the last fundamental as it was. -/
def encode (range : PitchRange α) (scheme : UpdateScheme) (wo energy : α)
    (reference : Reference α) : Except Fault (UpdateCode × Reference α) := do
  match scheme with
  | .scalar =>
    let index := range.encode wo pitchBits
    return (.scalar index (Energy.encode energy energyBits),
      { reference with wo := range.decode index pitchBits })
  | .delta =>
    let index := range.encodeDelta wo reference.wo
    return (.delta index (Energy.encode energy energyBits),
      { reference with wo := range.decodeDelta index reference.wo })
  | .joint =>
    let (index, predictor) ← reference.predictor.encode wo energy
    return (.joint index, { reference with predictor })

/-- The fundamental and the energy of an update. -/
def decode (range : PitchRange α) (code : UpdateCode) (reference : Reference α) :
    Except Fault ((α × α) × Reference α) := do
  match code with
  | .scalar pitch energy =>
    let wo := range.decode pitch pitchBits
    return ((wo, Energy.decode energy energyBits), { reference with wo })
  | .delta change energy =>
    let wo := range.decodeDelta change reference.wo
    return ((wo, Energy.decode energy energyBits), { reference with wo })
  | .joint index =>
    let ((wo, energy), predictor) ← reference.predictor.decode range index
    return ((wo, energy), ⟨wo, predictor⟩)

end UpdateCode

namespace Frame

/-- What the fields of a frame say. -/
structure Content where
  /-- Whether each subframe is voiced. -/
  voicing : List Bool
  updates : List UpdateCode
  /-- The indexes of the lines. -/
  lines : List Int
deriving DecidableEq, Repr

def voicingField (voiced : Bool) : BitField := ⟨voiced.toNat, 1, .gray⟩

def lineFields (scheme : LineScheme) (indexes : List Int) : List BitField :=
  List.zipWith (fun index width => ⟨index, width, .gray⟩) indexes scheme.widths

def readVoicing : (count : Nat) → BitReader → Except Fault (List Bool × BitReader)
  | 0, reader => .ok ([], reader)
  | count + 1, reader => do
    let (flag, reader) ← reader.read 1 .gray
    let (flags, reader) ← readVoicing count reader
    return (decide (flag = 1) :: flags, reader)

/-- Reads the updates of a frame, each after the voicing flags up to its subframe. -/
def readUpdates (subframes : Int) :
    List Int → List UpdateScheme → List Bool → BitReader →
      Except Fault ((List Bool × List UpdateCode) × BitReader)
  | [], _, voicing, reader => .ok ((voicing, []), reader)
  | _ :: _, [], _, _ => .error .outOfRange
  | subframe :: updates, scheme :: schemes, voicing, reader => do
    if subframes ≤ subframe then throw .outOfRange
    let (flags, reader) ← readVoicing (subframe + 1 - voicing.length).toNat reader
    let (code, reader) ← UpdateCode.read scheme reader
    let ((voicing, codes), reader) ←
      readUpdates subframes updates schemes (voicing ++ flags) reader
    return ((voicing, code :: codes), reader)

def read (layout : Layout) (bytes : List UInt8) : Except Fault Content := do
  let ((voicing, updates), reader) ←
    readUpdates layout.subframes layout.updates layout.schemes [] { bytes }
  let (lines, _) ← reader.readAll layout.lines.widths
  return ⟨voicing, updates, lines⟩

end Frame

end Vocoder
