import Vocoder.Fault
import Vocoder.Scalar

/-!
Bit fields of a packed frame. A field is a number, a width and a code; its bits go into the frame
most significant first, one field after the other, and what is left of the last byte stays zero.
Neighbouring numbers differ in one bit under the Gray code, so that a channel error moves an index
by little.
-/

namespace Vocoder

namespace Bits

/-- The `width` low bits of a number, most significant first. -/
def ofNat (width n : Nat) : List Bool :=
  (List.range width).map fun k => n.testBit (width - 1 - k)

def ofBytes (bytes : List UInt8) : List Bool :=
  bytes.flatMap fun byte => ofNat 8 byte.toNat

end Bits

namespace Gray

/-- The Gray code of a number. -/
def encode (n : Nat) : Nat := n ^^^ (n >>> 1)

/-- The number with a given Gray code, as long as the code has at most sixteen bits. -/
def decode (code : Nat) : Nat :=
  let t := code ^^^ (code >>> 8)
  let t := t ^^^ (t >>> 4)
  let t := t ^^^ (t >>> 2)
  t ^^^ (t >>> 1)

end Gray

/-- How the number of a field becomes bits. -/
inductive Coding where
  | natural
  | gray
deriving DecidableEq, Repr

def Coding.encode : Coding → Nat → Nat
  | .natural, n => n
  | .gray, n => Gray.encode n

def Coding.decode : Coding → Nat → Nat
  | .natural, n => n
  | .gray, n => Gray.decode n

/-- A number to be written into the next `width` bits of a frame. -/
structure BitField where
  value : Int
  width : Nat
  coding : Coding := .gray
deriving DecidableEq, Repr

/-- The low bits of a field's number that its width can hold, of at most 64. -/
def BitField.residue (field : BitField) : Nat :=
  (field.value % (1 <<< min field.width 64 : Nat)).toNat

def BitField.word (field : BitField) : Nat := field.coding.encode field.residue

/-- A frame of `size` bytes that is being written, and the number of bits already in it. -/
structure BitWriter where
  size : Nat
  frame : Vector UInt8 size := Vector.replicate size 0
  position : Nat := 0

namespace BitWriter

/-- The bytes of the frame, zero after the last field. -/
def bytes (writer : BitWriter) : List UInt8 := writer.frame.toList

def bits (writer : BitWriter) : List Bool := (Bits.ofBytes writer.bytes).take writer.position

/-- Appends the `width` low bits of a word, in shares that each go into one byte. -/
def writeWord (writer : BitWriter) (word width : Nat) : Except Fault BitWriter :=
  if width = 0 then .ok writer
  else
    let room := 8 - writer.position % 8
    let share := min width room
    if h : writer.position / 8 < writer.size then
      let slice := (word >>> (width - share)) % (1 <<< share)
      let byte := writer.frame[writer.position / 8] ||| UInt8.ofNat (slice <<< (room - share))
      let filled : BitWriter :=
        { writer with
          frame := writer.frame.set (writer.position / 8) byte
          position := writer.position + share }
      filled.writeWord word (width - share)
    else .error .outOfRange
termination_by width
decreasing_by omega

/-- Appends a field, which has to fit into the frame. -/
def write (writer : BitWriter) (field : BitField) : Except Fault BitWriter :=
  writer.writeWord field.word field.width

def writeAll (writer : BitWriter) : List BitField → Except Fault BitWriter
  | [] => .ok writer
  | field :: rest => do (← writer.write field).writeAll rest

end BitWriter

/-- A frame that is being read, and the number of bits already taken from it. -/
structure BitReader where
  bytes : List UInt8
  position : Nat := 0

namespace BitReader

/-- Adds the next `width` bits of a frame to a word of 64 bits, in shares that each come from one
byte. Bits above the word are lost. -/
def readWord (bytes : List UInt8) (position word width : Nat) : Except Fault Nat :=
  if width = 0 then .ok word
  else
    let room := 8 - position % 8
    let share := min width room
    match bytes[position / 8]? with
    | some byte =>
      let slice := (byte.toNat >>> (room - share)) % (1 <<< share)
      readWord bytes (position + share) (word ||| shiftUp slice (width - share)) (width - share)
    | none => .error .outOfRange
termination_by width
decreasing_by omega

/-- Takes the next bits of the frame. The number they stand for is a signed word of 64 bits. -/
def read (reader : BitReader) (width : Nat) (coding : Coding) :
    Except Fault (Int × BitReader) := do
  let word ← readWord reader.bytes reader.position 0 width
  return (wrap (coding.decode word), { reader with position := reader.position + width })

/-- Takes fields of the given widths and codes in order. -/
def readFields (reader : BitReader) : List (Nat × Coding) → Except Fault (List Int × BitReader)
  | [] => .ok ([], reader)
  | (width, coding) :: rest => do
    let (value, reader) ← reader.read width coding
    let (values, reader) ← reader.readFields rest
    return (value :: values, reader)

/-- Takes Gray coded fields of the given widths in order. -/
def readAll (reader : BitReader) (widths : List Nat) : Except Fault (List Int × BitReader) :=
  reader.readFields (widths.map fun width => (width, .gray))

end BitReader

end Vocoder
