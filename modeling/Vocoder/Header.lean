import Vocoder.Mode

/-!
The header of a coded file: seven bytes that name the format, its version and the mode.
-/

namespace Vocoder

/-- The seven bytes at the start of a coded file. -/
structure Header where
  magic : UInt8 × UInt8 × UInt8 := (0, 0, 0)
  major : UInt8 := 0
  minor : UInt8 := 0
  mode : UInt8 := 0
  flags : UInt8 := 0
deriving DecidableEq, Repr

namespace Header

def size : Nat := 7

/-- The bytes by which a coded file is known. -/
def magicBytes : UInt8 × UInt8 × UInt8 := (0xc0, 0xde, 0xc2)

/-- The header of a file in the mode with a given code, of which one byte is kept. -/
def ofCode (code : Int) : Header :=
  { magic := magicBytes, major := 1, minor := 0, mode := UInt8.ofNat (code % 256).toNat }

def ofMode (mode : Mode) : Header := ofCode mode.code

def bytes (header : Header) : List UInt8 :=
  [header.magic.1, header.magic.2.1, header.magic.2.2, header.major, header.minor, header.mode,
    header.flags]

/-- Reads the header that data starts with, if it starts with one. -/
def read? : List UInt8 → Option Header
  | a :: b :: c :: major :: minor :: mode :: flags :: _ =>
    if (a, b, c) = magicBytes then some ⟨(a, b, c), major, minor, mode, flags⟩ else none
  | _ => none

/-- The mode that a header names. -/
def namedMode (header : Header) : Except Error Mode :=
  match Mode.ofCode? header.mode.toNat with
  | some mode => .ok mode
  | none => .error (.headerMode header.mode)

/-- The header at the start of data, empty if there is none, and the mode that it names. -/
def parse (data : List UInt8) : Header × Except Error Mode :=
  match read? data with
  | some header => (header, header.namedMode)
  | none => ({}, .error .noHeader)

end Header

end Vocoder
