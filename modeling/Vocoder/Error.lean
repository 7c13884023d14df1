import Vocoder.Text.Quoted

/-!
Errors that a caller can meet, by cause, and their texts. A fault inside a stage is not among them.
-/

namespace Vocoder

/-- The family of an error, by which callers tell errors apart. -/
inductive ErrorKind where
  | invalidMode
  | invalidOrder
  | invalidFrameSize
  | invalidBitsLength
  | invalidHeader
  | closed
deriving DecidableEq, Repr

inductive Error where
  /-- No mode has this code. -/
  | unknownMode (code : Int)
  /-- No mode has this name. -/
  | unknownModeName (text : String)
  /-- A prediction order that the quantiser of the lines does not code. -/
  | orderMismatch (name : String) (order : Int) (scheme : String) (coded : Int)
  /-- An update list that is empty, has another length than its schemes, or ends too early. -/
  | malformedUpdates (name : String)
  /-- A first update that refers to one before it. -/
  | startsWithDelta (name : String)
  /-- Fields that do not fill the frame. -/
  | bitCount (name : String) (packed wanted : Int)
  | frameLength (got wanted : Nat)
  | bitsLength (got wanted : Nat)
  /-- Data that does not start with a header. -/
  | noHeader
  /-- A header whose mode byte stands for no mode. -/
  | headerMode (byte : UInt8)
  | closed
deriving DecidableEq, Repr

namespace ErrorKind

/-- The text that every error of a family starts with. -/
def message : ErrorKind → String
  | .invalidMode => "codec2: invalid mode"
  | .invalidOrder => "codec2: invalid LPC order"
  | .invalidFrameSize => "codec2: invalid PCM frame length"
  | .invalidBitsLength => "codec2: invalid bits buffer length"
  | .invalidHeader => "codec2: invalid file header"
  | .closed => "codec2: session closed"

end ErrorKind

namespace Error

def kind : Error → ErrorKind
  | .unknownMode _ | .unknownModeName _ | .malformedUpdates _ | .startsWithDelta _
  | .bitCount .. => .invalidMode
  | .orderMismatch .. => .invalidOrder
  | .frameLength .. => .invalidFrameSize
  | .bitsLength .. => .invalidBitsLength
  | .noHeader | .headerMode _ => .invalidHeader
  | .closed => .closed

/-- What a text says after the family, if anything. -/
def detail? : Error → Option String
  | .unknownMode code => some (toString code)
  | .unknownModeName text => some (Text.quoted text)
  | .orderMismatch name order scheme coded =>
    some ("mode " ++ name ++ " order " ++ toString order ++ ", " ++ scheme ++ " quantiser codes "
      ++ toString coded)
  | .malformedUpdates name => some ("mode " ++ name ++ " has a malformed update list")
  | .startsWithDelta name => some ("mode " ++ name ++ " starts with a differential Wo")
  | .bitCount name packed wanted =>
    some ("mode " ++ name ++ " packs " ++ toString packed ++ " bits, want " ++ toString wanted)
  | .frameLength got wanted | .bitsLength got wanted =>
    some ("got " ++ toString got ++ ", want " ++ toString wanted)
  | .headerMode byte => some ("mode byte " ++ toString byte.toNat)
  | .noHeader | .closed => none

def message (error : Error) : String :=
  match error.detail? with
  | some detail => error.kind.message ++ ": " ++ detail
  | none => error.kind.message

end Error

end Vocoder
