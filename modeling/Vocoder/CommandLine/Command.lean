import Vocoder.CommandLine.Flags
import Vocoder.Scalar

/-!
The commands of the two tools: what their flags set, and the names of the input and the output.
-/

namespace Vocoder.CommandLine

/-- The two tools: one turns samples into a coded file, the other turns it back. -/
inductive Tool where
  | encoder
  | decoder
deriving DecidableEq, Repr

/-- The kinds of the flags of a tool. Only the decoder knows a bit error rate. -/
def Tool.flagKind : Tool → String → Option FlagKind
  | _, "mode" => some .valued
  | .decoder, "ber" => some .valued
  | _, "trace" => some .switch
  | _, "v" => some .switch
  | _, _ => none

/-- What the flags set. -/
structure Options (α : Type) where
  modeName : String
  errorRate : α
  /-- Whether every stage is logged. -/
  trace : Bool
  verbose : Bool

structure Command (α : Type) where
  options : Options α
  input : String
  output : String

namespace Options

variable {α : Type} [Scalar α]

def default : Options α where
  modeName := "3200"
  errorRate := 0.0
  trace := false
  verbose := false

/-- Sets one flag, given how a number is read. -/
def assign (readNumber : String → Option α) (options : Options α) (flag : String × String) :
    Option (Options α) :=
  match flag with
  | ("mode", value) => some { options with modeName := value }
  | ("ber", value) => do return { options with errorRate := ← readNumber value }
  | ("trace", value) => do return { options with trace := ← switchValue? value }
  | ("v", value) => do return { options with verbose := ← switchValue? value }
  | _ => none

end Options

/-- Reads the arguments of a tool: its flags, and then two names. A flag that is given again wins.
-/
def Command.parse {α : Type} [Scalar α] (tool : Tool) (readNumber : String → Option α)
    (arguments : List String) : Option (Command α) := do
  let parsed ← parseFlags tool.flagKind arguments
  let options ← parsed.flags.foldlM (Options.assign readNumber) Options.default
  match parsed.arguments with
  | [input, output] => some ⟨options, input, output⟩
  | _ => none

end Vocoder.CommandLine
