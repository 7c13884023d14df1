/-!
Flags of a command. A flag starts with one dash or two; a switch stands alone, all other flags take
a value, after an equals sign or as the next argument. The first argument that is no flag ends the
flags, and so does a double dash, which is dropped.
-/

namespace Vocoder.CommandLine

/-- Whether a flag needs a value. -/
inductive FlagKind where
  | switch
  | valued
deriving DecidableEq, Repr

/-- One argument, seen on its own. -/
inductive Argument where
  /-- A flag, and the value after its equals sign, if it has one. -/
  | flag (name : String) (value : Option String)
  /-- The double dash. -/
  | finish
  /-- Anything that is no flag. -/
  | plain
  /-- Dashes without a name. -/
  | malformed
deriving DecidableEq, Repr

/-- A name and a value around the first equals sign. -/
def splitAssignment (text : List Char) : Argument :=
  let name := String.ofList (text.takeWhile (· ≠ '='))
  match text.dropWhile (· ≠ '=') with
  | [] => .flag name none
  | _ :: value => .flag name (some (String.ofList value))

/-- What follows the dashes of a flag. -/
def ofFlagText : List Char → Argument
  | [] | '-' :: _ | '=' :: _ => .malformed
  | text => splitAssignment text

/-- Looks at an argument. A lone dash is no flag. -/
def Argument.read (text : String) : Argument :=
  match text.toList with
  | ['-', '-'] => .finish
  | '-' :: '-' :: rest => ofFlagText rest
  | ['-'] => .plain
  | '-' :: rest => ofFlagText rest
  | _ => .plain

/-- The flags of a command with their values, in order, and the arguments after them. -/
structure Parsed where
  flags : List (String × String)
  arguments : List String
deriving DecidableEq, Repr

/-- Adds a flag in front of the others. -/
def Parsed.cons (name value : String) (parsed : Parsed) : Parsed :=
  { parsed with flags := (name, value) :: parsed.flags }

/-- Reads the arguments of a command, given the kinds of its flags. A switch that stands alone is
on. There is no reading if a flag is unknown, malformed or without its value. -/
def parseFlags (kind : String → Option FlagKind) : List String → Option Parsed
  | [] => some ⟨[], []⟩
  | first :: rest =>
    match Argument.read first with
    | .plain => some ⟨[], first :: rest⟩
    | .finish => some ⟨[], rest⟩
    | .malformed => none
    | .flag name value =>
      match kind name, value with
      | none, _ => none
      | some _, some value => (parseFlags kind rest).map (Parsed.cons name value)
      | some .switch, none => (parseFlags kind rest).map (Parsed.cons name "true")
      | some .valued, none =>
        match rest with
        | value :: rest => (parseFlags kind rest).map (Parsed.cons name value)
        | [] => none

/-- The value of a switch: one of a few words for on and off. -/
def switchValue? (text : String) : Option Bool :=
  if ["1", "t", "T", "TRUE", "true", "True"].contains text then some true
  else if ["0", "f", "F", "FALSE", "false", "False"].contains text then some false
  else none

end Vocoder.CommandLine
