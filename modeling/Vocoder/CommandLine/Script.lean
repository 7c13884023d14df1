import Vocoder.CommandLine.Folder
import Vocoder.Log

/-!
Scripts: what a tool does with files, streams and its log, as a value. A script can be run on a
folder that is a value too, or be carried out on the files of a system.
-/

namespace Vocoder.CommandLine

/-- Where bytes come from or go to. -/
inductive Place where
  /-- The standard input or output. -/
  | standard
  | file (name : String)
deriving DecidableEq, Repr

/-- The place that an argument names: a dash stands for the standard one. -/
def Place.ofArgument (name : String) : Place := if name = "-" then .standard else .file name

/-- The actions of a tool, each with what follows. -/
inductive Script (α : Type) where
  /-- Opens a place to read from it. -/
  | openInput (place : Place) (next : Option FileError → Script α)
  /-- Makes a place ready to be written. A file that is there loses its content. -/
  | create (place : Place) (next : Option FileError → Script α)
  /-- Reads all bytes. -/
  | read (place : Place) (next : Except FileError (List UInt8) → Script α)
  /-- Writes bytes after those that were written before. -/
  | write (place : Place) (bytes : List UInt8) (next : Script α)
  | log (entries : List (Log.Entry α)) (next : Script α)
  /-- Shows how the tool is used, and ends with a failure. -/
  | usage
  | exit (status : Nat)

/-- What a script finds. -/
structure World where
  folder : Folder
  input : List UInt8

/-- The place that another one leads to. The device of the standard stream that is wanted stands for
that stream. -/
def World.settle (world : World) (stream : Folder.Target) : Place → Place
  | .standard => .standard
  | .file name =>
    match world.folder.resolve false name with
    | .ok target => if target = stream then .standard else .file name
    | .error _ => .file name

/-- What a script leaves behind. -/
structure Outcome (α : Type) where
  status : Nat
  output : List UInt8
  folder : Folder
  usage : Bool
  log : List (Log.Entry α)

namespace Script

variable {α : Type}

@[simp] def run (world : World) : Script α → Outcome α
  | .openInput place next =>
    match world.settle .input place with
    | .standard => run world (next none)
    | .file name => run world (next (world.folder.openFailure? name))
  | .create place next =>
    match world.settle .output place with
    | .standard => run world (next none)
    | .file name =>
      match world.folder.create name with
      | .ok folder => run { world with folder } (next none)
      | .error error => run world (next (some error))
  | .read place next =>
    match world.settle .input place with
    | .standard => run { world with input := [] } (next (.ok world.input))
    | .file name => run world (next (world.folder.read name))
  | .write place bytes next =>
    match world.settle .output place with
    | .standard =>
      let outcome := run world next
      { outcome with output := bytes ++ outcome.output }
    | .file name => run { world with folder := world.folder.append name bytes } next
  | .log entries next =>
    let outcome := run world next
    { outcome with log := entries ++ outcome.log }
  | .usage => ⟨1, [], world.folder, true, []⟩
  | .exit status => ⟨status, [], world.folder, false, []⟩

/-- Logs why a tool cannot go on, and ends with a failure. -/
def fail (message : String) : Script α := .log [⟨.fatal, message, []⟩] (.exit 1)

end Script

end Vocoder.CommandLine
