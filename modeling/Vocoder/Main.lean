import Vocoder.CommandLine.Tool
import Vocoder.CommandLine.Usage
import Vocoder.Text.Scientific

/-!
The command line. The first argument names the tool, and the others are the tool's own.
-/

namespace Vocoder.CommandLine

/-- The cause of a failure of the system. -/
def causeOf : IO.Error → FileCause
  | .noFileOrDirectory .. => .missing
  | .inappropriateType _ 20 _ => .notFolder
  | .inappropriateType _ 21 _ => .isFolder
  | .invalidArgument _ 36 _ => .nameTooLong
  | .noSuchThing _ 6 _ => .noDevice
  | error => .other (toString error)

/-- Tries an action on a file. -/
def attempt {β : Type} (verb name : String) (action : IO β) : IO (Except FileError β) := do
  try return .ok (← action)
  catch error => return .error ⟨verb, name, causeOf error⟩

def failureOf {β : Type} : Except FileError β → Option FileError
  | .ok _ => none
  | .error error => some error

partial def readStream (stream : IO.FS.Stream) (sofar : ByteArray) : IO ByteArray := do
  let more ← stream.read 65536
  if more.isEmpty then return sofar else readStream stream (sofar ++ more)

/-- Carries out a script, and gives the status to end with. -/
def perform (tool : Tool) : Script Float → IO UInt32
  | .openInput .standard next => perform tool (next none)
  | .openInput (.file name) next => do
    perform tool (next (failureOf (← attempt "open" name (IO.FS.Handle.mk name .read))))
  | .create .standard next => perform tool (next none)
  | .create (.file name) next => do
    perform tool (next (failureOf (← attempt "open" name (IO.FS.writeBinFile name .empty))))
  | .read .standard next => do
    let bytes ← readStream (← IO.getStdin) .empty
    perform tool (next (.ok bytes.toList))
  | .read (.file name) next => do
    let opened ← attempt "open" name (IO.FS.Handle.mk name .read)
    match opened with
    | .error error => perform tool (next (.error error))
    | .ok _ =>
      let bytes ← attempt "read" name (IO.FS.readBinFile name)
      perform tool (next (bytes.map ByteArray.toList))
  | .write .standard bytes next => do
    let out ← IO.getStdout
    out.write (ByteArray.mk bytes.toArray)
    out.flush
    perform tool next
  | .write (.file name) bytes next => do
    IO.FS.withFile name .append fun handle => handle.write (ByteArray.mk bytes.toArray)
    perform tool next
  | .log entries next => do
    for entry in entries do
      IO.eprintln (logLine Text.Scientific.render entry)
    perform tool next
  | .usage => do
    IO.eprintln (tool.usage "vocoder")
    return 1
  | .exit status => return UInt32.ofNat status

end Vocoder.CommandLine

open Vocoder.CommandLine in
/-- Runs the tool that the first argument names. -/
def main (arguments : List String) : IO UInt32 := do
  match arguments with
  | [] =>
    IO.eprintln "usage: vocoder encode|decode ..."
    return 1
  | name :: rest =>
    match Tool.ofName? name with
    | some tool => perform tool (tool.binary64 rest)
    | none =>
      IO.eprintln "usage: vocoder encode|decode ..."
      return 1
