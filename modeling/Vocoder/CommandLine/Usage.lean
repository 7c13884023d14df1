import Vocoder.CommandLine.Command
import Vocoder.Log
import Vocoder.Text.Quoted

/-!
Texts for the terminal: how a tool is used, and the lines of a log.
-/

namespace Vocoder.CommandLine

def Tool.name : Tool → String
  | .encoder => "encode"
  | .decoder => "decode"

def Tool.ofName? (name : String) : Option Tool := [Tool.encoder, .decoder].find? (·.name = name)

def Tool.usage (program : String) (tool : Tool) : String :=
  let modes := "[-mode 3200|2400|1600|1400|1300|1200]"
  let start := "usage: " ++ program ++ " " ++ tool.name ++ " " ++ modes
  match tool with
  | .encoder =>
    start ++ " [-trace] [-v] SampleFile CodedFile\n" ++
      "A coded file whose name ends in .c2 starts with a header."
  | .decoder =>
    start ++ " [-ber RATE] [-trace] [-v] CodedFile SampleFile\n" ++
      "The mode in the header of a coded file wins over the flag."

/-- Whether a text in a log line needs no quotes. -/
def isBare (text : String) : Bool :=
  text.toList.all fun c => c.isAlphanum || "-._/@^+".contains c

def logText (text : String) : String := if isBare text then text else Text.quoted text

/-- The line of a log entry: level, message, and the values sorted by name. -/
def logLine {α : Type} (write : α → String) (entry : Log.Entry α) : String :=
  let fields := entry.fields.mergeSort fun a b => decide (a.1 ≤ b.1)
  let values := fields.map fun (key, value) => key ++ "=" ++ logText (value.render write)
  " ".intercalate
    (["level=" ++ entry.level.name, "msg=" ++ logText entry.message] ++ values)

end Vocoder.CommandLine
