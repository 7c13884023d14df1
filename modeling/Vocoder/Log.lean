/-!
Log entries: a level, a message and named values. A log shows the entries of its own level and of
the more severe ones.
-/

namespace Vocoder.Log

/-- How severe an entry is, from the most to the least. -/
inductive Level where
  | panic
  | fatal
  | error
  | warning
  | info
  | debug
  | trace
deriving DecidableEq, Repr

namespace Level

def name : Level → String
  | .panic => "panic"
  | .fatal => "fatal"
  | .error => "error"
  | .warning => "warning"
  | .info => "info"
  | .debug => "debug"
  | .trace => "trace"

def all : List Level := [.panic, .fatal, .error, .warning, .info, .debug, .trace]

/-- The place of a level, from the most severe on. -/
def rank (level : Level) : Nat := level.ctorIdx

/-- The level with a name, in any case of letters. Warnings have a short name, too. -/
def parse? (text : String) : Option Level :=
  let lowered := text.map Char.toLower
  if lowered = "warn" then some .warning else all.find? (·.name = lowered)

end Level

inductive Value (α : Type) where
  | text (value : String)
  | int (value : Int)
  | flag (value : Bool)
  | real (value : α)

structure Entry (α : Type) where
  level : Level
  message : String
  fields : List (String × Value α)

/-- Whether a log of a given level shows an entry. -/
def Entry.shown {α : Type} (threshold : Level) (entry : Entry α) : Bool :=
  entry.level.rank ≤ threshold.rank

/-- The text of a value, given how numbers are written. -/
def Value.render {α : Type} (write : α → String) : Value α → String
  | .text value => value
  | .int value => toString value
  | .flag value => if value then "true" else "false"
  | .real value => write value

end Vocoder.Log
