import Vocoder.Layout

/-!
The modes: six bit rates, each with its frame layout, its code in a file header and its name.
-/

namespace Vocoder

namespace Text

/-- The characters that count as white space in text of any script. -/
def isBlank (c : Char) : Bool :=
  let code := c.toNat
  (0x09 ≤ code && code ≤ 0x0d) || code == 0x20 || code == 0x85 || code == 0xa0 || code == 0x1680 ||
    (0x2000 ≤ code && code ≤ 0x200a) || code == 0x2028 || code == 0x2029 || code == 0x202f ||
    code == 0x205f || code == 0x3000

/-- The characters without the blanks at either end. -/
def trimmed (text : List Char) : List Char :=
  ((text.dropWhile isBlank).reverse.dropWhile isBlank).reverse

/-- Drops one leading word from a text that starts with it. -/
def dropWord (word text : List Char) : List Char :=
  if word.isPrefixOf text then text.drop word.length else text

end Text

/-- A bit rate of the codec. -/
inductive Mode where
  | rate3200
  | rate2400
  | rate1600
  | rate1400
  | rate1300
  | rate1200
deriving DecidableEq, Repr

namespace Mode

/-- The modes from the highest to the lowest bit rate. -/
def all : List Mode := [.rate3200, .rate2400, .rate1600, .rate1400, .rate1300, .rate1200]

/-- The number that stands for a mode in a file header. -/
def code : Mode → Nat
  | .rate3200 => 0
  | .rate2400 => 1
  | .rate1600 => 2
  | .rate1400 => 3
  | .rate1300 => 4
  | .rate1200 => 5

def layout : Mode → Layout
  | .rate3200 =>
    { name := "3200", bitrate := 3200, subframes := 2, updates := [1], schemes := [.scalar],
      lines := .difference, order := 10, spare := 0 }
  | .rate2400 =>
    { name := "2400", bitrate := 2400, subframes := 2, updates := [1], schemes := [.joint],
      lines := .scalar, order := 10, spare := 2 }
  | .rate1600 =>
    { name := "1600", bitrate := 1600, subframes := 4, updates := [1, 3],
      schemes := [.scalar, .delta], lines := .scalar, order := 10, spare := 4 }
  | .rate1400 =>
    { name := "1400", bitrate := 1400, subframes := 4, updates := [1, 3],
      schemes := [.joint, .joint], lines := .scalar, order := 10, spare := 0 }
  | .rate1300 =>
    { name := "1300", bitrate := 1300, subframes := 4, updates := [3], schemes := [.scalar],
      lines := .scalar, order := 10, spare := 0 }
  | .rate1200 =>
    { name := "1200", bitrate := 1200, subframes := 4, updates := [1, 3],
      schemes := [.joint, .joint], lines := .split, order := 10, spare := 1 }

/-- The name of a mode is its bit rate. -/
def name (mode : Mode) : String := mode.layout.name

def ofCode? (code : Int) : Option Mode := all.find? fun mode => (mode.code : Int) == code

/-- The mode with a code, or why there is none. -/
def ofCode (code : Int) : Except Error Mode :=
  match ofCode? code with
  | some mode => .ok mode
  | none => .error (.unknownMode code)

/-- How a code is shown, whether it stands for a mode or not. -/
def label (code : Int) : String :=
  match ofCode? code with
  | some mode => mode.name
  | none => "Mode(" ++ toString code ++ ")"

/-- The bit rate of a code, zero if it stands for no mode. -/
def bitrate (code : Int) : Int :=
  match ofCode? code with
  | some mode => mode.layout.bitrate
  | none => 0

/-- Reads a mode name: a bit rate, after `mode`, `_` or both if one likes. Blanks around it and the
case of letters do not count. Only Latin letters become `m`, `o`, `d` or `e` in lower case, so the
case map of the other scripts is not needed. -/
def parse (text : String) : Except Error Mode :=
  let lowered := (Text.trimmed text.toList).map Char.toLower
  let rest := Text.dropWord ['_'] (Text.dropWord ['m', 'o', 'd', 'e'] lowered)
  match all.find? fun mode => mode.name == String.ofList rest with
  | some mode => .ok mode
  | none => .error (.unknownModeName text)

end Mode

end Vocoder
