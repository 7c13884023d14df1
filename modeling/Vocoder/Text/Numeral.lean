/-!
Numerals as a user writes them: decimal or hexadecimal digits with a point and an exponent, an
infinity, or an undefined number. Underscores may separate digits.
-/

namespace Vocoder.Text

/-- A number as it was written. -/
inductive Numeral where
  | undefined
  | infinite (negative : Bool)
  /-- The number `±mantissa * radix ^ exponent`, with radix ten or two. -/
  | finite (negative : Bool) (mantissa : Nat) (radix : Nat) (exponent : Int)
deriving DecidableEq, Repr

namespace Numeral

/-- The value of a digit in base sixteen. -/
def hexDigit? (c : Char) : Option Nat :=
  if '0' ≤ c ∧ c ≤ '9' then some (c.toNat - '0'.toNat)
  else if 'a' ≤ c ∧ c ≤ 'f' then some (c.toNat - 'a'.toNat + 10)
  else if 'A' ≤ c ∧ c ≤ 'F' then some (c.toNat - 'A'.toNat + 10)
  else none

def digit? (c : Char) : Option Nat :=
  if '0' ≤ c ∧ c ≤ '9' then some (c.toNat - '0'.toNat) else none

/-- The kinds of characters between which underscores are looked at. -/
inductive Seen where
  | digit
  | underscore
  | other
deriving DecidableEq

/-- Whether every underscore stands right after a digit and right before one. -/
def separated (isDigit : Char → Bool) : Seen → List Char → Bool
  | seen, [] => seen ≠ .underscore
  | seen, c :: rest =>
    if isDigit c then separated isDigit .digit rest
    else if c = '_' then decide (seen = .digit) && separated isDigit .underscore rest
    else decide (seen ≠ .underscore) && separated isDigit .other rest

/-- Takes a sign off a text; without one a number is positive. -/
def dropSign : List Char → Bool × List Char
  | '-' :: rest => (true, rest)
  | '+' :: rest => (false, rest)
  | text => (false, text)

/-- The number that digits stand for. Other characters do not count. -/
def digitsValue (base : Nat) (digit : Char → Option Nat) (digits : List Char) : Nat :=
  (digits.filterMap digit).foldl (fun value d => base * value + d) 0

/-- An exponent that is not taken further once it has five digits: no number with an exponent as
long as that is in range anyway. -/
def exponentValue (digits : List Char) : Nat :=
  (digits.filterMap digit?).foldl (fun value d => if value < 10000 then 10 * value + d else value) 0

/-- Reads what follows the digits: nothing, or an exponent after its mark. -/
def exponent? (mark : Char) : List Char → Option (Option Int)
  | [] => some none
  | c :: rest =>
    if c.toLower ≠ mark then none
    else
      let (negative, digits) := dropSign rest
      let starts := (digits.head?.bind digit?).isSome
      if starts && digits.all fun d => d = '_' || (digit? d).isSome then
        let value : Int := exponentValue digits
        some (some (if negative then -value else value))
      else none

/-- Reads the digits of a number and its exponent. The digits may hold one point. Hexadecimal digits
need an exponent, which is one of two. -/
def magnitude? (hexadecimal : Bool) (text : List Char) : Option (Nat × Nat × Int) :=
  let digit := if hexadecimal then hexDigit? else digit?
  let inNumber (c : Char) : Bool := c = '_' || c = '.' || (digit c).isSome
  let digits := text.takeWhile inNumber
  let whole := digits.takeWhile (· ≠ '.')
  let fraction := (digits.dropWhile (· ≠ '.')).drop 1
  let places : Int := (fraction.filterMap digit).length
  if fraction.contains '.' || (digits.filterMap digit).isEmpty then none
  else
    let mantissa (base : Nat) : Nat := digitsValue base digit (whole ++ fraction)
    match hexadecimal, exponent? (if hexadecimal then 'p' else 'e') (text.dropWhile inNumber) with
    | false, some exponent => some (mantissa 10, 10, exponent.getD 0 - places)
    | true, some (some exponent) => some (mantissa 16, 2, exponent - 4 * places)
    | _, _ => none

/-- Reads a number after its sign. -/
def unsigned? (negative : Bool) (text : List Char) : Option Numeral :=
  let (hexadecimal, body) := match text with
    | '0' :: 'x' :: c :: rest | '0' :: 'X' :: c :: rest => (true, c :: rest)
    | _ => (false, text)
  let isDigit (c : Char) : Bool := ((if hexadecimal then hexDigit? else digit?) c).isSome
  if separated isDigit (if hexadecimal then .digit else .other) body then
    (magnitude? hexadecimal body).map fun (mantissa, radix, exponent) =>
      .finite negative mantissa radix exponent
  else none

def parse? (text : String) : Option Numeral :=
  let chars := text.toList
  let (negative, body) := dropSign chars
  let word := body.map Char.toLower
  if word = ['i', 'n', 'f'] ∨ word = ['i', 'n', 'f', 'i', 'n', 'i', 't', 'y'] then
    some (.infinite negative)
  else if chars.map Char.toLower = ['n', 'a', 'n'] then some .undefined
  else unsigned? negative body

/-- The floating point number nearest to a numeral, if there is one. -/
def toFloat? : Numeral → Option Float
  | .undefined => some (0.0 / 0.0)
  | .infinite negative => some (if negative then -1.0 / 0.0 else 1.0 / 0.0)
  | .finite negative mantissa radix exponent =>
    let size := exponent.natAbs
    let value :=
      if radix = 10 then Float.ofScientific mantissa (exponent < 0) size
      else if exponent < 0 then Float.ofScientific (mantissa * Nat.pow 5 size) true size
      else Float.ofScientific (mantissa <<< size) false 0
    if value.isInf then none else some (if negative then -value else value)

end Numeral

end Vocoder.Text
