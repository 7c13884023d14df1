/-!
Binary floating point of 64 bits: what a word of bits stands for, signs, and the ways between
floating point and whole numbers.
-/

namespace Vocoder.Binary64

/-- What a binary64 number stands for: `±mantissa * 2 ^ exponent`, an infinity, or nothing. -/
inductive Reading where
  | undefined
  | infinite (negative : Bool)
  | finite (negative : Bool) (mantissa : Nat) (exponent : Int)

/-- Reads the sign, exponent and fraction bits of a number. -/
def read (word : UInt64) : Reading :=
  let bits := word.toNat
  let negative := bits.testBit 63
  let field : Nat := bits / 4503599627370496 % 2048
  let fraction : Nat := bits % 4503599627370496
  if field = 2047 then (if fraction = 0 then .infinite negative else .undefined)
  else if field = 0 then .finite negative fraction (-1074)
  else .finite negative (4503599627370496 + fraction) ((field : Int) - 1075)

def infinity : Float := 1.0 / 0.0

def undefined : Float := 0.0 / 0.0

/-- Whether the sign bit is set, as it also is in the negative zero. -/
@[inline] def isNegative (x : Float) : Bool := x.toBits >>> 63 = 1

/-- A magnitude with the sign of another number. -/
@[inline] def withSign (magnitude sign : Float) : Float :=
  if isNegative sign then -magnitude else magnitude

/-- The smaller of two: negative infinity wins over everything, then an undefined number does. -/
def least (x y : Float) : Float :=
  if x == -infinity || y == -infinity then -infinity
  else if x.isNaN || y.isNaN then undefined
  else if y < x then y else x

/-- The lowest signed word of 64 bits. -/
def wordLow : Float := -9223372036854775808.0

/-- The least number above all signed words of 64 bits. -/
def wordHigh : Float := 9223372036854775808.0

/-- The whole part as a signed word of 64 bits; what has none becomes the lowest word. -/
def trunc (x : Float) : Int :=
  if wordLow ≤ x && x < wordHigh then x.toInt64.toInt else -9223372036854775808

/-- The value of a whole number, rounded to the nearest representable one. Up to `2 ^ 53`
every one is representable and is converted directly. -/
def ofInt (n : Int) : Float :=
  if n.natAbs ≤ 9007199254740992 then (Int64.ofInt n).toFloat else Float.ofInt n

end Vocoder.Binary64
