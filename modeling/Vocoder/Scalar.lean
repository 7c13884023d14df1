/-!
The numbers of the codec. Every stage is written once over a type of scalars: binary floating point
runs it, while an ordered field or the real numbers can take its place in a proof. `Scalar` has what
arithmetic and comparison need, `Analytic` adds the functions of signal processing. Counts,
positions and the whole parts of scalars are signed words of 64 bits.
-/

namespace Vocoder

/-- The signed word of 64 bits that a whole number wraps around to. Small numbers stay as they are
without a division. -/
@[inline] def wrap (n : Int) : Int :=
  if -2147483648 ≤ n ∧ n < 2147483648 then n else Int.bmod n 18446744073709551616

/-- What a word of 64 bits keeps of a number that moves up by `places`. -/
@[inline] def shiftUp (n places : Nat) : Nat :=
  if places < 64 then (n <<< places) % 18446744073709551616 else 0

/-- A number inside the word is not changed. -/
theorem wrap_of_bounds (n : Int) (low : -9223372036854775808 ≤ n)
    (high : n < 9223372036854775808) : wrap n = n := by
  unfold wrap
  split
  · rfl
  · exact Int.bmod_eq_of_le (by omega) (by omega)

/-- Numbers with the four operations, an order that can be tested, and decimal constants. -/
class Scalar (α : Type) extends Add α, Sub α, Mul α, Div α, Neg α, LT α, LE α,
    OfScientific α where
  decidableLT : DecidableLT α
  decidableLE : DecidableLE α
  /-- The scalar that stands for a whole number. -/
  ofInt : Int → α
  /-- The smaller of two scalars. -/
  least : α → α → α

attribute [reducible, instance] Scalar.decidableLT Scalar.decidableLE

namespace Scalar

variable {α : Type} [Scalar α]

@[inline] def abs (x : α) : α := if x < 0.0 then -x else x

/-- A scalar that is neither above nor below zero. -/
abbrev IsZero (x : α) : Prop := x ≤ 0.0 ∧ 0.0 ≤ x

/-- A scalar beyond all others: it is comparable with itself, and its difference from itself is not
zero. An ordered field has none. -/
abbrev IsInfinite (x : α) : Prop := x ≤ x ∧ ¬ IsZero (x - x)

/-- The decimal `digits / 10 ^ places`. -/
@[inline] def decimal (digits : Int) (places : Nat) : α :=
  let magnitude : α := OfScientific.ofScientific digits.natAbs true places
  if digits < 0 then -magnitude else magnitude

end Scalar

/-- Scalars with the functions that analysis and synthesis of speech need. -/
class Analytic (α : Type) extends Scalar α where
  pi : α
  sqrt : α → α
  cos : α → α
  sin : α → α
  acos : α → α
  /-- The angle of the point with ordinate `y` and abscissa `x`. -/
  atan2 (y x : α) : α
  log2 : α → α
  log10 : α → α
  pow (base exponent : α) : α
  floor : α → α
  ceil : α → α
  /-- The whole part, rounded toward zero. -/
  trunc : α → Int

namespace Analytic

variable {α : Type} [Analytic α]

@[inline] def turn : α := 2.0 * pi

/-- The whole part as a signed word of 64 bits. A whole part that is no such word gives the lowest
one. -/
@[inline] def toWord (x : α) : Int :=
  let n := trunc x
  if -9223372036854775808 ≤ n ∧ n < 9223372036854775808 then n else -9223372036854775808

/-- The greatest whole number that is not above `x`, as a word. -/
@[inline] def floorInt (x : α) : Int := toWord (floor x)

/-- The least whole number that is not below `x`, as a word. -/
@[inline] def ceilInt (x : α) : Int := toWord (ceil x)

@[inline] def decibels (power : α) : α := 10.0 * log10 power

@[inline] def ofDecibels (level : α) : α := pow 10.0 (level / 10.0)

end Analytic

end Vocoder
