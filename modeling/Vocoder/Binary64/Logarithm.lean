import Vocoder.Binary64.Exponential

/-!
Logarithms and powers, computed step by step so that the result is the same on every machine. A
number is split into a fraction from one half up to one and a power of two, and only the fraction
takes part in a series or a product.
-/

namespace Vocoder.Binary64

/-- The natural logarithm of `2 ^ k * fraction`, for a fraction near one. With `s = f / (2 + f)` the
logarithm of `1 + f` is a series in the odd powers of `s`, and `log 2` is added in two parts. -/
def logScaled (fraction k : Float) : Float :=
  let f := fraction - 1.0
  let s := f / (2.0 + f)
  let s2 := s * s
  let s4 := s2 * s2
  let odd := s2 * (6.666666666666735130e-01 + s4 * (2.857142874366239149e-01 +
    s4 * (1.818357216161805012e-01 + s4 * 1.479819860511658591e-01)))
  let even := s4 * (3.999999999940941908e-01 + s4 * (2.222219843214978396e-01 +
    s4 * 1.531383769920937332e-01))
  let half := 0.5 * f * f
  k * 6.93147180369123816490e-01 -
    ((half - (s * (half + (odd + even)) + k * 1.90821492927058770002e-10)) - f)

/-- The exponent field of a positive number as the power of two that goes with `leading`. -/
@[inline] def leadingExponent (x : Float) : Int := ((x.toBits >>> 52).toNat : Int) - 1022

/-- The fraction bits of a number behind a leading one, as a number from one half up to one. -/
@[inline] def leading (x : Float) : Float :=
  Float.ofBits ((x.toBits &&& 0x000FFFFFFFFFFFFF) ||| 0x3FE0000000000000)

/-- The natural logarithm. A positive number is the product of `leading` and a power of two; every
one of them is read with a leading one, so that a subnormal number counts as one that is at least
`2 ^ -1023`. -/
def log (x : Float) : Float :=
  if x.isNaN || x == infinity then x
  else if x < 0.0 then undefined
  else if x == 0.0 then -infinity
  else
    let fraction := leading x
    let k := leadingExponent x
    if fraction < 0.7071067811865476 then logScaled (fraction * 2.0) (ofInt (k - 1))
    else logScaled fraction (ofInt k)

/-- The logarithm to base two, which is exact for a power of two. -/
def log2 (x : Float) : Float :=
  let (fraction, k) := x.frExp
  if fraction == 0.5 then ofInt (k - 1) else log fraction * 1.4426950408889634 + ofInt k

def log10 (x : Float) : Float := log x * 0.4342944819032518

/-- A number as a product with a power of two, so that it may be far out of range. -/
structure Scaled where
  factor : Float
  exponent : Int

/-- The product with the power `base ^ n`, by squaring the base for each of the binary digits of
`n`. A base far out of range decides the result by its exponent. -/
def Scaled.mulPower (product base : Scaled) : (digits n : Nat) → Scaled
  | 0, _ => product
  | digits + 1, n =>
    if n = 0 then product
    else if base.exponent < -4096 ∨ 4096 < base.exponent then
      ⟨product.factor, product.exponent + base.exponent⟩
    else
      let next : Scaled :=
        if n % 2 = 1 then ⟨product.factor * base.factor, product.exponent + base.exponent⟩
        else product
      let square := base.factor * base.factor
      let base : Scaled :=
        if square < 0.5 then ⟨square + square, 2 * base.exponent - 1⟩
        else ⟨square, 2 * base.exponent⟩
      next.mulPower base digits (n / 2)

/-- The power with a positive exponent `whole + fraction`, for a fraction from zero up to one. -/
def Scaled.ofPower (x whole fraction : Float) : Scaled :=
  let (factor, exponent) := x.frExp
  let (whole, fraction) :=
    if 0.5 < fraction then (whole + 1.0, fraction - 1.0) else (whole, fraction)
  let start : Float := if fraction == 0.0 then 1.0 else exp (fraction * log x)
  Scaled.mulPower ⟨start, 0⟩ ⟨factor, exponent⟩ 64 whole.toUInt64.toNat

/-- The power. Zeros, what is not finite, exponents of at least `2 ^ 63` and exponents with a
fraction of a negative number follow the limits; a square root is exact. -/
def pow (x y : Float) : Float :=
  let size := y.abs
  let whole := size.floor
  if x == 0.0 || !x.isFinite || !y.isFinite || wordHigh ≤ size || (x < 0.0 && whole != size) then
    Float.pow x y
  else if y == 0.5 then x.sqrt
  else if y == -0.5 then 1.0 / x.sqrt
  else
    let power := Scaled.ofPower x whole (size - whole)
    if y < 0.0 then Float.scaleB (1.0 / power.factor) (-power.exponent)
    else Float.scaleB power.factor power.exponent

end Vocoder.Binary64
