import Vocoder.Binary64.Basic

/-!
The exponential function. Its series is summed with products and sums that are rounded only once,
which takes the errors of the single operations as numbers of their own.
-/

namespace Vocoder.Binary64

/-- The result of an operation: the nearest number, and the exact result less that number. -/
structure Rounded where
  value : Float
  error : Float

/-- The sum; its error is what the two numbers lose in it. -/
@[inline] def Rounded.add (x y : Float) : Rounded :=
  let sum := x + y
  let part := sum - x
  ⟨sum, (x - (sum - part)) + (y - part)⟩

/-- The high half of the digits of a number. The rest is the low half. -/
def highHalf (x : Float) : Float :=
  let scaled := 134217729.0 * x
  scaled - (scaled - x)

/-- The product, whose error is what remains of the products of the halves. -/
@[inline] def Rounded.mul (x y : Float) : Rounded :=
  let product := x * y
  let xHigh := highHalf x
  let xLow := x - xHigh
  let yHigh := highHalf y
  let yLow := y - yHigh
  ⟨product, (((xHigh * yHigh - product) + xHigh * yLow) + xLow * yHigh) + xLow * yLow⟩

/-- A sum that is rounded to the neighbour with an odd last digit, unless it is exact. Such a sum
never looks like a tie to a later rounding with fewer digits. -/
def addOdd (x y : Float) : Float :=
  let sum := Rounded.add x y
  let bits := sum.value.toBits
  if sum.error == 0.0 || bits &&& 1 == 1 then sum.value
  else if isNegative sum.value == isNegative sum.error then Float.ofBits (bits + 1)
  else Float.ofBits (bits - 1)

/-- The sum `x * y + z`, rounded once, as long as nothing goes out of range. -/
def mulAdd (x y z : Float) : Float :=
  let product := Rounded.mul x y
  let low := Rounded.add z product.error
  let high := Rounded.add product.value low.value
  high.value + addOdd low.error high.error

/-- The nearest whole number to one below `2 ^ 51`; a half goes to the even neighbour. -/
def nearest (x : Float) : Float := x + 6755399441055744.0 - 6755399441055744.0

/-- What `exp x` exceeds one by, for a number of size at most 0.03. -/
def expRest (x : Float) : Float :=
  let sum := mulAdd 2.4801587301587301587e-5 x 1.9841269841269841270e-4
  let sum := mulAdd sum x 1.3888888888888888889e-3
  let sum := mulAdd sum x 8.3333333333333333333e-3
  let sum := mulAdd sum x 4.1666666666666666667e-2
  let sum := mulAdd sum x 1.6666666666666666667e-1
  let sum := mulAdd (mulAdd sum x 0.5) x 1.0
  x * sum

/-- The excess of `exp (2 * x)` from that of `exp x`. -/
@[inline] def doubleRest (excess : Float) : Float := excess * (excess + 2.0)

/-- The exponential of a number of size at most 700. The nearest multiple of `log 2` is taken off in
two parts and becomes the exponent; the series gets a sixteenth of the rest, which is doubled four
times afterwards. -/
def exp (x : Float) : Float :=
  let k := nearest (x * 1.4426950408889634074)
  let rest := mulAdd (-k) 0.69314718055966295651160180568695068359375 x
  let rest := mulAdd (-k) 0.28235290563031577122588448175013436025525412068e-12 rest
  let half := doubleRest (doubleRest (doubleRest (expRest (rest * 0.0625))))
  Float.scaleB (mulAdd half (half + 2.0) 1.0) (trunc k)

end Vocoder.Binary64
