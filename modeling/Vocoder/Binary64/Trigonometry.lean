import Vocoder.Binary64.Basic

/-!
Sine, cosine and their inverses, computed step by step so that the result is the same on every
machine. An angle is reduced to quarter turns and a rest of at most an eighth of a turn, where a
polynomial is accurate to the last digits. The inverse functions go back to one rational function,
which is accurate up to `tan (π / 8)`.
-/

namespace Vocoder.Binary64

def pi : Float := 3.141592653589793

/-- An angle as quarter turns, of which only the number modulo four counts, and a rest. -/
structure Reduced where
  quarters : UInt64
  rest : Float

/-- Reduces an angle from zero up to `2 ^ 29`. The eighth of a turn is taken off in three parts: the
first two have so few digits that their multiples are exact. -/
def reduceSmall (x : Float) : Reduced :=
  let eighths := (x * 1.2732395447351628).toUInt64
  let eighths := eighths + eighths % 2
  let n := eighths.toFloat
  ⟨eighths / 2, ((x - n * 7.85398125648498535156e-1) - n * 3.77489470793079817668e-8) -
    n * 2.69515142907905952645e-15⟩

/-- The number `4 / π`, cut after 1216 binary places. -/
def eighthsPerRadian : Nat :=
  [0x1, 0x45f306dc9c882a53, 0xf84eafa3ea69bb81, 0xb6c52b3278872083, 0xfca2c757bd778ac3,
    0x6e48dc74849ba5c0, 0x0c925dd413a32439, 0xfc3bd63962534e7d, 0xd1046bea5d768909,
    0xd338e04d68befc82, 0x7323ac7306a673e9, 0x3908bf177bf25076, 0x3ff12fffbc0b301f,
    0xde5e2316b414da3e, 0xda6cfd9e4f96136e, 0x9e8c7ecd3cbfd45a, 0xea4f758fd7cbe2f6,
    0x7a0e73ef14a525d4, 0xd7f6bf623f1aba10, 0xac06608df8f6d757].foldl
    (fun number word => number <<< 64 + word) 0

/-- The fraction `numerator / 2 ^ places`, cut to 53 significant digits. -/
def cutFraction (numerator places : Nat) : Float :=
  let spare := numerator.log2 - 52
  Float.scaleB (ofInt (numerator >>> spare : Nat)) ((spare : Int) - places)

/-- Reduces an angle of at least `2 ^ 29`, by its exact multiple of the long `4 / π`. -/
def reduceLarge (x : Float) : Reduced :=
  match read x.toBits with
  | .finite _ mantissa exponent =>
    let places := 1216 + 23
    let product := (mantissa * eighthsPerRadian) <<< (exponent + 23).toNat
    let eighths := product >>> places % 8
    let fraction := cutFraction (product % (1 <<< places)) places
    if eighths % 2 = 1 then ⟨(eighths.toUInt64 + 1) / 2, (fraction - 1.0) * (pi / 4.0)⟩
    else ⟨eighths.toUInt64 / 2, fraction * (pi / 4.0)⟩
  | _ => ⟨0, undefined⟩

/-- Reduces an angle that is not negative. -/
def reduce (x : Float) : Reduced :=
  if x < 536870912.0 then reduceSmall x else reduceLarge x

/-- The sine of an angle up to an eighth of a turn. -/
def sinRest (z : Float) : Float :=
  let w := z * z
  z + z * w * (((((1.58962301576546568060e-10 * w - 2.50507477628578072866e-8) * w +
    2.75573136213857245213e-6) * w - 1.98412698295895385996e-4) * w +
    8.33333333332211858878e-3) * w - 1.66666666666666307295e-1)

/-- The cosine of an angle up to an eighth of a turn. -/
def cosRest (z : Float) : Float :=
  let w := z * z
  1.0 - 0.5 * w + w * w * (((((-1.13585365213876817300e-11 * w + 2.08757008419747316778e-9) * w -
    2.75573141792967388112e-7) * w + 2.48015872888517045348e-5) * w -
    1.38888888888730564116e-3) * w + 4.16666666666665929218e-2)

/-- The cosine; an infinite angle has none. -/
def cos (x : Float) : Float :=
  if x.isFinite then
    let angle := reduce x.abs
    match angle.quarters % 4 with
    | 0 => cosRest angle.rest
    | 1 => -sinRest angle.rest
    | 2 => -cosRest angle.rest
    | _ => sinRest angle.rest
  else undefined

/-- The sine; an infinite angle has none, and that of a zero is the same zero. -/
def sin (x : Float) : Float :=
  if x == 0.0 then x
  else if x.isFinite then
    let angle := reduce x.abs
    let magnitude := match angle.quarters % 4 with
      | 0 => sinRest angle.rest
      | 1 => cosRest angle.rest
      | 2 => -sinRest angle.rest
      | _ => -cosRest angle.rest
    if x < 0.0 then -magnitude else magnitude
  else undefined

/-- The angle of a slope from zero up to 0.66. -/
def atanRest (x : Float) : Float :=
  let z := x * x
  let quotient := z * ((((-8.750608600031904122785e-01 * z - 1.615753718733365076637e+01) * z -
    7.500855792314704667340e+01) * z - 1.228866684490136173410e+02) * z -
    6.485021904942025371773e+01) / (((((z + 2.485846490142306297962e+01) * z +
    1.650270098316988542046e+02) * z + 4.328810604912902668951e+02) * z +
    4.853903996359136964868e+02) * z + 1.945506571482613964425e+02)
  x * quotient + x

/-- The angle of a slope that is not negative. A steep slope is turned by a quarter turn, one in
between by an eighth; the small summand is what `pi / 2` leaves out. -/
def atanRising (x : Float) : Float :=
  let missing := 6.123233995736765886130e-17
  if x ≤ 0.66 then atanRest x
  else if 2.41421356237309504880 < x then pi / 2.0 - atanRest (1.0 / x) + missing
  else pi / 4.0 + atanRest ((x - 1.0) / (x + 1.0)) + 0.5 * missing

def atan (x : Float) : Float :=
  if x == 0.0 then x else if 0.0 < x then atanRising x else -atanRising (-x)

/-- The angle of the point with ordinate `y` and abscissa `x`. The signs of zeros count. -/
def atan2 (y x : Float) : Float :=
  if y.isNaN || x.isNaN then undefined
  else if y == 0.0 then withSign (if isNegative x then pi else 0.0) y
  else if x == 0.0 then withSign (pi / 2.0) y
  else if x.isInf then
    if isNegative x then withSign (if y.isInf then 3.0 * pi / 4.0 else pi) y
    else withSign (if y.isInf then pi / 4.0 else 0.0) y
  else if y.isInf then withSign (pi / 2.0) y
  else
    let angle := atan (y / x)
    if x < 0.0 then (if angle ≤ 0.0 then angle + pi else angle - pi) else angle

def asin (x : Float) : Float :=
  if x == 0.0 then x
  else
    let size := x.abs
    if 1.0 < size then undefined
    else
      let side := Float.sqrt (1.0 - size * size)
      let angle :=
        if 0.7 < size then pi / 2.0 - atanRising (side / size) else atanRising (size / side)
      if x < 0.0 then -angle else angle

def acos (x : Float) : Float := pi / 2.0 - asin x

end Vocoder.Binary64
