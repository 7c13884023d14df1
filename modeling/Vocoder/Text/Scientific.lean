import Vocoder.Binary64.Basic

/-!
Scientific notation with seven significant digits. The digits come from the exact binary value: the
nearest decimal of that length, and of two equally near the one with the even last digit. Values too
small to matter in a report are written as zero.
-/

namespace Vocoder.Text.Scientific

/-- The whole number nearest to `num / den`; a half goes to the even neighbour. -/
def roundQuotient (num den : Nat) : Nat :=
  let quotient := num / den
  let twice := 2 * (num % den)
  if twice < den then quotient
  else if den < twice then quotient + 1
  else quotient + quotient % 2

/-- The least `k ≤ places` for which `num * 10 ^ k` reaches `den`. -/
def leadingZeros (num den : Nat) : (places : Nat) → Nat
  | 0 => 0
  | places + 1 => if den ≤ num then 0 else leadingZeros (10 * num) den places + 1

/-- The exponent `k` for which `10 ^ k ≤ num / den < 10 ^ (k + 1)`. -/
def exponent (num den : Nat) : Int :=
  if den ≤ num then ((Nat.toDigits 10 (num / den)).length : Int) - 1
  else -(leadingZeros num den 400 : Nat)

/-- At least two digits of an exponent, after its sign. -/
def exponentText (k : Int) : String :=
  let digits := toString k.natAbs
  (if k < 0 then "-" else "+") ++ (if k.natAbs < 10 then "0" else "") ++ digits

/-- The notation of a positive quotient: one digit, a point and six digits, and the exponent. -/
def ofQuotient (num den : Nat) : String :=
  let k := exponent num den
  let scaled :=
    if 6 ≤ k then roundQuotient num (den * Nat.pow 10 (k - 6).toNat)
    else roundQuotient (num * Nat.pow 10 (6 - k).toNat) den
  let (digits, k) := if scaled = 10000000 then (1000000, k + 1) else (scaled, k)
  let tail := toString (1000000 + digits % 1000000)
  toString (digits / 1000000) ++ "." ++ (tail.drop 1).toString ++ "e" ++ exponentText k

/-- The text of a number in a report; magnitudes below `1e-9` count as zero. -/
def render (x : Float) : String :=
  match Binary64.read x.toBits with
  | .undefined => "NaN"
  | .infinite negative => if negative then "-Inf" else "+Inf"
  | .finite negative mantissa e =>
    if x.abs < 1e-9 then "0"
    else
      let sign := if negative then "-" else ""
      if 0 ≤ e then sign ++ ofQuotient (mantissa <<< e.toNat) 1
      else sign ++ ofQuotient mantissa (1 <<< (-e).toNat)

end Vocoder.Text.Scientific
