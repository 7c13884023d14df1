import Mathlib
import Vocoder.Scalar

/-!
The real numbers as scalars. They stand for arithmetic without rounding: every stage of the codec,
taken over them, is the stage that its formulas describe.
-/

namespace Vocoder

-- A quotient or a decimal of real numbers is that of their field, also where scalars have one.
noncomputable instance instDivReal : Div ℝ := DivInvMonoid.toDiv

noncomputable instance instOfScientificReal : OfScientific ℝ := NNRatCast.toOfScientific

noncomputable instance instAnalyticReal : Analytic ℝ where
  toAdd := inferInstance
  toSub := inferInstance
  toMul := inferInstance
  toDiv := inferInstance
  toNeg := inferInstance
  toLT := inferInstance
  toLE := inferInstance
  toOfScientific := inferInstance
  decidableLT := fun x y => Real.decidableLT x y
  decidableLE := fun x y => Real.decidableLE x y
  ofInt n := n
  least := min
  pi := Real.pi
  sqrt := Real.sqrt
  cos := Real.cos
  sin := Real.sin
  acos := Real.arccos
  atan2 y x := Complex.arg ⟨x, y⟩
  log2 := Real.logb 2.0
  log10 := Real.logb 10
  pow base exponent := base ^ exponent
  floor x := ⌊x⌋
  ceil x := ⌈x⌉
  trunc x := if 0 ≤ x then ⌊x⌋ else ⌈x⌉

/-! ### Decimals -/

section Decimals

variable {K : Type} [DivisionRing K] [CharZero K]

@[simp] theorem zero_point_zero : (0.0 : K) = 0 := by norm_num

@[simp] theorem one_point_zero : (1.0 : K) = 1 := by norm_num

@[simp] theorem two_point_zero : (2.0 : K) = 2 := by norm_num

@[simp] theorem ten_point_zero : (10.0 : K) = 10 := by norm_num

end Decimals

/-! ### Functions -/

namespace Analytic

@[simp] theorem ofInt_real (n : ℤ) : (Scalar.ofInt n : ℝ) = n := rfl

@[simp] theorem pi_real : (pi : ℝ) = Real.pi := rfl

@[simp] theorem log10_real (x : ℝ) : log10 x = Real.logb 10 x := rfl

@[simp] theorem pow_real (x y : ℝ) : pow x y = x ^ y := rfl

theorem turn_real : (turn : ℝ) = 2 * Real.pi := by
  unfold turn
  norm_num

/-! ### Whole parts as words -/

theorem trunc_of_nonneg {x : ℝ} (h : 0 ≤ x) : trunc x = ⌊x⌋ := if_pos h

theorem trunc_intCast (n : ℤ) : trunc (n : ℝ) = n := by
  show (if (0 : ℝ) ≤ n then ⌊(n : ℝ)⌋ else ⌈(n : ℝ)⌉) = n
  rw [Int.floor_intCast, Int.ceil_intCast, ite_self]

theorem trunc_mono {x y : ℝ} (h : x ≤ y) : trunc x ≤ trunc y := by
  show (if 0 ≤ x then ⌊x⌋ else ⌈x⌉) ≤ if 0 ≤ y then ⌊y⌋ else ⌈y⌉
  split_ifs with hx hy hy
  · exact Int.floor_mono h
  · exact absurd (hx.trans h) hy
  · have hceil : ⌈x⌉ ≤ 0 := Int.ceil_le.mpr (by exact_mod_cast (not_le.mp hx).le)
    exact hceil.trans (Int.floor_nonneg.mpr hy)
  · exact Int.ceil_mono h

theorem trunc_le {n : ℤ} {x : ℝ} (h : x ≤ n) : trunc x ≤ n :=
  (trunc_mono h).trans_eq (trunc_intCast n)

theorem le_trunc {n : ℤ} {x : ℝ} (h : n ≤ x) : n ≤ trunc x :=
  (trunc_intCast n).symm.trans_le (trunc_mono h)

/-- A real number below the upper end of the words has no whole part beyond them. -/
theorem trunc_lt_of_lt {x : ℝ} (h : x < 2 ^ 63) : trunc x < 2 ^ 63 := by
  rcases le_or_gt 0 x with hx | hx
  · rw [trunc_of_nonneg hx, Int.floor_lt]
    exact_mod_cast h
  · have hle : trunc x ≤ 0 := trunc_le (by exact_mod_cast hx.le)
    omega

theorem toWord_of_bounds {x : ℝ} (low : -2 ^ 63 ≤ x) (high : x < 2 ^ 63) : toWord x = trunc x := by
  have hlow : -2 ^ 63 ≤ trunc x := le_trunc (by exact_mod_cast low)
  have hhigh := trunc_lt_of_lt high
  exact if_pos ⟨by omega, by omega⟩

theorem toWord_of_nonneg {x : ℝ} (low : 0 ≤ x) (high : x < 2 ^ 63) : toWord x = ⌊x⌋ := by
  rw [toWord_of_bounds (by linarith) high, trunc_of_nonneg low]

/-- What is too high for a word becomes the lowest one, so a word is never above its scalar. -/
theorem toWord_lt {n : ℤ} {x : ℝ} (hx : 0 ≤ x) (h : x < n) : toWord x < n := by
  have hlt : trunc x < n := by
    rw [trunc_of_nonneg hx]
    exact Int.floor_lt.mpr h
  have hn : (0 : ℤ) < n := by exact_mod_cast hx.trans_lt h
  unfold toWord
  dsimp only
  split_ifs <;> omega

theorem le_toWord {n : ℤ} {x : ℝ} (high : x < 2 ^ 63) (h : n ≤ x) : n ≤ toWord x := by
  have hle := le_trunc h
  have hhigh := trunc_lt_of_lt high
  unfold toWord
  dsimp only
  split_ifs <;> omega

theorem toWord_intCast (n : ℤ) :
    toWord (n : ℝ) = if -2 ^ 63 ≤ n ∧ n < 2 ^ 63 then n else -2 ^ 63 := by
  unfold toWord
  rw [trunc_intCast]
  rfl

/-- A whole number that is no word becomes the lowest one. -/
theorem floorInt_real (x : ℝ) :
    floorInt x = if -2 ^ 63 ≤ ⌊x⌋ ∧ ⌊x⌋ < 2 ^ 63 then ⌊x⌋ else -2 ^ 63 := toWord_intCast ⌊x⌋

theorem ceilInt_of_bounds {x : ℝ} (low : -2 ^ 63 ≤ x) (high : x ≤ 2 ^ 62) : ceilInt x = ⌈x⌉ := by
  have hlow : -2 ^ 63 ≤ ⌈x⌉ := by
    have := low.trans (Int.le_ceil x)
    exact_mod_cast this
  have hhigh : ⌈x⌉ ≤ 2 ^ 62 := Int.ceil_le.mpr (by exact_mod_cast high)
  exact (toWord_intCast ⌈x⌉).trans (if_pos ⟨hlow, by omega⟩)

theorem ofDecibels_real (level : ℝ) : ofDecibels level = (10 : ℝ) ^ (level / 10) := by
  unfold ofDecibels
  norm_num

end Analytic

/-- A decimal is the quotient that it stands for. -/
theorem Scalar.decimal_real (digits : Int) (places : Nat) :
    (decimal digits places : ℝ) = digits / 10 ^ places := by
  have hrat : (OfScientific.ofScientific digits.natAbs true places : ℚ) =
      |(digits : ℚ)| / 10 ^ places := by
    change Rat.ofScientific digits.natAbs true places = _
    rw [Rat.ofScientific_true_def, Rat.mkRat_eq_div]
    push_cast
    rfl
  have hmagnitude : (OfScientific.ofScientific digits.natAbs true places : ℝ) =
      |(digits : ℝ)| / 10 ^ places := by
    rw [← Rat.cast_ofScientific, hrat]
    push_cast
    rfl
  unfold decimal
  dsimp only
  split_ifs with hneg
  · have hlt : (digits : ℝ) < 0 := by exact_mod_cast hneg
    rw [hmagnitude, abs_of_neg hlt]
    ring
  · have hle : (0 : ℝ) ≤ digits := by exact_mod_cast not_lt.mp hneg
    rw [hmagnitude, abs_of_nonneg hle]

end Vocoder
