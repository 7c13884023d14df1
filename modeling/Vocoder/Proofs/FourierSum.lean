import Vocoder.Proofs.RealScalars
import Vocoder.Transform

/-!
The transform over the real numbers. A list of phasors is read as the coefficients of a polynomial;
its even and odd positions are the two polynomials in the square, so joining the transforms of the
halves evaluates the polynomial at all powers of a root of unity. The roots that the transform
starts from are those powers, quarter turns included. Reflecting the positions takes the inverse of
the root, and what remains is the inverse transform as a sum over its bins, without a scale factor.
-/

namespace Vocoder

/-! ### Phasors as complex numbers -/

namespace Phasor

/-- The complex number that a phasor stands for. -/
def toComplex (x : Phasor ℝ) : ℂ := ⟨x.re, x.im⟩

theorem toComplex_injective : Function.Injective toComplex := by
  rintro ⟨re, im⟩ ⟨re', im'⟩ h
  obtain ⟨hre, him⟩ := Complex.ext_iff.mp h
  exact congrArg₂ Phasor.mk hre him

@[simp] theorem re_toComplex (x : Phasor ℝ) : x.toComplex.re = x.re := rfl

@[simp] theorem toComplex_zero : (zero : Phasor ℝ).toComplex = 0 := by
  apply Complex.ext <;> norm_num [toComplex, zero]

@[simp] theorem toComplex_add (x y : Phasor ℝ) : (x.add y).toComplex = x.toComplex + y.toComplex :=
  rfl

@[simp] theorem toComplex_sub (x y : Phasor ℝ) : (x.sub y).toComplex = x.toComplex - y.toComplex :=
  rfl

@[simp] theorem toComplex_mul (x y : Phasor ℝ) :
    (x.mul y).toComplex = x.toComplex * y.toComplex := by
  apply Complex.ext <;> simp [toComplex, mul]

@[simp] theorem toComplex_conj (x : Phasor ℝ) :
    x.conj.toComplex = (starRingEnd ℂ) x.toComplex :=
  rfl

theorem toComplex_polar (magnitude phase : ℝ) :
    (polar magnitude phase).toComplex = magnitude * Complex.exp (phase * Complex.I) := by
  apply Complex.ext
  · rw [Complex.re_ofReal_mul, Complex.exp_ofReal_mul_I_re]
    rfl
  · rw [Complex.im_ofReal_mul, Complex.exp_ofReal_mul_I_im]
    rfl

end Phasor

namespace Dft

/-! ### Polynomials by halves -/

/-- The polynomial with some phasors as coefficients, at a complex number. -/
def evalAt (z : ℂ) : List (Phasor ℝ) → ℂ
  | [] => 0
  | x :: xs => x.toComplex + z * evalAt z xs

theorem evalAt_halves (z : ℂ) : (xs : List (Phasor ℝ)) →
    evalAt z xs = evalAt (z ^ 2) (evens xs) + z * evalAt (z ^ 2) (odds xs)
  | [] => by simp [evalAt, evens, odds]
  | [x] => by simp [evalAt, evens, odds]
  | x :: y :: rest => by
      simp only [evens, odds, evalAt, evalAt_halves z rest]
      ring

theorem evalAt_append (z : ℂ) (xs ys : List (Phasor ℝ)) :
    evalAt z (xs ++ ys) = evalAt z xs + z ^ xs.length * evalAt z ys := by
  induction xs with
  | nil => simp [evalAt]
  | cons x xs ih =>
      simp only [List.cons_append, evalAt, ih, List.length_cons]
      ring

theorem evalAt_reverse {z w : ℂ} (hzw : z * w = 1) (xs : List (Phasor ℝ)) :
    z * evalAt z xs.reverse = z ^ (xs.length + 1) * (w * evalAt w xs) := by
  induction xs with
  | nil => simp [evalAt]
  | cons x xs ih =>
      calc z * evalAt z (x :: xs).reverse
          = z * evalAt z xs.reverse + z ^ (xs.length + 1) * x.toComplex := by
            rw [List.reverse_cons, evalAt_append, List.length_reverse, evalAt, evalAt]
            ring
        _ = z ^ (xs.length + 1) * (z * w) * (x.toComplex + w * evalAt w xs) := by
            rw [ih, hzw]
            ring
        _ = z ^ ((x :: xs).length + 1) * (w * evalAt w (x :: xs)) := by
            rw [evalAt, List.length_cons]
            ring

/-- Counting the positions backwards takes the inverse of a root of unity. -/
theorem evalAt_reflected {z w : ℂ} (hzw : z * w = 1) {xs : List (Phasor ℝ)}
    (hroot : z ^ xs.length = 1) : evalAt z (reflected xs) = evalAt w xs := by
  cases xs with
  | nil => rfl
  | cons x xs =>
      rw [List.length_cons] at hroot
      rw [reflected, evalAt, evalAt_reverse hzw, hroot, one_mul, evalAt]

theorem evalAt_ofFn (z : ℂ) {n : ℕ} (f : Fin n → Phasor ℝ) :
    evalAt z (List.ofFn f) = ∑ i, (f i).toComplex * z ^ (i : ℕ) := by
  induction n with
  | zero => simp [evalAt]
  | succ n ih =>
      rw [List.ofFn_succ, evalAt, ih, Fin.sum_univ_succ, Finset.mul_sum]
      simp only [Fin.val_zero, pow_zero, mul_one, Fin.val_succ, pow_succ]
      congr 1
      refine Finset.sum_congr rfl fun i _ => ?_
      ring

/-! ### The transform by halves -/

/-- The complex number of a bin, zero beyond the last one. -/
noncomputable def binAt (xs : List (Phasor ℝ)) (k : ℕ) : ℂ := (xs.getD k Phasor.zero).toComplex

theorem getElem?_evens {β : Type} : (xs : List β) → (k : ℕ) → (evens xs)[k]? = xs[2 * k]?
  | [], _ => by simp [evens]
  | [_], 0 => by simp [evens]
  | [_], k + 1 => by simp [evens]
  | _ :: _ :: _, 0 => by simp [evens]
  | _ :: _ :: rest, k + 1 => by
      rw [evens, List.getElem?_cons_succ, getElem?_evens rest k,
        show 2 * (k + 1) = 2 * k + 1 + 1 by omega, List.getElem?_cons_succ, List.getElem?_cons_succ]

theorem binAt_evens (xs : List (Phasor ℝ)) (k : ℕ) : binAt (evens xs) k = binAt xs (2 * k) := by
  simp [binAt, List.getD_eq_getElem?_getD, getElem?_evens]

theorem binAt_join_lower {even odd : List (Phasor ℝ)} {n k : ℕ} (heven : even.length = n)
    (hodd : odd.length = n) (hk : k < n) :
    binAt (join even odd) k = binAt even k + binAt odd k := by
  simp [binAt, join, List.getD_eq_getElem?_getD, List.getElem?_append, heven, hodd, hk]

theorem binAt_join_upper {even odd : List (Phasor ℝ)} {n k : ℕ} (heven : even.length = n)
    (hodd : odd.length = n) (hk : k < n) :
    binAt (join even odd) (n + k) = binAt even k - binAt odd k := by
  simp [binAt, join, List.getD_eq_getElem?_getD, heven, hodd, hk]

theorem binAt_zipWith_mul {odd roots : List (Phasor ℝ)} {k : ℕ} (hodd : k < odd.length)
    (hroots : k < roots.length) :
    binAt (List.zipWith Phasor.mul odd roots) k = binAt odd k * binAt roots k := by
  simp [binAt, List.getD_eq_getElem?_getD, hodd, hroots]

theorem binAt_of_single {xs : List (Phasor ℝ)} (hsize : xs.length = 1) (z : ℂ) :
    binAt xs 0 = evalAt z xs := by
  obtain ⟨x, rfl⟩ := List.length_eq_one_iff.mp hsize
  simp [binAt, evalAt]

/-- Joining the transforms of the halves gives the transform of the whole. In the upper half the
root has the opposite sign, and its square is that of the lower half. -/
theorem binAt_join {even odd xs : List (Phasor ℝ)} {ω : ℂ} {n k : ℕ} (heven : even.length = n)
    (hodd : odd.length = n) (hhalf : ω ^ n = -1)
    (heven_eq : ∀ k < n, binAt even k = evalAt ((ω ^ 2) ^ k) (evens xs))
    (hodd_eq : ∀ k < n, binAt odd k = ω ^ k * evalAt ((ω ^ 2) ^ k) (odds xs)) (hk : k < 2 * n) :
    binAt (join even odd) k = evalAt (ω ^ k) xs := by
  by_cases hlower : k < n
  · rw [binAt_join_lower heven hodd hlower, heven_eq k hlower, hodd_eq k hlower,
      evalAt_halves (ω ^ k), pow_right_comm ω k 2]
  · obtain ⟨j, rfl⟩ := Nat.exists_eq_add_of_le (Nat.le_of_not_lt hlower)
    have hj : j < n := by omega
    have hsquare : (ω ^ (n + j)) ^ 2 = (ω ^ 2) ^ j := by
      rw [pow_add, hhalf]
      ring
    rw [binAt_join_upper heven hodd hj, heven_eq j hj, hodd_eq j hj, evalAt_halves (ω ^ (n + j)),
      hsquare, pow_add, hhalf]
    ring

/-- Roots for a transform of `2 ^ levels` bins: the powers of one root over half a turn. -/
structure RootsOf (levels : ℕ) (ω : ℂ) (roots : List (Phasor ℝ)) : Prop where
  enough : 2 ^ levels ≤ 2 * roots.length
  powers : ∀ k, 2 * k < 2 ^ levels → binAt roots k = ω ^ k
  half : ∀ half, levels = half + 1 → ω ^ 2 ^ half = -1

/-- The roots at even positions are those of the halves. -/
theorem RootsOf.evens {levels : ℕ} {ω : ℂ} {roots : List (Phasor ℝ)}
    (h : RootsOf (levels + 1) ω roots) : RootsOf levels (ω ^ 2) (evens roots) where
  enough := by
    have henough := h.enough
    rw [pow_succ] at henough
    rw [length_evens]
    omega
  powers k hk := by
    rw [binAt_evens, h.powers (2 * k) (by rw [pow_succ]; omega), pow_mul]
  half half hlevels := by
    rw [← pow_mul, ← h.half (half + 1) (by omega), pow_succ' 2 half]

/-- The fast transform evaluates its coefficients at the powers of the root. -/
theorem binAt_fast : {levels : ℕ} → {ω : ℂ} → {roots xs : List (Phasor ℝ)} → {k : ℕ} →
    RootsOf levels ω roots → xs.length = 2 ^ levels → k < 2 ^ levels →
    binAt (fast levels roots xs) k = evalAt (ω ^ k) xs
  | 0, ω, roots, xs, k, _, hsize, hk => by
      obtain rfl : k = 0 := by simpa using hk
      exact binAt_of_single hsize _
  | 1, ω, roots, xs, k, hroots, hsize, hk => by
      have heven : (evens xs).length = 1 := by rw [length_evens, hsize]; rfl
      have hodd : (odds xs).length = 1 := by rw [length_odds, hsize]; rfl
      refine binAt_join heven hodd (hroots.half 0 rfl) (fun j hj => ?_) (fun j hj => ?_) hk
      · obtain rfl : j = 0 := by omega
        exact binAt_of_single heven _
      · obtain rfl : j = 0 := by omega
        rw [pow_zero, one_mul]
        exact binAt_of_single hodd _
  | levels + 2, ω, roots, xs, k, hroots, hsize, hk => by
      have henough := hroots.enough
      have hhalves := hroots.evens
      have hdouble : 2 ^ (levels + 2) = 2 * 2 ^ (levels + 1) := pow_succ' 2 (levels + 1)
      have heven : (evens xs).length = 2 ^ (levels + 1) := by rw [length_evens, hsize]; omega
      have hodd : (odds xs).length = 2 ^ (levels + 1) := by rw [length_odds, hsize]; omega
      have hlength : ∀ ys : List (Phasor ℝ), ys.length = 2 ^ (levels + 1) →
          (fast (levels + 1) (evens roots) ys).length = 2 ^ (levels + 1) := by
        intro ys hys
        rw [← Nat.one_shiftLeft] at hys ⊢
        exact length_fast _ _ _ (by rw [Nat.one_shiftLeft]; exact hhalves.enough) hys
      rw [hdouble] at hk
      refine binAt_join (hlength _ heven) ?_ (hroots.half (levels + 1) rfl) (fun j hj => ?_)
        (fun j hj => ?_) hk
      · rw [List.length_zipWith, hlength _ hodd]
        omega
      · exact binAt_fast hhalves heven hj
      · rw [binAt_zipWith_mul (by rw [hlength _ hodd]; exact hj) (by omega),
          binAt_fast hhalves hodd hj, hroots.powers j (by omega), mul_comm]

/-! ### The roots -/

/-- A part of a turn backwards. -/
noncomputable def back (part : ℝ) : ℂ :=
  Complex.exp (-((Analytic.turn * part : ℝ) : ℂ) * Complex.I)

theorem back_pow (part : ℝ) (k : ℕ) : back part ^ k = back (k * part) := by
  rw [back, back, ← Complex.exp_nat_mul]
  congr 1
  push_cast
  ring

theorem back_half : back (1 / 2) = -1 := by
  rw [back, Analytic.turn_real, show 2 * Real.pi * (1 / 2) = Real.pi by ring, neg_mul,
    Complex.exp_neg, Complex.exp_pi_mul_I]
  norm_num

theorem toComplex_back (part : ℝ) :
    (⟨Real.cos (2 * Real.pi * part), -Real.sin (2 * Real.pi * part)⟩ : Phasor ℝ).toComplex =
      back part := by
  rw [back, Analytic.turn_real, ← Complex.ofReal_neg]
  apply Complex.ext
  · rw [Complex.exp_ofReal_mul_I_re, Real.cos_neg]
    rfl
  · rw [Complex.exp_ofReal_mul_I_im, Real.sin_neg]
    rfl

/-- A root is that part of a turn backwards which its fraction says. -/
theorem toComplex_root {k n : ℕ} (hk : k < n) :
    (root k n : Phasor ℝ).toComplex = back (k / n) := by
  rw [← toComplex_back]
  refine congrArg Phasor.toComplex ?_
  have hn : (n : ℝ) ≠ 0 := by exact_mod_cast (show n ≠ 0 by omega)
  unfold root
  by_cases hquarter : 4 * k % n = 0
  · have hmul : n * (4 * k / n) = 4 * k := Nat.mul_div_cancel' (Nat.dvd_of_mod_eq_zero hquarter)
    have hlt : 4 * k / n < 4 := Nat.div_lt_of_lt_mul (by omega)
    rw [if_pos hquarter]
    generalize 4 * k / n = q at hmul hlt
    have hangle : 2 * Real.pi * ((k : ℝ) / n) = q * (Real.pi / 2) := by
      have hcast : (n : ℝ) * q = 4 * k := by exact_mod_cast hmul
      field_simp
      linarith
    have htwo : 2 * (Real.pi / 2) = Real.pi := by ring
    have hthree : 3 * (Real.pi / 2) = Real.pi + Real.pi / 2 := by ring
    rw [hangle]
    interval_cases q
    · norm_num
    · norm_num
    · norm_num [htwo]
    · norm_num [hthree, Real.cos_add, Real.sin_add]
  · have hcommon : 0 < k.gcd n := Nat.gcd_pos_of_pos_right k (by omega)
    have hcommon' : ((k.gcd n : ℕ) : ℝ) ≠ 0 := by exact_mod_cast hcommon.ne'
    have hangle : (Analytic.turn : ℝ) / Scalar.ofInt (n / k.gcd n : ℕ) *
        Scalar.ofInt (k / k.gcd n : ℕ) = 2 * Real.pi * (k / n) := by
      rw [Analytic.ofInt_real, Analytic.ofInt_real, Analytic.turn_real, Int.cast_natCast,
        Int.cast_natCast, Nat.cast_div (Nat.gcd_dvd_right k n) hcommon',
        Nat.cast_div (Nat.gcd_dvd_left k n) hcommon']
      field_simp
    rw [if_neg hquarter]
    dsimp only
    rw [hangle]
    rfl

theorem rootsOf_roots : RootsOf 9 (back (1 / 512)) (roots 8) where
  enough := by
    rw [length_roots]
    decide
  powers k hk := by
    have hget : (roots 8 : List (Phasor ℝ)).getD k Phasor.zero = root k 512 := by
      have hlt : k < 256 := by omega
      simp [roots, List.getD_eq_getElem?_getD, hlt]
    rw [binAt, hget, toComplex_root (show k < 512 by omega), back_pow, Nat.cast_ofNat, mul_one_div]
  half half hhalf := by
    obtain rfl : half = 8 := by omega
    rw [back_pow, ← back_half]
    norm_num

/-! ### The inverse transform -/

/-- Over the real numbers nothing is infinite, and the scale cancels. -/
theorem realPart_real {n : ℝ} (hn : n ≠ 0) (x : Phasor ℝ) : realPart n x = x.re := by
  have hfinite : ¬ Scalar.IsInfinite x.re := by
    rintro ⟨-, hzero⟩
    apply hzero
    norm_num [Scalar.IsZero]
  simp only [realPart, divide, if_neg hfinite]
  norm_num
  field_simp

theorem evalAt_toList (z : ℂ) {n : ℕ} (bins : Vector (Phasor ℝ) n) :
    evalAt z bins.toList = ∑ k, (bins.get k).toComplex * z ^ (k : ℕ) := by
  have hlist : bins.toList = List.ofFn bins.get := by
    apply List.ext_getElem
    · simp
    · intro i hi _
      simp [Vector.get_eq_getElem]
  rw [hlist, evalAt_ofFn]

theorem back_mul_forward (part : ℝ) :
    back part * Complex.exp ((2 * Real.pi * part : ℝ) * Complex.I) = 1 := by
  rw [back, ← Complex.exp_add, Analytic.turn_real, neg_mul, neg_add_cancel, Complex.exp_zero]

/-- The fast transform of reflected bins turns every bin forward. -/
theorem binAt_fast_reflected (bins : Bins ℝ) {t : ℕ} (ht : t < 512) :
    binAt (fast 9 (roots 8) (reflected bins.toList)) t = ∑ k : Fin 512, (bins.get k).toComplex *
      Complex.exp ((2 * Real.pi * (k * t / 512) : ℝ) * Complex.I) := by
  have hlength : bins.toList.length = 2 ^ 9 := Vector.length_toList
  have hroot : (back (t * (1 / 512))) ^ 2 ^ 9 = 1 := by
    rw [← back_pow, pow_right_comm, show 2 ^ 9 = 2 ^ 8 * 2 by decide, pow_mul,
      rootsOf_roots.half 8 rfl, neg_one_sq, one_pow]
  rw [binAt_fast rootsOf_roots (by rw [length_reflected, hlength]) ht, back_pow,
    evalAt_reflected (back_mul_forward _) (by rw [hlength, hroot]), evalAt_toList]
  refine Finset.sum_congr rfl fun k _ => ?_
  rw [← Complex.exp_nat_mul]
  congr 2
  push_cast
  ring

end Dft

namespace Transform

theorem get_inverse_ofRoots (roots : List (Phasor ℝ)) (enough : 256 ≤ roots.length) (bins : Bins ℝ)
    (t : Fin 512) :
    ((ofRoots roots enough).inverse bins).get t =
      (Dft.binAt (Dft.fast 9 roots (Dft.reflected bins.toList)) t).re := by
  have hlength : (Dft.fast 9 roots (Dft.reflected bins.toList)).length = 512 :=
    Dft.length_fast 9 roots _ (by omega) (by rw [Dft.length_reflected, Vector.length_toList]; rfl)
  have hscale : (512.0 : ℝ) ≠ 0 := by norm_num
  rw [Dft.binAt, List.getD_eq_getElem _ _ (by rw [hlength]; exact t.isLt), Phasor.re_toComplex,
    ← Dft.realPart_real hscale]
  simp only [ofRoots, Vector.get_eq_getElem, Vector.getElem_mk, List.getElem_toArray,
    List.getElem_map]

/-- A transform whose inverse is the real part of the sum over the bins, each turned forward by its
share, without a scale factor. -/
structure InvertsDft (transform : Transform ℝ) : Prop where
  get_inverse (bins : Bins ℝ) (t : Fin 512) : (transform.inverse bins).get t =
    (∑ k : Fin 512, (bins.get k).toComplex *
      Complex.exp ((2 * Real.pi * (k * t / 512) : ℝ) * Complex.I)).re

theorem get_inverse_dft (bins : Bins ℝ) (t : Fin 512) :
    (dft.inverse bins).get t = (∑ k : Fin 512, (bins.get k).toComplex *
      Complex.exp ((2 * Real.pi * (k * t / 512) : ℝ) * Complex.I)).re := by
  rw [dft, get_inverse_ofRoots, Dft.binAt_fast_reflected bins t.isLt]

end Transform

end Vocoder
