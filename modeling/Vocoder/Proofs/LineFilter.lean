import Vocoder.Proofs.ChebyshevSeries

/-!
The filter of a vector of lines and the series of a filter undo each other, over the real numbers. A
cascade of sections is a product of polynomials in the delay, so the filter is the mean of two such
products, each with the root that its part always has. Every section reads the same from both ends.
So the filter gives back both products, and a product read from its middle is the series whose roots
are the cosines of its lines.
-/

namespace Vocoder.Lines

open Polynomial

/-! ### Signals as polynomials -/

/-- The values of a signal are the first coefficients of a polynomial in the delay. -/
def Starts (signal : List ℝ) (f : ℝ[X]) : Prop := ∀ k x, signal[k]? = some x → x = f.coeff k

theorem starts_impulse (n : Nat) : Starts (impulse n) 1 := by
  intro k x hx
  cases n with
  | zero => simp [impulse] at hx
  | succ n =>
      cases k with
      | zero =>
          simp only [impulse, List.getElem?_cons_zero, Option.some.injEq] at hx
          rw [← hx, coeff_one_zero]
          norm_num
      | succ k =>
          simp only [impulse, List.getElem?_cons_succ, List.getElem?_replicate] at hx
          rw [Polynomial.coeff_one, if_neg (Nat.succ_ne_zero k)]
          split_ifs at hx
          rw [← Option.some.inj hx]
          norm_num

/-- A zero before a signal delays it. -/
theorem Starts.delay {signal : List ℝ} {f : ℝ[X]} (h : Starts signal f) :
    Starts (0.0 :: signal) (X * f) := by
  intro k x hx
  cases k with
  | zero =>
      rw [List.getElem?_cons_zero, Option.some.injEq] at hx
      rw [← hx, coeff_X_mul_zero]
      norm_num
  | succ k => rw [coeff_X_mul, h k x hx]

theorem Starts.zipWith {op : ℝ → ℝ → ℝ} {xs ys : List ℝ} {f g h : ℝ[X]} (hf : Starts xs f)
    (hg : Starts ys g) (hop : ∀ k, op (f.coeff k) (g.coeff k) = h.coeff k) :
    Starts (List.zipWith op xs ys) h := by
  intro k z hz
  obtain ⟨x, y, hx, hy, rfl⟩ := List.getElem?_zipWith_eq_some.mp hz
  rw [hf k x hx, hg k y hy, hop]

/-! ### Filters of a signal -/

/-- The section of a line with the given cosine. -/
noncomputable def sectionPoly (c : ℝ) : ℝ[X] := 1 - C (2 * c) * X + X ^ 2

theorem sectionFilter_eq_zipWith (c last beforeLast : ℝ) (signal : List ℝ) :
    sectionFilter c last beforeLast signal =
      List.zipWith (fun d y => d + y)
        (List.zipWith (fun x y => x - 2.0 * c * y) signal (last :: signal))
        (beforeLast :: last :: signal) := by
  induction signal generalizing last beforeLast with
  | nil => rfl
  | cons x signal ih =>
      rw [sectionFilter, ih]
      rfl

theorem Starts.sectionFilter {signal : List ℝ} {f : ℝ[X]} (h : Starts signal f) (c : ℝ) :
    Starts (sectionFilter c 0.0 0.0 signal) (sectionPoly c * f) := by
  have hlast : Starts (List.zipWith (fun x y => x - 2.0 * c * y) signal (0.0 :: signal))
      (f - C (2 * c) * (X * f)) :=
    h.zipWith h.delay fun k => by rw [coeff_sub, coeff_C_mul, two_point_zero]
  have hproduct : sectionPoly c * f = f - C (2 * c) * (X * f) + X * (X * f) := by
    rw [sectionPoly]
    ring
  rw [sectionFilter_eq_zipWith, hproduct]
  exact hlast.zipWith h.delay.delay fun k => (coeff_add _ _ k).symm

theorem Starts.cascade {signal : List ℝ} {f : ℝ[X]} (h : Starts signal f) (cosines : List ℝ) :
    Starts (cascade cosines signal) ((cosines.map sectionPoly).prod * f) := by
  induction cosines generalizing signal f with
  | nil => simpa [Lines.cascade] using h
  | cons c cosines ih =>
      have hrest := ih (h.sectionFilter c)
      rw [← mul_assoc, mul_comm _ (sectionPoly c)] at hrest
      rw [List.map_cons, List.prod_cons]
      exact hrest

theorem addLast_eq_zipWith (last : ℝ) (signal : List ℝ) :
    addLast last signal = List.zipWith (fun x y => x + y) signal (last :: signal) := by
  induction signal generalizing last with
  | nil => rfl
  | cons x signal ih =>
      rw [addLast, ih]
      rfl

theorem subLast_eq_zipWith (last : ℝ) (signal : List ℝ) :
    subLast last signal = List.zipWith (fun x y => x - y) signal (last :: signal) := by
  induction signal generalizing last with
  | nil => rfl
  | cons x signal ih =>
      rw [subLast, ih]
      rfl

theorem Starts.addLast {signal : List ℝ} {f : ℝ[X]} (h : Starts signal f) :
    Starts (addLast 0.0 signal) ((1 + X) * f) := by
  rw [addLast_eq_zipWith, add_mul, one_mul]
  exact h.zipWith h.delay fun k => (coeff_add _ _ k).symm

theorem Starts.subLast {signal : List ℝ} {f : ℝ[X]} (h : Starts signal f) :
    Starts (subLast 0.0 signal) ((1 - X) * f) := by
  rw [subLast_eq_zipWith, sub_mul, one_mul]
  exact h.zipWith h.delay fun k => (coeff_sub _ _ k).symm

/-! ### The filter of lines -/

/-- The sections of the first `m` cosines. -/
noncomputable def sectionsPoly (cosine : Nat → ℝ) (m : Nat) : ℝ[X] :=
  ∏ i ∈ Finset.range m, sectionPoly (cosine i)

/-- The mean of a symmetric and an antisymmetric part, each with the root that it always has. -/
noncomputable def meanPoly (p q : ℝ[X]) : ℝ[X] :=
  C (1 / 2) * ((1 + X) * p + (1 - X) * q)

theorem starts_cascade_impulse (cosine : Nat → ℝ) (m n : Nat) :
    Starts (cascade ((List.range m).map cosine) (impulse n)) (sectionsPoly cosine m) := by
  have h := (starts_impulse n).cascade ((List.range m).map cosine)
  rw [mul_one, List.map_map] at h
  exact h

/-- The filter of lines has the coefficients of the mean of its two parts. -/
theorem yields_toFilter_coeff {lines : Array ℝ} {m : Nat} (hm : 2 * m ≤ 20)
    (hlines : lines.size = 2 * m) :
    Yields (toFilter lines (2 * m)) fun filter => filter.size = 2 * m + 1 ∧
      ∀ k, k ≤ 2 * m → line filter k =
        (meanPoly (sectionsPoly (fun i => Real.cos (line lines (2 * i))) m)
          (sectionsPoly (fun i => Real.cos (line lines (2 * i + 1))) m)).coeff k := by
  have hpairs : tabulate m (fun i => do
      return (Analytic.cos (← fetch lines (2 * i : Nat)),
        Analytic.cos (← fetch lines (2 * i + 1 : Nat)))) =
      .ok ((Array.range m).map fun i =>
        (Real.cos (line lines (2 * i)), Real.cos (line lines (2 * i + 1)))) := by
    refine tabulate_eq_map fun i hi => ?_
    rw [fetch_line (by omega), fetch_line (by omega)]
    rfl
  obtain ⟨filter, hfilter, hsize⟩ : Yields (toFilter lines (2 * m)) fun filter =>
      (filter.size : Int) = 2 * m + 1 :=
    yields_toFilter (by omega) (by omega) (by omega) (by omega)
  refine ⟨filter, hfilter, by omega, fun k hk => ?_⟩
  obtain ⟨taps, -, hfilter⟩ := bind_eq_ok.mp hfilter
  dsimp only at hfilter
  rw [if_neg (by omega), show ((2 * (m : Int)) / 2).toNat = m by omega, hpairs] at hfilter
  have hstarts : Starts filter.toList
      (meanPoly (sectionsPoly (fun i => Real.cos (line lines (2 * i))) m)
        (sectionsPoly (fun i => Real.cos (line lines (2 * i + 1))) m)) := by
    rw [← pure_eq_ok.mp hfilter]
    simp only [Array.toList_map, Array.toList_range, List.map_map]
    refine (starts_cascade_impulse (fun i => Real.cos (line lines (2 * i))) m taps).addLast.zipWith
      (starts_cascade_impulse (fun i => Real.cos (line lines (2 * i + 1))) m taps).subLast
      fun k => ?_
    rw [meanPoly, coeff_C_mul, coeff_add]
    norm_num
  refine hstarts k (line filter k) ?_
  simp [line, show k < filter.size by omega]

/-! ### Both ends of a product -/

theorem natDegree_sectionPoly_le (c : ℝ) : (sectionPoly c).natDegree ≤ 2 := by
  rw [sectionPoly]
  compute_degree

theorem natDegree_sectionsPoly_le (cosine : Nat → ℝ) (m : Nat) :
    (sectionsPoly cosine m).natDegree ≤ 2 * m := by
  refine (natDegree_prod_le _ _).trans ?_
  refine (Finset.sum_le_card_nsmul _ _ 2 fun i _ => natDegree_sectionPoly_le (cosine i)).trans ?_
  rw [Finset.card_range, smul_eq_mul, mul_comm]

theorem reflect_sectionPoly (c : ℝ) : reflect 2 (sectionPoly c) = sectionPoly c := by
  have hone : (1 : ℝ[X]) = X ^ 0 := (pow_zero X).symm
  have hX : (C (2 * c) * X : ℝ[X]) = C (2 * c) * X ^ 1 := by rw [pow_one]
  rw [sectionPoly, hone, hX, reflect_add, reflect_sub, reflect_monomial, reflect_monomial,
    reflect_C_mul_X_pow, revAt_le (by omega), revAt_le (by omega), revAt_le (by omega)]
  ring

/-- A product of sections reads the same from both ends. -/
theorem reflect_sectionsPoly (cosine : Nat → ℝ) (m : Nat) :
    reflect (2 * m) (sectionsPoly cosine m) = sectionsPoly cosine m := by
  induction m with
  | zero => simp [sectionsPoly]
  | succ m ih =>
      have hproduct : sectionsPoly cosine (m + 1) =
          sectionsPoly cosine m * sectionPoly (cosine m) :=
        Finset.prod_range_succ _ m
      rw [hproduct, Nat.mul_succ, reflect_mul _ _ (natDegree_sectionsPoly_le cosine m)
        (natDegree_sectionPoly_le _), ih, reflect_sectionPoly]

theorem coeff_sectionsPoly_sub (cosine : Nat → ℝ) {m k : Nat} (hk : k ≤ 2 * m) :
    (sectionsPoly cosine m).coeff (2 * m - k) = (sectionsPoly cosine m).coeff k := by
  conv_rhs => rw [← reflect_sectionsPoly, coeff_reflect, revAt_le hk]

theorem coeff_zero_sectionsPoly (cosine : Nat → ℝ) (m : Nat) :
    (sectionsPoly cosine m).coeff 0 = 1 := by
  rw [coeff_zero_eq_eval_zero, sectionsPoly, eval_prod]
  simp [sectionPoly]

theorem coeff_meanPoly_succ (p q : ℝ[X]) (k : Nat) :
    (meanPoly p q).coeff (k + 1) =
      1 / 2 * (p.coeff (k + 1) + p.coeff k + (q.coeff (k + 1) - q.coeff k)) := by
  simp only [meanPoly, coeff_C_mul, add_mul, sub_mul, one_mul, coeff_add, coeff_sub, coeff_X_mul]

theorem coeff_meanPoly_zero (p q : ℝ[X]) :
    (meanPoly p q).coeff 0 = 1 / 2 * (p.coeff 0 + q.coeff 0) := by
  simp only [meanPoly, coeff_C_mul, add_mul, sub_mul, one_mul, coeff_add, coeff_sub,
    coeff_X_mul_zero, add_zero, sub_zero]

/-- The recursion takes both products out of their mean again: the two ends of the mean have the
same share of the one product and opposite shares of the other. -/
theorem partAt_meanPoly {filter : Array ℝ} {m : Nat} {even odd : Nat → ℝ}
    (hfilter : ∀ k, k ≤ 2 * m → line filter k =
      (meanPoly (sectionsPoly even m) (sectionsPoly odd m)).coeff k) {i : Nat} (hi : i ≤ m) :
    partAt filter m 1 i = (sectionsPoly even m).coeff i ∧
      partAt filter m (-1) i = (sectionsPoly odd m).coeff i := by
  induction i with
  | zero => exact ⟨(coeff_zero_sectionsPoly even m).symm, (coeff_zero_sectionsPoly odd m).symm⟩
  | succ i ih =>
      obtain ⟨heven, hodd⟩ := ih (by omega)
      have hnear := hfilter (i + 1) (by omega)
      have hfar := hfilter (2 * m - i) (by omega)
      rw [coeff_meanPoly_succ] at hnear
      rw [show 2 * m - i = 2 * m - (i + 1) + 1 by omega, coeff_meanPoly_succ,
        show 2 * m - (i + 1) + 1 = 2 * m - i by omega, coeff_sectionsPoly_sub even (by omega),
        coeff_sectionsPoly_sub even (by omega), coeff_sectionsPoly_sub odd (by omega),
        coeff_sectionsPoly_sub odd (by omega)] at hfar
      rw [partAt, partAt, heven, hodd, hnear, hfar]
      constructor <;> ring

/-! ### A product from its middle -/

/-- The value that a polynomial has when its powers, counted from the middle one, are read as
Chebyshev polynomials. -/
noncomputable def centred (x : ℝ) (m : Nat) : ℝ[X] →ₗ[ℝ] ℝ :=
  lsum fun k => (Chebyshev.T ℝ ((k : ℤ) - m)).eval x • LinearMap.id

theorem centred_monomial (x : ℝ) (m k : Nat) (a : ℝ) :
    centred x m (monomial k a) = (Chebyshev.T ℝ ((k : ℤ) - m)).eval x * a := by
  simp [centred, lsum_apply, sum_monomial_index]

/-- A section takes the middle one power further, and multiplies by the distance of the point from
its cosine, twice. -/
theorem centred_sectionPoly_mul (x : ℝ) (m : Nat) (c : ℝ) (f : ℝ[X]) :
    centred x (m + 1) (sectionPoly c * f) = 2 * (x - c) * centred x m f := by
  induction f using Polynomial.induction_on' with
  | add f g hf hg => rw [mul_add, map_add, hf, hg, map_add, mul_add]
  | monomial k a =>
      have hproduct : sectionPoly c * monomial k a =
          monomial k a - (2 * c) • monomial (k + 1) a + monomial (k + 2) a := by
        rw [sectionPoly, add_mul, sub_mul, one_mul, mul_assoc, X_mul_monomial,
          X_pow_mul_monomial, smul_eq_C_mul]
      have hlow : ((k : ℤ) - (m + 1 : Nat)) = (k : ℤ) - m - 1 := by
        push_cast
        ring
      have hmiddle : (((k + 1 : Nat) : ℤ) - (m + 1 : Nat)) = (k : ℤ) - m := by
        push_cast
        ring
      have hhigh : (((k + 2 : Nat) : ℤ) - (m + 1 : Nat)) = (k : ℤ) - m + 1 := by
        push_cast
        ring
      rw [hproduct, map_add, map_sub, map_smul, centred_monomial, centred_monomial,
        centred_monomial, centred_monomial, hlow, hmiddle, hhigh, Chebyshev.T_add_one]
      simp only [eval_sub, eval_mul, eval_ofNat, eval_X, smul_eq_mul]
      ring

theorem centred_sectionsPoly (x : ℝ) (cosine : Nat → ℝ) (m : Nat) :
    centred x m (sectionsPoly cosine m) = 2 ^ m * ∏ i ∈ Finset.range m, (x - cosine i) := by
  induction m with
  | zero =>
      rw [sectionsPoly, Finset.prod_range_zero, ← monomial_zero_one, centred_monomial]
      simp
  | succ m ih =>
      rw [sectionsPoly, Finset.prod_range_succ, mul_comm, centred_sectionPoly_mul]
      rw [sectionsPoly] at ih
      rw [ih, Finset.prod_range_succ]
      ring

theorem sum_range_from_middle (g : Nat → ℝ) (m : Nat) :
    ∑ k ∈ Finset.range (m + (m + 1)), g k =
      ∑ k ∈ Finset.range m, (g (m - 1 - k) + g (m + (k + 1))) + g m := by
  rw [Finset.sum_range_add, Finset.sum_range_succ' (fun k => g (m + k)),
    ← Finset.sum_range_reflect g m, Finset.sum_add_distrib, Nat.add_zero, add_assoc]

/-- The series with the first half of a product's coefficients is the product, read from its
middle: the other half is the same. -/
theorem Doubles.eval_seriesPoly {series : Array ℝ} {m : Nat} {cosine : Nat → ℝ}
    (h : Doubles series m (sectionsPoly cosine m).coeff) (x : ℝ) :
    (seriesPoly series m).eval x = 2 ^ m * ∏ i ∈ Finset.range m, (x - cosine i) := by
  let p := (sectionsPoly cosine m).coeff
  let T (k : ℤ) : ℝ := (Chebyshev.T ℝ k).eval x
  have hmirror : ∀ k, k < m → p (m + (k + 1)) = p (m - 1 - k) := by
    intro k hk
    have hends := coeff_sectionsPoly_sub cosine (m := m) (k := m - 1 - k) (by omega)
    rwa [show 2 * m - (m - 1 - k) = m + (k + 1) by omega] at hends
  have hpair : ∀ k ∈ Finset.range m,
      T (((m - 1 - k : Nat) : ℤ) - m) * p (m - 1 - k) +
        T (((m + (k + 1) : Nat) : ℤ) - m) * p (m + (k + 1)) =
      2 * p (m - 1 - k) * T (k + 1 : Nat) := by
    intro k hk
    rw [Finset.mem_range] at hk
    have hbelow : ((m - 1 - k : Nat) : ℤ) - m = -((k + 1 : Nat) : ℤ) := by omega
    have habove : ((m + (k + 1) : Nat) : ℤ) - m = (k + 1 : Nat) := by omega
    simp only [T]
    rw [hbelow, habove, Chebyshev.T_neg, hmirror k hk]
    ring
  have hcentred : centred x m (sectionsPoly cosine m) =
      ∑ k ∈ Finset.range (m + (m + 1)), T ((k : ℤ) - m) * p k := by
    have hdegree := natDegree_sectionsPoly_le cosine m
    rw [centred, lsum_apply, sum_over_range' _ (by simp) (m + (m + 1)) (by omega)]
    rfl
  calc (seriesPoly series m).eval x
    _ = ∑ i ∈ Finset.range (m + 1), line series (m - i) * T i := by
      rw [seriesPoly, eval_finsetSum]
      simp only [eval_mul, eval_C, T]
    _ = ∑ k ∈ Finset.range m, 2 * p (m - 1 - k) * T (k + 1 : Nat) + p m := by
      rw [Finset.sum_range_succ']
      congr 1
      · refine Finset.sum_congr rfl fun k hk => ?_
        rw [Finset.mem_range] at hk
        rw [show m - (k + 1) = m - 1 - k by omega, h.outer _ (by omega)]
      · simp [T, p, h.middle]
    _ = centred x m (sectionsPoly cosine m) := by
      rw [hcentred, sum_range_from_middle, Finset.sum_congr rfl hpair]
      simp [T]
    _ = 2 ^ m * ∏ i ∈ Finset.range m, (x - cosine i) := centred_sectionsPoly x cosine m

/-- The filter of lines and the series of a filter undo each other: the filter has the coefficients
of the mean of two products of sections, and its two series have the cosines of the lines as their
roots. -/
theorem filter_and_series_inverse {m : Nat} (hm : 2 * m ≤ 20) (lines : Array ℝ)
    (hlines : lines.size = 2 * m) :
    ∃ filter series, toFilter lines (2 * m) = .ok filter ∧ parts filter (2 * m) = .ok series ∧
      filter.size = 2 * m + 1 ∧ line filter 0 = 1 ∧
      (∀ k, k ≤ 2 * m → line filter k =
        (C (1 / 2) *
          ((1 + X) * ∏ i ∈ Finset.range m, (1 - C (2 * Real.cos (line lines (2 * i))) * X + X ^ 2) +
            (1 - X) *
              ∏ i ∈ Finset.range m, (1 - C (2 * Real.cos (line lines (2 * i + 1))) * X + X ^ 2))
          ).coeff k) ∧
      ∀ x, evaluate series.symmetric x (2 * m) =
          .ok (2 ^ m * ∏ i ∈ Finset.range m, (x - Real.cos (line lines (2 * i)))) ∧
        evaluate series.antisymmetric x (2 * m) =
          .ok (2 ^ m * ∏ i ∈ Finset.range m, (x - Real.cos (line lines (2 * i + 1)))) := by
  obtain ⟨filter, hfilter, hsize, hcoeff⟩ := yields_toFilter_coeff hm hlines
  have hroom : 2 * m < filter.size := by omega
  obtain ⟨series, hseries, heven, hodd⟩ := yields_parts_doubles hroom
  have hfirst : line filter 0 = 1 := by
    rw [hcoeff 0 (Nat.zero_le _), coeff_meanPoly_zero, coeff_zero_sectionsPoly,
      coeff_zero_sectionsPoly]
    norm_num
  refine ⟨filter, series, hfilter, hseries, hsize, hfirst, fun k hk => ?_, fun x => ⟨?_, ?_⟩⟩
  · simpa only [meanPoly, sectionsPoly, sectionPoly] using hcoeff k hk
  · rw [evaluate_eq hm (by rw [heven.size]; omega),
      (heven.congr fun i hi => (partAt_meanPoly hcoeff hi).1).eval_seriesPoly]
  · rw [evaluate_eq hm (by rw [hodd.size]; omega),
      (hodd.congr fun i hi => (partAt_meanPoly hcoeff hi).2).eval_seriesPoly]

/-- Four lines, two of them the same. -/
theorem filter_and_series_inverse_four : 2 * 2 ≤ 20 ∧ (#[0.5, 1, 1, 2] : Array ℝ).size = 2 * 2 ∧
    ∃ filter series, toFilter (#[0.5, 1, 1, 2] : Array ℝ) 4 = .ok filter ∧
      parts filter 4 = .ok series ∧ filter.size = 5 ∧ line filter 0 = 1 ∧
      ∀ x : ℝ,
        evaluate series.symmetric x 4 =
          .ok (2 ^ 2 * ((x - Real.cos 0.5) * (x - Real.cos 1))) ∧
        evaluate series.antisymmetric x 4 =
          .ok (2 ^ 2 * ((x - Real.cos 1) * (x - Real.cos 2))) := by
  obtain ⟨filter, series, hfilter, hseries, hsize, hfirst, -, hvalues⟩ :=
    filter_and_series_inverse (m := 2) (by decide) #[0.5, 1, 1, 2] rfl
  refine ⟨by decide, rfl, filter, series, hfilter, hseries, hsize, hfirst, fun x => ?_⟩
  simpa [Finset.prod_range_succ, line] using hvalues x

end Vocoder.Lines
