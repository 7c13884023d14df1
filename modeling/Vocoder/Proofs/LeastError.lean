import Vocoder.Proofs.NormalEquations

/-!
The energy of a prediction is the least error that any coefficients leave, and it is positive, over
the real numbers. The error of coefficients is the sum of the squares of what they leave of the
signal, until the last sample has passed through all of them. It is a quadratic form in the
coefficients whose matrix has the lags of the autocorrelation, so a solution of the normal equations
leaves less than all others. The first sample of a signal that is not silent passes as it is, so no
error is zero, no reflection can reach one, and the recursion never has to bound any.
-/

namespace Vocoder.Prediction

open Finset

/-! ### Errors as a quadratic form -/

/-- A signal that starts `j` samples late. -/
def delayed (x : ℕ → ℝ) (j t : ℕ) : ℝ := if j ≤ t then x (t - j) else 0

/-- What the coefficients `a` up to order `n` leave of a signal at time `t`. -/
def residue (a x : ℕ → ℝ) (n t : ℕ) : ℝ := ∑ j ∈ range (n + 1), a j * delayed x j t

/-- The energy of what coefficients leave of a signal of `count` samples. -/
def errorEnergy (a x : ℕ → ℝ) (n count : ℕ) : ℝ := ∑ t ∈ range (count + n), residue a x n t ^ 2

/-- The autocorrelation of a signal of `count` samples. -/
def lagSum (x : ℕ → ℝ) (count lag : ℕ) : ℝ := ∑ i ∈ range count, x i * x (i + lag)

/-- A signal that ends after `count` samples. -/
def Ends (x : ℕ → ℝ) (count : ℕ) : Prop := ∀ i, count ≤ i → x i = 0

theorem delayed_add (x : ℕ → ℝ) (j t : ℕ) : delayed x j (j + t) = x t := by
  rw [delayed, if_pos (Nat.le_add_right j t), Nat.add_sub_cancel_left]

theorem delayed_of_lt (x : ℕ → ℝ) {j t : ℕ} (h : t < j) : delayed x j t = 0 :=
  if_neg (Nat.not_le.mpr h)

/-- The product of a signal with itself at two delays, summed until it has passed, is the
autocorrelation at the lag between them. -/
theorem sum_delayed_of_le {x : ℕ → ℝ} {count n i j : ℕ} (hends : Ends x count) (hij : i ≤ j)
    (hj : j ≤ n) :
    ∑ t ∈ range (count + n), delayed x i t * delayed x j t = lagSum x count (j - i) := by
  have hstart : ∑ t ∈ range j, delayed x i t * delayed x j t = 0 := by
    apply sum_eq_zero
    intro t ht
    rw [delayed_of_lt x (mem_range.mp ht), mul_zero]
  have hshift : ∀ t, delayed x i (j + t) * delayed x j (j + t) = x t * x (t + (j - i)) := by
    intro t
    rw [delayed_add, show j + t = i + (t + (j - i)) by omega, delayed_add, mul_comm]
  have htail : ∑ t ∈ range (n - j), x (count + t) * x (count + t + (j - i)) = 0 := by
    apply sum_eq_zero
    intro t _
    rw [hends _ (Nat.le_add_right _ _), zero_mul]
  calc ∑ t ∈ range (count + n), delayed x i t * delayed x j t
    _ = ∑ t ∈ range (count + (n - j)), x t * x (t + (j - i)) := by
      rw [show count + n = j + (count + (n - j)) by omega, sum_range_add, hstart, zero_add]
      exact sum_congr rfl fun t _ => hshift t
    _ = lagSum x count (j - i) := by rw [sum_range_add, htail, add_zero, lagSum]

theorem sum_delayed {x : ℕ → ℝ} {count n i j : ℕ} (hends : Ends x count) (hi : i ≤ n)
    (hj : j ≤ n) : ∑ t ∈ range (count + n), delayed x i t * delayed x j t =
      lagSum x count ((i : ℤ) - j).natAbs := by
  rcases Nat.le_total i j with hij | hji
  · rw [sum_delayed_of_le hends hij hj, show ((i : ℤ) - j).natAbs = j - i by omega]
  · have hswap := sum_delayed_of_le hends hji hi
    simp only [mul_comm (delayed x j _)] at hswap
    rw [hswap, show ((i : ℤ) - j).natAbs = i - j by omega]

/-- The products of what two vectors of coefficients leave, through the remainders of one. -/
theorem sum_residue_mul {x : ℕ → ℝ} {count : ℕ} (hends : Ends x count) (a b : ℕ → ℝ) (n : ℕ) :
    ∑ t ∈ range (count + n), residue a x n t * residue b x n t =
      ∑ i ∈ range (n + 1), b i * remainder (lagSum x count) n a i := by
  have hexpand : ∀ t, residue a x n t * residue b x n t = ∑ i ∈ range (n + 1),
      ∑ j ∈ range (n + 1), b i * a j * (delayed x i t * delayed x j t) := by
    intro t
    rw [residue, residue, mul_comm, sum_mul_sum]
    refine sum_congr rfl fun i _ => sum_congr rfl fun j _ => ?_
    ring
  simp only [hexpand]
  rw [sum_comm]
  refine sum_congr rfl fun i hi => ?_
  rw [sum_comm, remainder, mul_sum]
  refine sum_congr rfl fun j hj => ?_
  rw [mem_range] at hi hj
  rw [← mul_sum, sum_delayed hends (by omega) (by omega), mul_assoc]

/-- Where all equations but the first hold, only the first coefficient of the other vector
counts. -/
theorem sum_residue_mul_of_normal {x a : ℕ → ℝ} {count n : ℕ} (hends : Ends x count)
    (hnormal : ∀ i, 1 ≤ i → i ≤ n → remainder (lagSum x count) n a i = 0) (b : ℕ → ℝ) :
    ∑ t ∈ range (count + n), residue a x n t * residue b x n t =
      b 0 * remainder (lagSum x count) n a 0 := by
  rw [sum_residue_mul hends, sum_range_succ', add_eq_right]
  apply sum_eq_zero
  intro i hi
  rw [mem_range] at hi
  rw [hnormal (i + 1) (by omega) (by omega), mul_zero]

/-- The error of a solution is what it leaves at lag zero. -/
theorem errorEnergy_of_normal {x a : ℕ → ℝ} {count n : ℕ} (hends : Ends x count)
    (hfirst : a 0 = 1)
    (hnormal : ∀ i, 1 ≤ i → i ≤ n → remainder (lagSum x count) n a i = 0) :
    errorEnergy a x n count = remainder (lagSum x count) n a 0 := by
  simp only [errorEnergy, sq]
  rw [sum_residue_mul_of_normal hends hnormal, hfirst, one_mul]

/-- No coefficients leave less than a solution. -/
theorem errorEnergy_le {x a b : ℕ → ℝ} {count n : ℕ} (hends : Ends x count) (hfirst : a 0 = 1)
    (hnormal : ∀ i, 1 ≤ i → i ≤ n → remainder (lagSum x count) n a i = 0) (hb : b 0 = 1) :
    errorEnergy a x n count ≤ errorEnergy b x n count := by
  have hcross : ∑ t ∈ range (count + n), residue a x n t * residue b x n t =
      errorEnergy a x n count := by
    rw [sum_residue_mul_of_normal hends hnormal, hb, one_mul,
      errorEnergy_of_normal hends hfirst hnormal]
  have hdistance : ∑ t ∈ range (count + n), (residue b x n t - residue a x n t) ^ 2 =
      errorEnergy b x n count - errorEnergy a x n count := by
    calc ∑ t ∈ range (count + n), (residue b x n t - residue a x n t) ^ 2
      _ = ∑ t ∈ range (count + n), (residue b x n t ^ 2 + residue a x n t ^ 2 -
          2 * (residue a x n t * residue b x n t)) := by
        refine sum_congr rfl fun t _ => ?_
        ring
      _ = errorEnergy b x n count + errorEnergy a x n count - 2 * errorEnergy a x n count := by
        rw [sum_sub_distrib, sum_add_distrib, ← mul_sum, hcross, errorEnergy, errorEnergy]
      _ = errorEnergy b x n count - errorEnergy a x n count := by ring
  have hnonneg : 0 ≤ ∑ t ∈ range (count + n), (residue b x n t - residue a x n t) ^ 2 :=
    sum_nonneg fun t _ => sq_nonneg _
  linarith

/-- The first sample that is not zero passes as it is, so no coefficients leave nothing. -/
theorem errorEnergy_pos {x a : ℕ → ℝ} {count : ℕ} (n : ℕ) (hends : Ends x count)
    (hfirst : a 0 = 1) (hsound : ∃ i, x i ≠ 0) : 0 < errorEnergy a x n count := by
  classical
  let p := Nat.find hsound
  have hp : x p ≠ 0 := Nat.find_spec hsound
  have hbefore : ∀ i, i < p → x i = 0 := fun i hi => not_not.mp (Nat.find_min hsound hi)
  have hlt : p < count := by
    by_contra hge
    exact hp (hends p (Nat.not_lt.mp hge))
  have hpast : ∀ j, delayed x (j + 1) p = 0 := by
    intro j
    rcases Nat.lt_or_ge p (j + 1) with hlate | hearly
    · exact delayed_of_lt x hlate
    · rw [delayed, if_pos hearly, hbefore _ (by omega)]
  have hresidue : residue a x n p = x p := by
    have hzero : ∑ j ∈ range n, a (j + 1) * delayed x (j + 1) p = 0 :=
      sum_eq_zero fun j _ => by rw [hpast, mul_zero]
    rw [residue, sum_range_succ', hzero, zero_add, hfirst, one_mul]
    exact if_pos (Nat.zero_le p)
  calc 0
    _ < residue a x n p ^ 2 := by
      rw [hresidue]
      positivity
    _ ≤ errorEnergy a x n count :=
      single_le_sum (f := fun t => residue a x n t ^ 2) (fun t _ => sq_nonneg _)
        (mem_range.mpr (by omega))

/-- A fit that solves its equations has a positive error. -/
theorem Fit.Solves.error_pos {x : ℕ → ℝ} {count : ℕ} {fit : Fit ℝ} (hends : Ends x count)
    (hsound : ∃ i, x i ≠ 0) (h : fit.Solves (lagSum x count)) : 0 < fit.error := by
  rw [← h.error, ← errorEnergy_of_normal hends (coefficient_zero fit) h.normal]
  exact errorEnergy_pos _ hends (coefficient_zero fit) hsound

/-! ### The analysis of a block -/

theorem ends_entry (signal : Array ℝ) : Ends (entry signal) signal.size := by
  intro i hi
  simp [entry, hi]

theorem yields_windowed_entry {signal window : Array ℝ} (h : signal.size ≤ window.size) :
    Yields (windowed signal window) fun products => products.size = signal.size ∧
      ∀ i, entry products i = entry signal i * entry window i := by
  have hproduct : ∀ i, i < signal.size →
      Yields (do return (← fetch signal i) * (← fetch window i) : Except Fault ℝ) fun x =>
        x = entry signal i * entry window i := by
    intro i hi
    refine (yields_fetch_entry rfl hi).bind fun x hx => ?_
    refine (yields_fetch_entry rfl (by omega)).bind fun y hy => Yields.pure ?_
    rw [hx, hy]
  refine (yields_tabulate_at hproduct).mono fun products hdone => ⟨hdone.1, fun i => ?_⟩
  rcases Nat.lt_or_ge i signal.size with hlt | hge
  · apply hdone.2
    simp [entry, hdone.1, hlt]
  · rw [ends_entry products i (by omega), ends_entry signal i hge, zero_mul]

theorem correlation_eq (signal : Array ℝ) (lag : ℕ) :
    correlation signal.toList lag = lagSum (entry signal) signal.size lag := by
  refine (sumProducts_eq_sum signal.toList (signal.toList.drop lag)).trans ?_
  rw [lagSum, Array.length_toList]
  refine sum_congr rfl fun i _ => ?_
  simp [entry, List.getD_eq_getElem?_getD, List.getElem?_drop, add_comm]

theorem yields_autocorrelate_holds (signal : Array ℝ) {n : ℕ} (hn : n ≤ 20) :
    Yields (autocorrelate signal n) (Holds (lagSum (entry signal) signal.size) n) := by
  refine (yields_length (by omega) (by omega)).bind fun count hcount => Yields.pure ?_
  obtain rfl : count = n + 1 := by omega
  rw [Holds, Array.toList_map, Array.toList_range]
  exact List.map_congr_left fun lag _ => correlation_eq signal lag

/-- The energy of coefficients is what they leave at lag zero. -/
theorem sumBetween_eq_remainder {a lags : Array ℝ} {n : ℕ} {R : ℕ → ℝ} (hlags : Holds R n lags)
    (ha : a.size = n + 1) :
    (sumBetween 0 ((n : Int) + 1) 0.0 fun i => do return (← fetch a i) * (← fetch lags i)) =
      .ok (remainder R n (entry a) 0) := by
  have hsize := hlags.size_eq
  have hterm : ∀ k : ℕ, k < n + 1 →
      (do return (← fetch a (k : Int)) * (← fetch lags (k : Int)) : Except Fault ℝ) =
        .ok (entry a k * R ((0 : ℕ) - (k : ℤ)).natAbs) := by
    intro k hk
    obtain ⟨x, hx, rfl⟩ : Yields (fetch a (k : Int)) fun x => x = entry a k :=
      yields_fetch_entry rfl (by omega)
    obtain ⟨y, hy, rfl⟩ : Yields (fetch lags (k : Int)) fun y => y = entry lags k :=
      yields_fetch_entry rfl (by omega)
    rw [hx, hy, hlags.entry_eq (by omega), show ((0 : ℕ) - (k : ℤ)).natAbs = k by omega]
    rfl
  refine (sumBetween_eq_sum hterm).trans ?_
  rw [zero_point_zero, zero_add]
  rfl

/-- The analysis of a block that is not silent under its window returns, with every reflection
strictly inside its bounds. Its energy is the sum of the squares of what the coefficients leave of
the block, and no other coefficients leave less. -/
theorem analysis_energy_least {n : ℕ} (hn : n ≤ 20) (signal window : Array ℝ)
    (hsignal : signal.size ≤ 512) (hwindow : signal.size ≤ window.size)
    (hsound : ∃ i, entry signal i * entry window i ≠ 0) :
    ∃ products lags a energy, windowed signal window = .ok products ∧
      autocorrelate products n = .ok lags ∧ coefficients lags n = .ok a ∧
      analyse signal window n = .ok (a, energy) ∧ (raisesOf lags).length = n ∧
      (∀ raise ∈ raisesOf lags, 0 < raise.error ∧ |raise.reflection| < 1) ∧
      a.toList = 1 :: (Fit.raised ⟨[], entry lags 0⟩ (raisesOf lags)).taps ∧
      a.size = n + 1 ∧ entry a 0 = 1 ∧
      energy = errorEnergy (entry a) (fun i => entry signal i * entry window i) n signal.size ∧
      0 < energy ∧ ∀ b : ℕ → ℝ, b 0 = 1 →
        energy ≤ errorEnergy b (fun i => entry signal i * entry window i) n signal.size := by
  obtain ⟨products, hproducts, hsize, hentry⟩ := yields_windowed_entry hwindow
  have hx : entry products = fun i => entry signal i * entry window i := funext hentry
  obtain ⟨lags, hlags, hholds⟩ := yields_autocorrelate_holds products hn
  have hends := ends_entry products
  simp only [← hentry] at hsound
  rw [← hx, ← hsize]
  have hraises : ∀ raise ∈ raisesOf lags, 0 < raise.error ∧ |raise.reflection| < 1 := by
    rw [hholds.raisesOf_eq]
    exact raises_of_pos (faces_later _ n) (fun fit h => h.error_pos hends hsound) (solves_start _)
  obtain ⟨a, ha, hcount, hfirst, hnormal, -, hraised⟩ := yields_coefficients_solve hn hholds
    fun raise hraise => ⟨(hraises raise hraise).1.ne', (hraises raise hraise).2.le⟩
  rw [← hholds.entry_eq (Nat.zero_le n)] at hraised
  have henergy := errorEnergy_of_normal hends hfirst hnormal
  have hanalyse : analyse signal window n =
      .ok (a, errorEnergy (entry a) (entry products) n products.size) := by
    unfold analyse
    dsimp only
    rw [if_neg (by omega)]
    refine bind_eq_ok.mpr ⟨products, hproducts, bind_eq_ok.mpr ⟨lags, hlags, bind_eq_ok.mpr
      ⟨a, ha, bind_eq_ok.mpr ⟨_, sumBetween_eq_remainder hholds hcount, ?_⟩⟩⟩⟩
    rw [henergy]
    rfl
  exact ⟨products, lags, a, _, hproducts, hlags, ha, hanalyse, hholds.length_raisesOf, hraises,
    hraised, hcount, hfirst, rfl, errorEnergy_pos n hends hfirst hsound,
    fun b hb => errorEnergy_le hends hfirst hnormal hb⟩

/-- A block that starts silent and is shorter than the order. No prediction at all leaves its
power. -/
theorem analysis_energy_least_short : 4 ≤ 20 ∧ (#[0, 3, -4] : Array ℝ).size ≤ 512 ∧
    (#[0, 3, -4] : Array ℝ).size ≤ (#[1, 1, 0.5] : Array ℝ).size ∧
    entry (#[0, 3, -4] : Array ℝ) 1 * entry (#[1, 1, 0.5] : Array ℝ) 1 ≠ 0 ∧
    ∃ products lags a energy, windowed (#[0, 3, -4] : Array ℝ) #[1, 1, 0.5] = .ok products ∧
      autocorrelate products 4 = .ok lags ∧
      (∀ raise ∈ raisesOf lags, 0 < raise.error ∧ |raise.reflection| < 1) ∧
      analyse (#[0, 3, -4] : Array ℝ) #[1, 1, 0.5] 4 = .ok (a, energy) ∧ entry a 0 = 1 ∧
      0 < energy ∧ energy ≤ 13 := by
  have hsound : entry (#[0, 3, -4] : Array ℝ) 1 * entry (#[1, 1, 0.5] : Array ℝ) 1 ≠ 0 := by
    norm_num [entry]
  obtain ⟨products, lags, a, energy, hproducts, hlags, -, hanalyse, -, hraises, -, -, hfirst, -,
    hpos, hleast⟩ := analysis_energy_least (n := 4) (by decide) (#[0, 3, -4] : Array ℝ) #[1, 1, 0.5]
      (by decide) (by decide) ⟨1, hsound⟩
  refine ⟨by decide, by decide, by decide, hsound, products, lags, a, energy, hproducts, hlags,
    hraises, hanalyse, hfirst, hpos, ?_⟩
  -- Coefficients that predict nothing leave the powers of the two samples that are not silent.
  refine (hleast (fun j => if j = 0 then 1 else 0) (if_pos rfl)).trans (le_of_eq ?_)
  norm_num [errorEnergy, residue, delayed, sum_range_succ, entry]

end Vocoder.Prediction
