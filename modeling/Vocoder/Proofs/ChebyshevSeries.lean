import Vocoder.Proofs.LineSeparation
import Vocoder.Proofs.PredictionTotal

/-!
The two series of a filter over the real numbers. The points of the basis are the Chebyshev
polynomials, so a series is a polynomial of its own, and evaluating it never faults.
-/

namespace Vocoder.Lines

open Polynomial

theorem getElem?_extend {x : ℝ} {k n : Nat} (acc : Array ℝ) (hsize : acc.size = n + 2)
    (hacc : ∀ i, i < n + 2 → acc[i]? = some ((Chebyshev.T ℝ i).eval x)) {i : Nat}
    (hi : i < n + 2 + k) :
    (chebyshev.extend x k ((Chebyshev.T ℝ n).eval x)
      ((Chebyshev.T ℝ (n + 1 : Nat)).eval x) acc)[i]? = some ((Chebyshev.T ℝ i).eval x) := by
  induction k generalizing n acc with
  | zero => exact hacc i hi
  | succ k ih =>
      have hnext : 2.0 * x * (Chebyshev.T ℝ (n + 1 : Nat)).eval x - (Chebyshev.T ℝ n).eval x =
          (Chebyshev.T ℝ (n + 2 : Nat)).eval x := by
        push_cast
        rw [Chebyshev.T_add_two]
        simp only [eval_sub, eval_mul, eval_ofNat, eval_X]
        norm_num
      rw [chebyshev.extend, hnext]
      refine ih (n := n + 1) _ (by rw [Array.size_push, hsize]) (fun j hj => ?_) (by omega)
      rw [Array.getElem?_push, hsize]
      split_ifs with hlast
      · rw [hlast]
      · exact hacc j (by omega)

/-- The basis has the Chebyshev polynomials. -/
theorem fetch_chebyshev (x : ℝ) {n i : Nat} (hi : i ≤ n) :
    fetch (chebyshev x n) i = .ok ((Chebyshev.T ℝ i).eval x) := by
  refine fetch_eq_ok.mpr ⟨Int.natCast_nonneg i, ?_⟩
  rw [Int.toNat_natCast]
  cases n with
  | zero =>
      obtain rfl : i = 0 := by omega
      simp [chebyshev]
  | succ k =>
      have hstart := getElem?_extend (x := x) (k := k) (n := 0) #[1.0, x] rfl
        (fun j hj => ?_) (i := i) (by omega)
      · simpa [chebyshev] using hstart
      · interval_cases j <;> simp

/-- The polynomial of a series with coefficients up to `m`, the highest first. -/
noncomputable def seriesPoly (series : Array ℝ) (m : Nat) : ℝ[X] :=
  ∑ i ∈ Finset.range (m + 1), C (line series (m - i)) * Chebyshev.T ℝ i

theorem fetch_line {lines : Array ℝ} {k : Nat} (hk : k < lines.size) :
    fetch lines k = .ok (line lines k) := by
  obtain ⟨x, hx, rfl⟩ := yields_fetch_line rfl hk
  exact hx

theorem tdiv_two_mul (m : Nat) : (2 * (m : Int)).tdiv 2 = m := by
  rw [Int.tdiv_eq_ediv_of_nonneg (by omega)]
  omega

/-- A series has the values of its polynomial. -/
theorem evaluate_eq {series : Array ℝ} {m : Nat} (hm : 2 * m ≤ 20) (hsize : m < series.size)
    (x : ℝ) : evaluate series x (2 * m) = .ok ((seriesPoly series m).eval x) := by
  have hterm : ∀ i : Nat, i < m + 1 →
      (do return (← fetch series ((m : Int) - i)) * (← fetch (chebyshev x m) i)) =
        (.ok (line series (m - i) * (Chebyshev.T ℝ i).eval x) : Except Fault ℝ) := by
    intro i hi
    rw [show (m : Int) - i = (m - i : Nat) by omega, fetch_line (by omega),
      fetch_chebyshev x (by omega)]
    rfl
  unfold evaluate
  dsimp only
  rw [tdiv_two_mul, if_neg (by omega), Int.toNat_natCast]
  refine (sumBetween_eq_sum hterm).trans ?_
  rw [zero_point_zero, zero_add, seriesPoly, eval_finsetSum]
  simp only [eval_mul, eval_C]

/-! ### The series of a filter -/

/-- The coefficients of a filter's symmetric part for the sign `1`, and of its antisymmetric part
for the sign `-1`, each without the root that the part always has. -/
noncomputable def partAt (filter : Array ℝ) (m : Nat) (sign : ℝ) : Nat → ℝ
  | 0 => 1
  | i + 1 => line filter (i + 1) + sign * (line filter (2 * m - i) - partAt filter m sign i)

/-- An array of the first coefficients, up to position `n`. -/
def Lists (part : Array ℝ) (n : Nat) (coefficient : Nat → ℝ) : Prop :=
  part.size = n + 1 ∧ ∀ k, k ≤ n → line part k = coefficient k

theorem Lists.singleton {coefficient : Nat → ℝ} {x : ℝ} (hx : x = coefficient 0) :
    Lists #[x] 0 coefficient := by
  refine ⟨rfl, fun k hk => ?_⟩
  obtain rfl : k = 0 := by omega
  exact hx

theorem Lists.push {part : Array ℝ} {n : Nat} {coefficient : Nat → ℝ} {x : ℝ}
    (h : Lists part n coefficient) (hx : x = coefficient (n + 1)) :
    Lists (part.push x) (n + 1) coefficient := by
  refine ⟨by rw [Array.size_push, h.1], fun k hk => ?_⟩
  rw [line_push, h.1]
  split_ifs with hlast
  · rw [hlast, hx]
  · exact h.2 k (by omega)

/-- A series that has the given coefficients: the middle one once, all others twice. -/
structure Doubles (series : Array ℝ) (m : Nat) (coefficient : Nat → ℝ) : Prop where
  size : series.size = m + 1
  outer : ∀ i, i < m → line series i = 2 * coefficient i
  middle : line series m = coefficient m

theorem Doubles.congr {series : Array ℝ} {m : Nat} {coefficient other : Nat → ℝ}
    (h : Doubles series m coefficient) (heq : ∀ i, i ≤ m → coefficient i = other i) :
    Doubles series m other where
  size := h.size
  outer i hi := by rw [h.outer i hi, heq i hi.le]
  middle := by rw [h.middle, heq m le_rfl]

theorem Lists.doubles {plain : Array ℝ} {m : Nat} {coefficient : Nat → ℝ}
    (h : Lists plain m coefficient) :
    Doubles (plain.mapIdx fun i c => if (i : Int) < m then c * 2.0 else c) m coefficient := by
  have hsize := h.1
  have hline : ∀ i, i ≤ m → line (plain.mapIdx fun i c => if (i : Int) < m then c * 2.0 else c) i =
      if i < m then coefficient i * 2 else coefficient i := by
    intro i hi
    have hvalue := h.2 i hi
    simp only [line, Array.getD_eq_getD_getElem?, Array.getElem?_mapIdx] at hvalue ⊢
    rw [Array.getElem?_eq_getElem (show i < plain.size by omega)] at hvalue ⊢
    simp only [Option.getD_some, Option.map_some, Int.ofNat_lt] at hvalue ⊢
    rw [hvalue]
    split_ifs <;> norm_num
  refine ⟨by rw [Array.size_mapIdx, hsize], fun i hi => ?_, ?_⟩
  · rw [hline i hi.le, if_pos hi, mul_comm]
  · rw [hline m le_rfl, if_neg (lt_irrefl m)]

/-- The two series of a filter, which may have more coefficients than its order needs. -/
theorem yields_parts_doubles {filter : Array ℝ} {m : Nat} (hfilter : 2 * m < filter.size) :
    Yields (parts filter (2 * m)) fun series =>
      Doubles series.symmetric m (partAt filter m 1) ∧
        Doubles series.antisymmetric m (partAt filter m (-1)) := by
  unfold parts
  dsimp only
  rw [tdiv_two_mul]
  -- Before position `i` there are `i` coefficients, and the last one is kept apart.
  refine Yields.bind (P := fun done =>
    Lists done.1 m (partAt filter m 1) ∧ Lists done.2.1 m (partAt filter m (-1)))
    (yields_foldBetween (P := fun i done => ∃ n : Nat, i = n + 1 ∧
      Lists done.1 n (partAt filter m 1) ∧ Lists done.2.1 n (partAt filter m (-1)) ∧
      done.2.2.1 = partAt filter m 1 n ∧ done.2.2.2 = partAt filter m (-1) n) ?_ ?_ ?_) ?_
  · exact ⟨0, rfl, .singleton one_point_zero, .singleton one_point_zero, one_point_zero,
      one_point_zero⟩
  · rintro i ⟨p, q, lastP, lastQ⟩ hi hlt ⟨n, rfl, hp, hq, rfl, rfl⟩
    refine (yields_fetch_line (k := n + 1) (by omega) (by omega)).bind fun near hnear => ?_
    refine (yields_fetch_line (k := 2 * m - n) (by omega) (by omega)).bind fun far hfar => ?_
    subst hnear hfar
    have hnextP : line filter (n + 1) + line filter (2 * m - n) - partAt filter m 1 n =
        partAt filter m 1 (n + 1) := by
      rw [partAt]
      ring
    have hnextQ : line filter (n + 1) - line filter (2 * m - n) + partAt filter m (-1) n =
        partAt filter m (-1) (n + 1) := by
      rw [partAt]
      ring
    exact Yields.pure ⟨n + 1, by push_cast; ring, hp.push hnextP, hq.push hnextQ, hnextP, hnextQ⟩
  · rintro done ⟨n, hn, hp, hq, -, -⟩
    obtain rfl : n = m := by omega
    exact ⟨hp, hq⟩
  · rintro ⟨p, q, lastP, lastQ⟩ ⟨hp, hq⟩
    exact Yields.pure ⟨hp.doubles, hq.doubles⟩

end Vocoder.Lines
