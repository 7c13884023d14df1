import Mathlib
import Vocoder.Proofs.PredictionTotal
import Vocoder.Proofs.RealScalars
import Vocoder.Proofs.ResidualFilters

/-!
The recursion over the orders solves the normal equations, over every ordered field. The lags of an
autocorrelation make a matrix that reads the same from both ends, so what a fit leaves at a lag, its
reversed coefficients leave at the lag counted from the other end. Raising the order adds a multiple
of the reversed coefficients: the equations that held still hold, the reflection is the multiple for
which the new one holds too, and the error is scaled by one less its square.
-/

namespace Vocoder

/-- The numbers of an ordered field as scalars. Those of the real numbers are by definition the
scalars that the real numbers have already. -/
abbrev Scalar.ofField (K : Type) [Field K] [LinearOrder K] : Scalar K where
  toAdd := inferInstance
  toSub := inferInstance
  toMul := inferInstance
  toDiv := inferInstance
  toNeg := inferInstance
  toLT := inferInstance
  toLE := inferInstance
  toOfScientific := inferInstance
  decidableLT := inferInstance
  decidableLE := inferInstance
  ofInt n := n
  least := min

namespace Prediction

open Finset

/-! ### The steps of the recursion -/

section Raises

variable {α : Type} [Scalar α]

/-- One step of the recursion: the error of the fit before it, and the reflection that is computed
from it, before that is bounded. -/
structure Raise (α : Type) where
  error : α
  reflection : α

/-- The steps by which the order of a fit is raised. -/
def raises : (fit : Fit α) → (seen lags : List α) → List (Raise α)
  | _, _, [] => []
  | fit, seen, lag :: lags =>
    let k := reflection fit lag seen
    ⟨fit.error, k⟩ :: raises (fit.extend (bounded k)) (lag :: seen) lags

/-- The steps for a whole autocorrelation, from the fit of order zero on. -/
def raisesOf (lags : Array α) : List (Raise α) :=
  match lags.toList with
  | [] => []
  | power :: rest => raises ⟨[], power⟩ [] rest

/-- The fit that steps lead to when every reflection is taken as it is computed. -/
def Fit.raised (fit : Fit α) (steps : List (Raise α)) : Fit α :=
  steps.foldl (fun fit raise => fit.extend raise.reflection) fit

theorem length_raises (fit : Fit α) (seen lags : List α) :
    (raises fit seen lags).length = lags.length := by
  induction lags generalizing fit seen with
  | nil => rfl
  | cons lag lags ih => rw [raises, List.length_cons, ih, List.length_cons]

theorem length_extend (fit : Fit α) (k : α) :
    (fit.extend k).taps.length = fit.taps.length + 1 := by
  simp [Fit.extend]

end Raises

section Finds

variable {α : Type} {R : ℕ → α} {seen lags : List α} {lag : α}

/-- The lags that a step finds are those from the first on: `seen` has the ones already used, the
last one first. -/
def Finds (R : ℕ → α) (seen lags : List α) : Prop :=
  seen.reverse ++ lags = (List.range (seen.length + lags.length)).map fun i => R (i + 1)

theorem Finds.next (h : Finds R seen (lag :: lags)) : Finds R (lag :: seen) lags := by
  unfold Finds at *
  rw [List.reverse_cons, List.append_assoc, List.singleton_append, h, List.length_cons,
    List.length_cons, Nat.succ_add_eq_add_succ]

theorem Finds.lag_eq (h : Finds R seen (lag :: lags)) : lag = R (seen.length + 1) := by
  have hlag := congrArg (fun xs => xs[seen.length]?) h
  simpa [List.getElem?_append_right] using hlag

theorem Finds.seen_eq (h : Finds R seen lags) {j : ℕ} (hj : j < seen.length) :
    seen[j]? = some (R (seen.length - j)) := by
  let place := seen.length - 1 - j
  have hplace : place < seen.length := by omega
  have hback : seen.length - 1 - place = j := by omega
  calc seen[j]?
    _ = (seen.reverse ++ lags)[place]? := by
      rw [List.getElem?_append_left (by simpa using hplace), List.getElem?_reverse hplace, hback]
    _ = some (R (place + 1)) := by
      rw [h, List.getElem?_map, List.getElem?_range (by omega), Option.map_some]
    _ = some (R (seen.length - j)) := by rw [show place + 1 = seen.length - j by omega]

/-- A fit before a step: the lags up to its order are seen, the others are to come. -/
structure Fit.Faces (R : ℕ → α) (fit : Fit α) (seen lags : List α) : Prop where
  finds : Finds R seen lags
  order : seen.length = fit.taps.length

theorem Fit.Faces.next [Scalar α] {fit : Fit α} (h : fit.Faces R seen (lag :: lags)) (k : α) :
    (fit.extend k).Faces R (lag :: seen) lags := by
  refine ⟨h.finds.next, ?_⟩
  rw [length_extend, List.length_cons, h.order]

end Finds

variable {K : Type} [Field K]

/-! ### The normal equations -/

/-- What the coefficients `a` up to order `n` leave of the lags `R` at lag `i`. -/
def remainder (R : ℕ → K) (n : ℕ) (a : ℕ → K) (i : ℕ) : K :=
  ∑ j ∈ range (n + 1), a j * R ((i : ℤ) - j).natAbs

/-- A coefficient of a fit. The first one is one, and there is none above the order. -/
def Fit.coefficient (fit : Fit K) (j : ℕ) : K := (1 :: fit.taps).getD j 0

/-- A fit solves the normal equations of its order, and leaves its error. -/
structure Fit.Solves (R : ℕ → K) (fit : Fit K) : Prop where
  error : remainder R fit.taps.length fit.coefficient 0 = fit.error
  normal : ∀ i, 1 ≤ i → i ≤ fit.taps.length → remainder R fit.taps.length fit.coefficient i = 0

/-- A coefficient that is zero leaves nothing. -/
theorem remainder_succ (R : ℕ → K) {n : ℕ} {a : ℕ → K} (h : a (n + 1) = 0) (i : ℕ) :
    remainder R (n + 1) a i = remainder R n a i := by
  rw [remainder, sum_range_succ, h, zero_mul, add_zero, remainder]

/-- Reversed coefficients leave at a lag what the coefficients leave at the lag counted from the
other end. -/
theorem remainder_reverse (R : ℕ → K) {n i : ℕ} (a : ℕ → K) (hi : i ≤ n) :
    remainder R n (fun j => a (n - j)) i = remainder R n a (n - i) := by
  rw [remainder, remainder, ← sum_range_reflect]
  apply sum_congr rfl
  intro j hj
  rw [mem_range] at hj
  have hback : n - (n + 1 - 1 - j) = j := by omega
  have hlag : ((i : ℤ) - (n + 1 - 1 - j : ℕ)).natAbs = (((n - i : ℕ) : ℤ) - j).natAbs := by omega
  rw [hback, hlag]

theorem remainder_add (R : ℕ → K) (n : ℕ) (a b : ℕ → K) (k : K) (i : ℕ) :
    remainder R n (fun j => a j + k * b j) i = remainder R n a i + k * remainder R n b i := by
  simp only [remainder, mul_sum, ← sum_add_distrib]
  apply sum_congr rfl
  intro j _
  ring

theorem remainder_congr (R : ℕ → K) {n : ℕ} {a b : ℕ → K} (h : ∀ j, j ≤ n → a j = b j) (i : ℕ) :
    remainder R n a i = remainder R n b i := by
  apply sum_congr rfl
  intro j hj
  rw [mem_range] at hj
  rw [h j (by omega)]

theorem coefficient_zero (fit : Fit K) : fit.coefficient 0 = 1 := rfl

theorem coefficient_succ (fit : Fit K) (j : ℕ) : fit.coefficient (j + 1) = fit.taps.getD j 0 := rfl

theorem coefficient_above (fit : Fit K) {j : ℕ} (h : fit.taps.length < j) :
    fit.coefficient j = 0 := by
  obtain ⟨j, rfl⟩ : ∃ i, j = i + 1 := ⟨j - 1, by omega⟩
  rw [coefficient_succ, List.getD_eq_default _ _ (by omega)]

theorem solves_start (R : ℕ → K) : Fit.Solves R ⟨[], R 0⟩ := by
  refine ⟨?_, fun i hlow hhigh => ?_⟩
  · simp [remainder, coefficient_zero]
  · rw [List.length_nil] at hhigh
    omega

/-! ### One step -/

variable [LinearOrder K]

attribute [local instance] Scalar.ofField

/-- Raising the order adds a multiple of the reversed coefficients. -/
theorem coefficient_extend (fit : Fit K) (k : K) {j : ℕ} (hj : j ≤ fit.taps.length + 1) :
    (fit.extend k).coefficient j =
      fit.coefficient j + k * fit.coefficient (fit.taps.length + 1 - j) := by
  cases j with
  | zero =>
      rw [coefficient_zero, coefficient_zero, coefficient_above fit (by omega), mul_zero, add_zero]
  | succ j =>
      rw [coefficient_succ, coefficient_succ, Nat.add_sub_add_right]
      rcases Nat.lt_or_ge j fit.taps.length with hlt | hge
      · obtain ⟨i, hi⟩ : ∃ i, fit.taps.length - j = i + 1 := ⟨fit.taps.length - j - 1, by omega⟩
        have hmirror : fit.taps.length - 1 - j = i := by omega
        rw [hi, coefficient_succ, Fit.extend, List.getD_append _ _ _ _ (by simpa using hlt),
          List.getD_eq_getElem _ _ (by simpa using hlt), List.getElem_zipWith, List.getElem_reverse,
          List.getD_eq_getElem _ _ hlt, List.getD_eq_getElem _ _ (by omega)]
        simp only [hmirror]
      · obtain rfl : j = fit.taps.length := by omega
        rw [Nat.sub_self, coefficient_zero, Fit.extend, List.getD_append_right _ _ _ _ (by simp),
          List.getD_eq_default fit.taps _ (le_refl _)]
        simp

/-- What an extended fit leaves, from both ends of what the fit left. -/
theorem remainder_extend (R : ℕ → K) (fit : Fit K) (k : K) {i : ℕ}
    (hi : i ≤ fit.taps.length + 1) :
    remainder R (fit.extend k).taps.length (fit.extend k).coefficient i =
      remainder R fit.taps.length fit.coefficient i +
        k * remainder R fit.taps.length fit.coefficient (fit.taps.length + 1 - i) := by
  have habove : fit.coefficient (fit.taps.length + 1) = 0 :=
    coefficient_above fit (Nat.lt_succ_self _)
  calc remainder R (fit.extend k).taps.length (fit.extend k).coefficient i
    _ = remainder R (fit.taps.length + 1)
        (fun j => fit.coefficient j + k * fit.coefficient (fit.taps.length + 1 - j)) i := by
      rw [length_extend]
      exact remainder_congr R (fun j hj => coefficient_extend fit k hj) i
    _ = remainder R (fit.taps.length + 1) fit.coefficient i +
        k * remainder R (fit.taps.length + 1) fit.coefficient (fit.taps.length + 1 - i) := by
      rw [remainder_add R _ _ (fun j => fit.coefficient (fit.taps.length + 1 - j)),
        remainder_reverse R _ hi]
    _ = _ := by rw [remainder_succ R habove, remainder_succ R habove]

variable [IsStrictOrderedRing K]

theorem sumProducts_eq_sum (xs ys : List K) :
    sumProducts xs ys = ∑ i ∈ range xs.length, xs.getD i 0 * ys.getD i 0 := by
  rw [sumProducts, zero_point_zero, ← List.sum_eq_foldl]
  induction xs generalizing ys with
  | nil => simp
  | cons x xs ih =>
      cases ys with
      | nil => simp
      | cons y ys =>
          rw [List.zipWith_cons_cons, List.sum_cons, ih, List.length_cons, sum_range_succ']
          simp [add_comm]

theorem error_extend (fit : Fit K) (k : K) : (fit.extend k).error = fit.error * (1 - k ^ 2) := by
  rw [Fit.extend, one_point_zero, sq]

theorem bounded_eq_self {k : K} (h : |k| ≤ 1) : bounded k = k := by
  rw [bounded, one_point_zero]
  exact if_pos (abs_le.mp h)

/-- The reflection cancels what the fit leaves at the next lag. -/
theorem reflection_eq {R : ℕ → K} {fit : Fit K} {seen lags : List K} {lag : K}
    (hfaces : fit.Faces R seen (lag :: lags)) :
    reflection fit lag seen =
      -remainder R fit.taps.length fit.coefficient (fit.taps.length + 1) / fit.error := by
  have hpast : ∀ j ∈ range fit.taps.length, fit.taps.getD j 0 * seen.getD j 0 =
      fit.coefficient (j + 1) *
        R (((fit.taps.length + 1 : ℕ) : ℤ) - ((j + 1 : ℕ) : ℤ)).natAbs := by
    intro j hj
    rw [mem_range] at hj
    have hlag : seen.getD j 0 = R (seen.length - j) := by
      rw [List.getD_eq_getElem?_getD, hfaces.finds.seen_eq (by rwa [hfaces.order]),
        Option.getD_some]
    rw [coefficient_succ, hlag, hfaces.order]
    congr 2
    omega
  rw [reflection, sumProducts_eq_sum, sum_congr rfl hpast, hfaces.finds.lag_eq, hfaces.order,
    remainder, sum_range_succ', coefficient_zero, one_mul, add_comm]
  rfl

/-- One step of the recursion, with the reflection as it is computed. -/
theorem Fit.Solves.extend {R : ℕ → K} {fit : Fit K} {seen lags : List K} {lag : K}
    (hfaces : fit.Faces R seen (lag :: lags)) (herror : fit.error ≠ 0) (h : fit.Solves R) :
    (fit.extend (reflection fit lag seen)).Solves R := by
  have hcancel : remainder R fit.taps.length fit.coefficient (fit.taps.length + 1) =
      -(reflection fit lag seen * fit.error) := by
    rw [reflection_eq hfaces, div_mul_cancel₀ _ herror, neg_neg]
  generalize reflection fit lag seen = k at hcancel
  constructor
  · rw [remainder_extend R fit k (Nat.zero_le _), Nat.sub_zero, hcancel, h.error, error_extend]
    ring
  · intro i hlow hhigh
    rw [length_extend] at hhigh
    rw [remainder_extend R fit k hhigh]
    rcases Nat.lt_or_ge fit.taps.length i with hlast | hearlier
    · obtain rfl : i = fit.taps.length + 1 := by omega
      rw [Nat.sub_self, hcancel, h.error]
      ring
    · rw [h.normal i hlow hearlier, h.normal _ (by omega) (by omega)]
      ring

/-! ### Runs -/

/-- A run in which no reflection is out of bounds takes every reflection as it is computed. -/
theorem fitAll_eq_raised {fit : Fit K} {seen lags : List K}
    (hraises : ∀ raise ∈ raises fit seen lags, |raise.reflection| ≤ 1) :
    fitAll fit seen lags = fit.raised (raises fit seen lags) := by
  induction lags generalizing fit seen with
  | nil => rfl
  | cons lag lags ih =>
      rw [raises, List.forall_mem_cons] at hraises
      rw [fitAll, ih hraises.2, raises, Fit.raised, Fit.raised, List.foldl_cons,
        bounded_eq_self hraises.1]

/-- A run in which no error is zero and no reflection is out of bounds solves all equations, and
every step takes its share of the error. -/
theorem Fit.Solves.run {R : ℕ → K} {fit : Fit K} {seen lags : List K}
    (hfaces : fit.Faces R seen lags)
    (hraises : ∀ raise ∈ raises fit seen lags, raise.error ≠ 0 ∧ |raise.reflection| ≤ 1)
    (h : fit.Solves R) :
    (fitAll fit seen lags).Solves R ∧ (fitAll fit seen lags).error =
      fit.error * ((raises fit seen lags).map fun raise => 1 - raise.reflection ^ 2).prod := by
  induction lags generalizing fit seen with
  | nil => exact ⟨h, by simp [fitAll, raises]⟩
  | cons lag lags ih =>
      rw [raises, List.forall_mem_cons] at hraises
      obtain ⟨⟨herror, hbound⟩, hrest⟩ := hraises
      dsimp only at herror hbound hrest
      rw [bounded_eq_self hbound] at hrest
      obtain ⟨hsolves, hproduct⟩ := ih (hfaces.next _) hrest (h.extend hfaces herror)
      rw [fitAll, raises, bounded_eq_self hbound]
      refine ⟨hsolves, ?_⟩
      rw [hproduct, List.map_cons, List.prod_cons, error_extend, mul_assoc]

/-- Where every fit that solves its equations has a positive error, so has every step, and no
reflection is out of bounds: one that was would leave an error that is not positive. -/
theorem raises_of_pos {R : ℕ → K} {fit : Fit K} {seen lags : List K}
    (hfaces : fit.Faces R seen lags)
    (hpos : ∀ fit : Fit K, fit.Solves R → 0 < fit.error) (h : fit.Solves R) :
    ∀ raise ∈ raises fit seen lags, 0 < raise.error ∧ |raise.reflection| < 1 := by
  induction lags generalizing fit seen with
  | nil => simp [raises]
  | cons lag lags ih =>
      have herror := hpos fit h
      have hnext := h.extend hfaces herror.ne'
      have hbound : |reflection fit lag seen| < 1 := by
        have hleft := hpos _ hnext
        rw [error_extend, mul_pos_iff_of_pos_left herror, sub_pos] at hleft
        exact (sq_lt_one_iff_abs_lt_one _).mp hleft
      rw [raises, List.forall_mem_cons, bounded_eq_self hbound.le]
      exact ⟨⟨herror, hbound⟩, ih (hfaces.next _) hnext⟩

/-! ### Autocorrelations -/

section Lags

variable {α : Type} {lags : Array α} {n : ℕ} {R : ℕ → α}

/-- An array with the lags up to an order. -/
def Holds (R : ℕ → α) (n : ℕ) (lags : Array α) : Prop := lags.toList = (List.range (n + 1)).map R

/-- The lags from the first on. -/
def later (R : ℕ → α) (n : ℕ) : List α := (List.range n).map fun i => R (i + 1)

theorem length_later (R : ℕ → α) (n : ℕ) : (later R n).length = n := by simp [later]

theorem faces_later (R : ℕ → α) (n : ℕ) : Fit.Faces R ⟨[], R 0⟩ [] (later R n) :=
  ⟨by simp [Finds, later], rfl⟩

theorem Holds.toList_eq (h : Holds R n lags) : lags.toList = R 0 :: later R n := by
  rw [h, List.range_succ_eq_map, List.map_cons, List.map_map]
  rfl

theorem Holds.size_eq (h : Holds R n lags) : lags.size = n + 1 := by
  rw [← Array.length_toList, h.toList_eq, List.length_cons, length_later]

theorem Holds.raisesOf_eq [Scalar α] (h : Holds R n lags) :
    raisesOf lags = raises ⟨[], R 0⟩ [] (later R n) := by
  rw [raisesOf, h.toList_eq]

theorem Holds.length_raisesOf [Scalar α] (h : Holds R n lags) : (raisesOf lags).length = n := by
  rw [h.raisesOf_eq, length_raises, length_later]

theorem Holds.coefficients_eq [Scalar α] (hn : n ≤ 20) (h : Holds R n lags) :
    coefficients lags n =
      .ok (1.0 :: (fitAll ⟨[], R 0⟩ [] (later R n)).taps).toArray := by
  have hsize := h.size_eq
  have hslice : slice lags 0 (n + 1) = .ok lags := by
    refine slice_eq_ok.mpr ⟨le_refl _, by omega, by omega, ?_⟩
    rw [show ((n : Int) + 1).toNat = lags.size by omega]
    simp
  unfold coefficients
  dsimp only
  rw [if_neg (by omega), hslice]
  change (match lags.toList with
    | [] => throw Fault.outOfRange
    | power :: rest => pure (1.0 :: (fitAll ⟨[], power⟩ [] rest).taps).toArray) = _
  rw [h.toList_eq]
  rfl

end Lags

omit [LinearOrder K] [IsStrictOrderedRing K] in
theorem Holds.entry_eq {lags : Array K} {n : ℕ} {R : ℕ → K} (h : Holds R n lags) {k : ℕ}
    (hk : k ≤ n) : entry lags k = R k := by
  have hlag := congrArg (fun xs => xs[k]?) h
  simp only [Array.getElem?_toList, List.getElem?_map, List.getElem?_range (Nat.lt_succ_of_le hk),
    Option.map_some] at hlag
  simp [entry, hlag]

omit [LinearOrder K] [IsStrictOrderedRing K] in
theorem holds_entry {lags : Array K} {n : ℕ} (h : lags.size = n + 1) :
    Holds (entry lags) n lags := by
  apply List.ext_getElem
  · simp [h]
  · intro i hi hi'
    rw [Array.length_toList] at hi
    simp [entry, hi]

/-- The coefficients of an autocorrelation solve its normal equations, and what they leave at lag
zero is the power less the share of every step. -/
theorem yields_coefficients_solve {lags : Array K} {n : ℕ} {R : ℕ → K} (hn : n ≤ 20)
    (hlags : Holds R n lags)
    (hraises : ∀ raise ∈ raisesOf lags, raise.error ≠ 0 ∧ |raise.reflection| ≤ 1) :
    Yields (coefficients lags n) fun a => a.size = n + 1 ∧ entry a 0 = 1 ∧
      (∀ i, 1 ≤ i → i ≤ n → remainder R n (entry a) i = 0) ∧
      remainder R n (entry a) 0 =
        R 0 * ((raisesOf lags).map fun raise => 1 - raise.reflection ^ 2).prod ∧
      a.toList = 1 :: (Fit.raised ⟨[], R 0⟩ (raisesOf lags)).taps := by
  rw [hlags.raisesOf_eq] at hraises ⊢
  obtain ⟨hsolves, hproduct⟩ := (solves_start R).run (faces_later R n) hraises
  have hlength := length_fitAll ⟨[], R 0⟩ [] (later R n)
  rw [length_later, List.length_nil, Nat.zero_add] at hlength
  rw [← hproduct, ← hsolves.error, hlags.coefficients_eq hn,
    ← fitAll_eq_raised fun raise hraise => (hraises raise hraise).2]
  generalize fitAll ⟨[], R 0⟩ [] (later R n) = fit at hlength hsolves
  have hentry : entry (1.0 :: fit.taps).toArray = fit.coefficient := by
    funext j
    rw [entry, one_point_zero, Fit.coefficient]
    simp
  have hnormal := hsolves.normal
  rw [hlength] at hnormal
  refine Yields.ok ⟨?_, ?_, ?_, ?_, ?_⟩
  · simp [hlength]
  · rw [hentry, coefficient_zero]
  · rwa [hentry]
  · rw [hentry, hlength]
  · rw [List.toList_toArray, one_point_zero]

/-- The coefficients of an autocorrelation solve its normal equations, over every ordered field, as
long as no error that divides is zero and no reflection is out of bounds. -/
theorem coefficients_solve_normal_equations {n : ℕ} (hn : n ≤ 20) (lags : Array K)
    (hlags : lags.size = n + 1)
    (hraises : ∀ raise ∈ raisesOf lags, raise.error ≠ 0 ∧ |raise.reflection| ≤ 1) :
    ∃ a, coefficients lags n = .ok a ∧ a.size = n + 1 ∧ entry a 0 = 1 ∧
      (∀ i, 1 ≤ i → i ≤ n →
        ∑ j ∈ range (n + 1), entry a j * entry lags ((i : ℤ) - j).natAbs = 0) ∧
      (raisesOf lags).length = n ∧
      a.toList = 1 :: (Fit.raised ⟨[], entry lags 0⟩ (raisesOf lags)).taps ∧
      ∑ j ∈ range (n + 1), entry a j * entry lags j =
        entry lags 0 * ((raisesOf lags).map fun raise => 1 - raise.reflection ^ 2).prod := by
  have hholds := holds_entry hlags
  obtain ⟨a, ha, hsize, hfirst, hnormal, hleft, hraised⟩ :=
    yields_coefficients_solve hn hholds hraises
  refine ⟨a, ha, hsize, hfirst, hnormal, hholds.length_raisesOf, hraised, ?_⟩
  rw [← hleft]
  apply sum_congr rfl
  intro j _
  simp

/-- Three rational lags, with a reflection of each sign. -/
theorem coefficients_solve_normal_equations_rational :
    2 ≤ 20 ∧ (#[3, 2, 1] : Array ℚ).size = 2 + 1 ∧
    raisesOf (#[3, 2, 1] : Array ℚ) = [⟨3, -2 / 3⟩, ⟨5 / 3, 1 / 5⟩] ∧
    ∃ a, coefficients (#[3, 2, 1] : Array ℚ) 2 = .ok a ∧ entry a 0 = 1 ∧
      entry a 0 * 2 + entry a 1 * 3 + entry a 2 * 2 = 0 ∧
      entry a 0 * 1 + entry a 1 * 2 + entry a 2 * 3 = 0 ∧
      entry a 0 * 3 + entry a 1 * 2 + entry a 2 * 1 =
        3 * ((1 - (-2 / 3) ^ 2) * (1 - (1 / 5) ^ 2)) := by
  have hraises : raisesOf (#[3, 2, 1] : Array ℚ) = [⟨3, -2 / 3⟩, ⟨5 / 3, 1 / 5⟩] := by
    norm_num [raisesOf, raises, reflection, sumProducts, bounded, Fit.extend]
  obtain ⟨a, ha, -, hfirst, hnormal, -, -, hleft⟩ :=
    coefficients_solve_normal_equations (n := 2) (by decide) (#[3, 2, 1] : Array ℚ) rfl (by
      rw [hraises]
      norm_num [abs_le])
  have hone := hnormal 1 (by decide) (by decide)
  have htwo := hnormal 2 (by decide) (by decide)
  rw [hraises] at hleft
  refine ⟨by decide, rfl, hraises, a, ha, hfirst, ?_, ?_, ?_⟩
  · simpa [sum_range_succ, entry] using hone
  · simpa [sum_range_succ, entry] using htwo
  · simpa [sum_range_succ, entry] using hleft

end Prediction

end Vocoder
