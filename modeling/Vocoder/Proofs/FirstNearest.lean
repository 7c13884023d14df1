import Mathlib
import Vocoder.Proofs.CodingTotal
import Vocoder.Proofs.NormalEquations

/-!
What a search through a codebook finds, over every ordered field. The search walks the entries in
order, and only a distance below the one it holds takes its place. So it ends at the first of the
least distances, unless no distance is below the bound that it starts with.
-/

namespace Vocoder

/-! ### The first of the least costs -/

/-- A position has the first of the least costs below `count`. -/
structure FirstLeast {K : Type} [LinearOrder K] (cost : ℕ → K) (count index : ℕ) : Prop where
  lt : index < count
  least : ∀ j, j < count → cost index ≤ cost j
  earlier : ∀ j, j < index → cost index < cost j

instance {K : Type} [LinearOrder K] (cost : ℕ → K) (count index : ℕ) :
    Decidable (FirstLeast cost count index) :=
  decidable_of_iff (index < count ∧ (∀ j, j < count → cost index ≤ cost j) ∧
      ∀ j, j < index → cost index < cost j)
    ⟨fun h => ⟨h.1, h.2.1, h.2.2⟩, fun h => ⟨h.lt, h.least, h.earlier⟩⟩

namespace FirstLeast

variable {K L : Type} [LinearOrder K] [LinearOrder L] {cost : ℕ → K} {cost' : ℕ → L}
  {count index index' : ℕ}

theorem unique (h : FirstLeast cost count index) (h' : FirstLeast cost count index') :
    index = index' := by
  rcases lt_trichotomy index index' with hlt | heq | hgt
  · exact absurd (h.least index' h'.lt) (not_le.mpr (h'.earlier index hlt))
  · exact heq
  · exact absurd (h'.least index h.lt) (not_le.mpr (h.earlier index' hgt))

/-- Only how costs compare matters. -/
theorem of_le_iff (h : FirstLeast cost count index)
    (hle : ∀ i j, i < count → j < count → (cost i ≤ cost j ↔ cost' i ≤ cost' j)) :
    FirstLeast cost' count index := by
  refine ⟨h.lt, fun j hj => (hle index j h.lt hj).mp (h.least j hj), fun j hj => ?_⟩
  have hj' : j < count := hj.trans h.lt
  rw [← not_le, ← hle j index hj' h.lt, not_le]
  exact h.earlier j hj

end FirstLeast

namespace Codebook

variable {K : Type} [Field K] [LinearOrder K]

attribute [local instance] Scalar.ofField

/-! ### The search -/

/-- What a search has found after `count` entries: index zero at the bound when no cost is below it,
or the first of the least costs. -/
inductive Found (cost : ℕ → K) (bound : K) (count : ℕ) : Int × K → Prop
  | nothing (hall : ∀ j, j < count → bound ≤ cost j) : Found cost bound count (0, bound)
  | entry {n : ℕ} (hbound : cost n < bound) (hfirst : FirstLeast cost count n) :
      Found cost bound count (n, cost n)

theorem Found.le_cost {cost : ℕ → K} {bound : K} {count : ℕ} {best : Int × K}
    (h : Found cost bound count best) {j : ℕ} (hj : j < count) : best.2 ≤ cost j := by
  cases h with
  | nothing hall => exact hall j hj
  | entry _ hfirst => exact hfirst.least j hj

theorem Found.step {cost : ℕ → K} {bound : K} {count : ℕ} {best : Int × K}
    (h : Found cost bound count best) :
    Found cost bound (count + 1)
      (if cost count < best.2 then ((count : Int), cost count) else best) := by
  have hbest : best.2 ≤ bound := by
    cases h with
    | nothing _ => exact le_rfl
    | entry hbound _ => exact hbound.le
  split_ifs with hcloser
  · refine .entry (hcloser.trans_le hbest) ⟨Nat.lt_succ_self count, fun j hj => ?_, fun j hj => ?_⟩
    · rcases Nat.lt_succ_iff_lt_or_eq.mp hj with hlt | rfl
      · exact (hcloser.trans_le (h.le_cost hlt)).le
      · exact le_rfl
    · exact hcloser.trans_le (h.le_cost hj)
  · have hlast : ∀ j, j < count + 1 → best.2 ≤ cost j := by
      intro j hj
      rcases Nat.lt_succ_iff_lt_or_eq.mp hj with hlt | rfl
      · exact h.le_cost hlt
      · exact not_lt.mp hcloser
    cases h with
    | nothing _ => exact .nothing hlast
    | entry hbound hfirst =>
        exact .entry hbound ⟨hfirst.lt.trans (Nat.lt_succ_self count), hlast, hfirst.earlier⟩

theorem yields_firstNearest_found {bound : K} {count : ℕ} {distance : Int → Except Fault K}
    {cost : ℕ → K} (hdistance : ∀ j : ℕ, j < count → distance j = .ok (cost j)) :
    Yields (firstNearest bound count distance) (Found cost bound count) := by
  refine yields_foldBetween (P := fun i best => Found cost bound i.toNat best)
    (.nothing fun j hj => absurd hj (Nat.not_lt_zero j)) ?_ ?_
  · intro i best hlow hhigh hbest
    obtain ⟨k, rfl⟩ := Int.eq_ofNat_of_zero_le hlow
    rw [hdistance k (by omega)]
    rw [show ((k : Int) + 1).toNat = k + 1 by omega]
    exact Yields.pure hbest.step
  · intro best hbest
    rwa [show (max 0 (count : Int)).toNat = count by omega] at hbest

section Searches

variable {count j : ℕ} {cost : ℕ → K}

/-- A search ends at the first of the least costs as soon as one of them is below the bound. -/
theorem exists_firstNearest {bound : K} {distance : Int → Except Fault K}
    (hdistance : ∀ n : ℕ, n < count → distance n = .ok (cost n)) (hj : j < count)
    (hclose : cost j < bound) :
    ∃ n : ℕ, firstNearest bound count distance = .ok ((n : Int), cost n) ∧
      FirstLeast cost count n := by
  obtain ⟨best, hbest, hfound⟩ :
      Yields (firstNearest bound count distance) (Found cost bound count) :=
    yields_firstNearest_found hdistance
  cases hfound with
  | nothing hall => exact absurd (hall j hj) (not_le.mpr hclose)
  | entry _ hfirst => exact ⟨_, hbest, hfirst⟩

theorem exists_quantise {table vec weights : Array K} {k : Int}
    (hdistance : ∀ n : ℕ, n < count → scaledDistance table vec weights k n = .ok (cost n))
    (hj : j < count) (hclose : cost j < 1e32) :
    ∃ n : ℕ, FirstLeast cost count n ∧ ∀ errors,
      quantise table vec weights k count errors = .ok ((n : Int), errors + cost n) := by
  obtain ⟨n, hn, hfirst⟩ := exists_firstNearest hdistance hj hclose
  exact ⟨n, hfirst, fun errors => bind_eq_ok.mpr ⟨_, hn, rfl⟩⟩

end Searches

/-! ### Distances -/

variable [IsStrictOrderedRing K]

open Prediction (yields_fetch_entry)

/-- The sum of terms that are read from buffers, from zero on. -/
theorem sumBetween_zero_eq {count : ℕ} {term : Int → Except Fault K} {value : ℕ → K}
    (hterm : ∀ k : ℕ, k < count → term k = .ok (value k)) :
    sumBetween 0 count (0.0 : K) term = .ok (∑ k ∈ Finset.range count, value k) := by
  rw [sumBetween_eq_sum hterm, zero_point_zero, zero_add]

theorem scaledDistance_eq {table vec weights : Array K} {k j : ℕ}
    (htable : j * k + k ≤ table.size) (hvec : k ≤ vec.size) (hweights : k ≤ weights.size) :
    scaledDistance table vec weights k j = .ok (∑ i ∈ Finset.range k,
      ((Prediction.entry table (j * k + i) - Prediction.entry vec i) *
        Prediction.entry weights i) ^ 2) := by
  refine sumBetween_zero_eq fun i hi => ?_
  obtain ⟨_, hvalue, rfl⟩ := yields_fetch_entry (i := (j * k + i : Int)) (by push_cast; rfl)
    (show j * k + i < table.size by omega)
  obtain ⟨_, hx, rfl⟩ := yields_fetch_entry rfl (show i < vec.size by omega)
  obtain ⟨_, hw, rfl⟩ := yields_fetch_entry rfl (show i < weights.size by omega)
  rw [hvalue, hx, hw, sq]
  rfl

theorem squaredDistance_eq {book : Codebook K} {x entry : Array K} {i : Int}
    (hentry : book.entry i = .ok entry) (hx : entry.size ≤ x.size) :
    book.squaredDistance x i = .ok (∑ j ∈ Finset.range entry.size,
      (Prediction.entry x j - Prediction.entry entry j) ^ 2) := by
  rw [squaredDistance, hentry]
  refine sumBetween_zero_eq fun j hj => ?_
  obtain ⟨_, hx, rfl⟩ := yields_fetch_entry rfl (show j < x.size by omega)
  obtain ⟨_, hvalue, rfl⟩ := yields_fetch_entry rfl hj
  rw [hx, hvalue, sq]
  rfl

theorem weightedDistance_eq {book : Codebook K} {x weights entry : Array K} {i : Int}
    (hentry : book.entry i = .ok entry) (hx : entry.size ≤ x.size)
    (hweights : entry.size ≤ weights.size) :
    book.weightedDistance x weights i = .ok (∑ j ∈ Finset.range entry.size,
      Prediction.entry weights j * (Prediction.entry x j - Prediction.entry entry j) ^ 2) := by
  rw [weightedDistance, hentry]
  refine sumBetween_zero_eq fun j hj => ?_
  obtain ⟨_, hx, rfl⟩ := yields_fetch_entry rfl (show j < x.size by omega)
  obtain ⟨_, hvalue, rfl⟩ := yields_fetch_entry rfl hj
  obtain ⟨_, hw, rfl⟩ := yields_fetch_entry rfl (show j < weights.size by omega)
  rw [hx, hvalue, hw, sq, ← mul_assoc]
  rfl

end Codebook

end Vocoder
