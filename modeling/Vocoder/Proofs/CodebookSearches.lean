import Mathlib
import Vocoder.Proofs.FirstNearest

/-!
The three searches through codebooks of any size and dimension, over every ordered field. They
differ in how a coordinate counts and in the bound that they start with. Each reads the table of the
book row by row, so that the sums it compares are distances from the entries, and ends at the first
of the least distances, or at the first entry when no distance is below the bound.
-/

namespace Vocoder.Codebook

open Finset

/-! ### The least distance -/

/-- The index that a search with a bound has to give for the costs of `count` entries. -/
structure Chosen {K : Type} [LinearOrder K] (cost : ℕ → K) (count : ℕ) (bound minimum : K)
    (index : ℕ) : Prop where
  least : IsLeast {d | ∃ j, j < count ∧ cost j = d} minimum
  lt : index < count
  first : minimum < bound → IsLeast {j | j < count ∧ cost j = minimum} index
  otherwise : bound ≤ minimum → index = 0

namespace Chosen

variable {K : Type} [LinearOrder K] {cost : ℕ → K} {count index index' : ℕ}
  {bound minimum minimum' : K}

theorem unique (h : Chosen cost count bound minimum index)
    (h' : Chosen cost count bound minimum' index') : minimum = minimum' ∧ index = index' := by
  obtain rfl := h.least.unique h'.least
  refine ⟨rfl, ?_⟩
  rcases lt_or_ge minimum bound with hlt | hge
  · exact (h.first hlt).unique (h'.first hlt)
  · rw [h.otherwise hge, h'.otherwise hge]

theorem of_firstLeast (h : FirstLeast cost count index) (hbound : cost index < bound) :
    Chosen cost count bound (cost index) index := by
  refine ⟨⟨⟨index, h.lt, rfl⟩, ?_⟩, h.lt, fun _ => ⟨⟨h.lt, rfl⟩, ?_⟩,
    fun hle => absurd hbound (not_lt.mpr hle)⟩
  · rintro _ ⟨j, hj, rfl⟩
    exact h.least j hj
  · rintro j ⟨-, hj⟩
    by_contra hlt
    exact absurd hj (h.earlier j (not_le.mp hlt)).ne'

theorem exists_of_bound_le (hcount : 1 ≤ count) (h : ∀ j, j < count → bound ≤ cost j) :
    ∃ minimum, bound ≤ minimum ∧ Chosen cost count bound minimum 0 := by
  obtain ⟨j, hj, hleast⟩ := exists_min_image (range count) cost ⟨0, mem_range.mpr hcount⟩
  have hbound := h j (mem_range.mp hj)
  refine ⟨cost j, hbound, ⟨⟨j, mem_range.mp hj, rfl⟩, ?_⟩, hcount,
    fun hlt => absurd hbound (not_le.mpr hlt), fun _ => rfl⟩
  rintro _ ⟨i, hi, rfl⟩
  exact hleast i (mem_range.mpr hi)

end Chosen

section Found

variable {K : Type} [Field K] [LinearOrder K]

attribute [local instance] Scalar.ofField

/-- What a search has found after all entries is the chosen index, and the least cost or the bound.
-/
theorem Found.exists_chosen {cost : ℕ → K} {bound : K} {count : ℕ} {best : Int × K}
    (h : Found cost bound count best) (hcount : 1 ≤ count) :
    ∃ minimum index, Chosen cost count bound minimum index ∧
      best = ((index : Int), min minimum bound) := by
  cases h with
  | nothing hall =>
      obtain ⟨minimum, hbound, hchosen⟩ := Chosen.exists_of_bound_le hcount hall
      refine ⟨minimum, 0, hchosen, ?_⟩
      rw [min_eq_right hbound, Nat.cast_zero]
  | @entry n hbound hfirst =>
      refine ⟨cost n, n, Chosen.of_firstLeast hfirst hbound, ?_⟩
      rw [min_eq_left hbound.le]

theorem exists_chosen_firstNearest {cost : ℕ → K} (bound : K) {count : ℕ}
    {distance : Int → Except Fault K} (hcount : 1 ≤ count)
    (hdistance : ∀ j : ℕ, j < count → distance j = .ok (cost j)) :
    ∃ minimum index, Chosen cost count bound minimum index ∧
      firstNearest bound count distance = .ok ((index : Int), min minimum bound) := by
  obtain ⟨best, hbest, hfound⟩ :
      Yields (firstNearest bound count distance) (Found cost bound count) :=
    yields_firstNearest_found hdistance
  obtain ⟨minimum, index, hchosen, rfl⟩ := hfound.exists_chosen hcount
  exact ⟨minimum, index, hchosen, hbest⟩

end Found

/-! ### Rows of the table -/

section Rows

variable {K : Type}

/-- A codebook of at least one entry with a value for each coordinate of its entries. Positions of
the table are words, so it has no more values than these can tell apart. -/
structure Filled (book : Codebook K) : Prop where
  dim : 0 ≤ book.dim
  size : 1 ≤ book.size
  values : book.size * book.dim ≤ book.values.size
  bound : book.values.size < 2 ^ 63

/-- Coordinate `i` of entry `j`. -/
def coordinate [CommRing K] (book : Codebook K) (j i : ℕ) : K :=
  Prediction.entry book.values (j * book.dim.toNat + i)

variable {book : Codebook K} {j : ℕ}

theorem Filled.row_le (h : book.Filled) (hj : j < book.size) :
    j * book.dim.toNat + book.dim.toNat ≤ book.values.size := by
  have hdim := h.dim
  have hrows : ((j : ℤ) + 1) * book.dim ≤ book.size * book.dim :=
    Int.mul_le_mul_of_nonneg_right (by omega) h.dim
  have hrow : ((j * book.dim.toNat + book.dim.toNat : ℕ) : ℤ) = (j + 1) * book.dim := by
    push_cast
    rw [Int.toNat_of_nonneg hdim]
    ring
  exact_mod_cast hrow.trans_le (hrows.trans h.values)

/-- An entry is a row of the table. -/
def row (book : Codebook K) (j : ℕ) : Array K :=
  book.values.extract (j * book.dim.toNat) (j * book.dim.toNat + book.dim.toNat)

theorem Filled.entry_eq (h : book.Filled) (hj : j < book.size) :
    book.entry j = .ok (book.row j) := by
  have hrow := h.row_le hj
  have hbound := h.bound
  have hfirst : (j : ℤ) * book.dim = (j * book.dim.toNat : ℕ) := by
    push_cast
    rw [Int.toNat_of_nonneg h.dim]
  have hlast : ((j : ℤ) + 1) * book.dim = (j * book.dim.toNat + book.dim.toNat : ℕ) := by
    rw [Nat.cast_add, ← hfirst, Int.toNat_of_nonneg h.dim]
    ring
  rw [Codebook.entry, hfirst, hlast, wrap_of_bounds _ (by omega) (by omega),
    wrap_of_bounds _ (by omega) (by omega), slice_eq_ok]
  refine ⟨by omega, by omega, by omega, ?_⟩
  rw [Int.toNat_natCast, Int.toNat_natCast, row]

theorem Filled.size_row (h : book.Filled) (hj : j < book.size) :
    (book.row j).size = book.dim.toNat := by
  have hrow := h.row_le hj
  rw [row, Array.size_extract]
  omega

theorem Filled.entry_row [CommRing K] (h : book.Filled) (hj : j < book.size) {i : ℕ}
    (hi : i < book.dim.toNat) : Prediction.entry (book.row j) i = book.coordinate j i := by
  have hrow := h.row_le hj
  simp only [Prediction.entry, coordinate, row, Array.getD_eq_getD_getElem?]
  rw [Array.getElem?_extract, if_pos (by omega)]

end Rows

/-! ### The searches -/

variable {K : Type} [Field K] [LinearOrder K] [IsStrictOrderedRing K]

attribute [local instance] Scalar.ofField

/-- The distance of entry `j` from a vector with differences that are scaled by weights. -/
def scaledCost (book : Codebook K) (x weights : Array K) (j : ℕ) : K :=
  ∑ i ∈ range book.dim.toNat,
    ((book.coordinate j i - Prediction.entry x i) * Prediction.entry weights i) ^ 2

/-- The distance of entry `j` from a vector with plain differences. -/
def squaredCost (book : Codebook K) (x : Array K) (j : ℕ) : K :=
  ∑ i ∈ range book.dim.toNat, (Prediction.entry x i - book.coordinate j i) ^ 2

/-- The distance of entry `j` from a vector with squares that are scaled by weights. -/
def weightedCost (book : Codebook K) (x weights : Array K) (j : ℕ) : K :=
  ∑ i ∈ range book.dim.toNat,
    Prediction.entry weights i * (Prediction.entry x i - book.coordinate j i) ^ 2

section Filled

variable {book : Codebook K} {x weights : Array K} {j : ℕ}

theorem Filled.scaledDistance_eq (h : book.Filled) (hx : book.dim ≤ x.size)
    (hweights : book.dim ≤ weights.size) (hj : j < book.size) :
    scaledDistance book.values x weights book.dim j = .ok (book.scaledCost x weights j) := by
  have hdim := Int.toNat_of_nonneg h.dim
  have hdistance := Codebook.scaledDistance_eq (h.row_le hj)
    (show book.dim.toNat ≤ x.size by omega) (show book.dim.toNat ≤ weights.size by omega)
  rwa [hdim] at hdistance

theorem Filled.squaredDistance_eq (h : book.Filled) (hx : book.dim ≤ x.size)
    (hj : j < book.size) : book.squaredDistance x j = .ok (book.squaredCost x j) := by
  have hdim := h.dim
  rw [Codebook.squaredDistance_eq (h.entry_eq hj) (by rw [h.size_row hj]; omega), h.size_row hj]
  refine congrArg Except.ok (sum_congr rfl fun i hi => ?_)
  rw [h.entry_row hj (mem_range.mp hi)]

theorem Filled.weightedDistance_eq (h : book.Filled) (hx : book.dim ≤ x.size)
    (hweights : book.dim ≤ weights.size) (hj : j < book.size) :
    book.weightedDistance x weights j = .ok (book.weightedCost x weights j) := by
  have hdim := h.dim
  rw [Codebook.weightedDistance_eq (h.entry_eq hj) (by rw [h.size_row hj]; omega)
    (by rw [h.size_row hj]; omega), h.size_row hj]
  refine congrArg Except.ok (sum_congr rfl fun i hi => ?_)
  rw [h.entry_row hj (mem_range.mp hi)]

end Filled

/-- The searches return the first nearest entry, over every ordered field and for all weights,
negative ones included: the least index that attains the minimum of its distance if that is below
the bound, and zero otherwise. -/
theorem searches_return_first_nearest (book : Codebook K) (h : book.Filled) (x : Array K)
    (hx : book.dim ≤ x.size) :
    (∀ weights : Array K, book.dim ≤ weights.size → ∃ minimum index,
      Chosen (book.scaledCost x weights) book.size.toNat 1e32 minimum index ∧
      ∀ errors, quantise book.values x weights book.dim book.size errors =
        .ok ((index : Int), errors + min minimum 1e32)) ∧
    (∃ minimum index, Chosen (book.squaredCost x) book.size.toNat 1e15 minimum index ∧
      book.nearest x = .ok (index : Int)) ∧
    ∀ weights : Array K, book.dim ≤ weights.size → ∃ minimum index,
      Chosen (book.weightedCost x weights) book.size.toNat 1e15 minimum index ∧
      book.nearestWeighted x weights = .ok (index : Int) := by
  have hpos := h.size
  have hcount : ((book.size.toNat : ℕ) : ℤ) = book.size := Int.toNat_of_nonneg (by omega)
  have hone : 1 ≤ book.size.toNat := by omega
  refine ⟨fun weights hweights => ?_, ?_, fun weights hweights => ?_⟩
  · obtain ⟨minimum, index, hchosen, hfound⟩ := exists_chosen_firstNearest 1e32
      hone fun j hj => h.scaledDistance_eq hx hweights (by omega)
    rw [hcount] at hfound
    exact ⟨minimum, index, hchosen, fun errors => bind_eq_ok.mpr ⟨_, hfound, rfl⟩⟩
  · obtain ⟨minimum, index, hchosen, hfound⟩ := exists_chosen_firstNearest 1e15
      hone fun j hj => h.squaredDistance_eq hx (by omega)
    rw [hcount] at hfound
    exact ⟨minimum, index, hchosen, bind_eq_ok.mpr ⟨_, hfound, rfl⟩⟩
  · obtain ⟨minimum, index, hchosen, hfound⟩ := exists_chosen_firstNearest 1e15
      hone fun j hj => h.weightedDistance_eq hx hweights (by omega)
    rw [hcount] at hfound
    exact ⟨minimum, index, hchosen, bind_eq_ok.mpr ⟨_, hfound, rfl⟩⟩

/-- Two entries so far from a vector that only the first search comes below its bound: it ends at
the nearer one, the second search at index zero. Under a negative weight the third ends at the
farther one. -/
theorem searches_return_first_nearest_far :
    ∃ book : Codebook ℚ, book = ⟨1, 1, 2, #[-1, 0]⟩ ∧ book.Filled ∧
      book.dim ≤ (#[100000000] : Array ℚ).size ∧
      quantise book.values #[100000000] #[1] book.dim book.size 5 = .ok (1, 5 + 10 ^ 16) ∧
      book.nearest #[100000000] = .ok 0 ∧
      book.nearestWeighted #[100000000] #[-1] = .ok 0 := by
  let book : Codebook ℚ := ⟨1, 1, 2, #[-1, 0]⟩
  have hfilled : book.Filled := ⟨by decide, by decide, by decide, by decide⟩
  obtain ⟨hscaled, ⟨_, _, hsquared, hnearest⟩, hweighted⟩ :=
    searches_return_first_nearest book hfilled #[100000000] (by decide)
  obtain ⟨_, _, hscaled, hquantise⟩ := hscaled #[1] (by decide)
  obtain ⟨_, _, hweighted, hnearest'⟩ := hweighted #[-1] (by decide)
  have hnear : book.scaledCost #[100000000] #[1] 1 = 10 ^ 16 := by decide +kernel
  have hfar : book.weightedCost #[100000000] #[-1] 0 < 1e15 := by decide +kernel
  have hnearer : FirstLeast (book.scaledCost #[100000000] #[1]) 2 1 := by decide +kernel
  have hfarther : FirstLeast (book.weightedCost #[100000000] #[-1]) 2 0 := by decide +kernel
  have hbeyond : ∀ j, j < 2 → (1e15 : ℚ) ≤ book.squaredCost #[100000000] j := by decide +kernel
  obtain ⟨rfl, rfl⟩ := hscaled.unique
    (.of_firstLeast hnearer (by rw [hnear]; norm_num))
  obtain ⟨_, -, hchosen⟩ := Chosen.exists_of_bound_le (by decide) hbeyond
  obtain ⟨rfl, rfl⟩ := hsquared.unique hchosen
  obtain ⟨rfl, rfl⟩ := hweighted.unique (.of_firstLeast hfarther hfar)
  refine ⟨book, rfl, hfilled, by decide, ?_, hnearest, hnearest'⟩
  rw [hquantise, hnear]
  norm_num

end Vocoder.Codebook
