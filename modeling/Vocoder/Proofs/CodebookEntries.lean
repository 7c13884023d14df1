import Vocoder.Proofs.Outcome
import Vocoder.Quantiser.Joint
import Vocoder.Quantiser.Lines

/-!
Entries of the codebooks. Every codebook has as many values as its size and its dimension say, so
all its entries can be read, and clamping makes an index of the book out of any number.
-/

namespace Vocoder

variable {α : Type}

namespace Codebook

/-- A codebook with a value for each coordinate of each of its entries. -/
structure Whole (book : Codebook α) : Prop where
  dim : 0 ≤ book.dim
  size : 1 ≤ book.size
  values : (book.values.size : Int) = book.size * book.dim
  bound : book.size * book.dim < 2 ^ 62
  sizeBound : book.size < 2 ^ 62

theorem Whole.yields_entry {book : Codebook α} (h : book.Whole) {i : Int} (hlow : 0 ≤ i)
    (hhigh : i < book.size) : Yields (book.entry i) fun entry => (entry.size : Int) = book.dim := by
  have hfirst : 0 ≤ i * book.dim := Int.mul_nonneg hlow h.dim
  have hlast : (i + 1) * book.dim ≤ book.size * book.dim :=
    Int.mul_le_mul_of_nonneg_right (by omega) h.dim
  have hstep : (i + 1) * book.dim = i * book.dim + book.dim := by
    rw [Int.add_mul, Int.one_mul]
  have hdim := h.dim
  have hvalues := h.values
  have hbound := h.bound
  rw [entry, wrap_of_bounds _ (by omega) (by omega), wrap_of_bounds _ (by omega) (by omega)]
  refine (yields_slice hfirst (by omega) (by omega)).mono fun entry hentry => ?_
  omega

theorem Whole.clamp_bounds {book : Codebook α} (h : book.Whole) (i : Int) :
    0 ≤ book.clamp i ∧ book.clamp i < book.size := by
  have hsize := h.size
  have hbound := h.sizeBound
  unfold clamp
  split
  · omega
  · rw [wrap_of_bounds _ (by omega) (by omega)]
    split <;> omega

/-- Any number stands for an entry, once it is clamped. -/
theorem Whole.yields_clamped {book : Codebook α} (h : book.Whole) (i : Int) :
    Yields (book.entry (book.clamp i)) fun entry => (entry.size : Int) = book.dim :=
  h.yields_entry (h.clamp_bounds i).1 (h.clamp_bounds i).2

theorem whole_ramp [Scalar α] {first step bits : Nat} (hbits : bits ≤ 16) :
    (ramp first step bits : Codebook α).Whole := by
  have hpow := Nat.pow_le_pow_right (show 0 < 2 by decide) hbits
  have hpos := Nat.pow_pos (n := bits) (show 0 < 2 by decide)
  constructor
  · exact Int.le_of_lt Int.one_pos
  · simp only [ramp, Nat.one_shiftLeft]
    omega
  · simp [ramp]
  · simp only [ramp, Nat.one_shiftLeft]
    omega
  · simp only [ramp, Nat.one_shiftLeft]
    omega

theorem size_flatMap_of_size {β γ : Type} {xs : Array β} {f : β → Array γ} {k : Nat}
    (h : ∀ x ∈ xs, (f x).size = k) : (xs.flatMap f).size = xs.size * k := by
  rw [Array.size_flatMap, Array.map_congr_left h, Array.map_const', Array.sum_replicate_nat]

theorem size_jointResiduals : jointResiduals.size = 256 := by decide +kernel

theorem whole_joint [Scalar α] : (joint : Codebook α).Whole := by
  have hvalues : (joint : Codebook α).values.size = jointResiduals.size * 2 := by
    simp only [joint]
    generalize jointResiduals = pairs
    exact size_flatMap_of_size fun _ _ => rfl
  rw [size_jointResiduals] at hvalues
  exact ⟨show (0 : Int) ≤ 2 by decide, show (1 : Int) ≤ 256 by decide,
    by rw [hvalues]; rfl, show (256 * 2 : Int) < 2 ^ 62 by decide,
    show (256 : Int) < 2 ^ 62 by decide⟩

end Codebook

namespace Product

theorem common_bounds {a b : Int} (hlow : 0 ≤ b) (hhigh : b < 2 ^ 63) :
    0 ≤ common a b ∧ common a b ≤ b := by
  have hb : (Int64.ofInt b).toBitVec.toNat = b.toNat := by
    rw [Int64.toBitVec_ofInt, BitVec.toNat_ofInt, Int.emod_eq_of_lt hlow (by omega)]
  have hle : (Int64.ofInt a &&& Int64.ofInt b).toBitVec.toNat ≤ b.toNat := by
    rw [Int64.toBitVec_and, BitVec.toNat_and, ← hb]
    exact Nat.and_le_right
  have hcommon : common a b = (Int64.ofInt a &&& Int64.ofInt b).toBitVec.toNat :=
    BitVec.toInt_eq_toNat_of_lt (by omega)
  omega

theorem digit_lt {β : Type} {factors : List (List β)} {levels : List β} {d : Nat}
    (hlevels : factors[d]? = some levels) (hne : levels ≠ []) (hbound : levels.length < 2 ^ 63)
    (n : Int) :
    (digit n (factors.map fun levels => (levels.length : Int)) d).toNat < levels.length := by
  have hpos := List.length_pos_iff.mpr hne
  have hsize : (factors.map fun levels => (levels.length : Int)).getD d 1 = levels.length := by
    rw [List.getD_eq_getElem?_getD, List.getElem?_map, hlevels]
    rfl
  have hdigit (a : Int) : (common a ((levels.length : Int) - 1)).toNat < levels.length := by
    have hcommon := common_bounds (a := a) (show 0 ≤ (levels.length : Int) - 1 by omega) (by omega)
    omega
  rw [digit, hsize]
  exact hdigit _

/-- Every factor has a level at every index of a product. -/
theorem length_levels {β : Type} {factors : List (List β)}
    (h : ∀ levels ∈ factors, levels ≠ [] ∧ levels.length < 2 ^ 63) (n : Nat) :
    (levels factors n).length = factors.length := by
  have hzip : factors.zipIdx.length = factors.length := List.length_zipIdx
  rw [levels, ← hzip, List.filterMap_length_eq_length]
  rintro ⟨levels, d⟩ hmem
  have hlevels : factors[d]? = some levels := List.mem_zipIdx_iff_getElem?.mp hmem
  obtain ⟨hne, hbound⟩ := h levels (List.mem_of_getElem? hlevels)
  dsimp only
  rw [List.getElem?_eq_getElem (digit_lt hlevels hne hbound n)]
  rfl

end Product

variable [Analytic α]

namespace Codebook

theorem whole_positionLines : (positionLines : Codebook α).Whole := by
  have hlevels (n : Nat) : (Product.levels pairPositions n).length = 5 :=
    Product.length_levels (by decide) n
  have hvalues : (positionLines : Codebook α).values.size = 512 * 10 := by
    simp only [positionLines]
    rw [size_flatMap_of_size (k := 10)]
    · simp
    · intro n _
      simp [List.length_flatMap, List.map_const', hlevels]
  exact ⟨show (0 : Int) ≤ 10 by decide, show (1 : Int) ≤ 512 by decide, by rw [hvalues]; rfl,
    show (512 * 10 : Int) < 2 ^ 62 by decide, show (512 : Int) < 2 ^ 62 by decide⟩

theorem whole_residualLines {residuals : List (List Int)}
    (hlevels : ∀ n, (Product.levels residuals n).length = 5) :
    (residualLines residuals : Codebook α).Whole := by
  have hvalues : (residualLines residuals : Codebook α).values.size = 512 * 5 := by
    simp only [residualLines]
    rw [size_flatMap_of_size (k := 5)]
    · simp
    · intro n _
      simp [hlevels]
  exact ⟨show (0 : Int) ≤ 5 by decide, show (1 : Int) ≤ 512 by decide, by rw [hvalues]; rfl,
    show (512 * 5 : Int) < 2 ^ 62 by decide, show (512 : Int) < 2 ^ 62 by decide⟩

theorem whole_evenLines : (residualLines evenResiduals : Codebook α).Whole :=
  whole_residualLines (Product.length_levels (by decide))

theorem whole_oddLines : (residualLines oddResiduals : Codebook α).Whole :=
  whole_residualLines (Product.length_levels (by decide))

theorem whole_scalarLines :
    ∀ book ∈ (scalarLines : Array (Codebook α)), book.Whole ∧ book.dim = 1 := by
  intro book hbook
  simp only [scalarLines, List.mem_toArray, List.mem_cons, List.not_mem_nil, or_false] at hbook
  rcases hbook with h | h | h | h | h | h | h | h | h | h <;> rw [h] <;>
    exact ⟨whole_ramp (by decide), rfl⟩

theorem whole_differenceLines :
    ∀ book ∈ (differenceLines : Array (Codebook α)), book.Whole ∧ book.dim = 1 := by
  intro book hbook
  simp only [differenceLines, List.mem_toArray, List.mem_cons, List.not_mem_nil, or_false] at hbook
  rcases hbook with h | h | h | h | h | h | h | h | h | h <;> rw [h] <;>
    exact ⟨whole_ramp (by decide), rfl⟩

end Codebook

/-- Every index of the joint codebook moves a predictor. -/
theorem Predictor.yields_advance (predictor : Predictor α) {index : Int}
    (h : 0 ≤ index ∧ index < (Codebook.joint : Codebook α).size) :
    Yields (predictor.advance index) fun _ => True := by
  refine (Codebook.whole_joint.yields_entry h.1 h.2).bind fun entry hentry => ?_
  have hsize : (entry.size : Int) = 2 := hentry
  refine (yields_fetch_of_lt (by decide) (by omega)).bind fun _ _ => ?_
  refine (yields_fetch_of_lt (by decide) (by omega)).bind fun _ _ => ?_
  exact Yields.pure trivial

namespace LineScheme

omit [Analytic α] in
/-- A book of single values has a value for any index. -/
theorem yields_value {book : Codebook α} (h : book.Whole ∧ book.dim = 1) (index : Int) :
    Yields (book.entry (book.clamp index)) fun entry => 0 < entry.size := by
  refine (h.1.yields_clamped index).mono fun entry hentry => ?_
  have hdim := h.2
  omega

theorem yields_decodeScalar {indexes : Array Int} (h : indexes.size = 10) :
    Yields (decodeScalar indexes : Except Fault (Array α)) fun lines => lines.size = 10 := by
  refine (yields_tabulate (P := fun _ => True) fun i hi => ?_).mono fun lines hlines => hlines.1
  have hi : i < 10 := hi
  refine (yields_fetch (by omega) (by show (i : Int) < 10; omega)
    Codebook.whole_scalarLines).bind fun book hbook => ?_
  refine (yields_fetch_of_lt (by omega) (by omega)).bind fun index _ => ?_
  refine (yields_value hbook index).bind fun entry hentry => ?_
  refine (yields_fetch_of_lt (by decide) (by omega)).bind fun _ _ => ?_
  exact Yields.pure trivial

theorem yields_decodeDifference {indexes : Array Int} (h : indexes.size = 10) :
    Yields (decodeDifference indexes : Except Fault (Array α)) fun lines => lines.size = 10 := by
  have hsize : ((Codebook.differenceLines : Array (Codebook α)).size : Int) = 10 := rfl
  refine Yields.bind (P := fun done => done.1.size = 10)
    (yields_foldBetween (P := fun i done => done.1.size = i.toNat) rfl ?_ ?_)
    fun done hdone => Yields.pure hdone
  · rintro i ⟨lines, hz⟩ hlow hhigh hlines
    refine (yields_fetch hlow hhigh Codebook.whole_differenceLines).bind fun book hbook => ?_
    refine (yields_fetch_of_lt hlow (by omega)).bind fun index _ => ?_
    refine (yields_value hbook index).bind fun entry hentry => ?_
    refine (yields_fetch_of_lt (by decide) (by omega)).bind fun _ _ => ?_
    refine Yields.pure ?_
    rw [Array.size_push]
    dsimp only at hlines
    omega
  · intro done hdone
    omega

theorem yields_decodeSplit {indexes : Array Int} (h : indexes.size = 3) :
    Yields (decodeSplit indexes : Except Fault (Array α)) fun lines => lines.size = 10 := by
  refine (yields_fetch_of_lt (by decide) (by omega)).bind fun first _ => ?_
  refine (Codebook.whole_positionLines.yields_clamped first).bind fun position hposition => ?_
  refine (yields_fetch_of_lt (by decide) (by omega)).bind fun second _ => ?_
  refine (Codebook.whole_evenLines.yields_clamped second).bind fun even heven => ?_
  refine (yields_fetch_of_lt (by decide) (by omega)).bind fun third _ => ?_
  refine (Codebook.whole_oddLines.yields_clamped third).bind fun odd hodd => ?_
  have hposition : (position.size : Int) = 10 := hposition
  have heven : (even.size : Int) = 5 := heven
  have hodd : (odd.size : Int) = 5 := hodd
  refine (yields_tabulate (P := fun _ => True) fun i hi => ?_).mono fun lines hlines =>
    by omega
  have hsum (residual : α) :
      Yields (fetch position i >>= fun x => pure (x + residual)) fun _ => True :=
    (yields_fetch_of_lt (by omega) (by omega)).bind fun _ _ => Yields.pure trivial
  dsimp only
  split
  · exact (yields_fetch_of_lt (by omega) (by omega)).bind fun residual _ => hsum residual
  · exact (yields_fetch_of_lt (by omega) (by omega)).bind fun residual _ => hsum residual

/-- Indexes of the right number stand for ten lines, whatever they are. -/
theorem yields_decode (scheme : LineScheme) {indexes : Array Int}
    (h : indexes.size = scheme.widths.length) :
    Yields (scheme.decode indexes : Except Fault (Array α)) fun lines => lines.size = 10 := by
  cases scheme with
  | scalar => exact yields_decodeScalar h
  | difference => exact yields_decodeDifference h
  | split => exact yields_decodeSplit h

end LineScheme

end Vocoder
