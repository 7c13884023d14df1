import Vocoder.Proofs.Outcome
import Vocoder.Frame.Content
import Vocoder.Quantiser.Lines

/-!
Quantiser indexes fit their fields. This rests on clamping and on the sizes of the codebooks alone:
it holds for any type of scalars, whatever their order says.
-/

namespace Vocoder

/-- An index fits a field of a given width. -/
def Fits (index : Int) (width : Nat) : Prop := 0 ≤ index ∧ index < 2 ^ width

/-! ### Uniform scales -/

theorem clampIndex_bounds (index levels : Int) (hlow : 1 ≤ levels) (hhigh : levels ≤ 2 ^ 62) :
    0 ≤ clampIndex index levels ∧ clampIndex index levels < levels := by
  unfold clampIndex
  rw [wrap_of_bounds (levels - 1) (by omega) (by omega)]
  dsimp only
  split
  · omega
  · split <;> omega

variable {α : Type} [Analytic α]

theorem PitchRange.encode_fits (range : PitchRange α) (wo : α) :
    Fits (range.encode wo pitchBits) pitchBits :=
  clampIndex_bounds _ (levelCount pitchBits) (by decide) (by decide)

theorem PitchRange.encodeDelta_fits (range : PitchRange α) (wo prev : α) :
    Fits (range.encodeDelta wo prev) deltaBits :=
  ⟨Int.emod_nonneg _ (by decide), Int.emod_lt_of_pos _ (by decide)⟩

theorem Energy.encode_fits (e : α) : Fits (Energy.encode e energyBits) energyBits := by
  unfold Energy.encode
  dsimp only
  split
  · exact ⟨by decide, by decide⟩
  · exact clampIndex_bounds _ (levelCount energyBits) (by decide) (by decide)

/-! ### Searches -/

namespace Codebook

theorem firstNearest_bounds {bound : α} {count : Int} {distance : Int → Except Fault α}
    {best : Int × α} (hcount : 1 ≤ count) (hdone : firstNearest bound count distance = .ok best) :
    0 ≤ best.1 ∧ best.1 < count := by
  refine foldBetween_induction (P := fun _ best => 0 ≤ best.1 ∧ best.1 < count) hdone
    ⟨by dsimp only; omega, by dsimp only; omega⟩ ?_
  intro i acc next hi hlt hacc hnext
  obtain ⟨d, _, hnext⟩ := bind_eq_ok.mp hnext
  rw [← pure_eq_ok.mp hnext]
  split
  · exact ⟨hi, hlt⟩
  · exact hacc

theorem quantise_bounds {table vec weights : Array α} {k m index : Int} {errors errors' : α}
    (hm : 1 ≤ m) (hdone : quantise table vec weights k m errors = .ok (index, errors')) :
    0 ≤ index ∧ index < m := by
  obtain ⟨best, hbest, hdone⟩ := bind_eq_ok.mp hdone
  cases hdone
  exact firstNearest_bounds hm hbest

theorem nearest_bounds {book : Codebook α} {x : Array α} {index : Int} (hsize : 1 ≤ book.size)
    (hdone : book.nearest x = .ok index) : 0 ≤ index ∧ index < book.size := by
  obtain ⟨best, hbest, hdone⟩ := bind_eq_ok.mp hdone
  cases hdone
  exact firstNearest_bounds hsize hbest

theorem nearestWeighted_bounds {book : Codebook α} {x weights : Array α} {index : Int}
    (hsize : 1 ≤ book.size) (hdone : book.nearestWeighted x weights = .ok index) :
    0 ≤ index ∧ index < book.size := by
  obtain ⟨best, hbest, hdone⟩ := bind_eq_ok.mp hdone
  cases hdone
  exact firstNearest_bounds hsize hbest

end Codebook

theorem Predictor.encode_fits {predictor next : Predictor α} {wo e : α} {index : Int}
    (hdone : predictor.encode wo e = .ok (index, next)) : Fits index jointBits := by
  obtain ⟨found, hfound, hdone⟩ := bind_eq_ok.mp hdone
  obtain ⟨advanced, _, hdone⟩ := bind_eq_ok.mp hdone
  cases hdone
  exact Codebook.nearestWeighted_bounds (show (1 : Int) ≤ 256 by decide) hfound

/-! ### Updates -/

namespace UpdateCode

/-- The scheme that a code belongs to. -/
def scheme : UpdateCode → UpdateScheme
  | .scalar _ _ => .scalar
  | .delta _ _ => .delta
  | .joint _ => .joint

/-- The indexes of a code fit their fields. -/
def InRange : UpdateCode → Prop
  | .scalar pitch energy => Fits pitch pitchBits ∧ Fits energy energyBits
  | .delta change energy => Fits change deltaBits ∧ Fits energy energyBits
  | .joint index => Fits index jointBits

theorem encode_inRange {range : PitchRange α} {scheme : UpdateScheme} {wo energy : α}
    {reference next : Reference α} {code : UpdateCode}
    (hdone : encode range scheme wo energy reference = .ok (code, next)) :
    code.scheme = scheme ∧ code.InRange := by
  cases scheme with
  | scalar =>
      cases hdone
      exact ⟨rfl, PitchRange.encode_fits _ _, Energy.encode_fits _⟩
  | delta =>
      cases hdone
      exact ⟨rfl, PitchRange.encodeDelta_fits _ _ _, Energy.encode_fits _⟩
  | joint =>
      obtain ⟨⟨index, predictor⟩, hindex, hdone⟩ := bind_eq_ok.mp hdone
      cases hdone
      exact ⟨rfl, Predictor.encode_fits hindex⟩

end UpdateCode

/-! ### Lines -/

namespace LineScheme

/-- A fold that puts one index in front for each width leaves indexes that fit the widths. -/
theorem fits_of_foldBetween {σ : Type} (indexes : σ → List Int) (widths : List Nat)
    {step : σ → Int → Except Fault σ} {start final : σ}
    (hdone : foldBetween 0 widths.length start step = .ok final) (hstart : indexes start = [])
    (hstep : ∀ (i : Nat) s next width, widths[i]? = some width → step s i = .ok next →
      ∃ index, indexes next = index :: indexes s ∧ Fits index width) :
    List.Forall₂ Fits (indexes final).reverse widths := by
  have hfold := foldBetween_induction
    (P := fun i s => List.Forall₂ Fits (indexes s).reverse (widths.take i.toNat)) hdone
    (by simp [hstart]) ?_
  · rw [show max (0 : Int) widths.length = widths.length by omega, Int.toNat_natCast,
      List.take_length] at hfold
    exact hfold
  · intro i s next hi hlt hs hnext
    obtain ⟨k, rfl⟩ := Int.eq_ofNat_of_zero_le hi
    have hk : k < widths.length := by omega
    obtain ⟨index, hindex, hfits⟩ := hstep k s next widths[k] (by simp [hk]) hnext
    rw [hindex, List.reverse_cons, show ((k : Int) + 1).toNat = k + 1 by omega,
      List.take_succ_eq_append_getElem hk]
    exact List.rel_append hs (List.Forall₂.cons hfits List.Forall₂.nil)

/-- Books that have one entry for each index of their widths. -/
def Sized (books : Array (Codebook α)) (widths : List Nat) : Prop :=
  books.map (·.size) = (widths.map fun width => (2 : Int) ^ width).toArray

omit [Analytic α] in
theorem Sized.size_eq {books : Array (Codebook α)} {widths : List Nat} (h : Sized books widths)
    {i width : Nat} {book : Codebook α} (hbook : fetch books i = .ok book)
    (hwidth : widths[i]? = some width) : book.size = 2 ^ width := by
  have hget := (fetch_eq_ok.mp hbook).2
  have hsize := congrArg (fun sizes : Array Int => sizes[i]?) h
  simp only [Int.toNat_natCast] at hget
  simp only [Array.getElem?_map, hget, List.getElem?_toArray, List.getElem?_map, hwidth,
    Option.map_some, Option.some.injEq] at hsize
  exact hsize

theorem sized_scalarLines : Sized (Codebook.scalarLines : Array (Codebook α)) scalar.widths := by
  simp [Sized, Codebook.scalarLines, Codebook.ramp, widths]

theorem sized_differenceLines :
    Sized (Codebook.differenceLines : Array (Codebook α)) difference.widths := by
  simp [Sized, Codebook.differenceLines, Codebook.ramp, widths]

theorem quantise_fits {book : Codebook α} {vec weights : Array α} {index : Int} {width : Nat}
    {errors errors' : α} (hsize : book.size = 2 ^ width)
    (hdone : Codebook.quantise book.values vec weights book.dim book.size errors =
      .ok (index, errors')) : Fits index width := by
  have hpos : (0 : Int) < 2 ^ width := Int.pow_pos (by decide)
  have hbounds := Codebook.quantise_bounds (by omega) hdone
  rwa [hsize] at hbounds

theorem encodeScalar_fits {lines : Array α} {indexes : List Int} {errors : α}
    (hdone : encodeScalar lines = .ok (indexes, errors)) :
    List.Forall₂ Fits indexes LineScheme.scalar.widths := by
  obtain ⟨⟨reversed, total⟩, hfold, hdone⟩ := bind_eq_ok.mp hdone
  cases hdone
  refine fits_of_foldBetween Prod.fst scalar.widths hfold rfl ?_
  rintro i ⟨before, sum⟩ next width hwidth hnext
  obtain ⟨book, hbook, hnext⟩ := bind_eq_ok.mp hnext
  obtain ⟨line, _, hnext⟩ := bind_eq_ok.mp hnext
  obtain ⟨⟨index, sum'⟩, hindex, hnext⟩ := bind_eq_ok.mp hnext
  cases hnext
  exact ⟨index, rfl, quantise_fits (sized_scalarLines.size_eq hbook hwidth) hindex⟩

theorem encodeDifference_fits {lines : Array α} {indexes : List Int} {errors : α}
    (hdone : encodeDifference lines = .ok (indexes, errors)) :
    List.Forall₂ Fits indexes LineScheme.difference.widths := by
  obtain ⟨⟨reversed, last, total⟩, hfold, hdone⟩ := bind_eq_ok.mp hdone
  cases hdone
  refine fits_of_foldBetween Prod.fst difference.widths hfold rfl ?_
  rintro i ⟨before, last, sum⟩ next width hwidth hnext
  obtain ⟨book, hbook, hnext⟩ := bind_eq_ok.mp hnext
  obtain ⟨line, _, hnext⟩ := bind_eq_ok.mp hnext
  obtain ⟨⟨index, sum'⟩, hindex, hnext⟩ := bind_eq_ok.mp hnext
  obtain ⟨entry, _, hnext⟩ := bind_eq_ok.mp hnext
  obtain ⟨distance, _, hnext⟩ := bind_eq_ok.mp hnext
  cases hnext
  exact ⟨index, rfl, quantise_fits (sized_differenceLines.size_eq hbook hwidth) hindex⟩

theorem encodeSplit_fits {lines : Array α} {indexes : List Int} {errors : α}
    (hdone : encodeSplit lines = .ok (indexes, errors)) :
    List.Forall₂ Fits indexes LineScheme.split.widths := by
  have hsize : (1 : Int) ≤ 512 := by decide
  obtain ⟨w, _, hdone⟩ := bind_eq_ok.mp hdone
  obtain ⟨first, hfirst, hdone⟩ := bind_eq_ok.mp hdone
  obtain ⟨position, _, hdone⟩ := bind_eq_ok.mp hdone
  obtain ⟨even, _, hdone⟩ := bind_eq_ok.mp hdone
  obtain ⟨evenWeight, _, hdone⟩ := bind_eq_ok.mp hdone
  obtain ⟨second, hsecond, hdone⟩ := bind_eq_ok.mp hdone
  obtain ⟨odd, _, hdone⟩ := bind_eq_ok.mp hdone
  obtain ⟨oddWeight, _, hdone⟩ := bind_eq_ok.mp hdone
  obtain ⟨third, hthird, hdone⟩ := bind_eq_ok.mp hdone
  obtain ⟨rebuilt, _, hdone⟩ := bind_eq_ok.mp hdone
  obtain ⟨sum, _, hdone⟩ := bind_eq_ok.mp hdone
  cases hdone
  exact .cons (Codebook.nearest_bounds hsize hfirst)
    (.cons (Codebook.nearestWeighted_bounds hsize hsecond)
      (.cons (Codebook.nearestWeighted_bounds hsize hthird) .nil))

/-- Every scheme gives one index for each field, and the index fits. -/
theorem encode_fits {scheme : LineScheme} {lines : Array α} {indexes : List Int} {errors : α}
    (hdone : scheme.encode lines = .ok (indexes, errors)) :
    List.Forall₂ Fits indexes scheme.widths := by
  cases scheme with
  | scalar => exact encodeScalar_fits hdone
  | difference => exact encodeDifference_fits hdone
  | split => exact encodeSplit_fits hdone

end LineScheme

end Vocoder
