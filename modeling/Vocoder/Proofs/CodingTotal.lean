import Vocoder.Frame.Content
import Vocoder.Proofs.CodebookEntries

/-!
Coding of updates and lines returns for all values, over any type of scalars. A search goes through
the entries of a whole codebook only, and ends at one of them, however distances compare.
-/

namespace Vocoder

variable {α : Type}

/-! ### Searches -/

namespace Codebook

theorem yields_firstNearest [Scalar α] {bound : α} {count : Int} {distance : Int → Except Fault α}
    (hcount : 1 ≤ count)
    (hdistance : ∀ i, 0 ≤ i → i < count → Yields (distance i) fun _ => True) :
    Yields (firstNearest bound count distance) fun best => 0 ≤ best.1 ∧ best.1 < count := by
  refine yields_foldBetween (P := fun _ best => 0 ≤ best.1 ∧ best.1 < count)
    ⟨Int.le_refl _, hcount⟩ (fun i best hi hi' hbest => ?_) fun _ hbest => hbest
  refine (hdistance i hi hi').bind fun d _ => Yields.pure ?_
  split
  · exact ⟨hi, hi'⟩
  · exact hbest

variable [Scalar α] {book : Codebook α}

theorem Whole.yields_quantise (h : book.Whole) {vec weights : Array α} (errors : α)
    (hvec : (vec.size : Int) = book.dim) (hweights : (weights.size : Int) = book.dim) :
    Yields (quantise book.values vec weights book.dim book.size errors) fun done =>
      0 ≤ done.1 ∧ done.1 < book.size := by
  refine Yields.bind (yields_firstNearest h.size fun j hj hj' => ?_)
    fun best hbest => Yields.pure hbest
  refine yields_sumBetween fun i hi hi' => ?_
  have hfirst : 0 ≤ j * book.dim := Int.mul_nonneg hj h.dim
  have hlast : (j + 1) * book.dim ≤ book.size * book.dim :=
    Int.mul_le_mul_of_nonneg_right (by omega) h.dim
  rw [Int.add_mul, Int.one_mul] at hlast
  have hvalues := h.values
  refine (yields_fetch_of_lt (by omega) (by omega)).bind fun _ _ => ?_
  refine (yields_fetch_of_lt (by omega) (by omega)).bind fun _ _ => ?_
  exact (yields_fetch_of_lt (by omega) (by omega)).bind fun _ _ => Yields.pure trivial

theorem Whole.yields_nearest (h : book.Whole) {x : Array α} (hx : (x.size : Int) = book.dim) :
    Yields (book.nearest x) fun index => 0 ≤ index ∧ index < book.size := by
  refine Yields.bind (yields_firstNearest h.size fun i hi hi' => ?_)
    fun best hbest => Yields.pure hbest
  refine (h.yields_entry hi hi').bind fun entry hentry => yields_sumBetween fun j hj hj' => ?_
  refine (yields_fetch_of_lt (by omega) (by omega)).bind fun _ _ => ?_
  exact (yields_fetch_of_lt (by omega) (by omega)).bind fun _ _ => Yields.pure trivial

theorem Whole.yields_nearestWeighted (h : book.Whole) {x weights : Array α}
    (hx : (x.size : Int) = book.dim) (hweights : (weights.size : Int) = book.dim) :
    Yields (book.nearestWeighted x weights) fun index => 0 ≤ index ∧ index < book.size := by
  refine Yields.bind (yields_firstNearest h.size fun i hi hi' => ?_)
    fun best hbest => Yields.pure hbest
  refine (h.yields_entry hi hi').bind fun entry hentry => yields_sumBetween fun j hj hj' => ?_
  refine (yields_fetch_of_lt (by omega) (by omega)).bind fun _ _ => ?_
  refine (yields_fetch_of_lt (by omega) (by omega)).bind fun _ _ => ?_
  exact (yields_fetch_of_lt (by omega) (by omega)).bind fun _ _ => Yields.pure trivial

end Codebook

variable [Analytic α]

/-! ### Updates -/

theorem Predictor.yields_encode (predictor : Predictor α) (wo e : α) :
    Yields (predictor.encode wo e) fun _ => True := by
  refine (Codebook.whole_joint.yields_nearestWeighted rfl rfl).bind fun index hindex => ?_
  exact (predictor.yields_advance hindex).bind fun _ _ => Yields.pure trivial

theorem UpdateCode.yields_encode (range : PitchRange α) (scheme : UpdateScheme) (wo energy : α)
    (reference : Reference α) :
    Yields (encode range scheme wo energy reference) fun _ => True := by
  cases scheme with
  | scalar => exact Yields.pure trivial
  | delta => exact Yields.pure trivial
  | joint =>
      exact (reference.predictor.yields_encode wo energy).bind fun _ _ => Yields.pure trivial

/-! ### Lines -/

namespace LineScheme

theorem yields_encodeScalar {lines : Array α} (h : lines.size = 10) :
    Yields (encodeScalar lines) fun _ => True := by
  have hsize : ((Codebook.scalarLines : Array (Codebook α)).size : Int) = 10 := rfl
  refine Yields.bind (yields_foldBetween_of_step fun i acc hi hi' => ?_)
    fun _ _ => Yields.pure trivial
  refine (yields_fetch hi hi' Codebook.whole_scalarLines).bind fun book hbook => ?_
  refine (yields_fetch_of_lt hi (by omega)).bind fun line _ => ?_
  refine Yields.bind (hbook.1.yields_quantise acc.2 ?_ ?_) fun _ _ => Yields.pure trivial
  · exact hbook.2.symm
  · exact hbook.2.symm

theorem yields_encodeDifference {lines : Array α} (h : lines.size = 10) :
    Yields (encodeDifference lines) fun _ => True := by
  have hsize : ((Codebook.differenceLines : Array (Codebook α)).size : Int) = 10 := rfl
  refine Yields.bind (yields_foldBetween_of_step fun i acc hi hi' => ?_)
    fun _ _ => Yields.pure trivial
  refine (yields_fetch hi hi' Codebook.whole_differenceLines).bind fun book hbook => ?_
  refine (yields_fetch_of_lt hi (by omega)).bind fun line _ => ?_
  refine Yields.bind (hbook.1.yields_quantise acc.2.2 ?_ ?_) fun done hdone => ?_
  · exact hbook.2.symm
  · exact hbook.2.symm
  · refine (hbook.1.yields_entry hdone.1 hdone.2).bind fun entry hentry => ?_
    have hdim := hbook.2
    exact (yields_fetch_of_lt (by decide) (by omega)).bind fun _ _ => Yields.pure trivial

theorem yields_gapBelow {lines : Array α} {i : Nat} (h : i < lines.size) :
    Yields (gapBelow lines i) fun _ => True := by
  unfold gapBelow
  split
  · exact yields_fetch_of_lt (by omega) (by omega)
  · refine (yields_fetch_of_lt (by omega) (by omega)).bind fun _ _ => ?_
    exact (yields_fetch_of_lt (by omega) (by omega)).bind fun _ _ => Yields.pure trivial

theorem yields_gapAbove {lines : Array α} {i : Nat} (h : i < lines.size) :
    Yields (gapAbove lines i) fun _ => True := by
  unfold gapAbove
  split
  · exact (yields_fetch_of_lt (by omega) (by omega)).bind fun _ _ => Yields.pure trivial
  · refine (yields_fetch_of_lt (by omega) (by omega)).bind fun _ _ => ?_
    exact (yields_fetch_of_lt (by omega) (by omega)).bind fun _ _ => Yields.pure trivial

theorem yields_weights {lines : Array α} (h : 2 ≤ lines.size) :
    Yields (weights lines) fun found => found.size = lines.size := by
  unfold weights
  dsimp only
  rw [if_neg (by omega)]
  refine Yields.mono (yields_tabulate (P := fun _ => True) fun i hi => ?_) fun _ hdone => hdone.1
  exact (yields_gapBelow hi).bind fun _ _ => (yields_gapAbove hi).bind
    fun _ _ => Yields.pure trivial

theorem yields_encodeSplit {lines : Array α} (h : lines.size = 10) :
    Yields (encodeSplit lines) fun _ => True := by
  refine (yields_weights (by omega)).bind fun w hw => ?_
  refine (Codebook.whole_positionLines.yields_nearest (by rw [h]; rfl)).bind fun first hfirst => ?_
  refine (Codebook.whole_positionLines.yields_entry hfirst.1 hfirst.2).bind
    fun position hposition => ?_
  have hposition : (position.size : Int) = 10 := hposition
  have hresidual (parity : Nat) (hparity : parity ≤ 1) :
      Yields (tabulate (lines.size / 2) fun i => do
        return (← fetch lines (2 * i + parity : Nat)) - (← fetch position (2 * i + parity : Nat)))
        fun found => (found.size : Int) = 5 := by
    refine Yields.mono (yields_tabulate (P := fun _ => True) fun i hi => ?_) fun _ hdone => by omega
    refine (yields_fetch_of_lt (by omega) (by omega)).bind fun _ _ => ?_
    exact (yields_fetch_of_lt (by omega) (by omega)).bind fun _ _ => Yields.pure trivial
  have hweight (parity : Nat) (hparity : parity ≤ 1) :
      Yields (tabulate (lines.size / 2) fun i => fetch w (2 * i + parity : Nat))
        fun found => (found.size : Int) = 5 := by
    refine Yields.mono (yields_tabulate (P := fun _ => True) fun i hi => ?_) fun _ hdone => by omega
    exact yields_fetch_of_lt (by omega) (by omega)
  refine (hresidual 0 (by decide)).bind fun even heven => ?_
  refine (hweight 0 (by decide)).bind fun evenWeight hevenWeight => ?_
  refine (Codebook.whole_evenLines.yields_nearestWeighted heven hevenWeight).bind fun second _ => ?_
  refine (hresidual 1 (by decide)).bind fun odd hodd => ?_
  refine (hweight 1 (by decide)).bind fun oddWeight hoddWeight => ?_
  refine (Codebook.whole_oddLines.yields_nearestWeighted hodd hoddWeight).bind fun third _ => ?_
  refine (yields_decodeSplit rfl).bind fun rebuilt hrebuilt => ?_
  refine Yields.bind (yields_sumBetween fun i hi hi' => ?_) fun _ _ => Yields.pure trivial
  have herror (line : α) : Yields (fetch lines i >>= fun wanted =>
      pure (toHz (line - wanted) * toHz (line - wanted))) fun _ => True :=
    (yields_fetch_of_lt hi (by omega)).bind fun _ _ => Yields.pure trivial
  dsimp only
  split
  · exact (yields_fetch_of_lt hi (by omega)).bind fun line _ => herror line
  · exact (Yields.pure trivial).bind fun line (_ : True) => herror line

/-- Ten lines have indexes under every scheme. -/
theorem yields_encode (scheme : LineScheme) {lines : Array α} (h : lines.size = 10) :
    Yields (scheme.encode lines) fun _ => True := by
  cases scheme with
  | scalar => exact yields_encodeScalar h
  | difference => exact yields_encodeDifference h
  | split => exact yields_encodeSplit h

end LineScheme

end Vocoder
