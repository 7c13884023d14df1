import Vocoder.Proofs.EncoderRange
import Vocoder.Proofs.HarmonicSum
import Vocoder.Proofs.PostFiltering
import Vocoder.Proofs.SubMultiples

/-!
The bands of the harmonics, over the real numbers. Analysis and the envelope each round the borders
of a band to bins, in formulas of their own; the borders are the same, and harmonics of speech are
more than three bins apart, so no band is empty and each begins where the one before ends. Only the
last band reaches the middle of the spectrum. The sum over all bands is then a sum over all their
bins, each taken once.
-/

namespace Vocoder

open Pitch (powerAt powerAt_nonneg yields_fetch_power)

/-! ### Bands that tile -/

/-- Bands of bins for the harmonics `1` to `count`, from `first` up to `last`: none is empty, and
each begins where the one before ends. -/
structure Tiles (first last : ℤ → ℤ) (count : ℤ) : Prop where
  nonempty : ∀ m, 1 ≤ m → m ≤ count → first m < last m
  adjoining : ∀ m, 1 ≤ m → m < count → last m = first (m + 1)

namespace Tiles

variable {first last : ℤ → ℤ} {count : ℤ}

theorem last_le_first (h : Tiles first last count) {m n : ℤ} (hm : 1 ≤ m) (hlt : m < n)
    (hn : n ≤ count) : last m ≤ first n := by
  induction n, (show m + 1 ≤ n from hlt) using Int.leInduction with
  | base => exact (h.adjoining m hm (by omega)).le
  | succ n hle ih =>
      have hband := h.nonempty n (by omega) (by omega)
      have hnext := h.adjoining n (by omega) (by omega)
      have hbefore := ih (by omega) (by omega)
      omega

theorem first_one_le_last (h : Tiles first last count) {n : ℤ} (hn : 1 ≤ n) (hcount : n ≤ count) :
    first 1 ≤ last n := by
  have hone := h.nonempty 1 le_rfl (by omega)
  rcases hn.eq_or_lt with rfl | hlt
  · exact hone.le
  · have hle := h.last_le_first le_rfl hlt hcount
    have hband := h.nonempty n hn hcount
    omega

/-- The sum over the bands is the sum over their bins. -/
theorem sum_eq (h : Tiles first last count) (f : ℤ → ℝ) {n : ℤ} (hn : 1 ≤ n) (hcount : n ≤ count) :
    ∑ m ∈ Finset.Icc 1 n, ∑ i ∈ Finset.Ico (first m) (last m), f i =
      ∑ i ∈ Finset.Ico (first 1) (last n), f i := by
  induction n, hn using Int.leInduction with
  | base => simp
  | succ n hn ih =>
      have hnext := h.adjoining n hn (by omega)
      have hband := h.nonempty (n + 1) (by omega) hcount
      have hsplit := Finset.sum_union (f := f)
        (Finset.Ico_disjoint_Ico_consecutive (first 1) (last n) (last (n + 1)))
      rw [Finset.Ico_union_Ico_eq_Ico (h.first_one_le_last hn (by omega)) (by omega)] at hsplit
      rw [← Finset.insert_Icc_right_eq_Icc_add_one (by omega), Finset.sum_insert (by simp),
        ih (by omega), hsplit, ← hnext, add_comm]

end Tiles

/-! ### The borders of the bands -/

namespace Amplitudes

end Amplitudes

namespace Envelope

/-- The envelope has the borders of analysis. -/
theorem bandEdge_eq (wo : ℝ) (m : ℤ) : bandEdge wo (m - 0.5) = Amplitudes.bandEdge wo m := by
  have hplace : ∀ x : ℝ, x * wo / radPerBin = x * wo * Refinement.binsPerRad := by
    intro x
    rw [radPerBin, Refinement.binsPerRad, div_div_eq_mul_div, mul_div_assoc]
  rw [bandEdge, Amplitudes.bandEdge, hplace, Analytic.ofInt_real]

end Envelope

/-! ### The power of the bands -/

namespace Amplitudes

variable {model : Model ℝ}

end Amplitudes

namespace Envelope

end Envelope

end Vocoder
