import Mathlib
import Vocoder.Synthesis.Phase

/-!
The period of the generator of random phases. A draw shows bits of the lowest 31 of the state only,
and a step carries nothing from the bits above down to these. From one state to the one `n` steps
later the residue modulo a power of two moves by an odd number times the sum of the first `n` powers
of the multiplier. As the multiplier is one more than a multiple of four, that sum has as many
factors of two as `n` has. So the residue comes back after exactly `2 ^ 31` steps.
-/

namespace Vocoder.NoiseSource

open Finset

/-- What draws can tell of a generator: the lowest 31 bits of its state. -/
def residue (source : NoiseSource) : ℕ := source.state.toNat % 2 ^ 31

/-- The generator after `n` draws. -/
def after (source : NoiseSource) (n : ℕ) : NoiseSource := (fun source => source.next.2)^[n] source

/-- The values of all draws. -/
def draws (source : NoiseSource) (n : ℕ) : ℕ := (source.after n).next.1

theorem after_succ (source : NoiseSource) (n : ℕ) :
    source.after (n + 1) = (source.after n).step :=
  Function.iterate_succ_apply' _ n source

theorem after_add (source : NoiseSource) (m n : ℕ) :
    source.after (m + n) = (source.after n).after m :=
  Function.iterate_add_apply _ m n source

theorem toNat_step (source : NoiseSource) :
    source.step.state.toNat = (source.state.toNat * 1103515245 + 12345) % 2 ^ 64 := by
  rw [step, UInt64.toNat_add, UInt64.toNat_mul]
  simp

/-! ### Sums of powers of the multiplier -/

/-- The sum of the first `n` powers of the multiplier. -/
def powerSum (n : ℕ) : ℤ := ∑ i ∈ range n, 1103515245 ^ i

theorem powerSum_succ (n : ℕ) : powerSum (n + 1) = 1103515245 * powerSum n + 1 :=
  geom_sum_succ

/-- A sum of powers of the multiplier has the factors of two that the number of its terms has. -/
theorem two_pow_dvd_powerSum (k n : ℕ) : (2 : ℤ) ^ k ∣ powerSum n ↔ 2 ^ k ∣ n := by
  -- The factors of two of `1103515245 ^ n - 1`, counted in two ways.
  have hlift : emultiplicity (2 : ℤ) (1103515245 ^ n - 1 ^ n) =
      emultiplicity 2 (1103515245 - 1 : ℤ) + emultiplicity (2 : ℤ) n :=
    Int.two_pow_sub_pow' n (by norm_num) (by norm_num)
  have hsplit : emultiplicity (2 : ℤ) (1103515245 ^ n - 1 ^ n) =
      emultiplicity 2 (1103515245 - 1 : ℤ) + emultiplicity 2 (powerSum n) := by
    rw [← emultiplicity_mul Int.prime_two, powerSum, mul_comm, geom_sum_mul, one_pow]
  have hfinite : emultiplicity 2 (1103515245 - 1 : ℤ) ≠ ⊤ :=
    finiteMultiplicity_iff_emultiplicity_ne_top.mp
      (Int.finiteMultiplicity_iff.mpr ⟨by decide, by decide⟩)
  have hsame : emultiplicity 2 (powerSum n) = emultiplicity (2 : ℤ) n :=
    ENat.add_right_injective_of_ne_top hfinite (hsplit.symm.trans hlift)
  rw [pow_dvd_iff_le_emultiplicity, hsame, ← pow_dvd_iff_le_emultiplicity]
  exact_mod_cast Int.natCast_dvd_natCast

/-! ### The residue -/

/-- How far the residue has moved after `n` draws. -/
theorem after_modEq (source : NoiseSource) (n : ℕ) :
    ((source.after n).state.toNat : ℤ) ≡
      source.state.toNat + powerSum n * (1103515244 * source.state.toNat + 12345)
      [ZMOD 2 ^ 31] := by
  induction n with
  | zero => simp [after, powerSum]
  | succ n ih =>
      have hstep : ((source.after (n + 1)).state.toNat : ℤ) ≡
          (source.after n).state.toNat * 1103515245 + 12345 [ZMOD 2 ^ 31] := by
        rw [after_succ, toNat_step]
        push_cast
        exact (Int.mod_modEq _ _).of_dvd (by norm_num)
      calc ((source.after (n + 1)).state.toNat : ℤ)
        _ ≡ (source.after n).state.toNat * 1103515245 + 12345 [ZMOD 2 ^ 31] := hstep
        _ ≡ (source.state.toNat + powerSum n * (1103515244 * source.state.toNat + 12345)) *
            1103515245 + 12345 [ZMOD 2 ^ 31] := (ih.mul_right _).add_right _
        _ = source.state.toNat +
            powerSum (n + 1) * (1103515244 * source.state.toNat + 12345) := by
          rw [powerSum_succ]
          ring

theorem residue_eq_iff {source other : NoiseSource} : source.residue = other.residue ↔
    (source.state.toNat : ℤ) ≡ other.state.toNat [ZMOD 2 ^ 31] := by
  exact (Int.natCast_modEq_iff (n := 2 ^ 31)).symm

/-- The residue is back after the multiples of `2 ^ 31` draws and at no other time. -/
theorem residue_after_eq_self_iff (source : NoiseSource) (n : ℕ) :
    (source.after n).residue = source.residue ↔ 2 ^ 31 ∣ n := by
  have hodd : Odd (1103515244 * (source.state.toNat : ℤ) + 12345) :=
    ⟨551757622 * source.state.toNat + 6172, by ring⟩
  have hcoprime : IsCoprime ((2 : ℤ) ^ 31) (1103515244 * source.state.toNat + 12345) :=
    (Int.isCoprime_two_left.mpr hodd).pow_left
  calc (source.after n).residue = source.residue
    _ ↔ source.state.toNat + powerSum n * (1103515244 * source.state.toNat + 12345) ≡
        source.state.toNat [ZMOD 2 ^ 31] := by
      rw [residue_eq_iff]
      exact ⟨(source.after_modEq n).symm.trans, (source.after_modEq n).trans⟩
    _ ↔ (2 : ℤ) ^ 31 ∣ powerSum n * (1103515244 * source.state.toNat + 12345) := by
      rw [Int.modEq_comm, Int.modEq_iff_dvd, add_sub_cancel_left]
    _ ↔ (2 : ℤ) ^ 31 ∣ powerSum n :=
      ⟨hcoprime.dvd_of_dvd_mul_right, fun h => h.mul_right _⟩
    _ ↔ 2 ^ 31 ∣ n := two_pow_dvd_powerSum 31 n

theorem isLeast_return (source : NoiseSource) :
    IsLeast {n | 0 < n ∧ (source.after n).residue = source.residue} (2 ^ 31) := by
  constructor
  · exact ⟨by decide, (source.residue_after_eq_self_iff _).mpr dvd_rfl⟩
  · rintro n ⟨hpos, hback⟩
    exact Nat.le_of_dvd hpos ((source.residue_after_eq_self_iff n).mp hback)

theorem eq_of_residue_after_eq (source : NoiseSource) {m n : ℕ} (hle : m ≤ n) (hn : n < 2 ^ 31)
    (h : (source.after n).residue = (source.after m).residue) : m = n := by
  have hlater : source.after n = (source.after m).after (n - m) := by
    rw [← after_add, Nat.sub_add_cancel hle]
  rw [hlater, residue_after_eq_self_iff] at h
  have hzero := Nat.eq_zero_of_dvd_of_lt h (by omega)
  omega

/-- Over a period every residue comes up once. -/
theorem existsUnique_residue_after (source : NoiseSource) {r : ℕ} (hr : r < 2 ^ 31) :
    ∃! n, n < 2 ^ 31 ∧ (source.after n).residue = r := by
  -- The residues of a period are distinct, and there are as many as there can be.
  let visit (n : Fin (2 ^ 31)) : Fin (2 ^ 31) :=
    ⟨(source.after n).residue, Nat.mod_lt _ (by decide)⟩
  have hinjective : Function.Injective visit := by
    intro m n hvisit
    have hsame : (source.after m).residue = (source.after n).residue := congrArg Fin.val hvisit
    rcases le_total m n with hle | hle
    · exact Fin.ext (source.eq_of_residue_after_eq hle n.isLt hsame.symm)
    · exact Fin.ext (source.eq_of_residue_after_eq hle m.isLt hsame).symm
  obtain ⟨n, hn⟩ := Finite.injective_iff_surjective.mp hinjective ⟨r, hr⟩
  have hat : (source.after n).residue = r := congrArg Fin.val hn
  refine ⟨n, ⟨n.isLt, hat⟩, ?_⟩
  rintro m ⟨hm, hat'⟩
  have hmn : visit ⟨m, hm⟩ = visit n := Fin.ext (hat'.trans hat.symm)
  exact congrArg Fin.val (hinjective hmn)

/-! ### What a draw shows -/

theorem shown_eq (source : NoiseSource) : source.shown = source.residue / 65536 := by
  have hshown : source.shown = source.state.toNat / 65536 % 32768 := by
    rw [shown, UInt64.toNat_mod, UInt64.toNat_div]
    rfl
  rw [hshown, residue]
  omega

theorem next_le (source : NoiseSource) : source.next.1 ≤ drawMax := by
  have hlt : source.step.residue < 2 ^ 31 := Nat.mod_lt _ (by decide)
  rw [next, shown_eq, drawMax]
  omega

variable {source other : NoiseSource}

theorem residue_step_congr (h : source.residue = other.residue) :
    source.step.residue = other.step.residue := by
  simp only [residue, toNat_step] at h ⊢
  omega

theorem shown_step_congr (h : source.residue = other.residue) :
    source.step.shown = other.step.shown := by
  rw [shown_eq, shown_eq, residue_step_congr h]

theorem residue_after_congr (h : source.residue = other.residue) (n : ℕ) :
    (source.after n).residue = (other.after n).residue := by
  induction n with
  | zero => exact h
  | succ n ih => rw [after_succ, after_succ, residue_step_congr ih]

/-- Generators with the same residue draw the same values for ever. -/
theorem draws_congr (h : source.residue = other.residue) : source.draws = other.draws := by
  funext n
  exact shown_step_congr (residue_after_congr h n)

end Vocoder.NoiseSource
