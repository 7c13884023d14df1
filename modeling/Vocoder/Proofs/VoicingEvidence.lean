import Vocoder.Proofs.AnalysisTotal
import Vocoder.Proofs.HarmonicSum
import Vocoder.Proofs.UniformScales

/-!
The level below 2 kHz over that above, which the voicing decision rests on, over the real numbers.
Of the harmonics of a model, the lower half is below 2 kHz. The harmonic that ends the lower half
also begins the upper one, so it counts on both sides, and the ratio is below what a division of
the harmonics would give unless that harmonic is silent.
-/

namespace Vocoder.Voicing

/-! ### Halves -/

theorem harmonicsTo_half {count : ℤ} (hcount : 0 ≤ count) (hword : count < 2 ^ 63) :
    harmonicsTo count (2000.0 : ℝ) = count / 2 := by
  have hcount' : (0 : ℝ) ≤ count := by exact_mod_cast hcount
  have hword' : (count : ℝ) < 2 ^ 63 := by exact_mod_cast hword
  have hplace : (count : ℝ) * 2000.0 / 4000.0 = count / 2 := by
    norm_num
    ring
  rw [harmonicsTo, Analytic.ofInt_real, hplace,
    Analytic.toWord_of_nonneg (by positivity) (by linarith), Int.floor_eq_iff]
  have hlow : ((count / 2 * 2 : ℤ) : ℝ) ≤ count := by
    exact_mod_cast Int.ediv_mul_le count two_ne_zero
  have hhigh : (count : ℝ) < ((count / 2 + 1) * 2 : ℤ) := by
    exact_mod_cast (by omega : count < (count / 2 + 1) * 2)
  push_cast at hlow hhigh
  constructor <;> linarith

theorem harmonicsTo_top {count : ℤ} (hcount : 0 ≤ count) (hword : count < 2 ^ 63) :
    harmonicsTo count (4000.0 : ℝ) = count := by
  have hplace : (count : ℝ) * 4000.0 / 4000.0 = count := by
    norm_num
  rw [harmonicsTo, Analytic.ofInt_real, hplace, Analytic.toWord_intCast, if_pos (by omega)]

theorem energy_eq (amps : Harmonics ℝ) {first last : ℤ} (hfirst : 0 ≤ first) (hlast : last ≤ 80) :
    energy amps first last = .ok (1e-4 + ∑ m ∈ Finset.Icc first last, amps.level m ^ 2) := by
  have hterm : ∀ m, first ≤ m → m < last + 1 →
      (do let a ← amps.value m; return a * a) = Except.ok (amps.level m ^ 2) := by
    intro m hm hm'
    rw [amps.value_eq_level (by omega) (by omega), sq]
    rfl
  have hrange : Finset.Ico first (last + 1) = Finset.Icc first last := by
    ext m
    simp
  rw [energy, sumBetween_eq_sum_Ico hterm, hrange]

/-- The evidence has the ratio of the two halves, which share a harmonic. -/
theorem yields_evidence_ratio {model : Model ℝ} (h : model.Fitted) (bins : Bins ℝ)
    (response : Block ℝ) :
    Yields (evidence model bins.toArray response.toArray) fun found =>
      found.ratio = Analytic.decibels
        ((1e-4 + ∑ m ∈ Finset.Icc 1 (model.count / 2), model.amps.level m ^ 2) /
          (1e-4 + ∑ m ∈ Finset.Icc (model.count / 2) model.count, model.amps.level m ^ 2)) := by
  obtain ⟨hten, heighty⟩ := h.count_bounds
  have hcount : 0 ≤ model.count := by omega
  have hword : model.count < 2 ^ 63 := by omega
  obtain ⟨found, hfound, -⟩ :=
    yields_evidence h (Vector.size_toArray bins) (Vector.size_toArray response)
  refine ⟨found, hfound, ?_⟩
  obtain ⟨signal, -, hfound⟩ := bind_eq_ok.mp hfound
  obtain ⟨error, -, hfound⟩ := bind_eq_ok.mp hfound
  obtain ⟨below, hbelow, hfound⟩ := bind_eq_ok.mp hfound
  obtain ⟨above, habove, hfound⟩ := bind_eq_ok.mp hfound
  obtain rfl := pure_eq_ok.mp hfound
  rw [harmonicsTo_half hcount hword, energy_eq _ (by omega) (by omega)] at hbelow
  rw [harmonicsTo_half hcount hword, harmonicsTo_top hcount hword,
    energy_eq _ (by omega) (by omega)] at habove
  cases hbelow
  cases habove
  rfl

/-! ### The harmonic in the middle -/

/-- The level below 2 kHz over that above, with every harmonic on one side. -/
noncomputable def dividedRatio (model : Model ℝ) : ℝ :=
  Analytic.decibels
    ((1e-4 + ∑ m ∈ Finset.Icc 1 (model.count / 2), model.amps.level m ^ 2) /
      (1e-4 + ∑ m ∈ Finset.Ioc (model.count / 2) model.count, model.amps.level m ^ 2))

theorem sum_Icc_half (level : ℤ → ℝ) {half count : ℤ} (h : half ≤ count) :
    ∑ m ∈ Finset.Icc half count, level m ^ 2 =
      level half ^ 2 + ∑ m ∈ Finset.Ioc half count, level m ^ 2 := by
  rw [← Finset.Ioc_insert_left h, Finset.sum_insert (by simp)]

theorem floor_add_sum_pos (level : ℤ → ℝ) (range : Finset ℤ) :
    0 < 1e-4 + ∑ m ∈ range, level m ^ 2 := by
  have hsum : 0 ≤ ∑ m ∈ range, level m ^ 2 := Finset.sum_nonneg fun m _ => sq_nonneg _
  norm_num
  linarith

theorem decibels_eq (power : ℝ) : Analytic.decibels power = 10 * Real.logb 10 power := by
  rw [Analytic.decibels, Analytic.log10_real, ten_point_zero]

theorem decibels_inj {power power' : ℝ} (h : 0 < power) (h' : 0 < power') :
    Analytic.decibels power = Analytic.decibels power' ↔ power = power' := by
  rw [decibels_eq, decibels_eq, mul_right_inj' (by norm_num)]
  exact (Real.logb_injOn_pos (by norm_num)).eq_iff h h'

/-- What counts on the other side, too, lowers a ratio. -/
theorem decibels_shared {below above middle : ℝ} (hbelow : 0 < below) (habove : 0 < above) :
    Analytic.decibels (below / (middle ^ 2 + above)) ≤ Analytic.decibels (below / above) ∧
      (Analytic.decibels (below / (middle ^ 2 + above)) = Analytic.decibels (below / above) ↔
        middle = 0) := by
  have hmiddle := sq_nonneg middle
  have hshared : 0 < middle ^ 2 + above := by linarith
  constructor
  · exact Energy.decibels_mono (div_pos hbelow hshared)
      (div_le_div_of_nonneg_left hbelow.le habove (by linarith))
  · rw [decibels_inj (div_pos hbelow hshared) (div_pos hbelow habove),
      div_eq_div_iff hshared.ne' habove.ne', mul_right_inj' hbelow.ne']
    constructor
    · intro hsame
      exact pow_eq_zero_iff two_ne_zero |>.mp (by linarith)
    · rintro rfl
      ring

/-- The ratio of the level below 2 kHz to that above has the harmonic in the middle on both sides.
So it is at most the ratio of a division of the harmonics, and equal to it only if that harmonic is
silent. -/
theorem energy_ratio_counts_middle_twice {model : Model ℝ} (h : model.Fitted) (bins : Bins ℝ)
    (response : Block ℝ) :
    ∃ found, evidence model bins.toArray response.toArray = .ok found ∧
      found.ratio = 10 * Real.logb 10
        ((1e-4 + ∑ m ∈ Finset.Icc 1 (model.count / 2), model.amps.level m ^ 2) /
          (1e-4 + ∑ m ∈ Finset.Icc (model.count / 2) model.count, model.amps.level m ^ 2)) ∧
      found.ratio ≤ dividedRatio model ∧
      (found.ratio = dividedRatio model ↔ model.amps.level (model.count / 2) = 0) := by
  obtain ⟨hten, heighty⟩ := h.count_bounds
  obtain ⟨found, hfound, hratio⟩ := yields_evidence_ratio h bins response
  refine ⟨found, hfound, ?_⟩
  have hbelow := floor_add_sum_pos model.amps.level (Finset.Icc 1 (model.count / 2))
  have habove := floor_add_sum_pos model.amps.level (Finset.Ioc (model.count / 2) model.count)
  have hsplit := sum_Icc_half model.amps.level (show model.count / 2 ≤ model.count by omega)
  rw [hratio, ← decibels_eq, dividedRatio, hsplit, add_left_comm]
  exact ⟨rfl, decibels_shared hbelow habove⟩

/-- Eighty harmonics of the same amplitude: forty count below 2 kHz, and forty-one above. -/
theorem energy_ratio_counts_middle_twice_flat :
    let model : Model ℝ :=
      ⟨PitchRange.speech.low, 80, Vector.replicate 81 1, Vector.replicate 81 0, false⟩
    model.Fitted ∧
    ∃ found, evidence model (Vector.replicate 512 Phasor.zero).toArray
        (Vector.replicate 512 0).toArray = .ok found ∧
      found.ratio = 10 * Real.logb 10 ((1e-4 + 40) / (1e-4 + 41)) ∧
      found.ratio ≠ dividedRatio model := by
  intro model
  have hfitted : model.Fitted := Model.fitted_lowest _ _ _
  have hlevel : ∀ m, 0 ≤ m → m ≤ 80 → model.amps.level m = 1 := by
    intro m hlow hhigh
    have hlt : m.toNat < 81 := by omega
    simp [model, Harmonics.level, hlt]
  have hsum : ∀ first last : ℤ, 0 ≤ first → last ≤ 80 →
      ∑ m ∈ Finset.Icc first last, model.amps.level m ^ 2 = ((last + 1 - first).toNat : ℝ) := by
    intro first last hfirst hlast
    rw [Finset.sum_congr rfl fun m hm => by
      rw [hlevel m (by have := Finset.mem_Icc.mp hm; omega)
        (by have := Finset.mem_Icc.mp hm; omega), one_pow]]
    simp
  obtain ⟨found, hfound, hratio, -, hequal⟩ := energy_ratio_counts_middle_twice hfitted
    (Vector.replicate 512 Phasor.zero) (Vector.replicate 512 0)
  refine ⟨hfitted, found, hfound, ?_, fun heq => ?_⟩
  · rw [hratio, hsum 1 _ (by decide) (by decide), hsum _ _ (by decide) (by decide)]
    simp [model]
  · have hsilent := hequal.mp heq
    rw [hlevel _ (by decide) (by decide)] at hsilent
    exact one_ne_zero hsilent

/-! ### What turns on it -/

/-- Far more level below 2 kHz than above makes a frame voiced, however bad the match. -/
theorem decide_of_ten_lt {ratio : ℝ} (h : 10 < ratio) (snr wo : ℝ) :
    decide ⟨snr, ratio⟩ wo = true := by
  rw [decide, decide_eq_true_iff]
  refine ⟨.inr ?_, fun hten => ?_, fun hfour => ?_⟩
  · norm_num
    exact h
  · norm_num at hten
    linarith
  · have hnegative := hfour.1
    norm_num at hnegative
    linarith

/-- A bad match alone makes a frame unvoiced. -/
theorem decide_of_le {snr ratio : ℝ} (hsnr : snr ≤ 6) (hratio : ratio ≤ 10) (wo : ℝ) :
    decide ⟨snr, ratio⟩ wo = false := by
  rw [decide, decide_eq_false_iff_not]
  rintro ⟨hmatch | hten, -⟩
  · norm_num at hmatch
    linarith
  · norm_num at hten
    linarith

theorem fitted_twenty (amps phases : Harmonics ℝ) (voiced : Bool) :
    Model.Fitted ⟨0.157, 20, amps, phases, voiced⟩ := by
  have hlow := Real.pi_gt_d2
  have hhigh := Real.pi_lt_d2
  norm_num at hlow hhigh
  refine ⟨⟨?_, ?_⟩, ?_⟩
  · rw [PitchRange.speech_low]
    norm_num
    linarith
  · rw [PitchRange.speech_high]
    norm_num
    linarith
  · rw [eq_comm, Int.floor_eq_iff, le_div_iff₀ (by norm_num), div_lt_iff₀ (by norm_num)]
    norm_num
    constructor <;> linarith

theorem sum_level_tenth {range : Finset ℤ} (hrange : ∀ m ∈ range, 0 ≤ m ∧ m ≤ 80) :
    ∑ m ∈ range, Harmonics.level ((Vector.replicate 81 (0 : ℝ)).set 10 100) m ^ 2 =
      if 10 ∈ range then 100 ^ 2 else 0 := by
  have hlevel : ∀ m ∈ range, Harmonics.level ((Vector.replicate 81 (0 : ℝ)).set 10 100) m ^ 2 =
      if 10 = m then 100 ^ 2 else 0 := by
    intro m hm
    obtain ⟨hlow, hhigh⟩ := hrange m hm
    have hlt : m.toNat < 81 := by omega
    have hten : 10 = m.toNat ↔ 10 = m := by omega
    simp only [Harmonics.level, Vector.getElem?_set, hten]
    split_ifs <;> simp [hlt]
  rw [Finset.sum_congr rfl hlevel, Finset.sum_ite_eq]

/-- Of twenty harmonics only the tenth sounds, just below 2 kHz. All energy is below, but the ratio
is zero. A match that is no good alone is then taken for noise, where a division of the harmonics
would make it voiced. -/
theorem middle_harmonic_turns_decision :
    let model : Model ℝ :=
      ⟨0.157, 20, (Vector.replicate 81 0).set 10 100, Vector.replicate 81 0, false⟩
    model.Fitted ∧
    ∃ found, evidence model (Vector.replicate 512 Phasor.zero).toArray
        (Vector.replicate 512 0).toArray = .ok found ∧
      found.ratio = 0 ∧ 80 < dividedRatio model ∧
      ∀ snr, snr ≤ 6 → decide ⟨snr, found.ratio⟩ model.wo = false ∧
        decide ⟨snr, dividedRatio model⟩ model.wo = true := by
  intro model
  have hfitted : model.Fitted := fitted_twenty _ _ _
  obtain ⟨found, hfound, hratio⟩ := yields_evidence_ratio hfitted
    (Vector.replicate 512 Phasor.zero) (Vector.replicate 512 0)
  have hhalf : model.count / 2 = 10 := rfl
  have hbelow : ∑ m ∈ Finset.Icc 1 10, model.amps.level m ^ 2 = 100 ^ 2 := by
    rw [sum_level_tenth (by decide), if_pos (by decide)]
  have hshared : ∑ m ∈ Finset.Icc 10 20, model.amps.level m ^ 2 = 100 ^ 2 := by
    rw [sum_level_tenth (by decide), if_pos (by decide)]
  have habove : ∑ m ∈ Finset.Ioc 10 20, model.amps.level m ^ 2 = 0 := by
    rw [sum_level_tenth (by decide), if_neg (by decide)]
  have hzero : found.ratio = 0 := by
    rw [hratio, hhalf, hbelow, hshared, div_self (by norm_num), decibels_eq, Real.logb_one,
      mul_zero]
  have hlarge : 80 < dividedRatio model := by
    rw [dividedRatio, hhalf, hbelow, habove, decibels_eq]
    have hlog : 8 < Real.logb 10 ((1e-4 + 100 ^ 2) / (1e-4 + 0)) := by
      rw [Real.lt_logb_iff_rpow_lt (by norm_num) (by norm_num)]
      norm_num
    linarith
  refine ⟨hfitted, found, hfound, hzero, hlarge, fun snr hsnr => ⟨?_, ?_⟩⟩
  · exact decide_of_le hsnr (by linarith) _
  · exact decide_of_ten_lt (by linarith) snr _

end Vocoder.Voicing
