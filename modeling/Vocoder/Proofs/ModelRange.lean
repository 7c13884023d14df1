import Vocoder.Frame.Decode
import Vocoder.Proofs.CodebookEntries
import Vocoder.Proofs.IndexRange
import Vocoder.Proofs.RealScalars

/-!
Ranges of the parameters of speech over the real numbers. Every way in which the decoder comes to a
fundamental or an energy keeps it in its range: the scales, the joint codebook and the interpolation
between two updates. A fundamental in its range has between 10 and 80 harmonics.
-/

namespace Vocoder

/-! ### Fundamentals -/

namespace PitchRange

/-- A fundamental of a range. -/
structure Has (range : PitchRange ℝ) (wo : ℝ) : Prop where
  low : range.low ≤ wo
  high : wo ≤ range.high

theorem speech_low : (speech : PitchRange ℝ).low = 2 * Real.pi / 160 := by
  simp only [speech, Analytic.turn_real]
  norm_num

theorem speech_high : (speech : PitchRange ℝ).high = 2 * Real.pi / 20 := by
  simp only [speech, Analytic.turn_real]
  norm_num

theorem speech_le : (speech : PitchRange ℝ).low ≤ speech.high := by
  rw [speech_low, speech_high]
  linarith [Real.pi_pos]

theorem has_low : (speech : PitchRange ℝ).Has speech.low := ⟨le_rfl, speech_le⟩

theorem has_clamp_of_le {range : PitchRange ℝ} (hrange : range.low ≤ range.high) (wo : ℝ) :
    range.Has (range.clamp wo) := by
  unfold clamp
  split_ifs with hlow hhigh
  · exact ⟨le_rfl, hrange⟩
  · exact ⟨hrange, le_rfl⟩
  · exact ⟨not_lt.mp hlow, not_lt.mp hhigh⟩

theorem has_clamp (wo : ℝ) : (speech : PitchRange ℝ).Has (speech.clamp wo) :=
  has_clamp_of_le speech_le wo

theorem Has.pos {wo : ℝ} (h : speech.Has wo) : 0 < wo := by
  have hlow := h.low
  rw [speech_low] at hlow
  linarith [Real.pi_pos]

/-- A fundamental between two of a range is in the range. -/
theorem Has.between {range : PitchRange ℝ} {left right weight : ℝ} (hleft : range.Has left)
    (hright : range.Has right) (hweight : 0 ≤ weight) (hweight' : weight ≤ 1) :
    range.Has ((1 - weight) * left + weight * right) where
  low := by nlinarith [hleft.low, hright.low]
  high := by nlinarith [hleft.high, hright.high]

theorem Has.le_tenth {wo : ℝ} (h : speech.Has wo) : wo ≤ Real.pi / 10 := by
  have hhigh := h.high
  rw [speech_high] at hhigh
  linarith

theorem Has.harmonics {wo : ℝ} (h : speech.Has wo) :
    10 ≤ ⌊Real.pi / wo⌋ ∧ ⌊Real.pi / wo⌋ ≤ 80 := by
  have hpos := h.pos
  have hlow := h.low
  have hhigh := h.high
  rw [speech_low] at hlow
  rw [speech_high] at hhigh
  have hmin : ((10 : ℤ) : ℝ) ≤ Real.pi / wo := by
    rw [le_div_iff₀ hpos]
    push_cast
    linarith
  have hmax : Real.pi / wo < ((81 : ℤ) : ℝ) := by
    rw [div_lt_iff₀ hpos]
    push_cast
    linarith
  have hlt := Int.floor_lt.mpr hmax
  exact ⟨Int.le_floor.mpr hmin, by omega⟩

end PitchRange

namespace Model

/-- A model with a fundamental of speech and all its harmonics. -/
structure Fitted (model : Model ℝ) : Prop where
  wo : PitchRange.speech.Has model.wo
  count : model.count = ⌊Real.pi / model.wo⌋

theorem Fitted.count_bounds {model : Model ℝ} (h : model.Fitted) :
    10 ≤ model.count ∧ model.count ≤ 80 := by
  rw [h.count]
  exact h.wo.harmonics

theorem Fitted.harmonic_le {model : Model ℝ} (h : model.Fitted) {m : Int} (hm : m ≤ model.count) :
    m * model.wo ≤ Real.pi := by
  rw [h.count, Int.le_floor] at hm
  exact (le_div_iff₀ h.wo.pos).mp hm

/-- The harmonic after the last one is still below the sampling rate. -/
theorem Fitted.next_harmonic_le {model : Model ℝ} (h : model.Fitted) {m : Int}
    (hm : m ≤ model.count + 1) : m * model.wo ≤ 2 * Real.pi := by
  have hlast := h.harmonic_le (show m - 1 ≤ model.count by omega)
  push_cast at hlast
  linarith [h.wo.le_tenth, Real.pi_pos]

/-- The lowest fundamental has eighty harmonics. -/
theorem fitted_lowest (amps phases : Harmonics ℝ) (voiced : Bool) :
    Fitted ⟨PitchRange.speech.low, 80, amps, phases, voiced⟩ := by
  refine ⟨PitchRange.has_low, ?_⟩
  have hratio : Real.pi / PitchRange.speech.low = (80 : ℤ) := by
    have hpi := Real.pi_ne_zero
    rw [PitchRange.speech_low]
    push_cast
    field_simp
    norm_num
  rw [hratio, Int.floor_intCast]

theorem yields_withFundamental (model : Model ℝ) {wo : ℝ} (h : PitchRange.speech.Has wo) :
    Yields (model.withFundamental wo) Fitted := by
  obtain ⟨hlow, hhigh⟩ := h.harmonics
  have hcount : harmonicsOf wo = ⌊Real.pi / wo⌋ :=
    (Analytic.floorInt_real _).trans (if_pos ⟨by rw [Analytic.pi_real]; omega, by
      rw [Analytic.pi_real]; omega⟩)
  have hmax : maxHarmonics = 80 := rfl
  simp only [withFundamental, hcount, hmax]
  rw [if_neg (by omega)]
  exact Yields.ok ⟨h, rfl⟩

end Model

/-! ### Harmonics -/

namespace Harmonics

variable {β : Type}

theorem yields_value (values : Harmonics β) {m : Int} (hlow : 0 ≤ m) (hhigh : m ≤ 80) :
    Yields (values.value m) fun _ => True :=
  yields_fetch_of_lt hlow (by rw [Vector.size_toArray]; omega)

theorem yields_put (values : Harmonics β) {m : Int} (hlow : 0 ≤ m) (hhigh : m ≤ 80) (x : β) :
    Yields (values.put m x) fun _ => True := by
  rw [put, if_pos (by omega)]
  exact Yields.ok trivial

theorem yields_fill (values : Harmonics β) {count : Int} {f : Int → Except Fault β}
    (hcount : count ≤ 80) (hf : ∀ m, 1 ≤ m → m ≤ count → Yields (f m) fun _ => True) :
    Yields (values.fill count f) fun _ => True := by
  refine yields_foldBetween_of_step fun m values hlow hhigh => ?_
  exact (hf m hlow (by omega)).bind fun x _ => values.yields_put (by omega) (by omega) x

end Harmonics

/-! ### Energies -/

namespace Energy

/-- The energies of speech: from -10 to 60 dB. -/
structure InRange (energy : ℝ) : Prop where
  low : 1 / 10 ≤ energy
  high : energy ≤ 10 ^ 6

theorem InRange.pos {energy : ℝ} (h : InRange energy) : 0 < energy := by
  linarith [h.low]

theorem inRange_pow {exponent : ℝ} (hlow : -1 ≤ exponent) (hhigh : exponent ≤ 6) :
    InRange ((10 : ℝ) ^ exponent) where
  low := by
    have hle := Real.rpow_le_rpow_of_exponent_le (show (1 : ℝ) ≤ 10 by norm_num) hlow
    rw [Real.rpow_neg_one] at hle
    linarith
  high := by
    have hle := Real.rpow_le_rpow_of_exponent_le (show (1 : ℝ) ≤ 10 by norm_num) hhigh
    have hsix : (10 : ℝ) ^ (6 : ℝ) = 10 ^ 6 := by
      exact_mod_cast Real.rpow_natCast 10 6
    rwa [hsix] at hle

theorem InRange.log10_bounds {energy : ℝ} (h : InRange energy) :
    -1 ≤ Real.logb 10 energy ∧ Real.logb 10 energy ≤ 6 := by
  have hbase : (1 : ℝ) < 10 := by norm_num
  constructor
  · rw [Real.le_logb_iff_rpow_le hbase h.pos, Real.rpow_neg_one]
    linarith [h.low]
  · rw [Real.logb_le_iff_le_rpow hbase h.pos]
    have hsix : (10 : ℝ) ^ (6 : ℝ) = 10 ^ 6 := by
      exact_mod_cast Real.rpow_natCast 10 6
    rw [hsix]
    exact h.high

theorem inRange_ofDecibels {level : ℝ} (hlow : -10 ≤ level) (hhigh : level ≤ 60) :
    InRange (Analytic.ofDecibels level) := by
  rw [Analytic.ofDecibels_real]
  exact inRange_pow (by linarith) (by linarith)

theorem lowLevel_real : (lowLevel : ℝ) = -10 := by
  unfold lowLevel
  norm_num

theorem highLevel_real : (highLevel : ℝ) = 40 := by
  unfold highLevel
  norm_num

theorem inRange_decode (index : Int) : InRange (decode index energyBits : ℝ) := by
  have hlevels : levelCount energyBits = 32 := by decide
  obtain ⟨hlow, hhigh⟩ := clampIndex_bounds index 32 (by decide) (by decide)
  have hlow' : (0 : ℝ) ≤ clampIndex index 32 := by exact_mod_cast hlow
  have hhigh' : (clampIndex index 32 : ℝ) ≤ 32 := by exact_mod_cast hhigh.le
  simp only [decode, hlevels, lowLevel_real, highLevel_real, Analytic.ofInt_real]
  push_cast
  exact inRange_ofDecibels (by linarith) (by linarith)

/-- An energy between two on the logarithmic scale is in range. -/
theorem InRange.between {left right weight : ℝ} (hleft : InRange left) (hright : InRange right)
    (hweight : 0 ≤ weight) (hweight' : weight ≤ 1) :
    InRange (Interpolation.energy left right weight) := by
  obtain ⟨hlow, hhigh⟩ := hleft.log10_bounds
  obtain ⟨hlow', hhigh'⟩ := hright.log10_bounds
  simp only [Interpolation.energy, Analytic.pow_real, Analytic.log10_real]
  rw [ten_point_zero, one_point_zero]
  exact inRange_pow (by nlinarith) (by nlinarith)

end Energy

/-! ### Updates -/

theorem Predictor.yields_decode (predictor : Predictor ℝ) (index : Int) :
    Yields (predictor.decode PitchRange.speech index) fun done =>
      PitchRange.speech.Has done.1.1 ∧ Energy.InRange done.1.2 := by
  refine (predictor.yields_advance (Codebook.whole_joint.clamp_bounds index)).bind
    fun next _ => Yields.pure ⟨?_, ?_⟩
  · exact PitchRange.has_clamp _
  · dsimp only
    rw [Energy.lowLevel_real, show (60.0 : ℝ) = 60 by norm_num]
    split_ifs with hlow hhigh
    · exact Energy.inRange_ofDecibels le_rfl (by norm_num)
    · exact Energy.inRange_ofDecibels (by norm_num) le_rfl
    · exact Energy.inRange_ofDecibels (not_lt.mp hlow) (not_lt.mp hhigh)

/-- Whatever the indexes are, an update has a fundamental and an energy in range. -/
theorem UpdateCode.yields_decode (code : UpdateCode) (reference : UpdateCode.Reference ℝ) :
    Yields (code.decode PitchRange.speech reference) fun done =>
      PitchRange.speech.Has done.1.1 ∧ Energy.InRange done.1.2 := by
  cases code with
  | scalar pitch energy =>
      exact Yields.pure ⟨PitchRange.has_clamp _, Energy.inRange_decode _⟩
  | delta change energy =>
      exact Yields.pure ⟨PitchRange.has_clamp _, Energy.inRange_decode _⟩
  | joint index =>
      exact (reference.predictor.yields_decode index).bind fun _ hdone => Yields.pure hdone

/-! ### Interpolation -/

theorem Interpolation.yields_fundamental (model : Model ℝ) {prev next : Model ℝ} {weight : ℝ}
    (hprev : prev.Fitted) (hnext : next.Fitted) (hweight : 0 ≤ weight) (hweight' : weight ≤ 1) :
    Yields (fundamental model prev next weight PitchRange.speech.low) Model.Fitted := by
  apply Model.yields_withFundamental
  rw [one_point_zero]
  split_ifs
  · exact hprev.wo.between hnext.wo hweight hweight'
  · exact hnext.wo
  · exact hprev.wo
  · exact PitchRange.has_low

end Vocoder
