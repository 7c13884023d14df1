import Vocoder.Proofs.ModelRange

/-!
Changes of the fundamental over the real numbers. A change is rounded to levels of the full scale,
held between four down and three up, and carried in three bits. The sign survives the three bits, so
the decoder makes exactly the change that the encoder chose. That change goes toward the new
fundamental and not past it by more than half a level, and the range cannot push it away again: the
new fundamental is in the range, and clamping brings nothing farther from what is there.
-/

namespace Vocoder.PitchRange

/-! ### Three bits with a sign -/

theorem signedDelta_emod (index : ℤ) : signedDelta (index % 8) = signedDelta index := by
  simp [signedDelta]

theorem signedDelta_of_bounds {change : ℤ} (hlow : -4 ≤ change) (hhigh : change ≤ 3) :
    signedDelta (change % 8) = change := by
  unfold signedDelta
  dsimp only
  by_cases hneg : change < 0
  · rw [if_pos (by omega)]
    omega
  · rw [if_neg (by omega)]
    omega

/-- A change held between four down and three up. -/
def heldChange (change : ℤ) : ℤ := max (-4) (min 3 change)

theorem heldChange_bounds (change : ℤ) : -4 ≤ heldChange change ∧ heldChange change ≤ 3 := by
  unfold heldChange
  omega

theorem heldChange_of_bounds {change : ℤ} (hlow : -4 ≤ change) (hhigh : change ≤ 3) :
    heldChange change = change := by
  unfold heldChange
  omega

/-- A rounded change that is held goes toward the place it aims at. A change of no level leaves the
distance as it was, and every other change starts at least half a level away. -/
theorem abs_heldChange_round_sub_le (u : ℝ) : |(heldChange (round u) : ℝ) - u| ≤ |u| := by
  obtain ⟨hbelow, habove⟩ := abs_le.mp (abs_sub_round u)
  rcases lt_trichotomy (round u) 0 with hdown | hzero | hup
  · have hheld : round u ≤ heldChange (round u) ∧ heldChange (round u) ≤ -1 := by
      unfold heldChange
      omega
    have hle : (round u : ℝ) ≤ heldChange (round u) := by exact_mod_cast hheld.1
    have hneg : (heldChange (round u) : ℝ) ≤ -1 := by exact_mod_cast hheld.2
    rw [abs_of_neg (show u < 0 by linarith), abs_le]
    constructor <;> linarith
  · have hheld : heldChange (round u) = 0 := by
      rw [hzero]
      rfl
    simp [hheld]
  · have hheld : heldChange (round u) ≤ round u ∧ 1 ≤ heldChange (round u) := by
      unfold heldChange
      omega
    have hle : (heldChange (round u) : ℝ) ≤ round u := by exact_mod_cast hheld.1
    have hpos : (1 : ℝ) ≤ heldChange (round u) := by exact_mod_cast hheld.2
    rw [abs_of_pos (show 0 < u by linarith), abs_le]
    constructor <;> linarith

/-! ### The range -/

variable {range : PitchRange ℝ}

/-- Clamping brings nothing farther from a fundamental of the range. -/
theorem abs_clamp_sub_le {wo : ℝ} (h : range.Has wo) (x : ℝ) : |range.clamp x - wo| ≤ |x - wo| := by
  have hlow := h.low
  have hhigh := h.high
  unfold clamp
  split_ifs with hbelow habove
  · rw [abs_of_nonpos (show range.low - wo ≤ 0 by linarith),
      abs_of_neg (show x - wo < 0 by linarith)]
    linarith
  · rw [abs_of_nonneg (show 0 ≤ range.high - wo by linarith),
      abs_of_pos (show 0 < x - wo by linarith)]
    linarith
  · exact le_rfl

theorem clamp_of_le (hrange : range.low ≤ range.high) {x : ℝ} (h : x ≤ range.low) :
    range.clamp x = range.low := by
  unfold clamp
  split_ifs with hbelow habove
  · rfl
  · exact absurd (h.trans hrange) (not_le.mpr habove)
  · exact le_antisymm h (not_lt.mp hbelow)

/-! ### Coding and decoding -/

/-- A rise that is too high for a word is taken for the largest fall. -/
theorem encodeDelta_eq (hrange : range.low < range.high) (wo prev : ℝ) :
    range.encodeDelta wo prev =
      if (wo - prev) / ((range.high - range.low) / 128) + 1 / 2 < 2 ^ 63 then
        heldChange (round ((wo - prev) / ((range.high - range.low) / 128))) % 8
      else -4 % 8 := by
  have hwidth : range.high - range.low ≠ 0 := by linarith
  have hplace : (128.0 : ℝ) * ((wo - prev) / (range.high - range.low)) + 0.5 =
      (wo - prev) / ((range.high - range.low) / 128) + 1 / 2 := by
    norm_num
    field_simp
  simp only [encodeDelta, Analytic.floorInt_real, hplace, round_eq, heldChange]
  generalize (wo - prev) / ((range.high - range.low) / 128) + 1 / 2 = place
  by_cases hword : place < 2 ^ 63
  · have hfloor : ⌊place⌋ < 2 ^ 63 := Int.floor_lt.mpr (by exact_mod_cast hword)
    rw [if_pos hword]
    congr 1
    split_ifs <;> omega
  · have hfloor : 2 ^ 63 ≤ ⌊place⌋ := Int.le_floor.mpr (by exact_mod_cast not_lt.mp hword)
    rw [if_neg hword, if_neg (show ¬ (-2 ^ 63 ≤ ⌊place⌋ ∧ ⌊place⌋ < 2 ^ 63) by omega)]
    rfl

theorem decodeDelta_eq (index : ℤ) (prev : ℝ) :
    range.decodeDelta index prev =
      range.clamp (prev + (range.high - range.low) / 128 * signedDelta index) := by
  simp only [decodeDelta, Analytic.ofInt_real]
  norm_num

/-- The decoder makes the change that the encoder chose. A rise that is too high for a word starts
so far below the range that every change of it ends at the lower end. -/
theorem decodeDelta_encodeDelta (hrange : range.low < range.high) {wo : ℝ} (h : range.Has wo)
    (prev : ℝ) :
    range.decodeDelta (range.encodeDelta wo prev) prev =
      range.clamp (prev + (range.high - range.low) / 128 *
        heldChange (round ((wo - prev) / ((range.high - range.low) / 128)))) := by
  obtain ⟨hlow, hhigh⟩ :=
    heldChange_bounds (round ((wo - prev) / ((range.high - range.low) / 128)))
  rw [decodeDelta_eq, encodeDelta_eq hrange]
  split_ifs with hword
  · rw [signedDelta_of_bounds hlow hhigh]
  · have hstep : 0 < (range.high - range.low) / 128 := by linarith
    have hfar : prev + (range.high - range.low) / 128 * 3 ≤ range.low := by
      rw [not_lt, ← sub_le_iff_le_add, le_div_iff₀ hstep] at hword
      linarith [h.high]
    have hheld : (heldChange (round ((wo - prev) / ((range.high - range.low) / 128))) : ℝ) ≤ 3 := by
      exact_mod_cast hhigh
    have hmost := mul_le_mul_of_nonneg_left hheld hstep.le
    rw [signedDelta_of_bounds le_rfl (by decide), clamp_of_le hrange.le, clamp_of_le hrange.le]
    · linarith
    · push_cast
      linarith

/-- The distance that is left after a change, in levels. -/
theorem abs_decodeDelta_sub_le (hrange : range.low < range.high) {wo : ℝ} (h : range.Has wo)
    (prev : ℝ) :
    |range.decodeDelta (range.encodeDelta wo prev) prev - wo| ≤ (range.high - range.low) / 128 *
      |(heldChange (round ((wo - prev) / ((range.high - range.low) / 128))) : ℝ) -
        (wo - prev) / ((range.high - range.low) / 128)| := by
  have hstep : 0 < (range.high - range.low) / 128 := by linarith
  rw [decodeDelta_encodeDelta hrange h]
  set step := (range.high - range.low) / 128
  set held := heldChange (round ((wo - prev) / step))
  have haim : step * ((wo - prev) / step) = wo - prev := mul_div_cancel₀ _ hstep.ne'
  calc |range.clamp (prev + step * held) - wo|
      ≤ |prev + step * held - wo| := abs_clamp_sub_le h _
    _ = |step * ((held : ℝ) - (wo - prev) / step)| := by rw [mul_sub, haim]; congr 1; ring
    _ = step * |(held : ℝ) - (wo - prev) / step| := by rw [abs_mul, abs_of_pos hstep]

/-- Coding the change of a fundamental saturates and never moves away from the target: the decoder
goes by the rounded change, held between four steps down and three up, and what is left is never
more than before. -/
theorem delta_saturates_toward_target (hrange : range.low < range.high) :
    (∀ prev wo : ℝ, range.Has wo →
      let step := (range.high - range.low) / 128
      let change := ⌊(wo - prev) / step + 1 / 2⌋
      let found := range.decodeDelta (range.encodeDelta wo prev) prev
      (0 ≤ range.encodeDelta wo prev ∧ range.encodeDelta wo prev < 8) ∧
      found = range.clamp (prev + step * (max (-4) (min 3 change) : ℤ)) ∧
      (-4 ≤ change → change ≤ 3 → |found - wo| ≤ step / 2) ∧
      |found - wo| ≤ |prev - wo|) ∧
    ∀ (index : ℤ) (prev : ℝ), range.decodeDelta index prev = range.decodeDelta (index % 8) prev ∧
      range.Has (range.decodeDelta index prev) := by
  have hstep : 0 < (range.high - range.low) / 128 := by linarith
  refine ⟨fun prev wo hwo => ?_, fun index prev => ⟨?_, has_clamp_of_le hrange.le _⟩⟩
  · have hleft := abs_decodeDelta_sub_le hrange hwo prev
    have hfound := decodeDelta_encodeDelta hrange hwo prev
    dsimp only
    rw [← round_eq]
    set step := (range.high - range.low) / 128
    refine ⟨range.encodeDelta_fits wo prev, hfound, fun hlow hhigh => ?_, ?_⟩
    · rw [heldChange_of_bounds hlow hhigh, abs_sub_comm (round _ : ℝ)] at hleft
      calc |range.decodeDelta (range.encodeDelta wo prev) prev - wo|
          ≤ step * (1 / 2) :=
            hleft.trans (mul_le_mul_of_nonneg_left (abs_sub_round _) hstep.le)
        _ = step / 2 := by ring
    · calc |range.decodeDelta (range.encodeDelta wo prev) prev - wo|
          ≤ step * |(wo - prev) / step| :=
            hleft.trans (mul_le_mul_of_nonneg_left (abs_heldChange_round_sub_le _) hstep.le)
        _ = |wo - prev| := by rw [abs_div, abs_of_pos hstep, mul_div_cancel₀ _ hstep.ne']
        _ = |prev - wo| := abs_sub_comm _ _
  · rw [decodeDelta_eq, decodeDelta_eq, signedDelta_emod]

theorem speech_lt : (speech : PitchRange ℝ).low < speech.high := by
  rw [speech_low, speech_high]
  linarith [Real.pi_pos]

/-- The largest rise of speech, from the lower end of its range to the upper one, is held at three
steps and leaves less than there was. -/
theorem delta_saturates_toward_target_rise :
    let range : PitchRange ℝ := speech
    let found := range.decodeDelta (range.encodeDelta range.high range.low) range.low
    range.low < range.high ∧ range.Has range.high ∧
    found = range.clamp (range.low + (range.high - range.low) / 128 * 3) ∧
    |found - range.high| ≤ |range.low - range.high| := by
  have hhigh : (speech : PitchRange ℝ).Has speech.high := ⟨speech_le, le_rfl⟩
  obtain ⟨hcode, -⟩ := delta_saturates_toward_target speech_lt
  obtain ⟨-, hfound, -, hnearer⟩ := hcode speech.low speech.high hhigh
  have hwidth : (speech : PitchRange ℝ).high - speech.low ≠ 0 := sub_ne_zero.mpr speech_lt.ne'
  have hchange : ⌊((speech : PitchRange ℝ).high - speech.low) /
      ((speech.high - speech.low) / 128) + 1 / 2⌋ = 128 := by
    rw [div_div_cancel₀ hwidth, Int.floor_eq_iff]
    norm_num
  refine ⟨speech_lt, hhigh, ?_, hnearer⟩
  rw [hfound, hchange]
  norm_num

end Vocoder.PitchRange
