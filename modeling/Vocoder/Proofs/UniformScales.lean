import Vocoder.Proofs.ModelRange

/-!
Uniform scales over the real numbers. The fundamental and the level of the energy are laid out on
scales of the same kind: as many levels as there are indexes, from the lower end of a range on, and
none at its upper end. So a level is found again from its value, and a value is at most half a step
from its level, but for the last half step of the range, where it is at most one step. A place on a
scale becomes a word before it is held to the range, so a value far above the range, whose place is
no word, has the lowest index.
-/

namespace Vocoder

theorem levelCount_eq {bits : ℕ} (h : bits ≤ 62) : levelCount bits = 2 ^ bits := by
  have hnonneg : (0 : ℤ) ≤ 2 ^ bits := by positivity
  have hpow : (2 : ℤ) ^ bits ≤ 2 ^ 62 := pow_le_pow_right₀ (by decide) h
  rw [levelCount, if_pos (by omega), Nat.one_shiftLeft, Nat.cast_pow, Nat.cast_ofNat,
    wrap_of_bounds _ (by omega) (by omega)]

theorem two_pow_bounds {bits : ℕ} (h : bits ≤ 62) : (1 : ℤ) ≤ 2 ^ bits ∧ (2 : ℤ) ^ bits ≤ 2 ^ 62 :=
  ⟨one_le_pow₀ (by decide), pow_le_pow_right₀ (by decide) h⟩

theorem clampIndex_eq {levels : ℤ} (hlow : 1 ≤ levels) (hhigh : levels ≤ 2 ^ 62) (index : ℤ) :
    clampIndex index levels = max 0 (min index (levels - 1)) := by
  unfold clampIndex
  rw [wrap_of_bounds (levels - 1) (by omega) (by omega)]
  dsimp only
  split_ifs <;> omega

namespace Scale

/-- The place of a value on a scale from `low` to `high`, in steps from the lower end. -/
noncomputable def place (low high : ℝ) (levels : ℤ) (x : ℝ) : ℝ :=
  levels * ((x - low) / (high - low))

/-- The index of a value. -/
noncomputable def index (low high : ℝ) (levels : ℤ) (x : ℝ) : ℤ :=
  clampIndex (Analytic.floorInt (place low high levels x + 0.5)) levels

/-- The value of an index. -/
noncomputable def value (low high : ℝ) (levels i : ℤ) : ℝ :=
  low + (high - low) / levels * clampIndex i levels

/-- A value that is found for `x`: at most half a step away, or one step near the upper end. -/
structure Near (high step x found : ℝ) : Prop where
  half : x ≤ high - step / 2 → |found - x| ≤ step / 2
  whole : |found - x| ≤ step

variable {low high : ℝ} {levels : ℤ}

theorem place_mono (hrange : low < high) (hlow : 1 ≤ levels) :
    Monotone (place low high levels) := by
  intro x y hxy
  have hpos : (0 : ℝ) < levels := by exact_mod_cast hlow
  have hnorm : (x - low) / (high - low) ≤ (y - low) / (high - low) :=
    div_le_div_of_nonneg_right (by linarith) (by linarith)
  exact mul_le_mul_of_nonneg_left hnorm hpos.le

/-- A place that rounds to a word has the level nearest to it. -/
theorem index_of_lt (hlow : 1 ≤ levels) (hhigh : levels ≤ 2 ^ 62) {x : ℝ}
    (h : place low high levels x + 0.5 < 2 ^ 63) :
    index low high levels x = max 0 (min ⌊place low high levels x + 0.5⌋ (levels - 1)) := by
  have hword : ⌊place low high levels x + 0.5⌋ < 2 ^ 63 := Int.floor_lt.mpr (by exact_mod_cast h)
  rw [index, Analytic.floorInt_real, clampIndex_eq hlow hhigh]
  split_ifs <;> omega

/-- Beyond the words every place has the lowest level. -/
theorem index_of_le (hlow : 1 ≤ levels) (hhigh : levels ≤ 2 ^ 62) {x : ℝ}
    (h : 2 ^ 63 ≤ place low high levels x + 0.5) : index low high levels x = 0 := by
  have hword : 2 ^ 63 ≤ ⌊place low high levels x + 0.5⌋ := Int.le_floor.mpr (by exact_mod_cast h)
  rw [index, Analytic.floorInt_real, clampIndex_eq hlow hhigh]
  split_ifs <;> omega

theorem index_le_index (hrange : low < high) (hlow : 1 ≤ levels) (hhigh : levels ≤ 2 ^ 62)
    {x y : ℝ} (hy : place low high levels y + 0.5 < 2 ^ 63) (hxy : x ≤ y) :
    index low high levels x ≤ index low high levels y := by
  have hplace := place_mono hrange hlow hxy
  have hfloor : ⌊place low high levels x + 0.5⌋ ≤ ⌊place low high levels y + 0.5⌋ :=
    Int.floor_mono (by linarith)
  rw [index_of_lt hlow hhigh (by linarith), index_of_lt hlow hhigh hy]
  omega

theorem value_bounds (hrange : low < high) (hlow : 1 ≤ levels) (hhigh : levels ≤ 2 ^ 62) (i : ℤ) :
    low ≤ value low high levels i ∧ value low high levels i ≤ high := by
  obtain ⟨hnonneg, hlt⟩ := clampIndex_bounds i levels hlow hhigh
  have hpos : (0 : ℝ) < levels := by exact_mod_cast hlow
  have hnonneg' : (0 : ℝ) ≤ clampIndex i levels := by exact_mod_cast hnonneg
  have hle : (clampIndex i levels : ℝ) ≤ levels := by exact_mod_cast hlt.le
  have hwidth : 0 < high - low := by linarith
  have hshare : (high - low) / levels * clampIndex i levels ≤ high - low := by
    calc (high - low) / levels * clampIndex i levels
      _ ≤ (high - low) / levels * levels := mul_le_mul_of_nonneg_left hle (by positivity)
      _ = high - low := div_mul_cancel₀ _ hpos.ne'
  have hstart : 0 ≤ (high - low) / levels * clampIndex i levels := by positivity
  exact ⟨by rw [value]; linarith, by rw [value]; linarith⟩

/-- The value of a level is as many steps above the lower end as its index says. -/
theorem place_value (hrange : low < high) (hlow : 1 ≤ levels) (i : ℤ) :
    place low high levels (value low high levels i) = (clampIndex i levels : ℝ) := by
  have hpos : (0 : ℝ) < levels := by exact_mod_cast hlow
  have hwidth : high - low ≠ 0 := by linarith
  rw [place, value]
  field_simp
  ring

theorem index_value (hrange : low < high) (hlow : 1 ≤ levels) (hhigh : levels ≤ 2 ^ 62) {i : ℤ}
    (hi : 0 ≤ i) (hi' : i < levels) : index low high levels (value low high levels i) = i := by
  have hinside : clampIndex i levels = i := by
    rw [clampIndex_eq hlow hhigh]
    omega
  have hfloor : ⌊(i : ℝ) + 0.5⌋ = i := by
    rw [Int.floor_eq_iff]
    constructor <;> norm_num
  have hplace := place_value hrange hlow i
  rw [hinside] at hplace
  have hword : (i : ℝ) ≤ 2 ^ 62 := by exact_mod_cast (hi'.trans_le hhigh).le
  rw [index_of_lt hlow hhigh (by rw [hplace]; norm_num; linarith), hplace, hfloor]
  omega

/-- Rounding a place to a level, in steps. -/
theorem abs_clamp_floor_sub_le (hlow : 1 ≤ levels) (hhigh : levels ≤ 2 ^ 62) {u : ℝ} (hu : 0 ≤ u)
    (hu' : u ≤ levels) :
    (u ≤ levels - 1 / 2 → |(clampIndex ⌊u + 0.5⌋ levels : ℝ) - u| ≤ 1 / 2) ∧
      |(clampIndex ⌊u + 0.5⌋ levels : ℝ) - u| ≤ 1 := by
  have hbelow : (⌊u + 0.5⌋ : ℝ) ≤ u + 1 / 2 := (Int.floor_le _).trans (by norm_num)
  have habove : u + 1 / 2 < ⌊u + 0.5⌋ + 1 := by
    refine lt_of_eq_of_lt ?_ (Int.lt_floor_add_one (u + 0.5))
    norm_num
  have hnonneg : 0 ≤ ⌊u + 0.5⌋ := Int.floor_nonneg.mpr (by positivity)
  rw [clampIndex_eq hlow hhigh]
  rcases le_or_gt ⌊u + 0.5⌋ (levels - 1) with hinside | hbeyond
  · rw [min_eq_left hinside, max_eq_right hnonneg]
    have hhalf : |(⌊u + 0.5⌋ : ℝ) - u| ≤ 1 / 2 := abs_le.mpr ⟨by linarith, by linarith⟩
    exact ⟨fun _ => hhalf, hhalf.trans (by norm_num)⟩
  · -- The level above the last one is not there, so the last one takes its place.
    have hlast : (levels : ℝ) ≤ ⌊u + 0.5⌋ := by exact_mod_cast (show levels ≤ ⌊u + 0.5⌋ by omega)
    rw [min_eq_right hbeyond.le, max_eq_right (by omega)]
    push_cast
    exact ⟨fun hend => abs_le.mpr ⟨by linarith, by linarith⟩, abs_le.mpr ⟨by linarith, by linarith⟩⟩

theorem near_value_index (hrange : low < high) (hlow : 1 ≤ levels) (hhigh : levels ≤ 2 ^ 62) {x : ℝ}
    (hx : low ≤ x) (hx' : x ≤ high) :
    Near high ((high - low) / levels) x (value low high levels (index low high levels x)) := by
  have hpos : (0 : ℝ) < levels := by exact_mod_cast hlow
  have hwidth : 0 < high - low := by linarith
  have hstep : 0 < (high - low) / levels := by positivity
  have hplace : x = low + (high - low) / levels * place low high levels x := by
    rw [place]
    field_simp
    ring
  have hend : (high - low) / levels * levels = high - low := div_mul_cancel₀ _ hpos.ne'
  have hplace_nonneg : 0 ≤ place low high levels x :=
    mul_nonneg hpos.le (div_nonneg (by linarith) hwidth.le)
  have hplace_le : place low high levels x ≤ levels := by
    refine mul_le_of_le_one_right hpos.le ?_
    rw [div_le_one hwidth]
    linarith
  have hword : place low high levels x + 0.5 < 2 ^ 63 := by
    have hlevels : (levels : ℝ) ≤ 2 ^ 62 := by exact_mod_cast hhigh
    norm_num
    linarith
  have hindex : clampIndex (index low high levels x) levels =
      clampIndex ⌊place low high levels x + 0.5⌋ levels := by
    rw [index_of_lt hlow hhigh hword, clampIndex_eq hlow hhigh, clampIndex_eq hlow hhigh]
    omega
  have hoff : value low high levels (index low high levels x) - x = (high - low) / levels *
      (clampIndex ⌊place low high levels x + 0.5⌋ levels - place low high levels x) := by
    rw [value, hindex]
    linarith
  obtain ⟨hhalf, hwhole⟩ := abs_clamp_floor_sub_le hlow hhigh hplace_nonneg hplace_le
  constructor
  · intro hx_half
    have hplace_half : place low high levels x ≤ levels - 1 / 2 := by
      refine le_of_mul_le_mul_left ?_ hstep
      linarith
    rw [hoff, abs_mul, abs_of_pos hstep]
    refine (mul_le_mul_of_nonneg_left (hhalf hplace_half) hstep.le).trans_eq ?_
    ring
  · rw [hoff, abs_mul, abs_of_pos hstep]
    exact mul_le_of_le_one_right hstep.le hwhole

end Scale

/-! ### The two scales -/

theorem PitchRange.encode_eq_index (range : PitchRange ℝ) (wo : ℝ) {bits : ℕ} (h : bits ≤ 62) :
    range.encode wo bits = Scale.index range.low range.high (2 ^ bits) wo := by
  rw [← levelCount_eq h]
  rfl

theorem PitchRange.decode_eq_value {range : PitchRange ℝ} (hrange : range.low < range.high) (i : ℤ)
    {bits : ℕ} (h : bits ≤ 62) :
    range.decode i bits = Scale.value range.low range.high (2 ^ bits) i := by
  obtain ⟨hlow, hhigh⟩ := two_pow_bounds h
  obtain ⟨hlow_value, hvalue_high⟩ := Scale.value_bounds hrange hlow hhigh i
  have hclamp : range.decode i bits =
      range.clamp (Scale.value range.low range.high (2 ^ bits) i) := by
    rw [← levelCount_eq h]
    rfl
  rw [hclamp, clamp, if_neg (not_lt.mpr hlow_value), if_neg (not_lt.mpr hvalue_high)]

namespace Energy

theorem lowLevel_lt_highLevel : (lowLevel : ℝ) < highLevel := by norm_num [lowLevel, highLevel]

theorem decibels_ofDecibels (level : ℝ) :
    Analytic.decibels (Analytic.ofDecibels level) = level := by
  rw [Analytic.ofDecibels_real, Analytic.decibels, Analytic.log10_real,
    Real.logb_rpow (by norm_num) (by norm_num)]
  norm_num

theorem decibels_mono {e e' : ℝ} (he : 0 < e) (hle : e ≤ e') :
    Analytic.decibels e ≤ Analytic.decibels e' := by
  have hlog : Real.logb 10 e ≤ Real.logb 10 e' := Real.logb_le_logb_of_le (by norm_num) he hle
  rw [Analytic.decibels, Analytic.decibels, Analytic.log10_real, Analytic.log10_real]
  norm_num
  linarith

theorem encode_of_pos {e : ℝ} (he : 0 < e) {bits : ℕ} (h : bits ≤ 62) :
    encode e bits = Scale.index lowLevel highLevel (2 ^ bits) (Analytic.decibels e) := by
  have hzero : ¬ e ≤ (0.0 : ℝ) := by norm_num [he]
  rw [← levelCount_eq h, encode]
  dsimp only
  rw [if_neg hzero]
  rfl

theorem encode_of_nonpos {e : ℝ} (he : e ≤ 0) (bits : ℕ) : encode e bits = 0 := by
  have hzero : e ≤ (0.0 : ℝ) := by norm_num [he]
  rw [encode]
  dsimp only
  rw [if_pos hzero]

theorem decode_eq_ofDecibels (i : ℤ) {bits : ℕ} (h : bits ≤ 62) :
    (decode i bits : ℝ) = Analytic.ofDecibels (Scale.value lowLevel highLevel (2 ^ bits) i) := by
  rw [← levelCount_eq h]
  rfl

theorem decode_pos (i : ℤ) {bits : ℕ} (h : bits ≤ 62) : 0 < (decode i bits : ℝ) := by
  rw [decode_eq_ofDecibels i h, Analytic.ofDecibels_real]
  positivity

theorem fits_encode (e : ℝ) {bits : ℕ} (h : bits ≤ 62) : Fits (encode e bits) bits := by
  obtain ⟨hlow, hhigh⟩ := two_pow_bounds h
  rcases le_or_gt e 0 with he | he
  · rw [encode_of_nonpos he]
    exact ⟨le_rfl, by omega⟩
  · rw [encode_of_pos he h]
    exact clampIndex_bounds _ _ hlow hhigh

theorem encode_le_encode {bits : ℕ} (h : bits ≤ 62) {e e' : ℝ}
    (he' : e' ≤ 0 ∨
      Scale.place lowLevel highLevel (2 ^ bits) (Analytic.decibels e') + 0.5 < 2 ^ 63)
    (hle : e ≤ e') : encode e bits ≤ encode e' bits := by
  obtain ⟨hlow, hhigh⟩ := two_pow_bounds h
  rcases le_or_gt e 0 with he | he
  · rw [encode_of_nonpos he]
    exact (fits_encode e' h).1
  · have hpos := he.trans_le hle
    rw [encode_of_pos he h, encode_of_pos hpos h]
    exact Scale.index_le_index lowLevel_lt_highLevel hlow hhigh (he'.resolve_left hpos.not_ge)
      (decibels_mono he hle)

end Energy

/-- The uniform scales are exact on their levels and close between them. Every value has an index
that fits. Greater values have no smaller index, as long as their place rounds to a word; beyond,
they all have the lowest. -/
theorem uniform_scales_exact_and_close {range : PitchRange ℝ} (hrange : range.low < range.high)
    {bits : ℕ} (hbits : bits ≤ 62) :
    (∀ i : ℤ, 0 ≤ i → i < 2 ^ bits → range.encode (range.decode i bits) bits = i ∧
      Energy.encode (Energy.decode i bits : ℝ) bits = i) ∧
    (MonotoneOn (fun wo => range.encode wo bits)
        {wo | 2 ^ bits * ((wo - range.low) / (range.high - range.low)) + 1 / 2 < 2 ^ 63} ∧
      ∀ wo, 2 ^ 63 ≤ 2 ^ bits * ((wo - range.low) / (range.high - range.low)) + 1 / 2 →
        range.encode wo bits = 0) ∧
    (MonotoneOn (fun e : ℝ => Energy.encode e bits)
        {e | e ≤ 0 ∨ 2 ^ bits * ((Analytic.decibels e - Energy.lowLevel) /
          (Energy.highLevel - Energy.lowLevel)) + 1 / 2 < 2 ^ 63} ∧
      ∀ e : ℝ, 2 ^ 63 ≤ 2 ^ bits * ((Analytic.decibels e - Energy.lowLevel) /
        (Energy.highLevel - Energy.lowLevel)) + 1 / 2 → Energy.encode e bits = 0) ∧
    (∀ wo, Fits (range.encode wo bits) bits) ∧ (∀ e : ℝ, Fits (Energy.encode e bits) bits) ∧
    (∀ wo, range.low ≤ wo → wo ≤ range.high → Scale.Near range.high
      ((range.high - range.low) / 2 ^ bits) wo (range.decode (range.encode wo bits) bits)) ∧
    ∀ e : ℝ, 0 < e → Energy.lowLevel ≤ Analytic.decibels e →
      Analytic.decibels e ≤ Energy.highLevel → Scale.Near Energy.highLevel
        ((Energy.highLevel - Energy.lowLevel) / 2 ^ bits) (Analytic.decibels e)
        (Analytic.decibels (Energy.decode (Energy.encode e bits) bits)) := by
  obtain ⟨hlow, hhigh⟩ := two_pow_bounds hbits
  have hlevels : (((2 : ℤ) ^ bits : ℤ) : ℝ) = 2 ^ bits := by push_cast; rfl
  have hplace (low high x : ℝ) : 2 ^ bits * ((x - low) / (high - low)) + 1 / 2 =
      Scale.place low high (2 ^ bits) x + 0.5 := by
    rw [Scale.place, hlevels]
    norm_num
  simp only [hplace, range.encode_eq_index _ hbits]
  refine ⟨fun i hi hi' => ⟨?_, ?_⟩, ⟨fun wo _ wo' hwo' hle => ?_, fun wo hwo => ?_⟩,
    ⟨fun e _ e' he' hle => Energy.encode_le_encode hbits he' hle, fun e he => ?_⟩, fun wo => ?_,
    fun e => Energy.fits_encode e hbits, fun wo hwo hwo' => ?_, fun e he hlevel hlevel' => ?_⟩
  · rw [PitchRange.decode_eq_value hrange i hbits, Scale.index_value hrange hlow hhigh hi hi']
  · rw [Energy.encode_of_pos (Energy.decode_pos i hbits) hbits,
      Energy.decode_eq_ofDecibels i hbits, Energy.decibels_ofDecibels,
      Scale.index_value Energy.lowLevel_lt_highLevel hlow hhigh hi hi']
  · exact Scale.index_le_index hrange hlow hhigh hwo' hle
  · exact Scale.index_of_le hlow hhigh hwo
  · rcases le_or_gt e 0 with hsilent | hpos
    · exact Energy.encode_of_nonpos hsilent bits
    · rw [Energy.encode_of_pos hpos hbits, Scale.index_of_le hlow hhigh he]
  · exact clampIndex_bounds _ _ hlow hhigh
  · rw [PitchRange.decode_eq_value hrange _ hbits, ← hlevels]
    exact Scale.near_value_index hrange hlow hhigh hwo hwo'
  · rw [Energy.encode_of_pos he hbits, Energy.decode_eq_ofDecibels _ hbits,
      Energy.decibels_ofDecibels, ← hlevels]
    exact Scale.near_value_index Energy.lowLevel_lt_highLevel hlow hhigh hlevel hlevel'

/-- The finest scale of one octave, at its last level and at the upper end of its range; and the
energy, between its upper end and twice its range above the lower one. -/
theorem uniform_scales_exact_and_close_finest :
    (1 : ℝ) < 2 ∧ 62 ≤ 62 ∧
    (⟨1, 2⟩ : PitchRange ℝ).encode ((⟨1, 2⟩ : PitchRange ℝ).decode (2 ^ 62 - 1) 62) 62 =
      2 ^ 62 - 1 ∧
    Energy.encode (Energy.decode (2 ^ 62 - 1) 62 : ℝ) 62 = 2 ^ 62 - 1 ∧
    (⟨1, 2⟩ : PitchRange ℝ).encode 1 62 ≤ (⟨1, 2⟩ : PitchRange ℝ).encode 2 62 ∧
    Energy.encode (10 ^ 9 : ℝ) 62 = 0 ∧
    |(⟨1, 2⟩ : PitchRange ℝ).decode ((⟨1, 2⟩ : PitchRange ℝ).encode 2 62) 62 - 2| ≤
      (2 - 1) / 2 ^ 62 := by
  have hrange : (⟨1, 2⟩ : PitchRange ℝ).low < (⟨1, 2⟩ : PitchRange ℝ).high := by norm_num
  have hlevel : Analytic.decibels (10 ^ 9 : ℝ) = 90 := by
    rw [Analytic.decibels, Analytic.log10_real, Real.logb_pow, Real.logb_self_eq_one (by norm_num)]
    norm_num
  obtain ⟨hexact, ⟨hmono, -⟩, ⟨-, hbeyond⟩, -, -, hnear, -⟩ :=
    uniform_scales_exact_and_close hrange (le_refl 62)
  obtain ⟨hpitch, henergy⟩ := hexact (2 ^ 62 - 1) (by norm_num) (by norm_num)
  refine ⟨by norm_num, le_rfl, hpitch, henergy, hmono ?_ ?_ (by norm_num), hbeyond _ ?_,
    (hnear 2 (by norm_num) le_rfl).whole⟩
  · norm_num
  · norm_num
  · rw [hlevel]
    norm_num [Energy.lowLevel, Energy.highLevel]

/-- Not all values are in order: speech has its last index at the upper end of its range, and the
first one again far above. -/
theorem pitch_index_wraps :
    (PitchRange.speech : PitchRange ℝ).high ≤ 10 ^ 17 ∧
    (PitchRange.speech : PitchRange ℝ).encode PitchRange.speech.high 7 = 127 ∧
    (PitchRange.speech : PitchRange ℝ).encode (10 ^ 17) 7 = 0 ∧
    ¬ Monotone fun wo => (PitchRange.speech : PitchRange ℝ).encode wo 7 := by
  have hpi := Real.pi_pos
  have hpi' := Real.pi_le_four
  have hwidth : (PitchRange.speech : PitchRange ℝ).high - PitchRange.speech.low =
      7 * Real.pi / 80 := by
    rw [PitchRange.speech_high, PitchRange.speech_low]
    ring
  have hle : (PitchRange.speech : PitchRange ℝ).high ≤ 10 ^ 17 := by
    rw [PitchRange.speech_high]
    linarith
  have hlast : (PitchRange.speech : PitchRange ℝ).encode PitchRange.speech.high 7 = 127 := by
    have hplace : Scale.place (PitchRange.speech : PitchRange ℝ).low PitchRange.speech.high (2 ^ 7)
        PitchRange.speech.high = 128 := by
      rw [Scale.place, div_self (by rw [hwidth]; positivity)]
      norm_num
    rw [PitchRange.encode_eq_index _ _ (by decide),
      Scale.index_of_lt (by decide) (by decide) (by rw [hplace]; norm_num), hplace]
    norm_num
  have hfirst : (PitchRange.speech : PitchRange ℝ).encode (10 ^ 17) 7 = 0 := by
    rw [PitchRange.encode_eq_index _ _ (by decide)]
    refine Scale.index_of_le (by decide) (by decide) ?_
    have hplace : (2 : ℝ) ^ 57 ≤ (10 ^ 17 - (PitchRange.speech : PitchRange ℝ).low) /
        (PitchRange.speech.high - PitchRange.speech.low) := by
      rw [hwidth, PitchRange.speech_low, le_div_iff₀ (by positivity)]
      linarith
    rw [Scale.place]
    norm_num at hplace ⊢
    linarith
  refine ⟨hle, hlast, hfirst, fun hmono => ?_⟩
  have horder := hmono hle
  dsimp only at horder
  rw [hlast, hfirst] at horder
  exact absurd horder (by decide)

end Vocoder
