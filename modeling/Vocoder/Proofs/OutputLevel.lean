import Vocoder.Proofs.OverlapRuns

/-!
The level of the samples that leave the decoder, over the real numbers. The peak of a frame is the
greatest of its samples and zero, so a frame that is quiet or all negative is never touched. A frame
that is too loud is multiplied by one factor, which brings its peak as far below the limit as it was
above it. What remains to be cut off is on the negative side only.
-/

namespace Vocoder

namespace Output

/-! ### Peaks -/

theorem isGreatest_foldl (start : ℝ) (frame : List ℝ) :
    IsGreatest {x | x ∈ start :: frame}
      (frame.foldl (fun top x => if top < x then x else top) start) := by
  induction frame generalizing start with
  | nil => simp [IsGreatest, upperBounds]
  | cons y rest ih =>
      obtain ⟨hmem, htop⟩ := ih (if start < y then y else start)
      refine ⟨?_, fun x hx => ?_⟩
      · rcases List.mem_cons.mp hmem with heq | hrest
        · rw [List.foldl_cons, heq]
          split_ifs <;> simp
        · exact List.mem_cons_of_mem _ (List.mem_cons_of_mem _ hrest)
      · have hstart := htop (List.mem_cons_self ..)
        rcases List.mem_cons.mp hx with rfl | hx
        · refine le_trans ?_ hstart
          split_ifs with hlt
          · exact hlt.le
          · exact le_rfl
        · rcases List.mem_cons.mp hx with rfl | hx
          · refine le_trans ?_ hstart
            split_ifs with hlt
            · exact le_rfl
            · exact not_lt.mp hlt
          · exact htop (List.mem_cons_of_mem _ hx)

/-- The peak is the greatest of zero and the samples. -/
theorem isGreatest_peak (frame : List ℝ) : IsGreatest {x | x ∈ 0 :: frame} (peak frame) := by
  rw [peak, zero_point_zero]
  exact isGreatest_foldl 0 frame

theorem lt_peak_iff {level : ℝ} (hlevel : 0 ≤ level) (frame : List ℝ) :
    level < peak frame ↔ ∃ x ∈ frame, level < x := by
  rw [lt_isLUB_iff (isGreatest_peak frame).isLUB]
  simp [hlevel.not_gt]

theorem peak_eq_of_isGreatest {frame : List ℝ} {top : ℝ} (htop : IsGreatest {x | x ∈ frame} top)
    (hpos : 0 ≤ top) : peak frame = top := by
  refine (isGreatest_peak frame).unique ⟨List.mem_cons_of_mem _ htop.1, fun x hx => ?_⟩
  rcases List.mem_cons.mp hx with rfl | hx
  · exact hpos
  · exact htop.2 hx

/-- A positive factor takes the greatest sample to the greatest sample. -/
theorem isGreatest_map_mul {frame : List ℝ} {top g : ℝ} (hg : 0 ≤ g)
    (htop : IsGreatest {x | x ∈ frame} top) :
    IsGreatest {x | x ∈ frame.map (· * g)} (top * g) := by
  refine ⟨List.mem_map.mpr ⟨top, htop.1, rfl⟩, fun x hx => ?_⟩
  obtain ⟨y, hy, rfl⟩ := List.mem_map.mp hx
  exact mul_le_mul_of_nonneg_right (htop.2 hy) hg

theorem peak_map_mul {g : ℝ} (hg : 0 ≤ g) (frame : List ℝ) :
    peak (frame.map (· * g)) = peak frame * g := by
  have hscaled := isGreatest_map_mul hg (isGreatest_peak frame)
  rw [List.map_cons, zero_mul] at hscaled
  exact (isGreatest_peak _).unique hscaled

/-! ### Protection -/

/-- The factor of a frame: the square of the limit over the peak, if the peak exceeds the limit. -/
noncomputable def gain (frame : List ℝ) : ℝ :=
  if 30000 < peak frame then (30000 / peak frame) ^ 2 else 1

theorem protect_eq_map (frame : List ℝ) : protect frame = frame.map (· * gain frame) := by
  have hexcess : 1.0 < peak frame / 30000.0 ↔ 30000 < peak frame := by
    rw [lt_div_iff₀ (by norm_num)]
    norm_num
  simp only [protect, gain, hexcess]
  split_ifs
  · refine List.map_congr_left fun x _ => ?_
    congr 1
    norm_num
    ring
  · simp

theorem gain_eq_one {frame : List ℝ} (h : peak frame ≤ 30000) : gain frame = 1 :=
  if_neg h.not_gt

theorem gain_pos (frame : List ℝ) : 0 < gain frame := by
  unfold gain
  split_ifs with hloud
  · have hpeak : 0 < peak frame := by linarith
    positivity
  · exact one_pos

theorem gain_lt_one_iff (frame : List ℝ) : gain frame < 1 ↔ 30000 < peak frame := by
  unfold gain
  split_ifs with hloud
  · have hpeak : 0 < peak frame := by linarith
    have hratio : 30000 / peak frame < 1 := (div_lt_one hpeak).mpr hloud
    simp only [hloud, iff_true]
    exact pow_lt_one₀ (by positivity) hratio two_ne_zero
  · simp [hloud]

theorem gain_le_one (frame : List ℝ) : gain frame ≤ 1 := by
  by_cases hloud : 30000 < peak frame
  · exact ((gain_lt_one_iff frame).mpr hloud).le
  · exact (gain_eq_one (not_lt.mp hloud)).le

theorem mul_gain {frame : List ℝ} (hloud : 30000 < peak frame) :
    peak frame * gain frame = 30000 ^ 2 / peak frame := by
  have hpeak : peak frame ≠ 0 := by linarith
  rw [gain, if_pos hloud]
  field_simp

theorem peak_protect_le (frame : List ℝ) : peak (protect frame) ≤ 30000 := by
  rw [protect_eq_map, peak_map_mul (gain_pos frame).le]
  by_cases hloud : 30000 < peak frame
  · rw [mul_gain hloud, div_le_iff₀ (by linarith)]
    linarith
  · rw [gain_eq_one (not_lt.mp hloud), mul_one]
    exact not_lt.mp hloud

theorem le_of_mem_protect {frame : List ℝ} {x : ℝ} (hx : x ∈ protect frame) : x ≤ 30000 :=
  ((isGreatest_peak _).2 (List.mem_cons_of_mem _ hx)).trans (peak_protect_le frame)

theorem protect_of_peak_le {frame : List ℝ} (h : peak frame ≤ 30000) : protect frame = frame := by
  rw [protect_eq_map, gain_eq_one h]
  simp

/-! ### Saturation -/

/-- Below the limit of protection nothing but the negative end is cut off, and no sample wraps. -/
theorem toInt_saturate {x : ℝ} (hx : x ≤ 30000) :
    (saturate x).toInt = max (-32767) (Analytic.trunc x) := by
  have hhigh : Analytic.trunc x ≤ 30000 := Analytic.trunc_le (by exact_mod_cast hx)
  rw [saturate, if_neg (by norm_num; linarith)]
  split_ifs with hlow
  · have hle : Analytic.trunc x ≤ -32767 := by
      apply Analytic.trunc_le
      norm_num at hlow ⊢
      exact hlow.le
    rw [max_eq_left hle]
    decide
  · have hle : -32767 ≤ Analytic.trunc x := by
      apply Analytic.le_trunc
      norm_num at hlow ⊢
      exact hlow
    have hword : Analytic.toWord x = Analytic.trunc x := by
      norm_num at hlow
      exact Analytic.toWord_of_bounds (by linarith) (by linarith)
    rw [hword, max_eq_right hle, Int16.toInt_ofInt_of_le (by omega) (by omega)]

/-- Protection bounds the output. It scales all samples by one factor, after which none exceeds the
limit and protecting again changes nothing. So no sample of the decoder is cut off on the positive
side or wraps when it is made whole. -/
theorem ear_protection_bounds_output :
    (∀ frame : List ℝ, ∃ g : ℝ, 0 < g ∧ g ≤ 1 ∧ protect frame = frame.map (· * g) ∧
      (g < 1 ↔ ∃ x ∈ frame, 30000 < x) ∧
      (∀ top, IsGreatest {x | x ∈ frame} top → 30000 < top →
        IsGreatest {x | x ∈ protect frame} (30000 ^ 2 / top)) ∧
      (∀ x ∈ protect frame, x ≤ 30000) ∧ protect (protect frame) = protect frame) ∧
    ∀ (engine : Engine ℝ) (decoder : Decoder ℝ) (model : Model ℝ) (bins : Bins ℝ),
      (model.Fitted → decoder.overlap.size = 2 * subframeSize →
        ∃ sounded, decoder.sound engine model bins = .ok sounded) ∧
      ∀ sounded, decoder.sound engine model bins = .ok sounded →
        ∃ buffer, OverlapAdd.synthesise subframeSize engine.transform decoder.overlap sounded.model
            engine.synthesisWindow.toArray true = .ok buffer ∧
          sounded.samples = (protect (buffer.extract 0 subframeSize).toList).map saturate ∧
          (∀ x ∈ protect (buffer.extract 0 subframeSize).toList, ¬ 32767.0 < x ∧
            (saturate x).toInt = max (-32767) (Analytic.trunc x)) ∧
          ∀ sample ∈ sounded.samples, -32767 ≤ sample.toInt ∧ sample.toInt ≤ 30000 := by
  refine ⟨fun frame => ⟨gain frame, gain_pos frame, gain_le_one frame, protect_eq_map frame, ?_, ?_,
    fun x => le_of_mem_protect, protect_of_peak_le (peak_protect_le frame)⟩,
    fun engine decoder model bins => ⟨fun hmodel hoverlap => ?_, fun sounded hsounded => ?_⟩⟩
  · rw [gain_lt_one_iff, lt_peak_iff (by norm_num)]
  · intro top htop hloud
    obtain rfl := peak_eq_of_isGreatest htop (by linarith)
    rw [protect_eq_map, ← mul_gain hloud]
    exact isGreatest_map_mul (gain_pos frame).le htop
  · obtain ⟨sounded, hsounded, -⟩ := Decoder.yields_sound engine bins hmodel hoverlap
    exact ⟨sounded, hsounded⟩
  · obtain ⟨buffer, -, hbuffer, hsamples, -⟩ := OverlapAdd.exists_of_sound hsounded
    refine ⟨buffer, hbuffer, hsamples, fun x hx => ?_, fun sample hsample => ?_⟩
    · have hle := le_of_mem_protect hx
      exact ⟨by norm_num; linarith, toInt_saturate hle⟩
    · rw [hsamples] at hsample
      obtain ⟨x, hx, rfl⟩ := List.mem_map.mp hsample
      have hle := le_of_mem_protect hx
      rw [toInt_saturate hle]
      exact ⟨le_max_left _ _, max_le (by decide) (Analytic.trunc_le (by simpa using hle))⟩

/-- A frame twice over the limit comes out at half the limit. A decoder whose buffer holds samples
far beyond both ends still gives samples in the range. -/
theorem ear_protection_bounds_output_loud :
    let frame : List ℝ := [100, 60000, -2000]
    IsGreatest {x | x ∈ frame} 60000 ∧ IsGreatest {x | x ∈ protect frame} 15000 ∧
    protect (protect frame) = protect frame ∧
    ∃ (model : Model ℝ) (sounded : Decoder.Sounded ℝ),
      Model.blank.withFundamental PitchRange.speech.low = .ok model ∧
      Decoder.sound (Engine.ofTransform Transform.dft)
        ⟨Array.replicate 80 (10 ^ 6) ++ Array.replicate 80 (-10 ^ 6), model, #[], 1,
          Predictor.start, 0, 0, ⟨1⟩⟩ model (Vector.replicate 512 Phasor.zero) = .ok sounded ∧
      ∀ sample ∈ sounded.samples, -32767 ≤ sample.toInt ∧ sample.toInt ≤ 30000 := by
  intro frame
  obtain ⟨hframes, hsounds⟩ := ear_protection_bounds_output
  obtain ⟨-, -, -, -, -, hgreatest, -, hagain⟩ := hframes frame
  have htop : IsGreatest {x | x ∈ frame} 60000 := by
    simp [frame, IsGreatest, upperBounds]
    norm_num
  have hlowered := hgreatest 60000 htop (by norm_num)
  norm_num at hlowered
  obtain ⟨model, hmodel, hfitted⟩ :=
    Model.yields_withFundamental Model.blank PitchRange.has_low
  obtain ⟨hreturns, hbounds⟩ := hsounds (Engine.ofTransform Transform.dft)
    ⟨Array.replicate 80 (10 ^ 6) ++ Array.replicate 80 (-10 ^ 6), model, #[], 1, Predictor.start,
      0, 0, ⟨1⟩⟩ model (Vector.replicate 512 Phasor.zero)
  obtain ⟨sounded, hsounded⟩ := hreturns hfitted (by simp [subframeSize])
  obtain ⟨-, -, -, -, hsamples⟩ := hbounds sounded hsounded
  exact ⟨htop, hlowered, hagain, model, sounded, hmodel, hsounded, hsamples⟩

end Output

end Vocoder
