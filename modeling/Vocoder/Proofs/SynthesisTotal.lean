import Vocoder.Decoder
import Vocoder.Proofs.ModelRange

/-!
Synthesis of a subframe over the real numbers returns for every model of speech. Its harmonics are
few enough for the vectors of a model, and their bands and bins lie inside the spectra. No stage
changes the fundamental of a model.
-/

namespace Vocoder

/-! ### Amplitudes -/

namespace Envelope

/-- The filters that an envelope is sampled from. All coefficients up to the order are there. The
weighting of the post filter takes the first coefficient in any case, and has to fit a block. -/
structure Samples {α : Type} (settings : PostFilter α) (filter : Array α) (order : Int) : Prop where
  low : -1 ≤ order
  size : order < filter.size
  weighting : settings.enabled = true → 0 < filter.size ∧ order < 512

theorem Samples.of_size {α : Type} (settings : PostFilter α) {filter : Array α} {order : Int}
    (horder : 0 ≤ order) (horder' : order < 512) (hfilter : (filter.size : Int) = order + 1) :
    Samples settings filter order :=
  ⟨by omega, by omega, fun _ => ⟨by omega, horder'⟩⟩

variable {α : Type} [Analytic α]

theorem size_powers (bins : Bins α) : (powers bins).size = 256 := by
  simp [powers]

section Filters

variable (transform : Transform α) {filter : Array α} {order : Int}

theorem yields_filterBins (hlow : -1 ≤ order) (hsize : order < filter.size) :
    Yields (filterBins transform filter order) fun _ => True :=
  (yields_slice (by omega) (by omega) (by omega)).bind fun _ _ => Yields.pure trivial

theorem yields_weightingBins (gamma : α) (hfirst : 0 < filter.size) (hsize : order < filter.size)
    (hblock : order < 512) : Yields (weightingBins transform filter order gamma) fun _ => True := by
  refine (yields_slice (by omega) (by omega) (by omega)).bind fun taps htaps => ?_
  dsimp only
  rw [if_neg (by omega)]
  exact Yields.pure trivial

/-- Emphasis multiplies every power by a square. -/
theorem yields_emphasise {powers : Array α} (weighting : Bins α) (beta : α)
    (hpowers : powers.size ≤ 512) :
    Yields (emphasise powers weighting beta) fun shaped => shaped.size = powers.size ∧
      ∀ (i : Nat) x, shaped[i]? = some x → ∃ p root, powers[i]? = some p ∧
        x = p * (Analytic.pow root beta * Analytic.pow root beta) := by
  refine yields_tabulate_at fun i hi => ?_
  refine (yields_fetch_at rfl hi).bind fun power hpower => ?_
  refine (yields_fetch_of_lt (by omega) (by rw [Vector.size_toArray]; omega)).bind fun bin _ => ?_
  exact Yields.pure ⟨power, _, hpower, rfl⟩

theorem yields_postFilter {powers : Array α} (settings : PostFilter α) (energy : α)
    (hpowers : powers.size ≤ 512) (hfirst : 0 < filter.size) (hsize : order < filter.size)
    (hblock : order < 512) :
    Yields (postFilter transform powers filter order settings energy) fun shaped =>
      shaped.size = powers.size := by
  refine (yields_weightingBins transform settings.gamma hfirst hsize hblock).bind
    fun weighting _ => ?_
  refine (yields_emphasise weighting settings.beta hpowers).bind fun shaped hshaped => ?_
  refine Yields.pure ?_
  split_ifs
  · rw [boostBass, Array.size_mapIdx, Array.size_map, hshaped.1]
  · rw [Array.size_map, hshaped.1]

theorem yields_shape {powers : Array α} {settings : PostFilter α} (energy : α)
    (hpowers : powers.size ≤ 512) (h : Samples settings filter order) :
    Yields (shape transform powers filter order settings energy) fun shaped =>
      shaped.size = powers.size := by
  unfold shape
  split_ifs with henabled
  · obtain ⟨hfirst, hblock⟩ := h.weighting henabled
    exact yields_postFilter transform settings energy hpowers hfirst h.size hblock
  · exact Yields.ok (Array.size_map ..)

end Filters

theorem bandEdge_nonneg {wo m : ℝ} (hwo : 0 < wo) (hm : 0 ≤ m) (hband : m * wo ≤ 2 * Real.pi) :
    0 ≤ bandEdge wo m := by
  have hpi := Real.pi_pos
  have hrad : (radPerBin : ℝ) = Real.pi / 256 := by
    rw [radPerBin, Analytic.turn_real]
    norm_num
    ring
  have hplace : m * wo / radPerBin ≤ 512 := by
    rw [hrad, div_le_iff₀ (by positivity)]
    linarith
  have hnonneg : 0 ≤ m * wo / radPerBin := by
    rw [hrad]
    positivity
  refine Analytic.le_toWord ?_ ?_
  · norm_num
    linarith
  · norm_num
    linarith

/-- The band of a harmonic below the sampling rate starts inside the spectrum. -/
theorem bandEdge_half_nonneg {wo : ℝ} (hwo : 0 < wo) {m : Int} (hm : 1 ≤ m)
    (hband : m * wo ≤ 2 * Real.pi) : 0 ≤ bandEdge wo ((m : ℝ) - 0.5) := by
  have hm' : (1 : ℝ) ≤ m := by exact_mod_cast hm
  apply bandEdge_nonneg hwo
  · norm_num
    linarith
  · norm_num
    linarith

theorem yields_amplitude {powers : Array ℝ} {wo : ℝ} {m : Int} (hpowers : powers.size = 256)
    (hwo : 0 < wo) (hm : 1 ≤ m) (hband : m * wo ≤ 2 * Real.pi) :
    Yields (amplitude powers wo m) fun _ => True := by
  have hfirst : 0 ≤ bandEdge wo ((Scalar.ofInt m : ℝ) - 0.5) := bandEdge_half_nonneg hwo hm hband
  refine Yields.bind (yields_sumBetween fun i hlow hhigh => ?_) fun _ _ => Yields.pure trivial
  exact yields_fetch_of_lt (by omega) (by omega)

/-- Sampling an envelope returns a model with the same fundamental. -/
theorem yields_sample (transform : Transform ℝ) {filter : Array ℝ} {order : Int} {model : Model ℝ}
    (energy : ℝ) {settings : PostFilter ℝ} (hmodel : model.Fitted)
    (h : Samples settings filter order) :
    Yields (sample transform filter order model energy settings) fun sampled =>
      sampled.model.Fitted := by
  obtain ⟨hlow, hhigh⟩ := hmodel.count_bounds
  refine (yields_filterBins transform h.low h.size).bind fun bins _ => ?_
  have hpowers := size_powers bins
  refine (yields_shape transform energy (by omega) h).bind fun shaped hsize => ?_
  rw [hpowers] at hsize
  refine Yields.bind (yields_foldBetween_of_step fun m acc hm hm' => ?_) fun _ _ => ?_
  · have hband := hmodel.next_harmonic_le (show m ≤ model.count + 1 by omega)
    refine (yields_amplitude hsize hmodel.wo.pos hm hband).bind fun new _ => ?_
    refine (acc.1.yields_value (by omega) (by omega)).bind fun old _ => ?_
    exact (acc.1.yields_put (by omega) (by omega) new).bind fun _ _ => Yields.pure trivial
  · exact Yields.pure ⟨hmodel.wo, hmodel.count⟩

theorem yields_correct {model : Model ℝ} (hmodel : model.Fitted) :
    Yields (correct model) Model.Fitted := by
  unfold correct
  split_ifs
  · refine (model.amps.yields_value (by omega) (by omega)).bind fun amp _ => ?_
    refine (model.amps.yields_put (by omega) (by omega) _).bind fun amps _ => ?_
    exact Yields.pure ⟨hmodel.wo, hmodel.count⟩
  · exact Yields.pure hmodel

end Envelope

/-! ### Phases -/

namespace Phase

theorem yields_sample {model : Model ℝ} (bins : Bins ℝ) (hmodel : model.Fitted) :
    Yields (sample model bins) fun _ => True := by
  obtain ⟨hlow, hhigh⟩ := hmodel.count_bounds
  refine Harmonics.yields_fill _ hhigh fun m hm hcount => ?_
  have hbin := Envelope.bandEdge_nonneg hmodel.wo.pos
    (show (0 : ℝ) ≤ Scalar.ofInt m by rw [Analytic.ofInt_real]; exact_mod_cast (by omega))
    (hmodel.next_harmonic_le (by omega))
  refine Yields.bind (yields_fetch_of_lt ?_ ?_) fun bin _ => Yields.pure trivial
  · exact le_min hbin (by decide)
  · rw [Vector.size_toArray]
    exact lt_of_le_of_lt (min_le_right _ _) (by decide)

theorem yields_synthesise (samples : Int) {model : Model ℝ} (pulse : ℝ)
    (response : Harmonics (Phasor ℝ)) (noise : NoiseSource) (hmodel : model.Fitted) :
    Yields (synthesise samples model pulse response noise) fun phased => phased.model.Fitted := by
  obtain ⟨hlow, hhigh⟩ := hmodel.count_bounds
  refine Yields.bind (yields_foldBetween_of_step fun m acc hm hm' => ?_) fun _ _ => ?_
  · refine (response.yields_value (by omega) (by omega)).bind fun a _ => ?_
    exact (acc.1.yields_put (by omega) (by omega) _).bind fun _ _ => Yields.pure trivial
  · exact Yields.pure ⟨hmodel.wo, hmodel.count⟩

end Phase

namespace Background

theorem yields_level {model : Model ℝ} (hhigh : model.count ≤ 80) :
    Yields (level model) fun _ => True := by
  refine Yields.bind (yields_sumBetween fun m hm hm' => ?_) fun _ _ => Yields.pure trivial
  exact (model.amps.yields_value (by omega) (by omega)).bind fun _ _ => Yields.pure trivial

theorem yields_treat {model : Model ℝ} (estimate : ℝ) (noise : NoiseSource)
    (hhigh : model.count ≤ 80) :
    Yields (treat model estimate noise) fun treated =>
      treated.model.wo = model.wo ∧ treated.model.count = model.count := by
  refine (yields_level hhigh).bind fun level _ => ?_
  dsimp only
  split_ifs
  · refine Yields.bind (yields_foldBetween_of_step fun m acc hm hm' => ?_) fun _ _ => ?_
    · refine (model.amps.yields_value (by omega) (by omega)).bind fun a _ => ?_
      split_ifs
      · exact (acc.1.yields_put (by omega) (by omega) _).bind fun _ _ => Yields.pure trivial
      · exact Yields.pure trivial
    · exact Yields.pure ⟨rfl, rfl⟩
  · exact Yields.pure ⟨rfl, rfl⟩

end Background

/-! ### Samples -/

namespace OverlapAdd

/-- The bin of a harmonic is the nearest one to its frequency, below the middle of the spectrum. -/
theorem bin_eq {model : Model ℝ} (h : model.Fitted) {m : Int} (hm : 0 ≤ m)
    (hcount : m ≤ model.count) :
    bin model.wo m = min ⌊m * (model.wo * 256 / Real.pi) + 1 / 2⌋ 255 := by
  have hm' : (0 : ℝ) ≤ m := by exact_mod_cast hm
  have hwo := h.wo.pos
  have hpi := Real.pi_pos
  have hplace : (m : ℝ) * model.wo * 512.0 / Analytic.turn + 0.5 =
      m * (model.wo * 256 / Real.pi) + 1 / 2 := by
    rw [Analytic.turn_real]
    norm_num
    field_simp
    ring
  have hnonneg : 0 ≤ (m : ℝ) * (model.wo * 256 / Real.pi) + 1 / 2 := by positivity
  have hword : (m : ℝ) * (model.wo * 256 / Real.pi) + 1 / 2 < 2 ^ 63 := by
    have hle : (m : ℝ) * (model.wo * 256 / Real.pi) ≤ 256 := by
      rw [← mul_div_assoc, div_le_iff₀ hpi]
      linarith [h.harmonic_le hcount]
    linarith
  rw [bin, Analytic.ofInt_real, hplace, Analytic.toWord_of_nonneg hnonneg hword]

/-- Harmonics of speech are more than three bins apart. -/
theorem spacing_ge {wo : ℝ} (hwo : PitchRange.speech.Has wo) : 16 / 5 ≤ wo * 256 / Real.pi := by
  have hlow := hwo.low
  rw [PitchRange.speech_low] at hlow
  rw [le_div_iff₀ Real.pi_pos]
  linarith

theorem bin_bounds {model : Model ℝ} (h : model.Fitted) {m : Int} (hm : 1 ≤ m)
    (hcount : m ≤ model.count) : 3 ≤ bin model.wo m ∧ bin model.wo m ≤ 255 := by
  have hspacing := spacing_ge h.wo
  have hm' : (1 : ℝ) ≤ m := by exact_mod_cast hm
  rw [bin_eq h (by omega) hcount]
  refine ⟨le_min (Int.le_floor.mpr ?_) (by decide), min_le_right _ _⟩
  push_cast
  nlinarith

theorem yields_putBin {α : Type} (bins : Bins α) {i : Int} (x : Phasor α) (hlow : 0 ≤ i)
    (hhigh : i < 512) : Yields (putBin bins i x) fun _ => True := by
  rw [putBin, if_pos ⟨hlow, hhigh⟩]
  exact Yields.ok trivial

theorem yields_spectrum {model : Model ℝ} (hmodel : model.Fitted) :
    Yields (spectrum model) fun _ => True := by
  obtain ⟨hlow, hhigh⟩ := hmodel.count_bounds
  refine yields_foldBetween_of_step fun m bins hm hm' => ?_
  obtain ⟨hbin, hbin'⟩ := bin_bounds hmodel hm (by omega)
  refine (model.amps.yields_value (by omega) (by omega)).bind fun amp _ => ?_
  refine (model.phases.yields_value (by omega) (by omega)).bind fun phase _ => ?_
  refine (yields_putBin bins _ (by omega) (by omega)).bind fun bins _ => ?_
  exact yields_putBin bins _ (by omega) (by omega)

theorem yields_overlap {α : Type} [Analytic α] {n : Nat} {frame window buffer : Array α}
    (shift : Bool) (hn : n < 512) (hframe : frame.size = 512) (hwindow : window.size = 2 * n)
    (hbuffer : buffer.size = 2 * n) :
    Yields (overlap n frame window buffer shift) fun sums => sums.size = 2 * n := by
  unfold overlap
  dsimp only
  rw [if_neg (by omega)]
  refine Yields.bind (yields_tabulate (P := fun _ => True) fun i hi => ?_) fun sums hsums => ?_
  · refine (yields_fetch_of_lt (by omega) (by omega)).bind fun w _ => ?_
    split_ifs
    · refine (yields_fetch_of_lt (by omega) (by omega)).bind fun old _ => ?_
      exact (yields_fetch_of_lt (by omega) (by omega)).bind fun _ _ => Yields.pure trivial
    · refine (yields_fetch_of_lt (by omega) (by omega)).bind fun old _ => ?_
      exact (yields_fetch_of_lt (by omega) (by omega)).bind fun _ _ => Yields.pure trivial
    · refine (yields_fetch_of_lt (by omega) (by omega)).bind fun x _ => ?_
      exact Yields.pure trivial
    · refine (yields_fetch_of_lt (by omega) (by omega)).bind fun x _ => ?_
      exact (yields_fetch_of_lt (by omega) (by omega)).bind fun _ _ => Yields.pure trivial
  · exact Yields.pure (by rw [Array.size_append, Array.size_extract, hsums.1, hbuffer]; omega)

/-- Only a buffer of two subframes is overlapped, and it keeps its size. -/
theorem size_of_overlap {α : Type} [Analytic α] {n : Nat} {frame window buffer next : Array α}
    {shift : Bool} (h : overlap n frame window buffer shift = .ok next) :
    2 * n ≤ buffer.size ∧ next.size = buffer.size := by
  unfold overlap at h
  dsimp only at h
  by_cases hshort : buffer.size < 2 * n
  · rw [if_pos hshort] at h
    cases h
  rw [if_neg hshort] at h
  obtain ⟨sums, hsums, h⟩ := bind_eq_ok.mp h
  obtain rfl := pure_eq_ok.mp h
  rw [Array.size_append, tabulate_size _ _ _ hsums, Array.size_extract]
  omega

end OverlapAdd

theorem Output.length_protect {α : Type} [Analytic α] (frame : List α) :
    (protect frame).length = frame.length := by
  unfold protect
  dsimp only
  split_ifs
  · rw [List.length_map]
  · rfl

/-- A subframe of speech gives all its samples, and the buffer keeps its size. -/
theorem Decoder.yields_sound (engine : Engine ℝ) {decoder : Decoder ℝ} {model : Model ℝ}
    (bins : Bins ℝ) (hmodel : model.Fitted) (hoverlap : decoder.overlap.size = 2 * subframeSize) :
    Yields (decoder.sound engine model bins) fun sounded =>
      sounded.samples.length = subframeSize ∧ sounded.model.Fitted ∧
        sounded.decoder.overlap.size = 2 * subframeSize := by
  refine (Phase.yields_sample bins hmodel).bind fun response _ => ?_
  refine (Phase.yields_synthesise _ decoder.pulse response decoder.noise hmodel).bind
    fun phased hphased => ?_
  refine (Background.yields_treat decoder.background phased.noise hphased.count_bounds.2).bind
    fun treated hkept => ?_
  have htreated : treated.model.Fitted :=
    ⟨hkept.1 ▸ hphased.wo, by rw [hkept.2, hkept.1]; exact hphased.count⟩
  have hbuffer : Yields (OverlapAdd.synthesise subframeSize engine.transform decoder.overlap
      treated.model engine.synthesisWindow.toArray true)
      fun buffer => buffer.size = 2 * subframeSize :=
    (OverlapAdd.yields_spectrum htreated).bind fun spectrum _ =>
      OverlapAdd.yields_overlap true (by decide) (Vector.size_toArray _) (Vector.size_toArray _)
        hoverlap
  refine hbuffer.bind fun buffer hsize => Yields.pure ⟨?_, htreated, ?_⟩
  · rw [List.length_map, Output.length_protect, List.length_take, Array.length_toList, hsize]
    omega
  · rw [List.size_toArray, List.length_append, Output.length_protect, List.length_take,
      List.length_drop, Array.length_toList, hsize]
    omega

end Vocoder
