import Vocoder.Encoder
import Vocoder.Proofs.ModelRange

/-!
Analysis of a subframe over the real numbers returns for all samples and all memories. The pitch
estimate has a period of 20 to 160 samples, refinement tries positive periods only, and the bands of
all harmonics lie inside the spectrum.
-/

namespace Vocoder

/-! ### The pitch estimate -/

namespace Pitch

theorem yields_peak {α : Type} [Analytic α] {powers : Array α} {first last : Int} (hlow : 0 ≤ first)
    (hle : first ≤ last) (hhigh : last < powers.size) :
    Yields (peak powers first last) fun best => first ≤ best.2 ∧ best.2 ≤ last := by
  refine yields_foldBetween (P := fun _ best => first ≤ best.2 ∧ best.2 ≤ last)
    ⟨Int.le_refl _, hle⟩ (fun bin best hbin hbin' hbest => ?_) fun _ hbest => hbest
  refine (yields_fetch_of_lt (by omega) (by omega)).bind fun power _ => Yields.pure ?_
  split_ifs
  · exact ⟨hbin, by omega⟩
  · exact hbest

theorem yields_subPeak {powers : Array ℝ} {minBin bin : Int} (gmax : ℝ) (lastBin : Int)
    (hmin : 0 ≤ minBin) (hbin : minBin ≤ bin) (hsize : 2 * bin < powers.size)
    (hword : powers.size ≤ 2 ^ 62) :
    Yields (subPeak powers minBin gmax lastBin bin) fun found =>
      ∀ top ∈ found, minBin ≤ top ∧ top ≤ 2 * bin := by
  have hpos : (0 : ℝ) ≤ bin := by exact_mod_cast hmin.trans hbin
  have hbin_word : (bin : ℝ) ≤ 2 ^ 62 := by exact_mod_cast (show bin ≤ 2 ^ 62 by omega)
  have hfirst : Analytic.toWord (0.8 * (Scalar.ofInt bin : ℝ)) ≤ bin := by
    refine Int.lt_add_one_iff.mp (Analytic.toWord_lt ?_ ?_)
    · rw [Analytic.ofInt_real]
      positivity
    · rw [Analytic.ofInt_real]
      push_cast
      norm_num
      linarith
  have hlast : bin ≤ Analytic.toWord (1.2 * (Scalar.ofInt bin : ℝ)) := by
    rw [Analytic.ofInt_real]
    refine Analytic.le_toWord ?_ ?_
    · norm_num
      linarith
    · norm_num
      linarith
  have hlast' : Analytic.toWord (1.2 * (Scalar.ofInt bin : ℝ)) ≤ 2 * bin := by
    refine Int.lt_add_one_iff.mp (Analytic.toWord_lt ?_ ?_)
    · rw [Analytic.ofInt_real]
      positivity
    · rw [Analytic.ofInt_real]
      push_cast
      norm_num
      linarith
  unfold subPeak
  generalize Analytic.toWord (0.8 * (Scalar.ofInt bin : ℝ)) = low at hfirst
  generalize Analytic.toWord (1.2 * (Scalar.ofInt bin : ℝ)) = last at hlast hlast'
  dsimp only
  have hclamped : minBin ≤ (if low < minBin then minBin else low) ∧
      (if low < minBin then minBin else low) ≤ bin := by
    split_ifs <;> omega
  generalize (if low < minBin then minBin else low) = first at hclamped
  generalize (if first < lastBin ∧ lastBin < last then 0.15 * gmax else 0.3 * gmax) = threshold
  refine (yields_peak (by omega) (by omega) (by omega)).bind fun best hbest => ?_
  split_ifs with hinside
  · refine (yields_fetch_of_lt (by omega) (by omega)).bind fun below _ => ?_
    refine (yields_fetch_of_lt (by omega) (by omega)).bind fun above _ => ?_
    split_ifs
    · refine Yields.pure fun top htop => ?_
      cases htop
      omega
    · exact Yields.pure (by simp)
  · exact Yields.pure (by simp)

theorem yields_lowestPeak {powers : Array ℝ} {minBin gmaxBin : Int} (gmax : ℝ) (lastBin : Int)
    (hmin : 1 ≤ minBin) (hsize : gmaxBin < powers.size) (hword : powers.size ≤ 2 ^ 62) (fuel : Nat)
    {multiple best : Int} (hmultiple : 2 ≤ multiple) (hlow : minBin ≤ best)
    (hhigh : best ≤ gmaxBin) :
    Yields (lowestPeak powers minBin gmax gmaxBin lastBin fuel multiple best) fun bin =>
      minBin ≤ bin ∧ bin ≤ gmaxBin := by
  induction fuel generalizing multiple best with
  | zero => exact Yields.ok ⟨hlow, hhigh⟩
  | succ fuel ih =>
      rw [lowestPeak]
      split_ifs with hband
      · have hdouble : 2 * gmaxBin.tdiv multiple ≤ gmaxBin := by
          rw [Int.tdiv_eq_ediv_of_nonneg (by omega)] at hband ⊢
          have hle := Int.ediv_mul_le gmaxBin (show multiple ≠ 0 by omega)
          nlinarith
        refine (yields_subPeak gmax lastBin (by omega) hband (by omega) hword).bind
          fun found hfound => ?_
        cases found with
        | none => exact ih (by omega) hlow hhigh
        | some top =>
            have htop := hfound top rfl
            exact ih (by omega) htop.1 (htop.2.trans hdouble)
      · exact Yields.pure ⟨hlow, hhigh⟩

/-- A fundamental in Hz of a pitch period of 20 to 160 samples. -/
structure InBand (f0 : ℝ) : Prop where
  low : 50 ≤ f0
  high : f0 ≤ 400

theorem yields_fundamental {powers : Array ℝ} (gmax : ℝ) {gmaxBin : Int} (lastF0 : ℝ)
    (hsize : powers.size = 512) (hlow : 16 ≤ gmaxBin) (hhigh : gmaxBin ≤ 128) :
    Yields (fundamental powers maxPeriod gmax gmaxBin lastF0) InBand := by
  have hmin : rateBins.tdiv maxPeriod = 16 := by decide
  unfold fundamental
  dsimp only
  rw [if_neg (by decide), hmin]
  refine (yields_lowestPeak gmax _ (by decide) (by omega) (by omega) _ (Int.le_refl _) hlow
    (Int.le_refl _)).bind fun bin hbin => Yields.pure ?_
  have hbin_low : (16 : ℝ) ≤ bin := by exact_mod_cast hbin.1
  have hbin_high : (bin : ℝ) ≤ 128 := by exact_mod_cast hbin.2.trans hhigh
  simp only [Analytic.ofInt_real, sampleRate, rateBins]
  constructor
  · rw [le_div_iff₀ (by norm_num)]
    push_cast
    linarith
  · rw [div_le_iff₀ (by norm_num)]
    push_cast
    linarith

/-- The period in samples of a fundamental in Hz. -/
structure Estimate.InBand (found : Estimate ℝ) : Prop where
  low : 20 ≤ found.period
  high : found.period ≤ 160

theorem yields_estimate (transform : Transform ℝ) (window : Vector ℝ 64) (memory : Memory ℝ)
    {fresh : List ℝ} (lastF0 : ℝ) (hfresh : fresh.length ≤ 320) :
    Yields (estimate transform window memory fresh lastF0) fun done => done.1.InBand := by
  have hfirst : rateBins.tdiv maxPeriod = 16 := by decide
  have hlast : rateBins.tdiv minPeriod = 128 := by decide
  unfold estimate
  dsimp only
  rw [if_neg (by omega), hfirst, hlast]
  refine (yields_peak (by decide) (by decide) (by rw [Vector.size_toArray]; decide)).bind
    fun best hbest => ?_
  refine (yields_fundamental _ lastF0 (Vector.size_toArray _) hbest.1 hbest.2).bind
    fun f0 hf0 => Yields.pure ?_
  have hpos : 0 < f0 := by linarith [hf0.low]
  constructor
  · simp only [Analytic.ofInt_real, sampleRate]
    rw [le_div_iff₀ hpos]
    push_cast
    linarith [hf0.high]
  · simp only [Analytic.ofInt_real, sampleRate]
    rw [div_le_iff₀ hpos]
    push_cast
    linarith [hf0.low]

end Pitch

/-! ### Refinement -/

namespace Refinement

theorem binsPerRad_real : (binsPerRad : ℝ) = 256 / Real.pi := by
  unfold binsPerRad
  rw [Analytic.turn_real]
  norm_num
  field_simp
  norm_num

/-- The bins of the harmonics go up from one to the next and stop at the end of the spectrum, so
that no place becomes too high for a word. -/
theorem yields_harmonicPower {bins : Array (Phasor ℝ)} (hbins : bins.size = 512) {spacing : ℝ}
    (hspacing : 0 ≤ spacing) (hspacing' : spacing ≤ 512) (count : Nat) {place : ℝ} (power : ℝ)
    (hplace : 0 ≤ place) (hplace' : place ≤ 1024) :
    Yields (harmonicPower bins spacing count place power) fun _ => True := by
  induction count generalizing place power with
  | zero => exact Yields.ok trivial
  | succ count ih =>
      have hbin : Analytic.toWord (place + 0.5) = ⌊place + 0.5⌋ :=
        Analytic.toWord_of_nonneg (by positivity) (by norm_num; linarith)
      have hnonneg : 0 ≤ ⌊place + 0.5⌋ := Int.floor_nonneg.mpr (by positivity)
      rw [harmonicPower, hbin]
      split_ifs with hend
      · exact Yields.pure trivial
      · refine (yields_fetch_of_lt hnonneg (by omega)).bind fun bin _ => ?_
        have hinside : place + 0.5 < 512 := by
          have hlt : ⌊place + 0.5⌋ < 512 := by omega
          exact_mod_cast Int.floor_lt.mp hlt
        norm_num at hinside
        exact ih _ (by linarith) (by linarith)

/-- A fundamental whose period is positive and not below a bound. -/
structure PeriodFrom (bound wo : ℝ) : Prop where
  pos : 0 < wo
  period : bound ≤ Analytic.turn / wo

theorem PeriodFrom.of_period {bound period : ℝ} (hbound : 0 < bound) (h : bound ≤ period) :
    PeriodFrom bound (Analytic.turn / period) := by
  have hperiod := hbound.trans_le h
  have hturn : (0 : ℝ) < Analytic.turn := by
    rw [Analytic.turn_real]
    positivity
  refine ⟨div_pos hturn hperiod, ?_⟩
  rwa [div_div_cancel₀ hturn.ne']

theorem yields_better {bins : Array (Phasor ℝ)} (hbins : bins.size = 512) (count : Nat)
    {bound period : ℝ} {best : Best ℝ} (hbound : 1 ≤ bound) (hperiod : bound ≤ period)
    (hbest : PeriodFrom bound best.wo) :
    Yields (better bins count best period) fun best => PeriodFrom bound best.wo := by
  have hcandidate := PeriodFrom.of_period (zero_lt_one.trans_le hbound) hperiod
  have hspacing : Analytic.turn / period * binsPerRad = 512 / period := by
    rw [binsPerRad_real, Analytic.turn_real]
    field_simp
    norm_num
  have hlow : 0 ≤ 512 / period := div_nonneg (by norm_num) (by linarith)
  have hhigh : 512 / period ≤ 512 := div_le_self (by norm_num) (by linarith)
  rw [← hspacing] at hlow hhigh
  refine (yields_harmonicPower hbins hlow hhigh count 0.0 hlow (by linarith)).bind
    fun power _ => Yields.pure ?_
  split_ifs
  · exact hcandidate
  · exact hbest

theorem yields_tryPeriods {bins : Array (Phasor ℝ)} (hbins : bins.size = 512) (count : Nat)
    {step last bound period : ℝ} (fuel : Nat) {best : Best ℝ} (hstep : 0 ≤ step)
    (hbound : 1 ≤ bound) (hperiod : bound ≤ period) (hbest : PeriodFrom bound best.wo) :
    Yields (tryPeriods bins count step last fuel period best) fun best =>
      PeriodFrom bound best.wo := by
  induction fuel generalizing period best with
  | zero => exact Yields.ok hbest
  | succ fuel ih =>
      rw [tryPeriods]
      split_ifs
      · refine (yields_better hbins count hbound hperiod hbest).bind fun next hnext => ?_
        exact ih (by linarith) hnext
      · exact Yields.pure hbest

theorem yields_search {bins : Array (Phasor ℝ)} (hbins : bins.size = 512) {wo first last step : ℝ}
    (hstep : 0 ≤ step) (hfirst : 1 ≤ first) (hwo : PeriodFrom first wo) :
    Yields (search bins wo first last step) (PeriodFrom first) :=
  (yields_tryPeriods hbins _ _ hstep hfirst le_rfl hwo).bind fun _ hbest => Yields.pure hbest

theorem yields_refine {model : Model ℝ} {bins : Array (Phasor ℝ)} (hbins : bins.size = 512)
    (hmodel : PeriodFrom 20 model.wo) :
    Yields (refine PitchRange.speech model bins) Model.Fitted := by
  have hperiod := hmodel.period
  have hcoarse : PeriodFrom (Analytic.turn / model.wo - 5.0) model.wo :=
    ⟨hmodel.pos, by norm_num⟩
  refine (yields_search hbins (by norm_num) (by norm_num; linarith) hcoarse).bind fun wo hwo => ?_
  have hperiod' := hwo.period
  norm_num at hperiod'
  have hfine : PeriodFrom (Analytic.turn / wo - 1.0) wo := ⟨hwo.pos, by norm_num⟩
  refine (yields_search hbins (by norm_num) (by norm_num; linarith) hfine).bind fun wo _ => ?_
  exact Model.yields_withFundamental _ (PitchRange.has_clamp wo)

end Refinement

/-! ### Bands -/

namespace Amplitudes

theorem bandEdge_eq {wo : ℝ} (hwo : 0 < wo) {m : Int} (hm : 1 ≤ m)
    (hband : m * wo ≤ 2 * Real.pi) :
    bandEdge wo m = ⌊((m : ℝ) - 1 / 2) * (wo * 256 / Real.pi) + 1 / 2⌋ := by
  have hm' : (1 : ℝ) ≤ m := by exact_mod_cast hm
  have hpi := Real.pi_pos
  have hplace : ((m : ℝ) - 0.5) * wo * (256 / Real.pi) + 0.5 =
      (m - 1 / 2) * (wo * 256 / Real.pi) + 1 / 2 := by
    norm_num
    ring
  have hnonneg : 0 ≤ ((m : ℝ) - 1 / 2) * (wo * 256 / Real.pi) + 1 / 2 := by
    have hhalf : (0 : ℝ) ≤ m - 1 / 2 := by linarith
    positivity
  have hword : ((m : ℝ) - 1 / 2) * (wo * 256 / Real.pi) + 1 / 2 < 2 ^ 63 := by
    have hle : ((m : ℝ) - 1 / 2) * (wo * 256 / Real.pi) ≤ 512 := by
      rw [← mul_div_assoc, div_le_iff₀ hpi]
      linarith
    linarith
  rw [bandEdge, Analytic.ofInt_real, Refinement.binsPerRad_real, hplace,
    Analytic.toWord_of_nonneg hnonneg hword]

theorem bandEdge_nonneg {model : Model ℝ} (hmodel : model.Fitted) {m : Int} (hm : 1 ≤ m)
    (hcount : m ≤ model.count) : 0 ≤ bandEdge model.wo m := by
  have hm' : (1 : ℝ) ≤ m := by exact_mod_cast hm
  have hhalf : (0 : ℝ) ≤ m - 1 / 2 := by linarith
  have hwo := hmodel.wo.pos
  have hpi := Real.pi_pos
  rw [bandEdge_eq hwo hm (hmodel.next_harmonic_le (by omega))]
  exact Int.floor_nonneg.mpr (by positivity)

theorem bandEnd_lt {model : Model ℝ} (hmodel : model.Fitted) {m : Int} (hm : 1 ≤ m)
    (hcount : m ≤ model.count) : bandEnd model.wo m < 512 := by
  have hpi := Real.pi_pos
  have hm' : (1 : ℝ) ≤ m := by exact_mod_cast hm
  have hwo := hmodel.wo.pos
  have htenth := hmodel.wo.le_tenth
  have hharmonic := hmodel.harmonic_le hcount
  have hplace : (m + 0.5) * model.wo * (256 / Real.pi) ≤ 269 := by
    rw [← mul_div_assoc, div_le_iff₀ hpi]
    norm_num
    nlinarith
  unfold bandEnd
  rw [Analytic.ofInt_real, Refinement.binsPerRad_real]
  refine Analytic.toWord_lt ?_ ?_
  · positivity
  · norm_num at hplace ⊢
    linarith

theorem yields_amplitude {model : Model ℝ} {bins : Array (Phasor ℝ)} (hmodel : model.Fitted)
    (hbins : bins.size = 512) {m : Int} (hm : 1 ≤ m) (hcount : m ≤ model.count) :
    Yields (amplitude bins model.wo m) fun _ => True := by
  have hlow := bandEdge_nonneg hmodel hm hcount
  have hhigh := bandEnd_lt hmodel hm hcount
  refine Yields.bind (yields_sumBetween fun i hi hi' => ?_) fun _ _ => Yields.pure trivial
  exact (yields_fetch_of_lt (by omega) (by omega)).bind fun _ _ => Yields.pure trivial

theorem yields_estimate {model : Model ℝ} {bins : Array (Phasor ℝ)} (hmodel : model.Fitted)
    (hbins : bins.size = 512) : Yields (estimate model bins) Model.Fitted :=
  (model.amps.yields_fill hmodel.count_bounds.2
    fun _ hm hcount => yields_amplitude hmodel hbins hm hcount).bind
      fun _ _ => Yields.pure ⟨hmodel.wo, hmodel.count⟩

end Amplitudes

/-! ### Voicing -/

namespace Voicing

theorem harmonicsTo_bounds {count : Int} (hcount : 0 ≤ count) (hword : count < 2 ^ 63) {hz : ℝ}
    (hlow : 0 ≤ hz) (hhigh : hz ≤ 4000) :
    0 ≤ harmonicsTo count hz ∧ harmonicsTo count hz ≤ count := by
  have hcount' : (0 : ℝ) ≤ count := by exact_mod_cast hcount
  have hword' : (count : ℝ) < 2 ^ 63 := by exact_mod_cast hword
  have hnonneg : (0 : ℝ) ≤ Scalar.ofInt count * hz / 4000.0 := by
    rw [Analytic.ofInt_real]
    positivity
  have hshare : (Scalar.ofInt count : ℝ) * hz / 4000.0 ≤ count := by
    rw [Analytic.ofInt_real, div_le_iff₀ (by norm_num)]
    norm_num
    nlinarith
  refine ⟨Analytic.le_toWord (hshare.trans_lt hword') (by exact_mod_cast hnonneg),
    Int.lt_add_one_iff.mp (Analytic.toWord_lt hnonneg ?_)⟩
  push_cast
  linarith

theorem yields_energy {α : Type} [Analytic α] (amps : Harmonics α) {first last : Int}
    (hlow : 0 ≤ first) (hhigh : last ≤ 80) : Yields (energy amps first last) fun _ => True :=
  yields_sumBetween fun _ hm hm' =>
    (amps.yields_value (by omega) (by omega)).bind fun _ _ => Yields.pure trivial

theorem place_real (wo m : ℝ) : place wo m = m * (wo * (256 / Real.pi)) := by
  unfold place
  rw [Analytic.turn_real]
  norm_num
  field_simp
  ring

/-- Every bin of the band of a harmonic lies inside the spectrum, and so does its place in the
spectrum of the window when that is moved to the harmonic. -/
theorem band_bounds {model : Model ℝ} (hmodel : model.Fitted) {m i : Int} (hm : 1 ≤ m)
    (hcount : m ≤ model.count)
    (hfirst : Analytic.ceilInt (place model.wo (Scalar.ofInt m - 0.5)) ≤ i)
    (hlast : i < Analytic.ceilInt (place model.wo (Scalar.ofInt m + 0.5))) :
    (0 ≤ i ∧ i < 512) ∧
      0 ≤ Analytic.toWord (256.0 - place model.wo (Scalar.ofInt m) + 0.5) + i ∧
        Analytic.toWord (256.0 - place model.wo (Scalar.ofInt m) + 0.5) + i < 512 := by
  have hpi := Real.pi_pos
  have hm' : (1 : ℝ) ≤ m := by exact_mod_cast hm
  have hharmonic := hmodel.harmonic_le hcount
  rw [place_real, Analytic.ofInt_real] at hfirst hlast ⊢
  -- Harmonics are `spacing` bins apart.
  have hpos : 0 < model.wo * (256 / Real.pi) := by
    have := hmodel.wo.pos
    positivity
  have hspacing : model.wo * (256 / Real.pi) ≤ 26 := by
    rw [← mul_div_assoc, div_le_iff₀ hpi]
    linarith [hmodel.wo.le_tenth]
  have hplace : m * (model.wo * (256 / Real.pi)) ≤ 256 := by
    rw [← mul_div_assoc, ← mul_div_assoc, div_le_iff₀ hpi]
    linarith
  generalize model.wo * (256 / Real.pi) = spacing at *
  norm_num at hfirst hlast ⊢
  have hedge : (m - 1 / 2) * spacing ≤ 256 := by nlinarith
  have hedge' : (m + 1 / 2) * spacing ≤ 512 := by nlinarith
  rw [Analytic.ceilInt_of_bounds (by nlinarith) (by linarith), Int.ceil_le] at hfirst
  rw [Analytic.ceilInt_of_bounds (by nlinarith) (by linarith), Int.lt_ceil] at hlast
  have hnonneg : (0 : ℝ) ≤ 256 - m * spacing + 1 / 2 := by linarith
  rw [Analytic.toWord_of_nonneg hnonneg (by nlinarith)]
  have hoffset := Int.floor_nonneg.mpr hnonneg
  have hoffset' := Int.floor_le (256 - m * spacing + 1 / 2)
  generalize ⌊256 - m * spacing + 1 / 2⌋ = offset at hoffset hoffset'
  have hlow : (0 : ℝ) ≤ i := by nlinarith
  have hhigh : (i : ℝ) < 512 := by nlinarith
  have hsum : (offset : ℝ) + i < 512 := by nlinarith
  have hlow' : 0 ≤ i := by exact_mod_cast hlow
  exact ⟨⟨hlow', by exact_mod_cast hhigh⟩, by omega, by exact_mod_cast hsum⟩

theorem yields_missed {model : Model ℝ} {bins : Array (Phasor ℝ)} {response : Array ℝ}
    (hmodel : model.Fitted) (hbins : bins.size = 512) (hresponse : response.size = 512) {m : Int}
    (hm : 1 ≤ m) (hcount : m ≤ model.count) (sum : ℝ) :
    Yields (missed bins response model.wo m sum) fun _ => True := by
  refine Yields.bind (yields_foldBetween_of_step fun i acc hi hi' => ?_)
    fun _ _ => yields_sumBetween fun i hi hi' => ?_
  · have hbounds := band_bounds hmodel hm hcount hi hi'
    refine (yields_fetch_of_lt (by omega) (by omega)).bind fun bin _ => ?_
    exact (yields_fetch_of_lt (by omega) (by omega)).bind fun w _ => Yields.pure trivial
  · have hbounds := band_bounds hmodel hm hcount hi hi'
    refine (yields_fetch_of_lt (by omega) (by omega)).bind fun bin _ => ?_
    exact (yields_fetch_of_lt (by omega) (by omega)).bind fun w _ => Yields.pure trivial

theorem yields_evidence {model : Model ℝ} {bins : Array (Phasor ℝ)} {response : Array ℝ}
    (hmodel : model.Fitted) (hbins : bins.size = 512) (hresponse : response.size = 512) :
    Yields (evidence model bins response) fun _ => True := by
  obtain ⟨hten, heighty⟩ := hmodel.count_bounds
  have hcount : 0 ≤ model.count := by omega
  have hword : model.count < 2 ^ 63 := by omega
  have hlow := harmonicsTo_bounds hcount hword (show (0 : ℝ) ≤ 1000.0 by norm_num) (by norm_num)
  have hhalf := harmonicsTo_bounds hcount hword (show (0 : ℝ) ≤ 2000.0 by norm_num) (by norm_num)
  have htop := harmonicsTo_bounds hcount hword (show (0 : ℝ) ≤ 4000.0 by norm_num) (by norm_num)
  refine (yields_energy model.amps (by decide) (by omega)).bind fun signal _ => ?_
  refine Yields.bind (yields_foldBetween_of_step fun m sum hm hm' =>
    yields_missed hmodel hbins hresponse hm (by omega) sum) fun error _ => ?_
  refine (yields_energy model.amps (by decide) (by omega)).bind fun below _ => ?_
  refine (yields_energy model.amps (by omega) (by omega)).bind fun above _ => ?_
  exact Yields.pure trivial

theorem yields_estimate {model : Model ℝ} {bins : Array (Phasor ℝ)} {response : Array ℝ}
    (hmodel : model.Fitted) (hbins : bins.size = 512) (hresponse : response.size = 512) :
    Yields (estimate model bins response) fun done => done.1.Fitted :=
  (yields_evidence hmodel hbins hresponse).bind fun _ _ => Yields.pure ⟨hmodel.wo, hmodel.count⟩

end Voicing

/-! ### Subframes -/

theorem Engine.yields_speechBins (engine : Engine ℝ) {speech : Array ℝ} (h : 299 ≤ speech.size) :
    Yields (engine.speechBins speech) fun _ => True := by
  rw [speechBins, dif_pos h]
  exact Yields.ok trivial

/-- Analysis of a subframe returns a model of speech, whatever the encoder remembers. -/
theorem Encoder.yields_analyse (engine : Engine ℝ) (encoder : Encoder ℝ) (fresh : Vector ℝ 80)
    (model : Model ℝ) :
    Yields (encoder.analyse engine fresh model) fun done => done.1.Fitted := by
  refine (engine.yields_speechBins (by rw [Vector.size_toArray]; decide)).bind fun bins _ => ?_
  refine (Pitch.yields_estimate engine.transform engine.pitchWindow encoder.pitch
    encoder.lastEstimate (by simp)).bind fun found hfound => ?_
  refine (Refinement.yields_refine (Vector.size_toArray _)
    (Refinement.PeriodFrom.of_period (by norm_num) hfound.low)).bind fun refined hrefined => ?_
  refine (Amplitudes.yields_estimate hrefined (Vector.size_toArray _)).bind
    fun measured hmeasured => ?_
  refine (Voicing.yields_estimate hmeasured (Vector.size_toArray _) (Vector.size_toArray _)).bind
    fun done hdone => ?_
  exact Yields.pure ⟨hdone.wo, hdone.count⟩

end Vocoder
