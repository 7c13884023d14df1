import Vocoder.Proofs.FourierSum
import Vocoder.Proofs.SynthesisTotal

/-!
Synthesis loses no harmonic. The harmonics of a fundamental of speech are more than three bins
apart, so rounding gives each a bin of its own, and the limit below the middle of the spectrum,
which only the last one can meet, does not bring two together. Writing a harmonic into its bin is
then the same as adding it, and the spectrum is the sum of what the harmonics put into their bins
and the bins opposite. Its inverse transform is a sum of cosines.
-/

namespace Vocoder

open scoped ComplexConjugate

/-- The value of a harmonic, zero beyond the last one. -/
def Harmonics.level (values : Harmonics ℝ) (m : ℤ) : ℝ := values[m.toNat]?.getD 0

theorem Harmonics.value_eq_level (values : Harmonics ℝ) {m : ℤ} (hlow : 0 ≤ m) (hhigh : m ≤ 80) :
    values.value m = .ok (values.level m) := by
  have hlt : m.toNat < 81 := by omega
  refine fetch_eq_ok.mpr ⟨hlow, ?_⟩
  rw [Vector.getElem?_toArray, Harmonics.level, Vector.getElem?_eq_getElem hlt, Option.getD_some]

namespace OverlapAdd

/-! ### Bins -/

/-- Of two harmonics the higher one has the higher bin. -/
theorem bin_lt_bin {model : Model ℝ} (h : model.Fitted) {m m' : ℤ} (hm : 1 ≤ m) (hlt : m < m')
    (hcount : m' ≤ model.count) : bin model.wo m < bin model.wo m' := by
  have hspacing := spacing_ge h.wo
  have hstep : (m : ℝ) + 1 ≤ m' := by exact_mod_cast hlt
  have htop : (m' : ℝ) * (model.wo * 256 / Real.pi) ≤ 256 := by
    rw [← mul_div_assoc, div_le_iff₀ Real.pi_pos]
    linarith [h.harmonic_le hcount]
  rw [bin_eq h (by omega) (by omega), bin_eq h (by omega) hcount]
  set spacing := model.wo * 256 / Real.pi
  have hnext : (m : ℝ) * spacing + spacing ≤ m' * spacing := by nlinarith
  have hfloor : ⌊(m : ℝ) * spacing + 1 / 2⌋ + 1 ≤ ⌊(m' : ℝ) * spacing + 1 / 2⌋ := by
    rw [← Int.floor_add_one]
    exact Int.floor_mono (by linarith)
  have hbelow : ⌊(m : ℝ) * spacing + 1 / 2⌋ < 255 := by
    rw [Int.floor_lt]
    push_cast
    linarith
  omega

theorem bin_injOn {model : Model ℝ} (h : model.Fitted) :
    Set.InjOn (bin model.wo) (Set.Icc 1 model.count) := by
  intro m hm m' hm' heq
  rcases lt_trichotomy m m' with hlt | rfl | hgt
  · exact absurd heq (bin_lt_bin h hm.1 hlt hm'.2).ne
  · rfl
  · exact absurd heq (bin_lt_bin h hm'.1 hgt hm.2).ne'

/-! ### The spectrum as a sum -/

/-- What a harmonic in bin `b` puts into bin `i`: its amplitude into its own bin, and the conjugate
into the bin opposite. -/
noncomputable def share (i : ℕ) (b : ℤ) (x : ℂ) : ℂ :=
  (if (i : ℤ) = b then x else 0) + if (i : ℤ) + b = 512 then conj x else 0

/-- The complex amplitude of a harmonic. -/
noncomputable def tone (model : Model ℝ) (m : ℤ) : ℂ :=
  (Phasor.polar (model.amps.level m) (model.phases.level m)).toComplex

/-- A spectrum that holds the harmonics below `m`. -/
def HoldsBelow (model : Model ℝ) (m : ℤ) (bins : Bins ℝ) : Prop :=
  ∀ i : Fin 512, (bins.get i).toComplex =
    ∑ m' ∈ Finset.Ico 1 m, share i (bin model.wo m') (tone model m')

theorem get_of_putBin {bins next : Bins ℝ} {b : ℤ} {x : Phasor ℝ} (h : putBin bins b x = .ok next)
    (i : Fin 512) : next.get i = if (i : ℤ) = b then x else bins.get i := by
  unfold putBin at h
  split_ifs at h with hb
  cases h
  simp only [Vector.get_eq_getElem, Vector.getElem_setIfInBounds]
  by_cases hi : (i : ℤ) = b
  · rw [if_pos hi, if_pos (by omega)]
  · rw [if_neg hi, if_neg (by omega)]

/-- A harmonic that is written into free bins is added. -/
theorem HoldsBelow.step {model : Model ℝ} (h : model.Fitted) {m : ℤ} (hm : 1 ≤ m)
    (hcount : m ≤ model.count) {bins written next : Bins ℝ} (hbins : HoldsBelow model m bins)
    (hwritten : putBin bins (bin model.wo m)
      (Phasor.polar (model.amps.level m) (model.phases.level m)) = .ok written)
    (hnext : putBin written (512 - bin model.wo m)
      (Phasor.polar (model.amps.level m) (model.phases.level m)).conj = .ok next) :
    HoldsBelow model (m + 1) next := by
  intro i
  obtain ⟨hlow, hhigh⟩ := bin_bounds h hm hcount
  have hfree : (i : ℤ) = bin model.wo m ∨ (i : ℤ) = 512 - bin model.wo m →
      ∑ m' ∈ Finset.Ico 1 m, share i (bin model.wo m') (tone model m') = 0 := by
    intro hi
    refine Finset.sum_eq_zero fun m' hm' => ?_
    obtain ⟨hm', hlt⟩ := Finset.mem_Ico.mp hm'
    have hother := bin_lt_bin h hm' hlt hcount
    obtain ⟨hlow', hhigh'⟩ := bin_bounds h hm' (by omega)
    rw [share, if_neg (by omega), if_neg (by omega), add_zero]
  rw [← Finset.insert_Ico_right_eq_Ico_add_one hm, Finset.sum_insert (by simp), ← hbins i,
    get_of_putBin hnext, get_of_putBin hwritten]
  rw [← hbins i] at hfree
  by_cases hopposite : (i : ℤ) = 512 - bin model.wo m
  · rw [if_pos hopposite, hfree (.inr hopposite), share, if_neg (by omega), if_pos (by omega),
      zero_add, add_zero]
    rfl
  · by_cases hown : (i : ℤ) = bin model.wo m
    · rw [if_neg hopposite, if_pos hown, hfree (.inl hown), share, if_pos hown, if_neg (by omega),
        add_zero, add_zero]
      rfl
    · rw [if_neg hopposite, if_neg hown, share, if_neg hown, if_neg (by omega), add_zero, zero_add]

/-- The spectrum of a model holds all its harmonics. -/
theorem yields_spectrum_holds {model : Model ℝ} (h : model.Fitted) :
    Yields (spectrum model) (HoldsBelow model (model.count + 1)) := by
  obtain ⟨hcount, hcount'⟩ := h.count_bounds
  refine yields_foldBetween (P := HoldsBelow model) ?_ ?_ ?_
  · intro i
    simp [Vector.get_eq_getElem]
  · intro m bins hm hm' hbins
    obtain ⟨hlow, hhigh⟩ := bin_bounds h hm (by omega)
    rw [model.amps.value_eq_level (by omega) (by omega),
      model.phases.value_eq_level (by omega) (by omega)]
    obtain ⟨written, hwritten, -⟩ := (yields_putBin bins
      (Phasor.polar (model.amps.level m) (model.phases.level m)) (show 0 ≤ bin model.wo m by omega)
      (by omega)).with_eq
    obtain ⟨next, hnext, -⟩ := (yields_putBin written
      (Phasor.polar (model.amps.level m) (model.phases.level m)).conj
      (show 0 ≤ 512 - bin model.wo m by omega) (by omega)).with_eq
    refine ⟨next, ?_, hbins.step h hm (by omega) hwritten hnext⟩
    simp only [bind, Except.bind, hwritten, hnext]
  · intro bins hbins
    rwa [max_eq_right (by omega)] at hbins

/-! ### Symmetry -/

section Symmetry

variable {model : Model ℝ} {bins : Bins ℝ}

theorem HoldsBelow.get_eq_zero (h : model.Fitted) {n : ℤ} (hn : n ≤ model.count + 1)
    (hbins : HoldsBelow model n bins) {i : Fin 512} (hi : (i : ℕ) = 0 ∨ (i : ℕ) = 256) :
    bins.get i = Phasor.zero := by
  apply Phasor.toComplex_injective
  rw [hbins i, Phasor.toComplex_zero]
  refine Finset.sum_eq_zero fun m hm => ?_
  obtain ⟨hfirst, hlast⟩ := Finset.mem_Ico.mp hm
  obtain ⟨hlow, hhigh⟩ := bin_bounds h hfirst (by omega)
  rw [share, if_neg (by omega), if_neg (by omega), add_zero]

theorem HoldsBelow.get_opposite {n : ℤ} (hbins : HoldsBelow model n bins) {i j : Fin 512}
    (hopposite : (i : ℕ) + j = 512) : bins.get j = (bins.get i).conj := by
  apply Phasor.toComplex_injective
  rw [Phasor.toComplex_conj, hbins i, hbins j, map_sum]
  refine Finset.sum_congr rfl fun m _ => ?_
  have hown : (j : ℤ) = bin model.wo m ↔ (i : ℤ) + bin model.wo m = 512 := by omega
  have hother : (j : ℤ) + bin model.wo m = 512 ↔ (i : ℤ) = bin model.wo m := by omega
  simp only [share, hown, hother, map_add, apply_ite conj, Complex.conj_conj, map_zero]
  exact add_comm _ _

end Symmetry

/-! ### The signal -/

/-- The turn of bin `k` after `t` samples. -/
noncomputable def turned (t : ℕ) (k : ℤ) : ℂ :=
  Complex.exp ((Analytic.turn * (k * t / ((512 : ℕ) : ℝ)) : ℝ) * Complex.I)

theorem turned_opposite (t : ℕ) (b : ℤ) : turned t (512 - b) = conj (turned t b) := by
  have hangle : (Analytic.turn * (((512 - b : ℤ) : ℝ) * t / ((512 : ℕ) : ℝ)) : ℝ) * Complex.I =
      (t : ℤ) * (2 * Real.pi * Complex.I) +
        conj ((Analytic.turn * ((b : ℝ) * t / ((512 : ℕ) : ℝ)) : ℝ) * Complex.I) := by
    rw [map_mul, Complex.conj_ofReal, Complex.conj_I, Analytic.turn_real]
    push_cast
    ring
  rw [turned, turned, hangle, Complex.exp_add, Complex.exp_int_mul_two_pi_mul_I, one_mul,
    Complex.exp_conj]

/-- What a harmonic adds to a sum over all bins. -/
theorem sum_share_mul {b : ℤ} (hlow : 1 ≤ b) (hhigh : b ≤ 255) (x : ℂ) (f : ℤ → ℂ) :
    ∑ k : Fin 512, share k b x * f k = x * f b + conj x * f (512 - b) := by
  obtain ⟨b, rfl⟩ := Int.eq_ofNat_of_zero_le (show 0 ≤ b by omega)
  have hterm : ∀ k : Fin 512, share k b x * f k =
      (if k = ⟨b, by omega⟩ then x * f b else 0) +
        if k = ⟨512 - b, by omega⟩ then conj x * f (512 - b) else 0 := by
    intro k
    have hown : (k : ℤ) = b ↔ k = ⟨b, by omega⟩ := by
      rw [Fin.ext_iff]
      dsimp only
      omega
    have hopposite : (k : ℤ) + b = 512 ↔ k = ⟨512 - b, by omega⟩ := by
      rw [Fin.ext_iff]
      dsimp only
      omega
    rw [share, add_mul]
    congr 1
    · by_cases hk : (k : ℤ) = b
      · rw [if_pos hk, if_pos (hown.mp hk), hk]
      · rw [if_neg hk, if_neg (fun h => hk (hown.mpr h)), zero_mul]
    · by_cases hk : (k : ℤ) + b = 512
      · rw [if_pos hk, if_pos (hopposite.mp hk), show (k : ℤ) = 512 - b by omega]
      · rw [if_neg hk, if_neg (fun h => hk (hopposite.mpr h)), zero_mul]
  simp only [hterm, Finset.sum_add_distrib, Finset.sum_ite_eq', Finset.mem_univ, if_true]

theorem re_tone_mul_turned (model : Model ℝ) (m b : ℤ) (t : ℕ) :
    (tone model m * turned t b).re = model.amps.level m *
      Real.cos (2 * Real.pi * b * t / 512 + model.phases.level m) := by
  rw [tone, Phasor.toComplex_polar, turned, mul_assoc, ← Complex.exp_add, ← add_mul,
    ← Complex.ofReal_add, Complex.re_ofReal_mul, Complex.exp_ofReal_mul_I_re, Analytic.turn_real]
  congr 2
  push_cast
  ring

/-- The inverse transform of a spectrum is the sum of its harmonics. -/
theorem HoldsBelow.get_inverse {transform : Transform ℝ} (htransform : transform.InvertsDft)
    {model : Model ℝ} (h : model.Fitted) {n : ℤ} (hn : n ≤ model.count + 1) {bins : Bins ℝ}
    (hbins : HoldsBelow model n bins) (t : Fin 512) :
    (transform.inverse bins).get t = ∑ m ∈ Finset.Ico 1 n, 2 * model.amps.level m *
      Real.cos (2 * Real.pi * bin model.wo m * t / 512 + model.phases.level m) := by
  have hturned : ∀ k : Fin 512, Complex.exp ((2 * Real.pi * (k * t / 512) : ℝ) * Complex.I) =
      turned t (k : ℤ) := by
    intro k
    rw [turned, Analytic.turn_real]
    push_cast
    rfl
  calc (transform.inverse bins).get t
      = (∑ k : Fin 512, (bins.get k).toComplex * turned t (k : ℤ)).re := by
        rw [htransform.get_inverse]
        simp only [hturned]
    _ = (∑ m ∈ Finset.Ico 1 n, ∑ k : Fin 512,
          share k (bin model.wo m) (tone model m) * turned t (k : ℤ)).re := by
        rw [Finset.sum_comm]
        simp only [hbins _, Finset.sum_mul]
    _ = ∑ m ∈ Finset.Ico 1 n, 2 * (tone model m * turned t (bin model.wo m)).re := by
        rw [Complex.re_sum]
        refine Finset.sum_congr rfl fun m hm => ?_
        obtain ⟨hfirst, hlast⟩ := Finset.mem_Ico.mp hm
        obtain ⟨hlow, hhigh⟩ := bin_bounds h hfirst (by omega)
        rw [sum_share_mul (by omega) hhigh, turned_opposite, ← map_mul, Complex.add_conj,
          Complex.ofReal_re]
    _ = _ := by
        refine Finset.sum_congr rfl fun m _ => ?_
        rw [re_tone_mul_turned]
        ring

/-- No harmonic is lost in synthesis. Every harmonic of a model of speech has a bin of its own, and
the spectrum is conjugate around its middle. The frame that is overlapped and added is the sum of
all harmonics, for every transform that inverts the discrete Fourier transform. -/
theorem synthesis_keeps_every_harmonic {model : Model ℝ} (h : model.Fitted) :
    Set.InjOn (bin model.wo) (Set.Icc 1 model.count) ∧
    (∀ m ∈ Set.Icc 1 model.count, 3 ≤ bin model.wo m ∧ bin model.wo m ≤ 255) ∧
    (∃ bins : Bins ℝ, spectrum model = .ok bins ∧
      bins.get 0 = Phasor.zero ∧ bins.get 256 = Phasor.zero ∧
      (∀ b opposite : Fin 512, (b : ℕ) + opposite = 512 → bins.get opposite = (bins.get b).conj) ∧
      ∀ transform : Transform ℝ, transform.InvertsDft → ∃ frame : Block ℝ,
        (∀ t : Fin 512, frame.get t = ∑ m ∈ Finset.Icc 1 model.count, 2 * model.amps.level m *
          Real.cos (2 * Real.pi * bin model.wo m * t / 512 + model.phases.level m)) ∧
        ∀ (n : ℕ) (buffer window : Array ℝ) (shift : Bool),
          synthesise n transform buffer model window shift =
            overlap n frame.toArray window buffer shift) ∧
    Transform.dft.InvertsDft := by
  obtain ⟨bins, hspectrum, hbins⟩ := yields_spectrum_holds h
  refine ⟨bin_injOn h, fun m hm => bin_bounds h hm.1 hm.2, ⟨bins, hspectrum,
    hbins.get_eq_zero h le_rfl (.inl rfl), hbins.get_eq_zero h le_rfl (.inr rfl),
    fun b opposite hopposite => hbins.get_opposite hopposite, fun transform htransform => ?_⟩,
    ⟨Transform.get_inverse_dft⟩⟩
  refine ⟨transform.inverse bins, fun t => ?_, fun n buffer window shift => ?_⟩
  · rw [hbins.get_inverse htransform h le_rfl t, Finset.Ico_add_one_right_eq_Icc]
  · rw [synthesise, hspectrum]
    rfl

/-- The lowest fundamental has eighty harmonics. The last one is at the middle of the spectrum and
is held below it, and the harmonic before has another bin. With amplitudes of one and no phases, all
harmonics meet at the start of the frame. -/
theorem synthesis_keeps_every_harmonic_lowest :
    let model : Model ℝ :=
      ⟨PitchRange.speech.low, 80, Vector.replicate 81 1, Vector.replicate 81 0, true⟩
    model.Fitted ∧ bin model.wo 79 ≠ bin model.wo 80 ∧
    ∃ (bins : Bins ℝ) (frame : Block ℝ), spectrum model = .ok bins ∧ frame.get 0 = 160 ∧
      synthesise 80 Transform.dft (Array.replicate 160 0) model (Array.replicate 160 1) true =
        overlap 80 frame.toArray (Array.replicate 160 1) (Array.replicate 160 0) true := by
  intro model
  have hfitted : model.Fitted := Model.fitted_lowest _ _ _
  obtain ⟨hdistinct, -, ⟨bins, hspectrum, -, -, -, hframes⟩, hdft⟩ :=
    synthesis_keeps_every_harmonic hfitted
  obtain ⟨frame, hframe, hsynthesise⟩ := hframes Transform.dft hdft
  refine ⟨hfitted, fun heq => ?_, bins, frame, hspectrum, ?_, hsynthesise _ _ _ _⟩
  · have hsame := hdistinct (show (79 : ℤ) ∈ Set.Icc 1 80 by decide)
      (show (80 : ℤ) ∈ Set.Icc 1 80 by decide) heq
    omega
  · have hterm : ∀ m ∈ Finset.Icc (1 : ℤ) 80, 2 * model.amps.level m *
        Real.cos (2 * Real.pi * bin model.wo m * ((0 : Fin 512) : ℕ) / 512 +
          model.phases.level m) = 2 := by
      intro m hm
      obtain ⟨hlow, hhigh⟩ := Finset.mem_Icc.mp hm
      have hlt : m.toNat < 81 := by omega
      simp [model, Harmonics.level, hlt]
    rw [hframe 0, Finset.sum_congr rfl hterm, Finset.sum_const, Int.card_Icc,
      show ((80 : ℤ) + 1 - 1).toNat = 80 by decide]
    norm_num

end OverlapAdd

end Vocoder
