import Mathlib
import Vocoder.Proofs.SubframeLedger

/-!
Random phases, counted. A subframe goes through its harmonics twice, to set their phases and to
replace those of noisy harmonics, and only one of the two draws from the generator: the first if the
subframe is unvoiced, the second if it is voiced. So each harmonic draws at most once, and the
harmonics find the generator in the state that those before them left. Added up over the subframes
of a run, this tells the state of the generator from the seed, the reported models and the counter
of noisy harmonics.
-/

namespace Vocoder

variable {α : Type}

/-! ### Draws in turn -/

namespace NoiseSource

/-- The generator that harmonic `m` finds after the draws of the harmonics before it. -/
noncomputable def before (noise : NoiseSource) (draws : Int → Nat) (m : Int) : NoiseSource :=
  step^[∑ i ∈ Finset.Ico 1 m, draws i] noise

variable (noise : NoiseSource) (draws : Int → Nat)

theorem sum_Ico_add_one {m : Int} (hm : 1 ≤ m) :
    ∑ i ∈ Finset.Ico 1 (m + 1), draws i = ∑ i ∈ Finset.Ico 1 m, draws i + draws m := by
  rw [← Finset.insert_Ico_right_eq_Ico_add_one hm, Finset.sum_insert (by simp), Nat.add_comm]

theorem before_one : noise.before draws 1 = noise := by
  rw [before, Finset.Ico_self, Finset.sum_empty, Function.iterate_zero_apply]

theorem before_zero (m : Int) : noise.before (fun _ => 0) m = noise := by
  rw [before, Finset.sum_const_zero, Function.iterate_zero_apply]

theorem before_add_one {m : Int} (hm : 1 ≤ m) :
    noise.before draws (m + 1) = step^[draws m] (noise.before draws m) := by
  rw [before, sum_Ico_add_one draws hm, Nat.add_comm, Function.iterate_add_apply, before]

/-- A pass over the harmonics ends past the last one, also if there is none. -/
theorem Ico_one_max (m : Int) : Finset.Ico 1 (max 1 m) = Finset.Ico 1 m := by
  rcases le_total 1 m with h | h
  · rw [max_eq_right h]
  · rw [max_eq_left h, Finset.Ico_self, Finset.Ico_eq_empty_of_le h]

theorem before_max (m : Int) : noise.before draws (max 1 m) = noise.before draws m := by
  rw [before, Ico_one_max, before]

end NoiseSource

/-! ### The two passes -/

section Passes

variable [Analytic α] {model : Model α} {noise : NoiseSource}

namespace Phase

/-- The phase that an excitation of a given angle has behind the filter. -/
def filtered (response : Phasor α) (angle : α) : α :=
  let a := response.mul ⟨Analytic.cos angle, Analytic.sin angle⟩
  Analytic.atan2 a.im (a.re + 1e-12)

/-- The angle of the excitation of harmonic `m`. -/
def angle (voiced : Bool) (pulse : α) (m : Int) (noise : NoiseSource) : α :=
  if voiced then pulse * Scalar.ofInt m else noise.phase.1

/-- The draws of a harmonic in the first pass. -/
def draws (model : Model α) (_ : Int) : Nat := if model.voiced then 0 else 1

theorem excitation_eq (model : Model α) (pulse : α) (m : Int) (noise : NoiseSource) :
    excitation model.voiced pulse m noise =
      (⟨Analytic.cos (angle model.voiced pulse m noise),
        Analytic.sin (angle model.voiced pulse m noise)⟩,
        NoiseSource.step^[draws model m] noise) := by
  rw [excitation, angle, draws]
  cases model.voiced <;> rfl

/-- The first pass: all harmonics get the phase of their excitation behind the filter. -/
theorem phases_of_synthesise {samples : Int} {pulse : α} {response : Harmonics (Phasor α)}
    {phased : Synthesised α} (h : synthesise samples model pulse response noise = .ok phased) :
    ∃ phases, phased = ⟨{ model with phases }, advance pulse model.wo samples,
        noise.before (draws model) (model.count + 1)⟩ ∧
      ∀ m, 1 ≤ m → m ≤ model.count → ∃ r, response.value m = .ok r ∧
        phases.value m = .ok (filtered r (angle model.voiced (advance pulse model.wo samples) m
          (noise.before (draws model) m))) := by
  obtain ⟨⟨phases, later⟩, hfold, h⟩ := bind_eq_ok.mp h
  obtain rfl := pure_eq_ok.mp h
  have hpass := foldBetween_induction
    (P := fun i (acc : Harmonics α × NoiseSource) => acc.2 = noise.before (draws model) i ∧
      ∀ m, 1 ≤ m → m < i → ∃ r, response.value m = .ok r ∧
        acc.1.value m = .ok (filtered r (angle model.voiced (advance pulse model.wo samples) m
          (noise.before (draws model) m))))
    hfold ⟨(noise.before_one _).symm, fun m hm hlt => by omega⟩ ?_
  · rw [NoiseSource.before_max] at hpass
    obtain ⟨hlater, hphases⟩ := hpass
    dsimp only at hlater
    rw [hlater]
    exact ⟨phases, rfl, fun m hlow hhigh => hphases m hlow (by omega)⟩
  · rintro i ⟨phases, source⟩ next hi - ⟨rfl, hphases⟩ hstep
    dsimp only at hstep hphases
    rw [excitation_eq] at hstep
    obtain ⟨r, hr, hstep⟩ := bind_eq_ok.mp hstep
    obtain ⟨put, hput, hstep⟩ := bind_eq_ok.mp hstep
    obtain rfl := pure_eq_ok.mp hstep
    rw [NoiseSource.before_add_one _ _ hi]
    refine ⟨rfl, fun m hm hle => ?_⟩
    by_cases heq : m = i
    · subst heq
      exact ⟨r, hr, Harmonics.value_put hput⟩
    · obtain ⟨x, hx, hvalue⟩ := hphases m hm (by omega)
      exact ⟨x, hx, (Harmonics.value_put_of_ne hput heq).trans hvalue⟩

end Phase

namespace Background

/-- The draws of harmonic `m` in the second pass. -/
def draws (model : Model α) (limit : α) (m : Int) : Nat :=
  match model.amps.value m with
  | .ok a => if model.voiced ∧ a < limit then 1 else 0
  | .error _ => 0

theorem draws_eq {limit a : α} {m : Int} (ha : model.amps.value m = .ok a) :
    draws model limit m = if model.voiced ∧ a < limit then 1 else 0 := by
  rw [draws, ha]

theorem draws_phases (phases : Harmonics α) (limit : α) :
    draws { model with phases } limit = draws model limit := rfl

theorem draws_unvoiced (limit : α) (m : Int) (hvoiced : model.voiced = false) :
    draws model limit m = 0 := by
  rw [draws, hvoiced]
  split <;> simp

theorem track_voiced (estimate level : α) : track estimate true level = estimate := by
  rw [track, if_neg (by simp)]

/-- The second pass over a voiced model. -/
theorem voiced_of_treat {estimate : α} {treated : Treated α} (hvoiced : model.voiced = true)
    (h : treat model estimate noise = .ok treated) :
    ∃ phases, treated = ⟨{ model with phases }, estimate,
        noise.before (draws model (threshold estimate)) (model.count + 1),
        ∑ m ∈ Finset.Ico 1 (model.count + 1), draws model (threshold estimate) m⟩ ∧
      ∀ m, 1 ≤ m → m ≤ model.count → ∃ a, model.amps.value m = .ok a ∧
        phases.value m = if a < threshold estimate then
          .ok (noise.before (draws model (threshold estimate)) m).phase.1
        else model.phases.value m := by
  obtain ⟨l, -, h⟩ := bind_eq_ok.mp h
  -- A voiced model does not move the estimate, so the level has no part in the limit.
  rw [hvoiced, track_voiced] at h
  obtain ⟨⟨phases, later, count⟩, hfold, h⟩ := bind_eq_ok.mp h
  obtain rfl := pure_eq_ok.mp h
  -- The harmonics that are still to come have their phases from before the pass.
  have hpass := foldBetween_induction
    (P := fun i (acc : Harmonics α × NoiseSource × Nat) =>
      acc.2.1 = noise.before (draws model (threshold estimate)) i ∧
      acc.2.2 = ∑ m ∈ Finset.Ico 1 i, draws model (threshold estimate) m ∧
      (∀ m, i ≤ m → acc.1.value m = model.phases.value m) ∧
      ∀ m, 1 ≤ m → m < i → ∃ a, model.amps.value m = .ok a ∧
        acc.1.value m = if a < threshold estimate then
          .ok (noise.before (draws model (threshold estimate)) m).phase.1
        else model.phases.value m)
    hfold ⟨(noise.before_one _).symm, by simp, fun _ _ => rfl, fun m hm hlt => by omega⟩ ?_
  · rw [NoiseSource.before_max, NoiseSource.Ico_one_max] at hpass
    obtain ⟨hlater, hcount, -, hphases⟩ := hpass
    dsimp only at hlater hcount
    rw [hlater, hcount]
    exact ⟨phases, by rw [hvoiced], fun m hlow hhigh => hphases m hlow (by omega)⟩
  · rintro i ⟨phases, source, count⟩ next hi - ⟨rfl, rfl, hahead, hphases⟩ hstep
    obtain ⟨a, ha, hstep⟩ := bind_eq_ok.mp hstep
    rw [NoiseSource.before_add_one _ _ hi, NoiseSource.sum_Ico_add_one _ hi, draws_eq ha]
    dsimp only at hahead hphases hstep ⊢
    split_ifs at hstep with hlimit
    · obtain ⟨put, hput, hstep⟩ := bind_eq_ok.mp hstep
      obtain rfl := pure_eq_ok.mp hstep
      rw [if_pos ⟨hvoiced, hlimit⟩]
      refine ⟨rfl, rfl, fun m hm => ?_, fun m hm hle => ?_⟩
      · rw [Harmonics.value_put_of_ne hput (by omega), hahead m (by omega)]
      · by_cases heq : m = i
        · subst heq
          exact ⟨a, ha, by rw [if_pos hlimit]; exact Harmonics.value_put hput⟩
        · rw [Harmonics.value_put_of_ne hput heq]
          exact hphases m hm (by omega)
    · obtain rfl := pure_eq_ok.mp hstep
      rw [if_neg fun hdraw => hlimit hdraw.2]
      refine ⟨rfl, rfl, fun m hm => hahead m (by omega), fun m hm hle => ?_⟩
      by_cases heq : m = i
      · subst heq
        exact ⟨a, ha, by rw [if_neg hlimit]; exact hahead m le_rfl⟩
      · exact hphases m hm (by omega)

theorem unvoiced_of_treat {estimate : α} {treated : Treated α} (hvoiced : model.voiced = false)
    (h : treat model estimate noise = .ok treated) :
    ∃ l, level model = .ok l ∧ treated = ⟨model, track estimate false l, noise, 0⟩ := by
  obtain ⟨l, hl, h⟩ := bind_eq_ok.mp h
  rw [hvoiced] at h
  exact ⟨l, hl, (pure_eq_ok.mp h).symm⟩

end Background

end Passes

/-! ### Subframes -/

namespace Subframe

variable [Analytic α] {engine : Engine α} (subframe : Subframe engine)

/-- The amplitude below which a harmonic of a subframe counts as noise. -/
def limit : α := Background.threshold subframe.decoder.background

/-- The draws of a harmonic in both passes. -/
def draws (m : Int) : Nat :=
  Phase.draws subframe.model m + Background.draws subframe.model subframe.limit m

/-- All draws of a subframe. -/
noncomputable def total : Nat := ∑ m ∈ Finset.Ico 1 (subframe.model.count + 1), subframe.draws m

/-- How harmonic `m` comes to its phase and with how many draws, from the generator that it finds
and the response of the filter. -/
inductive Phased (m : Int) (source : NoiseSource) (response : Phasor α) : α → Nat → Prop
  | pulse {a : α} (voiced : subframe.model.voiced = true)
      (amp : subframe.model.amps.value m = .ok a) (loud : ¬ a < subframe.limit) :
      Phased m source response (Phase.filtered response (Phase.advance subframe.decoder.pulse
        subframe.model.wo subframeSize * Scalar.ofInt m)) 0
  | noisy {a : α} (voiced : subframe.model.voiced = true)
      (amp : subframe.model.amps.value m = .ok a) (quiet : a < subframe.limit) :
      Phased m source response source.phase.1 1
  | random (unvoiced : subframe.model.voiced = false) :
      Phased m source response (Phase.filtered response source.phase.1) 1

/-- What a subframe draws from the generator, and what for. -/
structure Accounted : Prop where
  noise : subframe.sounded.decoder.noise = NoiseSource.step^[subframe.total] subframe.decoder.noise
  noisy : subframe.total =
    (if subframe.model.voiced then 0 else subframe.model.count.toNat) + subframe.sounded.noisy
  phases : ∃ response, Phase.sample subframe.model subframe.bins = .ok response ∧
    ∀ m, 1 ≤ m → m ≤ subframe.model.count → ∃ r phase, response.value m = .ok r ∧
      subframe.sounded.model.phases.value m = .ok phase ∧
      subframe.Phased m (subframe.decoder.noise.before subframe.draws m) r phase (subframe.draws m)

/-- Synthesis of a subframe goes through its harmonics in two passes. -/
theorem exists_passes : ∃ response phased treated,
    Phase.sample subframe.model subframe.bins = .ok response ∧
    Phase.synthesise subframeSize subframe.model subframe.decoder.pulse response
      subframe.decoder.noise = .ok phased ∧
    Background.treat phased.model subframe.decoder.background phased.noise = .ok treated ∧
    subframe.sounded.model = treated.model ∧ subframe.sounded.noisy = treated.count ∧
    subframe.sounded.decoder.background = treated.estimate ∧
    subframe.sounded.decoder.noise = treated.noise := by
  obtain ⟨response, hresponse, hsound⟩ := bind_eq_ok.mp subframe.sounding
  obtain ⟨phased, hphased, hsound⟩ := bind_eq_ok.mp hsound
  obtain ⟨treated, htreated, hsound⟩ := bind_eq_ok.mp hsound
  obtain ⟨buffer, -, hsound⟩ := bind_eq_ok.mp hsound
  rw [← pure_eq_ok.mp hsound]
  exact ⟨response, phased, treated, hresponse, hphased, htreated, rfl, rfl, rfl, rfl⟩

variable {subframe}

theorem draws_of_voiced (hvoiced : subframe.model.voiced = true) :
    subframe.draws = Background.draws subframe.model subframe.limit := by
  funext m
  rw [draws, Phase.draws, if_pos hvoiced, Nat.zero_add]

theorem draws_of_unvoiced (hvoiced : subframe.model.voiced = false) :
    subframe.draws = Phase.draws subframe.model := by
  funext m
  rw [draws, Background.draws_unvoiced _ m hvoiced, Nat.add_zero]

theorem draws_le_one (m : Int) : subframe.draws m ≤ 1 := by
  cases hvoiced : subframe.model.voiced with
  | true =>
      rw [draws_of_voiced hvoiced, Background.draws]
      split
      · split <;> decide
      · decide
  | false =>
      rw [draws_of_unvoiced hvoiced, Phase.draws]
      split <;> decide

theorem accounted_of_voiced (hvoiced : subframe.model.voiced = true) : subframe.Accounted := by
  obtain ⟨response, phased, treated, hresponse, hphased, htreated, hmodel, hnoisy, -, hnoise⟩ :=
    subframe.exists_passes
  obtain ⟨phases, rfl, hphases⟩ := Phase.phases_of_synthesise hphased
  obtain ⟨phases', rfl, hphases'⟩ := Background.voiced_of_treat (by exact hvoiced) htreated
  have hfirst : Phase.draws subframe.model = fun _ => 0 :=
    funext fun m => by rw [Phase.draws, if_pos hvoiced]
  simp only [hfirst, NoiseSource.before_zero, Background.draws_phases] at hphases hphases' hnoise
  simp only [Background.draws_phases] at hnoisy
  have hdraws := draws_of_voiced hvoiced
  refine ⟨?_, ?_, response, hresponse, fun m hlow hhigh => ?_⟩
  · rw [hnoise, total, hdraws]
    rfl
  · rw [hnoisy, total, hdraws, hvoiced, if_pos rfl, Nat.zero_add]
    rfl
  · obtain ⟨r, hr, hphase⟩ := hphases m hlow hhigh
    obtain ⟨a, ha, hphase'⟩ := hphases' m hlow hhigh
    rw [hdraws, hmodel, Background.draws_eq ha]
    dsimp only
    by_cases hlimit : a < subframe.limit
    · refine ⟨r, _, hr, hphase'.trans (if_pos hlimit), ?_⟩
      rw [if_pos ⟨hvoiced, hlimit⟩]
      exact .noisy hvoiced ha hlimit
    · refine ⟨r, _, hr, (hphase'.trans (if_neg hlimit)).trans hphase, ?_⟩
      rw [if_neg fun hdraw => hlimit hdraw.2, Phase.angle, if_pos hvoiced]
      exact .pulse hvoiced ha hlimit

theorem accounted_of_unvoiced (hvoiced : subframe.model.voiced = false) : subframe.Accounted := by
  obtain ⟨response, phased, treated, hresponse, hphased, htreated, hmodel, hnoisy, -, hnoise⟩ :=
    subframe.exists_passes
  obtain ⟨phases, rfl, hphases⟩ := Phase.phases_of_synthesise hphased
  obtain ⟨l, -, rfl⟩ := Background.unvoiced_of_treat (by exact hvoiced) htreated
  dsimp only at hmodel hnoisy hnoise
  have hdraws := draws_of_unvoiced hvoiced
  have htotal : subframe.total = subframe.model.count.toNat := by
    rw [total, hdraws]
    simp [Phase.draws, hvoiced]
  refine ⟨?_, ?_, response, hresponse, fun m hlow hhigh => ?_⟩
  · rw [hnoise, total, hdraws]
    rfl
  · rw [htotal, hnoisy, hvoiced]
    rfl
  · obtain ⟨r, hr, hphase⟩ := hphases m hlow hhigh
    refine ⟨r, _, hr, by rw [hmodel]; exact hphase, ?_⟩
    rw [hdraws, Phase.draws, hvoiced]
    exact .random hvoiced

theorem accounted (subframe : Subframe engine) : subframe.Accounted := by
  cases hvoiced : subframe.model.voiced with
  | true => exact accounted_of_voiced hvoiced
  | false => exact accounted_of_unvoiced hvoiced

end Subframe

/-! ### Runs -/

namespace Subframe

variable [Analytic α] {engine : Engine α} {first last : Decoder α}
  {subframes : List (Subframe engine)}

/-- Along a chain the draws of the subframes add up. -/
theorem Chain.noise_eq (h : Chain engine first subframes last) :
    last.noise = NoiseSource.step^[(subframes.map total).sum] first.noise := by
  induction h with
  | nil continues => exact continues.noise
  | @cons first last subframe rest continues _ ih =>
      rw [ih, subframe.accounted.noise, continues.noise, ← Function.iterate_add_apply,
        List.map_cons, List.sum_cons, Nat.add_comm]

/-- The draws of the subframes are told by the models that were reported and the counter. -/
theorem Records.sum_total {notices : List (Notice α)} {samples : List Int16} {noisy : Nat}
    (h : Records engine first last notices samples noisy subframes) :
    (subframes.map total).sum = ((Notice.sounded notices).map fun model =>
      if model.voiced then 0 else model.count.toNat).sum + noisy := by
  rw [h.models, h.noisy, List.map_map, ← List.sum_map_add]
  exact congrArg List.sum (List.map_congr_left fun subframe _ => subframe.accounted.noisy)

end Subframe

/-- Every random phase is accounted for. After any run the generator has made one step for each
harmonic of an unvoiced subframe and one for each noisy harmonic that was counted, and every phase
is made from its own draw or from the pulse train alone. -/
theorem random_phases_accounted [Analytic α] {engine : Engine α} {mode : Mode}
    {choices : List (Choice α)} {session : Session α} {created : List (Notice α)}
    {requests : List (Request α)} {replies : List (Reply α Answer)}
    (hcreate : Session.create mode choices = .ok (session, created))
    (hrun : session.serveAll engine requests = .ok replies) :
    (session.afterAll replies).decoder.noise =
      NoiseSource.step^[((Notice.sounded (replies.flatMap Reply.notices)).map fun model =>
        if model.voiced then 0 else model.count.toNat).sum +
        (session.afterAll replies).stats.noise] ⟨(Settings.ofChoices choices).seed⟩ ∧
    ∃ subframes : List (Subframe engine),
      Subframe.Chain engine session.decoder subframes (session.afterAll replies).decoder ∧
      Notice.sounded (replies.flatMap Reply.notices) = subframes.map Subframe.model ∧
      replies.flatMap Reply.samples = subframes.flatMap (fun subframe => subframe.sounded.samples) ∧
      ∀ subframe ∈ subframes, subframe.Accounted ∧ (∀ m, subframe.draws m ≤ 1) ∧
        ∀ m a, subframe.model.voiced = true → subframe.model.amps.value m = .ok a →
          ¬ a < Background.threshold subframe.decoder.background → subframe.draws m = 0 := by
  obtain ⟨decoder, hdecoder, rfl⟩ := Session.exists_of_create hcreate
  obtain ⟨noisy, subframes, hrecords, hnoisy⟩ := Session.exists_records_of_serveAll hrun
  have hseed := (Decoder.fresh_of_start hdecoder).2
  have hcount : (Session.afterAll _ replies).stats.noise = noisy :=
    hnoisy.trans (Nat.zero_add noisy)
  refine ⟨?_, subframes, hrecords.chain, hrecords.models, hrecords.samples, fun subframe _ =>
    ⟨subframe.accounted, Subframe.draws_le_one, fun m a hvoiced ha hlimit => ?_⟩⟩
  · rw [hrecords.chain.noise_eq, hrecords.sum_total, hcount]
    exact congrArg _ hseed
  · rw [Subframe.draws_of_voiced hvoiced, Background.draws_eq ha]
    exact if_neg fun hdraw => hlimit hdraw.2

/-- A frame of ones, a frame to encode and a muted frame of zeros, on a session with a chosen seed.
-/
theorem random_phases_accounted_muted :
    ∃ (engine : Engine ℝ) (session : Session ℝ) (created : List (Notice ℝ))
      (requests : List (Request ℝ)) (replies : List (Reply ℝ Answer)),
      Session.create .rate1200 [.seed 7] = .ok (session, created) ∧
      requests = [.decode (List.replicate 6 255) 0, .encode (Array.replicate 320 9),
        .decode (List.replicate 6 0) 1] ∧
      session.serveAll engine requests = .ok replies ∧
      (session.afterAll replies).decoder.noise =
        NoiseSource.step^[((Notice.sounded (replies.flatMap Reply.notices)).map fun model =>
          if model.voiced then 0 else model.count.toNat).sum +
          (session.afterAll replies).stats.noise] ⟨7⟩ ∧
      ∃ subframes : List (Subframe engine),
        Notice.sounded (replies.flatMap Reply.notices) = subframes.map Subframe.model ∧
        ∀ subframe ∈ subframes, subframe.Accounted ∧ ∀ m, subframe.draws m ≤ 1 := by
  obtain ⟨session, created, hcreate, hdecodes⟩ := Session.exists_create .rate1200 [.seed 7]
  obtain ⟨replies, hreplies, -⟩ := hdecodes.yields_serveAll (Engine.ofTransform Transform.dft)
    [.decode (List.replicate 6 255) 0, .encode (Array.replicate 320 9),
      .decode (List.replicate 6 0) 1]
  obtain ⟨hnoise, subframes, -, hmodels, -, haccounted⟩ :=
    random_phases_accounted hcreate hreplies
  exact ⟨_, session, created, _, replies, hcreate, rfl, hreplies, hnoise, subframes, hmodels,
    fun subframe hmem => ⟨(haccounted subframe hmem).1, (haccounted subframe hmem).2.1⟩⟩

end Vocoder
