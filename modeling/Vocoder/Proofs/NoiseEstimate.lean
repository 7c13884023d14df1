import Vocoder.Proofs.PhaseDraws
import Vocoder.Proofs.VoicingEvidence

/-!
The estimate of the noise level, over the real numbers. The level of a model is never below that of
a single floor spread over all harmonics, and the estimate moves only towards levels below 40
decibels, a tenth of the way. So it can leave neither end of that range, whatever the amplitudes
are. A harmonic that is 6 decibels above the upper end always keeps its phase.
-/

namespace Vocoder

namespace Background

/-! ### One subframe -/

/-- The lowest level of a model, that of silence in all harmonics. -/
noncomputable def lowestLevel : ℝ := Analytic.decibels (1e-12 / Scalar.ofInt maxHarmonics)

/-- The estimates that can come up. -/
def estimates : Set ℝ := Set.Ico lowestLevel 40.0

theorem estimates_eq : estimates = Set.Ico (10 * Real.logb 10 (1e-12 / 80)) 40 := by
  have heighty : ((maxHarmonics : ℤ) : ℝ) = 80 := by norm_num [maxHarmonics]
  rw [estimates, lowestLevel, Voicing.decibels_eq, Analytic.ofInt_real, heighty]
  norm_num

theorem zero_mem_estimates : (0.0 : ℝ) ∈ estimates := by
  rw [estimates_eq]
  have hlog : Real.logb 10 (1e-12 / 80) < 0 :=
    Real.logb_neg (by norm_num) (by norm_num) (by norm_num)
  norm_num
  linarith

variable {model : Model ℝ} {estimate : ℝ} {noise : NoiseSource} {treated : Treated ℝ}

theorem level_eq (hhigh : model.count ≤ 80) :
    level model = .ok (10 * Real.logb 10
      ((1e-12 + ∑ m ∈ Finset.Icc 1 model.count, model.amps.level m ^ 2) / model.count)) := by
  have hterm : ∀ m, 1 ≤ m → m < model.count + 1 →
      (do let a ← model.amps.value m; return a * a) = Except.ok (model.amps.level m ^ 2) := by
    intro m hm hm'
    rw [model.amps.value_eq_level (by omega) (by omega), sq]
    rfl
  rw [level, sumBetween_eq_sum_Ico hterm, Finset.Ico_add_one_right_eq_Icc, ← Voicing.decibels_eq]
  rfl

/-- No amplitudes make a lower level. -/
theorem lowestLevel_le {l : ℝ} (hlow : 1 ≤ model.count) (hhigh : model.count ≤ maxHarmonics)
    (hl : level model = .ok l) : lowestLevel ≤ l := by
  obtain rfl := Except.ok.inj ((level_eq hhigh).symm.trans hl)
  have hsum : 0 ≤ ∑ m ∈ Finset.Icc 1 model.count, model.amps.level m ^ 2 :=
    Finset.sum_nonneg fun m _ => sq_nonneg _
  have hcount : (0 : ℝ) < model.count := by exact_mod_cast hlow
  have hmost : (model.count : ℝ) ≤ maxHarmonics := by exact_mod_cast hhigh
  rw [← Voicing.decibels_eq]
  refine Energy.decibels_mono (div_pos (by norm_num) (hcount.trans_le hmost)) ?_
  exact div_le_div₀ (by positivity) (by linarith) hcount hmost

/-- The estimate stays in its range. -/
theorem track_mem {l : ℝ} (voiced : Bool) (hestimate : estimate ∈ estimates)
    (hl : lowestLevel ≤ l) :
    track estimate voiced l ∈ estimates := by
  obtain ⟨hlow, hhigh⟩ := hestimate
  rw [track]
  split_ifs with hquiet
  · -- Nine tenths of the estimate and one of the level are not outside the two.
    obtain ⟨hquiet, -⟩ := hquiet
    norm_num at hhigh hquiet ⊢
    constructor
    · linarith
    · norm_num
      linarith
  · exact ⟨hlow, hhigh⟩

theorem track_loud {l : ℝ} (voiced : Bool) (hl : 40 ≤ l) : track estimate voiced l = estimate := by
  rw [track, if_neg]
  rintro ⟨hquiet, -⟩
  norm_num at hquiet
  linarith

theorem threshold_eq (estimate : ℝ) : threshold estimate = 10 ^ ((estimate + 6) / 20) := by
  rw [threshold, Analytic.pow_real]
  norm_num

/-- The threshold is below the amplitude 6 decibels above the range. -/
theorem threshold_lt (h : estimate ∈ estimates) :
    threshold estimate < 10 ^ ((40 + 6) / 20 : ℝ) := by
  have hhigh : estimate < 40 := (estimates_eq ▸ h).2
  rw [threshold_eq]
  exact Real.rpow_lt_rpow_of_exponent_lt (by norm_num) (by linarith)

/-- What the treatment of a model does to it and to the estimate. -/
structure Keeps (model : Model ℝ) (estimate : ℝ) (treated : Treated ℝ) : Prop where
  mem : treated.estimate ∈ estimates
  voiced : model.voiced = true → treated.estimate = estimate
  loud : 40 ≤ 10 * Real.logb 10
      ((1e-12 + ∑ m ∈ Finset.Icc 1 model.count, model.amps.level m ^ 2) / model.count) →
    treated.estimate = estimate
  /-- Nothing but phases changes. -/
  others : treated.model = { model with phases := treated.model.phases }
  phases : ∀ m, 1 ≤ m → m ≤ model.count → 10 ^ ((40 + 6) / 20 : ℝ) ≤ model.amps.level m →
    treated.model.phases.level m = model.phases.level m
  count : treated.count = if model.voiced then
    ((Finset.Icc 1 model.count).filter fun m =>
      model.amps.level m < 10 ^ ((estimate + 6) / 20)).card else 0

theorem sum_draws (hvoiced : model.voiced = true) (hhigh : model.count ≤ 80) :
    ∑ m ∈ Finset.Ico 1 (model.count + 1), draws model (threshold estimate) m =
      ((Finset.Icc 1 model.count).filter fun m =>
        model.amps.level m < 10 ^ ((estimate + 6) / 20)).card := by
  rw [Finset.Ico_add_one_right_eq_Icc, Finset.card_filter]
  refine Finset.sum_congr rfl fun m hm => ?_
  obtain ⟨hlow, hle⟩ := Finset.mem_Icc.mp hm
  rw [draws_eq (model.amps.value_eq_level (by omega) (by omega)), ← threshold_eq]
  simp [hvoiced]

theorem keeps_of_voiced (hvoiced : model.voiced = true) (hhigh : model.count ≤ 80)
    (hestimate : estimate ∈ estimates) (h : treat model estimate noise = .ok treated) :
    Keeps model estimate treated := by
  obtain ⟨phases, rfl, hphases⟩ := voiced_of_treat hvoiced h
  refine ⟨hestimate, fun _ => rfl, fun _ => rfl, rfl, fun m hm hle hloud => ?_, ?_⟩
  · obtain ⟨a, ha, hphase⟩ := hphases m hm hle
    rw [model.amps.value_eq_level (by omega) (by omega)] at ha
    obtain rfl := Except.ok.inj ha
    rw [if_neg ((threshold_lt hestimate).le.trans hloud).not_gt,
      phases.value_eq_level (by omega) (by omega),
      model.phases.value_eq_level (by omega) (by omega)] at hphase
    exact Except.ok.inj hphase
  · rw [if_pos hvoiced]
    exact sum_draws hvoiced hhigh

theorem keeps_of_unvoiced (hvoiced : model.voiced = false) (hlow : 1 ≤ model.count)
    (hhigh : model.count ≤ maxHarmonics) (hestimate : estimate ∈ estimates)
    (h : treat model estimate noise = .ok treated) : Keeps model estimate treated := by
  obtain ⟨l, hl, rfl⟩ := unvoiced_of_treat hvoiced h
  refine ⟨track_mem false hestimate (lowestLevel_le hlow hhigh hl), ?_, ?_, rfl,
    fun _ _ _ _ => rfl, ?_⟩
  · rw [hvoiced]
    exact fun hfalse => absurd hfalse (by decide)
  · intro hloud
    obtain rfl := Except.ok.inj (hl.symm.trans (level_eq hhigh))
    exact track_loud false hloud
  · rw [hvoiced]
    rfl

theorem keeps_of_treat (hlow : 1 ≤ model.count) (hhigh : model.count ≤ maxHarmonics)
    (hestimate : estimate ∈ estimates) (h : treat model estimate noise = .ok treated) :
    Keeps model estimate treated := by
  cases hvoiced : model.voiced with
  | true => exact keeps_of_voiced hvoiced hhigh hestimate h
  | false => exact keeps_of_unvoiced hvoiced hlow hhigh hestimate h

theorem exists_keeps (noise : NoiseSource) (hlow : 1 ≤ model.count)
    (hhigh : model.count ≤ maxHarmonics) (hestimate : estimate ∈ estimates) :
    ∃ treated, treat model estimate noise = .ok treated ∧ Keeps model estimate treated := by
  obtain ⟨treated, htreated, -⟩ := yields_treat estimate noise hhigh
  exact ⟨treated, htreated, keeps_of_treat hlow hhigh hestimate htreated⟩

/-! ### Subframes in turn -/

/-- The estimate after the treatment of models in turn, each with the generator that it finds. -/
def estimateAfter {α : Type} [Analytic α] (estimate : α) :
    List (Model α × NoiseSource) → Except Fault α
  | [] => .ok estimate
  | (model, noise) :: rest => do
    let treated ← treat model estimate noise
    estimateAfter treated.estimate rest

theorem exists_estimateAfter {run : List (Model ℝ × NoiseSource)}
    (hrun : ∀ subframe ∈ run, 1 ≤ subframe.1.count ∧ subframe.1.count ≤ maxHarmonics)
    (hestimate : estimate ∈ estimates) :
    ∃ last, estimateAfter estimate run = .ok last ∧ last ∈ estimates := by
  induction run generalizing estimate with
  | nil => exact ⟨estimate, rfl, hestimate⟩
  | cons subframe rest ih =>
      obtain ⟨⟨hlow, hhigh⟩, hrest⟩ := List.forall_mem_cons.mp hrun
      obtain ⟨treated, htreated, hkeeps⟩ := exists_keeps subframe.2 hlow hhigh hestimate
      obtain ⟨last, hlast, hmem⟩ := ih hrest hkeeps.mem
      exact ⟨last, bind_eq_ok.mpr ⟨treated, htreated, hlast⟩, hmem⟩

end Background

namespace Subframe

open Background (estimates)

variable {engine : Engine ℝ}

theorem background_mem {subframe : Subframe engine} (hlow : 1 ≤ subframe.model.count)
    (hhigh : subframe.model.count ≤ maxHarmonics)
    (h : subframe.decoder.background ∈ estimates) :
    subframe.sounded.decoder.background ∈ estimates := by
  obtain ⟨_, phased, treated, -, hphased, htreated, -, -, hbackground, -⟩ := subframe.exists_passes
  obtain ⟨phases, rfl, -⟩ := Phase.phases_of_synthesise hphased
  rw [hbackground]
  exact (Background.keeps_of_treat (by exact hlow) (by exact hhigh) h htreated).mem

/-- Along a chain the estimate stays in its range. -/
theorem Chain.background_mem {first last : Decoder ℝ} {subframes : List (Subframe engine)}
    (h : Chain engine first subframes last) (hfirst : first.background ∈ estimates)
    (hcounts : ∀ subframe ∈ subframes,
      1 ≤ subframe.model.count ∧ subframe.model.count ≤ maxHarmonics) :
    (∀ subframe ∈ subframes, subframe.decoder.background ∈ estimates) ∧
      last.background ∈ estimates := by
  induction h with
  | nil continues => exact ⟨by simp, continues.background ▸ hfirst⟩
  | @cons first last subframe rest continues _ ih =>
      obtain ⟨⟨hlow, hhigh⟩, hrest⟩ := List.forall_mem_cons.mp hcounts
      have hbefore : subframe.decoder.background ∈ estimates := continues.background ▸ hfirst
      obtain ⟨hlater, hlast⟩ := ih (subframe.background_mem hlow hhigh hbefore) hrest
      exact ⟨List.forall_mem_cons.mpr ⟨hbefore, hlater⟩, hlast⟩

end Subframe

namespace Session

variable {engine : Engine ℝ} {mode : Mode} {session : Session ℝ}

/-- All models that are reported as synthesised have a number of harmonics that there can be. -/
theorem counts_of_serve {request : Request ℝ} {reply : Reply ℝ Answer}
    (h : session.closed = true ∨ session.Decodes mode)
    (hserve : session.serve engine request = .ok reply) :
    ∀ model ∈ Notice.sounded reply.notices, 1 ≤ model.count ∧ model.count ≤ maxHarmonics := by
  rcases serve_cases hserve with ⟨error, -, rfl⟩ | htaken
  · exact fun model hmodel => absurd hmodel List.not_mem_nil
  · cases htaken with
    | encode hopen hsize hdone =>
        have hnone := Frame.sounded_of_encode hdone
        exact fun model hmodel => absurd (hnone ▸ hmodel) List.not_mem_nil
    | @decode bytes errorRate done hopen hlength hdone =>
        obtain hclosed | hdecodes := h
        · rw [hopen] at hclosed
          cases hclosed
        have hcall : session.decode engine bytes errorRate = .ok (session.decoded done) := by
          rw [decode_eq, decodeRefusal?_eq_none.mpr ⟨hopen, hlength⟩]
          exact bind_eq_ok.mpr ⟨done, hdone, rfl⟩
        have hbytes : (bytes.length : Int) = mode.layout.totalBytes := by
          rw [hlength, bytesPerFrame, hdecodes.layout]
        obtain ⟨hanswered, -⟩ := (hdecodes.yields_decode engine errorRate hbytes).of_eq hcall
        intro model hmodel
        obtain ⟨event, hevent, rfl⟩ := List.mem_map.mp hmodel
        have hspeech := hanswered.synthesised event hevent
        exact ⟨by linarith [hspeech.count_low], hspeech.count_high⟩
    | close hopen => exact fun model hmodel => absurd hmodel List.not_mem_nil

theorem Decodes.counts_of_serveAll {requests : List (Request ℝ)} {replies : List (Reply ℝ Answer)}
    (h : session.Decodes mode) (hrun : session.serveAll engine requests = .ok replies) :
    ∀ model ∈ Notice.sounded (replies.flatMap Reply.notices),
      1 ≤ model.count ∧ model.count ≤ maxHarmonics := by
  have halong := along_of_callAll
    (I := fun session => session.closed = true ∨ session.Decodes mode)
    (Q := fun _ _ reply => ∀ model ∈ Notice.sounded reply.notices,
      1 ≤ model.count ∧ model.count ≤ maxHarmonics)
    (fun _ request _ hsession hserve =>
      ⟨counts_of_serve hsession hserve, (yields_serve engine hsession request).of_eq hserve⟩)
    (.inr h) hrun
  clear h hrun
  induction halong with
  | nil session => exact fun model hmodel => absurd hmodel List.not_mem_nil
  | cons hfirst _ ih =>
      rw [List.flatMap_cons, Notice.sounded_append]
      exact List.forall_mem_append.mpr ⟨hfirst, ih⟩

end Session

/-- The estimate of the noise level cannot run away: it stays below 40 decibels and not below the
level of silence in all harmonics, after every run of models and in every session. Voiced and loud
models do not move it, and loud harmonics keep their phases. -/
theorem noise_estimate_bounded :
    (∀ run : List (Model ℝ × NoiseSource),
      (∀ subframe ∈ run, 1 ≤ subframe.1.count ∧ subframe.1.count ≤ maxHarmonics) →
      ∃ estimate, Background.estimateAfter 0.0 run = .ok estimate ∧
        estimate ∈ Set.Ico (10 * Real.logb 10 (1e-12 / 80)) 40 ∧
        ∀ (model : Model ℝ) (noise : NoiseSource), 1 ≤ model.count → model.count ≤ maxHarmonics →
          ∃ treated, Background.treat model estimate noise = .ok treated ∧
            (model.voiced = true → treated.estimate = estimate) ∧
            (40 ≤ 10 * Real.logb 10
                ((1e-12 + ∑ m ∈ Finset.Icc 1 model.count, model.amps.level m ^ 2) / model.count) →
              treated.estimate = estimate) ∧
            treated.model = { model with phases := treated.model.phases } ∧
            (∀ m, 1 ≤ m → m ≤ model.count →
              10 ^ ((40 + 6) / 20 : ℝ) ≤ model.amps.level m →
              treated.model.phases.level m = model.phases.level m) ∧
            treated.count = if model.voiced then ((Finset.Icc 1 model.count).filter fun m =>
              model.amps.level m < 10 ^ ((estimate + 6) / 20)).card else 0) ∧
    ∀ (engine : Engine ℝ) (mode : Mode) (choices : List (Choice ℝ)), ∃ session created,
      Session.create mode choices = .ok (session, created) ∧
      ∀ requests, ∃ replies, session.serveAll engine requests = .ok replies ∧
        (session.afterAll replies).decoder.background ∈
          Set.Ico (10 * Real.logb 10 (1e-12 / 80)) 40 ∧
        ∃ subframes : List (Subframe engine),
          Subframe.Chain engine session.decoder subframes (session.afterAll replies).decoder ∧
          Notice.sounded (replies.flatMap Reply.notices) = subframes.map Subframe.model ∧
          ∀ subframe ∈ subframes,
            subframe.decoder.background ∈ Set.Ico (10 * Real.logb 10 (1e-12 / 80)) 40 := by
  rw [← Background.estimates_eq]
  constructor
  · intro run hrun
    obtain ⟨estimate, hestimate, hmem⟩ :=
      Background.exists_estimateAfter hrun Background.zero_mem_estimates
    refine ⟨estimate, hestimate, hmem, fun model noise hlow hhigh => ?_⟩
    obtain ⟨treated, htreated, hkeeps⟩ := Background.exists_keeps noise hlow hhigh hmem
    exact ⟨treated, htreated, hkeeps.voiced, hkeeps.loud, hkeeps.others, hkeeps.phases,
      hkeeps.count⟩
  · intro engine mode choices
    obtain ⟨session, created, hcreate, hdecodes⟩ := Session.exists_create mode choices
    refine ⟨session, created, hcreate, fun requests => ?_⟩
    obtain ⟨replies, hreplies, -⟩ := hdecodes.yields_serveAll engine requests
    obtain ⟨_, subframes, hrecords, -⟩ := Session.exists_records_of_serveAll hreplies
    have hcounts := hdecodes.counts_of_serveAll hreplies
    rw [hrecords.models, List.forall_mem_map] at hcounts
    obtain ⟨decoder, hdecoder, rfl⟩ := Session.exists_of_create hcreate
    have hstart : decoder.background ∈ Background.estimates :=
      (Decoder.fresh_of_start hdecoder).1 ▸ Background.zero_mem_estimates
    obtain ⟨hbefore, hlast⟩ := hrecords.chain.background_mem hstart hcounts
    exact ⟨replies, hreplies, hlast, subframes, hrecords.chain, hrecords.models, hbefore⟩

/-- Silence, and then a voiced model of which no harmonic rises above it. -/
theorem noise_estimate_bounded_silence :
    ∃ (silence hiss : Model ℝ) (estimate : ℝ) (treated : Background.Treated ℝ),
      silence = { Model.blank with count := 80 } ∧
      hiss = { Model.blank with count := 3, voiced := true } ∧
      Background.estimateAfter 0.0 [(silence, ⟨1⟩), (hiss, ⟨7⟩)] = .ok estimate ∧
      estimate ∈ Set.Ico (10 * Real.logb 10 (1e-12 / 80)) 40 ∧
      Background.treat hiss estimate ⟨9⟩ = .ok treated ∧ treated.estimate = estimate ∧
      treated.model.amps = hiss.amps ∧ treated.count = 3 := by
  let silence : Model ℝ := { Model.blank with count := 80 }
  let hiss : Model ℝ := { Model.blank with count := 3, voiced := true }
  have hrun : ∀ subframe ∈ [(silence, (⟨1⟩ : NoiseSource)), (hiss, ⟨7⟩)],
      1 ≤ subframe.1.count ∧ subframe.1.count ≤ maxHarmonics := by
    intro subframe hsubframe
    rcases List.mem_pair.mp hsubframe with rfl | rfl <;> decide
  obtain ⟨estimate, hestimate, hmem, htreat⟩ := noise_estimate_bounded.1 _ hrun
  obtain ⟨treated, htreated, hvoiced, -, hothers, -, hcount⟩ :=
    htreat hiss ⟨9⟩ (by decide) (by decide)
  have hquiet : ∀ m ∈ Finset.Icc 1 hiss.count, hiss.amps.level m < 10 ^ ((estimate + 6) / 20) := by
    intro m hm
    obtain ⟨hlow, hhigh⟩ : 1 ≤ m ∧ m ≤ 3 := Finset.mem_Icc.mp hm
    have hlt : m.toNat < 81 := by omega
    have hzero : hiss.amps.level m = 0 := by
      norm_num [Harmonics.level, hiss, Model.blank, hlt]
    rw [hzero]
    positivity
  rw [Finset.filter_true_of_mem hquiet] at hcount
  exact ⟨silence, hiss, estimate, treated, rfl, rfl, hestimate, hmem, htreated, hvoiced rfl,
    by rw [hothers], hcount⟩

end Vocoder
