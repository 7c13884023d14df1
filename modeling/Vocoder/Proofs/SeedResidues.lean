import Mathlib
import Vocoder.Proofs.FrameStages
import Vocoder.Proofs.GeneratorPeriod
import Vocoder.Proofs.PairedOutcomes
import Vocoder.Proofs.SessionRequests

/-!
Seeds with the same residue. A generator enters synthesis only through its draws, so two decoders
whose generators have the same residue make the same samples of a frame, fault alike, and are left
with generators that again have the same residue. What a session answers therefore depends on the
lowest 31 bits of its seed alone.
-/

namespace Vocoder

variable {α : Type} [Analytic α] {noise noise' : NoiseSource}

/-! ### A subframe -/

theorem NoiseSource.phase_congr (h : noise.residue = noise'.residue) :
    (noise.phase : α × NoiseSource).1 = (noise'.phase : α × NoiseSource).1 := by
  rw [phase, phase, shown_step_congr h]

@[simp] theorem NoiseSource.phase_snd (source : NoiseSource) :
    (source.phase : α × NoiseSource).2 = source.step := rfl

/-- The excitation of a harmonic, and what it leaves of the generator. -/
theorem Phase.excitation_congr (voiced : Bool) (pulse : α) (m : Int)
    (h : noise.residue = noise'.residue) :
    (excitation voiced pulse m noise).1 = (excitation voiced pulse m noise').1 ∧
      (excitation voiced pulse m noise).2.residue =
        (excitation voiced pulse m noise').2.residue := by
  have hphase : (noise.phase : α × NoiseSource).1 = noise'.phase.1 := NoiseSource.phase_congr h
  cases voiced with
  | true => simp [excitation, h]
  | false => simp [excitation, hphase, NoiseSource.residue_step_congr h]

theorem Phase.matches_synthesise (samples : Int) (model : Model α) (pulse : α)
    (response : Harmonics (Phasor α)) (h : noise.residue = noise'.residue) :
    Matches (fun left right => left.model = right.model ∧ left.pulse = right.pulse ∧
        left.noise.residue = right.noise.residue)
      (synthesise samples model pulse response noise)
      (synthesise samples model pulse response noise') := by
  refine Matches.bind (R := fun left right => left.1 = right.1 ∧ left.2.residue = right.2.residue)
    (Matches.foldRange ⟨rfl, h⟩ ?_) ?_
  · rintro m ⟨phases, source⟩ ⟨_, source'⟩ ⟨rfl, hsource⟩
    obtain ⟨hexcited, hleft⟩ :=
      excitation_congr model.voiced (advance pulse model.wo samples) m hsource
    dsimp only
    rw [hexcited]
    refine Matches.bind_same fun a => ?_
    refine Matches.bind_same fun next => ?_
    exact Matches.pure ⟨rfl, hleft⟩
  · rintro ⟨phases, source⟩ ⟨_, source'⟩ ⟨rfl, hsource⟩
    exact Matches.pure ⟨rfl, rfl, hsource⟩

theorem Background.matches_treat (model : Model α) (estimate : α)
    (h : noise.residue = noise'.residue) :
    Matches (fun left right => left.model = right.model ∧ left.estimate = right.estimate ∧
        left.count = right.count ∧ left.noise.residue = right.noise.residue)
      (treat model estimate noise) (treat model estimate noise') := by
  refine Matches.bind_same fun level => ?_
  dsimp only
  split_ifs
  · refine Matches.bind (R := fun left right => left.1 = right.1 ∧
      left.2.1.residue = right.2.1.residue ∧ left.2.2 = right.2.2)
      (Matches.foldRange ⟨rfl, h, rfl⟩ ?_) ?_
    · rintro m ⟨phases, source, count⟩ ⟨_, source', _⟩ ⟨rfl, hsource, rfl⟩
      have hphase : (source.phase : α × NoiseSource).1 = source'.phase.1 :=
        NoiseSource.phase_congr hsource
      refine Matches.bind_same fun a => ?_
      split_ifs
      · dsimp only
        rw [hphase]
        refine Matches.bind_same fun next => ?_
        exact Matches.pure ⟨rfl, NoiseSource.residue_step_congr hsource, rfl⟩
      · exact Matches.pure ⟨rfl, hsource, rfl⟩
    · rintro ⟨phases, source, count⟩ ⟨_, source', _⟩ ⟨rfl, hsource, rfl⟩
      exact Matches.pure ⟨rfl, rfl, rfl, hsource⟩
  · exact Matches.pure ⟨rfl, rfl, rfl, h⟩

/-- A decoder that differs from another at most in bits of the generator that no draw shows. -/
def Decoder.DrawsAlike (left right : Decoder α) : Prop :=
  ∃ noise : NoiseSource, left.noise.residue = noise.residue ∧ right = { left with noise }

theorem Decoder.matches_sound (engine : Engine α) {left right : Decoder α}
    (h : left.DrawsAlike right) (model : Model α) (bins : Bins α) :
    Matches (fun one other => one.samples = other.samples ∧ one.model = other.model ∧
        one.noisy = other.noisy ∧ one.decoder.DrawsAlike other.decoder)
      (left.sound engine model bins) (right.sound engine model bins) := by
  obtain ⟨noise, hnoise, rfl⟩ := h
  refine Matches.bind_same fun response => ?_
  apply (Phase.matches_synthesise _ model left.pulse response hnoise).bind
  rintro phased phased' ⟨hmodel, hpulse, hresidue⟩
  dsimp only
  rw [← hmodel]
  apply (Background.matches_treat phased.model left.background hresidue).bind
  rintro treated treated' ⟨hmodel', hestimate, hcount, hresidue'⟩
  rw [← hmodel']
  refine Matches.bind_same fun buffer => ?_
  refine Matches.pure ⟨rfl, rfl, hcount, treated'.noise, hresidue', ?_⟩
  rw [hpulse, hestimate]

/-! ### A frame -/

namespace Frame

/-- Synthesis on the way, and a decoded frame, that differ in such bits only. -/
def Sounding.DrawsAlike (left right : Sounding α) : Prop :=
  ∃ decoder, left.decoder.DrawsAlike decoder ∧ right = { left with decoder }

def Decoded.DrawsAlike (left right : Decoded α) : Prop :=
  ∃ decoder, left.decoder.DrawsAlike decoder ∧ right = { left with decoder }

theorem matches_soundAt (engine : Engine α) (settings : PostFilter α) (order : Int)
    (subframes : Subframes α) (tracks : Array (Array α)) {left right : Sounding α}
    (h : left.DrawsAlike right) (i : Nat) :
    Matches Sounding.DrawsAlike (soundAt engine settings order subframes tracks left i)
      (soundAt engine settings order subframes tracks right i) := by
  obtain ⟨decoder, hdecoder, rfl⟩ := h
  refine Matches.bind_same fun track => ?_
  refine Matches.bind_same fun filter => ?_
  refine Matches.bind_same fun energy => ?_
  refine Matches.bind_same fun source => ?_
  refine Matches.bind_same fun sampled => ?_
  refine Matches.bind_same fun model => ?_
  apply (Decoder.matches_sound engine hdecoder model sampled.bins).bind
  rintro sounded sounded' ⟨hsamples, hmodel, hnoisy, hlast⟩
  refine Matches.pure ⟨sounded'.decoder, hlast, ?_⟩
  rw [hsamples, hmodel, hnoisy]

/-- A frame is decoded alike by decoders whose generators have the same residue. -/
theorem matches_decode_of_residue (engine : Engine α) (layout : Layout) (settings : PostFilter α)
    {left right : Decoder α} (h : left.DrawsAlike right) (bytes : List UInt8) (errorRate : α) :
    Matches Decoded.DrawsAlike (decode engine layout settings left bytes errorRate)
      (decode engine layout settings right bytes errorRate) := by
  obtain ⟨noise, hnoise, rfl⟩ := h
  refine Matches.bind_same fun count => ?_
  refine Matches.bind_same fun content => ?_
  refine Matches.bind_same (r := updated layout left count content) ?_
  rintro ⟨received, reference⟩
  refine Matches.bind_same fun decoded => ?_
  refine Matches.bind_same ?_
  rintro ⟨ordered, swaps⟩
  refine Matches.bind_same fun lines => ?_
  refine Matches.bind_same fun model => ?_
  refine Matches.bind_same fun energy => ?_
  refine Matches.bind_same (r := interpolate layout left count _) fun interpolated => ?_
  refine Matches.bind_same (r := lineTracks left layout.order count lines) fun tracks => ?_
  apply (Matches.foldlM (R := Sounding.DrawsAlike)
    ⟨{ left with noise }, ⟨noise, hnoise, rfl⟩, rfl⟩
    fun i _ _ _ hsounding => matches_soundAt engine settings _ _ _ hsounding i).bind
  rintro sounding _ ⟨_, ⟨noise', hnoise', rfl⟩, rfl⟩
  refine Matches.bind_same fun lastModel => ?_
  refine Matches.bind_same fun lastEnergy => ?_
  exact Matches.pure ⟨_, ⟨noise', hnoise', rfl⟩, rfl⟩

end Frame

/-! ### Sessions -/

theorem Decoder.start_seed (order : Int) (seed seed' : UInt64) :
    (start order seed' : Except Fault (Decoder α)) =
      (start order seed).map fun decoder => { decoder with noise := ⟨seed'⟩ } := by
  unfold start
  cases length order with
  | error fault => rfl
  | ok count =>
      cases (Model.blank : Model α).withFundamental (Analytic.turn / Scalar.ofInt maxPeriod) <;> rfl

namespace Session

/-- A session that differs from another at most in its seed, and in bits of the generator that no
draw shows. -/
def DrawsAlike (left right : Session α) : Prop :=
  ∃ seed decoder, left.decoder.DrawsAlike decoder ∧
    right = { left with settings := { left.settings with seed }, decoder }

/-- Two replies to one request that say the same, from sessions that go on drawing alike. -/
structure SayAlike {β : Type} (left right : Reply α β) : Prop where
  result : left.result = right.result
  notices : left.notices = right.notices
  session : left.session.DrawsAlike right.session

omit [Analytic α] in
theorem SayAlike.map {β γ : Type} {left right : Reply α β} (h : SayAlike left right)
    (form : β → γ) : SayAlike (left.map form) (right.map form) :=
  ⟨congrArg (Except.map form) h.result, h.notices, h.session⟩

variable {left right : Session α}

omit [Analytic α] in
/-- A refusal depends on neither seed nor generator. -/
theorem DrawsAlike.refuse {β : Type} (h : left.DrawsAlike right) (error : Error) :
    SayAlike (left.refuse error : Reply α β) (right.refuse error) :=
  ⟨rfl, rfl, h⟩

theorem DrawsAlike.encode (h : left.DrawsAlike right) (engine : Engine α) (pcm : Array Int16) :
    Matches SayAlike (left.encode engine pcm) (right.encode engine pcm) := by
  have hrefusal : right.encodeRefusal? pcm = left.encodeRefusal? pcm := by
    obtain ⟨seed, decoder, -, rfl⟩ := h
    rfl
  rw [encode_eq, encode_eq, hrefusal]
  cases left.encodeRefusal? pcm with
  | some error => exact Matches.pure (h.refuse error)
  | none =>
      obtain ⟨seed, decoder, hdecoder, rfl⟩ := h
      refine Matches.bind_same fun done => ?_
      exact Matches.pure ⟨rfl, rfl, seed, decoder, hdecoder, rfl⟩

theorem DrawsAlike.decode (h : left.DrawsAlike right) (engine : Engine α) (bytes : List UInt8)
    (errorRate : α) : Matches SayAlike (left.decode engine bytes errorRate)
      (right.decode engine bytes errorRate) := by
  have hrefusal : right.decodeRefusal? bytes = left.decodeRefusal? bytes := by
    obtain ⟨seed, decoder, -, rfl⟩ := h
    rfl
  rw [decode_eq, decode_eq, hrefusal]
  cases left.decodeRefusal? bytes with
  | some error => exact Matches.pure (h.refuse error)
  | none =>
      obtain ⟨seed, decoder, hdecoder, rfl⟩ := h
      apply (Frame.matches_decode_of_residue engine left.layout left.settings.postFilter hdecoder
        bytes errorRate).bind
      rintro done _ ⟨last, hlast, rfl⟩
      exact Matches.pure ⟨rfl, rfl, seed, last, hlast, rfl⟩

theorem DrawsAlike.serve (h : left.DrawsAlike right) (engine : Engine α) (request : Request α) :
    Matches SayAlike (left.serve engine request) (right.serve engine request) := by
  cases request with
  | encode pcm =>
      exact (h.encode engine pcm).bind fun reply reply' hsay => Matches.pure (hsay.map _)
  | decode bytes errorRate =>
      exact (h.decode engine bytes errorRate).bind
        fun reply reply' hsay => Matches.pure (hsay.map _)
  | close =>
      refine Matches.pure (SayAlike.map ?_ _)
      obtain ⟨seed, decoder, hdecoder, rfl⟩ := h
      unfold close
      dsimp only
      split
      · exact ⟨rfl, rfl, seed, decoder, hdecoder, rfl⟩
      · exact ⟨rfl, rfl, seed, decoder, hdecoder, rfl⟩

/-- What is said in reply to requests. -/
def said {β : Type} (replies : List (Reply α β)) : List (Except Error β × List (Notice α)) :=
  replies.map fun reply => (reply.result, reply.notices)

/-- Sessions that draw alike say the same in reply to every run of requests, or fault alike. -/
theorem DrawsAlike.serveAll (h : left.DrawsAlike right) (engine : Engine α)
    (requests : List (Request α)) :
    Matches (fun replies replies' => said replies = said replies')
      (left.serveAll engine requests) (right.serveAll engine requests) := by
  induction requests generalizing left right with
  | nil => exact Matches.pure rfl
  | cons request rest ih =>
      apply (h.serve engine request).bind
      intro reply reply' hsay
      apply (ih hsay.session).bind
      intro later later' hlater
      refine Matches.pure ?_
      rw [said, List.map_cons, hsay.result, hsay.notices]
      exact congrArg _ hlater

variable {settings : Settings α} {seed : UInt64}

/-- Settings that differ in the seed only both make a session or neither does. -/
theorem exists_start_of_residue {layout : Layout} {session : Session α}
    (hseed : NoiseSource.residue ⟨settings.seed⟩ = NoiseSource.residue ⟨seed⟩)
    (h : start layout settings = .ok session) :
    ∃ other, start layout { settings with seed } = .ok other ∧ session.DrawsAlike other := by
  obtain ⟨decoder, hdecoder, h⟩ := bind_eq_ok.mp h
  obtain rfl := pure_eq_ok.mp h
  have hother : Decoder.start layout.order seed =
      .ok { decoder with noise := ⟨seed⟩ } := by
    rw [Decoder.start_seed _ settings.seed, hdecoder]
    rfl
  refine ⟨_, bind_eq_ok.mpr ⟨_, hother, rfl⟩, seed, _, ⟨⟨seed⟩, ?_, rfl⟩, rfl⟩
  rw [(Decoder.fresh_of_start hdecoder).2, hseed]

theorem exists_create_of_residue {mode : Mode} {choices others : List (Choice α)}
    {session : Session α} {created : List (Notice α)}
    (hsettings : Settings.ofChoices others = { Settings.ofChoices choices with seed })
    (hseed : NoiseSource.residue ⟨(Settings.ofChoices choices).seed⟩ = NoiseSource.residue ⟨seed⟩)
    (h : create mode choices = .ok (session, created)) :
    ∃ other, create mode others = .ok (other, created) ∧ session.DrawsAlike other := by
  rw [create] at h ⊢
  cases hvalid : mode.layout.validate with
  | error error => simp [hvalid] at h
  | ok =>
      cases hstart : start mode.layout (Settings.ofChoices choices) with
      | error fault => simp [hvalid, hstart] at h
      | ok started =>
          simp only [hvalid, hstart] at h
          cases h
          obtain ⟨other, hother, halike⟩ := exists_start_of_residue hseed hstart
          refine ⟨other, ?_, halike⟩
          simp only [hsettings, hother]
          rfl

end Session

/-- The generator has the full period on its lowest 31 bits, and the bits above do not matter:
sessions whose seeds agree modulo `2 ^ 31` give the same answers to all requests. -/
theorem generator_full_period_seed_bits :
    (∀ source : NoiseSource,
      IsLeast {n | 0 < n ∧
        (source.after n).state.toNat % 2 ^ 31 = source.state.toNat % 2 ^ 31} (2 ^ 31) ∧
      (∀ r, r < 2 ^ 31 → ∃! n, n < 2 ^ 31 ∧ (source.after n).state.toNat % 2 ^ 31 = r) ∧
      ∀ n, source.draws n ≤ NoiseSource.drawMax) ∧
    ∀ seed seed' : UInt64, seed.toNat % 2 ^ 31 = seed'.toNat % 2 ^ 31 →
      NoiseSource.draws ⟨seed⟩ = NoiseSource.draws ⟨seed'⟩ ∧
      ∀ (α : Type) [Analytic α] (engine : Engine α) (mode : Mode) (choices others : List (Choice α))
        (session : Session α) (created : List (Notice α)),
        (Settings.ofChoices choices).seed = seed →
        Settings.ofChoices others = { Settings.ofChoices choices with seed := seed' } →
        Session.create mode choices = .ok (session, created) →
        ∃ other, Session.create mode others = .ok (other, created) ∧
          ∀ requests : List (Request α),
            (session.serveAll engine requests).map Session.said =
              (other.serveAll engine requests).map Session.said := by
  refine ⟨fun source => ⟨source.isLeast_return, fun r => source.existsUnique_residue_after,
    fun n => (source.after n).next_le⟩,
    fun seed seed' hseeds => ⟨NoiseSource.draws_congr hseeds, ?_⟩⟩
  rintro α _ engine mode choices others session created rfl hsettings hcreate
  obtain ⟨other, hother, halike⟩ := Session.exists_create_of_residue hsettings hseeds hcreate
  exact ⟨other, hother, fun requests =>
    (halike.serveAll engine requests).map_eq fun _ _ hsaid => hsaid⟩

/-- The seed that is used without a choice, and one that has a bit more above the lowest 31. -/
theorem generator_full_period_seed_bits_above :
    UInt64.toNat 1 % 2 ^ 31 = UInt64.toNat 2147483649 % 2 ^ 31 ∧
    NoiseSource.draws ⟨1⟩ = NoiseSource.draws ⟨2147483649⟩ ∧ NoiseSource.draws ⟨1⟩ 0 = 16838 ∧
    ∃ (requests : List (Request ℝ)) (session other : Session ℝ) (created : List (Notice ℝ))
      (replies replies' : List (Reply ℝ Answer)),
      requests = [.decode (List.replicate 6 255) 0, .encode (Array.replicate 320 9),
        .decode (List.replicate 6 0) 1] ∧
      Session.create .rate1200 [] = .ok (session, created) ∧
      Session.create .rate1200 [.seed 2147483649] = .ok (other, created) ∧
      session.serveAll (Engine.ofTransform Transform.dft) requests = .ok replies ∧
      other.serveAll (Engine.ofTransform Transform.dft) requests = .ok replies' ∧
      Session.said replies = Session.said replies' := by
  have hseeds : UInt64.toNat 1 % 2 ^ 31 = UInt64.toNat 2147483649 % 2 ^ 31 := by decide
  obtain ⟨hdraws, hsessions⟩ := generator_full_period_seed_bits.2 1 2147483649 hseeds
  obtain ⟨session, created, hcreate, hdecodes⟩ := Session.exists_create .rate1200 []
  obtain ⟨other, hother, hsaid⟩ := hsessions ℝ (Engine.ofTransform Transform.dft) .rate1200 []
    [.seed 2147483649] session created rfl rfl hcreate
  let requests : List (Request ℝ) := [.decode (List.replicate 6 255) 0,
    .encode (Array.replicate 320 9), .decode (List.replicate 6 0) 1]
  obtain ⟨replies, hreplies, -⟩ :=
    hdecodes.yields_serveAll (Engine.ofTransform Transform.dft) requests
  have hsame := hsaid requests
  rw [hreplies] at hsame
  cases hreplies' : other.serveAll (Engine.ofTransform Transform.dft) requests with
  | error fault =>
      rw [hreplies'] at hsame
      cases hsame
  | ok replies' =>
      rw [hreplies'] at hsame
      exact ⟨hseeds, hdraws, by decide, requests, session, other, created, replies, replies', rfl,
        hcreate, hother, hreplies, hreplies', Except.ok.inj hsame⟩

end Vocoder
