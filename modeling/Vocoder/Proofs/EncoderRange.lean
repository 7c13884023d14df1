import Vocoder.Proofs.DecoderTotal
import Vocoder.Proofs.LockStep
import Vocoder.Proofs.SessionRuns

/-!
What the encoder finds over the real numbers. Every subframe of a frame is analysed, from a pitch
estimate with a period of 20 to 160 samples, and the model that its analysis ends with has a
fundamental of speech, all its harmonics, and amplitudes that are not negative.
-/

namespace Vocoder

/-! ### Amplitudes -/

namespace Harmonics

variable {β : Type}

theorem put_eq_ok {values next : Harmonics β} {m : Int} {x : β} :
    values.put m x = .ok next ↔ 0 ≤ m ∧ m < 81 ∧ next = values.setIfInBounds m.toNat x := by
  unfold put
  split_ifs with hm
  · simp [hm, eq_comm]
  · simp only [false_iff]
    exact fun h => hm ⟨h.1, h.2.1⟩

theorem value_eq_ok {values : Harmonics β} {m : Int} {x : β} :
    values.value m = .ok x ↔ 0 ≤ m ∧ values[m.toNat]? = some x := by
  rw [value, fetch_eq_ok, Vector.getElem?_toArray]

theorem value_put {values next : Harmonics β} {m : Int} {x : β} (h : values.put m x = .ok next) :
    next.value m = .ok x := by
  obtain ⟨hlow, hhigh, rfl⟩ := put_eq_ok.mp h
  rw [value_eq_ok]
  exact ⟨hlow, Vector.getElem?_setIfInBounds_self_of_lt (by omega)⟩

theorem value_put_of_ne {values next : Harmonics β} {m n : Int} {x : β}
    (h : values.put m x = .ok next) (hne : n ≠ m) : next.value n = values.value n := by
  obtain ⟨hlow, hhigh, rfl⟩ := put_eq_ok.mp h
  by_cases hn : 0 ≤ n
  · have hne' : m.toNat ≠ n.toNat := by omega
    simp [value, fetch, hn, hne']
  · simp [value, fetch, hn]

/-- Every harmonic that was filled in has the value that the function gave for it. -/
theorem value_of_fill {values filled : Harmonics β} {count : Int} {f : Int → Except Fault β}
    (h : values.fill count f = .ok filled) {m : Int} (hlow : 1 ≤ m) (hhigh : m ≤ count) :
    ∃ x, f m = .ok x ∧ filled.value m = .ok x := by
  have hall := foldBetween_induction
    (P := fun i (values : Harmonics β) => ∀ m, 1 ≤ m → m < i →
      ∃ x, f m = .ok x ∧ values.value m = .ok x) h
    (fun m hm hlt => by omega) fun i values next _ _ hvalues hstep m hm hlt => by
      obtain ⟨y, hy, hput⟩ := bind_eq_ok.mp hstep
      by_cases heq : m = i
      · subst heq
        exact ⟨y, hy, value_put hput⟩
      · obtain ⟨x, hx, hvalue⟩ := hvalues m hm (by omega)
        exact ⟨x, hx, (value_put_of_ne hput heq).trans hvalue⟩
  exact hall m hlow (by omega)

end Harmonics

theorem Amplitudes.amplitude_nonneg {bins : Array (Phasor ℝ)} {wo a : ℝ} {m : Int}
    (h : amplitude bins wo m = .ok a) : 0 ≤ a := by
  obtain ⟨power, _, h⟩ := bind_eq_ok.mp h
  cases h
  exact Real.sqrt_nonneg power

/-! ### The analysis of a subframe -/

namespace Encoder

variable {α : Type} [Analytic α]

/-- What the stages of analysing a subframe make, in order. -/
structure Analysis (engine : Engine α) (encoder : Encoder α) (fresh : Vector α 80)
    (start : Model α) where
  bins : Bins α
  found : Pitch.Estimate α
  pitch : Pitch.Memory α
  refined : Model α
  measured : Model α
  judged : Model α
  evidence : Voicing.Evidence α
  transforming : engine.speechBins (shift encoder.speech fresh).toArray = .ok bins
  estimating : Pitch.estimate engine.transform engine.pitchWindow encoder.pitch fresh.toList
    encoder.lastEstimate = .ok (found, pitch)
  refining : Refinement.refine PitchRange.speech
    { start with wo := Analytic.turn / found.period } bins.toArray = .ok refined
  measuring : Amplitudes.estimate refined bins.toArray = .ok measured
  judging : Voicing.estimate measured bins.toArray engine.response.toArray =
    .ok (judged, evidence)

namespace Analysis

variable {engine : Engine α} {encoder : Encoder α} {fresh : Vector α 80} {start : Model α}

/-- The fundamental in Hz. -/
def f0 (analysis : Analysis engine encoder fresh start) : α :=
  analysis.judged.wo * Scalar.ofInt sampleRate / Analytic.turn

/-- The model that the analysis ends with. -/
def model (analysis : Analysis engine encoder fresh start) : Model α :=
  { analysis.judged with
    voiced := analysis.judged.voiced && !Voicing.jumped analysis.f0 encoder.lastF0
      encoder.lastVoiced analysis.evidence.ratio }

/-- The encoder after the analysis. -/
def next (analysis : Analysis engine encoder fresh start) : Encoder α :=
  { encoder with
    speech := shift encoder.speech fresh
    pitch := analysis.pitch
    lastEstimate := analysis.found.f0
    lastF0 := analysis.f0
    lastVoiced := analysis.model.voiced }

theorem analyse_eq (analysis : Analysis engine encoder fresh start) :
    encoder.analyse engine fresh start = .ok (analysis.model, analysis.next) := by
  rw [analyse, analysis.transforming]
  refine bind_eq_ok.mpr ⟨_, rfl, bind_eq_ok.mpr ⟨_, analysis.estimating, ?_⟩⟩
  refine bind_eq_ok.mpr ⟨_, analysis.refining, bind_eq_ok.mpr ⟨_, analysis.measuring, ?_⟩⟩
  exact bind_eq_ok.mpr ⟨_, analysis.judging, rfl⟩

theorem exists_of_analyse {done : Model α × Encoder α}
    (h : encoder.analyse engine fresh start = .ok done) :
    ∃ analysis : Analysis engine encoder fresh start, (analysis.model, analysis.next) = done := by
  obtain ⟨bins, hbins, h⟩ := bind_eq_ok.mp h
  obtain ⟨⟨found, pitch⟩, hfound, h⟩ := bind_eq_ok.mp h
  obtain ⟨refined, hrefined, h⟩ := bind_eq_ok.mp h
  obtain ⟨measured, hmeasured, h⟩ := bind_eq_ok.mp h
  obtain ⟨⟨judged, evidence⟩, hjudged, h⟩ := bind_eq_ok.mp h
  cases h
  exact ⟨⟨bins, found, pitch, refined, measured, judged, evidence, hbins, hfound, hrefined,
    hmeasured, hjudged⟩, rfl⟩

/-- The harmonics are counted and measured before the voicing is judged. -/
theorem exists_amplitude (analysis : Analysis engine encoder fresh start) {m : Int} (hlow : 1 ≤ m)
    (hhigh : m ≤ analysis.model.count) :
    ∃ a, Amplitudes.amplitude analysis.bins.toArray analysis.refined.wo m = .ok a ∧
      analysis.model.amps.value m = .ok a := by
  obtain ⟨amps, hamps, hmeasured⟩ := bind_eq_ok.mp analysis.measuring
  obtain ⟨evidence, _, hjudged⟩ := bind_eq_ok.mp analysis.judging
  have hjudged' := pure_eq_ok.mp hjudged
  have hmeasured' := pure_eq_ok.mp hmeasured
  have hamps' : amps = analysis.model.amps :=
    (congrArg Model.amps hmeasured').trans (congrArg (fun done => done.1.amps) hjudged')
  have hcount : analysis.refined.count = analysis.model.count :=
    (congrArg Model.count hmeasured').trans (congrArg (fun done => done.1.count) hjudged')
  rw [← hamps']
  exact Harmonics.value_of_fill hamps hlow (hcount ▸ hhigh)

end Analysis

end Encoder

/-- A model of speech whose amplitudes were measured. -/
structure Model.Measured (model : Model ℝ) : Prop where
  wo_low : 2 * Real.pi / 160 ≤ model.wo
  wo_high : model.wo ≤ 2 * Real.pi / 20
  count : model.count = ⌊Real.pi / model.wo⌋
  count_low : 10 ≤ model.count
  count_high : model.count ≤ 80
  amps : ∀ m : Int, 1 ≤ m → m ≤ model.count → ∃ a, model.amps.value m = .ok a ∧ 0 ≤ a

namespace Encoder.Analysis

variable {engine : Engine ℝ} {encoder : Encoder ℝ} {fresh : Vector ℝ 80} {start : Model ℝ}

theorem found_inBand (analysis : Analysis engine encoder fresh start) : analysis.found.InBand :=
  (Pitch.yields_estimate engine.transform engine.pitchWindow encoder.pitch encoder.lastEstimate
    (by simp)).of_eq analysis.estimating

theorem model_measured (analysis : Analysis engine encoder fresh start) :
    analysis.model.Measured := by
  have hfitted := (encoder.yields_analyse engine fresh start).of_eq analysis.analyse_eq
  refine ⟨PitchRange.speech_low ▸ hfitted.wo.low, PitchRange.speech_high ▸ hfitted.wo.high,
    hfitted.count, hfitted.count_bounds.1, hfitted.count_bounds.2, fun m hlow hhigh => ?_⟩
  obtain ⟨a, ha, hvalue⟩ := analysis.exists_amplitude hlow hhigh
  exact ⟨a, hvalue, Amplitudes.amplitude_nonneg ha⟩

end Encoder.Analysis

/-! ### The subframes of a frame -/

namespace Frame

variable {α : Type} [Analytic α]

/-- The analysis of a subframe of a frame, after the walk through those before it. -/
structure AnalysisAt (engine : Engine α) (layout : Layout) (frames : Nat) (encoder : Encoder α)
    (pcm : Array Int16) (i : Nat) where
  walked : Walk α
  samples : Vector Int16 80
  walking : walk engine layout frames encoder pcm i = .ok walked
  taking : subframe pcm i = .ok samples
  analysis : walked.encoder.Analysis engine
    (samples.map fun s => (Scalar.ofInt s.toInt : α)) walked.model

/-- The subframes that a list of reports tells to be analysed. -/
def analysed (notices : List (Notice α)) : List (Event α) :=
  (Notice.events notices).filter fun event => event.stage = .analysing

omit [Analytic α] in
theorem analysed_append (left right : List (Notice α)) :
    analysed (left ++ right) = analysed left ++ analysed right := by
  rw [analysed, Notice.events, List.filterMap_append, List.filter_append]
  rfl

variable {engine : Engine α} {layout : Layout} {frames : Nat} {encoder : Encoder α}
  {pcm : Array Int16}

/-- A subframe of the walk adds the report of its analysis and of no other. -/
theorem Walk.analysed_step {i : Nat} {walked next : Walk α}
    (hwalked : walk engine layout frames encoder pcm i = .ok walked)
    (h : walked.step engine layout frames pcm i = .ok next) :
    ∃ place : AnalysisAt engine layout frames encoder pcm i,
      analysed next.notices =
        analysed walked.notices ++ [⟨.analysing, i, place.analysis.model, 0.0⟩] := by
  obtain ⟨middle, hmiddle, h⟩ := bind_eq_ok.mp h
  obtain ⟨samples, hsamples, hmiddle⟩ := bind_eq_ok.mp hmiddle
  obtain ⟨done, hdone, hmiddle⟩ := bind_eq_ok.mp hmiddle
  obtain ⟨analysis, rfl⟩ := Encoder.Analysis.exists_of_analyse hdone
  obtain rfl := pure_eq_ok.mp hmiddle
  refine ⟨⟨walked, samples, hwalked, hsamples, analysis⟩, ?_⟩
  cases hat : layout.updateAt? i with
  | none =>
      rw [hat] at h
      obtain rfl := pure_eq_ok.mp h
      rw [analysed_append]
      rfl
  | some u =>
      rw [hat] at h
      obtain ⟨found, _, h⟩ := bind_eq_ok.mp h
      obtain ⟨scheme, _, h⟩ := bind_eq_ok.mp h
      obtain ⟨⟨code, reference⟩, _, h⟩ := bind_eq_ok.mp h
      obtain rfl := pure_eq_ok.mp h
      rw [analysed_append, analysed_append, analysed_append]
      -- A fallback is no stage, and the update enters another one.
      split_ifs <;> simp [analysed, Notice.events]

/-- The reports of a walk are those of the analyses of its subframes, in order. -/
theorem analysed_walk {count : Nat} {walked : Walk α}
    (h : walk engine layout frames encoder pcm count = .ok walked) :
    (analysed walked.notices).length = count ∧
      ∀ (i : Nat) (event : Event α), (analysed walked.notices)[i]? = some event →
        ∃ place : AnalysisAt engine layout frames encoder pcm i,
          event = ⟨.analysing, i, place.analysis.model, 0.0⟩ := by
  induction count generalizing walked with
  | zero =>
      cases h
      exact ⟨rfl, by simp [Walk.start, analysed, Notice.events]⟩
  | succ count ih =>
      rw [walk_succ] at h
      obtain ⟨middle, hmiddle, hstep⟩ := bind_eq_ok.mp h
      obtain ⟨hlength, hevents⟩ := ih hmiddle
      obtain ⟨place, hnotices⟩ := Walk.analysed_step hmiddle hstep
      rw [hnotices]
      refine ⟨by rw [List.length_append, hlength, List.length_singleton], ?_⟩
      intro i event hevent
      rcases Nat.lt_trichotomy i count with hlt | rfl | hgt
      · rw [List.getElem?_append_left (by omega)] at hevent
        exact hevents i event hevent
      · rw [List.getElem?_append_right hlength.le, hlength, Nat.sub_self] at hevent
        cases hevent
        exact ⟨place, rfl⟩
      · rw [List.getElem?_eq_none (by simp [hlength]; omega)] at hevent
        cases hevent

theorem analysed_encode {done : Encoded α}
    (h : encode engine layout frames encoder pcm = .ok done) :
    (analysed done.notices).length = layout.subframes.toNat ∧
      ∀ (i : Nat) (event : Event α), (analysed done.notices)[i]? = some event →
        ∃ place : AnalysisAt engine layout frames encoder pcm i,
          event = ⟨.analysing, i, place.analysis.model, 0.0⟩ := by
  obtain ⟨size, _, h⟩ := bind_eq_ok.mp h
  obtain ⟨subframes, hsubframes, h⟩ := bind_eq_ok.mp h
  obtain ⟨walked, hwalked, h⟩ := bind_eq_ok.mp h
  obtain ⟨⟨indexes, lineError⟩, _, h⟩ := bind_eq_ok.mp h
  obtain ⟨spare, _, h⟩ := bind_eq_ok.mp h
  obtain ⟨writer, _, h⟩ := bind_eq_ok.mp h
  cases h
  obtain ⟨_, _, rfl⟩ := length_eq_ok.mp hsubframes
  have hend : analysed [Notice.entered (Event.ofFrame .packed : Event α),
      .entered (Event.ofFrame .idle)] = [] := by
    simp [analysed, Notice.events, Event.ofFrame]
  rw [analysed_append, hend, List.append_nil]
  exact analysed_walk hwalked

end Frame

/-! ### Sessions -/

/-- Encodes frames of samples in turn. -/
def Session.encodeAll {α : Type} [Analytic α] (engine : Engine α) (session : Session α)
    (run : List (Array Int16)) : Except Fault (List (Reply α (List UInt8))) :=
  callAll (encode engine) session run

/-- The encoder returns on every run of frames with the right number of samples. Every subframe is
analysed, from a pitch estimate in its range to a model with a fundamental of speech and amplitudes
that are not negative. -/
theorem encoder_total_in_range (mode : Mode) (engine : Engine ℝ) (choices : List (Choice ℝ)) :
    ∃ session notices, Session.create mode choices = .ok (session, notices) ∧
      session.layout = mode.layout ∧ ∀ run : List (Array Int16),
        (∀ pcm ∈ run, (pcm.size : Int) = session.samplesPerFrame) →
        ∃ replies, session.encodeAll engine run = .ok replies ∧
          Session.Along (fun before pcm reply =>
            (∃ bytes, reply.result = .ok bytes ∧
              (bytes.length : Int) = session.bytesPerFrame) ∧
            (Frame.analysed reply.notices).length = session.layout.subframes ∧
            ∀ (i : Nat) (event : Event ℝ), (Frame.analysed reply.notices)[i]? = some event →
              event.subframe = i ∧ event.model.Measured ∧
              ∃ place : Frame.AnalysisAt engine session.layout before.stats.frames before.encoder
                  pcm i,
                event.model = place.analysis.model ∧
                20 ≤ place.analysis.found.period ∧ place.analysis.found.period ≤ 160)
            session run replies := by
  obtain ⟨session, notices, hcreate, hsession⟩ := Session.exists_create mode choices
  have hlayout := hsession.layout
  refine ⟨session, notices, hcreate, hlayout, fun run hrun => ?_⟩
  refine Session.yields_callAll (I := fun session =>
    session.layout = mode.layout ∧ session.closed = false) ?_ ⟨hlayout, hsession.opened⟩
  rintro before pcm hpcm ⟨hbefore, hopen⟩
  have hsize : (pcm.size : Int) = before.samplesPerFrame := by
    rw [hrun pcm hpcm, Session.samplesPerFrame, Session.samplesPerFrame, hbefore, hlayout]
  refine (Session.yields_encode engine hbefore hopen hsize).with_eq.mono ?_
  rintro reply ⟨hreply, hbytes, hnext⟩
  obtain ⟨done, hdone, rfl⟩ := Session.exists_of_encode hopen hsize hreply
  obtain ⟨hlength, hevents⟩ := Frame.analysed_encode hdone
  have hpos := (Layout.regular_of_mode mode).subframes_pos
  rw [hbefore, ← hlayout] at hevents
  refine ⟨⟨?_, ?_, fun i event hevent => ?_⟩, hnext⟩
  · rw [Session.bytesPerFrame, hlayout]
    exact hbytes
  · rw [hlayout, Session.encoded, hlength, hbefore]
    omega
  · obtain ⟨place, rfl⟩ := hevents i event hevent
    exact ⟨rfl, place.analysis.model_measured, place, rfl, place.analysis.found_inBand.low,
      place.analysis.found_inBand.high⟩

/-- A silent frame and a loud one on one session; the last subframe of the loud one. -/
theorem encoder_total_in_range_silent_loud :
    ∃ session notices, Session.create .rate1300 [] = .ok (session, notices) ∧
      (∀ pcm ∈ [Array.replicate 320 (0 : Int16), Array.replicate 320 32767],
        (pcm.size : Int) = session.samplesPerFrame) ∧
      ∃ silent loud, session.encodeAll (Engine.ofTransform Transform.dft)
          [Array.replicate 320 0, Array.replicate 320 32767] = .ok [silent, loud] ∧
        (∃ bytes, loud.result = .ok bytes ∧ bytes.length = 7) ∧
        ∃ event, (Frame.analysed loud.notices)[3]? = some event ∧ event.subframe = 3 ∧
          event.model.Measured ∧
          ∃ place : Frame.AnalysisAt (Engine.ofTransform Transform.dft) session.layout
              silent.session.stats.frames silent.session.encoder (Array.replicate 320 32767) 3,
            event.model = place.analysis.model ∧
            20 ≤ place.analysis.found.period ∧ place.analysis.found.period ≤ 160 := by
  obtain ⟨session, notices, hcreate, hlayout, htotal⟩ :=
    encoder_total_in_range .rate1300 (Engine.ofTransform Transform.dft) []
  have hrun : ∀ pcm ∈ [Array.replicate 320 (0 : Int16), Array.replicate 320 32767],
      (pcm.size : Int) = session.samplesPerFrame := by
    rw [Session.samplesPerFrame, hlayout]
    intro pcm hpcm
    rcases List.mem_pair.mp hpcm with rfl | rfl <;> rw [Array.size_replicate] <;> rfl
  obtain ⟨replies, hreplies, hanswered⟩ := htotal _ hrun
  obtain _ | @⟨_, _, silent, _, _, _, hloud⟩ := hanswered
  obtain _ | @⟨_, _, loud, _, _, ⟨⟨bytes, hbytes, hlength⟩, hcount, hevents⟩, hnil⟩ := hloud
  cases hnil
  rw [Session.bytesPerFrame, hlayout, show Mode.rate1300.layout.totalBytes = 7 by decide] at hlength
  rw [hlayout, show Mode.rate1300.layout.subframes = 4 by decide] at hcount
  have hlast : 3 < (Frame.analysed loud.notices).length := by omega
  have hevent := List.getElem?_eq_getElem hlast
  exact ⟨session, notices, hcreate, hrun, silent, loud, hreplies,
    ⟨bytes, hbytes, by omega⟩, _, hevent, hevents 3 _ hevent⟩

end Vocoder
