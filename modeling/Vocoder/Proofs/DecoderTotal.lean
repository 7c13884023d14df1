import Vocoder.Proofs.SessionRuns
import Vocoder.Proofs.SubframeRange
import Vocoder.Proofs.SynthesisTotal

/-!
The decoder over the real numbers. It returns on every frame of the right length, whatever its bits
are and whatever was decoded before. All subframes that it synthesises, and the one that it carries
over to the next frame, are in range.
-/

namespace Vocoder

/-- What holds of the decoder between frames. -/
structure Decoder.Sound (order : Int) (decoder : Decoder ℝ) : Prop where
  overlap : decoder.overlap.size = 2 * subframeSize
  lastModel : decoder.lastModel.Fitted
  lastLines : (decoder.lastLines.size : Int) = order
  lastEnergy : Energy.InRange decoder.lastEnergy

theorem Decoder.yields_start {order : Int} (hlow : 0 ≤ order) (hhigh : order ≤ 2 ^ 45)
    (seed : UInt64) : Yields (Decoder.start order seed) (Decoder.Sound order) := by
  have hlowest : PitchRange.speech.Has (Analytic.turn / Scalar.ofInt maxPeriod : ℝ) := by
    have hperiod : (Analytic.turn / Scalar.ofInt maxPeriod : ℝ) = PitchRange.speech.low := by
      rw [PitchRange.speech_low, Analytic.turn_real, Analytic.ofInt_real]
      norm_num [maxPeriod]
    rw [hperiod]
    exact PitchRange.has_low
  refine (yields_length hlow hhigh).bind fun count hcount => ?_
  refine (Model.yields_withFundamental Model.blank hlowest).bind
    fun model hmodel => Yields.pure ⟨?_, hmodel, ?_, ?_⟩
  · exact Array.size_replicate
  · rw [Array.size_map, Array.size_range, hcount]
    omega
  · exact ⟨by norm_num, by norm_num⟩

namespace Frame

/-! ### Subframes in turn -/

/-- The reports of the first subframes, each synthesised in range. -/
structure Announced (count : Nat) (events : List (Event ℝ)) : Prop where
  subframes : events.map Event.subframe = (List.range count).map fun (i : Nat) => (i : Int)
  stages : ∀ event ∈ events, event.stage = .synthesising
  fitted : ∀ event ∈ events, event.model.Fitted
  inRange : ∀ event ∈ events, Energy.InRange event.energy

theorem Announced.push {count : Nat} {events : List (Event ℝ)} (h : Announced count events)
    {model : Model ℝ} {energy : ℝ} (hmodel : model.Fitted) (henergy : Energy.InRange energy) :
    Announced (count + 1) (events ++ [⟨.synthesising, count, model, energy⟩]) where
  subframes := by simp [h.subframes, List.range_succ]
  stages := List.forall_mem_append.mpr ⟨h.stages, List.forall_mem_singleton.mpr rfl⟩
  fitted := List.forall_mem_append.mpr ⟨h.fitted, List.forall_mem_singleton.mpr hmodel⟩
  inRange := List.forall_mem_append.mpr ⟨h.inRange, List.forall_mem_singleton.mpr henergy⟩

/-- What holds of synthesis after some subframes. -/
structure Sounding.Progress (count : Nat) (sounding : Sounding ℝ) : Prop where
  overlap : sounding.decoder.overlap.size = 2 * subframeSize
  models : sounding.models.length = count
  fitted : ∀ model ∈ sounding.models, model.Fitted
  samples : sounding.samples.length = count * subframeSize
  notices : ∃ events, sounding.notices = events.map Notice.entered ∧ Announced count events

theorem yields_soundAt (engine : Engine ℝ) (settings : PostFilter ℝ) {order : Int} {count i : Nat}
    {subframes : Subframes ℝ} {tracks : Array (Array ℝ)} {sounding : Sounding ℝ}
    (hlow : 0 ≤ order) (hhigh : order ≤ 20) (heven : order % 2 = 0) (hi : i < count)
    (hready : subframes.Ready count fun _ => True) (hcount : tracks.size = count)
    (htracks : ∀ track ∈ tracks, (track.size : Int) = order) (h : sounding.Progress i) :
    Yields (soundAt engine settings order subframes tracks sounding i)
      (Sounding.Progress (i + 1)) := by
  refine (yields_fetch (by omega) (by omega) htracks).bind fun track htrack => ?_
  refine (Lines.yields_toFilter hlow hhigh heven htrack.ge).bind fun filter hfilter => ?_
  refine (hready.yields_energy (by omega) (by omega) trivial).bind fun energy henergy => ?_
  refine (hready.yields_model (by omega) (by omega) trivial).bind fun model hmodel => ?_
  refine (Envelope.yields_sample engine.transform energy hmodel
    (.of_size settings hlow (by omega) hfilter)).bind fun sampled hsampled => ?_
  refine (Envelope.yields_correct hsampled).bind fun corrected hcorrected => ?_
  refine (Decoder.yields_sound engine sampled.bins hcorrected h.overlap).bind
    fun sounded hsounded => ?_
  obtain ⟨hsamples, hfitted, hoverlap⟩ := hsounded
  obtain ⟨events, hevents, hannounced⟩ := h.notices
  refine Yields.pure ⟨hoverlap, ?_, ?_, ?_, events ++ [_], ?_, hannounced.push hcorrected henergy⟩
  · rw [List.length_append, h.models, List.length_singleton]
  · exact List.forall_mem_append.mpr ⟨h.fitted, List.forall_mem_singleton.mpr hfitted⟩
  · rw [List.length_append, h.samples, hsamples, Nat.succ_mul]
  · rw [hevents, List.map_append]
    rfl

/-! ### Frames -/

/-- The subframes that a list of reports tells to be synthesised. -/
def synthesised (notices : List (Notice ℝ)) : List (Event ℝ) :=
  (Notice.events notices).filter fun event => event.stage = .synthesising

theorem synthesised_append (left right : List (Notice ℝ)) :
    synthesised (left ++ right) = synthesised left ++ synthesised right := by
  rw [synthesised, Notice.events, List.filterMap_append, List.filter_append]
  rfl

theorem Announced.synthesised_eq {count : Nat} {events : List (Event ℝ)}
    (h : Announced count events) : synthesised (events.map Notice.entered) = events := by
  have hevents : Notice.events (events.map Notice.entered) = events := by
    rw [Notice.events, List.filterMap_map]
    exact List.filterMap_some
  rw [synthesised, hevents, List.filter_eq_self]
  simpa using h.stages

/-- What holds of a decoded frame. -/
structure Decoded.Complete (layout : Layout) (decoded : Decoded ℝ) : Prop where
  samples : decoded.samples.length = layout.subframes * subframeSize
  decoder : decoded.decoder.Sound layout.order
  announced : Announced layout.subframes.toNat (synthesised decoded.notices)

/-- Every frame that is long enough is decoded, and all its subframes are in range. -/
theorem yields_decode (engine : Engine ℝ) {layout : Layout} (settings : PostFilter ℝ)
    {decoder : Decoder ℝ} {bytes : List UInt8} (errorRate : ℝ) (hlayout : layout.Regular)
    (hsubframes : layout.subframes ≤ 2 ^ 45) (horder : layout.order = 10)
    (hbits : layout.contentBits ≤ 8 * bytes.length) (h : decoder.Sound layout.order) :
    Yields (decode engine layout settings decoder bytes errorRate) (Decoded.Complete layout) := by
  have hpos := hlayout.subframes_pos
  refine (yields_length (by omega) hsubframes).bind fun count hcount => ?_
  refine (yields_read hlayout hbits).bind fun content hcontent => ?_
  have hupdated : Yields (updated layout decoder count content) fun done =>
      done.1.Ready count fun i => (i : Int) ∈ layout.updates := by
    refine (yields_dequantise (Subframes.Ready.start count content.voicing) hcontent.updates
      fun subframe hmem => ⟨hlayout.nonneg subframe hmem, ?_⟩).mono
      fun done hdone => hdone.mono fun i _ hi => .inr hi
    have := hlayout.lt_subframes hmem
    omega
  refine hupdated.bind ?_
  rintro ⟨received, reference⟩ hreceived
  have hmodels := hreceived.models
  have henergies := hreceived.energies
  dsimp only at hmodels henergies
  refine (layout.lines.yields_decode (by rw [List.size_toArray, hcontent.lines])).bind
    fun decoded hdecoded => ?_
  refine (Lines.yields_reorder (by omega)).bind ?_
  rintro ⟨ordered, swaps⟩ hordered
  dsimp only at hordered
  refine (Lines.yields_spread (by omega) (by omega)).bind fun lines hlines => ?_
  refine (yields_fetch_of_lt (by omega) (by omega)).bind fun lastModel _ => ?_
  refine (yields_fetch_of_lt (by omega) (by omega)).bind fun lastEnergy _ => ?_
  have hend : (count - 1 : Int) ∈ layout.updates := by
    rw [hcount, Int.toNat_of_nonneg (by omega)]
    exact List.mem_of_getLast? hlayout.ends
  refine (yields_interpolate h.lastModel h.lastEnergy hend
    (ready_muteVoicing _ hreceived)).bind fun interpolated hinterpolated => ?_
  refine (yields_lineTracks (by omega) (by omega) h.lastLines (by omega)).bind
    fun tracks htracks => ?_
  have hready := ready_muteEnergy (decide (muteThreshold < errorRate)) hinterpolated
  refine (yields_foldlM_range (P := Sounding.Progress)
    ⟨h.overlap, rfl, by simp, by simp, [], rfl, ⟨rfl, by simp, by simp, by simp⟩⟩
    fun i sounding hi hsounding => yields_soundAt engine settings (by omega) (by omega) (by omega)
      hi hready htracks.1 htracks.2 hsounding).bind fun sounding hsounding => ?_
  obtain ⟨events, hevents, hannounced⟩ := hsounding.notices
  refine (yields_fetch (P := Model.Fitted) (by omega)
    (by rw [List.size_toArray, hsounding.models]; omega)
    fun model hmem => hsounding.fitted model (by simpa using hmem)).bind fun model hmodel => ?_
  refine (hready.yields_energy (by omega) (by omega) trivial).bind fun energy henergy => ?_
  refine Yields.pure ⟨?_, ⟨hsounding.overlap, hmodel, by dsimp only; omega, henergy⟩, ?_⟩
  · rw [hsounding.samples, hcount, Nat.cast_mul, Int.toNat_of_nonneg (by omega)]
  · rw [synthesised_append, synthesised_append, hevents, hannounced.synthesised_eq, ← hcount]
    simpa [synthesised, Notice.events, Event.ofFrame] using hannounced

end Frame

/-! ### Sessions -/

theorem Layout.contentBits_le_of_mode (mode : Mode) :
    (mode.layout.contentBits : Int) ≤ 8 * mode.layout.totalBytes := by
  cases mode <;> decide

/-- The fundamental, the number of harmonics and the energy of a subframe are those of speech. -/
structure Model.InSpeech (model : Model ℝ) (energy : ℝ) : Prop where
  wo_low : 2 * Real.pi / 160 ≤ model.wo
  wo_high : model.wo ≤ 2 * Real.pi / 20
  count : model.count = ⌊Real.pi / model.wo⌋
  count_low : 10 ≤ model.count
  count_high : model.count ≤ 80
  energy_low : 1 / 10 ≤ energy
  energy_high : energy ≤ 10 ^ 6

theorem Model.Fitted.inSpeech {model : Model ℝ} {energy : ℝ} (h : model.Fitted)
    (henergy : Energy.InRange energy) : model.InSpeech energy where
  wo_low := PitchRange.speech_low ▸ h.wo.low
  wo_high := PitchRange.speech_high ▸ h.wo.high
  count := h.count
  count_low := h.count_bounds.1
  count_high := h.count_bounds.2
  energy_low := henergy.low
  energy_high := henergy.high

namespace Session

/-- An open session of a mode whose decoder is in range. -/
structure Decodes (mode : Mode) (session : Session ℝ) : Prop where
  layout : session.layout = mode.layout
  opened : session.closed = false
  decoder : session.decoder.Sound mode.layout.order

theorem yields_start (mode : Mode) (settings : Settings ℝ) :
    Yields (start mode.layout settings) (Decodes mode) := by
  have horder : mode.layout.order = 10 := by cases mode <;> rfl
  exact (Decoder.yields_start (by omega) (by omega) settings.seed).bind
    fun _ hsound => Yields.pure ⟨rfl, rfl, hsound⟩

theorem exists_create (mode : Mode) (choices : List (Choice ℝ)) :
    ∃ session notices, create mode choices = .ok (session, notices) ∧ session.Decodes mode := by
  have hvalid : mode.layout.validate = .ok () := by cases mode <;> decide
  obtain ⟨session, hstart, hsession⟩ := yields_start mode (Settings.ofChoices choices)
  refine ⟨session, [.created], ?_, hsession⟩
  rw [create, hvalid]
  simp only [hstart]
  rfl

/-- What holds of the reply to a frame. -/
structure Answered (mode : Mode) (reply : Reply ℝ (List Int16)) : Prop where
  samples : ∃ samples, reply.result = .ok samples ∧
    (samples.length : Int) = mode.layout.subframes * subframeSize
  subframes : (Frame.synthesised reply.notices).map Event.subframe =
    (List.range mode.layout.subframes.toNat).map fun (i : Nat) => (i : Int)
  synthesised : ∀ event ∈ Frame.synthesised reply.notices, event.model.InSpeech event.energy
  kept : reply.session.decoder.lastModel.InSpeech reply.session.decoder.lastEnergy

theorem Decodes.yields_decode (engine : Engine ℝ) {mode : Mode} {session : Session ℝ}
    (h : session.Decodes mode) {bytes : List UInt8} (errorRate : ℝ)
    (hlength : (bytes.length : Int) = mode.layout.totalBytes) :
    Yields (session.decode engine bytes errorRate) fun reply =>
      Answered mode reply ∧ reply.session.Decodes mode := by
  have hbits := Layout.contentBits_le_of_mode mode
  have horder : mode.layout.order = 10 := by cases mode <;> rfl
  have hsubframes : mode.layout.subframes ≤ 2 ^ 45 := by cases mode <;> decide
  have hopen : ¬ session.closed = true := by rw [h.opened]; decide
  have hbytes : ¬ (bytes.length : Int) ≠ session.bytesPerFrame := by
    rw [bytesPerFrame, h.layout]
    exact not_not_intro hlength
  unfold decode
  dsimp only
  rw [if_neg hopen, if_neg hbytes, h.layout]
  refine (Frame.yields_decode engine session.settings.postFilter errorRate
    (Layout.regular_of_mode mode) hsubframes horder (by omega) h.decoder).bind fun done hdone => ?_
  refine Yields.pure
    ⟨⟨⟨_, rfl, hdone.samples⟩, hdone.announced.subframes, ?_, ?_⟩, rfl, h.opened, hdone.decoder⟩
  · intro event hevent
    exact (hdone.announced.fitted event hevent).inSpeech (hdone.announced.inRange event hevent)
  · exact hdone.decoder.lastModel.inSpeech hdone.decoder.lastEnergy

/-- Decodes frames in turn, each with an estimate of the bit error rate. -/
def decodeAll {α : Type} [Analytic α] (engine : Engine α) (session : Session α)
    (run : List (List UInt8 × α)) : Except Fault (List (Reply α (List Int16))) :=
  callAll (fun session frame => session.decode engine frame.1 frame.2) session run

theorem Decodes.yields_decodeAll (engine : Engine ℝ) {mode : Mode} {session : Session ℝ}
    (h : session.Decodes mode) {run : List (List UInt8 × ℝ)}
    (hrun : ∀ frame ∈ run, (frame.1.length : Int) = mode.layout.totalBytes) :
    Yields (session.decodeAll engine run) fun replies =>
      replies.length = run.length ∧ ∀ reply ∈ replies, Answered mode reply := by
  have hcalls : Yields (session.decodeAll engine run)
      (Along (fun _ _ reply => Answered mode reply) session run) :=
    yields_callAll (I := Decodes mode)
      (fun _ frame hframe hsession => hsession.yields_decode engine frame.2 (hrun frame hframe)) h
  exact hcalls.mono fun _ halong => ⟨halong.length_eq, halong.forall_mem⟩

end Session

/-- The decoder returns on every run of frames of the right length, whatever their bits are. Every
subframe is synthesised with a fundamental, a number of harmonics and an energy of speech. -/
theorem decoder_total_in_range (mode : Mode) (engine : Engine ℝ) (choices : List (Choice ℝ)) :
    ∃ session notices, Session.create mode choices = .ok (session, notices) ∧
      session.layout = mode.layout ∧ ∀ run : List (List UInt8 × ℝ),
        (∀ frame ∈ run, (frame.1.length : Int) = session.bytesPerFrame) →
        ∃ replies, session.decodeAll engine run = .ok replies ∧ replies.length = run.length ∧
          ∀ reply ∈ replies,
            (∃ samples, reply.result = .ok samples ∧
              (samples.length : Int) = session.samplesPerFrame) ∧
            (Frame.synthesised reply.notices).map Event.subframe =
              (List.range session.layout.subframes.toNat).map (fun (i : Nat) => (i : Int)) ∧
            (∀ event ∈ Frame.synthesised reply.notices, event.model.InSpeech event.energy) ∧
            reply.session.decoder.lastModel.InSpeech reply.session.decoder.lastEnergy := by
  obtain ⟨session, notices, hcreate, hsession⟩ := Session.exists_create mode choices
  have hlayout := hsession.layout
  refine ⟨session, notices, hcreate, hlayout, fun run hrun => ?_⟩
  rw [Session.bytesPerFrame, hlayout] at hrun
  obtain ⟨replies, hreplies, hlength, hanswered⟩ := hsession.yields_decodeAll engine hrun
  refine ⟨replies, hreplies, hlength, fun reply hreply => ?_⟩
  have hanswer := hanswered reply hreply
  rw [Session.samplesPerFrame, hlayout]
  exact ⟨hanswer.samples, hanswer.subframes, hanswer.synthesised, hanswer.kept⟩

/-- A frame of ones and a muted frame of zeros on one session. -/
theorem decoder_total_in_range_ones_zeros :
    ∃ session notices, Session.create .rate1200 [] = .ok (session, notices) ∧
      (∀ frame ∈ [(List.replicate 6 (255 : UInt8), (0 : ℝ)), (List.replicate 6 0, 1)],
        (frame.1.length : Int) = session.bytesPerFrame) ∧
      ∃ replies, session.decodeAll (Engine.ofTransform Transform.dft)
          [(List.replicate 6 255, 0), (List.replicate 6 0, 1)] = .ok replies ∧
        replies.length = 2 ∧ ∀ reply ∈ replies,
          (Frame.synthesised reply.notices).length = 4 ∧
          reply.session.decoder.lastModel.InSpeech reply.session.decoder.lastEnergy := by
  obtain ⟨session, notices, hcreate, hlayout, htotal⟩ :=
    decoder_total_in_range .rate1200 (Engine.ofTransform Transform.dft) []
  have hrun : ∀ frame ∈ [(List.replicate 6 (255 : UInt8), (0 : ℝ)), (List.replicate 6 0, 1)],
      (frame.1.length : Int) = session.bytesPerFrame := by
    rw [Session.bytesPerFrame, hlayout]
    intro frame hframe
    rcases List.mem_pair.mp hframe with rfl | rfl <;> rfl
  obtain ⟨replies, hreplies, hlength, hanswered⟩ := htotal _ hrun
  refine ⟨session, notices, hcreate, hrun, replies, hreplies, hlength, fun reply hreply => ?_⟩
  obtain ⟨_, hsubframes, _, hkept⟩ := hanswered reply hreply
  refine ⟨?_, hkept⟩
  have hcount := congrArg List.length hsubframes
  rw [List.length_map, List.length_map, hlayout] at hcount
  exact hcount

end Vocoder
