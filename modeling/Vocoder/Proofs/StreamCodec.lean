import Vocoder.Proofs.DecodedLines
import Vocoder.Proofs.EncoderRange
import Vocoder.Proofs.FrameStages
import Vocoder.Proofs.Independence
import Vocoder.Proofs.StreamPieces
import Vocoder.Stream

/-!
Streams through sessions, in any arithmetic in which the frames of the stream return. An open
session answers every frame of the right length, and with a frame of the right length. A stream that
is passed through a session gives the answers of a fresh session of the same mode, one after the
other.
-/

namespace Vocoder

variable {α : Type} [Analytic α]

/-! ### The samples of a frame -/

theorem OverlapAdd.le_size_of_synthesise {n : Nat} {transform : Transform α} {buffer next : Array α}
    {model : Model α} {window : Array α} {shift : Bool}
    (h : synthesise n transform buffer model window shift = .ok next) : 2 * n ≤ next.size := by
  obtain ⟨spectrum, _, h⟩ := bind_eq_ok.mp h
  obtain ⟨hbuffer, hnext⟩ := size_of_overlap h
  omega

theorem Decoder.length_of_sound {engine : Engine α} {decoder : Decoder α} {model : Model α}
    {bins : Bins α} {sounded : Sounded α} (h : decoder.sound engine model bins = .ok sounded) :
    sounded.samples.length = subframeSize := by
  obtain ⟨response, _, h⟩ := bind_eq_ok.mp h
  obtain ⟨phased, _, h⟩ := bind_eq_ok.mp h
  obtain ⟨treated, _, h⟩ := bind_eq_ok.mp h
  obtain ⟨buffer, hbuffer, h⟩ := bind_eq_ok.mp h
  obtain rfl := pure_eq_ok.mp h
  have hsize := OverlapAdd.le_size_of_synthesise hbuffer
  rw [List.length_map, Output.length_protect, List.length_take, Array.length_toList]
  omega

/-- Every subframe of a decoded frame gives all its samples. -/
theorem Frame.length_of_decode {engine : Engine α} {layout : Layout} {settings : PostFilter α}
    {decoder : Decoder α} {bytes : List UInt8} {errorRate : α} {done : Decoded α}
    (h : decode engine layout settings decoder bytes errorRate = .ok done) :
    done.samples.length = layout.subframes.toNat * subframeSize := by
  obtain ⟨stages, rfl⟩ := Stages.exists_of_decode h
  rw [← stages.count_eq]
  refine foldlM_range_induction
    (P := fun i (sounding : Sounding α) => sounding.samples.length = i * subframeSize)
    stages.synthesising (by simp) ?_
  intro i sounding next _ hsounding hnext
  obtain ⟨track, filter, energy, source, sampled, model, sounded, _, _, _, _, _, _, hsounded,
    rfl⟩ := soundAt_eq_ok hnext
  rw [List.length_append, hsounding, Decoder.length_of_sound hsounded, Nat.succ_mul]

/-! ### Runs of calls -/

namespace Session

omit [Analytic α] in
/-- A run whose calls are each answered, from a session with an invariant, is answered call by call.
-/
theorem exists_answers {ι β : Type} {call : Session α → ι → Except Fault (Reply α β)}
    {I : Session α → Prop} {P : ι → Prop} {Q : β → Prop}
    (hcall : ∀ session input reply, I session → P input → call session input = .ok reply →
      ∃ answer, reply.result = .ok answer ∧ Q answer ∧ I reply.session)
    {session : Session α} {inputs : List ι} {replies : List (Reply α β)} (hsession : I session)
    (hinputs : ∀ input ∈ inputs, P input) (h : callAll call session inputs = .ok replies) :
    ∃ answers : List β, replies.map Reply.result = answers.map .ok ∧
      answers.length = inputs.length ∧ ∀ answer ∈ answers, Q answer := by
  induction inputs generalizing session replies with
  | nil =>
      cases h
      exact ⟨[], rfl, rfl, by simp⟩
  | cons input rest ih =>
      obtain ⟨reply, later, hreply, hlater, rfl⟩ := callAll_cons_eq_ok.mp h
      obtain ⟨hinput, hrest⟩ := List.forall_mem_cons.mp hinputs
      obtain ⟨answer, hanswer, hgood, hnext⟩ := hcall session input reply hsession hinput hreply
      obtain ⟨answers, hanswers, hcount, hgoods⟩ := ih hnext hrest hlater
      refine ⟨answer :: answers, ?_, ?_, List.forall_mem_cons.mpr ⟨hgood, hgoods⟩⟩
      · rw [List.map_cons, List.map_cons, hanswer, hanswers]
      · rw [List.length_cons, List.length_cons, hcount]

omit [Analytic α] in
theorem callAll_map {ι κ β : Type} (call : Session α → κ → Except Fault (Reply α β)) (f : ι → κ)
    (session : Session α) (inputs : List ι) :
    callAll call session (inputs.map f) =
      callAll (fun session input => call session (f input)) session inputs := by
  induction inputs generalizing session with
  | nil => rfl
  | cons input inputs ih =>
      rw [List.map_cons, callAll, callAll]
      congr 1
      funext reply
      rw [ih]

theorem decodeAll_map (engine : Engine α) (session : Session α) (codes : List (List UInt8))
    (errorRate : α) :
    session.decodeAll engine (codes.map fun code => (code, errorRate)) =
      callAll (fun session code => session.decode engine code errorRate) session codes := by
  rw [decodeAll, callAll_map]

/-- Every frame of the right number of samples that is encoded is answered with a coded frame. -/
theorem exists_codes {engine : Engine α} {mode : Mode} {session : Session α}
    {run : List (Array Int16)} {sent : List (Reply α (List UInt8))}
    (hlayout : session.layout = mode.layout) (hopen : session.closed = false)
    (hrun : ∀ pcm ∈ run, (pcm.size : Int) = mode.layout.subframes * subframeSize)
    (h : session.encodeAll engine run = .ok sent) :
    ∃ codes : List (List UInt8), sent.map Reply.result = codes.map .ok ∧ codes.length = run.length ∧
      ∀ code ∈ codes, (code.length : Int) = mode.layout.totalBytes := by
  apply exists_answers (I := fun session => session.layout = mode.layout ∧ session.closed = false)
    _ ⟨hlayout, hopen⟩ hrun h
  rintro session pcm reply ⟨hlayout, hopen⟩ hpcm hreply
  have hsize : (pcm.size : Int) = session.samplesPerFrame := by
    rw [hpcm, samplesPerFrame, hlayout]
  obtain ⟨done, hdone, rfl⟩ := exists_of_encode hopen hsize hreply
  rw [hlayout] at hdone
  exact ⟨done.bytes, rfl, Frame.length_of_encode (Layout.regular_of_mode mode) hdone, hlayout,
    hopen⟩

/-- Every coded frame of the right length that is decoded is answered with samples. -/
theorem exists_blocks {engine : Engine α} {mode : Mode} {session : Session α}
    {codes : List (List UInt8)} {errorRate : α} {heard : List (Reply α (List Int16))}
    (hlayout : session.layout = mode.layout) (hopen : session.closed = false)
    (hcodes : ∀ code ∈ codes, (code.length : Int) = mode.layout.totalBytes)
    (h : session.decodeAll engine (codes.map fun code => (code, errorRate)) = .ok heard) :
    ∃ blocks : List (List Int16), heard.map Reply.result = blocks.map .ok ∧
      blocks.length = codes.length ∧
      ∀ block ∈ blocks, block.length = mode.layout.subframes.toNat * subframeSize := by
  rw [decodeAll_map] at h
  apply exists_answers (I := fun session => session.layout = mode.layout ∧ session.closed = false)
    _ ⟨hlayout, hopen⟩ hcodes h
  rintro session code reply ⟨hlayout, hopen⟩ hcode hreply
  have hlength : (code.length : Int) = session.bytesPerFrame := by
    rw [hcode, bytesPerFrame, hlayout]
  obtain ⟨done, hdone, rfl⟩ := exists_of_decode hopen hlength hreply
  rw [hlayout] at hdone
  exact ⟨done.samples, rfl, Frame.length_of_decode hdone, hlayout, hopen⟩

end Session

/-! ### Streams -/

namespace Stream

variable {ι β : Type}

omit [Analytic α] in
/-- A stream of calls that are all answered gives the answers one after the other, also on a session
that only answers alike. -/
theorem yields_pass {call : Session α → ι → Except Fault (Reply α (List β))}
    {R : Session α → Session α → Prop}
    (hcall : ∀ left right input reply, R left right → call left input = .ok reply →
      ∃ reply', call right input = .ok reply' ∧ reply'.result = reply.result ∧
        R reply.session reply'.session)
    {inputs : List ι} {replies : List (Reply α (List β))} {answers : List (List β)}
    {left right : Session α} (hsame : R left right)
    (h : Session.callAll call left inputs = .ok replies)
    (hanswers : replies.map Reply.result = answers.map .ok) (index : Nat) :
    Yields (pass call inputs index right) fun passed =>
      passed.out = answers.flatten ∧ passed.refused = none := by
  induction inputs generalizing left right replies answers index with
  | nil =>
      cases h
      obtain rfl := List.map_eq_nil_iff.mp hanswers.symm
      exact Yields.ok ⟨rfl, rfl⟩
  | cons input rest ih =>
      obtain ⟨reply, later, hreply, hlater, rfl⟩ := Session.callAll_cons_eq_ok.mp h
      obtain ⟨reply', hreply', hresult, hnext⟩ := hcall left right input reply hsame hreply
      cases answers with
      | nil => cases hanswers
      | cons answer answers =>
          obtain ⟨hanswer, hanswers⟩ := List.cons.inj hanswers
          rw [hanswer] at hresult
          rw [pass, hreply']
          refine Yields.bind ⟨reply', rfl, rfl⟩ ?_
          rintro _ rfl
          rw [hresult]
          refine (ih hnext hlater hanswers (index + 1)).bind fun passed hpassed => ?_
          refine Yields.pure ⟨?_, hpassed.2⟩
          rw [hpassed.1, List.flatten_cons]

theorem yields_encode {engine : Engine α} {fresh session : Session α}
    (hsame : fresh.EncodesAlike session) {frames : List (List Int16)}
    {sent : List (Reply α (List UInt8))} {codes : List (List UInt8)}
    (h : fresh.encodeAll engine (frames.map List.toArray) = .ok sent)
    (hcodes : sent.map Reply.result = codes.map .ok) :
    Yields (encode engine session frames) fun passed =>
      passed.out = codes.flatten ∧ passed.refused = none := by
  rw [Session.encodeAll, Session.callAll_map] at h
  exact yields_pass (fun _ _ _ _ hsame hreply => hsame.encode hreply) hsame h hcodes 1

theorem yields_decode {engine : Engine α} {fresh session : Session α}
    (hsame : fresh.DecodesAlike session) {codes : List (List UInt8)} {errorRate : α}
    {heard : List (Reply α (List Int16))} {blocks : List (List Int16)}
    (h : fresh.decodeAll engine (codes.map fun code => (code, errorRate)) = .ok heard)
    (hblocks : heard.map Reply.result = blocks.map .ok) :
    Yields (decode engine session errorRate codes) fun passed =>
      passed.out = blocks.flatten ∧ passed.refused = none := by
  rw [Session.decodeAll_map] at h
  exact yields_pass (fun _ _ _ _ hsame hreply => hsame.decode hreply) hsame h hblocks 1

end Stream

/-! ### What the sessions of a mode give -/

namespace Mode

/-- The number of samples of a frame. -/
def frameSamples (mode : Mode) : Nat := (mode.layout.subframes * subframeSize).toNat

/-- The number of bytes of its code. -/
def frameBytes (mode : Mode) : Nat := mode.layout.totalBytes.toNat

theorem frameSamples_pos (mode : Mode) : 0 < mode.frameSamples := by
  cases mode <;> decide

theorem frameBytes_pos (mode : Mode) : 0 < mode.frameBytes := by
  cases mode <;> decide

/-- A fresh session answers frames of samples with codes. -/
def EncodesTo (mode : Mode) (engine : Engine α) (frames : List (Array Int16))
    (codes : List (List UInt8)) : Prop :=
  ∃ session notices sent, Session.create mode [] = .ok (session, notices) ∧
    session.encodeAll engine frames = .ok sent ∧ sent.map Reply.result = codes.map .ok

/-- A fresh session answers codes, each with the same error rate, with blocks of samples. -/
def DecodesTo (mode : Mode) (engine : Engine α) (errorRate : α) (codes : List (List UInt8))
    (blocks : List (List Int16)) : Prop :=
  ∃ session notices heard, Session.create mode [] = .ok (session, notices) ∧
    session.decodeAll engine (codes.map fun code => (code, errorRate)) = .ok heard ∧
    heard.map Reply.result = blocks.map .ok

theorem size_of_frameSamples {mode : Mode} {frames : List (Array Int16)}
    (h : ∀ pcm ∈ frames, pcm.size = mode.frameSamples) :
    ∀ pcm ∈ frames, (pcm.size : Int) = mode.layout.subframes * subframeSize := by
  intro pcm hpcm
  have hpos := mode.frameSamples_pos
  rw [h pcm hpcm, frameSamples] at *
  omega

theorem totalBytes_of_frameBytes {mode : Mode} {codes : List (List UInt8)}
    (h : ∀ code ∈ codes, code.length = mode.frameBytes) :
    ∀ code ∈ codes, (code.length : Int) = mode.layout.totalBytes := by
  intro code hcode
  have hpos := mode.frameBytes_pos
  rw [h code hcode, frameBytes] at *
  omega

theorem EncodesTo.sizes {mode : Mode} {engine : Engine α} {frames : List (Array Int16)}
    {codes : List (List UInt8)} (h : mode.EncodesTo engine frames codes)
    (hframes : ∀ pcm ∈ frames, pcm.size = mode.frameSamples) :
    codes.length = frames.length ∧ ∀ code ∈ codes, code.length = mode.frameBytes := by
  obtain ⟨session, notices, sent, hcreate, hsent, hanswers⟩ := h
  obtain ⟨decoder, _, rfl⟩ := Session.exists_of_create hcreate
  obtain ⟨codes', hanswers', hcount, hlengths⟩ :=
    Session.exists_codes rfl rfl (size_of_frameSamples hframes) hsent
  have hsame : codes = codes' :=
    List.map_injective_iff.mpr (fun _ _ => Except.ok.inj) (hanswers.symm.trans hanswers')
  subst hsame
  refine ⟨hcount, fun code hcode => ?_⟩
  have hlength := hlengths code hcode
  rw [frameBytes]
  omega

theorem DecodesTo.sizes {mode : Mode} {engine : Engine α} {errorRate : α}
    {codes : List (List UInt8)} {blocks : List (List Int16)}
    (h : mode.DecodesTo engine errorRate codes blocks)
    (hcodes : ∀ code ∈ codes, code.length = mode.frameBytes) :
    blocks.length = codes.length ∧ ∀ block ∈ blocks, block.length = mode.frameSamples := by
  obtain ⟨session, notices, heard, hcreate, hheard, hanswers⟩ := h
  obtain ⟨decoder, _, rfl⟩ := Session.exists_of_create hcreate
  obtain ⟨blocks', hanswers', hcount, hlengths⟩ :=
    Session.exists_blocks rfl rfl (totalBytes_of_frameBytes hcodes) hheard
  have hsame : blocks = blocks' :=
    List.map_injective_iff.mpr (fun _ _ => Except.ok.inj) (hanswers.symm.trans hanswers')
  subst hsame
  refine ⟨hcount, fun block hblock => ?_⟩
  rw [hlengths block hblock]
  cases mode <;> rfl

/-- Over the real numbers all frames of the right size are encoded, -/
theorem exists_encodesTo {mode : Mode} (engine : Engine ℝ) {frames : List (Array Int16)}
    (hframes : ∀ pcm ∈ frames, pcm.size = mode.frameSamples) :
    ∃ codes, mode.EncodesTo engine frames codes := by
  obtain ⟨session, notices, hcreate, hsession⟩ := Session.exists_create mode []
  have hsizes := size_of_frameSamples hframes
  have hcalls : Yields (session.encodeAll engine frames)
      (Session.Along (fun _ _ _ => True) session frames) := by
    refine Session.yields_callAll (I := fun session =>
      session.layout = mode.layout ∧ session.closed = false) ?_ ⟨hsession.layout, hsession.opened⟩
    rintro before pcm hpcm ⟨hlayout, hopen⟩
    have hsize : (pcm.size : Int) = before.samplesPerFrame := by
      rw [hsizes pcm hpcm, Session.samplesPerFrame, hlayout]
    exact (Session.yields_encode engine hlayout hopen hsize).mono
      fun _ hreply => ⟨trivial, hreply.2⟩
  obtain ⟨sent, hsent, _⟩ := hcalls
  obtain ⟨codes, hcodes, _⟩ := Session.exists_codes hsession.layout hsession.opened hsizes hsent
  exact ⟨codes, session, notices, sent, hcreate, hsent, hcodes⟩

/-- and all codes of the right length are decoded. -/
theorem exists_decodesTo {mode : Mode} (engine : Engine ℝ) (errorRate : ℝ)
    {codes : List (List UInt8)} (hcodes : ∀ code ∈ codes, code.length = mode.frameBytes) :
    ∃ blocks, mode.DecodesTo engine errorRate codes blocks := by
  obtain ⟨session, notices, hcreate, hsession⟩ := Session.exists_create mode []
  have hbytes := totalBytes_of_frameBytes hcodes
  have hrun : ∀ frame ∈ codes.map fun code => (code, errorRate),
      (frame.1.length : Int) = mode.layout.totalBytes := by
    intro frame hframe
    obtain ⟨code, hcode, rfl⟩ := List.mem_map.mp hframe
    exact hbytes code hcode
  obtain ⟨heard, hheard, _⟩ := hsession.yields_decodeAll engine hrun
  obtain ⟨blocks, hblocks, _⟩ :=
    Session.exists_blocks hsession.layout hsession.opened hbytes hheard
  exact ⟨blocks, session, notices, heard, hcreate, hheard, hblocks⟩

end Mode

end Vocoder
