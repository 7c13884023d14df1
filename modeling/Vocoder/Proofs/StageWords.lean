import Vocoder.Proofs.AnalysisFraming
import Vocoder.Proofs.FrameStages
import Vocoder.Proofs.SessionRequests
import Vocoder.Session.Report

/-!
The stages that a session reports, as words. Encoding a frame and decoding one each go through a
word that the layout fixes; a run of requests tells of the words of those that were answered, one
after the other, and the session is idle between them. Within a word, what is quantised is what was
analysed just before.
-/

namespace Vocoder

variable {α : Type}

/-! ### Words -/

/-- The stage and the subframe of an event. -/
def Event.place (event : Event α) : Stage × Int := (event.stage, event.subframe)

/-- What may come right before an event: a subframe that is quantised was just analysed, and has the
model of that. -/
def Event.Precedes (left right : Event α) : Prop :=
  right.stage = .quantising →
    left.stage = .analysing ∧ left.subframe = right.subframe ∧ left.model = right.model

namespace Layout

/-- The stages of a subframe that is encoded. -/
def subframeWord (layout : Layout) (i : Nat) : List (Stage × Int) :=
  (.analysing, (i : Int)) :: if (i : Int) ∈ layout.updates then [(.quantising, (i : Int))] else []

/-- The stages of a frame that is encoded, and of one that is decoded. -/
def encodeWord (layout : Layout) : List (Stage × Int) :=
  (List.range layout.subframes.toNat).flatMap layout.subframeWord ++
    [(Stage.packed, -1), (Stage.idle, -1)]

def decodeWord (layout : Layout) : List (Stage × Int) :=
  [(Stage.unpacked, -1), (Stage.dequantising, layout.subframes - 1), (Stage.interpolating, -1)] ++
    (List.range layout.subframes.toNat).map (fun i : Nat => (Stage.synthesising, (i : Int))) ++
    [(Stage.idle, -1)]

end Layout

/-- The stages of a request that is answered. -/
def Request.word (layout : Layout) : Request α → List (Stage × Int)
  | .encode _ => layout.encodeWord
  | .decode _ _ => layout.decodeWord
  | .close => []

/-- The events of a run. -/
def Session.emitted {β : Type} (replies : List (Reply α β)) : List (Event α) :=
  Notice.events (replies.flatMap Reply.notices)

/-! ### Reports that tell of a word -/

namespace Notice

/-- Reports tell of the stages of a word, and what they tell may come after any event. -/
structure Tell (notices : List (Notice α)) (word : List (Stage × Int)) : Prop where
  places : (events notices).map Event.place = word
  chain : ∀ before, (before :: events notices).IsChain Event.Precedes

theorem events_append (left right : List (Notice α)) :
    events (left ++ right) = events left ++ events right :=
  List.filterMap_append

theorem Tell.nil : Tell ([] : List (Notice α)) [] :=
  ⟨rfl, fun _ => .singleton _⟩

theorem Tell.append {left right : List (Notice α)} {word word' : List (Stage × Int)}
    (hleft : Tell left word) (hright : Tell right word') :
    Tell (left ++ right) (word ++ word') := by
  constructor
  · rw [events_append, List.map_append, hleft.places, hright.places]
  · intro before
    rw [events_append]
    have hchain := hleft.chain before
    generalize events left = told at hchain ⊢
    -- The second part may follow any event, so only the first is walked through.
    induction told generalizing before with
    | nil => exact hright.chain before
    | cons event rest ih =>
        obtain ⟨hfirst, hrest⟩ := List.isChain_cons_cons.mp hchain
        exact List.isChain_cons_cons.mpr ⟨hfirst, ih event hrest⟩

/-- An event that quantises nothing may come after any other. -/
theorem tell_entered {event : Event α} (h : event.stage ≠ .quantising) :
    Tell [.entered event] [event.place] := by
  refine ⟨rfl, fun before => ?_⟩
  have hprecedes : before.Precedes event := fun hstage => absurd hstage h
  exact List.isChain_cons_cons.mpr ⟨hprecedes, .singleton event⟩

theorem tell_ofFrame [Scalar α] (stage : Stage) (h : stage ≠ .quantising) :
    Tell [.entered (Event.ofFrame (α := α) stage)] [(stage, -1)] :=
  tell_entered h

/-- A word that ends idle leaves a session idle. -/
theorem Tell.stageAfter [Analytic α] {notices : List (Notice α)} {word : List (Stage × Int)}
    (h : Tell notices (word ++ [(Stage.idle, -1)])) (stage : Stage) :
    Session.stageAfter stage notices = .idle := by
  have hlast : ((events notices).map Event.place).getLast? = some (.idle, -1) := by
    rw [h.places, List.getLast?_concat]
  rw [List.getLast?_map] at hlast
  obtain ⟨event, hevent, hplace⟩ := Option.map_eq_some_iff.mp hlast
  rw [Session.stageAfter, hevent]
  exact congrArg Prod.fst hplace

end Notice

open Notice

/-! ### Frames -/

section Frames

variable [Analytic α]

theorem Finding.events_notices (finding : Finding α) :
    events finding.notices = ⟨.analysing, finding.subframe, finding.model, 0.0⟩ ::
      finding.spectrum.toList.map
        fun found => ⟨.quantising, finding.subframe, finding.model, found.energy⟩ := by
  unfold notices
  cases finding.spectrum with
  | none => rfl
  | some found =>
      dsimp only
      split_ifs <;> rfl

/-- A finding tells of its subframe, and of the update there. -/
theorem Finding.tell_notices {finding : Finding α} {layout : Layout}
    (h : finding.spectrum.isSome = true ↔ (finding.subframe : Int) ∈ layout.updates) :
    Tell finding.notices (layout.subframeWord finding.subframe) := by
  constructor
  · rw [finding.events_notices, Layout.subframeWord]
    cases hspectrum : finding.spectrum with
    | none =>
        have hupdate : (finding.subframe : Int) ∉ layout.updates := by simp [← h, hspectrum]
        rw [if_neg hupdate]
        rfl
    | some found =>
        have hupdate : (finding.subframe : Int) ∈ layout.updates := by simp [← h, hspectrum]
        rw [if_pos hupdate]
        rfl
  · intro before
    rw [finding.events_notices]
    cases finding.spectrum with
    | none => simp [Event.Precedes]
    | some found => simp [Event.Precedes]

namespace Frame

variable {engine : Engine α} {layout : Layout} {frames : Nat} {encoder : Encoder α}
  {pcm : Array Int16}

/-- In a subframe that the walk went through, something was found. -/
theorem exists_findAt {walked next : Walk α} {i : Nat}
    (hwalked : walk engine layout frames encoder pcm i = .ok walked)
    (h : walked.step engine layout frames pcm i = .ok next) :
    ∃ finding, findAt engine layout frames encoder pcm i = .ok finding ∧ finding.subframe = i ∧
      finding.spectrum.isSome = (layout.updateAt? i).isSome := by
  obtain ⟨analysed, hanalysed, h⟩ := bind_eq_ok.mp h
  cases hat : layout.updateAt? i with
  | none =>
      refine ⟨⟨frames, i, analysed.model, none⟩, bind_eq_ok.mpr ⟨walked, hwalked,
        bind_eq_ok.mpr ⟨analysed, hanalysed, ?_⟩⟩, rfl, rfl⟩
      rw [hat]
      rfl
  | some u =>
      rw [hat] at h
      obtain ⟨found, hfound, -⟩ := bind_eq_ok.mp h
      refine ⟨⟨frames, i, analysed.model, some found⟩, bind_eq_ok.mpr ⟨walked, hwalked,
        bind_eq_ok.mpr ⟨analysed, hanalysed, ?_⟩⟩, rfl, rfl⟩
      rw [hat]
      exact bind_eq_ok.mpr ⟨found, hfound, rfl⟩

theorem Walk.tell_step {walked next : Walk α} {i : Nat} {word : List (Stage × Int)}
    (htell : Tell walked.notices word)
    (hwalked : walk engine layout frames encoder pcm i = .ok walked)
    (h : walked.step engine layout frames pcm i = .ok next) :
    Tell next.notices (word ++ layout.subframeWord i) := by
  obtain ⟨finding, hfinding, rfl, hspectrum⟩ := exists_findAt hwalked h
  rw [Walk.notices_of_step hwalked hfinding h]
  apply htell.append
  apply Finding.tell_notices
  rw [hspectrum, layout.isSome_updateAt?]

theorem tell_walk {count : Nat} {walked : Walk α}
    (h : walk engine layout frames encoder pcm count = .ok walked) :
    Tell walked.notices ((List.range count).flatMap layout.subframeWord) := by
  induction count generalizing walked with
  | zero =>
      cases h
      exact Tell.nil
  | succ count ih =>
      rw [walk_succ] at h
      obtain ⟨before, hbefore, hstep⟩ := bind_eq_ok.mp h
      rw [List.range_succ, List.flatMap_append, List.flatMap_singleton]
      exact Walk.tell_step (ih hbefore) hbefore hstep

theorem tell_encode {done : Encoded α} (h : encode engine layout frames encoder pcm = .ok done) :
    Tell done.notices layout.encodeWord := by
  obtain ⟨walked, hwalked, -, hnotices⟩ := exists_walk_of_encode h
  rw [hnotices]
  have hlast := (tell_ofFrame (α := α) .packed (by decide)).append (tell_ofFrame .idle (by decide))
  exact (tell_walk hwalked).append hlast

variable {settings : PostFilter α} {decoder : Decoder α} {bytes : List UInt8} {errorRate : α}

theorem tell_soundAll {order : Int} {subframes : Subframes α} {tracks : Array (Array α)}
    {count : Nat} {last : Sounding α}
    (h : (List.range count).foldlM (soundAt engine settings order subframes tracks)
      ⟨decoder, [], [], 0, []⟩ = .ok last) :
    Tell last.notices ((List.range count).map fun i : Nat => (.synthesising, (i : Int))) := by
  refine foldlM_range_induction (P := fun n (sounding : Sounding α) => Tell sounding.notices
    ((List.range n).map fun i : Nat => (.synthesising, (i : Int)))) h Tell.nil ?_
  intro i sounding next _ htell hnext
  obtain ⟨_, _, energy, _, _, model, _, -, -, -, -, -, -, -, rfl⟩ := soundAt_eq_ok hnext
  rw [List.range_succ, List.map_append]
  exact htell.append (tell_entered (by simp))

theorem tell_decode {done : Decoded α}
    (h : decode engine layout settings decoder bytes errorRate = .ok done) :
    Tell done.notices layout.decodeWord := by
  obtain ⟨stages, rfl⟩ := Stages.exists_of_decode h
  have hcount : (stages.count : Int) = layout.subframes := by
    obtain ⟨hlow, -, hcount⟩ := length_eq_ok.mp stages.counted
    omega
  have hdequantising : Tell [.entered ⟨.dequantising, (stages.count - 1 : Int), stages.dequantised,
      stages.dequantisedEnergy⟩] [(.dequantising, layout.subframes - 1)] := by
    rw [hcount]
    exact tell_entered (by simp)
  have hfirst := (tell_ofFrame .unpacked (by decide)).append
    (hdequantising.append (tell_ofFrame .interpolating (by decide)))
  have hsounding := tell_soundAll stages.synthesising
  rw [stages.count_eq] at hsounding
  exact (hfirst.append hsounding).append (tell_ofFrame .idle (by decide))

end Frame

end Frames

/-! ### Runs -/

namespace Session

variable [Analytic α] {engine : Engine α} {session : Session α} {layout : Layout}
  {settings : Settings α}

/-- A session between requests. -/
structure AtRest (layout : Layout) (settings : Settings α) (session : Session α) : Prop where
  layout : session.layout = layout
  settings : session.settings = settings
  idle : session.stage = .idle

theorem AtRest.of_start (h : start layout settings = .ok session) :
    session.AtRest layout settings := by
  obtain ⟨decoder, _, h⟩ := bind_eq_ok.mp h
  obtain rfl := pure_eq_ok.mp h
  exact ⟨rfl, rfl, rfl⟩

/-- A request that is answered tells of its word, and the session rests again. -/
theorem AtRest.serve (h : session.AtRest layout settings) {request : Request α}
    {reply : Reply α Answer} (hreply : session.serve engine request = .ok reply) :
    reply.session.AtRest layout settings ∧
      Tell reply.notices (if reply.answered then request.word layout else []) := by
  rcases serve_cases hreply with ⟨error, -, rfl⟩ | htaken
  · exact ⟨h, Tell.nil⟩
  · rw [htaken.answered, if_pos rfl]
    cases htaken with
    | encode hopen hsize hdone =>
        have htell := Frame.tell_encode hdone
        rw [h.layout] at htell
        refine ⟨⟨h.layout, h.settings, ?_⟩, htell⟩
        rw [Layout.encodeWord, List.append_cons] at htell
        exact htell.stageAfter session.stage
    | decode hopen hlength hdone =>
        have htell := Frame.tell_decode hdone
        rw [h.layout] at htell
        exact ⟨⟨h.layout, h.settings, htell.stageAfter session.stage⟩, htell⟩
    | close hopen => exact ⟨⟨h.layout, h.settings, h.idle⟩, Tell.nil⟩

/-- What every request of a run does. -/
structure Rests (layout : Layout) (settings : Settings α) (before : Session α)
    (request : Request α) (reply : Reply α Answer) : Prop where
  before : before.AtRest layout settings
  after : reply.session.AtRest layout settings
  tell : Tell reply.notices (if reply.answered then request.word layout else [])

variable {requests : List (Request α)} {replies : List (Reply α Answer)}

theorem AtRest.along (h : session.AtRest layout settings)
    (hrun : session.serveAll engine requests = .ok replies) :
    Along (Rests layout settings) session requests replies := by
  refine along_of_callAll (I := AtRest layout settings) ?_ h hrun
  intro before request reply hbefore hreply
  obtain ⟨hafter, htell⟩ := hbefore.serve hreply
  exact ⟨⟨hbefore, hafter, htell⟩, hafter⟩

omit [Analytic α] in
/-- A run tells of the words of the requests that were answered. -/
theorem tell_of_along (h : Along (Rests layout settings) session requests replies) :
    Tell (replies.flatMap Reply.notices)
      ((Request.served requests replies).flatMap (Request.word layout)) := by
  induction h with
  | nil session => exact Tell.nil
  | @cons session request reply rest replies hfirst _ ih =>
      have hwords : (Request.served (request :: rest) (reply :: replies)).flatMap
          (Request.word layout) = (if reply.answered then request.word layout else []) ++
            (Request.served rest replies).flatMap (Request.word layout) := by
        rw [Request.served_cons]
        split
        · rw [List.flatMap_cons]
        · rfl
      rw [List.flatMap_cons, hwords]
      exact hfirst.tell.append ih

omit [Analytic α] in
/-- A collector receives the events of a run. -/
theorem collected_of_along {amplitudes : Bool} (hsink : settings.sink = .collector amplitudes)
    (h : Along (Rests layout settings) session requests replies) :
    (replies.flatMap fun reply => reply.session.collected reply.notices) = emitted replies := by
  induction h with
  | nil session => rfl
  | @cons session request reply rest replies hfirst _ ih =>
      have hcollected : reply.session.collected reply.notices = events reply.notices := by
        rw [collected, hfirst.after.settings, hsink]
      rw [List.flatMap_cons, ih, hcollected, emitted, emitted, List.flatMap_cons, events_append]

end Session

/-- The trace of a session is a word of its stages: the events of a run are the words of its
answered requests, one after the other, and a word is fixed by the layout and by whether the request
encodes or decodes. -/
theorem trace_is_word_of_stages [Analytic α] (engine : Engine α) (layout : Layout)
    (settings : Settings α) {session : Session α}
    (hstart : Session.start layout settings = .ok session) (requests : List (Request α))
    {replies : List (Reply α Answer)} (hrun : session.serveAll engine requests = .ok replies) :
    (Session.emitted replies).map Event.place =
      (Request.served requests replies).flatMap (Request.word layout) ∧
    Session.Along (fun before _ reply => before.stage = .idle ∧ reply.session.stage = .idle)
      session requests replies ∧
    (Event.ofFrame .idle :: Session.emitted replies).IsChain Event.Precedes ∧
    ∀ amplitudes, settings.sink = .collector amplitudes →
      (replies.flatMap fun reply => reply.session.collected reply.notices) =
        Session.emitted replies := by
  have halong := (Session.AtRest.of_start hstart).along hrun
  have htell := Session.tell_of_along halong
  refine ⟨htell.places, halong.mono ?_, htell.chain _, ?_⟩
  · intro before request reply hrests
    exact ⟨hrests.before.idle, hrests.after.idle⟩
  · intro amplitudes hsink
    exact Session.collected_of_along hsink halong

/-- A run that encodes, is refused, decodes and ends, with a collector. -/
theorem trace_is_word_of_stages_mixed :
    ∃ (engine : Engine ℝ) (settings : Settings ℝ) (session : Session ℝ)
      (requests : List (Request ℝ)) (replies : List (Reply ℝ Answer)),
      settings.sink = .collector true ∧
      Session.start Mode.rate1600.layout settings = .ok session ∧
      requests = [.encode (Array.replicate 320 9), .decode [1] 0, .decode (List.replicate 8 255) 0,
        .close] ∧
      session.serveAll engine requests = .ok replies ∧
      (replies.flatMap fun reply => reply.session.collected reply.notices).map Event.place =
        (Request.served requests replies).flatMap (Request.word Mode.rate1600.layout) ∧
      Mode.rate1600.layout.encodeWord = [(.analysing, 0), (.analysing, 1), (.quantising, 1),
        (.analysing, 2), (.analysing, 3), (.quantising, 3), (.packed, -1), (.idle, -1)] ∧
      Session.Along (fun before _ reply => before.stage = .idle ∧ reply.session.stage = .idle)
        session requests replies ∧
      (Event.ofFrame .idle :: Session.emitted replies).IsChain Event.Precedes := by
  have hsink : (Settings.ofChoices [.sink (.collector true)] : Settings ℝ).sink =
    .collector true := rfl
  obtain ⟨session, hstart, hdecodes⟩ := Session.yields_start .rate1600
    (Settings.ofChoices [.sink (.collector true)])
  obtain ⟨replies, hreplies, -⟩ := hdecodes.yields_serveAll (Engine.ofTransform Transform.dft)
    [.encode (Array.replicate 320 9), .decode [1] 0, .decode (List.replicate 8 255) 0, .close]
  obtain ⟨hplaces, hidle, hchain, hcollected⟩ :=
    trace_is_word_of_stages _ Mode.rate1600.layout _ hstart _ hreplies
  refine ⟨_, _, session, _, replies, hsink, hstart, rfl, hreplies, ?_, by decide, hidle, hchain⟩
  rw [hcollected true hsink, hplaces]

end Vocoder
