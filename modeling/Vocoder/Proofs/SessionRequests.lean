import Vocoder.Proofs.Independence

/-!
Requests of all three kinds on a session: to encode, to decode and to close. A request is refused by
a session that is closed, and by an open one when its size is wrong; all others are answered. What
was refused left nothing behind, so a run without those requests is the same run, and a session that
was asked to close refuses all that follows.
-/

namespace Vocoder

variable {α : Type}

/-- A request to a session. -/
inductive Request (α : Type) where
  | encode (pcm : Array Int16)
  | decode (bytes : List UInt8) (errorRate : α)
  | close

/-- What a session answers: the bytes of a frame, its samples, or that it ended. -/
inductive Answer where
  | code (bytes : List UInt8)
  | block (samples : List Int16)
  | ended

def Answer.isFrame : Answer → Bool
  | .code _ => true
  | .block _ => true
  | .ended => false

namespace Reply

/-- A reply with another form of its result. -/
def map {β γ : Type} (f : β → γ) (reply : Reply α β) : Reply α γ :=
  ⟨reply.result.map f, reply.session, reply.notices⟩

/-- Whether a request was answered, and whether it was answered with a frame. -/
def answered {β : Type} (reply : Reply α β) : Bool :=
  reply.result.isOk

def bringsFrame (reply : Reply α Answer) : Bool :=
  match reply.result with
  | .ok answer => answer.isFrame
  | .error _ => false

end Reply

/-- The requests that were answered. -/
def Request.served {β : Type} (requests : List (Request α)) (replies : List (Reply α β)) :
    List (Request α) :=
  ((requests.zip replies).filter fun pair => pair.2.answered).map Prod.fst

theorem Request.served_cons {β : Type} (request : Request α) (reply : Reply α β)
    (requests : List (Request α)) (replies : List (Reply α β)) :
    served (request :: requests) (reply :: replies) =
      if reply.answered then request :: served requests replies else served requests replies := by
  rw [served, List.zip_cons_cons, List.filter_cons]
  split <;> rfl

namespace Session

variable [Analytic α]

/-- Serves a request. -/
def serve (engine : Engine α) (session : Session α) :
    Request α → Except Fault (Reply α Answer)
  | .encode pcm => do return (← session.encode engine pcm).map .code
  | .decode bytes errorRate => do return (← session.decode engine bytes errorRate).map .block
  | .close => .ok (session.close.map fun _ => .ended)

/-- Serves requests in turn. -/
def serveAll (engine : Engine α) (session : Session α) (requests : List (Request α)) :
    Except Fault (List (Reply α Answer)) :=
  callAll (serve engine) session requests

/-- The session that a run leaves. -/
def afterAll {β : Type} (session : Session α) (replies : List (Reply α β)) : Session α :=
  replies.foldl (fun _ reply => reply.session) session

end Session

/-! ### One request -/

namespace Request

variable [Analytic α]

/-- Why a session refuses a request. -/
inductive Refused (session : Session α) : Request α → Error → Prop
  | closed (request : Request α) (hclosed : session.closed = true) :
      Refused session request .closed
  | samples {pcm : Array Int16} (hopen : session.closed = false)
      (hsize : (pcm.size : Int) ≠ session.samplesPerFrame) :
      Refused session (.encode pcm) (.frameLength pcm.size session.samplesPerFrame.toNat)
  | bytes {bytes : List UInt8} {errorRate : α} (hopen : session.closed = false)
      (hlength : (bytes.length : Int) ≠ session.bytesPerFrame) :
      Refused session (.decode bytes errorRate)
        (.bitsLength bytes.length session.bytesPerFrame.toNat)

/-- How a session answers a request. -/
inductive Taken (engine : Engine α) (session : Session α) : Request α → Reply α Answer → Prop
  | encode {pcm : Array Int16} {done : Frame.Encoded α} (hopen : session.closed = false)
      (hsize : (pcm.size : Int) = session.samplesPerFrame)
      (hdone : Frame.encode engine session.layout session.stats.frames session.encoder pcm =
        .ok done) :
      Taken engine session (.encode pcm) ((session.encoded done).map .code)
  | decode {bytes : List UInt8} {errorRate : α} {done : Frame.Decoded α}
      (hopen : session.closed = false) (hlength : (bytes.length : Int) = session.bytesPerFrame)
      (hdone : Frame.decode engine session.layout session.settings.postFilter session.decoder bytes
        errorRate = .ok done) :
      Taken engine session (.decode bytes errorRate) ((session.decoded done).map .block)
  | close (hopen : session.closed = false) :
      Taken engine session .close ⟨.ok .ended, { session with closed := true }, []⟩

theorem Taken.answered {engine : Engine α} {session : Session α} {request : Request α}
    {reply : Reply α Answer} (h : request.Taken engine session reply) : reply.answered = true := by
  cases h <;> rfl

end Request

namespace Session

variable [Analytic α] {engine : Engine α} {session : Session α} {request : Request α}
  {reply : Reply α Answer}

/-- A request that is refused gets the reason, and the session stays as it is. -/
theorem serve_of_refused (engine : Engine α) {error : Error}
    (h : request.Refused session error) :
    session.serve engine request = .ok (session.refuse error) := by
  cases h with
  | closed request hclosed => cases request <;> simp [serve, encode, decode, close, hclosed] <;> rfl
  | samples hopen hsize => simp [serve, encode, hopen, hsize]; rfl
  | bytes hopen hlength => simp [serve, decode, hopen, hlength]; rfl

/-- All that a session does with a request. -/
theorem serve_cases (h : session.serve engine request = .ok reply) :
    (∃ error, request.Refused session error ∧ reply = session.refuse error) ∨
      request.Taken engine session reply := by
  have hrefused : ∀ error, request.Refused session error →
      (∃ error, request.Refused session error ∧ reply = session.refuse error) ∨
        request.Taken engine session reply := by
    intro error herror
    rw [serve_of_refused engine herror] at h
    exact .inl ⟨error, herror, (Except.ok.inj h).symm⟩
  by_cases hclosed : session.closed = true
  · exact hrefused _ (.closed request hclosed)
  have hopen : session.closed = false := by simpa using hclosed
  cases request with
  | encode pcm =>
      by_cases hsize : (pcm.size : Int) = session.samplesPerFrame
      · obtain ⟨called, hcalled, h⟩ := bind_eq_ok.mp h
        obtain rfl := pure_eq_ok.mp h
        obtain ⟨done, hdone, rfl⟩ := exists_of_encode hopen hsize hcalled
        exact .inr (.encode hopen hsize hdone)
      · exact hrefused _ (.samples hopen hsize)
  | decode bytes errorRate =>
      by_cases hlength : (bytes.length : Int) = session.bytesPerFrame
      · obtain ⟨called, hcalled, h⟩ := bind_eq_ok.mp h
        obtain rfl := pure_eq_ok.mp h
        obtain ⟨done, hdone, rfl⟩ := exists_of_decode hopen hlength hcalled
        exact .inr (.decode hopen hlength hdone)
      · exact hrefused _ (.bytes hopen hlength)
  | close =>
      rw [serve, close, if_neg hclosed] at h
      cases h
      exact .inr (.close hopen)

/-- A request gets an error exactly where the session refuses it for that reason. -/
theorem error_iff_refused (h : session.serve engine request = .ok reply) (error : Error) :
    reply.result = .error error ↔ request.Refused session error := by
  constructor
  · intro herror
    rcases serve_cases h with ⟨error', hrefused, rfl⟩ | htaken
    · cases herror
      exact hrefused
    · have hanswered := htaken.answered
      rw [Reply.answered, herror] at hanswered
      cases hanswered
  · intro hrefused
    rw [serve_of_refused engine hrefused] at h
    cases h
    rfl

/-- What is not answered leaves no trace. -/
theorem unchanged_of_refused (h : session.serve engine request = .ok reply)
    (hreply : reply.answered = false) : reply.session = session ∧ reply.notices = [] := by
  rcases serve_cases h with ⟨error, -, rfl⟩ | htaken
  · exact ⟨rfl, rfl⟩
  · rw [htaken.answered] at hreply
    cases hreply

/-- The counter of frames moves with each frame that is answered. -/
theorem frames_of_serve (h : session.serve engine request = .ok reply) :
    reply.session.stats.frames = session.stats.frames + reply.bringsFrame.toNat := by
  rcases serve_cases h with ⟨error, -, rfl⟩ | htaken
  · rfl
  · cases htaken <;> rfl

omit [Analytic α] in
theorem closed_of_close (session : Session α) : session.close.session.closed = true := by
  rw [close]
  split
  · assumption
  · rfl

/-! ### Runs of requests -/

variable {requests : List (Request α)} {replies : List (Reply α Answer)}

/-- A closed session serves every run, and refuses all of it. -/
theorem serveAll_closed (engine : Engine α) (hclosed : session.closed = true)
    (requests : List (Request α)) :
    session.serveAll engine requests = .ok (requests.map fun _ => session.refuse .closed) := by
  induction requests with
  | nil => rfl
  | cons request rest ih =>
      have hserve := serve_of_refused engine (.closed request hclosed)
      exact callAll_cons_eq_ok.mpr ⟨_, _, hserve, ih, rfl⟩

/-- Past a request to close, there are only refusals. -/
theorem error_of_close (h : session.serveAll engine requests = .ok replies) {i j : Nat}
    (hi : requests[i]? = some .close) (hj : i < j) (hreply : replies[j]? = some reply) :
    reply.result = .error .closed := by
  induction requests generalizing session replies i j with
  | nil => simp at hi
  | cons request rest ih =>
      obtain ⟨first, later, hfirst, hlater, rfl⟩ := callAll_cons_eq_ok.mp h
      obtain ⟨j, rfl⟩ := Nat.exists_eq_succ_of_ne_zero (Nat.ne_zero_of_lt hj)
      rw [Nat.succ_eq_add_one, List.getElem?_cons_succ] at hreply
      cases i with
      | zero =>
          obtain rfl : request = .close := by simpa using hi
          obtain rfl := Except.ok.inj hfirst
          have hrefusals := serveAll_closed engine (closed_of_close session) rest
          obtain rfl := Except.ok.inj (hlater.symm.trans hrefusals)
          obtain ⟨_, -, rfl⟩ := List.mem_map.mp (List.mem_of_getElem? hreply)
          rfl
      | succ i => exact ih hlater (by simpa using hi) (by omega) hreply

/-- The run of the requests that were answered goes through the same sessions. -/
theorem serveAll_served (h : session.serveAll engine requests = .ok replies) :
    session.serveAll engine (Request.served requests replies) =
      .ok (replies.filter Reply.answered) := by
  induction requests generalizing session replies with
  | nil =>
      cases h
      rfl
  | cons request rest ih =>
      obtain ⟨first, later, hfirst, hlater, rfl⟩ := callAll_cons_eq_ok.mp h
      have hrest := ih hlater
      rw [Request.served_cons, List.filter_cons]
      split
      · exact callAll_cons_eq_ok.mpr ⟨first, _, hfirst, hrest, rfl⟩
      · rename_i hrefused
        rw [(unchanged_of_refused hfirst (by simpa using hrefused)).1] at hrest
        exact hrest

theorem along_serveAll {Q : Session α → Request α → Reply α Answer → Prop}
    (hserve : ∀ session request reply, session.serve engine request = .ok reply →
      Q session request reply) (h : session.serveAll engine requests = .ok replies) :
    Along Q session requests replies :=
  along_of_callAll (I := fun _ => True)
    (fun session request reply _ hreply => ⟨hserve session request reply hreply, trivial⟩) trivial h

/-- Nor do the refusals count for the session that a run leaves, nor for its reports. -/
theorem afterAll_answered (h : session.serveAll engine requests = .ok replies) :
    session.afterAll (replies.filter Reply.answered) = session.afterAll replies ∧
      (replies.filter Reply.answered).flatMap Reply.notices = replies.flatMap Reply.notices := by
  have halong := along_serveAll (fun _ _ _ => unchanged_of_refused) h
  clear h
  induction halong with
  | nil session => exact ⟨rfl, rfl⟩
  | @cons session request reply rest replies hfirst _ ih =>
      rw [List.filter_cons]
      split
      · rw [List.flatMap_cons, List.flatMap_cons, ih.2]
        exact ⟨ih.1, rfl⟩
      · rename_i hrefused
        obtain ⟨hsession, hnotices⟩ := hfirst (by simpa using hrefused)
        rw [hsession] at ih
        rw [List.flatMap_cons, hnotices, afterAll, afterAll, List.foldl_cons, hsession]
        exact ih

theorem frames_afterAll (h : session.serveAll engine requests = .ok replies) :
    (session.afterAll replies).stats.frames =
      session.stats.frames + replies.countP Reply.bringsFrame := by
  have halong := along_serveAll (fun _ _ _ => frames_of_serve) h
  clear h
  induction halong with
  | nil session => rfl
  | @cons session request reply rest replies hfirst _ ih =>
      have hcount : (reply :: replies).countP Reply.bringsFrame =
          replies.countP Reply.bringsFrame + reply.bringsFrame.toNat := by
        rw [List.countP_cons]
        cases reply.bringsFrame <;> rfl
      calc (session.afterAll (reply :: replies)).stats.frames
          = reply.session.stats.frames + replies.countP Reply.bringsFrame := ih
        _ = session.stats.frames + (reply :: replies).countP Reply.bringsFrame := by
            rw [hfirst, hcount]
            omega

/-- Over the real numbers every request is served, on a session that decodes or on a closed one. -/
theorem yields_serve (engine : Engine ℝ) {mode : Mode} {session : Session ℝ}
    (h : session.closed = true ∨ session.Decodes mode) (request : Request ℝ) :
    Yields (session.serve engine request) fun reply =>
      reply.session.closed = true ∨ reply.session.Decodes mode := by
  rcases h with hclosed | hdecodes
  · rw [serve_of_refused engine (.closed request hclosed)]
    exact Yields.ok (.inl hclosed)
  · cases request with
    | encode pcm =>
        refine (hdecodes.kept_by_encode engine pcm).bind fun reply hreply => ?_
        exact Yields.pure (.inr hreply)
    | decode bytes errorRate =>
        refine (hdecodes.kept_by_decode engine bytes errorRate).bind fun reply hreply => ?_
        exact Yields.pure (.inr hreply)
    | close => exact Yields.ok (.inl (closed_of_close session))

theorem Decodes.yields_serveAll (engine : Engine ℝ) {mode : Mode} {session : Session ℝ}
    (h : session.Decodes mode) (requests : List (Request ℝ)) :
    Yields (session.serveAll engine requests) fun _ => True := by
  refine (yields_callAll (I := fun session => session.closed = true ∨ session.Decodes mode)
    (Q := fun _ _ _ => True) ?_ (.inr h)).mono fun _ _ => trivial
  intro session request _ hsession
  exact (yields_serve engine hsession request).mono fun _ hreply => ⟨trivial, hreply⟩

end Session

/-- Refused requests leave no trace, and closing is final. A run without its refused requests gives
the others the same replies and leaves the same session, and the counter of frames moves by the
frames that were answered. Over the real numbers all runs return. -/
theorem refused_requests_leave_no_trace [Analytic α] (engine : Engine α) (session : Session α)
    (requests : List (Request α)) (replies : List (Reply α Answer))
    (hrun : session.serveAll engine requests = .ok replies) :
    Session.Along (fun before request reply => ∀ error,
      reply.result = .error error ↔ request.Refused before error) session requests replies ∧
    session.serveAll engine (Request.served requests replies) =
      .ok (replies.filter Reply.answered) ∧
    session.afterAll (replies.filter Reply.answered) = session.afterAll replies ∧
    (replies.filter Reply.answered).flatMap Reply.notices = replies.flatMap Reply.notices ∧
    (∀ (i j : Nat) (reply : Reply α Answer), requests[i]? = some .close → i < j →
      replies[j]? = some reply → reply.result = .error .closed) ∧
    (session.afterAll replies).stats.frames =
      session.stats.frames + replies.countP Reply.bringsFrame ∧
    (∀ (mode : Mode) (choices : List (Choice α)) (created : List (Notice α)),
      Session.create mode choices = .ok (session, created) → session.stats.frames = 0) ∧
    ∀ (engine : Engine ℝ) (mode : Mode) (choices : List (Choice ℝ)), ∃ session created,
      Session.create mode choices = .ok (session, created) ∧
      ∀ requests, ∃ replies, session.serveAll engine requests = .ok replies := by
  refine ⟨Session.along_serveAll (fun _ _ _ => Session.error_iff_refused) hrun,
    Session.serveAll_served hrun, (Session.afterAll_answered hrun).1,
    (Session.afterAll_answered hrun).2, fun i j reply hi hj => Session.error_of_close hrun hi hj,
    Session.frames_afterAll hrun, ?_, ?_⟩
  · intro mode choices created hcreate
    obtain ⟨decoder, _, rfl⟩ := Session.exists_of_create hcreate
    rfl
  · intro engine mode choices
    obtain ⟨session, created, hcreate, hdecodes⟩ := Session.exists_create mode choices
    refine ⟨session, created, hcreate, fun requests => ?_⟩
    obtain ⟨replies, hreplies, -⟩ := hdecodes.yields_serveAll engine requests
    exact ⟨replies, hreplies⟩

/-- A run with a frame of the wrong size and requests past the end. -/
theorem refused_requests_leave_no_trace_past_end :
    ∃ (engine : Engine ℝ) (session : Session ℝ) (created : List (Notice ℝ))
      (requests : List (Request ℝ)) (replies : List (Reply ℝ Answer)),
      Session.create .rate1200 [] = .ok (session, created) ∧
      requests = [.encode (Array.replicate 320 9), .decode [1] 0, .decode (List.replicate 6 255) 0,
        .close, .encode (Array.replicate 320 0), .close] ∧
      session.serveAll engine requests = .ok replies ∧
      Session.Along (fun before request reply => ∀ error,
        reply.result = .error error ↔ request.Refused before error) session requests replies ∧
      session.serveAll engine (Request.served requests replies) =
        .ok (replies.filter Reply.answered) ∧
      session.afterAll (replies.filter Reply.answered) = session.afterAll replies ∧
      (replies.filter Reply.answered).flatMap Reply.notices = replies.flatMap Reply.notices ∧
      (∀ (j : Nat) (reply : Reply ℝ Answer), 3 < j → replies[j]? = some reply →
        reply.result = .error .closed) ∧
      (session.afterAll replies).stats.frames = replies.countP Reply.bringsFrame := by
  obtain ⟨session, created, hcreate, hdecodes⟩ := Session.exists_create .rate1200 []
  obtain ⟨replies, hreplies, -⟩ := hdecodes.yields_serveAll (Engine.ofTransform Transform.dft)
    [.encode (Array.replicate 320 9), .decode [1] 0, .decode (List.replicate 6 255) 0, .close,
      .encode (Array.replicate 320 0), .close]
  obtain ⟨halong, hserved, hsession, hnotices, hclosed, hframes, hstart, -⟩ :=
    refused_requests_leave_no_trace _ session _ replies hreplies
  refine ⟨_, session, created, _, replies, hcreate, rfl, hreplies, halong, hserved, hsession,
    hnotices, fun j reply => hclosed 3 j reply rfl, ?_⟩
  rw [hframes, hstart _ _ _ hcreate, Nat.zero_add]

end Vocoder
