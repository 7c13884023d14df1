import Vocoder.Proofs.Outcome
import Vocoder.Session.Basic

/-!
Calls on a session, and runs of them. A call is refused, for a reason that only the layout of the
session and whether it is open decide, or it replies with what the frame gave. In a run each call is
made on the session that the call before it left: what one call keeps and gives, from every session
that meets an invariant, a whole run gives call by call.
-/

namespace Vocoder.Session

variable {α : Type}

/-! ### One call -/

section Calls

variable [Analytic α]

/-- A session that was made is at its start. -/
theorem exists_of_create {mode : Mode} {choices : List (Choice α)} {session : Session α}
    {notices : List (Notice α)} (h : create mode choices = .ok (session, notices)) :
    ∃ decoder, Decoder.start mode.layout.order (Settings.ofChoices choices).seed = .ok decoder ∧
      session = ⟨mode.layout, Settings.ofChoices choices, Encoder.start, decoder, Stats.start,
        .idle, false⟩ := by
  rw [create] at h
  split at h
  · cases h
  · split at h
    · cases h
    · rename_i started hstarted
      obtain ⟨decoder, hdecoder, hstarted⟩ := bind_eq_ok.mp hstarted
      cases h
      exact ⟨decoder, hdecoder, (pure_eq_ok.mp hstarted).symm⟩

/-- Why samples are not encoded. -/
def encodeRefusal? (session : Session α) (pcm : Array Int16) : Option Error :=
  if session.closed then some .closed
  else if (pcm.size : Int) ≠ session.samplesPerFrame then
    some (.frameLength pcm.size session.samplesPerFrame.toNat)
  else none

/-- Why a frame is not decoded. -/
def decodeRefusal? (session : Session α) (bytes : List UInt8) : Option Error :=
  if session.closed then some .closed
  else if (bytes.length : Int) ≠ session.bytesPerFrame then
    some (.bitsLength bytes.length session.bytesPerFrame.toNat)
  else none

/-- The reply to samples that were encoded. -/
def encoded (session : Session α) (done : Frame.Encoded α) : Reply α (List UInt8) where
  result := .ok done.bytes
  session := { session with
    encoder := done.encoder
    stats := { session.stats with
      frames := session.stats.frames + 1
      fallbacks := session.stats.fallbacks + done.fallbacks
      lineError := session.stats.lineError + done.lineError }
    stage := stageAfter session.stage done.notices }
  notices := done.notices

/-- The reply to a frame that was decoded. -/
def decoded (session : Session α) (done : Frame.Decoded α) : Reply α (List Int16) where
  result := .ok done.samples
  session := { session with
    decoder := done.decoder
    stats := { session.stats with
      frames := session.stats.frames + 1
      reorders := session.stats.reorders + done.reordered.toNat
      noise := session.stats.noise + done.noisy }
    stage := stageAfter session.stage done.notices }
  notices := done.notices

theorem encode_eq (engine : Engine α) (session : Session α) (pcm : Array Int16) :
    session.encode engine pcm = match session.encodeRefusal? pcm with
      | some error => .ok (session.refuse error)
      | none => do
        let done ← Frame.encode engine session.layout session.stats.frames session.encoder pcm
        return session.encoded done := by
  unfold encode encodeRefusal?
  split_ifs <;> rfl

theorem decode_eq (engine : Engine α) (session : Session α) (bytes : List UInt8) (errorRate : α) :
    session.decode engine bytes errorRate = match session.decodeRefusal? bytes with
      | some error => .ok (session.refuse error)
      | none => do
        let done ← Frame.decode engine session.layout session.settings.postFilter session.decoder
          bytes errorRate
        return session.decoded done := by
  unfold decode decodeRefusal?
  split_ifs <;> rfl

omit [Analytic α] in
theorem encodeRefusal?_eq_none {session : Session α} {pcm : Array Int16} :
    session.encodeRefusal? pcm = none ↔
      session.closed = false ∧ (pcm.size : Int) = session.samplesPerFrame := by
  unfold encodeRefusal?
  split_ifs <;> simp_all

omit [Analytic α] in
theorem decodeRefusal?_eq_none {session : Session α} {bytes : List UInt8} :
    session.decodeRefusal? bytes = none ↔
      session.closed = false ∧ (bytes.length : Int) = session.bytesPerFrame := by
  unfold decodeRefusal?
  split_ifs <;> simp_all

/-- A session that takes the samples replies with what their frame gave. -/
theorem exists_of_encode {engine : Engine α} {session : Session α} {pcm : Array Int16}
    {reply : Reply α (List UInt8)} (hopen : session.closed = false)
    (hpcm : (pcm.size : Int) = session.samplesPerFrame)
    (h : session.encode engine pcm = .ok reply) :
    ∃ done, Frame.encode engine session.layout session.stats.frames session.encoder pcm =
      .ok done ∧ reply = session.encoded done := by
  rw [encode_eq, encodeRefusal?_eq_none.mpr ⟨hopen, hpcm⟩] at h
  obtain ⟨done, hdone, hreply⟩ := bind_eq_ok.mp h
  exact ⟨done, hdone, (pure_eq_ok.mp hreply).symm⟩

/-- A session that takes a frame replies with what the frame gave. -/
theorem exists_of_decode {engine : Engine α} {session : Session α} {bytes : List UInt8}
    {errorRate : α} {reply : Reply α (List Int16)} (hopen : session.closed = false)
    (hlength : (bytes.length : Int) = session.bytesPerFrame)
    (h : session.decode engine bytes errorRate = .ok reply) :
    ∃ done, Frame.decode engine session.layout session.settings.postFilter session.decoder bytes
      errorRate = .ok done ∧ reply = session.decoded done := by
  rw [decode_eq, decodeRefusal?_eq_none.mpr ⟨hopen, hlength⟩] at h
  obtain ⟨done, hdone, hreply⟩ := bind_eq_ok.mp h
  exact ⟨done, hdone, (pure_eq_ok.mp hreply).symm⟩

end Calls

/-! ### Runs -/

variable {ι β : Type}

/-- Makes calls of one kind in turn. -/
def callAll (call : Session α → ι → Except Fault (Reply α β)) (session : Session α) :
    List ι → Except Fault (List (Reply α β))
  | [] => .ok []
  | input :: rest => do
    let reply ← call session input
    return reply :: (← callAll call reply.session rest)

theorem callAll_cons_eq_ok {call : Session α → ι → Except Fault (Reply α β)} {session : Session α}
    {input : ι} {rest : List ι} {replies : List (Reply α β)} :
    callAll call session (input :: rest) = .ok replies ↔
      ∃ reply later, call session input = .ok reply ∧
        callAll call reply.session rest = .ok later ∧ reply :: later = replies := by
  simp only [callAll, bind_eq_ok, pure_eq_ok, exists_and_left]

/-- A property of every call of a run: of the session before it, its input and its reply. -/
inductive Along (Q : Session α → ι → Reply α β → Prop) :
    Session α → List ι → List (Reply α β) → Prop
  | nil (session : Session α) : Along Q session [] []
  | cons {session : Session α} {input : ι} {reply : Reply α β} {rest : List ι}
      {replies : List (Reply α β)} (first : Q session input reply)
      (later : Along Q reply.session rest replies) :
      Along Q session (input :: rest) (reply :: replies)

theorem Along.mono {P Q : Session α → ι → Reply α β → Prop} {session : Session α} {run : List ι}
    {replies : List (Reply α β)} (h : Along P session run replies)
    (hPQ : ∀ session input reply, P session input reply → Q session input reply) :
    Along Q session run replies := by
  induction h with
  | nil session => exact .nil session
  | cons first _ ih => exact .cons (hPQ _ _ _ first) ih

theorem Along.length_eq {Q : Session α → ι → Reply α β → Prop} {session : Session α} {run : List ι}
    {replies : List (Reply α β)} (h : Along Q session run replies) :
    replies.length = run.length := by
  induction h with
  | nil => rfl
  | cons _ _ ih => rw [List.length_cons, List.length_cons, ih]

theorem Along.forall_mem {P : Reply α β → Prop} {session : Session α} {run : List ι}
    {replies : List (Reply α β)} (h : Along (fun _ _ reply => P reply) session run replies) :
    ∀ reply ∈ replies, P reply := by
  induction h with
  | nil => simp
  | cons first _ ih => exact List.forall_mem_cons.mpr ⟨first, ih⟩

/-- A run returns when each of its calls does from a session with the invariant. -/
theorem yields_callAll {call : Session α → ι → Except Fault (Reply α β)} {I : Session α → Prop}
    {Q : Session α → ι → Reply α β → Prop} {run : List ι}
    (hcall : ∀ session, ∀ input ∈ run, I session →
      Yields (call session input) fun reply => Q session input reply ∧ I reply.session)
    {session : Session α} (h : I session) :
    Yields (callAll call session run) (Along Q session run) := by
  induction run generalizing session with
  | nil => exact Yields.ok (.nil session)
  | cons input rest ih =>
      refine (hcall session input List.mem_cons_self h).bind fun reply hreply => ?_
      have hrest := ih (fun session input hinput => hcall session input (.tail _ hinput)) hreply.2
      exact hrest.bind fun replies hreplies => Yields.pure (.cons hreply.1 hreplies)

/-- In a run that returned, what each call gives from a session with the invariant holds of every
call. -/
theorem along_of_callAll {call : Session α → ι → Except Fault (Reply α β)} {I : Session α → Prop}
    {Q : Session α → ι → Reply α β → Prop}
    (hcall : ∀ session input reply, I session → call session input = .ok reply →
      Q session input reply ∧ I reply.session)
    {session : Session α} (h : I session) {run : List ι} {replies : List (Reply α β)}
    (hrun : callAll call session run = .ok replies) : Along Q session run replies := by
  induction run generalizing session replies with
  | nil =>
      cases hrun
      exact .nil session
  | cons input rest ih =>
      obtain ⟨reply, later, hreply, hlater, rfl⟩ := callAll_cons_eq_ok.mp hrun
      have hfirst := hcall session input reply h hreply
      exact .cons hfirst.1 (ih hfirst.2 hlater)

end Vocoder.Session
