import Vocoder.Proofs.DecoderTotal
import Vocoder.Proofs.EncoderTotal
import Vocoder.Proofs.LockStep
import Vocoder.Proofs.SessionRuns

/-!
Encoding and decoding on one session do not interfere. All that they share is the layout, the state
of the session and the number of frames so far, which only reports show. So the encode calls of a
run are answered as if there were no decode calls, and the decode calls as if there were no encode
calls.
-/

namespace Vocoder

variable {α : Type} [Analytic α]

/-! ### Frames -/

namespace Frame

/-- The analysis of a subframe adds to the reports and does not look at them. -/
theorem Walk.analyse_notices {engine : Engine α} {walk next : Walk α} {pcm : Array Int16} {i : Nat}
    (h : walk.analyse engine pcm i = .ok next) (notices : List (Notice α)) :
    ∃ notices', { walk with notices }.analyse engine pcm i =
      .ok { next with notices := notices' } := by
  obtain ⟨samples, hsamples, h⟩ := bind_eq_ok.mp h
  obtain ⟨⟨model, encoder⟩, hmodel, h⟩ := bind_eq_ok.mp h
  obtain rfl := pure_eq_ok.mp h
  exact ⟨_, bind_eq_ok.mpr ⟨samples, hsamples, bind_eq_ok.mpr ⟨_, hmodel, rfl⟩⟩⟩

/-- The number of frames so far stands in the reports of an update and nowhere else. -/
theorem Walk.update_notices {engine : Engine α} {layout : Layout} {frames i u : Nat}
    {walk next : Walk α} (h : walk.update engine layout frames i u = .ok next) (frames' : Nat)
    (notices : List (Notice α)) :
    ∃ notices', { walk with notices }.update engine layout frames' i u =
      .ok { next with notices := notices' } := by
  obtain ⟨found, hfound, h⟩ := bind_eq_ok.mp h
  obtain ⟨scheme, hscheme, h⟩ := bind_eq_ok.mp h
  obtain ⟨⟨code, reference⟩, hcode, h⟩ := bind_eq_ok.mp h
  obtain rfl := pure_eq_ok.mp h
  rw [Walk.update, hfound]
  refine Exists.imp (fun notices' hnotices => bind_eq_ok.mpr ⟨found, rfl, bind_eq_ok.mpr
    ⟨scheme, hscheme, bind_eq_ok.mpr ⟨_, hcode, hnotices⟩⟩⟩) ?_
  dsimp only
  cases found.found
  · exact ⟨_, rfl⟩
  · exact ⟨_, rfl⟩

theorem Walk.step_notices {engine : Engine α} {layout : Layout} {frames : Nat} {pcm : Array Int16}
    {walk next : Walk α} {i : Nat} (h : walk.step engine layout frames pcm i = .ok next)
    (frames' : Nat) (notices : List (Notice α)) :
    ∃ notices', { walk with notices }.step engine layout frames' pcm i =
      .ok { next with notices := notices' } := by
  obtain ⟨middle, hmiddle, h⟩ := bind_eq_ok.mp h
  obtain ⟨reported, hreported⟩ := Walk.analyse_notices hmiddle notices
  rw [Walk.step, hreported]
  cases hat : layout.updateAt? i with
  | none =>
      rw [hat] at h
      obtain rfl := pure_eq_ok.mp h
      exact ⟨reported, rfl⟩
  | some u =>
      rw [hat] at h
      exact Walk.update_notices h frames' reported

theorem walk_notices {engine : Engine α} {layout : Layout} {frames : Nat} {encoder : Encoder α}
    {pcm : Array Int16} {count : Nat} {walked : Walk α}
    (h : walk engine layout frames encoder pcm count = .ok walked) (frames' : Nat) :
    ∃ notices, walk engine layout frames' encoder pcm count = .ok { walked with notices } := by
  induction count generalizing walked with
  | zero =>
      cases h
      exact ⟨[], rfl⟩
  | succ count ih =>
      rw [walk_succ] at h
      obtain ⟨middle, hmiddle, hstep⟩ := bind_eq_ok.mp h
      obtain ⟨reported, hreported⟩ := ih hmiddle
      rw [walk_succ, hreported]
      exact Walk.step_notices hstep frames' reported

/-- A frame is encoded in the same way after any number of frames. -/
theorem encode_notices {engine : Engine α} {layout : Layout} {frames : Nat} {encoder : Encoder α}
    {pcm : Array Int16} {done : Encoded α}
    (h : encode engine layout frames encoder pcm = .ok done) (frames' : Nat) :
    ∃ notices, encode engine layout frames' encoder pcm = .ok { done with notices } := by
  obtain ⟨size, hsize, h⟩ := bind_eq_ok.mp h
  obtain ⟨subframes, hsubframes, h⟩ := bind_eq_ok.mp h
  obtain ⟨walked, hwalked, h⟩ := bind_eq_ok.mp h
  obtain ⟨⟨indexes, lineError⟩, hindexes, h⟩ := bind_eq_ok.mp h
  obtain ⟨spare, hspare, h⟩ := bind_eq_ok.mp h
  obtain ⟨writer, hwriter, h⟩ := bind_eq_ok.mp h
  obtain rfl := pure_eq_ok.mp h
  obtain ⟨reported, hreported⟩ := walk_notices hwalked frames'
  exact ⟨_, bind_eq_ok.mpr ⟨size, hsize, bind_eq_ok.mpr ⟨subframes, hsubframes,
    bind_eq_ok.mpr ⟨_, hreported, bind_eq_ok.mpr ⟨_, hindexes, bind_eq_ok.mpr ⟨spare, hspare,
      bind_eq_ok.mpr ⟨writer, hwriter, rfl⟩⟩⟩⟩⟩⟩⟩

end Frame

/-! ### Calls -/

/-- A call on a session. -/
inductive Call (α : Type) where
  | encode (pcm : Array Int16)
  | decode (bytes : List UInt8) (errorRate : α)

def Call.isEncode : Call α → Bool
  | .encode _ => true
  | .decode _ _ => false

def Call.isDecode : Call α → Bool
  | .encode _ => false
  | .decode _ _ => true

namespace Session

/-- What a run of calls gives: the answers to its encode and to its decode calls, in order and
refusals included, and the session after it. -/
structure Transcript (α : Type) where
  encoded : List (Except Error (List UInt8))
  decoded : List (Except Error (List Int16))
  session : Session α

/-- Makes one call. -/
def make (engine : Engine α) (session : Session α) : Call α → Except Fault (Transcript α)
  | .encode pcm => do
    let reply ← session.encode engine pcm
    return ⟨[reply.result], [], reply.session⟩
  | .decode bytes errorRate => do
    let reply ← session.decode engine bytes errorRate
    return ⟨[], [reply.result], reply.session⟩

/-- Makes calls in turn. -/
def perform (engine : Engine α) (session : Session α) :
    List (Call α) → Except Fault (Transcript α)
  | [] => .ok ⟨[], [], session⟩
  | call :: rest => do
    let first ← session.make engine call
    let later ← first.session.perform engine rest
    return ⟨first.encoded ++ later.encoded, first.decoded ++ later.decoded, later.session⟩

/-- Two sessions that encode in the same way. -/
structure EncodesAlike (left right : Session α) : Prop where
  layout : left.layout = right.layout
  closed : left.closed = right.closed
  encoder : left.encoder = right.encoder

/-- Two sessions that decode in the same way. -/
structure DecodesAlike (left right : Session α) : Prop where
  layout : left.layout = right.layout
  closed : left.closed = right.closed
  postFilter : left.settings.postFilter = right.settings.postFilter
  decoder : left.decoder = right.decoder

variable {engine : Engine α} {left right : Session α}

/-- Sessions of one mode start to encode alike, whatever the choices are. -/
theorem EncodesAlike.of_create {mode : Mode} {choices others : List (Choice α)}
    {created created' : List (Notice α)} (hleft : create mode choices = .ok (left, created))
    (hright : create mode others = .ok (right, created')) : EncodesAlike left right := by
  obtain ⟨decoder, _, rfl⟩ := exists_of_create hleft
  obtain ⟨decoder', _, rfl⟩ := exists_of_create hright
  exact ⟨rfl, rfl, rfl⟩

theorem EncodesAlike.encode (h : EncodesAlike left right) {pcm : Array Int16}
    {reply : Reply α (List UInt8)} (hreply : left.encode engine pcm = .ok reply) :
    ∃ reply', right.encode engine pcm = .ok reply' ∧ reply'.result = reply.result ∧
      EncodesAlike reply.session reply'.session := by
  have hrefusal : right.encodeRefusal? pcm = left.encodeRefusal? pcm := by
    rw [encodeRefusal?, encodeRefusal?, samplesPerFrame, samplesPerFrame, h.layout, h.closed]
  rw [encode_eq] at hreply ⊢
  rw [hrefusal]
  cases hcase : left.encodeRefusal? pcm with
  | some error =>
      rw [hcase] at hreply
      cases hreply
      exact ⟨_, rfl, rfl, h⟩
  | none =>
      rw [hcase] at hreply
      obtain ⟨done, hdone, hreply⟩ := bind_eq_ok.mp hreply
      obtain rfl := pure_eq_ok.mp hreply
      obtain ⟨notices, hdone'⟩ := Frame.encode_notices hdone right.stats.frames
      rw [h.layout, h.encoder] at hdone'
      exact ⟨_, bind_eq_ok.mpr ⟨_, hdone', rfl⟩, rfl, h.layout, h.closed, rfl⟩

theorem DecodesAlike.decode (h : DecodesAlike left right) {bytes : List UInt8} {errorRate : α}
    {reply : Reply α (List Int16)} (hreply : left.decode engine bytes errorRate = .ok reply) :
    ∃ reply', right.decode engine bytes errorRate = .ok reply' ∧ reply'.result = reply.result ∧
      DecodesAlike reply.session reply'.session := by
  have hrefusal : right.decodeRefusal? bytes = left.decodeRefusal? bytes := by
    rw [decodeRefusal?, decodeRefusal?, bytesPerFrame, bytesPerFrame, h.layout, h.closed]
  rw [decode_eq] at hreply ⊢
  rw [hrefusal]
  cases hcase : left.decodeRefusal? bytes with
  | some error =>
      rw [hcase] at hreply
      cases hreply
      exact ⟨_, rfl, rfl, h⟩
  | none =>
      rw [hcase] at hreply
      obtain ⟨done, hdone, hreply⟩ := bind_eq_ok.mp hreply
      obtain rfl := pure_eq_ok.mp hreply
      rw [h.layout, h.postFilter, h.decoder] at hdone
      exact ⟨_, bind_eq_ok.mpr ⟨_, hdone, rfl⟩, rfl, h.layout, h.closed, h.postFilter, rfl⟩

/-- Decoding leaves a session that encodes as before. -/
theorem EncodesAlike.of_decode (h : EncodesAlike left right) {bytes : List UInt8} {errorRate : α}
    {reply : Reply α (List Int16)} (hreply : left.decode engine bytes errorRate = .ok reply) :
    EncodesAlike reply.session right := by
  rw [decode_eq] at hreply
  split at hreply
  · cases hreply
    exact h
  · obtain ⟨done, _, hreply⟩ := bind_eq_ok.mp hreply
    obtain rfl := pure_eq_ok.mp hreply
    exact ⟨h.layout, h.closed, h.encoder⟩

/-- Encoding leaves a session that decodes as before. -/
theorem DecodesAlike.of_encode (h : DecodesAlike left right) {pcm : Array Int16}
    {reply : Reply α (List UInt8)} (hreply : left.encode engine pcm = .ok reply) :
    DecodesAlike reply.session right := by
  rw [encode_eq] at hreply
  split at hreply
  · cases hreply
    exact h
  · obtain ⟨done, _, hreply⟩ := bind_eq_ok.mp hreply
    obtain rfl := pure_eq_ok.mp hreply
    exact ⟨h.layout, h.closed, h.postFilter, h.decoder⟩

/-! ### Runs of calls -/

/-- The calls of one kind in a run are answered as on a session that makes no others, if each call
keeps the two alike. -/
theorem perform_filter {β : Type} {Alike : Session α → Session α → Prop} {kept : Call α → Bool}
    (answers : Transcript α → List β) (hnone : ∀ session, answers ⟨[], [], session⟩ = [])
    (hjoin : ∀ first later : Transcript α, answers ⟨first.encoded ++ later.encoded,
      first.decoded ++ later.decoded, later.session⟩ = answers first ++ answers later)
    (hkept : ∀ {left right : Session α} {call : Call α} {first : Transcript α}, Alike left right →
      kept call = true → left.make engine call = .ok first →
      ∃ first', right.make engine call = .ok first' ∧ answers first' = answers first ∧
        Alike first.session first'.session)
    (hskipped : ∀ {left right : Session α} {call : Call α} {first : Transcript α},
      Alike left right → kept call = false → left.make engine call = .ok first →
      answers first = [] ∧ Alike first.session right)
    (h : Alike left right) {calls : List (Call α)} {mixed : Transcript α}
    (hmixed : left.perform engine calls = .ok mixed) :
    ∃ sent, right.perform engine (calls.filter kept) = .ok sent ∧
      answers sent = answers mixed ∧ Alike mixed.session sent.session := by
  induction calls generalizing left right mixed with
  | nil =>
      cases hmixed
      exact ⟨_, rfl, (hnone right).trans (hnone left).symm, h⟩
  | cons call rest ih =>
      obtain ⟨first, hfirst, hmixed⟩ := bind_eq_ok.mp hmixed
      obtain ⟨later, hlater, hmixed⟩ := bind_eq_ok.mp hmixed
      obtain rfl := pure_eq_ok.mp hmixed
      cases hcall : kept call with
      | true =>
          obtain ⟨first', hfirst', hanswers, hnext⟩ := hkept h hcall hfirst
          obtain ⟨sent, hsent, hrest, hlast⟩ := ih hnext hlater
          rw [List.filter_cons_of_pos hcall]
          refine ⟨_, bind_eq_ok.mpr ⟨first', hfirst', bind_eq_ok.mpr ⟨sent, hsent, rfl⟩⟩, ?_, hlast⟩
          rw [hjoin, hjoin, hanswers, hrest]
      | false =>
          obtain ⟨hanswers, hnext⟩ := hskipped h hcall hfirst
          obtain ⟨sent, hsent, hrest, hlast⟩ := ih hnext hlater
          rw [List.filter_cons_of_neg (by simp [hcall])]
          refine ⟨sent, hsent, ?_, hlast⟩
          rw [hjoin, hanswers, hrest, List.nil_append]

/-- The encode calls of a run are answered as on a session that encodes alike and makes no others.
-/
theorem EncodesAlike.perform (h : EncodesAlike left right) {calls : List (Call α)}
    {mixed : Transcript α} (hmixed : left.perform engine calls = .ok mixed) :
    ∃ sent, right.perform engine (calls.filter Call.isEncode) = .ok sent ∧
      sent.encoded = mixed.encoded ∧ EncodesAlike mixed.session sent.session := by
  refine perform_filter Transcript.encoded (fun _ => rfl) (fun _ _ => rfl) ?_ ?_ h hmixed
  · rintro left right (pcm | ⟨bytes, errorRate⟩) first halike hkept hfirst
    · obtain ⟨reply, hreply, hfirst⟩ := bind_eq_ok.mp hfirst
      obtain rfl := pure_eq_ok.mp hfirst
      obtain ⟨reply', hreply', hresult, hnext⟩ := halike.encode hreply
      exact ⟨_, bind_eq_ok.mpr ⟨reply', hreply', rfl⟩, by rw [hresult], hnext⟩
    · cases hkept
  · rintro left right (pcm | ⟨bytes, errorRate⟩) first halike hskipped hfirst
    · cases hskipped
    · obtain ⟨reply, hreply, hfirst⟩ := bind_eq_ok.mp hfirst
      obtain rfl := pure_eq_ok.mp hfirst
      exact ⟨rfl, halike.of_decode hreply⟩

/-- The decode calls of a run are answered as on a session that decodes alike and makes no others.
-/
theorem DecodesAlike.perform (h : DecodesAlike left right) {calls : List (Call α)}
    {mixed : Transcript α} (hmixed : left.perform engine calls = .ok mixed) :
    ∃ heard, right.perform engine (calls.filter Call.isDecode) = .ok heard ∧
      heard.decoded = mixed.decoded ∧ DecodesAlike mixed.session heard.session := by
  refine perform_filter Transcript.decoded (fun _ => rfl) (fun _ _ => rfl) ?_ ?_ h hmixed
  · rintro left right (pcm | ⟨bytes, errorRate⟩) first halike hkept hfirst
    · cases hkept
    · obtain ⟨reply, hreply, hfirst⟩ := bind_eq_ok.mp hfirst
      obtain rfl := pure_eq_ok.mp hfirst
      obtain ⟨reply', hreply', hresult, hnext⟩ := halike.decode hreply
      exact ⟨_, bind_eq_ok.mpr ⟨reply', hreply', rfl⟩, by rw [hresult], hnext⟩
  · rintro left right (pcm | ⟨bytes, errorRate⟩) first halike hskipped hfirst
    · obtain ⟨reply, hreply, hfirst⟩ := bind_eq_ok.mp hfirst
      obtain rfl := pure_eq_ok.mp hfirst
      exact ⟨rfl, halike.of_encode hreply⟩
    · cases hskipped

/-- Over the real numbers every call returns, whatever its input is, and leaves the session fit for
more. -/
theorem Decodes.kept_by_encode (engine : Engine ℝ) {mode : Mode} {session : Session ℝ}
    (h : session.Decodes mode) (pcm : Array Int16) :
    Yields (session.encode engine pcm) fun reply => reply.session.Decodes mode := by
  cases hcase : session.encodeRefusal? pcm with
  | some error =>
      rw [encode_eq, hcase]
      exact Yields.ok h
  | none =>
      obtain ⟨hopen, hpcm⟩ := encodeRefusal?_eq_none.mp hcase
      refine (Session.yields_encode engine h.layout hopen hpcm).with_eq.mono ?_
      rintro reply ⟨hreply, -, hlayout, hclosed⟩
      obtain ⟨done, _, rfl⟩ := exists_of_encode hopen hpcm hreply
      exact ⟨hlayout, hclosed, h.decoder⟩

theorem Decodes.kept_by_decode (engine : Engine ℝ) {mode : Mode} {session : Session ℝ}
    (h : session.Decodes mode) (bytes : List UInt8) (errorRate : ℝ) :
    Yields (session.decode engine bytes errorRate) fun reply => reply.session.Decodes mode := by
  cases hcase : session.decodeRefusal? bytes with
  | some error =>
      rw [decode_eq, hcase]
      exact Yields.ok h
  | none =>
      obtain ⟨_, hlength⟩ := decodeRefusal?_eq_none.mp hcase
      rw [bytesPerFrame, h.layout] at hlength
      exact (h.yields_decode engine errorRate hlength).mono fun _ hreply => hreply.2

theorem Decodes.yields_make (engine : Engine ℝ) {mode : Mode} {session : Session ℝ}
    (h : session.Decodes mode) (call : Call ℝ) :
    Yields (session.make engine call) fun done => done.session.Decodes mode := by
  cases call with
  | encode pcm => exact (h.kept_by_encode engine pcm).bind fun _ hreply => Yields.pure hreply
  | decode bytes errorRate =>
      exact (h.kept_by_decode engine bytes errorRate).bind fun _ hreply => Yields.pure hreply

/-- So does every run of calls. -/
theorem Decodes.yields_perform (engine : Engine ℝ) {mode : Mode} {session : Session ℝ}
    (h : session.Decodes mode) (calls : List (Call ℝ)) :
    Yields (session.perform engine calls) fun done => done.session.Decodes mode := by
  induction calls generalizing session with
  | nil => exact Yields.ok h
  | cons call rest ih =>
      refine (h.yields_make engine call).bind fun first hfirst => ?_
      exact (ih hfirst).bind fun later hlater => Yields.pure hlater

end Session

/-- Encoding and decoding on one session do not interfere: in every run of calls, each kind gets the
same answers and leaves the same state as in the run without the other kind. -/
theorem encoding_decoding_independent (mode : Mode) (engine : Engine α)
    (choices others : List (Choice α)) {session other : Session α}
    {created created' : List (Notice α)}
    (hsession : Session.create mode choices = .ok (session, created))
    (hother : Session.create mode others = .ok (other, created')) (calls : List (Call α))
    {mixed : Session.Transcript α} (hmixed : session.perform engine calls = .ok mixed) :
    (∃ sent, session.perform engine (calls.filter Call.isEncode) = .ok sent ∧
      sent.encoded = mixed.encoded ∧ sent.session.encoder = mixed.session.encoder) ∧
    (∃ heard, session.perform engine (calls.filter Call.isDecode) = .ok heard ∧
      heard.decoded = mixed.decoded ∧ heard.session.decoder = mixed.session.decoder) ∧
    ∃ sent, other.perform engine (calls.filter Call.isEncode) = .ok sent ∧
      sent.encoded = mixed.encoded ∧ sent.session.encoder = mixed.session.encoder := by
  have hself : session.EncodesAlike session := ⟨rfl, rfl, rfl⟩
  have hself' : session.DecodesAlike session := ⟨rfl, rfl, rfl, rfl⟩
  have hothers := Session.EncodesAlike.of_create hsession hother
  refine ⟨?_, ?_, ?_⟩
  · obtain ⟨sent, hsent, hencoded, hlast⟩ := hself.perform hmixed
    exact ⟨sent, hsent, hencoded, hlast.encoder.symm⟩
  · obtain ⟨heard, hheard, hdecoded, hlast⟩ := hself'.perform hmixed
    exact ⟨heard, hheard, hdecoded, hlast.decoder.symm⟩
  · obtain ⟨sent, hsent, hencoded, hlast⟩ := hothers.perform hmixed
    exact ⟨sent, hsent, hencoded, hlast.encoder.symm⟩

/-- A run that alternates, with a frame that is refused, on sessions with different choices. -/
theorem encoding_decoding_independent_alternating :
    ∃ (engine : Engine ℝ) (session other : Session ℝ) (created created' : List (Notice ℝ))
      (mixed sent heard sent' : Session.Transcript ℝ),
      Session.create .rate1200 [] = .ok (session, created) ∧
      Session.create .rate1200 [.seed 7, .withoutPostFilter] = .ok (other, created') ∧
      session.perform engine [.decode (List.replicate 6 255) 0, .encode (Array.replicate 320 9),
        .decode [1] 0, .encode (Array.replicate 320 0), .decode (List.replicate 6 0) 1] =
          .ok mixed ∧
      session.perform engine [.encode (Array.replicate 320 9), .encode (Array.replicate 320 0)] =
        .ok sent ∧ sent.encoded = mixed.encoded ∧
      sent.session.encoder = mixed.session.encoder ∧
      session.perform engine [.decode (List.replicate 6 255) 0, .decode [1] 0,
        .decode (List.replicate 6 0) 1] = .ok heard ∧ heard.decoded = mixed.decoded ∧
      heard.session.decoder = mixed.session.decoder ∧
      other.perform engine [.encode (Array.replicate 320 9), .encode (Array.replicate 320 0)] =
        .ok sent' ∧ sent'.encoded = mixed.encoded ∧
      sent'.session.encoder = mixed.session.encoder := by
  obtain ⟨session, created, hsession, hdecodes⟩ := Session.exists_create .rate1200 []
  obtain ⟨other, created', hother, -⟩ :=
    Session.exists_create .rate1200 [.seed 7, .withoutPostFilter]
  obtain ⟨mixed, hmixed, -⟩ := hdecodes.yields_perform (Engine.ofTransform Transform.dft)
    [.decode (List.replicate 6 255) 0, .encode (Array.replicate 320 9), .decode [1] 0,
      .encode (Array.replicate 320 0), .decode (List.replicate 6 0) 1]
  obtain ⟨⟨sent, hsent⟩, ⟨heard, hheard⟩, sent', hsent'⟩ :=
    encoding_decoding_independent .rate1200 _ _ _ hsession hother _ hmixed
  exact ⟨_, session, other, created, created', mixed, sent, heard, sent', hsession, hother, hmixed,
    hsent.1, hsent.2.1, hsent.2.2, hheard.1, hheard.2.1, hheard.2.2, hsent'⟩

end Vocoder
