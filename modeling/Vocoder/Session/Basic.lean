import Vocoder.Frame.Decode
import Vocoder.Frame.Encode
import Vocoder.Mode
import Vocoder.Session.Settings

/-!
Sessions. A session encodes and decodes the frames of one layout. It holds all memory between
frames: that of its encoder, that of its decoder, and counters. Each call gives a result, the
session after it and what was reported on the way. A call that is refused leaves the session as it
is.
-/

namespace Vocoder

structure Stats (α : Type) where
  /-- Frames encoded or decoded. -/
  frames : Nat
  /-- Frames whose lines were not found in the analysis. -/
  fallbacks : Nat
  /-- Decoded frames whose lines were out of order. -/
  reorders : Nat
  /-- Voiced harmonics that counted as noise. -/
  noise : Nat
  /-- The error of all coded lines in Hz squared. -/
  lineError : α

def Stats.start {α : Type} [Scalar α] : Stats α := ⟨0, 0, 0, 0, 0.0⟩

/-- An encoder and a decoder for the frames of one layout. -/
structure Session (α : Type) where
  layout : Layout
  settings : Settings α
  encoder : Encoder α
  decoder : Decoder α
  stats : Stats α
  stage : Stage
  closed : Bool

/-- What a call on a session gives. -/
structure Reply (α β : Type) where
  result : Except Error β
  session : Session α
  notices : List (Notice α)

/-- Why there is no session. -/
inductive Refusal where
  | error (error : Error)
  | fault (fault : Fault)
deriving DecidableEq, Repr

namespace Session

variable {α : Type} [Analytic α]

def start (layout : Layout) (settings : Settings α) : Except Fault (Session α) := do
  return {
    layout, settings
    encoder := Encoder.start
    decoder := ← Decoder.start layout.order settings.seed
    stats := Stats.start
    stage := .idle
    closed := false }

/-- A new session for a mode. The layout of the mode has to be consistent. -/
def create (mode : Mode) (choices : List (Choice α)) :
    Except Refusal (Session α × List (Notice α)) := do
  match mode.layout.validate with
  | .error error => throw (.error error)
  | .ok () =>
    match start mode.layout (Settings.ofChoices choices) with
    | .error fault => throw (.fault fault)
    | .ok session => return (session, [.created])

def samplesPerFrame (session : Session α) : Int := session.layout.subframes * subframeSize

def bitsPerFrame (session : Session α) : Int := session.layout.totalBits

def bytesPerFrame (session : Session α) : Int := session.layout.totalBytes

/-- The stage that the last report leaves a session in. -/
def stageAfter (stage : Stage) (notices : List (Notice α)) : Stage :=
  match (Notice.events notices).getLast? with
  | some event => event.stage
  | none => stage

def refuse {β : Type} (session : Session α) (error : Error) : Reply α β :=
  ⟨.error error, session, []⟩

def encode (engine : Engine α) (session : Session α) (pcm : Array Int16) :
    Except Fault (Reply α (List UInt8)) := do
  if session.closed then return session.refuse .closed
  if (pcm.size : Int) ≠ session.samplesPerFrame then
    return session.refuse (.frameLength pcm.size session.samplesPerFrame.toNat)
  let done ← Frame.encode engine session.layout session.stats.frames session.encoder pcm
  return {
    result := .ok done.bytes
    session := { session with
      encoder := done.encoder
      stats := { session.stats with
        frames := session.stats.frames + 1
        fallbacks := session.stats.fallbacks + done.fallbacks
        lineError := session.stats.lineError + done.lineError }
      stage := stageAfter session.stage done.notices }
    notices := done.notices }

/-- Decodes a frame, given an estimate of the bit error rate of the channel. -/
def decode (engine : Engine α) (session : Session α) (bytes : List UInt8) (errorRate : α) :
    Except Fault (Reply α (List Int16)) := do
  if session.closed then return session.refuse .closed
  if (bytes.length : Int) ≠ session.bytesPerFrame then
    return session.refuse (.bitsLength bytes.length session.bytesPerFrame.toNat)
  let done ← Frame.decode engine session.layout session.settings.postFilter session.decoder bytes
    errorRate
  return {
    result := .ok done.samples
    session := { session with
      decoder := done.decoder
      stats := { session.stats with
        frames := session.stats.frames + 1
        reorders := session.stats.reorders + done.reordered.toNat
        noise := session.stats.noise + done.noisy }
      stage := stageAfter session.stage done.notices }
    notices := done.notices }

def close (session : Session α) : Reply α Unit :=
  if session.closed then session.refuse .closed
  else ⟨.ok (), { session with closed := true }, []⟩

/-- The lines of the last decoded subframe, which a closed session holds no more. -/
def heldLines (session : Session α) : Array α :=
  if session.closed then #[] else session.decoder.lastLines

/-- Takes in a block of speech and models it, apart from any frame. A closed session has no buffer
left to take it in. -/
def analyse (engine : Engine α) (session : Session α) (block : Array α) :
    Except Fault (Reply α (Model α)) := do
  if session.closed then throw .outOfRange
  let (model, encoder) ← session.encoder.analyseBlock engine block Model.blank
  return ⟨.ok model, { session with encoder }, []⟩

/-- The energy and the lines of the speech taken in so far. A closed session has none, which is
silence. -/
def spectrum (engine : Engine α) (session : Session α) :
    Except Fault (Reply α (Prediction.Spectrum α)) := do
  let speech := if session.closed then #[] else session.encoder.speech.toArray
  let found ← Prediction.spectrum speech engine.window.toArray session.layout.order
  let notices : List (Notice α) :=
    if found.found then [] else [.fallback session.stats.frames found.energy]
  let stats := { session.stats with fallbacks := session.stats.fallbacks + notices.length }
  return ⟨.ok found, { session with stats }, notices⟩

end Session

end Vocoder
