import Vocoder.Session.Basic

/-!
Streams of frames. A stream is cut into pieces of one size, and what remains at its end is dropped.
Samples are two bytes each, the lower one first. Every frame of a stream goes through one session,
in order.
-/

namespace Vocoder

namespace Pcm

/-- The sample of two bytes, the lower one first. -/
def sample (low high : UInt8) : Int16 := Int16.ofNat (low.toNat + 256 * high.toNat)

/-- The samples of bytes. A single byte at the end is no sample. -/
def ofBytes : List UInt8 → List Int16
  | low :: high :: rest => sample low high :: ofBytes rest
  | _ => []

/-- The two bytes of a sample, the lower one first. -/
def sampleBytes (x : Int16) : List UInt8 :=
  let word := x.toUInt16.toNat
  [UInt8.ofNat (word % 256), UInt8.ofNat (word / 256)]

def toBytes (samples : List Int16) : List UInt8 := samples.flatMap sampleBytes

end Pcm

/-- The pieces of a stream that are complete. -/
def pieces {β : Type} (size : Nat) (stream : List β) : List (List β) :=
  let piece := stream.take size
  if _h : 0 < size ∧ piece.length = size then piece :: pieces size (stream.drop size) else []
termination_by stream.length
decreasing_by grind

namespace Stream

variable {α : Type} [Analytic α]

/-- A stream on its way: what came out so far, and the session after it. -/
structure Passed (α β : Type) where
  out : List β
  session : Session α
  notices : List (Notice α)
  /-- The first frame that was refused, counted from one. -/
  refused : Option (Nat × Error)

/-- Passes a stream through calls on a session, up to the first one that is refused. -/
def pass {β γ : Type} (call : Session α → β → Except Fault (Reply α (List γ))) :
    List β → Nat → Session α → Except Fault (Passed α γ)
  | [], _, session => .ok ⟨[], session, [], none⟩
  | frame :: frames, index, session => do
    let reply ← call session frame
    match reply.result with
    | .error error => return ⟨[], reply.session, reply.notices, some (index, error)⟩
    | .ok out =>
      let rest ← pass call frames (index + 1) reply.session
      return { rest with out := out ++ rest.out, notices := reply.notices ++ rest.notices }

def encode (engine : Engine α) (session : Session α) (frames : List (List Int16)) :
    Except Fault (Passed α UInt8) :=
  pass (fun session frame => session.encode engine frame.toArray) frames 1 session

/-- Decodes frames, given an estimate of the bit error rate of the channel. -/
def decode (engine : Engine α) (session : Session α) (errorRate : α) (frames : List (List UInt8)) :
    Except Fault (Passed α Int16) :=
  pass (fun session frame => session.decode engine frame errorRate) frames 1 session

def framesOfSamples (session : Session α) (bytes : List UInt8) : List (List Int16) :=
  (pieces (2 * session.samplesPerFrame.toNat) bytes).map Pcm.ofBytes

/-- The frames of a coded file, after its header. -/
def framesOfBytes (session : Session α) (bytes : List UInt8) : List (List UInt8) :=
  pieces session.bytesPerFrame.toNat bytes

end Stream

end Vocoder
