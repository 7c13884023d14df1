import Vocoder.Log
import Vocoder.Synthesis.Envelope

/-!
Settings of a session, as a list of choices. A later choice overrides an earlier one.
-/

namespace Vocoder

/-- Where the stages that a session enters are reported. -/
inductive Sink where
  /-- Nowhere. -/
  | none
  /-- In the log. -/
  | log
  /-- To a collector, with the amplitudes of the models if it wants them. -/
  | collector (amplitudes : Bool)
deriving DecidableEq, Repr

structure Settings (α : Type) where
  postFilter : PostFilter α
  /-- Where the generator of random phases starts. -/
  seed : UInt64
  /-- Whether the session's own reports go to the log. -/
  logged : Bool
  sink : Sink

inductive Choice (α : Type) where
  | seed (value : UInt64)
  | postFilter (beta gamma : α) (bass : Bool)
  | withoutPostFilter
  /-- A log for the session's own reports. The choice of no log leaves what was chosen before. -/
  | logger (present : Bool)
  | sink (sink : Sink)

namespace Settings

variable {α : Type} [Scalar α]

def default : Settings α where
  postFilter := { enabled := true, bass := true, beta := 0.2, gamma := 0.5 }
  seed := 1
  logged := false
  sink := .none

def choose (settings : Settings α) : Choice α → Settings α
  | .seed value => { settings with seed := value }
  | .postFilter beta gamma bass =>
    { settings with postFilter := { enabled := true, bass, beta, gamma } }
  | .withoutPostFilter =>
    { settings with postFilter := { settings.postFilter with enabled := false, bass := false } }
  | .logger present => { settings with logged := settings.logged || present }
  | .sink sink => { settings with sink }

def ofChoices (choices : List (Choice α)) : Settings α := choices.foldl choose default

end Settings

end Vocoder
