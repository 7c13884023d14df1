import Vocoder.Model

/-!
Stages of a session, and its reports of them. Encoding goes through analysis, once for each
subframe, and quantisation to a packed frame; decoding from an unpacked frame through dequantisation
and interpolation to synthesis, once for each subframe. Between frames a session is idle. It also
reports the rare cases in which a stage had to make do with a stand-in.
-/

namespace Vocoder

/-- Where a session stands in a frame. -/
inductive Stage where
  | idle
  | analysing
  | quantising
  | packed
  | unpacked
  | dequantising
  | interpolating
  | synthesising
deriving DecidableEq, Repr

namespace Stage

/-- The stages in the order of their codes. -/
def all : List Stage :=
  [.idle, .analysing, .quantising, .packed, .unpacked, .dequantising, .interpolating,
    .synthesising]

def name : Stage → String
  | .idle => "idle"
  | .analysing => "analysing"
  | .quantising => "quantising"
  | .packed => "packed"
  | .unpacked => "unpacked"
  | .dequantising => "dequantising"
  | .interpolating => "interpolating"
  | .synthesising => "synthesising"

/-- How a code is shown, whether it stands for a stage or not. -/
def label (code : Int) : String :=
  if 0 ≤ code then
    match all[code.toNat]? with
    | some stage => stage.name
    | none => "unknown"
  else "unknown"

end Stage

/-- A session entered a stage. -/
structure Event (α : Type) where
  stage : Stage
  /-- The subframe of the stage, or `-1` for a stage of the whole frame. -/
  subframe : Int
  /-- The model of the subframe, blank for a stage of the whole frame. -/
  model : Model α
  /-- The energy, once it is known. -/
  energy : α

/-- A stage of the whole frame. -/
def Event.ofFrame {α : Type} [Scalar α] (stage : Stage) : Event α := ⟨stage, -1, Model.blank, 0.0⟩

/-- A report of a session. -/
inductive Notice (α : Type) where
  /-- The session was made. -/
  | created
  /-- A stage was entered. -/
  | entered (event : Event α)
  /-- The lines of a frame were not found, and evenly spaced lines stand in. -/
  | fallback (frame : Nat) (energy : α)

/-- The stages that a list of reports tells of. -/
def Notice.events {α : Type} (notices : List (Notice α)) : List (Event α) :=
  notices.filterMap fun
    | .entered event => some event
    | _ => none

end Vocoder
