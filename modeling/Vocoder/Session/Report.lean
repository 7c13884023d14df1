import Vocoder.Session.Basic

/-!
How the reports of a session are shown: as log entries, or as events for a collector.
-/

namespace Vocoder.Session

variable {α : Type} [Analytic α]

/-- The log entry of a stage. A stage of the whole frame shows no model, and an energy that is zero
is not shown. -/
def stageEntry (name : String) (event : Event α) : Log.Entry α where
  level := .debug
  message := "codec2 state"
  fields :=
    [("mode", .text name), ("state", .text event.stage.name)] ++
    (if 0 ≤ event.subframe then
      [("subframe", .int event.subframe), ("wo", .real event.model.wo),
        ("L", .int event.model.count), ("voiced", .flag event.model.voiced)]
    else []) ++
    (if Scalar.IsZero event.energy then [] else [("energy", .real event.energy)])

/-- The log entry of a report, if the settings ask for one. -/
def entry? (session : Session α) : Notice α → Option (Log.Entry α)
  | .created =>
    if session.settings.logged then
      some ⟨.debug, "codec2 session created",
        [("mode", .text session.layout.name), ("bits", .int session.bitsPerFrame),
          ("samples", .int session.samplesPerFrame), ("lsp", .text session.layout.lines.name)]⟩
    else none
  | .fallback frame energy =>
    if session.settings.logged then
      some ⟨.debug, "LSP root search failed, using fallback",
        [("mode", .text session.layout.name), ("frame", .int frame), ("energy", .real energy)]⟩
    else none
  | .entered event =>
    if session.settings.sink = .log then some (stageEntry session.layout.name event) else none

/-- The log entries of reports, as a log of a given level shows them. -/
def entries (session : Session α) (threshold : Log.Level) (notices : List (Notice α)) :
    List (Log.Entry α) :=
  (notices.filterMap session.entry?).filter (Log.Entry.shown threshold)

/-- The events that a collector receives. -/
def collected (session : Session α) (notices : List (Notice α)) : List (Event α) :=
  match session.settings.sink with
  | .collector _ => Notice.events notices
  | _ => []

end Vocoder.Session
