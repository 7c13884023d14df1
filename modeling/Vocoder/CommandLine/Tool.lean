import Vocoder.CommandLine.Command
import Vocoder.CommandLine.Script
import Vocoder.Header
import Vocoder.Session.Report
import Vocoder.Stream
import Vocoder.Text.Numeral

/-!
The two tools. The encoder reads samples and writes a coded file, with a header if the name of the
file asks for one. The decoder reads a coded file, with or without a header, and writes samples.
-/

namespace Vocoder.CommandLine

variable {α : Type} [Analytic α]

/-- The extension of a name: what its last component has from its last point on. -/
def extension (name : String) : List Char :=
  let last := name.toList.reverse.takeWhile (· ≠ '/')
  if last.contains '.' then (last.takeWhile (· ≠ '.')).reverse.cons '.' else []

/-- Whether a coded file of this name starts with a header. -/
def wantsHeader (name : String) : Bool := (extension name).map Char.toLower = ['.', 'c', '2']

namespace Options

def logLevel (options : Options α) : Log.Level :=
  if options.verbose || options.trace then .debug else .info

def choices (options : Options α) : List (Choice α) :=
  .logger true :: if options.trace then [.sink .log] else []

/-- Logs an entry, if the log shows it. -/
def log (options : Options α) (entry : Log.Entry α) (next : Script α) : Script α :=
  .log ([entry].filter (Log.Entry.shown options.logLevel)) next

/-- Logs what a session reported. -/
def report (options : Options α) (session : Session α) (notices : List (Notice α))
    (next : Script α) : Script α :=
  .log (session.entries options.logLevel notices) next

end Options

/-- Makes the session of a tool, and goes on with it. -/
def withSession (options : Options α) (mode : Mode) (next : Session α → Script α) : Script α :=
  match Session.create mode options.choices with
  | .error (.error error) => .fail ("Error creating codec: " ++ error.message)
  | .error (.fault _) => .exit 2
  | .ok (session, notices) => options.report session notices (next session)

/-- Logs what was reported on a stream, and goes on unless a frame was refused. -/
def finishStream {β : Type} (options : Options α) (verb : String) (passed : Stream.Passed α β)
    (next : Script α) : Script α :=
  options.report passed.session passed.notices <|
    match passed.refused with
    | some (index, error) =>
      .fail ("Error " ++ verb ++ " frame " ++ toString index ++ ": " ++ error.message)
    | none => next

/-- Encodes the bytes of a file of samples to an output that is ready. -/
def encodeBytes (engine : Engine α) (command : Command α) (mode : Mode) (session : Session α)
    (bytes : List UInt8) : Script α :=
  let frames := Stream.framesOfSamples session bytes
  match Stream.encode engine session frames with
  | .error _ => .exit 2
  | .ok passed =>
    let header := if wantsHeader command.output then (Header.ofMode mode).bytes else []
    finishStream command.options "encoding" passed <|
      .write (.ofArgument command.output) (header ++ passed.out) <|
        command.options.log
          ⟨.debug, "encode complete", [("mode", .text mode.name), ("frames", .int frames.length),
            ("lsp_fallbacks", .int passed.session.stats.fallbacks)]⟩
          (.exit 0)

/-- Encodes a file of samples. The output is made before the input is read. -/
def encodeScript (engine : Engine α) (command : Command α) : Script α :=
  match Mode.parse command.options.modeName with
  | .error error => .fail ("Error parsing mode: " ++ error.message)
  | .ok mode =>
    withSession command.options mode fun session =>
      .openInput (.ofArgument command.input) fun
        | some error =>
          .fail ("Error opening input speech file: " ++ command.input ++ ": " ++ error.message)
        | none =>
          .create (.ofArgument command.output) fun
            | some error =>
              .fail ("Error opening output compressed bit file: " ++ command.output ++ ": " ++
                error.message)
            | none =>
              .read (.ofArgument command.input) fun
                | .error error => .fail ("Error reading input: " ++ error.message)
                | .ok bytes => encodeBytes engine command mode session bytes

/-- Decodes frames, and writes the samples. The output is made after all frames are decoded. -/
def decodeBytes (engine : Engine α) (command : Command α) (mode : Mode) (bytes : List UInt8) :
    Script α :=
  withSession command.options mode fun session =>
    let frames := Stream.framesOfBytes session bytes
    match Stream.decode engine session command.options.errorRate frames with
    | .error _ => .exit 2
    | .ok passed =>
      finishStream command.options "decoding" passed <|
        .create (.ofArgument command.output) fun
          | some error => .fail ("Error creating output file: " ++ error.message)
          | none =>
            .write (.ofArgument command.output) (Pcm.toBytes passed.out) <|
              command.options.log
                ⟨.debug, "decode complete",
                  [("mode", .text mode.name), ("frames", .int frames.length)]⟩
                (.exit 0)

/-- The bytes of data in hexadecimal capitals. -/
def hexCapitals (bytes : List UInt8) : String :=
  String.ofList ((bytes.flatMap fun byte => Text.hexDigits 2 byte.toNat).map Char.toUpper)

/-- Decodes a coded file. The mode that a header names wins over the one that a flag names, which
has to be a mode all the same. -/
def decodeScript (engine : Engine α) (command : Command α) : Script α :=
  .read (.ofArgument command.input) fun
    | .error error => .fail ("Error reading input: " ++ error.message)
    | .ok bytes =>
      match Mode.parse command.options.modeName with
      | .error error => .fail ("Error parsing mode: " ++ error.message)
      | .ok mode =>
        match Header.read? bytes with
        | none => decodeBytes engine command mode bytes
        | some header =>
          match header.namedMode with
          | .error error =>
            .fail ("Error: header " ++ hexCapitals (bytes.take Header.size) ++ ": " ++
              error.message)
          | .ok named => decodeBytes engine command named (bytes.drop Header.size)

/-- What a tool does with its arguments, given how a number is read. -/
def Tool.script (engine : Engine α) (readNumber : String → Option α) (tool : Tool)
    (arguments : List String) : Script α :=
  match Command.parse tool readNumber arguments with
  | none => .usage
  | some command =>
    match tool with
    | .encoder => encodeScript engine command
    | .decoder => decodeScript engine command

/-- What a tool does on binary floating point. -/
def Tool.binary64 (tool : Tool) (arguments : List String) : Script Float :=
  tool.script Engine.binary64 (fun text => (Text.Numeral.parse? text).bind Text.Numeral.toFloat?)
    arguments

end Vocoder.CommandLine
