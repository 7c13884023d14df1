import Vocoder.CommandLine.Tool
import Vocoder.Proofs.FolderFiles
import Vocoder.Proofs.StreamCodec
import Vocoder.Proofs.StreamPieces

/-!
The two tools, one after the other. The encoder leaves a file with a header and the codes that a
session gives for the frames of its input; the decoder takes the mode from the header, whatever mode
it is told, and leaves the samples that a session gives for the codes.
-/

namespace Vocoder

/-! ### Headers -/

theorem Header.read?_bytes (mode : Mode) (rest : List UInt8) :
    read? ((ofMode mode).bytes ++ rest) = some (ofMode mode) := by
  cases mode <;> rfl

theorem Header.namedMode_ofMode (mode : Mode) : (ofMode mode).namedMode = .ok mode := by
  cases mode <;> decide

namespace CommandLine

variable {α : Type}

/-! ### Scripts that end well -/

/-- A script ends without a failure and leaves an output and a folder, whatever it logs. -/
def Script.Leaves (script : Script α) (world : World) (output : List UInt8) (folder : Folder) :
    Prop :=
  ∃ log, script.run world = ⟨0, output, folder, false, log⟩

/-- Where a tool that makes a file at a path finds its input under a name: on the standard input, or
in another file. -/
inductive World.Feeds (world : World) (path name : String) : List UInt8 → Prop
  | standard (settled : world.settle .input (.ofArgument name) = .standard) :
      World.Feeds world path name world.input
  | file {source : String} {bytes : List UInt8} (named : name ≠ "-")
      (leads : world.folder.resolve false name = .ok (.file source)) (apart : source ≠ path)
      (content : world.folder.get? source = some bytes) : World.Feeds world path name bytes

/-- What a tool leaves that writes bytes under a name: an output on the standard stream, or a file.
-/
inductive World.Delivers (world : World) (name : String) (bytes : List UInt8) :
    List UInt8 → Folder → Prop
  | standard (settled : world.settle .output (.ofArgument name) = .standard) :
      World.Delivers world name bytes bytes world.folder
  | file {path : String} (takes : world.folder.Takes name path) :
      World.Delivers world name bytes [] (world.folder.put path bytes)

theorem World.settle_eq_standard {world : World} {stream : Folder.Target} {name : String} :
    world.settle stream (.ofArgument name) = .standard ↔
      name = "-" ∨ world.folder.resolve false name = .ok stream := by
  by_cases hname : name = "-"
  · simp [Place.ofArgument, settle, hname]
  · rw [Place.ofArgument, if_neg hname, settle]
    cases hresolve : world.folder.resolve false name with
    | error cause => simp [hname]
    | ok target =>
        by_cases htarget : target = stream
        · simp [htarget]
        · simp [htarget, hname]

theorem World.settle_of_ne {world : World} {stream target : Folder.Target} {name : String}
    (hname : name ≠ "-") (h : world.folder.resolve false name = .ok target)
    (hne : target ≠ stream) :
    world.settle stream (.ofArgument name) = .file name := by
  rw [Place.ofArgument, if_neg hname, settle, h]
  exact if_neg hne

theorem Folder.Takes.settle {folder : Folder} {name path : String} (h : folder.Takes name path)
    (input : List UInt8) {stream : Folder.Target} (hstream : stream = .input ∨ stream = .output) :
    World.settle ⟨folder, input⟩ stream (.ofArgument name) = .file name := by
  rcases h.leads with hfile | hvacant
  · refine World.settle_of_ne h.named (Folder.resolve_to_read hfile) ?_
    rcases hstream with rfl | rfl <;> nofun
  · refine World.settle_of_ne h.named (Folder.resolve_to_read hvacant) ?_
    rcases hstream with rfl | rfl <;> nofun

namespace Script.Leaves

variable {world : World} {folder left : Folder} {name path : String} {output input : List UInt8}

theorem exit (world : World) : (Script.exit 0 : Script α).Leaves world [] world.folder :=
  ⟨[], rfl⟩

theorem log {next : Script α} (h : next.Leaves world output left) (entries : List (Log.Entry α)) :
    (Script.log entries next).Leaves world output left := by
  obtain ⟨log, hlog⟩ := h
  refine ⟨entries ++ log, ?_⟩
  rw [run, hlog]

theorem create {next : Option FileError → Script α} (htakes : folder.Takes name path)
    (h : (next none).Leaves ⟨folder.put path [], input⟩ output left) :
    (Script.create (.ofArgument name) next).Leaves ⟨folder, input⟩ output left := by
  obtain ⟨log, hlog⟩ := h
  refine ⟨log, ?_⟩
  rw [run, htakes.settle input (.inr rfl)]
  dsimp only
  rw [htakes.create_eq]
  exact hlog

theorem write {next : Script α} (htakes : folder.Takes name path) {content bytes : List UInt8}
    (h : next.Leaves ⟨folder.put path (content ++ bytes), input⟩ output left) :
    (Script.write (.ofArgument name) bytes next).Leaves ⟨folder.put path content, input⟩ output
      left := by
  obtain ⟨log, hlog⟩ := h
  refine ⟨log, ?_⟩
  rw [run, (htakes.put content).settle input (.inr rfl)]
  dsimp only
  rw [htakes.append_eq]
  exact hlog

theorem read {next : Except FileError (List UInt8) → Script α} (htakes : folder.Takes name path)
    {content : List UInt8}
    (h : (next (.ok content)).Leaves ⟨folder.put path content, input⟩ output left) :
    (Script.read (.ofArgument name) next).Leaves ⟨folder.put path content, input⟩ output left := by
  obtain ⟨log, hlog⟩ := h
  refine ⟨log, ?_⟩
  rw [run, (htakes.put content).settle input (.inl rfl)]
  dsimp only
  rw [htakes.read_eq]
  exact hlog

/-- What is written to an output that is made first. -/
theorem deliver {bytes : List UInt8} {failed : FileError → Script α} {next : Script α}
    (hdelivers : world.Delivers name bytes output left)
    (h : ∀ world : World, next.Leaves world [] world.folder) :
    (Script.create (.ofArgument name) fun
      | some error => failed error
      | none => .write (.ofArgument name) bytes next).Leaves world output left := by
  cases hdelivers with
  | standard settled =>
      obtain ⟨log, hlog⟩ := h world
      refine ⟨log, ?_⟩
      rw [run, settled]
      dsimp only
      rw [run, settled]
      dsimp only
      rw [hlog, List.append_nil]
  | file takes => exact create takes (write takes (h _))

/-- The input of a tool can be opened, -/
theorem openInput {next : Option FileError → Script α} {bytes : List UInt8}
    (hfeeds : world.Feeds path name bytes) (h : (next none).Leaves world output left) :
    (Script.openInput (.ofArgument name) next).Leaves world output left := by
  obtain ⟨log, hlog⟩ := h
  refine ⟨log, ?_⟩
  cases hfeeds with
  | standard settled =>
      rw [run, settled]
      exact hlog
  | file named leads apart content =>
      rw [run, World.settle_of_ne named leads (by nofun)]
      dsimp only
      rw [Folder.openFailure?, leads]
      exact hlog

/-- and be read after the file that the tool makes is there. -/
theorem readInput {next : Except FileError (List UInt8) → Script α} {output' : String}
    {bytes content : List UInt8} (htakes : world.folder.Takes output' path)
    (hfeeds : world.Feeds path name bytes)
    (h : ∀ input, (next (.ok bytes)).Leaves ⟨world.folder.put path content, input⟩ output left) :
    (Script.read (.ofArgument name) next).Leaves ⟨world.folder.put path content, world.input⟩ output
      left := by
  cases hfeeds with
  | standard settled =>
      obtain ⟨log, hlog⟩ := h []
      have hsettled : World.settle ⟨world.folder.put path content, world.input⟩ .input
          (.ofArgument name) = .standard := by
        rw [World.settle_eq_standard] at settled ⊢
        exact settled.imp_right fun hleads => htakes.resolve_put content hleads (by simp)
      exact ⟨log, by rw [run, hsettled]; exact hlog⟩
  | file named leads apart hcontent =>
      obtain ⟨log, hlog⟩ := h world.input
      refine ⟨log, ?_⟩
      have hleads := htakes.resolve_put content leads (by simp)
      rw [run, World.settle_of_ne named hleads (by nofun)]
      dsimp only
      rw [Folder.read, hleads]
      dsimp only [Folder.Target.filled]
      rw [Folder.get?_put_of_ne apart, hcontent]
      exact hlog

end Script.Leaves

/-! ### The sessions of the tools -/

variable [Analytic α]

theorem Options.choices_settings (options : Options α) :
    (Settings.ofChoices options.choices).seed = (Settings.ofChoices ([] : List (Choice α))).seed ∧
      (Settings.ofChoices options.choices).postFilter =
        (Settings.ofChoices ([] : List (Choice α))).postFilter := by
  unfold choices
  split_ifs <;> exact ⟨rfl, rfl⟩

/-- The session of a tool encodes and decodes as one without any choices. -/
theorem Options.exists_session (options : Options α) {mode : Mode} {fresh : Session α}
    {notices : List (Notice α)} (h : Session.create mode [] = .ok (fresh, notices)) :
    ∃ session notices', Session.create mode options.choices = .ok (session, notices') ∧
      fresh.EncodesAlike session ∧ fresh.DecodesAlike session := by
  obtain ⟨hseed, hpostFilter⟩ := options.choices_settings
  obtain ⟨decoder, hdecoder, rfl⟩ := Session.exists_of_create h
  have hvalid : mode.layout.validate = .ok () := by cases mode <;> decide
  have hstart : Session.start mode.layout (Settings.ofChoices options.choices) =
      .ok ⟨mode.layout, Settings.ofChoices options.choices, Encoder.start, decoder, Stats.start,
        .idle, false⟩ :=
    bind_eq_ok.mpr ⟨decoder, by rw [hseed]; exact hdecoder, rfl⟩
  have hcreate : Session.create mode options.choices =
      .ok (⟨mode.layout, Settings.ofChoices options.choices, Encoder.start, decoder, Stats.start,
        .idle, false⟩, [.created]) := by
    rw [Session.create, hvalid]
    simp only [hstart]
    rfl
  exact ⟨_, _, hcreate, ⟨rfl, rfl, rfl⟩, ⟨rfl, rfl, hpostFilter.symm, rfl⟩⟩

variable {world : World} {left : Folder} {output : List UInt8}

theorem leaves_withSession {options : Options α} {mode : Mode} {session : Session α}
    {notices : List (Notice α)} {next : Session α → Script α}
    (hcreate : Session.create mode options.choices = .ok (session, notices))
    (h : (next session).Leaves world output left) :
    (withSession options mode next).Leaves world output left := by
  rw [withSession, hcreate]
  exact h.log _

theorem leaves_finishStream {β : Type} {options : Options α} {verb : String}
    {passed : Stream.Passed α β} {next : Script α} (hpassed : passed.refused = none)
    (h : next.Leaves world output left) :
    (finishStream options verb passed next).Leaves world output left := by
  rw [finishStream, hpassed]
  exact h.log _

/-! ### The encoder -/

theorem wantsHeader_of_extension {name stem : String}
    (h : name = stem ++ ".c2" ∨ name = stem ++ ".C2") : wantsHeader name = true := by
  rcases h with rfl | rfl <;> simp [wantsHeader, extension]

variable {folder : Folder} {path : String} {input : List UInt8}

theorem leaves_encodeBytes {engine : Engine α} {command : Command α} {mode : Mode}
    {fresh session : Session α} {bytes : List UInt8} {frames : List (Array Int16)}
    {sent : List (Reply α (List UInt8))} {codes : List (List UInt8)}
    (hheader : wantsHeader command.output = true)
    (htakes : folder.Takes command.output path) (hsame : fresh.EncodesAlike session)
    (hlayout : fresh.layout = mode.layout) (hframes : Pcm.Frames mode.frameSamples bytes frames)
    (hsent : fresh.encodeAll engine frames = .ok sent)
    (hcodes : sent.map Reply.result = codes.map .ok) :
    (encodeBytes engine command mode session bytes).Leaves ⟨folder.put path [], input⟩ []
      (folder.put path ((Header.ofMode mode).bytes ++ codes.flatten)) := by
  have hread : (Stream.framesOfSamples session bytes).map List.toArray = frames := by
    have hsize : session.samplesPerFrame.toNat = mode.frameSamples := by
      rw [Session.samplesPerFrame, ← hsame.layout, hlayout, Mode.frameSamples]
    rw [Stream.framesOfSamples, hsize, List.map_map, hframes.eq_map]
    rfl
  rw [← hread] at hsent
  obtain ⟨passed, hpassed, hout, hrefused⟩ := Stream.yields_encode hsame hsent hcodes
  unfold encodeBytes
  dsimp only
  rw [hpassed]
  dsimp only
  rw [hheader, if_pos rfl, hout]
  apply leaves_finishStream hrefused
  apply Script.Leaves.write htakes
  exact (Script.Leaves.exit _).log _

/-- The encoder makes its file out of the codes of a fresh session. -/
theorem leaves_encodeScript {engine : Engine α} {command : Command α} {mode : Mode}
    {bytes : List UInt8} {frames : List (Array Int16)} {codes : List (List UInt8)}
    (hmode : Mode.parse command.options.modeName = .ok mode)
    (hheader : wantsHeader command.output = true)
    (htakes : world.folder.Takes command.output path)
    (hfeeds : world.Feeds path command.input bytes)
    (hframes : Pcm.Frames mode.frameSamples bytes frames)
    (hcodes : mode.EncodesTo engine frames codes) :
    (encodeScript engine command).Leaves world []
      (world.folder.put path ((Header.ofMode mode).bytes ++ codes.flatten)) := by
  obtain ⟨fresh, notices, sent, hfresh, hsent, hanswers⟩ := hcodes
  obtain ⟨session, notices', hcreate, hsame, _⟩ := command.options.exists_session hfresh
  obtain ⟨_, _, rfl⟩ := Session.exists_of_create hfresh
  delta encodeScript
  rw [hmode]
  apply leaves_withSession hcreate
  apply Script.Leaves.openInput hfeeds
  apply Script.Leaves.create htakes
  apply Script.Leaves.readInput htakes hfeeds
  intro input
  exact leaves_encodeBytes hheader htakes hsame rfl hframes hsent hanswers

/-! ### The decoder -/

/-- The decoder writes the samples of a fresh session for the frames that fit into its bytes. -/
theorem leaves_decodeBytes {engine : Engine α} {command : Command α} {mode : Mode}
    {bytes : List UInt8} {blocks : List (List Int16)}
    (hblocks : mode.DecodesTo engine command.options.errorRate (pieces mode.frameBytes bytes)
      blocks)
    (hdelivers : world.Delivers command.output (Pcm.toBytes blocks.flatten) output left) :
    (decodeBytes engine command mode bytes).Leaves world output left := by
  obtain ⟨fresh, notices, heard, hfresh, hheard, hanswers⟩ := hblocks
  obtain ⟨session, notices', hcreate, _, hsame⟩ := command.options.exists_session hfresh
  obtain ⟨_, _, rfl⟩ := Session.exists_of_create hfresh
  have hframes : Stream.framesOfBytes session bytes = pieces mode.frameBytes bytes := by
    rw [Stream.framesOfBytes, Session.bytesPerFrame, ← hsame.layout, Mode.frameBytes]
  obtain ⟨passed, hpassed, hout, hrefused⟩ := Stream.yields_decode hsame hheard hanswers
  apply leaves_withSession hcreate
  rw [hframes]
  dsimp only
  rw [hpassed]
  apply leaves_finishStream hrefused
  rw [hout]
  apply Script.Leaves.deliver hdelivers
  intro world
  exact (Script.Leaves.exit world).log _

/-- The decoder goes by the header of a file, whatever mode it is told. -/
theorem leaves_decodeScript {engine : Engine α} {command : Command α} {mode told : Mode}
    {codes : List (List UInt8)} {blocks : List (List Int16)}
    (htold : Mode.parse command.options.modeName = .ok told)
    (htakes : folder.Takes command.input path)
    (hcodes : ∀ code ∈ codes, code.length = mode.frameBytes)
    (hblocks : mode.DecodesTo engine command.options.errorRate codes blocks)
    (hdelivers : World.Delivers
      ⟨folder.put path ((Header.ofMode mode).bytes ++ codes.flatten), input⟩ command.output
      (Pcm.toBytes blocks.flatten) output left) :
    (decodeScript engine command).Leaves
      ⟨folder.put path ((Header.ofMode mode).bytes ++ codes.flatten), input⟩ output left := by
  apply Script.Leaves.read htakes
  dsimp only
  rw [htold]
  dsimp only
  rw [Header.read?_bytes]
  dsimp only
  rw [Header.namedMode_ofMode]
  rw [← (cutInto_flatten mode.frameBytes_pos hcodes).pieces_eq] at hblocks
  exact leaves_decodeBytes hblocks hdelivers

/-! ### One after the other -/

/-- The tools compose to the codec of a session: the encoder leaves a header and the codes of the
complete frames of its input, and the decoder, whatever mode it is told, the bytes of the samples of
these codes. -/
theorem tools_compose_to_codec (engine : Engine α) (readNumber : String → Option α) {world : World}
    {arguments : List String} {command : Command α} {mode : Mode} {stem path : String}
    {bytes : List UInt8}
    (hcommand : Command.parse .encoder readNumber arguments = some command)
    (hmode : Mode.parse command.options.modeName = .ok mode)
    (hname : command.output = stem ++ ".c2" ∨ command.output = stem ++ ".C2")
    (htakes : world.folder.Takes command.output path)
    (hfeeds : world.Feeds path command.input bytes) :
    (∀ frames codes, Pcm.Frames mode.frameSamples bytes frames →
      mode.EncodesTo engine frames codes →
      codes.length = bytes.length / (2 * mode.frameSamples) ∧
      (∀ code ∈ codes, code.length = mode.frameBytes) ∧
      (Header.ofMode mode).bytes.length = 7 ∧
      ∃ coded, (Tool.encoder.script engine readNumber arguments).Leaves world [] coded ∧
        coded = world.folder.put path ((Header.ofMode mode).bytes ++ codes.flatten) ∧
        coded.read command.output = .ok ((Header.ofMode mode).bytes ++ codes.flatten) ∧
        ∀ (arguments' : List String) (command' : Command α) (told : Mode) (input : List UInt8),
          Command.parse .decoder readNumber arguments' = some command' →
          command'.input = command.output →
          Mode.parse command'.options.modeName = .ok told →
          ∀ blocks, mode.DecodesTo engine command'.options.errorRate codes blocks →
            blocks.length = codes.length ∧
            ∃ pcm, Pcm.Holds pcm blocks.flatten ∧
              pcm.length = 2 * mode.frameSamples * codes.length ∧
              ∀ output left,
                World.Delivers ⟨coded, input⟩ command'.output pcm output left →
                (Tool.decoder.script engine readNumber arguments').Leaves ⟨coded, input⟩ output
                  left) ∧
    ∀ (engine : Engine ℝ) (errorRate : ℝ), ∃ frames codes blocks,
      Pcm.Frames mode.frameSamples bytes frames ∧ mode.EncodesTo engine frames codes ∧
      mode.DecodesTo engine errorRate codes blocks := by
  constructor
  · intro frames codes hframes hcodes
    obtain ⟨hcount, hlengths⟩ := hcodes.sizes fun _ => hframes.size_eq
    refine ⟨hcount.trans hframes.length_eq, hlengths, by cases mode <;> rfl, _, ?_, rfl,
      htakes.read_eq _, ?_⟩
    · rw [Tool.script, hcommand]
      exact leaves_encodeScript hmode (wantsHeader_of_extension hname) htakes hfeeds hframes hcodes
    intro arguments' command' told input hcommand' hinput htold blocks hblocks
    obtain ⟨hcount', hlengths'⟩ := hblocks.sizes hlengths
    have hpcm := Pcm.holds_toBytes blocks.flatten
    refine ⟨hcount', _, hpcm, ?_, fun output left hdelivers => ?_⟩
    · rw [hpcm.length, List.length_flatten, List.map_congr_left hlengths', List.map_const',
        List.sum_replicate, hcount', smul_eq_mul]
      ring
    · rw [Tool.script, hcommand']
      rw [← hinput] at htakes
      exact leaves_decodeScript htold htakes hlengths hblocks hdelivers
  · intro engine errorRate
    obtain ⟨frames, hframes⟩ := Pcm.exists_frames mode.frameSamples_pos bytes
    obtain ⟨codes, hcodes⟩ := Mode.exists_encodesTo engine fun _ => hframes.size_eq
    have hlengths := (hcodes.sizes fun _ => hframes.size_eq).2
    obtain ⟨blocks, hblocks⟩ := Mode.exists_decodesTo engine errorRate hlengths
    exact ⟨frames, codes, blocks, hframes, hcodes, hblocks⟩

/-- A frame and a part of one, from the standard input through a file to the standard output, in a
mode that the decoder is not told. -/
theorem tools_compose_to_codec_partial_frame :
    ∃ (engine : Engine ℝ) (coded : Folder) (code pcm : List UInt8) (block : List Int16),
      Pcm.Frames Mode.rate1300.frameSamples (List.replicate 700 7) [Array.replicate 320 1799] ∧
      Mode.rate1300.EncodesTo engine [Array.replicate 320 1799] [code] ∧ code.length = 7 ∧
      Mode.rate1300.DecodesTo engine (1 / 2) [code] [block] ∧ block.length = 320 ∧
      Pcm.Holds pcm block ∧ pcm.length = 640 ∧
      (Tool.encoder.script engine (fun _ => some (1 / 2))
        ["-mode", "1300", "-", "out.C2"]).Leaves ⟨⟨[]⟩, List.replicate 700 7⟩ [] coded ∧
      coded.read "out.C2" = .ok ((Header.ofMode .rate1300).bytes ++ code) ∧
      (Tool.decoder.script engine (fun _ => some (1 / 2))
        ["-ber", "0.5", "-mode", "3200", "out.C2", "-"]).Leaves ⟨coded, []⟩ pcm coded := by
  have hsplit : "out.C2".splitOn "/" = ["out.C2"] := by
    rw [String.splitOn, if_neg (by decide)]
    iterate 6 rw [String.splitOnAux, if_neg (by decide +kernel), if_neg (by decide +kernel)]
    rw [String.splitOnAux, if_pos (by decide +kernel)]
    decide +kernel
  have htakes : (World.mk ⟨[]⟩ (List.replicate 700 7)).folder.Takes "out.C2" "out.C2" := by
    refine ⟨by decide, .inr ?_⟩
    rw [Folder.resolve, hsplit]
    decide +kernel
  -- Two bytes of 7 are the sample 7 + 256 * 7.
  have hpart : Pcm.Holds (List.replicate 640 7) (Array.replicate 320 (1799 : Int16)).toList := by
    refine ⟨by rw [Array.toList_replicate, List.length_replicate, List.length_replicate], ?_⟩
    intro i x hx
    rw [Array.toList_replicate, List.getElem?_replicate] at hx
    obtain ⟨hi, rfl⟩ : i < 320 ∧ 1799 = x := by simpa using hx
    refine ⟨7, 7, ?_, ?_, by decide, by decide, by decide⟩ <;>
      exact List.getElem?_replicate_of_lt (by omega)
  have hone : Pcm.Frames Mode.rate1300.frameSamples (List.replicate 700 7)
      [Array.replicate 320 1799] := by
    refine ⟨[List.replicate 640 7], ⟨?_, List.replicate 60 7, by decide, ?_⟩,
      .cons hpart .nil⟩
    · rw [List.forall_mem_singleton, List.length_replicate]
      rfl
    · rw [List.flatten_singleton, List.replicate_append_replicate]
  have hcommand : Command.parse .encoder (fun _ => some (1 / 2 : ℝ))
      ["-mode", "1300", "-", "out.C2"] =
        some ⟨⟨"1300", 0.0, false, false⟩, "-", "out.C2"⟩ := rfl
  have hcommand' : Command.parse .decoder (fun _ => some (1 / 2 : ℝ))
      ["-ber", "0.5", "-mode", "3200", "out.C2", "-"] =
        some ⟨⟨"3200", 1 / 2, false, false⟩, "out.C2", "-"⟩ := rfl
  have hmode : Mode.parse "1300" = .ok .rate1300 := by decide +kernel
  have htold : Mode.parse "3200" = .ok .rate3200 := by decide +kernel
  have hname : "out.C2" = "out" ++ ".c2" ∨ "out.C2" = "out" ++ ".C2" := .inr (by decide)
  obtain ⟨htools, htotal⟩ := tools_compose_to_codec (Engine.ofTransform Transform.dft) _ hcommand
    hmode hname htakes (.standard rfl)
  obtain ⟨frames, codes, blocks, hframes, hcodes, hblocks⟩ :=
    htotal (Engine.ofTransform Transform.dft) (1 / 2)
  obtain ⟨hcount, hlengths, _, coded, hencoder, _, hread, hdecoder⟩ := htools _ codes hframes hcodes
  obtain ⟨hcount', pcm, hpcm, hsize, hleaves⟩ := hdecoder _ _ _ [] hcommand' rfl htold _ hblocks
  obtain rfl := hframes.eq_map.trans hone.eq_map.symm
  have hsingle : codes.length = 1 := by
    rw [hcount, List.length_replicate]
    decide
  obtain ⟨code, rfl⟩ := List.length_eq_one_iff.mp hsingle
  obtain ⟨block, rfl⟩ := List.length_eq_one_iff.mp hcount'
  have hblock := (hblocks.sizes hlengths).2 block List.mem_cons_self
  simp only [List.flatten_singleton] at hread hpcm
  exact ⟨_, coded, code, pcm, block, hframes, hcodes, hlengths code List.mem_cons_self, hblocks,
    hblock, hpcm, hsize, hencoder, hread, hleaves _ _ (.standard rfl)⟩

end CommandLine

end Vocoder
