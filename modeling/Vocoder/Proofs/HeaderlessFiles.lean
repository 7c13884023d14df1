import Vocoder.Proofs.ToolChain

/-!
Coded files without a header, through the decoder. Nothing marks such a file: the decoder looks
whether its data begins as a header does. Where it does not, the frames are decoded one for one in
the mode that the decoder is told. Where it does, as the first frame of a file may, the first seven
bytes are taken for a header, and the rest is decoded in the mode that they name.
-/

namespace Vocoder

/-! ### Data that begins as a header -/

namespace Header

/-- Data is long enough for a header and begins with the bytes by which one is known. -/
def Begins (data : List UInt8) : Prop :=
  size ≤ data.length ∧ data.take 3 = [0xc0, 0xde, 0xc2]

/-- The mode of data for which a mode is told, and the part of the data that holds frames. -/
inductive Selects (told : Mode) (data : List UInt8) : Mode → List UInt8 → Prop
  | told (hbegins : ¬ Begins data) : Selects told data told data
  | named {kind : UInt8} {mode : Mode} (hbegins : Begins data) (hkind : data[5]? = some kind)
      (hmode : Mode.ofCode? kind.toNat = some mode) : Selects told data mode (data.drop 7)

theorem read?_of_not_begins {data : List UInt8} (h : ¬ Begins data) : read? data = none := by
  unfold read?
  split
  · rename_i a b c major minor mode flags rest
    apply if_neg
    intro hmagic
    cases hmagic
    exact h ⟨by simp [size], rfl⟩
  · rfl

/-- The sixth byte of data that begins as a header names the mode. -/
theorem read?_of_begins {data : List UInt8} (h : Begins data) {kind : UInt8}
    (hkind : data[5]? = some kind) : ∃ header, read? data = some header ∧ header.mode = kind := by
  obtain ⟨hsize, hmagic⟩ := h
  unfold read?
  split
  · rename_i a b c major minor mode flags rest
    obtain ⟨rfl, rfl, rfl⟩ : a = 0xc0 ∧ b = 0xde ∧ c = 0xc2 := by simpa using hmagic
    exact ⟨_, if_pos rfl, by simpa using hkind⟩
  · rename_i hshort
    match data, hsize with
    | a :: b :: c :: major :: minor :: mode :: flags :: rest, _ =>
      exact absurd rfl (hshort a b c major minor mode flags rest)

end Header

/-- A session that is given no codes gives no samples. -/
theorem Mode.decodesTo_nil (mode : Mode) (engine : Engine ℝ) (errorRate : ℝ) :
    mode.DecodesTo engine errorRate [] [] := by
  obtain ⟨session, notices, hcreate, -⟩ := Session.exists_create mode []
  exact ⟨session, notices, [], hcreate, rfl, rfl⟩

namespace CommandLine

variable {α : Type}

/-! ### What the decoder reads -/

/-- Where a tool that reads before it writes finds bytes under a name: on the standard input, or in
a file. -/
inductive World.Offers (world : World) (name : String) : List UInt8 → Prop
  | standard (settled : world.settle .input (.ofArgument name) = .standard) :
      World.Offers world name world.input
  | file {bytes : List UInt8} (settled : world.settle .input (.ofArgument name) = .file name)
      (content : world.folder.read name = .ok bytes) : World.Offers world name bytes

/-- Reading takes from the standard input at most. -/
theorem World.Offers.run_read {world : World} {name : String} {bytes : List UInt8}
    (h : world.Offers name bytes) (next : Except FileError (List UInt8) → Script α) :
    ∃ input, (Script.read (.ofArgument name) next).run world =
      (next (.ok bytes)).run { world with input } := by
  cases h with
  | standard settled =>
      refine ⟨[], ?_⟩
      rw [Script.run, settled]
  | file settled content =>
      refine ⟨world.input, ?_⟩
      rw [Script.run, settled]
      dsimp only
      rw [content]

/-- What a tool leaves does not depend on what is left on the standard input. -/
theorem World.Delivers.with_input {world : World} {name : String} {bytes output : List UInt8}
    {left : Folder} (h : world.Delivers name bytes output left) (input : List UInt8) :
    World.Delivers { world with input } name bytes output left := by
  cases h with
  | standard settled => exact .standard settled
  | file takes => exact .file takes

variable [Analytic α] {engine : Engine α} {command : Command α} {world : World} {told mode : Mode}
  {bytes rest : List UInt8}

theorem script_decoder {readNumber : String → Option α} {arguments : List String}
    (h : Command.parse .decoder readNumber arguments = some command) :
    Tool.decoder.script engine readNumber arguments = decodeScript engine command := by
  rw [Tool.script, h]

/-- The decoder goes on with what the data selects. -/
theorem exists_run_decodeScript (htold : Mode.parse command.options.modeName = .ok told)
    (hoffers : world.Offers command.input bytes) (hselects : Header.Selects told bytes mode rest) :
    ∃ input, (decodeScript engine command).run world =
      (decodeBytes engine command mode rest).run { world with input } := by
  refine (hoffers.run_read _).imp fun input hrun => Eq.trans hrun ?_
  dsimp only
  rw [htold]
  dsimp only
  cases hselects with
  | told hbegins => rw [Header.read?_of_not_begins hbegins]
  | named hbegins hkind hmode =>
      obtain ⟨header, hheader, rfl⟩ := Header.read?_of_begins hbegins hkind
      rw [hheader]
      dsimp only
      rw [Header.namedMode, hmode]
      rfl

/-- So it writes what a fresh session of that mode gives for the frames in that part. -/
theorem leaves_pcm_of_selects (command : Command α) {parts : List (List UInt8)}
    {blocks : List (List Int16)} (htold : Mode.parse command.options.modeName = .ok told)
    (hoffers : world.Offers command.input bytes) (hselects : Header.Selects told bytes mode rest)
    (hcut : CutInto mode.frameBytes rest parts)
    (hblocks : mode.DecodesTo engine command.options.errorRate parts blocks) :
    blocks.length = parts.length ∧ ∃ pcm, Pcm.Holds pcm blocks.flatten ∧
      ∀ output left, world.Delivers command.output pcm output left →
        (decodeScript engine command).Leaves world output left := by
  refine ⟨(hblocks.sizes hcut.1).1, _, Pcm.holds_toBytes _, fun output left hdelivers => ?_⟩
  obtain ⟨input, hrun⟩ := exists_run_decodeScript htold hoffers hselects
  rw [← hcut.pieces_eq] at hblocks
  obtain ⟨log, hlog⟩ := leaves_decodeBytes hblocks (hdelivers.with_input input)
  exact ⟨log, hrun.trans hlog⟩

/-- A header that names no mode ends the decoder. -/
theorem run_decodeScript_unnamed {kind : UInt8}
    (htold : Mode.parse command.options.modeName = .ok told)
    (hoffers : world.Offers command.input bytes) (hbegins : Header.Begins bytes)
    (hkind : bytes[5]? = some kind) (hmode : Mode.ofCode? kind.toNat = none) :
    (decodeScript engine command).run world = ⟨1, [], world.folder, false,
      [⟨.fatal, "Error: header " ++ hexCapitals (bytes.take 7) ++ ": " ++
        (Error.headerMode kind).message, []⟩]⟩ := by
  obtain ⟨input, hrun⟩ := hoffers.run_read _
  refine Eq.trans hrun ?_
  obtain ⟨header, hheader, rfl⟩ := Header.read?_of_begins hbegins hkind
  dsimp only
  rw [htold]
  dsimp only
  rw [hheader]
  dsimp only
  rw [Header.namedMode, hmode]
  rfl

/-! ### Files without a header -/

/-- Files without a header decode frame for frame, unless they begin as a header does. Then their
first seven bytes are a header to the decoder, and it decodes the frames in the rest in the mode
that the sixth byte names, or fails if it names none. -/
theorem headerless_file_decodes_frame_for_frame (engine : Engine α)
    (readNumber : String → Option α) {world : World} {arguments : List String}
    {command : Command α} {mode : Mode} {codes : List (List UInt8)}
    (hcommand : Command.parse .decoder readNumber arguments = some command)
    (hmode : Mode.parse command.options.modeName = .ok mode)
    (hcodes : ∀ code ∈ codes, code.length = mode.frameBytes)
    (hoffers : world.Offers command.input codes.flatten) :
    (¬ Header.Begins codes.flatten →
      ∀ blocks, mode.DecodesTo engine command.options.errorRate codes blocks →
        blocks.length = codes.length ∧
        ∃ pcm, Pcm.Holds pcm blocks.flatten ∧
          ∀ output left, world.Delivers command.output pcm output left →
            (Tool.decoder.script engine readNumber arguments).Leaves world output left) ∧
    (Header.Begins codes.flatten → ∀ kind, codes.flatten[5]? = some kind →
      (∀ named, Mode.ofCode? kind.toNat = some named →
        (∀ parts blocks, CutInto named.frameBytes (codes.flatten.drop 7) parts →
          named.DecodesTo engine command.options.errorRate parts blocks →
          blocks.length = parts.length ∧
          ∃ pcm, Pcm.Holds pcm blocks.flatten ∧
            ∀ output left, world.Delivers command.output pcm output left →
              (Tool.decoder.script engine readNumber arguments).Leaves world output left) ∧
        ∀ (engine : Engine ℝ) (errorRate : ℝ), ∃ parts blocks,
          CutInto named.frameBytes (codes.flatten.drop 7) parts ∧
          named.DecodesTo engine errorRate parts blocks) ∧
      (Mode.ofCode? kind.toNat = none →
        (Tool.decoder.script engine readNumber arguments).run world =
          ⟨1, [], world.folder, false,
            [⟨.fatal, "Error: header " ++ hexCapitals (codes.flatten.take 7) ++ ": " ++
              (Error.headerMode kind).message, []⟩]⟩)) ∧
    ∀ (engine : Engine ℝ) (errorRate : ℝ), ∃ blocks,
      mode.DecodesTo engine errorRate codes blocks := by
  rw [script_decoder hcommand]
  refine ⟨?_, ?_, fun engine errorRate => Mode.exists_decodesTo engine errorRate hcodes⟩
  · intro hbegins blocks hblocks
    have hcut := cutInto_flatten mode.frameBytes_pos hcodes
    exact leaves_pcm_of_selects command hmode hoffers (.told hbegins) hcut hblocks
  · intro hbegins kind hkind
    refine ⟨fun named hnamed => ⟨?_, ?_⟩, run_decodeScript_unnamed hmode hoffers hbegins hkind⟩
    · intro parts blocks hcut hblocks
      exact leaves_pcm_of_selects command hmode hoffers (.named hbegins hkind hnamed) hcut hblocks
    · intro engine errorRate
      have hcut := cutInto_pieces named.frameBytes_pos (codes.flatten.drop 7)
      obtain ⟨blocks, hblocks⟩ := Mode.exists_decodesTo engine errorRate hcut.1
      exact ⟨_, blocks, hcut, hblocks⟩

/-- Two frames from the standard input to the standard output. Only the second of them begins as a
header does. -/
theorem headerless_file_decodes_frame_for_frame_two :
    ∃ (engine : Engine ℝ) (first second : List Int16) (pcm : List UInt8),
      Mode.rate3200.DecodesTo engine 0.0
        [[1, 2, 3, 4, 5, 6, 7, 8], [0xc0, 0xde, 0xc2, 0, 0, 0, 0, 0]] [first, second] ∧
      Pcm.Holds pcm (first ++ second) ∧
      (Tool.decoder.script engine (fun _ => none) ["-mode", "3200", "-", "-"]).Leaves
        ⟨⟨[]⟩, [1, 2, 3, 4, 5, 6, 7, 8, 0xc0, 0xde, 0xc2, 0, 0, 0, 0, 0]⟩
        pcm ⟨[]⟩ := by
  have hcommand : Command.parse .decoder (fun _ => (none : Option ℝ)) ["-mode", "3200", "-", "-"] =
      some ⟨⟨"3200", 0.0, false, false⟩, "-", "-"⟩ := rfl
  have hmode : Mode.parse "3200" = .ok .rate3200 := by decide +kernel
  have hcodes : ∀ code ∈ [[1, 2, 3, 4, 5, 6, 7, 8], [0xc0, 0xde, 0xc2, 0, 0, 0, 0, 0]],
      (code : List UInt8).length = Mode.rate3200.frameBytes := by decide
  have hoffers : World.Offers
      ⟨⟨[]⟩, [1, 2, 3, 4, 5, 6, 7, 8, 0xc0, 0xde, 0xc2, 0, 0, 0, 0, 0]⟩ "-"
      [[1, 2, 3, 4, 5, 6, 7, 8], [0xc0, 0xde, 0xc2, 0, 0, 0, 0, 0]].flatten := .standard rfl
  obtain ⟨hplain, -, htotal⟩ := headerless_file_decodes_frame_for_frame
    (Engine.ofTransform Transform.dft) _ hcommand hmode hcodes hoffers
  obtain ⟨blocks, hblocks⟩ := htotal (Engine.ofTransform Transform.dft) 0.0
  have hbegins : ¬ Header.Begins
      [[1, 2, 3, 4, 5, 6, 7, 8], [0xc0, 0xde, 0xc2, 0, 0, 0, 0, 0]].flatten := by
    simp [Header.Begins]
  obtain ⟨hlength, pcm, hpcm, hleaves⟩ := hplain hbegins blocks hblocks
  obtain ⟨first, second, rfl⟩ := List.length_eq_two.mp hlength
  rw [List.flatten_cons, List.flatten_singleton] at hpcm
  exact ⟨_, first, second, pcm, hblocks, hpcm, hleaves _ _ (.standard rfl)⟩

/-- The first frame of a file may begin as a header does. This one, in the mode that the decoder is
told, has a block of samples, but the decoder takes seven of its eight bytes for a header and writes
nothing. -/
theorem headerless_frame_taken_for_header :
    ∃ (engine : Engine ℝ) (block : List Int16),
      Mode.parse "3200" = .ok .rate3200 ∧
      ([0xc0, 0xde, 0xc2, 0, 0, 0, 0, 0] : List UInt8).length = Mode.rate3200.frameBytes ∧
      Mode.rate3200.DecodesTo engine 0.0 [[0xc0, 0xde, 0xc2, 0, 0, 0, 0, 0]] [block] ∧
      block.length = 160 ∧
      (Tool.decoder.script engine (fun _ => none) ["-mode", "3200", "-", "-"]).Leaves
        ⟨⟨[]⟩, [0xc0, 0xde, 0xc2, 0, 0, 0, 0, 0]⟩ [] ⟨[]⟩ ∧
      ∀ pcm, Pcm.Holds pcm block →
        ¬ (Tool.decoder.script engine (fun _ => none) ["-mode", "3200", "-", "-"]).Leaves
          ⟨⟨[]⟩, [0xc0, 0xde, 0xc2, 0, 0, 0, 0, 0]⟩ pcm ⟨[]⟩ := by
  have hcommand : Command.parse .decoder (fun _ => (none : Option ℝ)) ["-mode", "3200", "-", "-"] =
      some ⟨⟨"3200", 0.0, false, false⟩, "-", "-"⟩ := rfl
  have hmode : Mode.parse "3200" = .ok .rate3200 := by decide +kernel
  have hcodes : ∀ code ∈ [[0xc0, 0xde, 0xc2, 0, 0, 0, 0, 0]],
      (code : List UInt8).length = Mode.rate3200.frameBytes := by decide
  obtain ⟨blocks, hblocks⟩ := Mode.exists_decodesTo (Engine.ofTransform Transform.dft) 0.0 hcodes
  obtain ⟨hcount, hlengths⟩ := hblocks.sizes hcodes
  obtain ⟨block, rfl⟩ := List.length_eq_one_iff.mp hcount
  have hblock : block.length = 160 := hlengths block List.mem_cons_self
  have hselects : Header.Selects .rate3200 [0xc0, 0xde, 0xc2, 0, 0, 0, 0, 0] .rate3200 [0] :=
    .named ⟨by decide, rfl⟩ rfl (by decide)
  -- What is left after the header is less than a frame.
  have hnone : CutInto Mode.rate3200.frameBytes ([0] : List UInt8) [] :=
    ⟨by simp, [0], by decide, rfl⟩
  have hnothing := Mode.decodesTo_nil .rate3200 (Engine.ofTransform Transform.dft) 0.0
  have hoffers : World.Offers ⟨⟨[]⟩, [0xc0, 0xde, 0xc2, 0, 0, 0, 0, 0]⟩ "-"
      [0xc0, 0xde, 0xc2, 0, 0, 0, 0, 0] := .standard rfl
  have hleaves : (Tool.decoder.script (Engine.ofTransform Transform.dft)
      (fun _ => (none : Option ℝ)) ["-mode", "3200", "-", "-"]).Leaves
      ⟨⟨[]⟩, [0xc0, 0xde, 0xc2, 0, 0, 0, 0, 0]⟩ [] ⟨[]⟩ := by
    rw [script_decoder hcommand]
    obtain ⟨-, pcm, hpcm, hleaves⟩ :=
      leaves_pcm_of_selects ⟨⟨"3200", 0.0, false, false⟩, "-", "-"⟩ hmode hoffers hselects hnone
        hnothing
    obtain rfl : pcm = [] := List.eq_nil_of_length_eq_zero hpcm.length
    exact hleaves _ _ (.standard rfl)
  refine ⟨_, block, hmode, rfl, hblocks, hblock, hleaves, ?_⟩
  rintro pcm hpcm ⟨log, hlog⟩
  obtain ⟨log', hlog'⟩ := hleaves
  rw [hlog'] at hlog
  have hempty : ([] : List UInt8) = pcm := (Outcome.mk.inj hlog).2.1
  have hlength := hpcm.length
  rw [← hempty, hblock] at hlength
  cases hlength

end CommandLine

end Vocoder
