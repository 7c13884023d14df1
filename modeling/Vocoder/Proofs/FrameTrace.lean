import Vocoder.Frame.Encode
import Vocoder.Proofs.FrameReading

/-!
Encoding of a frame. The walk through the subframes writes the voicing flags late, when it comes to
the update after them; what it has written at any time is a list of whole stretches. So the frame
has the bits that reading its content looks at, and zeros after them.
-/

namespace Vocoder

open BitReader

namespace Frame

/-! ### The walk of the encoder -/

theorem lastSubframes_append (first : Nat) (stretches : List Stretch) (stretch : Stretch) :
    lastSubframes first (stretches ++ [stretch]) = lastSubframes first stretches ++
      [(first + (stretches.flatMap Stretch.flags).length + stretch.flags.length - 1 : Int)] := by
  induction stretches generalizing first with
  | nil => simp [lastSubframes]
  | cons head stretches ih =>
      rw [List.cons_append, lastSubframes, ih, lastSubframes, List.cons_append, List.flatMap_cons,
        List.length_append]
      simp only [Int.natCast_add, Int.add_assoc]

theorem length_lastSubframes (first : Nat) (stretches : List Stretch) :
    (lastSubframes first stretches).length = stretches.length := by
  induction stretches generalizing first with
  | nil => rfl
  | cons stretch stretches ih => exact congrArg (· + 1) (ih _)

theorem lt_of_mem_lastSubframes {first : Nat} {stretches : List Stretch} {subframe : Int}
    (h : subframe ∈ lastSubframes first stretches) :
    subframe < first + (stretches.flatMap Stretch.flags).length := by
  induction stretches generalizing first with
  | nil => cases h
  | cons stretch stretches ih =>
      rw [List.flatMap_cons, List.length_append]
      rcases List.mem_cons.mp h with rfl | hmem
      · omega
      · have := ih hmem
        omega

variable {α : Type} [Analytic α]

/-- What the analysis of a subframe adds to a walk: a voicing flag. -/
theorem Walk.analyse_eq_ok {engine : Engine α} {walk next : Walk α} {pcm : Array Int16} {i : Nat}
    (h : walk.analyse engine pcm i = .ok next) :
    (∃ flag, next.voicing = walk.voicing ++ [flag]) ∧ next.written = walk.written ∧
      next.updates = walk.updates ∧ next.fields = walk.fields ∧ next.wo = walk.wo ∧
      next.encoder.predictor = walk.encoder.predictor := by
  obtain ⟨samples, _, h⟩ := bind_eq_ok.mp h
  obtain ⟨⟨model, encoder⟩, hmodel, h⟩ := bind_eq_ok.mp h
  cases h
  refine ⟨⟨_, rfl⟩, rfl, rfl, rfl, rfl, ?_⟩
  obtain ⟨bins, _, hmodel⟩ := bind_eq_ok.mp hmodel
  obtain ⟨pitch, _, hmodel⟩ := bind_eq_ok.mp hmodel
  obtain ⟨refined, _, hmodel⟩ := bind_eq_ok.mp hmodel
  obtain ⟨measured, _, hmodel⟩ := bind_eq_ok.mp hmodel
  obtain ⟨judged, _, hmodel⟩ := bind_eq_ok.mp hmodel
  cases hmodel
  rfl

/-- What an update adds to a walk: the pending flags and a code, which moves the reference. -/
theorem Walk.update_eq_ok {engine : Engine α} {layout : Layout} {frames i u : Nat}
    {walk next : Walk α} (h : walk.update engine layout frames i u = .ok next) :
    ∃ scheme energy code reference, layout.schemes[u]? = some scheme ∧
      UpdateCode.encode PitchRange.speech scheme walk.model.wo energy
        ⟨walk.wo, walk.encoder.predictor⟩ = .ok (code, reference) ∧
      next.voicing = walk.voicing ∧ next.written = max walk.written (i + 1) ∧
      next.updates = walk.updates ++ [code] ∧
      next.fields =
        walk.fields ++ (walk.voicing.drop walk.written).map voicingField ++ code.fields ∧
      next.wo = reference.wo ∧ next.encoder.predictor = reference.predictor := by
  obtain ⟨found, _, h⟩ := bind_eq_ok.mp h
  obtain ⟨scheme, hscheme, h⟩ := bind_eq_ok.mp h
  obtain ⟨⟨code, reference⟩, hcode, h⟩ := bind_eq_ok.mp h
  cases h
  refine ⟨scheme, found.energy, code, reference, ?_, hcode, rfl, rfl, rfl, rfl, rfl, rfl⟩
  simpa using (fetch_eq_ok.mp hscheme).2

/-- A walk through the first `i` subframes: the stretches written, the flags still to be written,
and the updates still to come. -/
structure Walk.Traced (layout : Layout) (walk : Walk α) (i : Nat) (stretches : List Stretch)
    (pending : List Bool) (later : List Int) : Prop where
  length : walk.voicing.length = i
  voicing : walk.voicing = stretches.flatMap Stretch.flags ++ pending
  written : walk.written = (stretches.flatMap Stretch.flags).length
  codes : walk.updates = stretches.map Stretch.code
  fields : walk.fields = stretches.flatMap Stretch.fields
  updates : layout.updates = lastSubframes 0 stretches ++ later
  later : ∀ subframe ∈ later, (i : Int) ≤ subframe
  schemes : stretches.map (fun stretch => stretch.code.scheme) =
    layout.schemes.take stretches.length
  inRange : ∀ stretch ∈ stretches, stretch.code.InRange

omit [Analytic α] in
/-- An update is found at a subframe only if it is the next one to come. -/
theorem updateAt?_of_traced {layout : Layout} (hlayout : layout.Regular) {walk : Walk α} {i : Nat}
    {stretches : List Stretch} {pending : List Bool} {later : List Int}
    (h : walk.Traced layout i stretches pending later) :
    (layout.updateAt? i = none ∧ ∀ subframe ∈ later, (i + 1 : Int) ≤ subframe) ∨
    (layout.updateAt? i = some stretches.length ∧ ∃ rest, later = (i : Int) :: rest ∧
      ∀ subframe ∈ rest, (i + 1 : Int) ≤ subframe) := by
  have hascending := hlayout.ascending
  have hlength := congrArg List.length h.voicing
  rw [h.length, List.length_append] at hlength
  have hpast : (lastSubframes 0 stretches).findIdx? (· == (i : Int)) = none := by
    rw [List.findIdx?_eq_none_iff]
    intro subframe hmem
    have := lt_of_mem_lastSubframes hmem
    simp only [beq_eq_false_iff_ne, ne_eq]
    omega
  rw [h.updates, List.pairwise_append] at hascending
  rw [Layout.updateAt?, h.updates, List.findIdx?_append, hpast, Option.none_or,
    length_lastSubframes]
  cases hlater : later with
  | nil => exact .inl ⟨rfl, by simp⟩
  | cons subframe rest =>
      have hfirst := h.later
      rw [hlater, List.pairwise_cons] at hascending
      rw [hlater] at hfirst
      have hle := hfirst subframe List.mem_cons_self
      by_cases heq : subframe = i
      · right
        subst heq
        refine ⟨by simp [List.findIdx?_cons], rest, rfl, fun next hnext => ?_⟩
        have := hascending.2.1.1 next hnext
        omega
      · left
        have hall : ∀ next ∈ subframe :: rest, (i + 1 : Int) ≤ next := by
          intro next hnext
          rcases List.mem_cons.mp hnext with rfl | hmem
          · omega
          · have := hascending.2.1.1 next hmem
            omega
        refine ⟨?_, hall⟩
        rw [Option.map_eq_none_iff, List.findIdx?_eq_none_iff]
        intro next hnext
        have := hall next hnext
        simp only [beq_eq_false_iff_ne, ne_eq]
        omega

theorem Walk.traced_start {layout : Layout} (hlayout : layout.Regular) (encoder : Encoder α) :
    (Walk.start encoder).Traced layout 0 [] [] layout.updates where
  length := rfl
  voicing := rfl
  written := rfl
  codes := rfl
  fields := rfl
  updates := rfl
  later := hlayout.nonneg
  schemes := by simp
  inRange := by simp

/-- A subframe adds its flag to those pending; an update turns them into a stretch. -/
theorem Walk.Traced.step {engine : Engine α} {layout : Layout} (hlayout : layout.Regular)
    {frames : Nat} {pcm : Array Int16} {walk next : Walk α} {i : Nat} {stretches : List Stretch}
    {pending : List Bool} {later : List Int} (h : walk.Traced layout i stretches pending later)
    (hstep : walk.step engine layout frames pcm i = .ok next) :
    ∃ stretches pending later, next.Traced layout (i + 1) stretches pending later := by
  obtain ⟨middle, hmiddle, hstep⟩ := bind_eq_ok.mp hstep
  obtain ⟨⟨flag, hflag⟩, hwritten, hcodes, hfields, -, -⟩ := Walk.analyse_eq_ok hmiddle
  have hlength : middle.voicing.length = i + 1 := by
    rw [hflag, List.length_append, h.length]
    rfl
  have hvoicing : middle.voicing = stretches.flatMap Stretch.flags ++ (pending ++ [flag]) := by
    rw [hflag, h.voicing, List.append_assoc]
  rw [h.written] at hwritten
  rw [h.codes] at hcodes
  rw [h.fields] at hfields
  rcases updateAt?_of_traced hlayout h with ⟨hnone, hlater⟩ | ⟨hsome, rest, rfl, hrest⟩
  · rw [hnone] at hstep
    cases hstep
    exact ⟨stretches, pending ++ [flag], later, hlength, hvoicing, hwritten, hcodes, hfields,
      h.updates, hlater, h.schemes, h.inRange⟩
  · rw [hsome] at hstep
    obtain ⟨scheme, energy, code, reference, hscheme, hcode, hnext⟩ := Walk.update_eq_ok hstep
    obtain ⟨hvoicing', hwritten', hcodes', hfields', -, -⟩ := hnext
    obtain ⟨hcodeScheme, hinRange⟩ := UpdateCode.encode_inRange hcode
    have hcount := congrArg List.length hvoicing
    rw [hlength, List.length_append] at hcount
    refine ⟨stretches ++ [⟨pending ++ [flag], code⟩], [], rest, ?_⟩
    constructor
    · rw [hvoicing', hlength]
    · rw [hvoicing', hvoicing]
      simp
    · rw [hwritten', hwritten, List.flatMap_append, List.length_append]
      simp only [List.flatMap_cons, List.flatMap_nil, List.append_nil]
      omega
    · rw [hcodes', hcodes]
      simp
    · rw [hfields', hfields, hwritten, hvoicing, List.drop_left]
      simp [Stretch.fields]
    · rw [h.updates, lastSubframes_append]
      simp only [List.append_assoc, List.cons_append, List.nil_append]
      congr 2
      omega
    · exact hrest
    · rw [List.map_append, h.schemes, List.length_append, List.length_singleton,
        List.take_add_one, hscheme, List.map_singleton, hcodeScheme]
      rfl
    · intro stretch hmem
      rcases List.mem_append.mp hmem with hmem | hmem
      · exact h.inRange stretch hmem
      · rw [List.mem_singleton.mp hmem]
        exact hinRange

theorem walk_traced {engine : Engine α} {layout : Layout} (hlayout : layout.Regular)
    {frames : Nat} {encoder : Encoder α} {pcm : Array Int16} {count : Nat} {walked : Walk α}
    (h : walk engine layout frames encoder pcm count = .ok walked) :
    ∃ stretches pending later, walked.Traced layout count stretches pending later := by
  refine foldlM_range_induction
    (P := fun i walk => ∃ stretches pending later, walk.Traced layout i stretches pending later) h
    ⟨[], [], layout.updates, Walk.traced_start hlayout encoder⟩ ?_
  rintro i walk next _ ⟨stretches, pending, later, htraced⟩ hstep
  exact htraced.step hlayout hstep

omit [Analytic α] in
/-- After the last subframe all flags and updates are written. -/
theorem Walk.Traced.finish {layout : Layout} (hlayout : layout.Regular) {walk : Walk α}
    {stretches : List Stretch} {pending : List Bool} {later : List Int}
    (h : walk.Traced layout layout.subframes.toNat stretches pending later) :
    pending = [] ∧ layout.updates = lastSubframes 0 stretches ∧
      layout.schemes = stretches.map fun stretch => stretch.code.scheme := by
  have hpos := hlayout.subframes_pos
  have hends := hlayout.ends
  have hcount := congrArg List.length h.voicing
  rw [h.length, List.length_append] at hcount
  have hlater : later = [] := by
    cases hlast : later.getLast? with
    | none => exact List.getLast?_eq_none_iff.mp hlast
    | some subframe =>
        have hle := h.later subframe (List.mem_of_getLast? hlast)
        rw [h.updates, List.getLast?_append, hlast, Option.some_or, Option.some.injEq] at hends
        omega
  have hupdates : layout.updates = lastSubframes 0 stretches := by
    rw [h.updates, hlater, List.append_nil]
  refine ⟨?_, hupdates, ?_⟩
  · have hmem := List.mem_of_getLast? hends
    rw [hupdates] at hmem
    have := lt_of_mem_lastSubframes hmem
    exact List.eq_nil_of_length_eq_zero (by omega)
  · have hlength : layout.schemes.length = stretches.length := by
      rw [hlayout.schemes, hupdates, length_lastSubframes]
    rw [h.schemes, List.take_of_length_le (Nat.le_of_eq hlength)]

/-! ### Frames -/

theorem length_stretchBits (stretches : List Stretch) :
    ((stretches.flatMap Stretch.fields).flatMap BitField.bits).length =
      (stretches.flatMap Stretch.flags).length +
        ((stretches.map fun stretch => stretch.code.scheme).map UpdateScheme.bits).sum := by
  have hcode (code : UpdateCode) :
      (code.fields.flatMap BitField.bits).length = code.scheme.bits := by
    cases code <;> simp [UpdateCode.fields, UpdateCode.scheme, UpdateScheme.bits,
      UpdateScheme.widths]
  have hflags (flags : List Bool) :
      ((flags.map voicingField).flatMap BitField.bits).length = flags.length := by
    simp [List.length_flatMap, Function.comp_def, voicingField]
  induction stretches with
  | nil => rfl
  | cons stretch stretches ih =>
      rw [List.flatMap_cons, List.flatMap_append, List.length_append, ih, Stretch.fields,
        List.flatMap_append, List.length_append, hcode, hflags, List.flatMap_cons,
        List.length_append, List.map_cons, List.map_cons, List.sum_cons]
      omega

theorem length_lineBits {scheme : LineScheme} {indexes : List Int}
    (h : List.Forall₂ Fits indexes scheme.widths) :
    ((lineFields scheme indexes).flatMap BitField.bits).length = scheme.widths.sum := by
  rw [lineFields]
  generalize scheme.widths = widths at h
  induction h with
  | nil => rfl
  | cons _ _ ih =>
      rw [List.zipWith_cons_cons, List.flatMap_cons, List.length_append, ih, List.sum_cons,
        BitField.length_bits]

/-- What encoding a frame went through. -/
theorem encode_eq_ok {engine : Engine α} {layout : Layout} {frames : Nat} {encoder : Encoder α}
    {pcm : Array Int16} {done : Encoded α}
    (h : encode engine layout frames encoder pcm = .ok done) :
    ∃ walked writer, 0 ≤ layout.totalBytes ∧ layout.totalBytes ≤ 2 ^ 45 ∧
      walk engine layout frames encoder pcm layout.subframes.toNat = .ok walked ∧
      layout.lines.encode walked.lines = .ok (done.content.lines, done.lineError) ∧
      BitWriter.writeAll { size := layout.totalBytes.toNat }
        (walked.fields ++ lineFields layout.lines done.content.lines ++
          [⟨0, layout.spare.toNat, .gray⟩]) = .ok writer ∧
      done.bytes = writer.bytes ∧ done.content.voicing = walked.voicing ∧
      done.content.updates = walked.updates ∧ done.encoder = walked.encoder := by
  obtain ⟨size, hsize, h⟩ := bind_eq_ok.mp h
  obtain ⟨subframes, hsubframes, h⟩ := bind_eq_ok.mp h
  obtain ⟨walked, hwalked, h⟩ := bind_eq_ok.mp h
  obtain ⟨⟨indexes, lineError⟩, hindexes, h⟩ := bind_eq_ok.mp h
  obtain ⟨spare, hspare, h⟩ := bind_eq_ok.mp h
  obtain ⟨writer, hwriter, h⟩ := bind_eq_ok.mp h
  cases h
  obtain ⟨hlow, hhigh, rfl⟩ := length_eq_ok.mp hsize
  obtain ⟨_, _, rfl⟩ := length_eq_ok.mp hsubframes
  obtain ⟨_, rfl⟩ := shiftWidth_eq_ok.mp hspare
  exact ⟨walked, writer, hlow, hhigh, hwalked, hindexes, hwriter, rfl, rfl, rfl, rfl⟩

theorem bits_spare (width : Nat) :
    BitField.bits ⟨0, width, .gray⟩ = List.replicate width false := by
  have hword : BitField.word ⟨0, width, .gray⟩ = 0 := by
    simp [BitField.word, BitField.residue, Coding.encode, Gray.encode]
  rw [BitField.bits, hword, Bits.ofNat_zero_right]

/-- The fields of a walk and of its lines are the bits that are read as their content. -/
theorem reads_of_walk {engine : Engine α} {layout : Layout} (hlayout : layout.Regular)
    {frames : Nat} {encoder : Encoder α} {pcm : Array Int16} {walked : Walk α} {indexes : List Int}
    {lineError : α}
    (hwalked : walk engine layout frames encoder pcm layout.subframes.toNat = .ok walked)
    (hindexes : layout.lines.encode walked.lines = .ok (indexes, lineError)) :
    ((walked.fields ++ lineFields layout.lines indexes).flatMap BitField.bits).length =
        layout.contentBits ∧
      Reads (readContent layout)
        ((walked.fields ++ lineFields layout.lines indexes).flatMap BitField.bits)
        ⟨walked.voicing, walked.updates, indexes⟩ := by
  obtain ⟨stretches, pending, later, htraced⟩ := walk_traced hlayout hwalked
  obtain ⟨rfl, hupdates, hschemes⟩ := htraced.finish hlayout
  have hlines := LineScheme.encode_fits hindexes
  have hvoiced : walked.voicing = stretches.flatMap Stretch.flags := by
    rw [htraced.voicing, List.append_nil]
  have hflags : layout.subframes.toNat = (stretches.flatMap Stretch.flags).length := by
    rw [← hvoiced, htraced.length]
  have hpos := hlayout.subframes_pos
  rw [htraced.fields, hvoiced, htraced.codes]
  refine ⟨?_, reads_content hupdates hschemes (by omega) htraced.inRange hlines⟩
  rw [List.flatMap_append, List.length_append, length_stretchBits, length_lineBits hlines,
    ← hflags, ← hschemes, Layout.contentBits]

theorem widths_of_walk {engine : Engine α} {layout : Layout} (hlayout : layout.Regular)
    {frames : Nat} {encoder : Encoder α} {pcm : Array Int16} {walked : Walk α} {indexes : List Int}
    {lineError : α}
    (hwalked : walk engine layout frames encoder pcm layout.subframes.toNat = .ok walked)
    (hindexes : layout.lines.encode walked.lines = .ok (indexes, lineError)) (spare : Nat) :
    ((walked.fields ++ lineFields layout.lines indexes ++ [(⟨0, spare, .gray⟩ : BitField)]).map
      BitField.width).sum = layout.contentBits + spare := by
  have hwidths (fields : List BitField) :
      (fields.map BitField.width).sum = (fields.flatMap BitField.bits).length := by
    simp [List.length_flatMap]
  rw [hwidths, List.flatMap_append, List.length_append, (reads_of_walk hlayout hwalked hindexes).1,
    List.flatMap_singleton, BitField.length_bits]

/-- An encoded frame has the bits of its content, and zeros after them. -/
theorem encode_bits {engine : Engine α} {layout : Layout} (hlayout : layout.Regular)
    {frames : Nat} {encoder : Encoder α} {pcm : Array Int16} {done : Encoded α}
    (h : encode engine layout frames encoder pcm = .ok done) :
    ∃ bits : List Bool, bits.length = layout.contentBits ∧
      layout.contentBits + layout.spare.toNat ≤ 8 * layout.totalBytes.toNat ∧
      done.bytes.length = layout.totalBytes.toNat ∧
      Bits.ofBytes done.bytes = bits ++
        List.replicate (8 * layout.totalBytes.toNat - layout.contentBits) false ∧
      Reads (readContent layout) bits done.content := by
  obtain ⟨walked, writer, _, _, hwalked, hindexes, hwriter, hbytes, hvoicing, hcodes, _⟩ :=
    encode_eq_ok h
  obtain ⟨hlength, hread⟩ := reads_of_walk hlayout hwalked hindexes
  obtain ⟨hfit, hsize, hbits⟩ := BitWriter.writeAll_start_eq_ok hwriter
  rw [widths_of_walk hlayout hwalked hindexes] at hfit hbits
  rw [List.flatMap_append, List.flatMap_singleton, bits_spare, List.append_assoc,
    List.replicate_append_replicate] at hbits
  refine ⟨_, hlength, hfit, by rw [hbytes, hsize], ?_, ?_⟩
  · rw [hbytes, hbits]
    congr 2
    omega
  · rw [← hvoicing, ← hcodes] at hread
    exact hread

theorem length_of_encode {engine : Engine α} {layout : Layout} (hlayout : layout.Regular)
    {frames : Nat} {encoder : Encoder α} {pcm : Array Int16} {done : Encoded α}
    (h : encode engine layout frames encoder pcm = .ok done) :
    (done.bytes.length : Int) = layout.totalBytes := by
  obtain ⟨_, _, hlow, _⟩ := encode_eq_ok h
  obtain ⟨_, _, _, hsize, _⟩ := encode_bits hlayout h
  rw [hsize, Int.toNat_of_nonneg hlow]

theorem read_encode {engine : Engine α} {layout : Layout} (hlayout : layout.Regular)
    {frames : Nat} {encoder : Encoder α} {pcm : Array Int16} {done : Encoded α}
    (h : encode engine layout frames encoder pcm = .ok done) :
    read layout done.bytes = .ok done.content := by
  obtain ⟨bits, _, _, _, hbits, hread⟩ := encode_bits hlayout h
  have hsees := sees_start done.bytes
  rw [hbits] at hsees
  rw [read_eq_map, hread _ _ hsees]
  rfl

/-- The number of bits that a frame is said to have is the number that was written. -/
theorem totalBits_of_encode {engine : Engine α} {layout : Layout} (hlayout : layout.Regular)
    {frames : Nat} {encoder : Encoder α} {pcm : Array Int16} {done : Encoded α}
    (h : encode engine layout frames encoder pcm = .ok done) :
    layout.totalBits = layout.contentBits + layout.spare ∧
      (done.bytes.length : Int) = (layout.totalBits + 7) / 8 := by
  obtain ⟨walked, writer, hlow, hhigh, _⟩ := encode_eq_ok h
  obtain ⟨_, _, hfit, _⟩ := encode_bits hlayout h
  have hpos := hlayout.subframes_pos
  have hspare := hlayout.spare
  have hsum : layout.subframes + layout.spare + (layout.lines.widths.sum : Nat) +
      ((layout.schemes.map UpdateScheme.bits).sum : Nat) = layout.contentBits + layout.spare := by
    rw [Layout.contentBits]
    omega
  have htotal : layout.totalBits = layout.contentBits + layout.spare := by
    rw [Layout.totalBits, sumBits_eq_sum, sumBits_eq_sum, hsum]
    exact wrap_of_bounds _ (by omega) (by omega)
  refine ⟨htotal, ?_⟩
  rw [length_of_encode hlayout h, Layout.totalBytes,
    wrap_of_bounds _ (by omega) (by omega), Int.tdiv_eq_ediv_of_nonneg (by omega)]

end Frame

end Vocoder
