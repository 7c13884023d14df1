import Vocoder.Proofs.FrameTrace

/-!
The order of the fields of a frame, as its layout fixes it. Writing goes through the subframes and
asks of each whether it carries an update; reading goes through the list of updates and takes the
flags that each is ahead of those known. For both, what is written or read is a list of spans: some
voicing flags and the fields of an update after them. Nothing here asks the layout to be sensible.
-/

namespace Vocoder

/-! ### Spans -/

/-- A stretch of a frame as far as its layout goes: a number of voicing flags, and the scheme of the
update after them. -/
structure Span where
  flags : Nat
  scheme : UpdateScheme
deriving DecidableEq

namespace Span

/-- The field widths of a span, in order. -/
def widths (span : Span) : List Nat := List.replicate span.flags 1 ++ span.scheme.widths

/-- The spans of successive updates, when the flags of the first `known` subframes are there
already. An update that is not ahead of these has no flags. -/
def ofUpdates : (known : Nat) → List (Int × UpdateScheme) → List Span
  | _, [] => []
  | known, (subframe, scheme) :: rest =>
    ⟨(subframe + 1 - known).toNat, scheme⟩ ::
      ofUpdates (known + (subframe + 1 - known).toNat) rest

/-- The number of flags of some spans. -/
def total (spans : List Span) : Nat := (spans.map flags).sum

@[simp] theorem total_nil : total [] = 0 := rfl

@[simp] theorem total_cons (span : Span) (spans : List Span) :
    total (span :: spans) = span.flags + total spans := rfl

theorem total_ofUpdates_cons (known : Nat) (update : Int × UpdateScheme)
    (rest : List (Int × UpdateScheme)) :
    total (ofUpdates known (update :: rest)) = (update.1 + 1 - known).toNat +
      total (ofUpdates (known + (update.1 + 1 - known).toNat) rest) := rfl

theorem total_append (front back : List Span) :
    total (front ++ back) = total front + total back := by
  simp [total]

theorem ofUpdates_append (known : Nat) (front back : List (Int × UpdateScheme)) :
    ofUpdates known (front ++ back) =
      ofUpdates known front ++ ofUpdates (known + total (ofUpdates known front)) back := by
  induction front generalizing known with
  | nil => rfl
  | cons update front ih =>
      simp only [List.cons_append, ofUpdates, ih, total_cons, Nat.add_assoc]

theorem schemes_ofUpdates (known : Nat) (updates : List (Int × UpdateScheme)) :
    (ofUpdates known updates).map scheme = updates.map Prod.snd := by
  induction updates generalizing known with
  | nil => rfl
  | cons update updates ih => simp only [ofUpdates, List.map_cons, ih]

theorem sum_widths (spans : List Span) :
    (spans.flatMap widths).sum = total spans + ((spans.map scheme).map UpdateScheme.bits).sum := by
  induction spans with
  | nil => rfl
  | cons span spans ih =>
      have hscheme : span.scheme.widths.sum = span.scheme.bits := rfl
      simp only [List.flatMap_cons, List.sum_append, ih, widths, hscheme, total_cons,
        List.map_cons, List.sum_cons, List.sum_replicate_nat]
      omega

/-- Every update lies inside the flags of the spans. -/
theorem lt_total_of_mem (known : Nat) {updates : List (Int × UpdateScheme)}
    {update : Int × UpdateScheme} (h : update ∈ updates) :
    update.1 < known + total (ofUpdates known updates) := by
  induction updates generalizing known with
  | nil => cases h
  | cons first rest ih =>
      rw [total_ofUpdates_cons]
      rcases List.mem_cons.mp h with rfl | hmem
      · omega
      · have := ih (known + (first.1 + 1 - known).toNat) hmem
        omega

/-- The spans have no flags beyond the last subframe that carries an update. -/
theorem total_le {known count : Nat} {updates : List (Int × UpdateScheme)} (hknown : known ≤ count)
    (h : ∀ update ∈ updates, update.1 < count) :
    known + total (ofUpdates known updates) ≤ count := by
  induction updates generalizing known with
  | nil => exact hknown
  | cons first rest ih =>
      obtain ⟨hfirst, hrest⟩ := List.forall_mem_cons.mp h
      have := @ih (known + (first.1 + 1 - known).toNat) (by omega) hrest
      rw [total_ofUpdates_cons]
      omega

/-- Every span has a flag exactly if the updates ascend from the first subframe not known. -/
theorem flags_pos_iff {known : Nat} {updates : List (Int × UpdateScheme)} :
    (∀ span ∈ ofUpdates known updates, 1 ≤ span.flags) ↔
      updates.Pairwise (fun left right => left.1 < right.1) ∧
        ∀ update ∈ updates, known ≤ update.1 := by
  induction updates generalizing known with
  | nil => simp [ofUpdates]
  | cons first rest ih =>
      rw [ofUpdates, List.forall_mem_cons, ih, List.pairwise_cons, List.forall_mem_cons]
      constructor
      · rintro ⟨hflags, hascending, hrest⟩
        dsimp only at hflags
        refine ⟨⟨fun update hmem => ?_, hascending⟩, by omega, fun update hmem => ?_⟩ <;>
          · have := hrest update hmem
            omega
      · rintro ⟨⟨hfirst, hascending⟩, hknown, hrest⟩
        refine ⟨by dsimp only; omega, hascending, fun update hmem => ?_⟩
        have := hfirst update hmem
        omega

/-- The widths tell where a span starts, since no field of an update has the width of a flag. -/
theorem append_widths_inj {left right : Span} {rest rest' : List Nat}
    (h : left.widths ++ rest = right.widths ++ rest') : left = right ∧ rest = rest' := by
  obtain ⟨m, scheme⟩ := left
  obtain ⟨n, scheme'⟩ := right
  induction m generalizing n with
  | zero =>
      cases n with
      | zero => cases scheme <;> cases scheme' <;> simp_all [widths, UpdateScheme.widths,
          pitchBits, deltaBits, energyBits, jointBits]
      | succ n => cases scheme <;> simp [widths, UpdateScheme.widths, List.replicate_succ,
          pitchBits, deltaBits, jointBits] at h
  | succ m ih =>
      cases n with
      | zero => cases scheme' <;> simp [widths, UpdateScheme.widths, List.replicate_succ,
          pitchBits, deltaBits, jointBits] at h
      | succ n =>
          simp only [widths, List.replicate_succ, List.cons_append, List.cons.injEq,
            true_and] at h
          obtain ⟨hspan, hrest⟩ := ih n h
          simp only [Span.mk.injEq] at hspan ⊢
          exact ⟨⟨by omega, hspan.2⟩, hrest⟩

theorem flatMap_widths_injective {left right : List Span}
    (h : left.flatMap widths = right.flatMap widths) : left = right := by
  have hne (span : Span) : span.widths ≠ [] := by
    cases hscheme : span.scheme <;> simp [widths, hscheme, UpdateScheme.widths]
  induction left generalizing right with
  | nil =>
      cases right with
      | nil => rfl
      | cons span right =>
          exact absurd (List.append_eq_nil_iff.mp h.symm).1 (hne span)
  | cons span left ih =>
      cases right with
      | nil => exact absurd (List.append_eq_nil_iff.mp h).1 (hne span)
      | cons span' right =>
          obtain ⟨rfl, hrest⟩ := append_widths_inj h
          rw [ih hrest]

end Span

/-! ### What the writer and the reader go through -/

namespace Layout

/-- The scheme of the update that a subframe carries, if any. -/
def schemeAt? (layout : Layout) (subframe : Int) : Option UpdateScheme :=
  layout.updateAt? subframe >>= fun u => layout.schemes[u]?

/-- The updates that the first `count` subframes carry. -/
def carried (layout : Layout) (count : Nat) : List (Int × UpdateScheme) :=
  (List.range count).filterMap fun (i : Nat) =>
    (layout.schemeAt? i).map fun scheme => ((i : Int), scheme)

/-- The widths of the fields that writing a frame packs, in order. -/
def packedWidths (layout : Layout) : List Nat :=
  (Span.ofUpdates 0 (layout.carried layout.subframes.toNat)).flatMap Span.widths ++
    layout.lines.widths ++ [layout.spare.toNat]

/-- The widths of the fields that reading a frame unpacks, in order. -/
def unpackedWidths (layout : Layout) : List Nat :=
  (Span.ofUpdates 0 (layout.updates.zip layout.schemes)).flatMap Span.widths ++
    layout.lines.widths

theorem carried_succ (layout : Layout) (count : Nat) :
    layout.carried (count + 1) = layout.carried count ++
      ((layout.schemeAt? count).map fun scheme => ((count : Int), scheme)).toList := by
  rw [carried, List.range_succ, List.filterMap_append]
  cases h : layout.schemeAt? count <;> simp [carried, h]

theorem mem_carried {layout : Layout} {count : Nat} {update : Int × UpdateScheme} :
    update ∈ layout.carried count ↔
      ∃ i : Nat, i < count ∧ update.1 = i ∧ layout.schemeAt? i = some update.2 := by
  obtain ⟨subframe, scheme⟩ := update
  simp only [carried, List.mem_filterMap, List.mem_range, Option.map_eq_some_iff, Prod.mk.injEq]
  constructor
  · rintro ⟨i, hi, _, hscheme, rfl, rfl⟩
    exact ⟨i, hi, rfl, hscheme⟩
  · rintro ⟨i, hi, rfl, hscheme⟩
    exact ⟨i, hi, scheme, hscheme, rfl, rfl⟩

theorem carried_ascending (layout : Layout) (count : Nat) :
    (layout.carried count).Pairwise fun left right => left.1 < right.1 := by
  induction count with
  | zero => exact List.Pairwise.nil
  | succ count ih =>
      rw [carried_succ, List.pairwise_append]
      refine ⟨ih, ?_, fun left hleft right hright => ?_⟩
      · cases layout.schemeAt? count <;> simp
      · obtain ⟨i, hi, hleft, _⟩ := mem_carried.mp hleft
        rw [Option.mem_toList, Option.map_eq_some_iff] at hright
        obtain ⟨scheme, _, rfl⟩ := hright
        rw [hleft]
        exact Int.ofNat_lt.mpr hi

end Layout

namespace Frame

/-- The span of a stretch. -/
def Stretch.span (stretch : Stretch) : Span := ⟨stretch.flags.length, stretch.code.scheme⟩

theorem widths_code (code : UpdateCode) : code.fields.map BitField.width = code.scheme.widths := by
  cases code <;> rfl

theorem Stretch.widths_fields (stretch : Stretch) :
    stretch.fields.map BitField.width = stretch.span.widths := by
  simp [Stretch.fields, Span.widths, Stretch.span, widths_code, Function.comp_def, voicingField]

theorem widths_stretches (stretches : List Stretch) :
    (stretches.flatMap Stretch.fields).map BitField.width =
      (stretches.map Stretch.span).flatMap Span.widths := by
  rw [List.map_flatMap, List.flatMap_map]
  simp only [Stretch.widths_fields]

theorem widths_lineFields {scheme : LineScheme} {indexes : List Int}
    (h : indexes.length = scheme.widths.length) :
    (lineFields scheme indexes).map BitField.width = scheme.widths ∧
      (lineFields scheme indexes).map BitField.value = indexes := by
  have hzip : lineFields scheme indexes =
      (indexes.zip scheme.widths).map fun pair => ⟨pair.1, pair.2, .gray⟩ := by
    rw [lineFields, List.zip, List.map_zipWith]
  rw [hzip, List.map_map, List.map_map]
  exact ⟨List.map_snd_zip h.ge, List.map_fst_zip h.le⟩

/-! ### The writer -/

section Writing

variable {α : Type} [Analytic α]

/-- The fields that encoding a frame packs. -/
def packed (engine : Engine α) (layout : Layout) (frames : Nat) (encoder : Encoder α)
    (pcm : Array Int16) : Except Fault (List BitField) := do
  let walked ← walk engine layout frames encoder pcm layout.subframes.toNat
  let (indexes, _) ← layout.lines.encode walked.lines
  return walked.fields ++ lineFields layout.lines indexes ++ [⟨0, layout.spare.toNat, .gray⟩]

theorem packed_of_encode {engine : Engine α} {layout : Layout} {frames : Nat}
    {encoder : Encoder α} {pcm : Array Int16} {done : Encoded α}
    (h : encode engine layout frames encoder pcm = .ok done) :
    ∃ fields writer, packed engine layout frames encoder pcm = .ok fields ∧
      BitWriter.writeAll { size := layout.totalBytes.toNat } fields = .ok writer ∧
      done.bytes = writer.bytes := by
  obtain ⟨walked, writer, _, _, hwalked, hindexes, hwriter, hbytes, _⟩ := encode_eq_ok h
  refine ⟨_, writer, ?_, hwriter, hbytes⟩
  rw [packed, hwalked]
  simp only [bind, Except.bind, hindexes]
  rfl

/-- A walk through the first `i` subframes has written the spans of the updates they carry. -/
structure Walk.Spans (layout : Layout) (i : Nat) (walk : Walk α) : Prop where
  length : walk.voicing.length = i
  written : walk.written = Span.total (Span.ofUpdates 0 (layout.carried i))
  fields : ∃ stretches : List Stretch, walk.fields = stretches.flatMap Stretch.fields ∧
    stretches.map Stretch.span = Span.ofUpdates 0 (layout.carried i)

theorem Walk.Spans.step {engine : Engine α} {layout : Layout} {frames i : Nat}
    {pcm : Array Int16} {walk next : Walk α} (h : walk.Spans layout i)
    (hstep : walk.step engine layout frames pcm i = .ok next) : next.Spans layout (i + 1) := by
  obtain ⟨middle, hmiddle, hstep⟩ := bind_eq_ok.mp hstep
  obtain ⟨⟨flag, hflag⟩, hwritten, -, hfields, -, -⟩ := Walk.analyse_eq_ok hmiddle
  obtain ⟨stretches, hstretches, hspans⟩ := h.fields
  have hlength : middle.voicing.length = i + 1 := by
    rw [hflag, List.length_append, h.length]
    rfl
  rw [h.written] at hwritten
  rw [hstretches] at hfields
  cases hat : layout.updateAt? i with
  | none =>
      have hcarried : layout.carried (i + 1) = layout.carried i := by
        simp [Layout.carried_succ, Layout.schemeAt?, hat]
      rw [hat] at hstep
      cases hstep
      exact ⟨hlength, by rw [hcarried, hwritten], stretches, hfields, by rw [hcarried, hspans]⟩
  | some u =>
      rw [hat] at hstep
      obtain ⟨scheme, energy, code, reference, hscheme, hcode, hvoicing', hwritten', -, hfields',
        -, -⟩ := Walk.update_eq_ok hstep
      have hcarried : layout.carried (i + 1) = layout.carried i ++ [((i : Int), scheme)] := by
        simp [Layout.carried_succ, Layout.schemeAt?, hat, hscheme]
      -- The flags written so far end before this subframe, so the new stretch has at least its own.
      have hle : Span.total (Span.ofUpdates 0 (layout.carried i)) ≤ i := by
        have hall : ∀ update ∈ layout.carried i, update.1 < i := by
          intro update hmem
          obtain ⟨k, hk, hupdate, _⟩ := Layout.mem_carried.mp hmem
          omega
        have := Span.total_le (Nat.zero_le i) hall
        omega
      have hspan : Stretch.span ⟨middle.voicing.drop middle.written, code⟩ =
          ⟨(i + 1 - (0 + Span.total (Span.ofUpdates 0 (layout.carried i)) : Nat) : Int).toNat,
            scheme⟩ := by
        rw [Stretch.span, List.length_drop, hlength, hwritten, (UpdateCode.encode_inRange hcode).1]
        congr 1
        omega
      rw [← hwritten] at hspan
      refine ⟨by rw [hvoicing', hlength], ?_,
        stretches ++ [⟨middle.voicing.drop middle.written, code⟩], ?_, ?_⟩
      · rw [hwritten', hcarried, Span.ofUpdates_append, Span.total_append, hwritten]
        simp only [Span.ofUpdates, Span.total_cons, Span.total_nil]
        omega
      · rw [hfields', hfields]
        simp [Stretch.fields]
      · rw [List.map_append, hspans, hcarried, Span.ofUpdates_append, List.map_singleton, hspan,
          hwritten]
        rfl

theorem walk_spans {engine : Engine α} {layout : Layout} {frames : Nat} {encoder : Encoder α}
    {pcm : Array Int16} {count : Nat} {walked : Walk α}
    (h : walk engine layout frames encoder pcm count = .ok walked) :
    walked.Spans layout count := by
  apply foldlM_range_induction (P := fun i walk => walk.Spans layout i) h
  · exact ⟨rfl, rfl, [], rfl, rfl⟩
  · intro i walk next _ hwalk hstep
    exact hwalk.step hstep

/-- Encoding packs fields of the widths that the layout gives, whatever the samples are. -/
theorem widths_of_packed {engine : Engine α} {layout : Layout} {frames : Nat}
    {encoder : Encoder α} {pcm : Array Int16} {fields : List BitField}
    (h : packed engine layout frames encoder pcm = .ok fields) :
    fields.map BitField.width = layout.packedWidths := by
  obtain ⟨walked, hwalked, h⟩ := bind_eq_ok.mp h
  obtain ⟨⟨indexes, lineError⟩, hindexes, h⟩ := bind_eq_ok.mp h
  cases h
  obtain ⟨stretches, hfields, hspans⟩ := (walk_spans hwalked).fields
  have hlines := widths_lineFields (LineScheme.encode_fits hindexes).length_eq
  rw [List.map_append, List.map_append, hfields, widths_stretches, hspans, hlines.1,
    Layout.packedWidths]
  rfl

end Writing

end Frame

/-! ### The reader -/

namespace BitReader

/-- A reader takes fields: the numbers it makes of the bits before it are their values. -/
def Unpacks (reader : BitReader) (fields : List BitField) (next : BitReader) : Prop :=
  reader.readAll (fields.map BitField.width) = .ok (fields.map BitField.value, next)

theorem Unpacks.nil (reader : BitReader) : Unpacks reader [] reader := rfl

theorem Unpacks.cons {reader middle next : BitReader} {field : BitField} {fields : List BitField}
    (hfield : reader.read field.width .gray = .ok (field.value, middle))
    (hfields : Unpacks middle fields next) : Unpacks reader (field :: fields) next := by
  rw [Unpacks, readAll] at *
  simp only [List.map_cons, readFields, hfield, bind, Except.bind, hfields]
  rfl

theorem Unpacks.append {reader middle next : BitReader} {front back : List BitField}
    (hfront : Unpacks reader front middle) (hback : Unpacks middle back next) :
    Unpacks reader (front ++ back) next := by
  induction front generalizing reader with
  | nil =>
      cases hfront
      exact hback
  | cons field front ih =>
      obtain ⟨⟨value, after⟩, hfield, hrest⟩ := bind_eq_ok.mp hfront
      obtain ⟨⟨values, last⟩, hvalues, hrest⟩ := bind_eq_ok.mp hrest
      cases hrest
      exact Unpacks.cons hfield (ih hvalues)

theorem length_of_readAll {reader next : BitReader} {widths : List Nat} {values : List Int}
    (h : reader.readAll widths = .ok (values, next)) : values.length = widths.length := by
  induction widths generalizing reader values with
  | nil =>
      cases h
      rfl
  | cons width widths ih =>
      obtain ⟨⟨value, after⟩, _, hrest⟩ := bind_eq_ok.mp h
      obtain ⟨⟨values, last⟩, hvalues, hrest⟩ := bind_eq_ok.mp hrest
      cases hrest
      rw [List.length_cons, List.length_cons, ih hvalues]

/-- One bit is read as zero or one. -/
theorem bit_of_read {reader next : BitReader} {value : Int}
    (h : reader.read 1 .gray = .ok (value, next)) : value = (decide (value = 1)).toNat := by
  by_cases hinside : reader.position + 1 ≤ 8 * reader.bytes.length
  · rw [read_eq_ok hinside, Except.ok.injEq, Prod.mk.injEq] at h
    have hlt := Bits.toNat_lt (((Bits.ofBytes reader.bytes).drop reader.position).take 1)
    have hlength : (((Bits.ofBytes reader.bytes).drop reader.position).take 1).length ≤ 1 := by
      rw [List.length_take]
      exact Nat.min_le_left _ _
    rw [← h.1, Bits.field]
    generalize Bits.toNat _ = n at hlt ⊢
    have hn : n < 2 := lt_of_lt_of_le hlt (Nat.pow_le_pow_right (by decide) hlength)
    rcases Nat.lt_or_eq_of_le (Nat.le_of_lt_succ hn) with hzero | rfl
    · rw [Nat.lt_one_iff.mp hzero]
      rfl
    · rfl
  · rw [read_eq_error (by decide) (by omega)] at h
    cases h

end BitReader

namespace Frame

open BitReader

theorem unpacks_voicing {count : Nat} {reader next : BitReader} {flags : List Bool}
    (h : readVoicing count reader = .ok (flags, next)) :
    flags.length = count ∧ Unpacks reader (flags.map voicingField) next := by
  induction count generalizing reader flags with
  | zero =>
      cases h
      exact ⟨rfl, Unpacks.nil _⟩
  | succ count ih =>
      obtain ⟨⟨value, after⟩, hvalue, h⟩ := bind_eq_ok.mp h
      obtain ⟨⟨rest, last⟩, hrest, h⟩ := bind_eq_ok.mp h
      cases h
      obtain ⟨hlength, hunpacks⟩ := ih hrest
      refine ⟨congrArg (· + 1) hlength, Unpacks.cons ?_ hunpacks⟩
      rw [voicingField, ← bit_of_read hvalue]
      exact hvalue

theorem unpacks_code {scheme : UpdateScheme} {reader next : BitReader} {code : UpdateCode}
    (h : UpdateCode.read scheme reader = .ok (code, next)) :
    code.scheme = scheme ∧ Unpacks reader code.fields next := by
  cases scheme with
  | scalar | delta =>
      obtain ⟨⟨first, middle⟩, hfirst, h⟩ := bind_eq_ok.mp h
      obtain ⟨⟨energy, last⟩, henergy, h⟩ := bind_eq_ok.mp h
      cases h
      exact ⟨rfl, Unpacks.cons hfirst (Unpacks.cons henergy (Unpacks.nil _))⟩
  | joint =>
      obtain ⟨⟨index, last⟩, hindex, h⟩ := bind_eq_ok.mp h
      cases h
      exact ⟨rfl, Unpacks.cons hindex (Unpacks.nil _)⟩

theorem unpacks_updates {subframes : Int} {updates : List Int} {schemes : List UpdateScheme}
    {voicing voicing' : List Bool} {codes : List UpdateCode} {reader next : BitReader}
    (h : readUpdates subframes updates schemes voicing reader = .ok ((voicing', codes), next)) :
    ∃ stretches : List Stretch, voicing' = voicing ++ stretches.flatMap Stretch.flags ∧
      codes = stretches.map Stretch.code ∧
      stretches.map Stretch.span = Span.ofUpdates voicing.length (updates.zip schemes) ∧
      Unpacks reader (stretches.flatMap Stretch.fields) next := by
  induction updates generalizing schemes voicing codes reader with
  | nil =>
      cases h
      exact ⟨[], by simp, rfl, rfl, Unpacks.nil _⟩
  | cons subframe updates ih =>
      cases schemes with
      | nil => cases h
      | cons scheme schemes =>
          rw [readUpdates] at h
          split at h
          · cases h
          · obtain ⟨⟨flags, afterFlags⟩, hflags, h⟩ := bind_eq_ok.mp h
            obtain ⟨⟨code, afterCode⟩, hcode, h⟩ := bind_eq_ok.mp h
            obtain ⟨⟨⟨known, rest⟩, last⟩, hrest, h⟩ := bind_eq_ok.mp h
            cases h
            obtain ⟨hlength, hflags⟩ := unpacks_voicing hflags
            obtain ⟨hscheme, hcode⟩ := unpacks_code hcode
            obtain ⟨stretches, rfl, rfl, hspans, hstretches⟩ := ih hrest
            refine ⟨⟨flags, code⟩ :: stretches, by simp, rfl, ?_, ?_⟩
            · rw [List.map_cons, hspans, List.zip_cons_cons, Span.ofUpdates, List.length_append,
                hlength, Stretch.span, hlength, hscheme]
            · exact (hflags.append hcode).append hstretches

theorem schemes_of_read {layout : Layout} (hlayout : layout.Regular) {bytes : List UInt8}
    {content : Content} (h : read layout bytes = .ok content) :
    content.updates.map UpdateCode.scheme = layout.schemes := by
  obtain ⟨⟨⟨voicing, codes⟩, middle⟩, hupdates, h⟩ := bind_eq_ok.mp h
  obtain ⟨⟨lines, next⟩, _, h⟩ := bind_eq_ok.mp h
  cases h
  obtain ⟨stretches, _, rfl, hspans, _⟩ := unpacks_updates hupdates
  have hschemes := congrArg (List.map Span.scheme) hspans
  rw [Span.schemes_ofUpdates, List.map_snd_zip hlayout.schemes.le, List.map_map] at hschemes
  rw [List.map_map, ← hschemes]
  rfl

/-- Fields that spell a content: stretches of flags and updates, and then the lines. -/
def Content.SpelledBy (layout : Layout) (content : Content) (fields : List BitField) : Prop :=
  ∃ stretches : List Stretch, content.voicing = stretches.flatMap Stretch.flags ∧
    content.updates = stretches.map Stretch.code ∧
    fields = stretches.flatMap Stretch.fields ++ lineFields layout.lines content.lines

/-- Reading unpacks fields of the widths that the layout gives, whatever the bits are. -/
theorem unpacks_of_read {layout : Layout} {bytes : List UInt8} {content : Content}
    (h : read layout bytes = .ok content) :
    ∃ fields next, content.SpelledBy layout fields ∧ Unpacks { bytes } fields next ∧
      fields.map BitField.width = layout.unpackedWidths := by
  obtain ⟨⟨⟨voicing, codes⟩, middle⟩, hupdates, h⟩ := bind_eq_ok.mp h
  obtain ⟨⟨lines, next⟩, hlines, h⟩ := bind_eq_ok.mp h
  cases h
  obtain ⟨stretches, rfl, rfl, hspans, hunpacks⟩ := unpacks_updates hupdates
  obtain ⟨hwidths, hvalues⟩ := widths_lineFields (length_of_readAll hlines)
  refine ⟨_, next, ⟨stretches, rfl, rfl, rfl⟩, hunpacks.append ?_, ?_⟩
  · rw [Unpacks, hwidths, hvalues]
    exact hlines
  · rw [List.map_append, widths_stretches, hspans, hwidths]
    rfl

end Frame

end Vocoder
