import Vocoder.Proofs.FieldCodec
import Vocoder.Proofs.IndexRange
import Vocoder.Mode

/-!
Reading of a frame. A frame is a list of stretches, each of voicing flags and the update that ends
it, followed by the lines; reading goes through the updates and takes the flags before each. So it
takes a fixed number of bits, whatever they are, and never looks at those that follow.
-/

namespace Vocoder

/-! ### Actions of a reader -/

namespace BitReader

variable {β γ : Type}

/-- A reader that has gone past some bits. -/
def skip (reader : BitReader) (count : Nat) : BitReader :=
  { reader with position := reader.position + count }

theorem skip_skip (reader : BitReader) (m n : Nat) :
    (reader.skip m).skip n = reader.skip (m + n) := by
  simp [skip, Nat.add_assoc]

theorem Sees.skip {reader : BitReader} {front rest : List Bool} (h : Sees reader (front ++ rest)) :
    Sees (reader.skip front.length) rest :=
  (h.read .natural).2

/-- An action of a reader makes a value of the bits before it. -/
def Reads (act : BitReader → Except Fault (β × BitReader)) (bits : List Bool) (x : β) : Prop :=
  ∀ reader rest, Sees reader (bits ++ rest) → act reader = .ok (x, reader.skip bits.length)

theorem Reads.pure (x : β) : Reads (fun reader => .ok (x, reader)) [] x :=
  fun _ _ _ => rfl

theorem Reads.bind {act : BitReader → Except Fault (β × BitReader)}
    {next : β × BitReader → Except Fault (γ × BitReader)} {front back : List Bool} {x : β} {y : γ}
    (hact : Reads act front x) (hnext : Reads (fun reader => next (x, reader)) back y) :
    Reads (fun reader => act reader >>= next) (front ++ back) y := by
  intro reader rest h
  rw [List.append_assoc] at h
  have hback := hnext _ _ h.skip
  rw [skip_skip] at hback
  simp only [hact reader _ h, List.length_append]
  exact hback

theorem reads_field (field : BitField) :
    Reads (fun reader => reader.read field.width field.coding) field.bits field.decoded := by
  intro reader rest h
  have hread := (h.read field.coding).1
  rw [field.length_bits, field.toNat_bits_mod] at hread
  rw [field.length_bits]
  exact hread

/-- An action of a reader takes a number of bits: it makes a value with a property of any such
bits, and is a fault when there are fewer. -/
structure Takes (act : BitReader → Except Fault (β × BitReader)) (count : Nat) (P : β → Prop) :
    Prop where
  reads : ∀ bits : List Bool, bits.length = count → ∃ x, P x ∧ Reads act bits x
  short : ∀ reader rest, Sees reader rest → rest.length < count → act reader = .error .outOfRange

theorem Takes.pure {x : β} {P : β → Prop} (h : P x) :
    Takes (fun reader => .ok (x, reader)) 0 P where
  reads bits hlength := by
    rw [List.eq_nil_of_length_eq_zero hlength]
    exact ⟨x, h, Reads.pure x⟩
  short _ _ _ hrest := absurd hrest (Nat.not_lt_zero _)

theorem Takes.of_eq {act : BitReader → Except Fault (β × BitReader)} {m n : Nat} {P : β → Prop}
    (h : m = n) (hact : Takes act m P) : Takes act n P :=
  h ▸ hact

theorem Takes.bind {act : BitReader → Except Fault (β × BitReader)}
    {next : β × BitReader → Except Fault (γ × BitReader)} {m n : Nat} {P : β → Prop} {Q : γ → Prop}
    (hact : Takes act m P) (hnext : ∀ x, P x → Takes (fun reader => next (x, reader)) n Q) :
    Takes (fun reader => act reader >>= next) (m + n) Q where
  reads bits hlength := by
    obtain ⟨x, hx, hfront⟩ := hact.reads (bits.take m) (by rw [List.length_take]; omega)
    obtain ⟨y, hy, hback⟩ := (hnext x hx).reads (bits.drop m) (by rw [List.length_drop]; omega)
    refine ⟨y, hy, ?_⟩
    rw [← List.take_append_drop m bits]
    exact hfront.bind hback
  short reader rest hsees hrest := by
    by_cases hshort : rest.length < m
    · simp only [hact.short reader rest hsees hshort]
      rfl
    · have hlength : (rest.take m).length = m := by
        rw [List.length_take]
        omega
      obtain ⟨x, hx, hfront⟩ := hact.reads (rest.take m) hlength
      rw [← List.take_append_drop m rest] at hsees
      simp only [hfront _ _ hsees]
      exact (hnext x hx).short _ _ hsees.skip (by rw [List.length_drop]; omega)

theorem takes_read (width : Nat) (coding : Coding) :
    Takes (fun reader => reader.read width coding) width fun _ => True where
  reads bits hlength := by
    subst hlength
    exact ⟨_, trivial, fun reader rest hsees => (hsees.read coding).1⟩
  short reader rest hsees hrest := by
    have hlength := hsees.length_eq
    exact read_eq_error (by omega) (by omega) coding

/-- An action that takes bits cannot tell two frames apart that agree on them. -/
theorem Takes.congr {act : BitReader → Except Fault (β × BitReader)} {count : Nat} {P : β → Prop}
    (hact : Takes act count P) {left right : List UInt8} (hlength : left.length = right.length)
    (hbits : (Bits.ofBytes left).take count = (Bits.ofBytes right).take count) :
    (act { bytes := left }).map Prod.fst = (act { bytes := right }).map Prod.fst := by
  have hleft := sees_start left
  have hright := sees_start right
  by_cases hshort : (Bits.ofBytes left).length < count
  · rw [hact.short _ _ hleft hshort,
      hact.short _ _ hright (by rwa [Bits.length_ofBytes, ← hlength, ← Bits.length_ofBytes])]
  · obtain ⟨x, _, hreads⟩ := hact.reads ((Bits.ofBytes left).take count)
      (by rw [List.length_take]; omega)
    rw [← List.take_append_drop count (Bits.ofBytes left)] at hleft
    rw [← List.take_append_drop count (Bits.ofBytes right), ← hbits] at hright
    rw [hreads _ _ hleft, hreads _ _ hright]
    rfl

end BitReader

/-! ### Parts of a frame -/

open BitReader

theorem BitField.decoded_of_fits {index : Int} {width : Nat} (hwidth : width ≤ 16)
    (h : Fits index width) : BitField.decoded ⟨index, width, .gray⟩ = index := by
  have hpow : (2 : Int) ^ width ≤ 2 ^ 16 := by
    exact_mod_cast Nat.pow_le_pow_right (show 0 < 2 by decide) hwidth
  have hreadable : BitField.Readable ⟨index, width, .gray⟩ :=
    ⟨by have := h.1; dsimp only; omega, by have := h.2; dsimp only; omega, fun _ => hwidth⟩
  rw [decoded_eq_kept hreadable, kept, if_pos (show width < 64 by omega)]
  exact Int.emod_eq_of_lt h.1 h.2

theorem reads_index {index : Int} {width : Nat} (hwidth : width ≤ 16) (h : Fits index width) :
    Reads (fun reader => reader.read width .gray) (BitField.bits ⟨index, width, .gray⟩) index := by
  have hread := reads_field ⟨index, width, .gray⟩
  rwa [BitField.decoded_of_fits hwidth h] at hread

namespace UpdateCode

/-- The bits of an update. -/
def bits (code : UpdateCode) : List Bool := code.fields.flatMap BitField.bits

theorem reads_read {code : UpdateCode} (h : code.InRange) :
    Reads (UpdateCode.read code.scheme) code.bits code := by
  cases code with
  | scalar pitch energy =>
      rw [bits, fields, List.flatMap_cons, List.flatMap_cons, List.flatMap_nil]
      refine (reads_index (by decide) h.1).bind ?_
      refine (reads_index (by decide) h.2).bind ?_
      exact Reads.pure _
  | delta change energy =>
      rw [bits, fields, List.flatMap_cons, List.flatMap_cons, List.flatMap_nil]
      refine (reads_index (by decide) h.1).bind ?_
      refine (reads_index (by decide) h.2).bind ?_
      exact Reads.pure _
  | joint index =>
      rw [bits, fields, List.flatMap_cons, List.flatMap_nil]
      refine (reads_index (by decide) h).bind ?_
      exact Reads.pure _

theorem takes_read (scheme : UpdateScheme) :
    Takes (UpdateCode.read scheme) scheme.bits fun _ => True := by
  cases scheme with
  | scalar =>
      refine (BitReader.takes_read pitchBits .gray).bind fun _ _ => ?_
      refine (BitReader.takes_read energyBits .gray).bind fun _ _ => ?_
      exact Takes.pure trivial
  | delta =>
      refine (BitReader.takes_read deltaBits .gray).bind fun _ _ => ?_
      refine (BitReader.takes_read energyBits .gray).bind fun _ _ => ?_
      exact Takes.pure trivial
  | joint =>
      refine (BitReader.takes_read jointBits .gray).bind fun _ _ => ?_
      exact Takes.pure trivial

end UpdateCode

namespace Frame

theorem reads_voicing (flags : List Bool) :
    Reads (readVoicing flags.length) ((flags.map voicingField).flatMap BitField.bits) flags := by
  induction flags with
  | nil => exact Reads.pure _
  | cons flag flags ih =>
      have hflag : decide ((flag.toNat : Int) = 1) = flag := by cases flag <;> rfl
      have hread : Reads (fun reader => reader.read 1 .gray) (voicingField flag).bits flag.toNat :=
        reads_index (by decide) (by cases flag <;> exact ⟨by decide, by decide⟩)
      rw [List.map_cons, List.flatMap_cons]
      refine hread.bind ?_
      rw [← List.append_nil (List.flatMap _ _)]
      refine ih.bind ?_
      rw [hflag]
      exact Reads.pure _

theorem takes_voicing (count : Nat) :
    Takes (readVoicing count) count fun flags => flags.length = count := by
  induction count with
  | zero => exact Takes.pure rfl
  | succ count ih =>
      refine Takes.of_eq (show 1 + (count + 0) = count + 1 by omega) ?_
      refine (BitReader.takes_read 1 .gray).bind fun _ _ => ?_
      refine ih.bind fun flags hflags => ?_
      exact Takes.pure (congrArg (· + 1) hflags)

theorem reads_indexes {indexes : List Int} {widths : List Nat}
    (h : List.Forall₂ Fits indexes widths) (hmax : ∀ width ∈ widths, width ≤ 16) :
    Reads (fun reader => reader.readAll widths)
      ((List.zipWith (fun index width => BitField.mk index width .gray) indexes widths).flatMap
        BitField.bits) indexes := by
  induction h with
  | nil => exact Reads.pure _
  | cons hfits _ ih =>
      rw [List.zipWith_cons_cons, List.flatMap_cons]
      refine (reads_index (hmax _ List.mem_cons_self) hfits).bind ?_
      rw [← List.append_nil (List.flatMap _ _)]
      refine (ih fun width hwidth => hmax width (List.mem_cons_of_mem _ hwidth)).bind ?_
      exact Reads.pure _

theorem takes_readAll (widths : List Nat) :
    Takes (fun reader => reader.readAll widths) widths.sum fun values =>
      values.length = widths.length := by
  induction widths with
  | nil => exact Takes.pure rfl
  | cons width widths ih =>
      refine Takes.of_eq (show width + (widths.sum + 0) = (width :: widths).sum by simp) ?_
      refine (BitReader.takes_read width .gray).bind fun _ _ => ?_
      refine ih.bind fun values hvalues => ?_
      exact Takes.pure (congrArg (· + 1) hvalues)

/-! ### Stretches -/

/-- Part of a frame: some voicing flags, and the update after them. -/
structure Stretch where
  flags : List Bool
  code : UpdateCode

/-- The fields of a stretch. -/
def Stretch.fields (stretch : Stretch) : List BitField :=
  stretch.flags.map voicingField ++ stretch.code.fields

/-- The last subframes of successive stretches, the first of which starts at `first`. -/
def lastSubframes : (first : Nat) → List Stretch → List Int
  | _, [] => []
  | first, stretch :: rest =>
    (first + stretch.flags.length - 1 : Int) :: lastSubframes (first + stretch.flags.length) rest

theorem readUpdates_cons {subframes subframe : Int} (h : subframe < subframes)
    (updates : List Int) (scheme : UpdateScheme) (schemes : List UpdateScheme)
    (voicing : List Bool) :
    readUpdates subframes (subframe :: updates) (scheme :: schemes) voicing = fun reader => do
      let (flags, reader) ← readVoicing (subframe + 1 - voicing.length).toNat reader
      let (code, reader) ← UpdateCode.read scheme reader
      let ((voicing, codes), reader) ←
        readUpdates subframes updates schemes (voicing ++ flags) reader
      return ((voicing, code :: codes), reader) := by
  funext reader
  rw [readUpdates, if_neg (by omega)]

theorem reads_updates (subframes : Int) (stretches : List Stretch) (voicing : List Bool)
    (hcodes : ∀ stretch ∈ stretches, stretch.code.InRange)
    (hend : voicing.length + (stretches.flatMap Stretch.flags).length ≤ subframes) :
    Reads (readUpdates subframes (lastSubframes voicing.length stretches)
        (stretches.map fun stretch => stretch.code.scheme) voicing)
      ((stretches.flatMap Stretch.fields).flatMap BitField.bits)
      (voicing ++ stretches.flatMap Stretch.flags, stretches.map Stretch.code) := by
  induction stretches generalizing voicing with
  | nil =>
      simp only [List.flatMap_nil, List.append_nil]
      exact Reads.pure _
  | cons stretch stretches ih =>
      rw [List.flatMap_cons, List.length_append] at hend
      have hcount : ((voicing.length + stretch.flags.length - 1 : Int) + 1 -
          voicing.length).toNat = stretch.flags.length := by omega
      rw [lastSubframes, List.map_cons, readUpdates_cons (by omega), hcount, List.flatMap_cons,
        Stretch.fields, List.flatMap_append, List.flatMap_append, List.append_assoc]
      refine (reads_voicing stretch.flags).bind ?_
      refine (UpdateCode.reads_read (hcodes stretch List.mem_cons_self)).bind ?_
      have hrest := ih (voicing ++ stretch.flags)
        (fun stretch hmem => hcodes stretch (List.mem_cons_of_mem _ hmem))
        (by rw [List.length_append]; omega)
      rw [List.length_append, List.append_assoc, ← List.flatMap_cons] at hrest
      rw [← List.append_nil (List.flatMap _ _)]
      refine hrest.bind ?_
      exact Reads.pure _

theorem takes_updates {subframes last : Int} (updates : List Int) (schemes : List UpdateScheme)
    (voicing : List Bool) (hascending : updates.Pairwise (· < ·))
    (hstart : ∀ subframe ∈ updates, (voicing.length : Int) ≤ subframe ∧ subframe < subframes)
    (hlast : ((voicing.length - 1 : Int) :: updates).getLast? = some last)
    (hschemes : schemes.length = updates.length) :
    Takes (readUpdates subframes updates schemes voicing)
      ((last + 1 - voicing.length).toNat + (schemes.map UpdateScheme.bits).sum)
      fun found => found.2.length = updates.length := by
  induction updates generalizing schemes voicing with
  | nil =>
      rw [List.getLast?_singleton, Option.some.injEq] at hlast
      rw [List.eq_nil_of_length_eq_zero hschemes, ← hlast, List.map_nil, List.sum_nil,
        show ((voicing.length - 1 : Int) + 1 - voicing.length).toNat + 0 = 0 by omega]
      exact Takes.pure rfl
  | cons subframe updates ih =>
      obtain ⟨scheme, schemes, rfl⟩ := List.exists_cons_of_length_eq_add_one hschemes
      obtain ⟨hfirst, hrest⟩ := List.pairwise_cons.mp hascending
      obtain ⟨hsubframe, hinside⟩ := hstart subframe List.mem_cons_self
      rw [List.getLast?_cons_cons] at hlast
      have hle : subframe ≤ last := by
        rcases List.mem_cons.mp (List.mem_of_getLast? hlast) with rfl | hmem
        · exact Int.le_refl _
        · exact Int.le_of_lt (hfirst last hmem)
      rw [readUpdates_cons hinside, List.map_cons, List.sum_cons]
      refine Takes.of_eq (show (subframe + 1 - voicing.length).toNat + (scheme.bits +
        (((last + 1 - (subframe + 1)).toNat + (schemes.map UpdateScheme.bits).sum) + 0)) = _
        by omega) ?_
      refine (takes_voicing _).bind fun flags hflags => ?_
      have hlength : ((voicing ++ flags).length : Int) = subframe + 1 := by
        rw [List.length_append, hflags]
        omega
      have htail := ih schemes (voicing ++ flags) hrest
        (fun next hnext => by
          have := hfirst next hnext
          have := hstart next (List.mem_cons_of_mem _ hnext)
          omega)
        (by rwa [hlength, Int.add_sub_cancel]) (by simpa using hschemes)
      rw [hlength] at htail
      refine (UpdateCode.takes_read scheme).bind fun _ _ => ?_
      refine htail.bind fun found hfound => ?_
      exact Takes.pure (congrArg (· + 1) hfound)

end Frame

/-! ### Layouts -/

@[simp] theorem sumBits_eq_sum (counts : List Nat) : sumBits counts = counts.sum := rfl

namespace Layout

/-- A layout whose updates ascend to its last subframe, with a scheme for each. -/
structure Regular (layout : Layout) : Prop where
  ascending : layout.updates.Pairwise (· < ·)
  nonneg : ∀ subframe ∈ layout.updates, 0 ≤ subframe
  ends : layout.updates.getLast? = some (layout.subframes - 1)
  schemes : layout.schemes.length = layout.updates.length
  spare : 0 ≤ layout.spare

theorem regular_of_mode (mode : Mode) : mode.layout.Regular := by
  cases mode <;> exact ⟨by decide, by decide, by decide, by decide, by decide⟩

/-- The number of bits of a frame before the spare ones. -/
def contentBits (layout : Layout) : Nat :=
  layout.subframes.toNat + (layout.schemes.map UpdateScheme.bits).sum + layout.lines.widths.sum

theorem Regular.subframes_pos {layout : Layout} (h : layout.Regular) : 1 ≤ layout.subframes := by
  have hlast := h.nonneg _ (List.mem_of_getLast? h.ends)
  omega

theorem Regular.lt_subframes {layout : Layout} (h : layout.Regular) {subframe : Int}
    (hmem : subframe ∈ layout.updates) : subframe < layout.subframes := by
  obtain ⟨before, hbefore⟩ := List.getLast?_eq_some_iff.mp h.ends
  have hascending := h.ascending
  rw [hbefore, List.pairwise_append] at hascending
  rw [hbefore, List.mem_append, List.mem_singleton] at hmem
  rcases hmem with hmem | rfl
  · have := hascending.2.2 subframe hmem _ List.mem_cons_self
    omega
  · omega

theorem isSome_updateAt? (layout : Layout) (i : Int) :
    (layout.updateAt? i).isSome = true ↔ i ∈ layout.updates := by
  rw [updateAt?, List.findIdx?_isSome, List.any_eq_true]
  simp

end Layout

namespace Frame

/-- Reads the fields of a frame and tells where they end. -/
def readContent (layout : Layout) (reader : BitReader) : Except Fault (Content × BitReader) := do
  let ((voicing, updates), reader) ←
    readUpdates layout.subframes layout.updates layout.schemes [] reader
  let (lines, reader) ← reader.readAll layout.lines.widths
  return (⟨voicing, updates, lines⟩, reader)

theorem read_eq_map (layout : Layout) (bytes : List UInt8) :
    read layout bytes = (readContent layout { bytes }).map Prod.fst := by
  rw [read, readContent]
  cases readUpdates layout.subframes layout.updates layout.schemes [] { bytes } with
  | error fault => rfl
  | ok done =>
      simp only [bind, Except.bind]
      cases done.2.readAll layout.lines.widths <;> rfl

/-- What is read has a code for every update and an index for every line. -/
structure Content.Complete (layout : Layout) (content : Content) : Prop where
  updates : content.updates.length = layout.updates.length
  lines : content.lines.length = layout.lines.widths.length

theorem takes_content {layout : Layout} (h : layout.Regular) :
    Takes (readContent layout) layout.contentBits (Content.Complete layout) := by
  have hlast : (((([] : List Bool).length : Int) - 1) :: layout.updates).getLast? =
      some (layout.subframes - 1) := by
    rw [List.getLast?_cons, h.ends]
    rfl
  have hupdates := takes_updates layout.updates layout.schemes [] h.ascending
    (fun subframe hmem => ⟨h.nonneg subframe hmem, h.lt_subframes hmem⟩) hlast h.schemes
  have hcount : (layout.subframes - 1 + 1 - (([] : List Bool).length : Int)).toNat +
      (layout.schemes.map UpdateScheme.bits).sum + (layout.lines.widths.sum + 0) =
        layout.contentBits := by
    simp [Layout.contentBits]
  refine Takes.of_eq hcount (hupdates.bind fun found hfound => ?_)
  refine (takes_readAll layout.lines.widths).bind fun lines hlines => ?_
  exact Takes.pure ⟨hfound, hlines⟩

/-- Frames that agree on the bits of their content have the same content. -/
theorem read_congr {layout : Layout} (h : layout.Regular) {left right : List UInt8}
    (hlength : left.length = right.length)
    (hbits : (Bits.ofBytes left).take layout.contentBits =
      (Bits.ofBytes right).take layout.contentBits) :
    read layout left = read layout right := by
  rw [read_eq_map, read_eq_map]
  exact (takes_content h).congr hlength hbits

/-- A frame that is long enough can be read. -/
theorem yields_read {layout : Layout} (h : layout.Regular) {bytes : List UInt8}
    (hbits : layout.contentBits ≤ 8 * bytes.length) :
    Yields (read layout bytes) (Content.Complete layout) := by
  have hsees := sees_start bytes
  obtain ⟨content, hcomplete, hreads⟩ :=
    (takes_content h).reads ((Bits.ofBytes bytes).take layout.contentBits)
      (by rw [List.length_take, Bits.length_ofBytes]; omega)
  rw [← List.take_append_drop layout.contentBits (Bits.ofBytes bytes)] at hsees
  refine ⟨content, ?_, hcomplete⟩
  rw [read_eq_map, hreads _ _ hsees]
  rfl

theorem widths_le (scheme : LineScheme) : ∀ width ∈ scheme.widths, width ≤ 16 := by
  cases scheme <;> decide

/-- The stretches and the lines of a content make up the bits that are read as it. -/
theorem reads_content {layout : Layout} {stretches : List Stretch} {lines : List Int}
    (hupdates : layout.updates = lastSubframes 0 stretches)
    (hschemes : layout.schemes = stretches.map fun stretch => stretch.code.scheme)
    (hflags : (stretches.flatMap Stretch.flags).length ≤ layout.subframes)
    (hcodes : ∀ stretch ∈ stretches, stretch.code.InRange)
    (hlines : List.Forall₂ Fits lines layout.lines.widths) :
    Reads (readContent layout)
      ((stretches.flatMap Stretch.fields ++ lineFields layout.lines lines).flatMap BitField.bits)
      ⟨stretches.flatMap Stretch.flags, stretches.map Stretch.code, lines⟩ := by
  have hread := reads_updates layout.subframes stretches [] hcodes (by simpa using hflags)
  rw [List.length_nil, ← hupdates, ← hschemes] at hread
  rw [List.flatMap_append]
  refine hread.bind ?_
  rw [← List.append_nil (List.flatMap _ (lineFields _ _))]
  refine (reads_indexes hlines (widths_le layout.lines)).bind ?_
  exact Reads.pure _

end Frame

end Vocoder
