import Vocoder.Proofs.BitView
import Vocoder.Proofs.GrayCode
import Vocoder.Proofs.Outcome

/-!
Writing and reading of bit fields. A frame in progress holds the bits of its fields, one after the
other, followed by zeros: each share that the writer puts into a byte extends that list. The reader
collects its shares to the number that stands at its position. Together they give every field back
whose code word can be decoded.
-/

namespace Vocoder

/-- The bits of a field. -/
def BitField.bits (field : BitField) : List Bool := Bits.ofNat field.width field.word

/-- The width and the code of a field. -/
def BitField.shape (field : BitField) : Nat × Coding := (field.width, field.coding)

namespace Bits

theorem bitAt_set (bytes : List UInt8) (i : Nat) (byte : UInt8) (p : Nat) :
    bitAt (bytes.set i byte) p =
      if p / 8 = i ∧ i < bytes.length then byte.toNat.testBit (7 - p % 8) else bitAt bytes p := by
  unfold bitAt
  rw [List.getD_eq_getElem?_getD, List.getElem?_set]
  by_cases hi : i = p / 8
  · subst hi
    by_cases hlen : p / 8 < bytes.length
    · simp [hlen]
    · simp [hlen, List.getD_eq_getElem?_getD]
  · simp [hi, Ne.symm hi, List.getD_eq_getElem?_getD]

theorem getD_append_ofNat (bits : List Bool) (width n p : Nat) :
    (bits ++ ofNat width n).getD p false =
      if p < bits.length then bits.getD p false
      else decide (p < bits.length + width) && n.testBit (bits.length + width - 1 - p) := by
  rw [List.getD_eq_getElem?_getD]
  by_cases hp : p < bits.length
  · rw [if_pos hp, List.getElem?_append_left hp, List.getD_eq_getElem?_getD]
  · rw [if_neg hp, List.getElem?_append_right (by omega)]
    by_cases hlow : p < bits.length + width
    · rw [getElem?_ofNat (by omega),
        show width - 1 - (p - bits.length) = bits.length + width - 1 - p by omega]
      simp [hlow]
    · rw [List.getElem?_eq_none (by rw [length_ofNat]; omega)]
      simp [hlow]

end Bits

/-! ### Writing -/

namespace BitWriter

/-- A frame holds bits: they stand at its start, and zeros follow. -/
structure Holds (writer : BitWriter) (bits : List Bool) : Prop where
  position : writer.position = bits.length
  fits : bits.length ≤ 8 * writer.size
  content : ∀ p, Bits.bitAt writer.bytes p = bits.getD p false

@[simp] theorem length_bytes (writer : BitWriter) : writer.bytes.length = writer.size := by
  simp [bytes]

theorem holds_start (size : Nat) : Holds { size } [] where
  position := rfl
  fits := by simp
  content p := by
    rw [Bits.bitAt]
    by_cases hp : p / 8 < size <;> simp [bytes, List.getD_eq_getElem?_getD, hp]

/-- A writer after a share of `share` bits has gone into the byte at its position. -/
def fill (writer : BitWriter) (share slice : Nat) (h : writer.position / 8 < writer.size) :
    BitWriter :=
  { writer with
    frame := writer.frame.set (writer.position / 8) (writer.frame[writer.position / 8] |||
      UInt8.ofNat (slice <<< (8 - writer.position % 8 - share)))
    position := writer.position + share }

@[simp] theorem size_fill (writer : BitWriter) (share slice : Nat)
    (h : writer.position / 8 < writer.size) : (writer.fill share slice h).size = writer.size := rfl

theorem position_fill (writer : BitWriter) (share slice : Nat)
    (h : writer.position / 8 < writer.size) :
    (writer.fill share slice h).position = writer.position + share := rfl

theorem bytes_fill (writer : BitWriter) (share slice : Nat)
    (h : writer.position / 8 < writer.size) :
    (writer.fill share slice h).bytes =
      writer.bytes.set (writer.position / 8) (writer.bytes.getD (writer.position / 8) 0 |||
        UInt8.ofNat (slice <<< (8 - writer.position % 8 - share))) := by
  have hbyte : writer.frame[writer.position / 8] = writer.bytes.getD (writer.position / 8) 0 := by
    simp [bytes, List.getD_eq_getElem?_getD, h]
  rw [← hbyte]
  simp only [bytes, fill, Vector.toList_set]

/-- A share that does not reach beyond its byte extends the bits that the frame holds. -/
theorem Holds.fill {writer : BitWriter} {bits : List Bool} (hold : Holds writer bits)
    {share slice : Nat} (hshare : share ≤ 8 - writer.position % 8) (hslice : slice < 2 ^ share)
    (h : writer.position / 8 < writer.size) :
    Holds (writer.fill share slice h) (bits ++ Bits.ofNat share slice) where
  position := by rw [position_fill, hold.position, List.length_append, Bits.length_ofNat]
  fits := by
    have hpos := hold.position
    rw [List.length_append, Bits.length_ofNat, size_fill]
    omega
  content p := by
    have hpos := hold.position
    have hold' := hold.content p
    rw [bytes_fill, Bits.bitAt_set, Bits.getD_append_ofNat, length_bytes]
    by_cases hbyte : p / 8 = writer.position / 8
    · -- The position lies in the byte of the share.
      rw [if_pos ⟨hbyte, h⟩, UInt8.toNat_or, Nat.testBit_or, UInt8.toNat_ofNat',
        Nat.testBit_mod_two_pow, Nat.testBit_shiftLeft, ← hbyte]
      rw [Bits.bitAt] at hold'
      rw [hold']
      by_cases hp : p < bits.length
      · have hhigh : slice.testBit (7 - p % 8 - (8 - writer.position % 8 - share)) = false := by
          apply Nat.testBit_lt_two_pow
          exact Nat.lt_of_lt_of_le hslice (Nat.pow_le_pow_right (by omega) (by omega))
        simp [hp, hhigh]
      · rw [if_neg hp]
        have hfree : bits.getD p false = false := by
          rw [List.getD_eq_getElem?_getD, List.getElem?_eq_none (by omega)]
          rfl
        rw [hfree]
        by_cases hlow : p < bits.length + share
        · rw [show 7 - p % 8 - (8 - writer.position % 8 - share) = bits.length + share - 1 - p by
            omega]
          simp [hlow, show 7 - p % 8 < 8 by omega,
            show 8 - writer.position % 8 - share ≤ 7 - p % 8 by omega]
        · simp [hlow, show ¬ (8 - writer.position % 8 - share ≤ 7 - p % 8) by omega]
    · rw [if_neg fun hand => hbyte hand.1, hold']
      by_cases hp : p < bits.length
      · rw [if_pos hp]
      · rw [if_neg hp, List.getD_eq_getElem?_getD, List.getElem?_eq_none (by omega)]
        simp [show ¬ p < bits.length + share by omega]

theorem writeWord_zero (writer : BitWriter) (word : Nat) :
    writer.writeWord word 0 = .ok writer := by
  rw [writeWord, if_pos rfl]

theorem writeWord_of_lt {writer : BitWriter} {word width : Nat} (hwidth : width ≠ 0)
    (h : writer.position / 8 < writer.size) :
    writer.writeWord word width =
      (writer.fill (min width (8 - writer.position % 8))
        ((word >>> (width - min width (8 - writer.position % 8))) %
          2 ^ min width (8 - writer.position % 8)) h).writeWord word
        (width - min width (8 - writer.position % 8)) := by
  rw [writeWord, if_neg hwidth]
  simp only [dif_pos h, Nat.one_shiftLeft]
  rfl

/-- A word that fits is written bit by bit after the bits that the frame holds. -/
theorem Holds.writeWord {writer : BitWriter} {bits : List Bool} (hold : Holds writer bits)
    {word width : Nat} (hfit : bits.length + width ≤ 8 * writer.size) :
    Yields (writer.writeWord word width) fun done =>
      done.size = writer.size ∧ Holds done (bits ++ Bits.ofNat width word) := by
  induction width using Nat.strongRecOn generalizing writer bits with
  | ind width ih =>
      by_cases hwidth : width = 0
      · subst hwidth
        rw [writeWord_zero]
        exact Yields.ok ⟨rfl, by simpa [Bits.ofNat] using hold⟩
      · have hpos := hold.position
        have h : writer.position / 8 < writer.size := by omega
        rw [writeWord_of_lt hwidth h]
        generalize hshare : min width (8 - writer.position % 8) = share
        have hnext := hold.fill (show share ≤ 8 - writer.position % 8 by omega)
          (Nat.mod_lt (word >>> (width - share)) (Nat.two_pow_pos share)) h
        refine (ih (width - share) (by omega) hnext ?_).mono ?_
        · rw [List.length_append, Bits.length_ofNat, size_fill]
          omega
        · rintro done ⟨hsize, hdone⟩
          refine ⟨hsize, ?_⟩
          have hsplit := Bits.ofNat_add share (width - share) word
          rw [show share + (width - share) = width by omega] at hsplit
          rwa [Bits.ofNat_mod, List.append_assoc, ← hsplit] at hdone

/-- A word that does not fit is a fault. -/
theorem writeWord_eq_error {writer : BitWriter} {word width : Nat} (hwidth : width ≠ 0)
    (hfit : 8 * writer.size < writer.position + width) :
    writer.writeWord word width = .error .outOfRange := by
  induction width using Nat.strongRecOn generalizing writer with
  | ind width ih =>
      by_cases h : writer.position / 8 < writer.size
      · rw [writeWord_of_lt hwidth h]
        apply ih _ (by omega) (by omega)
        rw [size_fill, position_fill]
        omega
      · rw [BitWriter.writeWord, if_neg hwidth]
        simp only [dif_neg h]

/-- Fields are written if and only if there is room for their widths, and the frame then holds
their bits. -/
theorem Holds.writeAll {writer : BitWriter} {bits : List Bool} (hold : Holds writer bits)
    {fields : List BitField}
    (hfit : bits.length + (fields.map BitField.width).sum ≤ 8 * writer.size) :
    Yields (writer.writeAll fields) fun done =>
      done.size = writer.size ∧ Holds done (bits ++ fields.flatMap BitField.bits) := by
  induction fields generalizing writer bits with
  | nil => exact Yields.ok ⟨rfl, by simpa using hold⟩
  | cons field fields ih =>
      simp only [List.map_cons, List.sum_cons] at hfit
      rw [BitWriter.writeAll]
      refine (hold.writeWord (show bits.length + field.width ≤ _ by omega)).bind ?_
      rintro next ⟨hsize, hnext⟩
      refine (ih hnext ?_).mono ?_
      · rw [List.length_append, Bits.length_ofNat, hsize]
        omega
      · rintro done ⟨hsize', hdone⟩
        exact ⟨hsize'.trans hsize, by simpa [BitField.bits] using hdone⟩

theorem Holds.writeAll_eq_error {writer : BitWriter} {bits : List Bool} (hold : Holds writer bits)
    {fields : List BitField}
    (hfit : 8 * writer.size < bits.length + (fields.map BitField.width).sum) :
    writer.writeAll fields = .error .outOfRange := by
  induction fields generalizing writer bits with
  | nil =>
      have := hold.fits
      simp only [List.map_nil, List.sum_nil] at hfit
      omega
  | cons field fields ih =>
      have hpos := hold.position
      simp only [List.map_cons, List.sum_cons] at hfit
      rw [BitWriter.writeAll]
      by_cases hroom : bits.length + field.width ≤ 8 * writer.size
      · obtain ⟨next, hwrite, hsize, hnext⟩ : Yields (writer.write field) _ := hold.writeWord hroom
        rw [hwrite]
        apply ih hnext
        rw [List.length_append, Bits.length_ofNat, hsize]
        omega
      · have := hold.fits
        rw [write, writeWord_eq_error (by omega) (by omega)]
        rfl

/-- The bits of a frame are those that it holds, followed by zeros. -/
theorem Holds.ofBytes_eq {writer : BitWriter} {bits : List Bool} (hold : Holds writer bits) :
    Bits.ofBytes writer.bytes = bits ++ List.replicate (8 * writer.size - bits.length) false := by
  have hfits := hold.fits
  apply List.ext_getElem?
  intro p
  by_cases hp : p < 8 * writer.size
  · rw [Bits.getElem?_ofBytes (by rwa [length_bytes]), hold.content p]
    by_cases hbits : p < bits.length
    · rw [List.getElem?_append_left hbits]
      simp [List.getD_eq_getElem?_getD, hbits]
    · rw [List.getElem?_append_right (by omega), List.getElem?_replicate, if_pos (by omega),
        List.getD_eq_getElem?_getD, List.getElem?_eq_none (by omega)]
      rfl
  · rw [List.getElem?_eq_none (by rw [Bits.length_ofBytes, length_bytes]; omega),
      List.getElem?_eq_none (by rw [List.length_append, List.length_replicate]; omega)]

end BitWriter

/-! ### Reading -/

namespace BitReader

theorem testBit_shiftUp (n places k : Nat) :
    (shiftUp n places).testBit k =
      (decide (k < 64) && (decide (places ≤ k) && n.testBit (k - places))) := by
  have hsize : 18446744073709551616 = 2 ^ 64 := by decide
  rw [shiftUp, hsize]
  by_cases hplaces : places < 64
  · rw [if_pos hplaces, Nat.testBit_mod_two_pow, Nat.testBit_shiftLeft]
  · rw [if_neg hplaces, Nat.zero_testBit]
    by_cases hk : k < 64
    · simp [show ¬ places ≤ k by omega]
    · simp [hk]

/-- The number at a position is the share of the first byte, moved up, and the number after it. -/
theorem field_eq_share_or {bytes : List UInt8} {position width share : Nat}
    (hfit : position + width ≤ 8 * bytes.length) (hshare : share ≤ width)
    (hroom : share ≤ 8 - position % 8) :
    Bits.field bytes position width % 2 ^ 64 =
      shiftUp (((bytes.getD (position / 8) 0).toNat >>> (8 - position % 8 - share)) % 2 ^ share)
        (width - share) ||| Bits.field bytes (position + share) (width - share) % 2 ^ 64 := by
  apply Nat.eq_of_testBit_eq
  intro k
  rw [Nat.testBit_or, testBit_shiftUp, Nat.testBit_mod_two_pow, Nat.testBit_mod_two_pow,
    Nat.testBit_mod_two_pow, Nat.testBit_shiftRight, Bits.testBit_field hfit,
    Bits.testBit_field (by omega)]
  by_cases hword : k < 64
  · by_cases hlow : k < width - share
    · rw [show position + share + (width - share) - 1 - k = position + width - 1 - k by omega]
      simp [hword, hlow, show k < width by omega, show ¬ width - share ≤ k by omega]
    · by_cases hk : k < width
      · rw [Bits.bitAt, show (position + width - 1 - k) / 8 = position / 8 by omega,
          show 7 - (position + width - 1 - k) % 8 =
            8 - position % 8 - share + (k - (width - share)) by omega]
        simp [hword, hlow, hk, show width - share ≤ k by omega,
          show k - (width - share) < share by omega]
      · simp [hword, hlow, hk, show ¬ k - (width - share) < share by omega]
  · simp [hword]

theorem readWord_zero (bytes : List UInt8) (position word : Nat) :
    readWord bytes position word 0 = .ok word := by
  rw [readWord, if_pos rfl]

theorem readWord_of_lt {bytes : List UInt8} {position width : Nat} (hwidth : width ≠ 0)
    (h : position / 8 < bytes.length) (word : Nat) :
    readWord bytes position word width =
      readWord bytes (position + min width (8 - position % 8))
        (word ||| shiftUp (((bytes.getD (position / 8) 0).toNat >>>
          (8 - position % 8 - min width (8 - position % 8))) % 2 ^ min width (8 - position % 8))
          (width - min width (8 - position % 8)))
        (width - min width (8 - position % 8)) := by
  have hbyte : bytes[position / 8]? = some (bytes.getD (position / 8) 0) := by
    simp [List.getD_eq_getElem?_getD, h]
  rw [readWord, if_neg hwidth]
  simp only [hbyte, Nat.one_shiftLeft]

/-- The shares of a field inside the frame make up the number that stands there. -/
theorem readWord_eq_ok {bytes : List UInt8} {position width : Nat}
    (hfit : position + width ≤ 8 * bytes.length) (word : Nat) :
    readWord bytes position word width =
      .ok (word ||| Bits.field bytes position width % 2 ^ 64) := by
  induction width using Nat.strongRecOn generalizing position word with
  | ind width ih =>
      by_cases hwidth : width = 0
      · subst hwidth
        rw [readWord_zero]
        simp [Bits.field, Bits.toNat]
      · rw [readWord_of_lt hwidth (by omega)]
        generalize hshare : min width (8 - position % 8) = share
        rw [ih (width - share) (by omega) (by omega), Nat.or_assoc,
          ← field_eq_share_or hfit (by omega) (by omega)]

/-- A field that reaches beyond the frame is a fault. -/
theorem readWord_eq_error {bytes : List UInt8} {position width : Nat} (hwidth : width ≠ 0)
    (hfit : 8 * bytes.length < position + width) (word : Nat) :
    readWord bytes position word width = .error .outOfRange := by
  induction width using Nat.strongRecOn generalizing position word with
  | ind width ih =>
      by_cases h : position / 8 < bytes.length
      · rw [readWord_of_lt hwidth h]
        exact ih _ (by omega) (by omega) (by omega) _
      · rw [readWord, if_neg hwidth]
        simp only [List.getElem?_eq_none (Nat.le_of_not_lt h)]

theorem read_eq_ok {reader : BitReader} {width : Nat}
    (hfit : reader.position + width ≤ 8 * reader.bytes.length) (coding : Coding) :
    reader.read width coding =
      .ok (wrap (coding.decode (Bits.field reader.bytes reader.position width % 2 ^ 64)),
        { reader with position := reader.position + width }) := by
  rw [read, readWord_eq_ok hfit, Nat.zero_or]
  rfl

theorem read_eq_error {reader : BitReader} {width : Nat} (hwidth : width ≠ 0)
    (hfit : 8 * reader.bytes.length < reader.position + width) (coding : Coding) :
    reader.read width coding = .error .outOfRange := by
  rw [read, readWord_eq_error hwidth hfit]
  rfl

end BitReader

/-! ### Fields and their code words -/

/-- Wrapping is the balanced remainder. -/
theorem wrap_eq_bmod (n : Int) : wrap n = Int.bmod n (2 ^ 64) := by
  have hsize : 18446744073709551616 = 2 ^ 64 := by decide
  rw [wrap, hsize]
  split
  · exact (Int.bmod_eq_of_le (by omega) (by omega)).symm
  · rfl

namespace BitField

theorem residue_eq_toNat (field : BitField) :
    field.residue = (field.value % 2 ^ min field.width 64).toNat := by
  rw [residue, Nat.one_shiftLeft]
  push_cast
  rfl

theorem residue_lt (field : BitField) : field.residue < 2 ^ min field.width 64 := by
  have hpos : (0 : Int) < 2 ^ min field.width 64 := Int.pow_pos (by decide)
  have hlt := Int.emod_lt_of_pos field.value hpos
  have hcast : ((2 ^ min field.width 64 : Nat) : Int) = 2 ^ min field.width 64 := by simp
  rw [residue_eq_toNat]
  omega

theorem word_lt (field : BitField) : field.word < 2 ^ min field.width 64 := by
  have hlt := field.residue_lt
  unfold word
  cases field.coding with
  | natural => exact hlt
  | gray => exact Gray.encode_lt hlt

@[simp] theorem length_bits (field : BitField) : field.bits.length = field.width :=
  Bits.length_ofNat _ _

theorem toNat_bits_mod (field : BitField) : Bits.toNat field.bits % 2 ^ 64 = field.word := by
  have hlt := field.word_lt
  have hwidth : field.word < 2 ^ field.width :=
    Nat.lt_of_lt_of_le hlt (Nat.pow_le_pow_right (by omega) (Nat.min_le_left _ _))
  have hword : field.word < 2 ^ 64 :=
    Nat.lt_of_lt_of_le hlt (Nat.pow_le_pow_right (by omega) (Nat.min_le_right _ _))
  rw [bits, Bits.toNat_ofNat, Nat.mod_eq_of_lt hwidth, Nat.mod_eq_of_lt hword]

/-- What reading makes of a field. -/
def decoded (field : BitField) : Int := wrap (field.coding.decode field.word)

/-- What a field can keep of its number: the residue at its width, or the whole word. -/
def kept (field : BitField) : Int :=
  if field.width < 64 then field.value % 2 ^ field.width else field.value

/-- A field whose number is a signed word and whose Gray code, if it has one, is decoded in full. -/
structure Readable (field : BitField) : Prop where
  low : -2 ^ 63 ≤ field.value
  high : field.value < 2 ^ 63
  gray : field.coding = .gray → field.width ≤ 16

theorem decode_word {field : BitField} (h : field.coding = .gray → field.width ≤ 16) :
    field.coding.decode field.word = field.residue := by
  have hlt := field.residue_lt
  unfold word
  cases hcoding : field.coding with
  | natural => rfl
  | gray =>
      have hwidth := h hcoding
      rw [show min field.width 64 = field.width by omega] at hlt
      have hsmall : field.residue < 2 ^ 16 :=
        Nat.lt_of_lt_of_le hlt (Nat.pow_le_pow_right (by omega) hwidth)
      exact (Gray.decode_encode field.residue).trans (Gray.fold_sixteen_of_lt hsmall)

theorem residue_eq (field : BitField) :
    (field.residue : Int) = field.value % 2 ^ min field.width 64 := by
  have hpos : (0 : Int) < 2 ^ min field.width 64 := Int.pow_pos (by decide)
  rw [residue_eq_toNat]
  exact Int.toNat_of_nonneg (Int.emod_nonneg _ (by omega))

theorem decoded_eq_kept {field : BitField} (h : field.Readable) : field.decoded = field.kept := by
  rw [decoded, decode_word h.gray, residue_eq, kept, wrap_eq_bmod]
  by_cases hwidth : field.width < 64
  · rw [if_pos hwidth, show min field.width 64 = field.width by omega]
    have hpos : (0 : Int) < 2 ^ field.width := Int.pow_pos (by decide)
    have hnonneg := Int.emod_nonneg field.value (Int.ne_of_gt hpos)
    have hlt := Int.emod_lt_of_pos field.value hpos
    have hpow : (2 : Int) ^ field.width ≤ 2 ^ 63 := by
      exact_mod_cast Nat.pow_le_pow_right (show 0 < 2 by decide) (show field.width ≤ 63 by omega)
    exact Int.bmod_eq_of_le (by omega) (by omega)
  · rw [if_neg hwidth, show min field.width 64 = 64 by omega]
    have hmod : Int.bmod (field.value % (2 ^ 64 : Nat)) (2 ^ 64) = field.value.bmod (2 ^ 64) :=
      Int.emod_bmod ..
    have hlow := h.low
    have hhigh := h.high
    exact hmod.trans (Int.bmod_eq_of_le (by omega) (by omega))

end BitField

/-! ### Lists of fields -/

namespace BitReader

/-- What a reader still has before it. -/
structure Sees (reader : BitReader) (rest : List Bool) : Prop where
  inside : reader.position ≤ 8 * reader.bytes.length
  bits : (Bits.ofBytes reader.bytes).drop reader.position = rest

theorem sees_start (bytes : List UInt8) : Sees { bytes } (Bits.ofBytes bytes) where
  inside := Nat.zero_le _
  bits := rfl

theorem Sees.length_eq {reader : BitReader} {rest : List Bool} (h : Sees reader rest) :
    reader.position + rest.length = 8 * reader.bytes.length := by
  have hlen := congrArg List.length h.bits
  have hinside := h.inside
  rw [List.length_drop, Bits.length_ofBytes] at hlen
  omega

/-- A reader takes the bits before it as one number, and sees what follows them. -/
theorem Sees.read {reader : BitReader} {front rest : List Bool} (h : Sees reader (front ++ rest))
    (coding : Coding) :
    reader.read front.length coding =
        .ok (wrap (coding.decode (Bits.toNat front % 2 ^ 64)),
          { reader with position := reader.position + front.length }) ∧
      Sees { reader with position := reader.position + front.length } rest := by
  have hlen := h.length_eq
  rw [List.length_append] at hlen
  refine ⟨?_, ⟨by dsimp only; omega, ?_⟩⟩
  · rw [read_eq_ok (by omega), Bits.field, h.bits, List.take_left]
  · rw [← List.drop_drop, h.bits, List.drop_left]

theorem Sees.readFields {reader : BitReader} {fields : List BitField} {rest : List Bool}
    (h : Sees reader (fields.flatMap BitField.bits ++ rest)) :
    Yields (reader.readFields (fields.map BitField.shape)) fun done =>
      done.1 = fields.map BitField.decoded ∧ done.2.bytes = reader.bytes ∧ Sees done.2 rest := by
  induction fields generalizing reader with
  | nil => exact Yields.ok ⟨rfl, rfl, h⟩
  | cons field fields ih =>
      rw [List.flatMap_cons, List.append_assoc] at h
      obtain ⟨hread, hnext⟩ := h.read field.coding
      rw [field.length_bits, field.toNat_bits_mod] at hread
      rw [field.length_bits] at hnext
      obtain ⟨⟨values, last⟩, hdone, hvalues, hbytes, hsees⟩ := ih hnext
      refine ⟨(field.decoded :: values, last), ?_, ?_, hbytes, hsees⟩
      · rw [List.map_cons, BitField.shape, BitReader.readFields, hread]
        simp only [bind, Except.bind, hdone, BitField.decoded]
        rfl
      · exact congrArg (field.decoded :: ·) hvalues

end BitReader

/-- Numbers read from fields, as fields to be written. -/
def BitField.ofShapes (values : List Int) (shapes : List (Nat × Coding)) : List BitField :=
  List.zipWith (fun value shape => ⟨value, shape.1, shape.2⟩) values shapes

/-- The widest field of a code that any bits can be written back from. -/
def Coding.maxWidth : Coding → Nat
  | .natural => 64
  | .gray => 16

/-- Reading bits and writing the number again leaves the bits. -/
theorem BitField.bits_of_read {coding : Coding} {front : List Bool}
    (hwidth : front.length ≤ coding.maxWidth) :
    BitField.bits ⟨wrap (coding.decode (Bits.toNat front % 2 ^ 64)), front.length, coding⟩ =
      front := by
  have hlt := Bits.toNat_lt front
  have hmax : front.length ≤ 64 := by
    cases coding with
    | natural => exact hwidth
    | gray => exact Nat.le_trans hwidth (by decide)
  have hword : Bits.toNat front < 2 ^ 64 :=
    Nat.lt_of_lt_of_le hlt (Nat.pow_le_pow_right (by omega) hmax)
  have hdecode : coding.decode (Bits.toNat front) < 2 ^ front.length := by
    cases coding with
    | natural => exact hlt
    | gray => exact Gray.decode_lt hlt
  have hresidue : BitField.residue ⟨wrap (coding.decode (Bits.toNat front)), front.length, coding⟩ =
      coding.decode (Bits.toNat front) := by
    generalize coding.decode (Bits.toNat front) = n at hdecode
    have hdvd : ((2 ^ front.length : Nat) : Int) ∣ ((2 ^ 64 : Nat) : Int) :=
      Int.natCast_dvd_natCast.mpr (Nat.pow_dvd_pow 2 hmax)
    have hcast : (2 : Int) ^ front.length = ((2 ^ front.length : Nat) : Int) := by simp
    rw [BitField.residue_eq_toNat, wrap_eq_bmod, Nat.min_eq_left hmax, hcast,
      ← Int.emod_emod_of_dvd _ hdvd, Int.bmod_emod, Int.emod_emod_of_dvd _ hdvd,
      Int.emod_eq_of_lt (by omega) (by omega), Int.toNat_natCast]
  have hencode : coding.encode (coding.decode (Bits.toNat front)) = Bits.toNat front := by
    cases coding with
    | natural => rfl
    | gray =>
        have hsmall : Bits.toNat front < 2 ^ 16 :=
          Nat.lt_of_lt_of_le hlt (Nat.pow_le_pow_right (by omega) hwidth)
        exact (Gray.encode_decode _).trans (Gray.fold_sixteen_of_lt hsmall)
  rw [Nat.mod_eq_of_lt hword, BitField.bits, BitField.word, hresidue, hencode, Bits.ofNat_toNat]

/-- Reading fields as far as the bits reach and writing their numbers again leaves the bits. -/
theorem BitReader.Sees.readFields_bits {reader : BitReader} {rest : List Bool}
    (h : Sees reader rest) {shapes : List (Nat × Coding)}
    (hmax : ∀ shape ∈ shapes, shape.1 ≤ shape.2.maxWidth)
    (hsum : (shapes.map Prod.fst).sum = rest.length) :
    Yields (reader.readFields shapes) fun done =>
      (BitField.ofShapes done.1 shapes).flatMap BitField.bits = rest ∧
        ((BitField.ofShapes done.1 shapes).map BitField.width).sum = rest.length := by
  induction shapes generalizing reader rest with
  | nil =>
      rw [List.map_nil, List.sum_nil] at hsum
      rw [List.eq_nil_of_length_eq_zero hsum.symm]
      exact Yields.ok ⟨rfl, rfl⟩
  | cons shape shapes ih =>
      obtain ⟨width, coding⟩ := shape
      rw [List.map_cons, List.sum_cons] at hsum
      have hwidth : (rest.take width).length = width := by
        rw [List.length_take]
        omega
      rw [← List.take_append_drop width rest] at h
      obtain ⟨hread, hnext⟩ := h.read coding
      rw [hwidth] at hread hnext
      obtain ⟨⟨values, last⟩, hdone, hbits, hwidths⟩ := ih hnext
        (fun shape hshape => hmax shape (List.mem_cons_of_mem _ hshape))
        (by rw [List.length_drop]; omega)
      have hfront := hmax (width, coding) List.mem_cons_self
      refine ⟨(wrap (coding.decode (Bits.toNat (rest.take width) % 2 ^ 64)) :: values, last), ?_,
        ?_, ?_⟩
      · rw [BitReader.readFields, hread]
        simp only [bind, Except.bind, hdone]
        rfl
      · rw [← hwidth] at hfront
        have hfield := BitField.bits_of_read hfront
        rw [hwidth] at hfield
        rw [BitField.ofShapes, List.zipWith_cons_cons, List.flatMap_cons, hfield]
        exact (congrArg _ hbits).trans (List.take_append_drop width rest)
      · rw [BitField.ofShapes, List.zipWith_cons_cons, List.map_cons, List.sum_cons]
        rw [BitField.ofShapes, List.length_drop] at hwidths
        dsimp only at hwidths ⊢
        omega

/-! ### Writer and reader are inverse -/

namespace BitWriter

/-- What a fresh writer made of fields that it took: a frame of the right size with the bits of the
fields and zeros after them. -/
theorem writeAll_start_eq_ok {size : Nat} {fields : List BitField} {writer : BitWriter}
    (h : BitWriter.writeAll { size } fields = .ok writer) :
    (fields.map BitField.width).sum ≤ 8 * size ∧ writer.bytes.length = size ∧
      Bits.ofBytes writer.bytes = fields.flatMap BitField.bits ++
        List.replicate (8 * size - (fields.map BitField.width).sum) false := by
  have hstart := holds_start size
  by_cases hfit : (fields.map BitField.width).sum ≤ 8 * size
  · obtain ⟨hsize, hold⟩ := (hstart.writeAll (by simpa using hfit)).of_eq h
    refine ⟨hfit, by rw [length_bytes, hsize], ?_⟩
    rw [hold.ofBytes_eq, hsize, List.nil_append, List.length_flatMap]
    simp only [BitField.length_bits]
  · rw [hstart.writeAll_eq_error (by simpa using hfit)] at h
    cases h

theorem exists_writeAll_start {size : Nat} {fields : List BitField}
    (h : (fields.map BitField.width).sum ≤ 8 * size) :
    ∃ writer, BitWriter.writeAll { size } fields = .ok writer := by
  obtain ⟨writer, hwriter, _⟩ := (holds_start size).writeAll (by simpa using h)
  exact ⟨writer, hwriter⟩

/-- What a reader makes of a frame of fields. -/
theorem readFields_bytes {size : Nat} {fields : List BitField} {writer : BitWriter}
    (h : BitWriter.writeAll { size } fields = .ok writer) :
    ∃ reader, BitReader.readFields { bytes := writer.bytes } (fields.map BitField.shape) =
      .ok (fields.map BitField.decoded, reader) := by
  obtain ⟨_, _, hbits⟩ := writeAll_start_eq_ok h
  have hsees := BitReader.sees_start writer.bytes
  rw [hbits] at hsees
  obtain ⟨⟨values, reader⟩, hread, hvalues, _⟩ := hsees.readFields
  rw [show values = fields.map BitField.decoded from hvalues] at hread
  exact ⟨reader, hread⟩

end BitWriter

/-- Beyond sixteen bits the Gray decoder moves the seventeenth bit onto the first. -/
theorem BitField.decoded_gray_two_pow_sixteen {width : Nat} (h : 17 ≤ width) :
    BitField.decoded ⟨2 ^ 16, width, .gray⟩ = 2 ^ 16 + 1 ∧
      BitField.kept ⟨2 ^ 16, width, .gray⟩ = 2 ^ 16 := by
  have hlt {places : Nat} (hplaces : 17 ≤ places) : (2 : Int) ^ 16 < 2 ^ places := by
    exact_mod_cast Nat.pow_lt_pow_right (show 1 < 2 by decide) (show 16 < places by omega)
  have hresidue : BitField.residue ⟨2 ^ 16, width, .gray⟩ = 2 ^ 16 := by
    have hmod : (2 : Int) ^ 16 % 2 ^ min width 64 = 2 ^ 16 :=
      Int.emod_eq_of_lt (by decide) (hlt (by omega))
    rw [BitField.residue_eq_toNat]
    exact congrArg Int.toNat hmod
  constructor
  · rw [BitField.decoded, BitField.word, hresidue]
    exact congrArg wrap (congrArg Nat.cast Gray.decode_encode_two_pow_sixteen)
  · rw [BitField.kept]
    split
    · show (2 : Int) ^ 16 % 2 ^ width = 2 ^ 16
      exact Int.emod_eq_of_lt (by decide) (hlt h)
    · rfl

/-- Writing and reading fields undo each other. A fresh writer takes exactly the fields whose widths
fit into its frame, and reading gives them back, except for Gray codes of more than sixteen bits.
Conversely, writing what was read makes the same frame. -/
theorem writer_reader_inverse :
    (∀ (size : Nat) (fields : List BitField),
      ((∃ writer, BitWriter.writeAll { size } fields = .ok writer) ↔
        (fields.map BitField.width).sum ≤ 8 * size) ∧
      (8 * size < (fields.map BitField.width).sum →
        BitWriter.writeAll { size } fields = .error .outOfRange) ∧
      ∀ writer, BitWriter.writeAll { size } fields = .ok writer →
        writer.bytes.length = size ∧
        Bits.ofBytes writer.bytes = fields.flatMap BitField.bits ++
          List.replicate (8 * size - (fields.map BitField.width).sum) false ∧
        ∃ values reader,
          BitReader.readFields { bytes := writer.bytes } (fields.map BitField.shape) =
            .ok (values, reader) ∧
          List.Forall₂ (fun field value => field.Readable → value = field.kept) fields values) ∧
    (∀ width, 17 ≤ width → ∃ value : Int, -2 ^ 63 ≤ value ∧ value < 2 ^ 63 ∧
      ∀ size, width ≤ 8 * size → ∃ writer read reader,
        BitWriter.writeAll { size } [⟨value, width, .gray⟩] = .ok writer ∧
        BitReader.readFields { bytes := writer.bytes } [(width, .gray)] = .ok ([read], reader) ∧
        read ≠ BitField.kept ⟨value, width, .gray⟩) ∧
    ∀ (bytes : List UInt8) (shapes : List (Nat × Coding)),
      (∀ shape ∈ shapes, shape.1 ≤ shape.2.maxWidth) →
      (shapes.map Prod.fst).sum = 8 * bytes.length →
      ∃ values reader writer,
        BitReader.readFields { bytes } shapes = .ok (values, reader) ∧
        BitWriter.writeAll { size := bytes.length } (BitField.ofShapes values shapes) = .ok writer ∧
        writer.bytes = bytes := by
  refine ⟨fun size fields => ⟨⟨?_, BitWriter.exists_writeAll_start⟩, ?_, ?_⟩, ?_, ?_⟩
  · rintro ⟨writer, hwriter⟩
    exact (BitWriter.writeAll_start_eq_ok hwriter).1
  · intro hfit
    exact (BitWriter.holds_start size).writeAll_eq_error (by simpa using hfit)
  · intro writer hwriter
    obtain ⟨_, hsize, hbits⟩ := BitWriter.writeAll_start_eq_ok hwriter
    obtain ⟨reader, hread⟩ := BitWriter.readFields_bytes hwriter
    refine ⟨hsize, hbits, fields.map BitField.decoded, reader, hread, ?_⟩
    rw [List.forall₂_map_right_iff, List.forall₂_same]
    exact fun field _ hfield => BitField.decoded_eq_kept hfield
  · intro width hwidth
    refine ⟨2 ^ 16, by decide, by decide, fun size hfit => ?_⟩
    have hroom : ([(⟨2 ^ 16, width, .gray⟩ : BitField)].map BitField.width).sum ≤ 8 * size := by
      simpa using hfit
    obtain ⟨writer, hwriter⟩ := BitWriter.exists_writeAll_start hroom
    obtain ⟨reader, hread⟩ := BitWriter.readFields_bytes hwriter
    obtain ⟨hdecoded, hkept⟩ := BitField.decoded_gray_two_pow_sixteen hwidth
    refine ⟨writer, BitField.decoded ⟨2 ^ 16, width, .gray⟩, reader, hwriter, hread, ?_⟩
    rw [hdecoded, hkept]
    decide
  · intro bytes shapes hmax hsum
    have hsees := BitReader.sees_start bytes
    rw [← Bits.length_ofBytes] at hsum
    obtain ⟨⟨values, reader⟩, hread, hbits, hwidths⟩ := hsees.readFields_bits hmax hsum
    rw [Bits.length_ofBytes] at hwidths
    obtain ⟨writer, hwriter⟩ := BitWriter.exists_writeAll_start (Nat.le_of_eq hwidths)
    refine ⟨values, reader, writer, hread, hwriter, Bits.ofBytes_injective ?_⟩
    obtain ⟨_, _, hframe⟩ := BitWriter.writeAll_start_eq_ok hwriter
    rw [hframe, hwidths, hbits]
    simp

/-- Fields across the borders of bytes, among them a whole negative word, are read back; a Gray
field of 17 bits is not; and two bytes are written back after they were read as three Gray coded and
thirteen natural bits. -/
theorem writer_reader_inverse_mixed :
    (∃ writer reader,
      BitWriter.writeAll { size := 10 } [⟨5, 3, .gray⟩, ⟨-2, 64, .natural⟩, ⟨300, 9, .gray⟩] =
        .ok writer ∧
      BitReader.readFields { bytes := writer.bytes } [(3, .gray), (64, .natural), (9, .gray)] =
        .ok ([5, -2, 300], reader)) ∧
    (∃ value : Int, ∃ writer read reader,
      BitWriter.writeAll { size := 3 } [⟨value, 17, .gray⟩] = .ok writer ∧
      BitReader.readFields { bytes := writer.bytes } [(17, .gray)] = .ok ([read], reader) ∧
      read ≠ BitField.kept ⟨value, 17, .gray⟩) ∧
    ∃ values reader writer,
      BitReader.readFields { bytes := [0xb7, 0x0f] } [(3, .gray), (13, .natural)] =
        .ok (values, reader) ∧
      BitWriter.writeAll { size := 2 } (BitField.ofShapes values [(3, .gray), (13, .natural)]) =
        .ok writer ∧
      writer.bytes = [0xb7, 0x0f] := by
  obtain ⟨hwrite, hgray, hback⟩ := writer_reader_inverse
  refine ⟨?_, ?_, hback [0xb7, 0x0f] [(3, .gray), (13, .natural)] (by decide) (by decide)⟩
  · obtain ⟨hfit, _, hread⟩ := hwrite 10 [⟨5, 3, .gray⟩, ⟨-2, 64, .natural⟩, ⟨300, 9, .gray⟩]
    obtain ⟨writer, hwriter⟩ := hfit.mpr (by decide)
    obtain ⟨_, _, values, reader, hvalues, hkept⟩ := hread writer hwriter
    obtain _ | ⟨hfirst, _ | ⟨hsecond, _ | ⟨hthird, _ | _⟩⟩⟩ := hkept
    rw [hfirst ⟨by decide, by decide, by decide⟩, hsecond ⟨by decide, by decide, by decide⟩,
      hthird ⟨by decide, by decide, by decide⟩] at hvalues
    exact ⟨writer, reader, hwriter, hvalues⟩
  · obtain ⟨value, _, _, hlost⟩ := hgray 17 (by decide)
    exact ⟨value, hlost 3 (by decide)⟩

end Vocoder
