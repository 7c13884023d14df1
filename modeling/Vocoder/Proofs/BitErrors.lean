import Vocoder.Proofs.FieldCodec

/-!
Errors of single bits. The Gray code and its decoder are linear for the exclusive or, and a code of
one bit decodes to a run of low bits. So a bit that is inverted on the way inverts the low bits of
the one index that it belongs to, up to its own place, and no other index. In the other direction,
neighbouring indexes differ in one bit of a frame.
-/

namespace Vocoder

/-! ### Low bits inverted -/

namespace Bits

/-- Inverting the `k` low bits of a number reflects its remainder. -/
theorem xor_two_pow_sub_one (n k : Nat) :
    n ^^^ (2 ^ k - 1) = 2 ^ k * (n / 2 ^ k) + (2 ^ k - (n % 2 ^ k + 1)) := by
  have hlt : n % 2 ^ k < 2 ^ k := Nat.mod_lt _ (Nat.two_pow_pos k)
  apply Nat.eq_of_testBit_eq
  intro i
  rw [Nat.testBit_xor, Nat.testBit_two_pow_sub_one,
    Nat.testBit_two_pow_mul_add _ (by omega), Nat.testBit_two_pow_sub_succ hlt]
  by_cases hi : i < k
  · simp [hi, Nat.testBit_mod_two_pow]
  · simp [hi, Nat.testBit_div_two_pow, show i - k + k = i by omega]

/-- How far a number moves when its low bits up to place `k` are inverted. The distance is odd, as
it is the run of low bits less twice the remainder. -/
theorem abs_xor_sub_bounds (n k : Nat) :
    1 ≤ |((n ^^^ (2 ^ (k + 1) - 1) : Nat) : Int) - n| ∧
      |((n ^^^ (2 ^ (k + 1) - 1) : Nat) : Int) - n| ≤ 2 ^ (k + 1) - 1 := by
  have hsplit := Nat.div_add_mod n (2 ^ (k + 1))
  have hlt : n % 2 ^ (k + 1) < 2 ^ (k + 1) := Nat.mod_lt _ (Nat.two_pow_pos _)
  have hcast : (2 : Int) ^ (k + 1) = ((2 ^ (k + 1) : Nat) : Int) := by push_cast; rfl
  have hdouble : 2 ^ (k + 1) = 2 * 2 ^ k := by rw [Nat.pow_succ, Nat.mul_comm]
  rw [xor_two_pow_sub_one, hcast]
  generalize 2 ^ (k + 1) * (n / 2 ^ (k + 1)) = high at hsplit
  generalize n % 2 ^ (k + 1) = low at hsplit hlt
  exact ⟨Int.one_le_abs (by omega), abs_le.mpr ⟨by omega, by omega⟩⟩

/-! ### A bit inverted -/

/-- A string of bytes with the bit at a position inverted. -/
def flip (bytes : List UInt8) (p : Nat) : List UInt8 :=
  bytes.set (p / 8) (UInt8.ofNat ((bytes.getD (p / 8) 0).toNat ^^^ 2 ^ (7 - p % 8)))

@[simp] theorem length_flip (bytes : List UInt8) (p : Nat) :
    (flip bytes p).length = bytes.length := by
  simp [flip]

theorem bitAt_flip {bytes : List UInt8} {p : Nat} (hp : p < 8 * bytes.length) (q : Nat) :
    bitAt (flip bytes p) q = (bitAt bytes q ^^ decide (q = p)) := by
  rw [flip, bitAt_set]
  by_cases hbyte : q / 8 = p / 8
  · have hplace : 7 - p % 8 = 7 - q % 8 ↔ q = p := by omega
    rw [if_pos ⟨hbyte, by omega⟩, UInt8.toNat_ofNat', Nat.testBit_mod_two_pow,
      Nat.testBit_xor, Nat.testBit_two_pow, bitAt, hbyte]
    simp [show 7 - q % 8 < 8 by omega, hplace]
  · have hne : q ≠ p := by
      rintro rfl
      exact hbyte rfl
    simp [hbyte, hne]

theorem field_flip {bytes : List UInt8} {p position width : Nat} (hp : p < 8 * bytes.length)
    (hfit : position + width ≤ 8 * bytes.length) :
    field (flip bytes p) position width =
      if position ≤ p ∧ p < position + width then
        field bytes position width ^^^ 2 ^ (position + width - 1 - p)
      else field bytes position width := by
  apply Nat.eq_of_testBit_eq
  intro k
  rw [testBit_field (by rwa [length_flip]), bitAt_flip hp]
  by_cases hinside : position ≤ p ∧ p < position + width
  · rw [if_pos hinside, Nat.testBit_xor, testBit_field hfit, Nat.testBit_two_pow]
    by_cases hk : k < width
    · have hplace : position + width - 1 - k = p ↔ position + width - 1 - p = k := by omega
      simp [hk, hplace]
    · have hne : position + width - 1 - p ≠ k := by omega
      simp [hk, hne]
  · rw [if_neg hinside, testBit_field hfit]
    by_cases hk : k < width
    · have hne : position + width - 1 - k ≠ p := by omega
      simp [hne]
    · simp [hk]

end Bits

/-! ### Fields of a frame -/

namespace BitReader

/-- The indexes of the Gray coded fields from a position on. -/
def indexes (bytes : List UInt8) : (position : Nat) → (widths : List Nat) → List Nat
  | _, [] => []
  | position, width :: widths =>
    Gray.decode (Bits.field bytes position width) :: indexes bytes (position + width) widths

theorem length_indexes (bytes : List UInt8) (position : Nat) (widths : List Nat) :
    (indexes bytes position widths).length = widths.length := by
  induction widths generalizing position with
  | nil => rfl
  | cons width widths ih => simp [indexes, ih]

theorem indexes_append (bytes : List UInt8) (position : Nat) (before after : List Nat) :
    indexes bytes position (before ++ after) =
      indexes bytes position before ++ indexes bytes (position + before.sum) after := by
  induction before generalizing position with
  | nil => simp [indexes]
  | cons width before ih => simp [indexes, ih, Nat.add_assoc]

theorem field_lt (bytes : List UInt8) (position width : Nat) :
    Bits.field bytes position width < 2 ^ width := by
  refine Nat.lt_of_lt_of_le (Bits.toNat_lt _) (Nat.pow_le_pow_right (by decide) ?_)
  exact List.length_take_le _ _

/-- A frame that has room for the fields is read to the indexes that stand there. -/
theorem readAll_eq_ok {bytes : List UInt8} {position : Nat} {widths : List Nat}
    (hwidths : ∀ width ∈ widths, width ≤ 16)
    (hfit : position + widths.sum ≤ 8 * bytes.length) :
    readAll { bytes, position } widths =
      .ok ((indexes bytes position widths).map Int.ofNat,
        { bytes, position := position + widths.sum }) := by
  induction widths generalizing position with
  | nil => rfl
  | cons width widths ih =>
      rw [List.sum_cons] at hfit
      have hwidth := hwidths width List.mem_cons_self
      have hlt : Gray.decode (Bits.field bytes position width) < 2 ^ 16 :=
        Nat.lt_of_lt_of_le (Gray.decode_lt (field_lt bytes position width))
          (Nat.pow_le_pow_right (by decide) hwidth)
      have hword : Bits.field bytes position width < 2 ^ 64 :=
        Nat.lt_of_lt_of_le (field_lt bytes position width)
          (Nat.pow_le_pow_right (by decide) (by omega))
      have hread : read { bytes, position } width .gray =
          .ok (Int.ofNat (Gray.decode (Bits.field bytes position width)),
            { bytes, position := position + width }) := by
        rw [read_eq_ok (show position + width ≤ 8 * bytes.length by omega),
          Nat.mod_eq_of_lt hword, Coding.decode, wrap_of_bounds _ (by omega) (by omega)]
        rfl
      have hrest := ih (fun width hmem => hwidths width (List.mem_cons_of_mem _ hmem))
        (show position + width + widths.sum ≤ 8 * bytes.length by omega)
      rw [readAll] at hrest ⊢
      rw [List.map_cons, readFields, hread]
      simp only [bind, Except.bind, hrest]
      rw [List.sum_cons, ← Nat.add_assoc]
      rfl

/-- A bit outside some fields does not change their indexes. -/
theorem indexes_flip_of_outside {bytes : List UInt8} {p position : Nat} {widths : List Nat}
    (hp : p < 8 * bytes.length) (hfit : position + widths.sum ≤ 8 * bytes.length)
    (houtside : p < position ∨ position + widths.sum ≤ p) :
    indexes (Bits.flip bytes p) position widths = indexes bytes position widths := by
  induction widths generalizing position with
  | nil => rfl
  | cons width widths ih =>
      rw [List.sum_cons] at hfit houtside
      rw [indexes, indexes, Bits.field_flip hp (by omega), if_neg (by omega),
        ih (by omega) (by omega)]

/-- Every bit of some fields is in one of them, at a place counted from its last bit. -/
theorem exists_containing {widths : List Nat} {p : Nat} (hp : p < widths.sum) :
    ∃ before width after k, widths = before ++ width :: after ∧ k < width ∧
      p + k + 1 = before.sum + width := by
  induction widths generalizing p with
  | nil => simp at hp
  | cons width widths ih =>
      by_cases hfirst : p < width
      · exact ⟨[], width, widths, width - 1 - p, rfl, by omega, by rw [List.sum_nil]; omega⟩
      · rw [List.sum_cons] at hp
        obtain ⟨before, width', after, k, rfl, hk, hplace⟩ := ih (show p - width < _ by omega)
        exact ⟨width :: before, width', after, k, rfl, hk, by rw [List.sum_cons]; omega⟩

/-- A bit of a field inverts the low bits of its index, up to its place, and no other index. -/
theorem indexes_flip {bytes : List UInt8} {before after : List Nat} {width k p : Nat}
    (hwidth : width ≤ 16) (hfit : before.sum + width + after.sum ≤ 8 * bytes.length)
    (hk : k < width) (hplace : p + k + 1 = before.sum + width) :
    indexes (Bits.flip bytes p) 0 (before ++ width :: after) =
      indexes bytes 0 before ++
        (Gray.decode (Bits.field bytes before.sum width) ^^^ (2 ^ (k + 1) - 1)) ::
          indexes bytes (before.sum + width) after := by
  have hp : p < 8 * bytes.length := by omega
  have hbefore : indexes (Bits.flip bytes p) 0 before = indexes bytes 0 before :=
    indexes_flip_of_outside hp (by omega) (by omega)
  have hafter : indexes (Bits.flip bytes p) (before.sum + width) after =
      indexes bytes (before.sum + width) after :=
    indexes_flip_of_outside hp (by omega) (by omega)
  have hfield : Bits.field (Bits.flip bytes p) before.sum width =
      Bits.field bytes before.sum width ^^^ 2 ^ k := by
    rw [Bits.field_flip hp (by omega), if_pos (by omega),
      show before.sum + width - 1 - p = k by omega]
  rw [indexes_append, hbefore, indexes, Nat.zero_add, hafter, hfield, Gray.decode_xor,
    Gray.decode_two_pow (by omega)]

end BitReader

/-! ### Neighbouring indexes -/

theorem BitField.bits_of_lt {n width : Nat} (hwidth : width ≤ 16) (hn : n < 2 ^ width) :
    BitField.bits ⟨n, width, .gray⟩ = Bits.ofNat width (Gray.encode n) := by
  have hcast : (2 : Int) ^ width = ((2 ^ width : Nat) : Int) := by push_cast; rfl
  have hresidue : BitField.residue ⟨n, width, .gray⟩ = n := by
    rw [BitField.residue_eq_toNat]
    dsimp only
    rw [Nat.min_eq_left (show width ≤ 64 by omega), hcast,
      Int.emod_eq_of_lt (by omega) (by exact_mod_cast hn), Int.toNat_natCast]
  rw [BitField.bits, BitField.word, hresidue]
  rfl

/-- Two lists that differ in a number between them differ where the bits of the number do. -/
theorem Bits.getD_around_ne_iff (before after : List Bool) (width left right p : Nat) :
    (before ++ ofNat width left ++ after).getD p false ≠
        (before ++ ofNat width right ++ after).getD p false ↔
      ∃ k < width, p + k + 1 = before.length + width ∧ left.testBit k ≠ right.testBit k := by
  have hlength : ∀ n, (before ++ ofNat width n).length = before.length + width := by simp
  by_cases hfront : p < before.length + width
  · rw [List.getD_append (before ++ ofNat width left) _ _ _ (by rwa [hlength]),
      List.getD_append (before ++ ofNat width right) _ _ _ (by rwa [hlength]),
      getD_append_ofNat, getD_append_ofNat]
    by_cases hbefore : p < before.length
    · have hnone : ¬ ∃ k < width, p + k + 1 = before.length + width ∧
          left.testBit k ≠ right.testBit k := by
        rintro ⟨k, hk, hplace, -⟩
        omega
      simp [hbefore, hnone]
    · rw [if_neg hbefore, if_neg hbefore, decide_eq_true hfront, Bool.true_and, Bool.true_and]
      constructor
      · exact fun h => ⟨before.length + width - 1 - p, by omega, by omega, h⟩
      · rintro ⟨k, hk, hplace, hne⟩
        rwa [show before.length + width - 1 - p = k by omega]
  · rw [List.getD_append_right (before ++ ofNat width left) _ _ _ (by rw [hlength]; omega),
      List.getD_append_right (before ++ ofNat width right) _ _ _ (by rw [hlength]; omega), hlength,
      hlength]
    constructor
    · exact fun h => absurd rfl h
    · rintro ⟨k, hk, hplace, -⟩
      omega

/-- The codes of neighbours differ in exactly one of the bits that they are written with. -/
theorem Gray.exists_only_difference {n width : Nat} (hn : n + 1 < 2 ^ width) :
    ∃ k < width, ∀ i, (encode n).testBit i ≠ (encode (n + 1)).testBit i ↔ i = k := by
  obtain ⟨k, hk⟩ := exists_encode_succ n
  have hdiffers : ∀ i, (encode n).testBit i ≠ (encode (n + 1)).testBit i ↔ i = k := by
    intro i
    rw [hk, Nat.testBit_xor, Nat.testBit_two_pow]
    by_cases hi : i = k
    · simp [hi]
    · simp [hi, Ne.symm hi]
  refine ⟨k, ?_, hdiffers⟩
  by_contra hbeyond
  have hpow : 2 ^ width ≤ 2 ^ k := Nat.pow_le_pow_right (by decide) (Nat.le_of_not_lt hbeyond)
  have hleft : (encode n).testBit k = false :=
    Nat.testBit_lt_two_pow ((encode_lt (by omega)).trans_le hpow)
  have hright : (encode (n + 1)).testBit k = false :=
    Nat.testBit_lt_two_pow ((encode_lt hn).trans_le hpow)
  exact (hdiffers k).mpr rfl (hleft.trans hright.symm)

/-- The bits of a frame are those of its fields. -/
theorem BitWriter.exists_bits {size : Nat} {fields : List BitField}
    (h : (fields.map BitField.width).sum ≤ 8 * size) :
    ∃ writer, BitWriter.writeAll { size } fields = .ok writer ∧
      ∀ p, Bits.bitAt writer.bytes p = (fields.flatMap BitField.bits).getD p false := by
  obtain ⟨writer, hwriter, -, hold⟩ := (holds_start size).writeAll (by simpa using h)
  exact ⟨writer, hwriter, hold.content⟩

/-- A single bit error stays in its field and moves the index by a bounded amount, which depends on
the place of the bit. Conversely, the frames of two neighbouring indexes differ in exactly one bit.
-/
theorem single_bit_error_stays_in_field :
    (∀ (bytes : List UInt8) (widths : List Nat), (∀ width ∈ widths, 1 ≤ width ∧ width ≤ 16) →
      widths.sum ≤ 8 * bytes.length → ∀ p < widths.sum,
      ∃ before width after k, widths = before ++ width :: after ∧ k < width ∧
        p + k + 1 = before.sum + width ∧
      ∃ (earlier : List Nat) (v : Nat) (later : List Nat) (reader reader' : BitReader),
        earlier.length = before.length ∧
        BitReader.readAll { bytes } widths =
          .ok ((earlier ++ v :: later).map Int.ofNat, reader) ∧
        BitReader.readAll { bytes := Bits.flip bytes p } widths =
          .ok ((earlier ++ (v ^^^ (2 ^ (k + 1) - 1)) :: later).map Int.ofNat, reader') ∧
        1 ≤ |((v ^^^ (2 ^ (k + 1) - 1) : Nat) : Int) - v| ∧
        |((v ^^^ (2 ^ (k + 1) - 1) : Nat) : Int) - v| ≤ 2 ^ (k + 1) - 1 ∧
        (k = 0 → |((v ^^^ (2 ^ (k + 1) - 1) : Nat) : Int) - v| = 1)) ∧
    ∀ (size : Nat) (before after : List BitField) (width v : Nat), 1 ≤ width → width ≤ 16 →
      v < 2 ^ width - 1 →
      (before.map BitField.width).sum + width + (after.map BitField.width).sum ≤ 8 * size →
      ∃ left right,
        BitWriter.writeAll { size } (before ++ ⟨v, width, .gray⟩ :: after) = .ok left ∧
        BitWriter.writeAll { size } (before ++ ⟨v + 1, width, .gray⟩ :: after) = .ok right ∧
        ∃! p, Bits.bitAt left.bytes p ≠ Bits.bitAt right.bytes p := by
  constructor
  · intro bytes widths hwidths hfit p hp
    have hmax : ∀ width ∈ widths, width ≤ 16 := fun width hmem => (hwidths width hmem).2
    have hread := BitReader.readAll_eq_ok hmax (show 0 + widths.sum ≤ 8 * bytes.length by omega)
    have hread' := BitReader.readAll_eq_ok hmax
      (show 0 + widths.sum ≤ 8 * (Bits.flip bytes p).length by rw [Bits.length_flip]; omega)
    obtain ⟨before, width, after, k, rfl, hk, hplace⟩ := BitReader.exists_containing hp
    rw [List.sum_append, List.sum_cons] at hfit
    have hwidth := hmax width (by simp)
    rw [BitReader.indexes_append, BitReader.indexes, Nat.zero_add] at hread
    rw [BitReader.indexes_flip hwidth (by omega) hk hplace] at hread'
    obtain ⟨hleast, hmost⟩ :=
      Bits.abs_xor_sub_bounds (Gray.decode (Bits.field bytes before.sum width)) k
    refine ⟨before, width, after, k, rfl, hk, hplace, _, _, _, _, _,
      BitReader.length_indexes bytes 0 before, hread, hread', hleast, hmost, ?_⟩
    rintro rfl
    exact le_antisymm hmost hleast
  · intro size before after width v _ hwidth hv hfit
    have hpos : 0 < 2 ^ width := Nat.two_pow_pos width
    have hroom : ∀ n : Int, ((before ++ ⟨n, width, .gray⟩ :: after).map BitField.width).sum ≤
        8 * size := by
      intro n
      simpa [Nat.add_assoc] using hfit
    obtain ⟨left, hleft, hbits⟩ := BitWriter.exists_bits (hroom v)
    obtain ⟨right, hright, hbits'⟩ := BitWriter.exists_bits (hroom (v + 1))
    obtain ⟨k, hk, honly⟩ := Gray.exists_only_difference (show v + 1 < 2 ^ width by omega)
    have hdiffers : ∀ p, Bits.bitAt left.bytes p ≠ Bits.bitAt right.bytes p ↔
        p + k + 1 = (before.flatMap BitField.bits).length + width := by
      intro p
      have hfield := BitField.bits_of_lt hwidth (show v < 2 ^ width by omega)
      have hfield' := BitField.bits_of_lt hwidth (show v + 1 < 2 ^ width by omega)
      rw [Nat.cast_add, Nat.cast_one] at hfield'
      rw [hbits, hbits', List.flatMap_append, List.flatMap_append, List.flatMap_cons,
        List.flatMap_cons, hfield, hfield', ← List.append_assoc, ← List.append_assoc,
        Bits.getD_around_ne_iff]
      constructor
      · rintro ⟨i, hi, hplace, hne⟩
        rwa [(honly i).mp hne] at hplace
      · exact fun hplace => ⟨k, hk, hplace, (honly k).mpr rfl⟩
    refine ⟨left, right, hleft, hright, (before.flatMap BitField.bits).length + width - 1 - k, ?_,
      ?_⟩
    · exact (hdiffers _).mpr (by omega)
    · intro p hp
      have hplace := (hdiffers p).mp hp
      omega

/-- Two bytes read as fields of 3, 9 and 4 bits, with an error in the second field, which crosses
the border of the bytes; and the neighbours 255 and 256, whose natural codes differ in nine bits. -/
theorem single_bit_error_stays_in_field_across :
    (∀ width ∈ [3, 9, 4], 1 ≤ width ∧ width ≤ 16) ∧
    [3, 9, 4].sum ≤ 8 * [(0xb7 : UInt8), 0x0f].length ∧
    (∃ before width after k, [3, 9, 4] = before ++ width :: after ∧ k < width ∧
      5 + k + 1 = before.sum + width ∧
      ∃ (earlier : List Nat) (v : Nat) (later : List Nat) (reader reader' : BitReader),
        earlier.length = before.length ∧
        BitReader.readAll { bytes := [0xb7, 0x0f] } [3, 9, 4] =
          .ok ((earlier ++ v :: later).map Int.ofNat, reader) ∧
        BitReader.readAll { bytes := Bits.flip [0xb7, 0x0f] 5 } [3, 9, 4] =
          .ok ((earlier ++ (v ^^^ (2 ^ (k + 1) - 1)) :: later).map Int.ofNat, reader')) ∧
    ∃ left right,
      BitWriter.writeAll { size := 2 } [⟨5, 3, .gray⟩, ⟨255, 9, .gray⟩, ⟨3, 4, .natural⟩] =
        .ok left ∧
      BitWriter.writeAll { size := 2 } [⟨5, 3, .gray⟩, ⟨256, 9, .gray⟩, ⟨3, 4, .natural⟩] =
        .ok right ∧
      ∃! p, Bits.bitAt left.bytes p ≠ Bits.bitAt right.bytes p := by
  obtain ⟨hflip, hneighbours⟩ := single_bit_error_stays_in_field
  refine ⟨by decide, by decide, ?_, ?_⟩
  · obtain ⟨before, width, after, k, hsplit, hk, hplace, earlier, v, later, reader, reader',
      hlength, hread, hread', -⟩ :=
      hflip [0xb7, 0x0f] [3, 9, 4] (by decide) (by decide) 5 (by decide)
    exact ⟨before, width, after, k, hsplit, hk, hplace, earlier, v, later, reader, reader', hlength,
      hread, hread'⟩
  · exact hneighbours 2 [⟨5, 3, .gray⟩] [⟨3, 4, .natural⟩] 9 255 (by decide) (by decide) (by decide)
      (by decide)

end Vocoder
