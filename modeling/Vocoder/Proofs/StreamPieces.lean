import Mathlib
import Vocoder.Stream

/-!
Streams in pieces. A stream that is put together from pieces of one size, with less than a piece at
its end, is cut into these pieces again. The pieces of a stream of bytes are read as samples, two
bytes each: a sample is the signed value of 16 bits that its two bytes have, the lower one first,
and its bytes are the remainder and the quotient of that value by 256.
-/

namespace Vocoder

variable {β : Type}

theorem pieces_of_lt {size : Nat} {stream : List β} (h : stream.length < size) :
    pieces size stream = [] := by
  rw [pieces]
  apply dif_neg
  rw [List.length_take]
  omega

theorem pieces_append {size : Nat} (hsize : 0 < size) {piece rest : List β}
    (h : piece.length = size) : pieces size (piece ++ rest) = piece :: pieces size rest := by
  rw [pieces, List.take_left' h, List.drop_left' h]
  exact dif_pos ⟨hsize, h⟩

/-- The pieces of a stream, one at a time. -/
theorem pieces_of_le {size : Nat} (hsize : 0 < size) {stream : List β} (h : size ≤ stream.length) :
    pieces size stream = stream.take size :: pieces size (stream.drop size) := by
  have hpiece : (stream.take size).length = size := List.length_take_of_le h
  calc pieces size stream
      = pieces size (stream.take size ++ stream.drop size) := by rw [List.take_append_drop]
    _ = stream.take size :: pieces size (stream.drop size) := pieces_append hsize hpiece

/-- A piece is complete, and stands where the pieces before it end. -/
theorem getElem?_pieces {size : Nat} (hsize : 0 < size) {stream piece : List β} {k : Nat}
    (h : (pieces size stream)[k]? = some piece) :
    piece = (stream.drop (size * k)).take size ∧ piece.length = size := by
  induction k generalizing stream with
  | zero =>
      by_cases hle : size ≤ stream.length
      · rw [pieces_of_le hsize hle, List.getElem?_cons_zero] at h
        cases h
        exact ⟨by rw [Nat.mul_zero, List.drop_zero], List.length_take_of_le hle⟩
      · rw [pieces_of_lt (by omega)] at h
        cases h
  | succ k ih =>
      by_cases hle : size ≤ stream.length
      · rw [pieces_of_le hsize hle, List.getElem?_cons_succ] at h
        obtain ⟨hpiece, hlength⟩ := ih h
        rw [List.drop_drop] at hpiece
        exact ⟨by rw [hpiece, Nat.mul_succ, Nat.add_comm size], hlength⟩
      · rw [pieces_of_lt (by omega)] at h
        cases h

/-- A stream is cut into pieces of one size, with less than a piece left at its end. -/
def CutInto (size : Nat) (stream : List β) (parts : List (List β)) : Prop :=
  (∀ part ∈ parts, part.length = size) ∧
    ∃ rest : List β, rest.length < size ∧ stream = parts.flatten ++ rest

theorem CutInto.pieces_eq {size : Nat} {stream : List β} {parts : List (List β)}
    (h : CutInto size stream parts) : pieces size stream = parts := by
  obtain ⟨hparts, rest, hrest, rfl⟩ := h
  induction parts with
  | nil => exact pieces_of_lt hrest
  | cons part parts ih =>
      obtain ⟨hpart, hparts⟩ := List.forall_mem_cons.mp hparts
      rw [List.flatten_cons, List.append_assoc, pieces_append (Nat.zero_lt_of_lt hrest) hpart,
        ih hparts]

theorem cutInto_flatten {size : Nat} (hsize : 0 < size) {parts : List (List β)}
    (h : ∀ part ∈ parts, part.length = size) : CutInto size parts.flatten parts :=
  ⟨h, [], hsize, (List.append_nil _).symm⟩

theorem cutInto_pieces {size : Nat} (hsize : 0 < size) (stream : List β) :
    CutInto size stream (pieces size stream) := by
  induction hn : stream.length using Nat.strong_induction_on generalizing stream with
  | _ n ih =>
      subst hn
      by_cases hle : size ≤ stream.length
      · obtain ⟨hparts, rest, hrest, hstream⟩ :=
          ih _ (by rw [List.length_drop]; omega) (stream.drop size) rfl
        rw [pieces_of_le hsize hle]
        refine ⟨List.forall_mem_cons.mpr ⟨List.length_take_of_le hle, hparts⟩, rest, hrest, ?_⟩
        rw [List.flatten_cons, List.append_assoc, ← hstream, List.take_append_drop]
      · rw [pieces_of_lt (by omega)]
        exact ⟨by simp, stream, by omega, rfl⟩

/-- There are as many pieces as fit into the stream. -/
theorem CutInto.length_eq {size : Nat} {stream : List β} {parts : List (List β)}
    (h : CutInto size stream parts) : parts.length = stream.length / size := by
  obtain ⟨hparts, rest, hrest, rfl⟩ := h
  have hlength : parts.flatten.length = parts.length * size := by
    rw [List.length_flatten, List.map_congr_left hparts, List.map_const', List.sum_replicate,
      smul_eq_mul]
  rw [List.length_append, hlength, Nat.mul_comm,
    Nat.mul_add_div (Nat.zero_lt_of_lt hrest), Nat.div_eq_of_lt hrest, Nat.add_zero]

/-! ### Samples as bytes -/

namespace Pcm

/-- Bytes hold samples, two bytes for each, the lower one first. The sample is the signed value of
its two bytes, and they are the remainder and the quotient of its word of 16 bits by 256. -/
structure Holds (bytes : List UInt8) (samples : List Int16) : Prop where
  length : bytes.length = 2 * samples.length
  value : ∀ i x, samples[i]? = some x → ∃ low high : UInt8,
    bytes[2 * i]? = some low ∧ bytes[2 * i + 1]? = some high ∧
    x.toInt = Int.bmod (low.toNat + 256 * high.toNat) 65536 ∧
    (low.toNat : Int) = x.toInt % 65536 % 256 ∧ (high.toNat : Int) = x.toInt % 65536 / 256

/-- The frames of a stream of bytes, as many as are complete. -/
def Frames (size : Nat) (bytes : List UInt8) (frames : List (Array Int16)) : Prop :=
  ∃ parts, CutInto (2 * size) bytes parts ∧
    List.Forall₂ (fun part frame => Holds part frame.toList) parts frames

theorem toInt_sample (low high : UInt8) :
    (sample low high).toInt = Int.bmod (low.toNat + 256 * high.toNat) 65536 := by
  rw [sample, Int16.toInt_ofNat']
  push_cast
  rfl

theorem toInt_eq_bmod (x : Int16) : x.toInt = Int.bmod x.toUInt16.toNat 65536 :=
  x.toBitVec.toInt_eq_toNat_bmod

theorem toNat_toUInt16 (x : Int16) : (x.toUInt16.toNat : Int) = x.toInt % 65536 := by
  have hlt := x.toUInt16.toNat_lt
  have hword := Int.bmod_emod (x := (x.toUInt16.toNat : Int)) (m := 65536)
  rw [← toInt_eq_bmod] at hword
  omega

theorem exists_sampleBytes (x : Int16) : ∃ low high : UInt8, sampleBytes x = [low, high] ∧
    (low.toNat : Int) = x.toInt % 65536 % 256 ∧ (high.toNat : Int) = x.toInt % 65536 / 256 := by
  have hlt := x.toUInt16.toNat_lt
  have hword := toNat_toUInt16 x
  have hlow : (UInt8.ofNat (x.toUInt16.toNat % 256)).toNat = x.toUInt16.toNat % 256 :=
    UInt8.toNat_ofNat_of_lt' (Nat.mod_lt _ (by decide))
  have hhigh : (UInt8.ofNat (x.toUInt16.toNat / 256)).toNat = x.toUInt16.toNat / 256 :=
    UInt8.toNat_ofNat_of_lt' (Nat.div_lt_of_lt_mul hlt)
  exact ⟨_, _, rfl, by omega, by omega⟩

/-- The bytes of a sample determine it. -/
theorem toInt_of_bytes {x : Int16} {low high : UInt8}
    (hlow : (low.toNat : Int) = x.toInt % 65536 % 256)
    (hhigh : (high.toNat : Int) = x.toInt % 65536 / 256) :
    x.toInt = Int.bmod (low.toNat + 256 * high.toNat) 65536 := by
  have hword := toNat_toUInt16 x
  rw [toInt_eq_bmod]
  congr 1
  omega

/-- A sample determines its bytes. -/
theorem bytes_of_toInt {x : Int16} {low high : UInt8}
    (h : x.toInt = Int.bmod (low.toNat + 256 * high.toNat) 65536) :
    (low.toNat : Int) = x.toInt % 65536 % 256 ∧ (high.toNat : Int) = x.toInt % 65536 / 256 := by
  have hlow := low.toNat_lt
  have hhigh := high.toNat_lt
  have hword := Int.bmod_emod (x := (low.toNat + 256 * high.toNat : Int)) (m := 65536)
  rw [← h] at hword
  omega

theorem holds_nil : Holds [] [] := ⟨rfl, by simp⟩

theorem Holds.cons {low high : UInt8} {bytes : List UInt8} {x : Int16} {samples : List Int16}
    (hlow : (low.toNat : Int) = x.toInt % 65536 % 256)
    (hhigh : (high.toNat : Int) = x.toInt % 65536 / 256) (h : Holds bytes samples) :
    Holds (low :: high :: bytes) (x :: samples) := by
  constructor
  · simp only [List.length_cons, h.length]
    omega
  · intro i y hy
    cases i with
    | zero =>
        cases hy
        exact ⟨low, high, rfl, rfl, toInt_of_bytes hlow hhigh, hlow, hhigh⟩
    | succ i => exact h.value i y hy

theorem holds_toBytes (samples : List Int16) : Holds (toBytes samples) samples := by
  induction samples with
  | nil => exact holds_nil
  | cons x samples ih =>
      obtain ⟨low, high, hbytes, hlow, hhigh⟩ := exists_sampleBytes x
      rw [toBytes, List.flatMap_cons, hbytes]
      exact ih.cons hlow hhigh

theorem holds_ofBytes {bytes : List UInt8} (h : bytes.length % 2 = 0) :
    Holds bytes (ofBytes bytes) := by
  fun_induction ofBytes bytes with
  | case1 low high rest ih =>
      obtain ⟨hlow, hhigh⟩ := bytes_of_toInt (toInt_sample low high)
      rw [List.length_cons, List.length_cons] at h
      exact (ih (by omega)).cons hlow hhigh
  | case2 bytes hshort =>
      rcases bytes with _ | ⟨low, _ | ⟨high, rest⟩⟩
      · exact holds_nil
      · cases h
      · exact (hshort low high rest rfl).elim

/-- No two lists of samples have the same bytes. -/
theorem Holds.samples_eq {bytes : List UInt8} {samples samples' : List Int16}
    (h : Holds bytes samples) (h' : Holds bytes samples') : samples = samples' := by
  have hlength := h.length
  have hlength' := h'.length
  apply List.ext_getElem (by omega)
  intro i hi hi'
  obtain ⟨low, high, hlow, hhigh, hvalue, -⟩ := h.value i _ (List.getElem?_eq_getElem hi)
  obtain ⟨low', high', hlow', hhigh', hvalue', -⟩ := h'.value i _ (List.getElem?_eq_getElem hi')
  rw [hlow, Option.some.injEq] at hlow'
  rw [hhigh, Option.some.injEq] at hhigh'
  apply Int16.toInt_inj.mp
  rw [hvalue, hvalue', hlow', hhigh']

/-- The frames of a stream are what its pieces are read as. -/
theorem Frames.eq_map {size : Nat} {bytes : List UInt8} {frames : List (Array Int16)}
    (h : Frames size bytes frames) :
    frames = (pieces (2 * size) bytes).map fun piece => (ofBytes piece).toArray := by
  obtain ⟨parts, hcut, hframes⟩ := h
  rw [hcut.pieces_eq]
  have hparts := hcut.1
  clear hcut
  induction hframes with
  | nil => rfl
  | cons hframe _ ih =>
      obtain ⟨hpart, hparts⟩ := List.forall_mem_cons.mp hparts
      have hsamples := hframe.samples_eq (holds_ofBytes (by omega))
      rw [List.map_cons, ← hsamples, ← ih hparts]

theorem exists_frames {size : Nat} (hsize : 0 < size) (bytes : List UInt8) :
    ∃ frames, Frames size bytes frames := by
  have hcut := cutInto_pieces (show 0 < 2 * size by omega) bytes
  refine ⟨(pieces (2 * size) bytes).map fun piece => (ofBytes piece).toArray, _, hcut, ?_⟩
  rw [List.forall₂_map_right_iff, List.forall₂_same]
  intro piece hpiece
  have hlength := hcut.1 piece hpiece
  exact holds_ofBytes (by omega)

theorem Frames.length_eq {size : Nat} {bytes : List UInt8} {frames : List (Array Int16)}
    (h : Frames size bytes frames) : frames.length = bytes.length / (2 * size) := by
  obtain ⟨parts, hcut, hframes⟩ := h
  rw [← hframes.length_eq, hcut.length_eq]

theorem Frames.size_eq {size : Nat} {bytes : List UInt8} {frames : List (Array Int16)}
    (h : Frames size bytes frames) {frame : Array Int16} (hframe : frame ∈ frames) :
    frame.size = size := by
  rw [h.eq_map] at hframe
  obtain ⟨piece, hpiece, rfl⟩ := List.mem_map.mp hframe
  obtain ⟨parts, hcut, -⟩ := h
  rw [hcut.pieces_eq] at hpiece
  have hpiece_length := hcut.1 piece hpiece
  have hlength : piece.length = 2 * (ofBytes piece).length := (holds_ofBytes (by omega)).length
  rw [List.size_toArray]
  omega

end Pcm

end Vocoder
