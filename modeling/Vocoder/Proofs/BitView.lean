import Mathlib
import Vocoder.Bits

/-!
A frame as the list of its bits. Bytes are read through `bitAt`, the bit at a position counted from
the most significant bit of the first byte; lists of bits stand for numbers through `ofNat` and
`toNat`, which are inverse to each other at a given width.
-/

namespace Vocoder.Bits

/-- The number that bits stand for, most significant first. -/
def toNat (bits : List Bool) : Nat :=
  bits.foldl (fun n bit => 2 * n + bit.toNat) 0

/-- The bit at a position of a string of bytes, false beyond its end. -/
def bitAt (bytes : List UInt8) (p : Nat) : Bool :=
  (bytes.getD (p / 8) 0).toNat.testBit (7 - p % 8)

/-! ### Numbers and their bits -/

@[simp] theorem length_ofNat (width n : Nat) : (ofNat width n).length = width := by
  simp [ofNat]

theorem getElem?_ofNat {width n k : Nat} (hk : k < width) :
    (ofNat width n)[k]? = some (n.testBit (width - 1 - k)) := by
  simp [ofNat, hk]

theorem ofNat_zero_right (width : Nat) : ofNat width 0 = List.replicate width false := by
  apply List.ext_getElem?
  intro k
  by_cases hk : k < width
  · rw [getElem?_ofNat hk]
    simp [hk]
  · simp [ofNat, hk]

/-- The bits of a number are its upper bits followed by its lower bits. -/
theorem ofNat_add (high low n : Nat) :
    ofNat (high + low) n = ofNat high (n >>> low) ++ ofNat low n := by
  apply List.ext_getElem?
  intro k
  by_cases hk : k < high
  · rw [getElem?_ofNat (by omega), List.getElem?_append_left (by simpa using hk),
      getElem?_ofNat hk, Nat.testBit_shiftRight]
    congr 2
    omega
  · rw [List.getElem?_append_right (by simpa using hk), length_ofNat]
    by_cases hlow : k < high + low
    · rw [getElem?_ofNat hlow, getElem?_ofNat (by omega)]
      congr 2
      omega
    · rw [List.getElem?_eq_none (by simpa using hlow),
        List.getElem?_eq_none (by rw [length_ofNat]; omega)]

theorem ofNat_mod (width n : Nat) : ofNat width (n % 2 ^ width) = ofNat width n := by
  apply List.ext_getElem?
  intro k
  by_cases hk : k < width
  · rw [getElem?_ofNat hk, getElem?_ofNat hk, Nat.testBit_mod_two_pow]
    simp [show width - 1 - k < width by omega]
  · simp [ofNat, hk]

theorem toNat_append_singleton (bits : List Bool) (bit : Bool) :
    toNat (bits ++ [bit]) = 2 * toNat bits + bit.toNat := by
  simp [toNat]

theorem ofNat_succ (width n : Nat) :
    ofNat (width + 1) n = ofNat width (n / 2) ++ [n.testBit 0] := by
  rw [ofNat_add width 1 n, Nat.shiftRight_eq_div_pow, Nat.pow_one]
  rfl

theorem toNat_ofNat (width n : Nat) : toNat (ofNat width n) = n % 2 ^ width := by
  induction width generalizing n with
  | zero => simp [ofNat, toNat, Nat.mod_one]
  | succ width ih =>
      have hlast : (n.testBit 0).toNat = n % 2 := by
        rw [Nat.testBit_zero]
        rcases Nat.mod_two_eq_zero_or_one n with h | h <;> simp [h]
      rw [ofNat_succ, toNat_append_singleton, ih, hlast, Nat.pow_succ', Nat.mod_mul]
      omega

theorem ofNat_toNat (bits : List Bool) : ofNat bits.length (toNat bits) = bits := by
  induction bits using List.reverseRecOn with
  | nil => simp [ofNat]
  | append_singleton bits bit ih =>
      rw [List.length_append, List.length_singleton, ofNat_succ, toNat_append_singleton]
      have hhalf : (2 * toNat bits + bit.toNat) / 2 = toNat bits := by
        have := bit.toNat_lt
        omega
      have hlast : (2 * toNat bits + bit.toNat).testBit 0 = bit := by
        rw [Nat.testBit_zero]
        cases bit <;> simp
      rw [hhalf, hlast, ih]

theorem toNat_lt (bits : List Bool) : toNat bits < 2 ^ bits.length := by
  have hmod := toNat_ofNat bits.length (toNat bits)
  rw [ofNat_toNat] at hmod
  rw [hmod]
  exact Nat.mod_lt _ (Nat.two_pow_pos _)

theorem testBit_toNat (bits : List Bool) (k : Nat) :
    (toNat bits).testBit k =
      (decide (k < bits.length) && bits.getD (bits.length - 1 - k) false) := by
  by_cases hk : k < bits.length
  · have hget : (ofNat bits.length (toNat bits))[bits.length - 1 - k]? = _ :=
      getElem?_ofNat (by omega)
    rw [ofNat_toNat, show bits.length - 1 - (bits.length - 1 - k) = k by omega] at hget
    simp [List.getD_eq_getElem?_getD, hget, hk]
  · have hlt : toNat bits < 2 ^ k :=
      Nat.lt_of_lt_of_le (toNat_lt bits) (Nat.pow_le_pow_right (by omega) (by omega))
    rw [Nat.testBit_lt_two_pow hlt]
    simp [hk]

/-! ### Bytes and their bits -/

theorem ofBytes_cons (byte : UInt8) (bytes : List UInt8) :
    ofBytes (byte :: bytes) = ofNat 8 byte.toNat ++ ofBytes bytes := rfl

@[simp] theorem length_ofBytes (bytes : List UInt8) :
    (ofBytes bytes).length = 8 * bytes.length := by
  induction bytes with
  | nil => rfl
  | cons byte bytes ih =>
      rw [ofBytes_cons, List.length_append, length_ofNat, ih, List.length_cons]
      omega

theorem getElem?_ofBytes {bytes : List UInt8} {p : Nat} (hp : p < 8 * bytes.length) :
    (ofBytes bytes)[p]? = some (bitAt bytes p) := by
  induction bytes generalizing p with
  | nil => simp at hp
  | cons byte bytes ih =>
      rw [ofBytes_cons]
      by_cases hfirst : p < 8
      · rw [List.getElem?_append_left (by simpa using hfirst), getElem?_ofNat hfirst, bitAt,
          show p / 8 = 0 by omega, show p % 8 = p by omega]
        rfl
      · rw [List.length_cons] at hp
        rw [List.getElem?_append_right (by simpa using hfirst), length_ofNat, ih (by omega), bitAt,
          bitAt, show p / 8 = (p - 8) / 8 + 1 by omega, show (p - 8) % 8 = p % 8 by omega]
        rfl

/-- Two strings of bytes with the same bits are equal. -/
theorem ofBytes_injective {left right : List UInt8} (h : ofBytes left = ofBytes right) :
    left = right := by
  induction left generalizing right with
  | nil =>
      have hlen := congrArg List.length h
      simp only [length_ofBytes, List.length_nil] at hlen
      exact (List.eq_nil_of_length_eq_zero (by omega)).symm
  | cons byte left ih =>
      cases right with
      | nil =>
          have hlen := congrArg List.length h
          simp at hlen
      | cons other right =>
          rw [ofBytes_cons, ofBytes_cons] at h
          obtain ⟨hhead, htail⟩ := List.append_inj h (by simp)
          have hbyte := congrArg toNat hhead
          rw [toNat_ofNat, toNat_ofNat, Nat.mod_eq_of_lt byte.toNat_lt,
            Nat.mod_eq_of_lt other.toNat_lt] at hbyte
          rw [UInt8.toNat_inj.mp hbyte, ih htail]

/-- The number in the `width` bits from a position on. -/
def field (bytes : List UInt8) (position width : Nat) : Nat :=
  toNat (((ofBytes bytes).drop position).take width)

theorem testBit_field {bytes : List UInt8} {position width : Nat}
    (hfit : position + width ≤ 8 * bytes.length) (k : Nat) :
    (field bytes position width).testBit k =
      (decide (k < width) && bitAt bytes (position + width - 1 - k)) := by
  have hlen : (((ofBytes bytes).drop position).take width).length = width := by
    rw [List.length_take, List.length_drop, length_ofBytes]
    omega
  rw [field, testBit_toNat, hlen]
  by_cases hk : k < width
  · rw [List.getD_eq_getElem?_getD, List.getElem?_take_of_lt (by omega), List.getElem?_drop,
      getElem?_ofBytes (by omega),
      show position + (width - 1 - k) = position + width - 1 - k by omega]
    rfl
  · simp [hk]

end Vocoder.Bits
