import Mathlib
import Vocoder.Bits

/-!
The Gray code and its decoder. Both are compositions of folds: a fold xors a number with itself
moved down. Folds commute and a fold done twice is the fold of twice the distance, so coding and
decoding together are the fold of distance sixteen, which is the identity below `2 ^ 16` and on no
number with a higher bit.
-/

namespace Vocoder.Gray

/-- A number xored with itself moved down. -/
def fold (distance n : Nat) : Nat := n ^^^ (n >>> distance)

theorem encode_eq_fold (n : Nat) : encode n = fold 1 n := rfl

theorem decode_eq_folds (code : Nat) :
    decode code = fold 1 (fold 2 (fold 4 (fold 8 code))) := rfl

theorem testBit_fold (distance n k : Nat) :
    (fold distance n).testBit k = (n.testBit k ^^ n.testBit (distance + k)) := by
  rw [fold, Nat.testBit_xor, Nat.testBit_shiftRight]

theorem fold_fold (distance n : Nat) : fold distance (fold distance n) = fold (2 * distance) n := by
  apply Nat.eq_of_testBit_eq
  intro k
  rw [testBit_fold, testBit_fold, testBit_fold, testBit_fold,
    show distance + (distance + k) = 2 * distance + k by omega]
  cases n.testBit k <;> cases n.testBit (distance + k) <;> simp

theorem fold_comm (left right n : Nat) : fold left (fold right n) = fold right (fold left n) := by
  apply Nat.eq_of_testBit_eq
  intro k
  rw [testBit_fold, testBit_fold, testBit_fold, testBit_fold, testBit_fold, testBit_fold,
    show left + (right + k) = right + (left + k) by omega]
  cases n.testBit k <;> cases n.testBit (right + k) <;> cases n.testBit (left + k) <;> simp

theorem folds_eq_fold_sixteen (n : Nat) :
    fold 1 (fold 1 (fold 2 (fold 4 (fold 8 n)))) = fold 16 n := by
  calc fold 1 (fold 1 (fold 2 (fold 4 (fold 8 n))))
      = fold 2 (fold 2 (fold 4 (fold 8 n))) := fold_fold 1 _
    _ = fold 4 (fold 4 (fold 8 n)) := fold_fold 2 _
    _ = fold 8 (fold 8 n) := fold_fold 4 _
    _ = fold 16 n := fold_fold 8 n

/-- Decoding undoes coding up to the bits from the sixteenth on, which fall onto the low ones. -/
theorem decode_encode (n : Nat) : decode (encode n) = fold 16 n := by
  rw [encode_eq_fold, decode_eq_folds, fold_comm 8 1, fold_comm 4 1, fold_comm 2 1,
    folds_eq_fold_sixteen]

theorem encode_decode (code : Nat) : encode (decode code) = fold 16 code := by
  rw [encode_eq_fold, decode_eq_folds, folds_eq_fold_sixteen]

theorem fold_sixteen_of_lt {n : Nat} (h : n < 2 ^ 16) : fold 16 n = n := by
  rw [fold, Nat.shiftRight_eq_zero n 16 h, Nat.xor_zero]

theorem fold_lt {distance n width : Nat} (h : n < 2 ^ width) : fold distance n < 2 ^ width :=
  Nat.xor_lt_two_pow h (Nat.lt_of_le_of_lt (Nat.shiftRight_le n distance) h)

theorem encode_lt {n width : Nat} (h : n < 2 ^ width) : encode n < 2 ^ width :=
  fold_lt h

theorem decode_lt {code width : Nat} (h : code < 2 ^ width) : decode code < 2 ^ width :=
  fold_lt (fold_lt (fold_lt (fold_lt h)))

/-- The least number that decoding does not give back. -/
theorem decode_encode_two_pow_sixteen : decode (encode (2 ^ 16)) = 2 ^ 16 + 1 := by
  rw [decode_encode]
  rfl

/-! ### One bit -/

theorem fold_xor (distance left right : Nat) :
    fold distance (left ^^^ right) = fold distance left ^^^ fold distance right := by
  apply Nat.eq_of_testBit_eq
  intro k
  simp only [testBit_fold, Nat.testBit_xor]
  rw [Bool.xor_assoc, Bool.xor_assoc, Bool.xor_left_comm (right.testBit k)]

theorem encode_xor (left right : Nat) : encode (left ^^^ right) = encode left ^^^ encode right :=
  fold_xor 1 left right

theorem decode_xor (left right : Nat) : decode (left ^^^ right) = decode left ^^^ decode right := by
  simp only [decode_eq_folds, fold_xor]

theorem encode_two_pow_sub_one (k : Nat) : encode (2 ^ (k + 1) - 1) = 2 ^ k := by
  apply Nat.eq_of_testBit_eq
  intro i
  rw [encode_eq_fold, testBit_fold, Nat.testBit_two_pow_sub_one, Nat.testBit_two_pow_sub_one,
    Nat.testBit_two_pow]
  by_cases hi : i < k
  · simp [show i < k + 1 by omega, show 1 + i < k + 1 by omega, show k ≠ i by omega]
  · by_cases hk : k = i
    · simp [hk, show ¬ 1 + i < i + 1 by omega]
    · simp [hk, show ¬ i < k + 1 by omega, show ¬ 1 + i < k + 1 by omega]

/-- A code of one bit stands for the number with that bit and all lower ones. -/
theorem decode_two_pow {k : Nat} (hk : k < 16) : decode (2 ^ k) = 2 ^ (k + 1) - 1 := by
  have hpow : 2 ^ (k + 1) ≤ 2 ^ 16 := Nat.pow_le_pow_right (by decide) hk
  have hpos : 0 < 2 ^ (k + 1) := Nat.two_pow_pos _
  rw [← encode_two_pow_sub_one, decode_encode, fold_sixteen_of_lt (by omega)]

/-- A number and the next one differ in their low bits up to the lowest zero. -/
theorem exists_succ_xor (n : Nat) : ∃ k, (n + 1) ^^^ n = 2 ^ (k + 1) - 1 := by
  induction n using Nat.strongRecOn with
  | ind n ih =>
      rcases Nat.even_or_odd' n with ⟨half, rfl | rfl⟩
      · refine ⟨0, ?_⟩
        have hbits := Nat.xor_bit true half false half
        simpa [Nat.bit_val] using hbits
      · obtain ⟨k, hk⟩ := ih half (by omega)
        refine ⟨k + 1, ?_⟩
        have hpos : 0 < 2 ^ (k + 1) := Nat.two_pow_pos _
        have hbits := Nat.xor_bit false (half + 1) true half
        rw [hk, Nat.bit_val, Nat.bit_val, Nat.bit_val] at hbits
        rw [show 2 * half + 1 + 1 = 2 * (half + 1) by omega, Nat.pow_succ 2 (k + 1)]
        simp at hbits
        omega

/-- The codes of neighbours differ in one bit. -/
theorem exists_encode_succ (n : Nat) : ∃ k, encode (n + 1) = encode n ^^^ 2 ^ k := by
  obtain ⟨k, hk⟩ := exists_succ_xor n
  refine ⟨k, ?_⟩
  calc encode (n + 1) = encode n ^^^ (encode (n + 1) ^^^ encode n) := by
        rw [Nat.xor_comm (encode (n + 1)), Nat.xor_xor_cancel_left]
    _ = encode n ^^^ encode ((n + 1) ^^^ n) := by rw [encode_xor]
    _ = encode n ^^^ 2 ^ k := by rw [hk, encode_two_pow_sub_one]

end Vocoder.Gray
