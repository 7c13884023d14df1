import Vocoder.Prediction.Recursion
import Vocoder.Proofs.Outcome

/-!
The two filters of linear prediction undo each other, over every commutative ring. A residual is a
sum over the samples so far, a rebuilt signal feeds on itself; what both filters keep is one
relation between a signal and its residual. When the first coefficient is one, that relation fixes
the signal sample by sample, also at the start, where fewer samples exist than the order asks for.
-/

namespace Vocoder.Prediction

open Finset

variable {α : Type} [CommRing α]

/-- The entry of a buffer at a position, zero after its end. -/
def entry (signal : Array α) (i : Nat) : α := signal.getD i 0

theorem yields_fetch_entry {signal : Array α} {i : Int} {k : Nat} (hi : i = k)
    (hk : k < signal.size) : Yields (fetch signal i) fun x => x = entry signal k := by
  refine (yields_fetch_at hi hk).mono fun x hx => ?_
  simp [entry, hx]

theorem entry_push (signal : Array α) (x : α) (k : Nat) :
    entry (signal.push x) k = if k = signal.size then x else entry signal k := by
  simp only [entry, Array.getD_eq_getD_getElem?, Array.getElem?_push]
  split_ifs <;> rfl

theorem eq_of_entry_eq {xs ys : Array α} (hsize : xs.size = ys.size)
    (h : ∀ i, i < xs.size → entry xs i = entry ys i) : xs = ys := by
  apply Array.ext hsize
  intro i hi hi'
  simpa [entry, hi, hi'] using h i hi

/-! ### A signal and its residual -/

/-- What a filter of the coefficients `a` leaves of a signal at a position: no sample before the
first one enters. -/
def leftover (a signal : Array α) (order i : Nat) : α :=
  ∑ j ∈ range (min order i + 1), entry signal (i - j) * entry a j

/-- A residual has what the filter leaves of the signal at every position. -/
structure Leaves (a : Array α) (order : Nat) (signal residual : Array α) : Prop where
  size : residual.size = signal.size
  value : ∀ i, i < signal.size → entry residual i = leftover a signal order i

/-- The newest sample enters with the first coefficient, all others are past. -/
theorem leftover_eq_add (a signal : Array α) (order i : Nat) :
    leftover a signal order i = entry signal i * entry a 0 +
      ∑ j ∈ range (min order i), entry signal (i - (j + 1)) * entry a (j + 1) := by
  rw [leftover, sum_range_succ', Nat.sub_zero, add_comm]

/-- Signals that agree up to a position have the same leftover there. -/
theorem leftover_congr {a signal signal' : Array α} {order i : Nat}
    (h : ∀ k, k ≤ i → entry signal k = entry signal' k) :
    leftover a signal order i = leftover a signal' order i := by
  apply sum_congr rfl
  intro j _
  rw [h (i - j) (Nat.sub_le i j)]

theorem Leaves.residual_unique {a signal residual residual' : Array α} {order : Nat}
    (h : Leaves a order signal residual) (h' : Leaves a order signal residual') :
    residual = residual' := by
  apply eq_of_entry_eq (h.size.trans h'.size.symm)
  intro i hi
  rw [h.size] at hi
  rw [h.value i hi, h'.value i hi]

/-- A residual comes from one signal only. -/
theorem Leaves.signal_unique {a signal signal' residual : Array α} {order : Nat}
    (hfirst : entry a 0 = 1) (h : Leaves a order signal residual)
    (h' : Leaves a order signal' residual) : signal = signal' := by
  have hsize : signal.size = signal'.size := h.size.symm.trans h'.size
  apply eq_of_entry_eq hsize
  -- All samples before position `i` agree already, and they are all that the residual takes off.
  intro i hi
  induction i using Nat.strong_induction_on with
  | _ i ih =>
      have hvalue : leftover a signal order i = leftover a signal' order i := by
        rw [← h.value i hi, ← h'.value i (hsize ▸ hi)]
      have hpast : ∀ j ∈ range (min order i),
          entry signal (i - (j + 1)) * entry a (j + 1) =
            entry signal' (i - (j + 1)) * entry a (j + 1) := by
        intro j hj
        rw [mem_range] at hj
        rw [ih (i - (j + 1)) (by omega) (by omega)]
      rw [leftover_eq_add, leftover_eq_add, sum_congr rfl hpast, hfirst, mul_one, mul_one] at hvalue
      exact add_right_cancel hvalue

/-! ### The filters -/

theorem yields_inverseFilter (signal : Array α) {a : Array α} {order : Nat}
    (ha : order + 1 ≤ a.size) : Yields (inverseFilter signal a order) (Leaves a order signal) := by
  have hvalue : ∀ i, i < signal.size →
      (sumBetween 0 (min (order : Int) i + 1) 0 fun j => do
        return (← fetch signal (i - j)) * (← fetch a j)) = .ok (leftover a signal order i) := by
    intro i hi
    rw [show min (order : Int) i + 1 = (min order i + 1 : Nat) by omega]
    refine (sumBetween_eq_sum fun j hj => ?_).trans (congrArg Except.ok (zero_add _))
    obtain ⟨x, hx, rfl⟩ : Yields (fetch signal (i - (j : Int))) fun x => x = entry signal (i - j) :=
      yields_fetch_entry (by omega) (by omega)
    obtain ⟨y, hy, rfl⟩ : Yields (fetch a (j : Int)) fun y => y = entry a j :=
      yields_fetch_entry rfl (by omega)
    rw [hx, hy]
    rfl
  refine (yields_tabulate_at (P := fun i x => x = leftover a signal order i)
    fun i hi => ⟨_, hvalue i hi, rfl⟩).mono fun residual hdone => ⟨hdone.1, fun i hi => ?_⟩
  apply hdone.2
  simp [entry, hdone.1, hi]

/-- The next sample is what the residual has on top of all past samples. -/
theorem yields_nextSample {a signal : Array α} {order : Nat} (ha : order + 1 ≤ a.size)
    (start : α) :
    Yields (foldBetween 1 (min (order : Int) signal.size + 1) start fun acc j => do
        return acc - (← fetch signal (signal.size - j)) * (← fetch a j)) fun x =>
      x = start - ∑ j ∈ range (min order signal.size),
        entry signal (signal.size - (j + 1)) * entry a (j + 1) := by
  refine yields_foldBetween (P := fun i acc => acc = start - ∑ j ∈ range (i - 1).toNat,
    entry signal (signal.size - (j + 1)) * entry a (j + 1)) (by simp) ?_ ?_
  · rintro i acc hi hlt rfl
    obtain ⟨k, rfl⟩ : ∃ k : Nat, i = k + 1 := ⟨(i - 1).toNat, by omega⟩
    refine (yields_fetch_entry (k := signal.size - (k + 1)) (by omega) (by omega)).bind
      fun x hx => ?_
    refine (yields_fetch_entry (k := k + 1) (by omega) (by omega)).bind fun y hy => Yields.pure ?_
    rw [show ((k : Int) + 1 + 1 - 1).toNat = k + 1 by omega, sum_range_succ, hx, hy,
      show ((k : Int) + 1 - 1).toNat = k by omega]
    ring
  · intro acc hacc
    rwa [show (max 1 (min (order : Int) signal.size + 1) - 1).toNat = min order signal.size by
      omega] at hacc

/-- The rebuilt signal has the residual that it was rebuilt from. -/
theorem yields_synthesisFilter (residual : Array α) {a : Array α} {order : Nat}
    (ha : order + 1 ≤ a.size) (hfirst : entry a 0 = 1) :
    Yields (synthesisFilter residual a order) fun signal => Leaves a order signal residual := by
  refine yields_foldBetween (P := fun i signal => (signal.size : Int) = i ∧
    ∀ k, k < signal.size → entry residual k = leftover a signal order k) ⟨rfl, by simp⟩ ?_ ?_
  · rintro i signal hi hlt ⟨rfl, hbefore⟩
    refine (yields_fetch_entry (k := signal.size) rfl (by omega)).bind fun fresh hfresh => ?_
    refine (yields_fetch_entry (k := 0) rfl (by omega)).bind fun gain hgain => ?_
    refine (yields_nextSample ha _).bind fun x hx => Yields.pure ⟨by simp, fun k hk => ?_⟩
    have hold : ∀ k, k < signal.size → entry (signal.push x) k = entry signal k := by
      intro k hk
      rw [entry_push, if_neg (by omega)]
    rw [Array.size_push] at hk
    rcases Nat.lt_succ_iff_lt_or_eq.mp hk with hlt | rfl
    · rw [hbefore k hlt]
      exact leftover_congr fun l hl => (hold l (by omega)).symm
    · have hpast : ∀ j ∈ range (min order signal.size),
          entry (signal.push x) (signal.size - (j + 1)) * entry a (j + 1) =
            entry signal (signal.size - (j + 1)) * entry a (j + 1) := by
        intro j hj
        rw [mem_range] at hj
        rw [hold _ (by omega)]
      rw [leftover_eq_add, sum_congr rfl hpast, entry_push, if_pos rfl, hx, hgain, hfirst,
        ← hfresh]
      ring
  · rintro signal ⟨hsize, hvalue⟩
    exact ⟨by omega, hvalue⟩

/-- The synthesis filter and the inverse filter undo each other in both directions, for signals of
any length, every order, and all coefficients up to it of which the first is one: both return, and
each gives back what the other was given. -/
theorem residual_filters_inverse (a : Array α) (order : Nat) (ha : order + 1 ≤ a.size)
    (hfirst : entry a 0 = 1) :
    (∀ signal : Array α, ∃ residual, inverseFilter signal a order = .ok residual ∧
      synthesisFilter residual a order = .ok signal) ∧
    ∀ residual : Array α, ∃ signal, synthesisFilter residual a order = .ok signal ∧
      inverseFilter signal a order = .ok residual := by
  constructor
  · intro signal
    obtain ⟨residual, hresidual, hleaves⟩ := yields_inverseFilter signal ha
    obtain ⟨rebuilt, hrebuilt, hleaves'⟩ := yields_synthesisFilter residual ha hfirst
    rw [hleaves'.signal_unique hfirst hleaves] at hrebuilt
    exact ⟨residual, hresidual, hrebuilt⟩
  · intro residual
    obtain ⟨signal, hsignal, hleaves⟩ := yields_synthesisFilter residual ha hfirst
    obtain ⟨again, hagain, hleaves'⟩ := yields_inverseFilter signal ha
    rw [hleaves'.residual_unique hleaves] at hagain
    exact ⟨signal, hsignal, hagain⟩

/-- A signal of whole numbers that is shorter than the order. -/
theorem residual_filters_inverse_short : 3 + 1 ≤ (#[1, -2, 5, 7] : Array ℤ).size ∧
    entry (#[1, -2, 5, 7] : Array ℤ) 0 = 1 ∧
    (∃ residual, inverseFilter (#[4, -3] : Array ℤ) #[1, -2, 5, 7] 3 = .ok residual ∧
      synthesisFilter residual #[1, -2, 5, 7] 3 = .ok #[4, -3]) ∧
    ∃ signal, synthesisFilter (#[4, -3] : Array ℤ) #[1, -2, 5, 7] 3 = .ok signal ∧
      inverseFilter signal #[1, -2, 5, 7] 3 = .ok #[4, -3] := by
  have hboth := residual_filters_inverse (#[1, -2, 5, 7] : Array ℤ) 3 (by decide) rfl
  exact ⟨by decide, rfl, hboth.1 #[4, -3], hboth.2 #[4, -3]⟩

end Vocoder.Prediction
