import Vocoder.Lines.Cascade
import Vocoder.Lines.Separation
import Vocoder.Proofs.Outcome

/-!
Lines of the decoder. Ordering and spreading them, and making a filter of them, never leaves the
buffer, whatever the lines are.
-/

namespace Vocoder.Lines

variable {α : Type} [Analytic α]

/-! ### Order -/

theorem yields_descentFrom {lines : Array α} {i : Int} {count : Nat} (hi : 1 ≤ i)
    (hcount : i + count ≤ lines.size) :
    Yields (descentFrom lines i count) fun found =>
      ∀ j, found = some j → 1 ≤ j ∧ j < lines.size := by
  induction count generalizing i with
  | zero => exact Yields.ok fun j hj => by cases hj
  | succ count ih =>
      rw [descentFrom]
      refine (yields_fetch_of_lt (by omega) (by omega)).bind fun line _ => ?_
      refine (yields_fetch_of_lt (by omega) (by omega)).bind fun below _ => ?_
      split
      · refine Yields.pure fun j hj => ?_
        cases hj
        omega
      · exact ih (by omega) (by omega)

theorem yields_exchange {lines : Array α} {i : Int} (hi : 1 ≤ i) (hsize : i < lines.size) :
    Yields (exchange lines i) fun next => next.size = lines.size := by
  refine (yields_fetch_of_lt (by omega) (by omega)).bind fun high _ => ?_
  refine (yields_fetch_of_lt (by omega) (by omega)).bind fun low _ => ?_
  refine (yields_store (by omega) (by omega) _).bind fun lowered hlowered => ?_
  have hlength : lowered.size = lines.size := by rw [hlowered, Array.size_setIfInBounds]
  refine (yields_store (by omega) (by omega) _).mono fun next hnext => ?_
  rw [hnext, Array.size_setIfInBounds, hlength]

theorem yields_firstDescent {order : Int} {lines : Array α} (horder : order ≤ lines.size) :
    Yields (firstDescent lines order) fun found =>
      ∀ j, found = some j → 1 ≤ j ∧ j < lines.size := by
  by_cases hone : 1 ≤ order
  · exact yields_descentFrom (Int.le_refl 1) (by omega)
  · rw [firstDescent, show (order - 1).toNat = 0 by omega]
    exact Yields.ok fun j hj => by cases hj

/-- What every exchange keeps, reordering keeps. -/
theorem yields_reorderFuel {P : Array α → Prop} {order : Int}
    (hexchange : ∀ lines i, 1 ≤ i → i < (lines.size : Int) → P lines →
      Yields (exchange lines i) fun next => next.size = lines.size ∧ P next)
    (fuel : Nat) {lines : Array α} (count : Nat) (horder : order ≤ lines.size) (h : P lines) :
    Yields (reorderFuel order fuel lines count) fun done =>
      done.1.size = lines.size ∧ P done.1 := by
  induction fuel generalizing lines count with
  | zero => exact Yields.ok ⟨rfl, h⟩
  | succ fuel ih =>
      rw [reorderFuel]
      refine (yields_firstDescent horder).bind fun found hfound => ?_
      cases found with
      | none => exact Yields.pure ⟨rfl, h⟩
      | some i =>
          obtain ⟨hi, hsize⟩ := hfound i rfl
          refine (hexchange lines i hi hsize h).bind fun next hnext => ?_
          refine (ih (count + 1) (by omega) hnext.2).mono fun done hdone => ?_
          exact ⟨hdone.1.trans hnext.1, hdone.2⟩

theorem yields_reorder {order : Int} {lines : Array α} (horder : order ≤ lines.size) :
    Yields (reorder lines order) fun done => done.1.size = lines.size :=
  (yields_reorderFuel (P := fun _ => True)
    (fun _ _ hi hsize _ => (yields_exchange hi hsize).mono fun _ hnext => ⟨hnext, trivial⟩) _ 0
    horder trivial).mono fun _ hdone => hdone.1

/-! ### Distances -/

theorem yields_pushUp {order : Int} {lines : Array α} (horder : order ≤ lines.size) :
    Yields (pushUp lines order) fun done => done.size = lines.size := by
  refine yields_foldBetween (P := fun _ done => done.size = lines.size) rfl ?_ fun _ h => h
  intro i done hi hlt hdone
  refine (yields_fetch_of_lt (by omega) (by omega)).bind fun below _ => ?_
  refine (yields_fetch_of_lt (by omega) (by omega)).bind fun line _ => ?_
  split
  · refine (yields_store (by omega) (by omega) _).mono fun next hnext => ?_
    rw [hnext, Array.size_setIfInBounds, hdone]
  · exact Yields.pure hdone

theorem yields_pushDown {order : Int} {lines : Array α} (horder : order ≤ lines.size) :
    Yields (pushDown lines order) fun done => done.size = lines.size := by
  refine yields_foldBetween (P := fun _ done => done.size = lines.size) rfl ?_ fun _ h => h
  intro k done hk hlt hdone
  refine (yields_fetch_of_lt (by omega) (by omega)).bind fun above _ => ?_
  refine (yields_fetch_of_lt (by omega) (by omega)).bind fun line _ => ?_
  split
  · refine (yields_store (by omega) (by omega) _).mono fun next hnext => ?_
    rw [hnext, Array.size_setIfInBounds, hdone]
  · exact Yields.pure hdone

theorem yields_spread {order : Int} {lines : Array α} (hpos : 1 ≤ order)
    (horder : order ≤ lines.size) :
    Yields (spread lines order) fun done => done.size = lines.size := by
  refine (yields_pushUp horder).bind fun pushed hpushed => ?_
  refine (yields_fetch_of_lt (by omega) (by omega)).bind fun top _ => ?_
  split
  · refine (yields_store (by omega) (by omega) _).bind fun capped hcapped => ?_
    have hlength : capped.size = lines.size := by
      rw [hcapped, Array.size_setIfInBounds, hpushed]
    exact (yields_pushDown (by omega)).mono fun done hdone => by rw [hdone, hlength]
  · exact Yields.pure hpushed

/-! ### Filters -/

theorem length_sectionFilter (c last beforeLast : α) (signal : List α) :
    (sectionFilter c last beforeLast signal).length = signal.length := by
  induction signal generalizing last beforeLast with
  | nil => rfl
  | cons x signal ih => exact congrArg (· + 1) (ih x last)

theorem length_cascade (cosines signal : List α) :
    (cascade cosines signal).length = signal.length := by
  induction cosines generalizing signal with
  | nil => rfl
  | cons c cosines ih => exact (ih _).trans (length_sectionFilter c _ _ signal)

theorem length_addLast (last : α) (signal : List α) :
    (addLast last signal).length = signal.length := by
  induction signal generalizing last with
  | nil => rfl
  | cons x signal ih => exact congrArg (· + 1) (ih x)

theorem length_subLast (last : α) (signal : List α) :
    (subLast last signal).length = signal.length := by
  induction signal generalizing last with
  | nil => rfl
  | cons x signal ih => exact congrArg (· + 1) (ih x)

theorem length_impulse (n : Nat) : (impulse n : List α).length = n := by
  cases n with
  | zero => rfl
  | succ n => simp [impulse]

/-- Lines of an even order have a filter with one more coefficient. -/
theorem yields_toFilter {order : Int} {lines : Array α} (hlow : 0 ≤ order) (hhigh : order ≤ 20)
    (heven : order % 2 = 0) (horder : order ≤ lines.size) :
    Yields (toFilter lines order) fun filter => (filter.size : Int) = order + 1 := by
  refine (yields_length (by omega) (by omega)).bind fun taps htaps => ?_
  dsimp only
  rw [if_neg (by omega)]
  refine (yields_tabulate (P := fun _ => True) fun i hi => ?_).bind fun pairs _ => ?_
  · refine (yields_fetch_of_lt (by omega) (by omega)).bind fun even _ => ?_
    refine (yields_fetch_of_lt (by omega) (by omega)).bind fun odd _ => ?_
    exact Yields.pure trivial
  · refine Yields.pure ?_
    rw [List.size_toArray, List.length_zipWith, length_addLast, length_subLast, length_cascade,
      length_cascade, length_impulse, htaps]
    omega

end Vocoder.Lines
