import Mathlib
import Vocoder.Fault

/-!
Outcomes of stages. A stage either faults or returns a value. `Yields` says that it returns a value
with a property; the lemmas below take it through binds, checked accesses, folds and tables, so that
later proofs never open those. For a stage that is known to have returned, the lemmas named
`..._eq_ok` take the run apart again.
-/

namespace Vocoder

variable {β γ δ : Type}

/-- A stage returns a value with a property. -/
def Yields (r : Except Fault β) (P : β → Prop) : Prop := ∃ x, r = .ok x ∧ P x

theorem bind_eq_ok {r : Except Fault β} {f : β → Except Fault γ} {y : γ} :
    (r >>= f) = .ok y ↔ ∃ x, r = .ok x ∧ f x = .ok y := by
  cases r with
  | error fault => simp [bind, Except.bind]
  | ok x => simp [bind, Except.bind]

theorem pure_eq_ok {x y : β} : (pure x : Except Fault β) = .ok y ↔ x = y := by
  simp [pure, Except.pure]

namespace Yields

theorem ok {x : β} {P : β → Prop} (h : P x) : Yields (.ok x) P := ⟨x, rfl, h⟩

theorem pure {x : β} {P : β → Prop} (h : P x) : Yields (pure x) P := ⟨x, rfl, h⟩

theorem bind {r : Except Fault β} {f : β → Except Fault γ} {P : β → Prop} {Q : γ → Prop}
    (hr : Yields r P) (hf : ∀ x, P x → Yields (f x) Q) : Yields (r >>= f) Q := by
  obtain ⟨x, rfl, hx⟩ := hr
  exact hf x hx

theorem mono {r : Except Fault β} {P Q : β → Prop} (hr : Yields r P) (h : ∀ x, P x → Q x) :
    Yields r Q := by
  obtain ⟨x, hx, hP⟩ := hr
  exact ⟨x, hx, h x hP⟩

/-- The value that a stage yields is the one that it returned. -/
theorem with_eq {r : Except Fault β} {P : β → Prop} (hr : Yields r P) :
    Yields r fun x => r = .ok x ∧ P x := by
  obtain ⟨x, hx, hP⟩ := hr
  exact ⟨x, hx, hx, hP⟩

/-- What a stage yields holds of the value that it returned. -/
theorem of_eq {r : Except Fault β} {P : β → Prop} {x : β} (hr : Yields r P) (h : r = .ok x) :
    P x := by
  obtain ⟨y, hy, hP⟩ := hr
  rw [h] at hy
  cases hy
  exact hP

end Yields

/-! ### Checked accesses -/

theorem fetch_eq_ok {xs : Array β} {i : Int} {x : β} :
    fetch xs i = .ok x ↔ 0 ≤ i ∧ xs[i.toNat]? = some x := by
  unfold fetch
  by_cases hi : 0 ≤ i
  · rw [if_pos hi]
    cases hx : xs[i.toNat]? <;> simp [hi]
  · rw [if_neg hi]
    simp [hi]

/-- Every element of an array is found at its position. -/
theorem yields_fetch {xs : Array β} {i : Int} {P : β → Prop} (hi : 0 ≤ i) (hs : i < xs.size)
    (h : ∀ x ∈ xs, P x) : Yields (fetch xs i) P := by
  have hlt : i.toNat < xs.size := by omega
  exact ⟨xs[i.toNat], fetch_eq_ok.mpr ⟨hi, by simp [hlt]⟩, h _ (Array.getElem_mem hlt)⟩

theorem yields_fetch_at {xs : Array β} {i : Int} {k : Nat} (hi : i = k) (hk : k < xs.size) :
    Yields (fetch xs i) fun x => xs[k]? = some x := by
  subst hi
  exact ⟨xs[k], fetch_eq_ok.mpr ⟨Int.natCast_nonneg k, by simp [hk]⟩, by simp [hk]⟩

theorem yields_fetch_of_lt {xs : Array β} {i : Int} (hi : 0 ≤ i) (hs : i < xs.size) :
    Yields (fetch xs i) fun _ => True :=
  yields_fetch hi hs fun _ _ => trivial

theorem store_eq_ok {xs ys : Array β} {i : Int} {x : β} :
    store xs i x = .ok ys ↔ 0 ≤ i ∧ i < xs.size ∧ ys = xs.setIfInBounds i.toNat x := by
  unfold store
  by_cases hi : 0 ≤ i ∧ i.toNat < xs.size
  · have hlt : i < xs.size := by omega
    rw [if_pos hi]
    simp [hi.1, hlt, eq_comm]
  · have hlt : ¬ (0 ≤ i ∧ i < xs.size) := by omega
    rw [if_neg hi]
    simp only [reduceCtorEq, false_iff]
    exact fun h => hlt ⟨h.1, h.2.1⟩

theorem yields_store {xs : Array β} {i : Int} (hi : 0 ≤ i) (hs : i < xs.size) (x : β) :
    Yields (store xs i x) fun ys => ys = xs.setIfInBounds i.toNat x :=
  ⟨_, store_eq_ok.mpr ⟨hi, hs, rfl⟩, rfl⟩

theorem slice_eq_ok {xs ys : Array β} {first last : Int} :
    slice xs first last = .ok ys ↔
      0 ≤ first ∧ first ≤ last ∧ last ≤ xs.size ∧ ys = xs.extract first.toNat last.toNat := by
  unfold slice
  split <;> rename_i h
  · simp [h, eq_comm]
  · simp only [reduceCtorEq, false_iff]
    exact fun hs => h ⟨hs.1, hs.2.1, hs.2.2.1⟩

theorem yields_slice {xs : Array β} {first last : Int} (hfirst : 0 ≤ first) (hle : first ≤ last)
    (hlast : last ≤ xs.size) :
    Yields (slice xs first last) fun ys => (ys.size : Int) = last - first := by
  refine ⟨_, slice_eq_ok.mpr ⟨hfirst, hle, hlast, rfl⟩, ?_⟩
  simp only [Array.size_extract]
  omega

theorem length_eq_ok {n : Int} {k : Nat} :
    length n = .ok k ↔ 0 ≤ n ∧ n ≤ 2 ^ 45 ∧ k = n.toNat := by
  have hbound : (35184372088832 : Int) = 2 ^ 45 := by decide
  rw [length, hbound]
  split <;> rename_i h
  · simp only [Except.ok.injEq, h, true_and]
    exact eq_comm
  · simp only [reduceCtorEq, false_iff]
    exact fun hs => h ⟨hs.1, hs.2.1⟩

theorem yields_length {n : Int} (hlow : 0 ≤ n) (hhigh : n ≤ 2 ^ 45) :
    Yields (length n) fun k => k = n.toNat :=
  ⟨_, length_eq_ok.mpr ⟨hlow, hhigh, rfl⟩, rfl⟩

theorem shiftWidth_eq_ok {n : Int} {k : Nat} : shiftWidth n = .ok k ↔ 0 ≤ n ∧ k = n.toNat := by
  unfold shiftWidth
  split <;> rename_i h
  · simp [h, eq_comm]
  · simp [h]

theorem yields_shiftWidth {n : Int} (h : 0 ≤ n) : Yields (shiftWidth n) fun k => k = n.toNat :=
  ⟨_, shiftWidth_eq_ok.mpr ⟨h, rfl⟩, rfl⟩

/-! ### Folds -/

/-- A fold returns, and keeps an invariant, when each step does from a state with the invariant. -/
theorem yields_foldRange {step : γ → Int → Except Fault γ} {P : Int → γ → Prop} {first : Int}
    {count : Nat} {start : γ} (hstart : P first start)
    (hstep : ∀ i acc, first ≤ i → i < first + count → P i acc → Yields (step acc i) (P (i + 1))) :
    Yields (foldRange step first count start) (P (first + count)) := by
  induction count generalizing first start with
  | zero => exact Yields.ok (by simpa using hstart)
  | succ count ih =>
      obtain ⟨next, hnext, hP⟩ := hstep first start (by omega) (by omega) hstart
      have hrest := ih hP fun i acc hi hlt => hstep i acc (by omega) (by omega)
      rw [foldRange, hnext]
      rw [show first + 1 + (count : Int) = first + (count + 1 : Nat) by omega] at hrest
      exact hrest

/-- What each step that returns keeps, a fold that returns keeps. -/
theorem foldRange_induction {step : γ → Int → Except Fault γ} {P : Int → γ → Prop} {first : Int}
    {count : Nat} {start last : γ} (hdone : foldRange step first count start = .ok last)
    (hstart : P first start)
    (hstep : ∀ i acc next, first ≤ i → i < first + count → P i acc → step acc i = .ok next →
      P (i + 1) next) :
    P (first + count) last := by
  induction count generalizing first start with
  | zero =>
      rw [foldRange] at hdone
      cases hdone
      simpa using hstart
  | succ count ih =>
      rw [foldRange] at hdone
      cases hnext : step start first with
      | error fault => simp [hnext] at hdone
      | ok next =>
          simp only [hnext] at hdone
          have hP := hstep first start next (by omega) (by omega) hstart hnext
          have hrest := ih hdone hP fun i acc next hi hlt => hstep i acc next (by omega) (by omega)
          rwa [show first + 1 + (count : Int) = first + (count + 1 : Nat) by omega] at hrest

theorem yields_foldBetween {step : γ → Int → Except Fault γ} {P : Int → γ → Prop}
    {first last : Int} {start : γ} {Q : γ → Prop} (hstart : P first start)
    (hstep : ∀ i acc, first ≤ i → i < last → P i acc → Yields (step acc i) (P (i + 1)))
    (hlast : ∀ acc, P (max first last) acc → Q acc) :
    Yields (foldBetween first last start step) Q := by
  have hfold : Yields (foldBetween first last start step) (P (first + (last - first).toNat)) :=
    yields_foldRange hstart fun i acc hi hlt => hstep i acc hi (by omega)
  rw [show first + ((last - first).toNat : Int) = max first last by omega] at hfold
  exact hfold.mono hlast

theorem foldBetween_induction {step : γ → Int → Except Fault γ} {P : Int → γ → Prop}
    {first last : Int} {start final : γ} (hdone : foldBetween first last start step = .ok final)
    (hstart : P first start)
    (hstep : ∀ i acc next, first ≤ i → i < last → P i acc → step acc i = .ok next →
      P (i + 1) next) :
    P (max first last) final := by
  have hfold := foldRange_induction hdone hstart
    fun i acc next hi hlt => hstep i acc next hi (by omega)
  rwa [show first + ((last - first).toNat : Int) = max first last by omega] at hfold

/-- A fold returns when each of its steps does. -/
theorem yields_foldBetween_of_step {step : γ → Int → Except Fault γ} {first last : Int} {start : γ}
    (hstep : ∀ i acc, first ≤ i → i < last → Yields (step acc i) fun _ => True) :
    Yields (foldBetween first last start step) fun _ => True :=
  yields_foldBetween (P := fun _ _ => True) trivial
    (fun i acc hi hlt _ => hstep i acc hi hlt) fun _ _ => trivial

/-- A sum returns when each of its terms does. -/
theorem yields_sumBetween [Add γ] {first last : Int} {start : γ} {term : Int → Except Fault γ}
    (hterm : ∀ i, first ≤ i → i < last → Yields (term i) fun _ => True) :
    Yields (sumBetween first last start term) fun _ => True :=
  yields_foldBetween_of_step fun i _ hi hlt =>
    (hterm i hi hlt).bind fun _ _ => Yields.pure trivial

/-- A fold whose states are known goes through them. -/
theorem foldBetween_eq_state {step : γ → Int → Except Fault γ} {start : γ} (count : Nat)
    (state : Nat → γ) (hstart : start = state 0)
    (hstep : ∀ k : Nat, k < count → step (state k) k = .ok (state (k + 1))) :
    foldBetween 0 count start step = .ok (state count) := by
  have hfold : Yields (foldBetween 0 count start step) fun done => done = state count := by
    refine yields_foldBetween (P := fun i done => done = state i.toNat) hstart ?_ ?_
    · rintro i _ hlow hhigh rfl
      obtain ⟨k, rfl⟩ := Int.eq_ofNat_of_zero_le hlow
      exact ⟨_, hstep k (by omega), rfl⟩
    · intro done hdone
      rwa [show (max 0 (count : Int)).toNat = count by omega] at hdone
  obtain ⟨_, hdone, rfl⟩ := hfold
  exact hdone

/-- A sum of terms that return is the sum of what they return. -/
theorem sumBetween_eq_sum [AddCommMonoid γ] {count : Nat} {start : γ} {term : Int → Except Fault γ}
    {value : Nat → γ} (hterm : ∀ k : Nat, k < count → term k = .ok (value k)) :
    sumBetween 0 count start term = .ok (start + ∑ k ∈ Finset.range count, value k) := by
  refine foldBetween_eq_state count (fun i => start + ∑ k ∈ Finset.range i, value k) (by simp) ?_
  intro k hk
  rw [hterm k hk, Finset.sum_range_succ, ← add_assoc]
  rfl

/-- A sum between two bounds of terms that return is the sum of what they return. -/
theorem sumBetween_eq_sum_Ico [AddCommMonoid γ] {first last : Int} {start : γ}
    {term : Int → Except Fault γ} {value : Int → γ}
    (hterm : ∀ i, first ≤ i → i < last → term i = .ok (value i)) :
    sumBetween first last start term = .ok (start + ∑ i ∈ Finset.Ico first last, value i) := by
  have hsum : Yields (sumBetween first last start term) fun total =>
      total = start + ∑ i ∈ Finset.Ico first last, value i := by
    refine yields_foldBetween
      (P := fun i acc => acc = start + ∑ j ∈ Finset.Ico first i, value j) (by simp) ?_ ?_
    · rintro i acc hi hlt rfl
      rw [hterm i hi hlt]
      refine Yields.pure ?_
      rw [← Finset.insert_Ico_right_eq_Ico_add_one hi, Finset.sum_insert (by simp),
        add_comm (value i), add_assoc]
    · rintro acc rfl
      rcases le_total first last with hle | hle
      · rw [max_eq_right hle]
      · rw [max_eq_left hle, Finset.Ico_self, Finset.Ico_eq_empty_of_le hle]
  obtain ⟨total, htotal, rfl⟩ := hsum
  exact htotal

/-- A fold over the first `count` positions keeps an invariant that knows the position. -/
theorem yields_foldlM_range {step : γ → Nat → Except Fault γ} {P : Nat → γ → Prop} {count : Nat}
    {start : γ} (hstart : P 0 start)
    (hstep : ∀ i acc, i < count → P i acc → Yields (step acc i) (P (i + 1))) :
    Yields ((List.range count).foldlM step start) (P count) := by
  induction count with
  | zero => exact Yields.pure hstart
  | succ count ih =>
      rw [List.range_succ, List.foldlM_append]
      refine (ih fun i acc hi => hstep i acc (by omega)).bind fun acc hacc => ?_
      rw [List.foldlM_cons]
      exact (hstep count acc (by omega) hacc).bind fun next hnext => Yields.pure hnext

/-- What each step that returns keeps, a fold over the first `count` positions keeps. -/
theorem foldlM_range_induction {step : γ → Nat → Except Fault γ} {P : Nat → γ → Prop}
    {count : Nat} {start last : γ} (hdone : (List.range count).foldlM step start = .ok last)
    (hstart : P 0 start)
    (hstep : ∀ i acc next, i < count → P i acc → step acc i = .ok next → P (i + 1) next) :
    P count last := by
  induction count generalizing last with
  | zero =>
      cases hdone
      exact hstart
  | succ count ih =>
      rw [List.range_succ, List.foldlM_append, bind_eq_ok] at hdone
      obtain ⟨acc, hacc, hlast⟩ := hdone
      have hP := ih hacc fun i acc next hi => hstep i acc next (by omega)
      rw [List.foldlM_cons, bind_eq_ok] at hlast
      obtain ⟨next, hnext, hfinal⟩ := hlast
      cases hfinal
      exact hstep count acc last (by omega) hP hnext

/-! ### Tables -/

theorem yields_appendValues {value : Nat → Except Fault γ} {P : Nat → γ → Prop} {i count : Nat}
    {start : Array γ} (hsize : start.size = i) (hstart : ∀ k x, start[k]? = some x → P k x)
    (hvalue : ∀ k, i ≤ k → k < i + count → Yields (value k) (P k)) :
    Yields (appendValues value i count start) fun values =>
      values.size = i + count ∧ ∀ k x, values[k]? = some x → P k x := by
  induction count generalizing i start with
  | zero => exact Yields.ok ⟨hsize, hstart⟩
  | succ count ih =>
      obtain ⟨x, hx, hP⟩ := hvalue i (by omega) (by omega)
      rw [appendValues, hx]
      have hpush : ∀ k y, (start.push x)[k]? = some y → P k y := by
        intro k y hy
        rw [Array.getElem?_push, hsize] at hy
        split_ifs at hy with hlast
        · cases hy
          exact hlast ▸ hP
        · exact hstart k y hy
      refine (ih (by rw [Array.size_push, hsize]) hpush
        fun k hk hlt => hvalue k (by omega) (by omega)).mono ?_
      rintro values ⟨hlength, hall⟩
      exact ⟨by omega, hall⟩

/-- A table is made when each of its values is, and each of its values has what the function gives
at its position. -/
theorem yields_tabulate_at {value : Nat → Except Fault γ} {P : Nat → γ → Prop} {count : Nat}
    (hvalue : ∀ i, i < count → Yields (value i) (P i)) :
    Yields (tabulate count value) fun values =>
      values.size = count ∧ ∀ i x, values[i]? = some x → P i x :=
  have hempty : ∀ k x, (#[] : Array γ)[k]? = some x → P k x := by simp
  have hsize : (#[] : Array γ).size = 0 := rfl
  (yields_appendValues hsize hempty fun k _ hk => hvalue k (by omega)).mono
    fun values h => ⟨by omega, h.2⟩

/-- A table is made when each of its values is, and all its values have what each has. -/
theorem yields_tabulate {value : Nat → Except Fault γ} {P : γ → Prop} {count : Nat}
    (hvalue : ∀ i, i < count → Yields (value i) P) :
    Yields (tabulate count value) fun values => values.size = count ∧ ∀ x ∈ values, P x := by
  refine (yields_tabulate_at (P := fun _ => P) hvalue).mono fun values h => ⟨h.1, fun x hx => ?_⟩
  obtain ⟨i, hi⟩ := Array.mem_iff_getElem?.mp hx
  exact h.2 i x hi

/-- A table of values that return has what they return. -/
theorem tabulate_eq_map {value : Nat → Except Fault γ} {f : Nat → γ} {count : Nat}
    (hvalue : ∀ i, i < count → value i = .ok (f i)) :
    tabulate count value = .ok ((Array.range count).map f) := by
  obtain ⟨values, hvalues, hsize, hall⟩ := yields_tabulate_at (P := fun i x => x = f i)
    fun i hi => ⟨f i, hvalue i hi, rfl⟩
  rw [hvalues]
  refine congrArg Except.ok (Array.ext (by simpa using hsize) fun i hi _ => ?_)
  simp [hall i values[i] (by simp [hi])]

end Vocoder
