import Vocoder.Proofs.Outcome

/-!
Two runs side by side. `Matches` relates the outcomes of two stages that go through the same steps
on different data: either both fault for the same reason, or both return and their values are
related. Taken through binds and folds it says what a difference between the data can come to, also
when it is not known whether the stages return.
-/

namespace Vocoder

variable {β β' γ γ' δ : Type}

/-- Two stages fault alike, or both return and their values are related. -/
def Matches (R : β → β' → Prop) : Except Fault β → Except Fault β' → Prop
  | .ok x, .ok y => R x y
  | .error fault, .error fault' => fault = fault'
  | _, _ => False

namespace Matches

theorem pure {R : β → β' → Prop} {x : β} {y : β'} (h : R x y) :
    Matches R (pure x : Except Fault β) (pure y : Except Fault β') := h

theorem refl (r : Except Fault β) : Matches Eq r r := by
  cases r <;> rfl

theorem of_eq {r s : Except Fault β} (h : r = s) : Matches Eq r s := h ▸ refl r

variable {R : β → β' → Prop} {r : Except Fault β} {s : Except Fault β'}

theorem elim (h : Matches R r s) :
    (∃ fault, r = .error fault ∧ s = .error fault) ∨ ∃ x y, r = .ok x ∧ s = .ok y ∧ R x y := by
  cases r with
  | error fault =>
      cases s with
      | error fault' => exact .inl ⟨fault, rfl, congrArg Except.error (Eq.symm h)⟩
      | ok y => exact False.elim h
  | ok x =>
      cases s with
      | error fault' => exact False.elim h
      | ok y => exact .inr ⟨x, y, rfl, rfl, h⟩

theorem mono {S : β → β' → Prop} (h : Matches R r s) (himp : ∀ x y, R x y → S x y) :
    Matches S r s := by
  rcases h.elim with ⟨fault, rfl, rfl⟩ | ⟨x, y, rfl, rfl, hR⟩
  · rfl
  · exact himp x y hR

theorem bind {S : γ → γ' → Prop} {f : β → Except Fault γ} {g : β' → Except Fault γ'}
    (h : Matches R r s) (hnext : ∀ x y, R x y → Matches S (f x) (g y)) :
    Matches S (r >>= f) (s >>= g) := by
  rcases h.elim with ⟨fault, rfl, rfl⟩ | ⟨x, y, rfl, rfl, hR⟩
  · rfl
  · exact hnext x y hR

/-- A stage that both go through gives both the same value. -/
theorem bind_same {S : γ → γ' → Prop} {r : Except Fault β} {f : β → Except Fault γ}
    {g : β → Except Fault γ'} (hnext : ∀ x, Matches S (f x) (g x)) :
    Matches S (r >>= f) (r >>= g) :=
  (refl r).bind fun x _ h => h ▸ hnext x

/-- Two stages that match have equal views of their outcomes if related values do. -/
theorem map_eq {f : β → γ} {g : β' → γ} (h : Matches R r s)
    (hview : ∀ x y, R x y → f x = g y) : r.map f = s.map g := by
  rcases h.elim with ⟨fault, rfl, rfl⟩ | ⟨x, y, rfl, rfl, hR⟩
  · rfl
  · exact congrArg Except.ok (hview x y hR)

theorem foldlM {step : β → δ → Except Fault β}
    {step' : β' → δ → Except Fault β'} {xs : List δ} {start : β} {start' : β'}
    (hstart : R start start')
    (hstep : ∀ i ∈ xs, ∀ acc acc', R acc acc' → Matches R (step acc i) (step' acc' i)) :
    Matches R (xs.foldlM step start) (xs.foldlM step' start') := by
  induction xs generalizing start start' with
  | nil => exact hstart
  | cons i xs ih =>
      rw [List.foldlM_cons, List.foldlM_cons]
      apply (hstep i List.mem_cons_self start start' hstart).bind
      intro acc acc' hacc
      exact ih hacc fun k hk => hstep k (List.mem_cons_of_mem _ hk)

theorem foldRange {step : β → Int → Except Fault β} {step' : β' → Int → Except Fault β'}
    {first : Int} {count : Nat} {start : β} {start' : β'} (hstart : R start start')
    (hstep : ∀ i acc acc', R acc acc' → Matches R (step acc i) (step' acc' i)) :
    Matches R (foldRange step first count start) (foldRange step' first count start') := by
  induction count generalizing first start start' with
  | zero => exact hstart
  | succ count ih =>
      rw [Vocoder.foldRange, Vocoder.foldRange]
      rcases (hstep first start start' hstart).elim with
        ⟨fault, hfault, hfault'⟩ | ⟨next, next', hnext, hnext', hR⟩
      · rw [hfault, hfault']
        rfl
      · rw [hnext, hnext']
        exact ih hR

end Matches

/-- A fold depends on its steps only inside its range. -/
theorem foldRange_congr {step step' : β → Int → Except Fault β} {first : Int} {count : Nat}
    (start : β) (h : ∀ i acc, first ≤ i → i < first + count → step acc i = step' acc i) :
    foldRange step first count start = foldRange step' first count start := by
  induction count generalizing first start with
  | zero => rfl
  | succ count ih =>
      rw [foldRange, foldRange, h first start le_rfl (by omega)]
      cases step' start first with
      | error fault => rfl
      | ok next => exact ih next fun i acc hi hlt => h i acc (by omega) (by omega)

/-! ### Checked accesses -/

/-- Elements of arrays that look alike look alike. -/
theorem matches_fetch {view : β → γ} {xs ys : Array β} (h : xs.map view = ys.map view) (i : Int) :
    Matches (fun x y => view x = view y) (fetch xs i) (fetch ys i) := by
  have hget : xs[i.toNat]?.map view = ys[i.toNat]?.map view := by
    rw [← Array.getElem?_map, ← Array.getElem?_map, h]
  unfold fetch
  by_cases hi : 0 ≤ i
  · rw [if_pos hi, if_pos hi]
    cases hx : xs[i.toNat]? <;> cases hy : ys[i.toNat]? <;> rw [hx, hy] at hget
    · rfl
    · cases hget
    · cases hget
    · exact Option.some.inj hget
  · rw [if_neg hi, if_neg hi]
    rfl

/-- Arrays that look alike still do after one element is replaced. -/
theorem matches_store {view : β → γ} {xs ys : Array β} {x y : β} (h : xs.map view = ys.map view)
    (hview : view x = view y) (i : Int) :
    Matches (fun xs ys => xs.map view = ys.map view) (store xs i x) (store ys i y) := by
  have hsize : xs.size = ys.size := by
    simpa using congrArg Array.size h
  unfold store
  rw [hsize]
  by_cases hi : 0 ≤ i ∧ i.toNat < ys.size
  · rw [if_pos hi, if_pos hi]
    show (xs.setIfInBounds _ x).map view = (ys.setIfInBounds _ y).map view
    rw [Array.map_setIfInBounds, Array.map_setIfInBounds, h, hview]
  · rw [if_neg hi, if_neg hi]
    rfl

theorem map_unit_eq {xs ys : Array β} (h : xs.size = ys.size) :
    xs.map (fun _ => ()) = ys.map fun _ => () := by
  apply Array.ext
  · rw [Array.size_map, Array.size_map, h]
  · intro i _ _
    rfl

/-- An access faults for its position only, whatever the elements are. -/
theorem matches_fetch_of_size {xs ys : Array β} (h : xs.size = ys.size) (i : Int) :
    Matches (fun _ _ => True) (fetch xs i) (fetch ys i) :=
  (matches_fetch (map_unit_eq h) i).mono fun _ _ _ => trivial

theorem matches_store_of_size {xs ys : Array β} (h : xs.size = ys.size) (i : Int) (x y : β) :
    Matches (fun xs ys => xs.size = ys.size) (store xs i x) (store ys i y) := by
  apply (matches_store (map_unit_eq h) rfl i).mono
  intro xs ys hmap
  simpa using congrArg Array.size hmap

end Vocoder
