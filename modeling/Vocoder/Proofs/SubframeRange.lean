import Vocoder.Frame.Decode
import Vocoder.Proofs.FrameReading
import Vocoder.Proofs.LinesTotal
import Vocoder.Proofs.ModelRange

/-!
The subframes of a frame that is being decoded, over the real numbers. The updates put some of them
in range; interpolation goes from the first to the last, each between two that already are. Muting
leaves all in range.
-/

namespace Vocoder.Frame

section Known

variable {β : Type} {P : β → Prop} {known : Nat → Prop} {xs : Array β}

/-- An element set to a value with the property becomes known to have it. -/
theorem forall_known_setIfInBounds (h : ∀ k x, known k → xs[k]? = some x → P x) (i : Nat) {y : β}
    (hy : P y) (k : Nat) (x : β) (hk : known k ∨ k = i)
    (hx : (xs.setIfInBounds i y)[k]? = some x) : P x := by
  rw [Array.getElem?_setIfInBounds] at hx
  split_ifs at hx with heq hlt
  · cases hx
    exact hy
  · exact h k x (hk.resolve_right (Ne.symm heq)) hx

theorem yields_fetch_known (h : ∀ k x, known k → xs[k]? = some x → P x) {i : Int} (hlow : 0 ≤ i)
    (hhigh : i < xs.size) (hi : known i.toNat) : Yields (fetch xs i) P := by
  have hget := Array.getElem?_eq_getElem (show i.toNat < xs.size by omega)
  exact ⟨_, fetch_eq_ok.mpr ⟨hlow, hget⟩, h _ _ hi hget⟩

end Known

/-- Subframes of which those of a set have models and energies in range. -/
structure Subframes.Ready (count : Nat) (known : Nat → Prop) (subframes : Subframes ℝ) : Prop where
  models : subframes.models.size = count
  energies : subframes.energies.size = count
  fitted : ∀ i model, known i → subframes.models[i]? = some model → model.Fitted
  inRange : ∀ i energy, known i → subframes.energies[i]? = some energy → Energy.InRange energy

namespace Subframes.Ready

variable {count : Nat} {known : Nat → Prop} {subframes : Subframes ℝ}

theorem start (count : Nat) (voicing : List Bool) :
    (Subframes.start count voicing).Ready count fun _ => False where
  models := by simp [Subframes.start]
  energies := by simp [Subframes.start]
  fitted _ _ h := h.elim
  inRange _ _ h := h.elim

theorem mono (h : subframes.Ready count known) {fewer : Nat → Prop}
    (hfewer : ∀ i, i < count → fewer i → known i) : subframes.Ready count fewer where
  models := h.models
  energies := h.energies
  fitted i model hi hmodel :=
    h.fitted i model (hfewer i (h.models ▸ (Array.getElem?_eq_some_iff.mp hmodel).1) hi) hmodel
  inRange i energy hi henergy :=
    h.inRange i energy (hfewer i (h.energies ▸ (Array.getElem?_eq_some_iff.mp henergy).1) hi)
      henergy

theorem yields_model (h : subframes.Ready count known) {i : Int} (hlow : 0 ≤ i) (hhigh : i < count)
    (hi : known i.toNat) : Yields (fetch subframes.models i) Model.Fitted :=
  yields_fetch_known h.fitted hlow (by rwa [h.models]) hi

theorem yields_energy (h : subframes.Ready count known) {i : Int} (hlow : 0 ≤ i)
    (hhigh : i < count) (hi : known i.toNat) :
    Yields (fetch subframes.energies i) Energy.InRange :=
  yields_fetch_known h.inRange hlow (by rwa [h.energies]) hi

/-- A subframe that is set in range becomes known. -/
theorem set (h : subframes.Ready count known) (i : Nat) {model : Model ℝ} {energy : ℝ}
    (hmodel : model.Fitted) (henergy : Energy.InRange energy) :
    Subframes.Ready count (fun k => known k ∨ k = i)
      ⟨subframes.models.setIfInBounds i model, subframes.energies.setIfInBounds i energy⟩ where
  models := by rw [Array.size_setIfInBounds, h.models]
  energies := by rw [Array.size_setIfInBounds, h.energies]
  fitted := forall_known_setIfInBounds h.fitted i hmodel
  inRange := forall_known_setIfInBounds h.inRange i henergy

end Subframes.Ready

/-! ### Updates -/

theorem yields_dequantise {count : Nat} {known : Nat → Prop} {updates : List Int}
    {codes : List UpdateCode} {subframes : Subframes ℝ} {reference : UpdateCode.Reference ℝ}
    (hready : subframes.Ready count known) (hlength : codes.length = updates.length)
    (hinside : ∀ subframe ∈ updates, 0 ≤ subframe ∧ subframe < count) :
    Yields (dequantise PitchRange.speech updates codes subframes reference) fun done =>
      done.1.Ready count fun i => known i ∨ (i : Int) ∈ updates := by
  induction updates generalizing codes subframes reference known with
  | nil => exact Yields.ok (hready.mono fun i _ hi => hi.resolve_right (by simp))
  | cons subframe updates ih =>
      obtain ⟨code, codes, rfl⟩ := List.exists_cons_of_length_eq_add_one hlength
      obtain ⟨hlow, hhigh⟩ := hinside subframe List.mem_cons_self
      have hmodels := hready.models
      have henergies := hready.energies
      rw [dequantise]
      refine (code.yields_decode reference).bind fun decoded hdecoded => ?_
      refine (yields_fetch_of_lt hlow (by omega)).bind fun blank _ => ?_
      refine (blank.yields_withFundamental hdecoded.1).bind fun model hmodel => ?_
      refine (yields_store hlow (by omega) model).bind fun models hstored => ?_
      refine (yields_store hlow (by omega) decoded.1.2).bind fun energies hstored' => ?_
      have hset := hready.set subframe.toNat hmodel hdecoded.2
      rw [← hstored, ← hstored'] at hset
      refine (ih hset (Nat.succ.inj hlength)
        fun next hnext => hinside next (List.mem_cons_of_mem _ hnext)).mono fun done hdone => ?_
      refine hdone.mono fun i _ hi => ?_
      rw [List.mem_cons] at hi
      rcases hi with hi | rfl | hi
      · exact .inl (.inl hi)
      · exact .inl (.inr (by omega))
      · exact .inr hi

/-! ### Interpolation -/

/-- The next update lies between a subframe and the last one, which is an update. -/
theorem nextUpdate_bounds {layout : Layout} {last : Int} (hlast : last ∈ layout.updates)
    {fuel : Nat} {i : Int} (hfuel : i + fuel = last) (hpos : 1 ≤ fuel) :
    nextUpdate layout i fuel ∈ layout.updates ∧ i < nextUpdate layout i fuel ∧
      nextUpdate layout i fuel ≤ last := by
  induction fuel generalizing i with
  | zero => omega
  | succ fuel ih =>
      rw [nextUpdate]
      split_ifs with hnext
      · rw [Layout.isSome_updateAt?] at hnext
        exact ⟨hnext, by omega, by omega⟩
      · have hrest : 1 ≤ fuel := by
          by_contra hzero
          rw [show i + 1 = last by omega, Layout.isSome_updateAt?] at hnext
          exact hnext hlast
        obtain ⟨hmem, hlow, hhigh⟩ := ih (show i + 1 + (fuel : Int) = last by omega) hrest
        exact ⟨hmem, by omega, hhigh⟩

theorem weight_bounds {origin i next : Int} (hlow : origin < i) (hhigh : i < next) :
    0 ≤ (Scalar.ofInt (i - origin) / Scalar.ofInt (next - origin) : ℝ) ∧
      (Scalar.ofInt (i - origin) / Scalar.ofInt (next - origin) : ℝ) ≤ 1 := by
  have hnum : (0 : ℝ) ≤ ((i - origin : Int) : ℝ) := by exact_mod_cast (by omega)
  have hden : (0 : ℝ) < ((next - origin : Int) : ℝ) := by exact_mod_cast (by omega)
  have hle : ((i - origin : Int) : ℝ) ≤ ((next - origin : Int) : ℝ) := by
    exact_mod_cast (by omega)
  simp only [Analytic.ofInt_real]
  exact ⟨div_nonneg hnum hden.le, (div_le_one hden).mpr hle⟩

theorem yields_anchor {decoder : Decoder ℝ} {count i : Nat} {known : Nat → Prop}
    {last : Option Nat} {subframes : Subframes ℝ} (hmodel : decoder.lastModel.Fitted)
    (henergy : Energy.InRange decoder.lastEnergy) (hi : i < count)
    (hlast : ∀ k ∈ last, k < i ∧ known k) (hready : subframes.Ready count known) :
    Yields (anchor decoder last subframes) fun prev =>
      prev.model.Fitted ∧ Energy.InRange prev.energy ∧ prev.subframe < i := by
  cases last with
  | none => exact Yields.ok ⟨hmodel, henergy, by dsimp only; omega⟩
  | some k =>
      obtain ⟨hk, hknown⟩ := hlast k rfl
      refine (hready.yields_model (i := k) (by omega) (by omega) hknown).bind fun prev hprev => ?_
      refine (hready.yields_energy (i := k) (by omega) (by omega) hknown).bind
        fun energy hprevEnergy => ?_
      exact Yields.pure ⟨hprev, hprevEnergy, by dsimp only; omega⟩

/-- Interpolation puts a subframe in range when all before it and all updates are. -/
theorem yields_interpolateAt {layout : Layout} {decoder : Decoder ℝ} {count i : Nat}
    {last : Option Nat} {subframes : Subframes ℝ} (hmodel : decoder.lastModel.Fitted)
    (henergy : Energy.InRange decoder.lastEnergy) (hend : (count - 1 : Int) ∈ layout.updates)
    (hi : i < count) (hupdate : (i : Int) ∉ layout.updates) (hlast : ∀ k ∈ last, k < i)
    (hready : subframes.Ready count fun k => k < i ∨ (k : Int) ∈ layout.updates) :
    Yields (interpolateAt layout decoder count i last subframes) fun done =>
      done.Ready count fun k => k < i + 1 ∨ (k : Int) ∈ layout.updates := by
  have hbefore : i ≠ count - 1 := by
    rintro rfl
    exact hupdate (by rwa [Nat.cast_sub (by omega), Nat.cast_one])
  obtain ⟨hnext, hlow, hhigh⟩ := nextUpdate_bounds hend
    (show (i : Int) + (count - 1 - i : Nat) = count - 1 by omega) (by omega)
  have hmodels := hready.models
  have henergies := hready.energies
  rw [interpolateAt]
  generalize nextUpdate layout i (count - 1 - i) = next at hnext hlow hhigh
  have hknown : ((next.toNat : Nat) : Int) ∈ layout.updates := by
    rwa [Int.toNat_of_nonneg (by omega)]
  refine (yields_anchor hmodel henergy hi (fun k hk => ⟨hlast k hk, .inl (hlast k hk)⟩)
    hready).bind fun prev hprev => ?_
  obtain ⟨hweight, hweight'⟩ := weight_bounds hprev.2.2 hlow
  refine (hready.yields_model (by omega) (by omega) (.inr hknown)).bind fun nextModel hfit => ?_
  refine (yields_fetch_of_lt (by omega) (by omega)).bind fun blank _ => ?_
  refine (Interpolation.yields_fundamental blank hprev.1 hfit hweight hweight').bind
    fun model hfitted => ?_
  refine (hready.yields_energy (by omega) (by omega) (.inr hknown)).bind
    fun nextEnergy hnextEnergy => ?_
  refine (yields_store (by omega) (by omega) model).bind fun models hstored => ?_
  refine (yields_store (by omega) (by omega) _).bind fun energies hstored' => ?_
  refine Yields.pure ?_
  have hset := hready.set i hfitted (hprev.2.1.between hnextEnergy hweight hweight')
  rw [Int.toNat_natCast] at hstored hstored'
  rw [hstored, hstored']
  refine hset.mono fun k _ hk => ?_
  rcases hk with hk | hk
  · exact (Nat.lt_succ_iff_lt_or_eq.mp hk).imp .inl id
  · exact .inl (.inr hk)

/-- After interpolation all subframes are in range. -/
theorem yields_interpolate {layout : Layout} {decoder : Decoder ℝ} {count : Nat}
    {subframes : Subframes ℝ} (hmodel : decoder.lastModel.Fitted)
    (henergy : Energy.InRange decoder.lastEnergy) (hend : (count - 1 : Int) ∈ layout.updates)
    (hready : subframes.Ready count fun k => (k : Int) ∈ layout.updates) :
    Yields (interpolate layout decoder count subframes) fun done =>
      done.Ready count fun _ => True := by
  refine Yields.bind (yields_foldlM_range (P := fun i (walk : Subframes ℝ × Option Nat) =>
    (walk.1.Ready count fun k => k < i ∨ (k : Int) ∈ layout.updates) ∧ ∀ k ∈ walk.2, k < i)
    ⟨hready.mono fun k _ hk => hk.resolve_left (by omega), by simp⟩ ?_) fun walk hwalk => ?_
  · rintro i ⟨subframes, last⟩ hi ⟨hready, hlast⟩
    dsimp only
    split_ifs with hupdate
    · rw [Layout.isSome_updateAt?] at hupdate
      refine Yields.pure ⟨hready.mono fun k _ hk => ?_, ?_⟩
      · rcases hk with hk | hk
        · rcases Nat.lt_succ_iff_lt_or_eq.mp hk with hlt | rfl
          · exact .inl hlt
          · exact .inr hupdate
        · exact .inr hk
      · intro k hk
        cases hk
        omega
    · rw [Layout.isSome_updateAt?] at hupdate
      refine (yields_interpolateAt hmodel henergy hend hi hupdate hlast hready).bind
        fun done hdone => ?_
      exact Yields.pure ⟨hdone, fun k hk => by have := hlast k hk; omega⟩
  · exact Yields.pure (hwalk.1.mono fun k hk _ => .inl hk)

/-! ### Muting -/

theorem ready_muteVoicing {count : Nat} {known : Nat → Prop} {subframes : Subframes ℝ} (mute : Bool)
    (h : subframes.Ready count known) : (muteVoicing mute subframes).Ready count known := by
  cases mute with
  | false => exact h
  | true =>
      refine ⟨by simpa [muteVoicing] using h.models, h.energies, ?_, h.inRange⟩
      intro i model hi hmodel
      simp only [muteVoicing, if_true, Array.getElem?_map, Option.map_eq_some_iff] at hmodel
      obtain ⟨voiced, hvoiced, rfl⟩ := hmodel
      obtain ⟨hwo, hcount⟩ := h.fitted i voiced hi hvoiced
      exact ⟨hwo, hcount⟩

theorem ready_muteEnergy {count : Nat} {known : Nat → Prop} {subframes : Subframes ℝ} (mute : Bool)
    (h : subframes.Ready count known) : (muteEnergy mute subframes).Ready count known := by
  cases mute with
  | false => exact h
  | true =>
      refine ⟨h.models, by simpa [muteEnergy] using h.energies, h.fitted, ?_⟩
      intro i energy hi henergy
      simp only [muteEnergy, if_true, Array.getElem?_map, Option.map_eq_some_iff] at henergy
      obtain ⟨_, _, rfl⟩ := henergy
      exact Energy.inRange_decode 10

/-! ### Lines -/

theorem yields_lineTracks {α : Type} [Analytic α] {decoder : Decoder α} {order : Int} {count : Nat}
    {lines : Array α} (horder : 0 ≤ order) (horder' : order ≤ 2 ^ 45)
    (hlast : (decoder.lastLines.size : Int) = order) (hlines : (lines.size : Int) = order) :
    Yields (lineTracks decoder order count lines) fun tracks =>
      tracks.size = count ∧ ∀ track ∈ tracks, (track.size : Int) = order := by
  refine (yields_length horder horder').bind ?_
  rintro _ rfl
  refine yields_tabulate fun i _ => ?_
  split_ifs
  · refine Yields.mono (yields_tabulate (P := fun _ => True) fun k hk => ?_) fun track htrack => by
      rw [htrack.1, Int.toNat_of_nonneg horder]
    refine (yields_fetch_of_lt (by omega) (by omega)).bind fun _ _ => ?_
    exact (yields_fetch_of_lt (by omega) (by omega)).bind fun _ _ => Yields.pure trivial
  · exact Yields.pure hlines

end Vocoder.Frame
