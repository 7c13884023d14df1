import Vocoder.Proofs.LineSeparation

/-!
Putting lines in order, over the real numbers. The scan goes back to the start after every exchange,
and an exchange that moves two lines apart may put both out of order with their other neighbours.
But less a tenth of a radian for each position, an exchange only swaps two levels that are out of
order. So every exchange takes away an inversion of the levels, there are at most as many as pairs
of lines, and in the end every line has its first value and a tenth of a radian for each position it
rose.
-/

namespace Vocoder.Lines

/-- The scan for descents with no limit on the exchanges: it ends after `swaps` of them. -/
inductive Scan (order : Int) : Array ℝ → (swaps : Nat) → Array ℝ → Prop where
  | ends {lines : Array ℝ} (none_left : firstDescent lines order = .ok none) :
      Scan order lines 0 lines
  | swap {lines next last : Array ℝ} {i : Int} {swaps : Nat}
      (descent : firstDescent lines order = .ok (some i)) (exchanged : exchange lines i = .ok next)
      (rest : Scan order next swaps last) : Scan order lines (swaps + 1) last

/-- A limit that the scan does not need changes nothing. -/
theorem Scan.reorderFuel_eq {order : Int} {lines last : Array ℝ} {swaps fuel : Nat}
    (h : Scan order lines swaps last) (hfuel : swaps ≤ fuel) (count : Nat) :
    reorderFuel order fuel lines count = .ok (last, count + swaps) := by
  induction h generalizing fuel count with
  | ends none_left =>
      cases fuel with
      | zero => rfl
      | succ fuel =>
          rw [reorderFuel, none_left]
          rfl
  | @swap _ _ _ _ swaps descent exchanged rest ih =>
      obtain ⟨fuel, rfl⟩ : ∃ less, fuel = less + 1 := ⟨fuel - 1, by omega⟩
      rw [reorderFuel, descent]
      change (exchange _ _ >>= _) = _
      rw [exchanged]
      refine (ih (by omega) (count + 1)).trans ?_
      rw [show count + 1 + swaps = count + (swaps + 1) by omega]

/-! ### Inversions -/

/-- The pairs of positions whose levels are out of order. -/
noncomputable def inversions (lines : Array ℝ) : Finset (ℕ × ℕ) :=
  {pair ∈ Finset.range lines.size ×ˢ Finset.range lines.size |
    pair.1 < pair.2 ∧ level lines pair.2 < level lines pair.1}

theorem mem_inversions {lines : Array ℝ} {p q : ℕ} :
    (p, q) ∈ inversions lines ↔ p < q ∧ q < lines.size ∧ level lines q < level lines p := by
  simp only [inversions, Finset.mem_filter, Finset.mem_product, Finset.mem_range]
  constructor
  · rintro ⟨⟨-, hq⟩, hlt, hlevel⟩
    exact ⟨hlt, hq, hlevel⟩
  · rintro ⟨hlt, hq, hlevel⟩
    exact ⟨⟨hlt.trans hq, hq⟩, hlt, hlevel⟩

/-- There are no more inversions than pairs. -/
theorem card_inversions_le (lines : Array ℝ) :
    (inversions lines).card ≤ lines.size * (lines.size - 1) / 2 := by
  have hpairs : (inversions lines).card ≤
      ((Finset.range lines.size).sigma fun q => Finset.range q).card := by
    refine Finset.card_le_card_of_injOn (fun pair => ⟨pair.2, pair.1⟩) ?_ ?_
    · rintro ⟨p, q⟩ hpair
      obtain ⟨hlt, hq, -⟩ := mem_inversions.mp hpair
      simp [hlt, hq]
    · rintro ⟨p, q⟩ - ⟨p', q'⟩ - heq
      simp only [Sigma.mk.injEq, heq_eq_eq] at heq
      rw [heq.1, heq.2]
  rw [Finset.card_sigma] at hpairs
  simp only [Finset.card_range, Finset.sum_range_id] at hpairs
  exact hpairs

theorem swap_lt_swap {k p q : Nat} (hlt : p < q) (hne : ¬(p = k ∧ q = k + 1)) :
    Equiv.swap k (k + 1) p < Equiv.swap k (k + 1) q := by
  simp only [Equiv.swap_apply_def]
  split_ifs <;> omega

/-- Swapping two neighbouring levels that are out of order takes away their inversion, and moves
every other inversion with its levels. -/
theorem card_inversions_lt {lines next : Array ℝ} {k : Nat} (hk : k + 1 < lines.size)
    (hdescent : level lines (k + 1) < level lines k) (hsize : next.size = lines.size)
    (hlevel : ∀ i, level next i = level lines (Equiv.swap k (k + 1) i)) :
    (inversions next).card < (inversions lines).card := by
  have hmem : (k, k + 1) ∈ inversions lines := mem_inversions.mpr ⟨by omega, hk, hdescent⟩
  have hle : (inversions next).card ≤ ((inversions lines).erase (k, k + 1)).card := by
    refine Finset.card_le_card_of_injOn
      (fun pair => (Equiv.swap k (k + 1) pair.1, Equiv.swap k (k + 1) pair.2)) ?_ ?_
    · rintro ⟨p, q⟩ hpair
      obtain ⟨hlt, hq, hinverted⟩ := mem_inversions.mp hpair
      rw [hsize] at hq
      rw [hlevel, hlevel] at hinverted
      have hne : ¬(p = k ∧ q = k + 1) := by
        rintro ⟨rfl, rfl⟩
        rw [Equiv.swap_apply_left, Equiv.swap_apply_right] at hinverted
        exact lt_asymm hdescent hinverted
      refine Finset.mem_erase.mpr ⟨fun heq => ?_,
        mem_inversions.mpr ⟨swap_lt_swap hlt hne, swap_lt hk hq, hinverted⟩⟩
      -- Only the same pair the other way round is taken to the one that is gone.
      obtain ⟨hp, hq⟩ := Prod.mk.inj heq
      rw [Equiv.swap_apply_eq_iff, Equiv.swap_apply_left] at hp
      rw [Equiv.swap_apply_eq_iff, Equiv.swap_apply_right] at hq
      omega
    · rintro ⟨p, q⟩ - ⟨p', q'⟩ - heq
      simpa using heq
  exact hle.trans_lt (Finset.card_erase_lt_of_mem hmem)

/-! ### Runs -/

/-- Every line has moved by a tenth of a radian for each position that it rose or fell. -/
def Shifted (lines done : Array ℝ) : Prop :=
  done.size = lines.size ∧ ∃ place : Equiv.Perm (Fin lines.size),
    ∀ p, level done (place p) = level lines p

theorem Shifted.refl (lines : Array ℝ) : Shifted lines lines := ⟨rfl, Equiv.refl _, fun _ => rfl⟩

theorem Shifted.swap {lines next done : Array ℝ} {k : Nat} (hk : k + 1 < lines.size)
    (hsize : next.size = lines.size)
    (hlevel : ∀ i, level next i = level lines (Equiv.swap k (k + 1) i)) (h : Shifted next done) :
    Shifted lines done := by
  obtain ⟨hdone, place, hplace⟩ := h
  let low : Fin lines.size := ⟨k, by omega⟩
  let high : Fin lines.size := ⟨k + 1, hk⟩
  have hval : ∀ p : Fin lines.size,
      ((Equiv.swap low high p : Fin lines.size) : Nat) = Equiv.swap k (k + 1) p := by
    intro p
    simp only [Equiv.swap_apply_def, low, high, Fin.ext_iff]
    split_ifs <;> rfl
  refine ⟨hdone.trans hsize,
    (Equiv.swap low high).trans ((finCongr hsize.symm).trans (place.trans (finCongr hsize))),
    fun p => ?_⟩
  have hmoved := hplace (finCongr hsize.symm (Equiv.swap low high p))
  simp only [finCongr_apply, Fin.val_cast] at hmoved
  simp only [Equiv.trans_apply, finCongr_apply, Fin.val_cast]
  rw [hmoved, hlevel, hval, Equiv.swap_apply_self]

/-- The scan ends, after no more exchanges than there are inversions, with the lines in order. -/
theorem exists_scan (lines : Array ℝ) :
    ∃ swaps done, Scan lines.size lines swaps done ∧ swaps ≤ (inversions lines).card ∧
      InOrder done ∧ Shifted lines done := by
  induction hcard : (inversions lines).card using Nat.strong_induction_on generalizing lines with
  | _ n ih =>
      obtain ⟨found, hfound, ⟨rfl, horder⟩ | ⟨k, rfl, hk, hdescent⟩⟩ :=
        yields_firstDescent_line lines
      · exact ⟨0, lines, .ends hfound, Nat.zero_le _, horder, .refl lines⟩
      · obtain ⟨next, hnext, hsize, hlevel⟩ := yields_exchange_level hk
        have hlower : level lines (k + 1) < level lines k := by
          unfold level
          push_cast
          linarith
        have hlt := card_inversions_lt hk hlower hsize hlevel
        obtain ⟨swaps, done, hscan, hswaps, horder, hshifted⟩ := ih _ (hcard ▸ hlt) next rfl
        rw [hsize] at hscan
        exact ⟨swaps + 1, done, .swap hfound hnext hscan, by omega, horder,
          hshifted.swap hk hsize hlevel⟩

theorem Shifted.exists_place {lines done : Array ℝ} (h : Shifted lines done) :
    ∃ place : Equiv.Perm (Fin lines.size),
      ∀ p, line done (place p) = line lines p + 0.1 * (((place p : Nat) : ℝ) - (p : Nat)) := by
  obtain ⟨-, place, hplace⟩ := h
  refine ⟨place, fun p => ?_⟩
  have hlevel := hplace p
  unfold level at hlevel
  norm_num
  linarith

theorem Shifted.sum_eq {lines done : Array ℝ} (h : Shifted lines done) :
    ∑ i : Fin lines.size, line done i = ∑ i : Fin lines.size, line lines i := by
  obtain ⟨place, hplace⟩ := h.exists_place
  have hplaces : ∑ p : Fin lines.size, (((place p : Nat) : ℝ) - (p : Nat)) = 0 := by
    rw [Finset.sum_sub_distrib, Equiv.sum_comp place fun p : Fin lines.size => ((p : Nat) : ℝ),
      sub_self]
  calc ∑ i : Fin lines.size, line done i
    _ = ∑ p : Fin lines.size, line done (place p) :=
      (Equiv.sum_comp place fun p : Fin lines.size => line done p).symm
    _ = ∑ p : Fin lines.size, (line lines p + 0.1 * (((place p : Nat) : ℝ) - (p : Nat))) :=
      Finset.sum_congr rfl fun p _ => hplace p
    _ = ∑ p : Fin lines.size, line lines p := by
      rw [Finset.sum_add_distrib, ← Finset.mul_sum, hplaces, mul_zero, add_zero]

/-- Lines are put in order after at most as many exchanges as there are pairs of lines. They keep
their sum, and each has moved by a tenth of a radian for each position that it rose. -/
theorem reorder_sorts_within_pairs (lines : Array ℝ) :
    ∃ done swaps, Scan lines.size lines swaps done ∧
      reorder lines lines.size = .ok (done, swaps) ∧
      swaps ≤ lines.size * (lines.size - 1) / 2 ∧ done.size = lines.size ∧ InOrder done ∧
      ∑ i : Fin lines.size, line done i = ∑ i : Fin lines.size, line lines i ∧
      (∃ place : Equiv.Perm (Fin lines.size),
        ∀ p, line done (place p) = line lines p + 0.1 * (((place p : Nat) : ℝ) - (p : Nat))) ∧
      (swaps = 0 ↔ InOrder lines) ∧ (done = lines ↔ InOrder lines) := by
  obtain ⟨swaps, done, hscan, hswaps, horder, hshifted⟩ := exists_scan lines
  have hpairs := hswaps.trans (card_inversions_le lines)
  have hlimit : swaps ≤ lines.size * lines.size + 1 := by
    refine hpairs.trans ((Nat.div_le_self _ _).trans ?_)
    exact (Nat.mul_le_mul_left _ (Nat.sub_le _ _)).trans (Nat.le_succ _)
  have hreorder : reorder lines lines.size = .ok (done, swaps) := by
    rw [reorder, Int.toNat_natCast, hscan.reorderFuel_eq hlimit, Nat.zero_add]
  have hunchanged : InOrder lines → done = lines ∧ swaps = 0 := by
    intro h
    rw [reorder_of_ascending rfl h] at hreorder
    obtain ⟨rfl, rfl⟩ := Prod.mk.inj (Except.ok.inj hreorder)
    exact ⟨rfl, rfl⟩
  refine ⟨done, swaps, hscan, hreorder, hpairs, hshifted.1, horder, hshifted.sum_eq,
    hshifted.exists_place, ⟨?_, fun h => (hunchanged h).2⟩, ⟨?_, fun h => (hunchanged h).1⟩⟩
  · rintro rfl
    cases hscan
    exact horder
  · rintro rfl
    exact horder

end Vocoder.Lines
