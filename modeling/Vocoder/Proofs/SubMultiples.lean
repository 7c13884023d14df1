import Vocoder.Proofs.AnalysisTotal

/-!
The search through the sub-multiples of the highest peak ends with the lowest of their peaks, over
the real numbers. Every peak found takes the place of the one before it, so the search itself
compares no two peaks. But a lower sub-multiple has its window further down at both ends. A later
peak above an earlier one would lie in both windows, as would the earlier one, and then both windows
could not have their first highest value there.
-/

namespace Vocoder.Pitch

/-! ### Peaks around a sub-multiple -/

/-- The power of a bin. -/
def powerAt (powers : Array ℝ) (bin : ℤ) : ℝ := powers.getD bin.toNat 0

/-- The first bin around a sub-multiple, which is not below the pitch band. -/
noncomputable def windowFirst (minBin bin : ℤ) : ℤ := max ⌊(0.8 : ℝ) * bin⌋ minBin

/-- The last bin around a sub-multiple. -/
noncomputable def windowLast (bin : ℤ) : ℤ := ⌊(1.2 : ℝ) * bin⌋

/-- A bin has the first of the highest powers from one bin to another. -/
structure FirstHighest (powers : Array ℝ) (first last top : ℤ) : Prop where
  low : first ≤ top
  high : top ≤ last
  highest : ∀ bin, first ≤ bin → bin ≤ last → powerAt powers bin ≤ powerAt powers top
  earlier : ∀ bin, first ≤ bin → bin < top → powerAt powers bin < powerAt powers top

/-- A bin is a peak around the sub-multiple `bin` of a peak with power `gmax`. It exceeds a share of
that power, half of it where the last estimate is inside the window, and both neighbours. -/
structure Stands (powers : Array ℝ) (minBin : ℤ) (gmax : ℝ) (lastBin bin top : ℤ) : Prop where
  highest : FirstHighest powers (windowFirst minBin bin) (windowLast bin) top
  threshold : (if windowFirst minBin bin < lastBin ∧ lastBin < windowLast bin then 0.3 * gmax / 2
    else 0.3 * gmax) < powerAt powers top
  below : powerAt powers (top - 1) < powerAt powers top
  above : powerAt powers (top + 1) < powerAt powers top

/-- A sub-multiple of the highest peak that is in the pitch band has a peak of its own. -/
structure Qualifies (powers : Array ℝ) (minBin : ℤ) (gmax : ℝ) (gmaxBin lastBin multiple top : ℤ) :
    Prop where
  two_le : 2 ≤ multiple
  inBand : minBin ≤ gmaxBin / multiple
  stands : Stands powers minBin gmax lastBin (gmaxBin / multiple) top

theorem windowFirst_le {minBin bin : ℤ} (hmin : 0 ≤ minBin) (hbin : minBin ≤ bin) :
    windowFirst minBin bin ≤ bin := by
  have hnonneg : (0 : ℝ) ≤ bin := by exact_mod_cast hmin.trans hbin
  refine max_le (Int.cast_le.mp ((Int.floor_le ((0.8 : ℝ) * bin)).trans ?_)) hbin
  norm_num
  linarith

theorem windowFirst_mono (minBin : ℤ) {bin bin' : ℤ} (h : bin ≤ bin') :
    windowFirst minBin bin ≤ windowFirst minBin bin' := by
  unfold windowFirst
  gcongr

theorem windowLast_mono {bin bin' : ℤ} (h : bin ≤ bin') : windowLast bin ≤ windowLast bin' := by
  unfold windowLast
  gcongr

theorem le_windowLast {bin : ℤ} (h : 0 ≤ bin) : bin ≤ windowLast bin := by
  have hnonneg : (0 : ℝ) ≤ bin := by exact_mod_cast h
  refine Int.le_floor.mpr ?_
  norm_num
  linarith

theorem windowLast_lt {bin : ℤ} (h : 0 < bin) : windowLast bin < 2 * bin := by
  have hpos : (0 : ℝ) < bin := by exact_mod_cast h
  refine Int.floor_lt.mpr ?_
  push_cast
  norm_num
  linarith

theorem FirstHighest.unique {powers : Array ℝ} {first last top top' : ℤ}
    (h : FirstHighest powers first last top) (h' : FirstHighest powers first last top') :
    top = top' := by
  rcases lt_trichotomy top top' with hlt | heq | hgt
  · exact absurd (h.highest top' h'.low h'.high) (not_le.mpr (h'.earlier top h.low hlt))
  · exact heq
  · exact absurd (h'.highest top h.low h.high) (not_le.mpr (h.earlier top' h'.low hgt))

/-- A window that lies further down at both ends has its first highest power no further up. -/
theorem FirstHighest.le_of_lower {powers : Array ℝ} {first last first' last' top top' : ℤ}
    (h : FirstHighest powers first last top) (h' : FirstHighest powers first' last' top')
    (hfirst : first' ≤ first) (hlast : last' ≤ last) : top' ≤ top := by
  by_contra hgt
  rw [not_le] at hgt
  have hboth : powerAt powers top' ≤ powerAt powers top :=
    h.highest top' (h.low.trans hgt.le) (h'.high.trans hlast)
  have hearlier : powerAt powers top < powerAt powers top' :=
    h'.earlier top (hfirst.trans h.low) hgt
  exact absurd hboth (not_le.mpr hearlier)

/-! ### What the search finds -/

variable {powers : Array ℝ}

theorem yields_fetch_power {bin : ℤ} (hlow : 0 ≤ bin) (hhigh : bin < powers.size) :
    Yields (fetch powers bin) fun power => power = powerAt powers bin := by
  refine (yields_fetch_at (k := bin.toNat) (by omega) (by omega)).mono fun power hpower => ?_
  simp [powerAt, hpower]

theorem powerAt_nonneg (hpowers : ∀ power ∈ powers, 0 ≤ power) (bin : ℤ) :
    0 ≤ powerAt powers bin := by
  rw [powerAt, Array.getD_eq_getD_getElem?]
  cases hpower : powers[bin.toNat]? with
  | none => exact le_rfl
  | some power => exact hpowers power (Array.mem_of_getElem? hpower)

/-- What the search for a peak keeps, with all bins below `next` seen. -/
structure Leads (powers : Array ℝ) (first next : ℤ) (best : ℝ × ℤ) : Prop where
  low : first ≤ best.2
  high : best.2 ≤ max first (next - 1)
  highest : ∀ bin, first ≤ bin → bin < next → powerAt powers bin ≤ best.1
  earlier : ∀ bin, first ≤ bin → bin < best.2 → powerAt powers bin < best.1
  value : best.1 = powerAt powers best.2 ∨ best.1 = 0 ∧ best.2 = first

theorem Leads.step {first next : ℤ} {best : ℝ × ℤ} (hfirst : first ≤ next)
    (h : Leads powers first next best) :
    Leads powers first (next + 1)
      (if best.1 < powerAt powers next then (powerAt powers next, next) else best) := by
  split_ifs with hhigher
  · refine ⟨hfirst, by simp, fun bin hbin hlt => ?_, fun bin hbin hlt => ?_, .inl rfl⟩
    · rcases Int.lt_add_one_iff.mp hlt |>.lt_or_eq with hbefore | rfl
      · exact (h.highest bin hbin hbefore).trans hhigher.le
      · exact le_rfl
    · exact (h.highest bin hbin hlt).trans_lt hhigher
  · refine ⟨h.low, by have := h.high; omega, fun bin hbin hlt => ?_, h.earlier, h.value⟩
    rcases Int.lt_add_one_iff.mp hlt |>.lt_or_eq with hbefore | rfl
    · exact h.highest bin hbin hbefore
    · exact not_lt.mp hhigher

theorem yields_peak_first {first last : ℤ} (hpowers : ∀ power ∈ powers, 0 ≤ power)
    (hlow : 0 ≤ first) (hle : first ≤ last) (hhigh : last < powers.size) :
    Yields (peak powers first last) fun best =>
      best.1 = powerAt powers best.2 ∧ FirstHighest powers first last best.2 := by
  refine yields_foldBetween (P := fun next best => Leads powers first next best) ?_ ?_ ?_
  · rw [zero_point_zero]
    exact ⟨le_rfl, le_max_left _ _, fun bin hbin hlt => absurd hbin (not_le.mpr hlt),
      fun bin hbin hlt => absurd hbin (not_le.mpr hlt), .inr ⟨rfl, rfl⟩⟩
  · intro next best hnext hnext' hbest
    refine (yields_fetch_power (by omega) (by omega)).bind fun power hpower => Yields.pure ?_
    subst hpower
    exact hbest.step hnext
  · intro best hbest
    rw [show max first (last + 1) = last + 1 by omega] at hbest
    have hvalue : best.1 = powerAt powers best.2 := by
      rcases hbest.value with hvalue | ⟨hsilent, hstart⟩
      · exact hvalue
      · -- A window with no power at all has its first bin as the first of the highest.
        have hle := hbest.highest first le_rfl (by omega)
        rw [hsilent] at hle
        rw [hsilent, hstart]
        exact le_antisymm (powerAt_nonneg hpowers first) hle
    have hhigh := hbest.high
    refine ⟨hvalue, hbest.low, by omega, fun bin hbin hlt => ?_, fun bin hbin hlt => ?_⟩
    · exact hvalue ▸ hbest.highest bin hbin (by omega)
    · exact hvalue ▸ hbest.earlier bin hbin hlt

/-- The search around a sub-multiple finds its peak, if it has one. -/
theorem yields_subPeak_stands {minBin bin : ℤ} (hpowers : ∀ power ∈ powers, 0 ≤ power) (gmax : ℝ)
    (lastBin : ℤ) (hmin : 1 ≤ minBin) (hbin : minBin ≤ bin) (hsize : 2 * bin < powers.size)
    (hcount : powers.size ≤ 2 ^ 62) :
    Yields (subPeak powers minBin gmax lastBin bin) fun found =>
      ∀ top, found = some top ↔ Stands powers minBin gmax lastBin bin top := by
  have hnonneg : (0 : ℝ) ≤ bin := by exact_mod_cast (show 0 ≤ bin by omega)
  have hword : (bin : ℝ) ≤ 2 ^ 62 := by exact_mod_cast (show bin ≤ 2 ^ 62 by omega)
  have hfirst : (if Analytic.toWord (0.8 * (Scalar.ofInt bin : ℝ)) < minBin then minBin
      else Analytic.toWord (0.8 * (Scalar.ofInt bin : ℝ))) = windowFirst minBin bin := by
    rw [Analytic.ofInt_real, Analytic.toWord_of_nonneg (by positivity) (by norm_num; linarith),
      windowFirst]
    split_ifs <;> omega
  have hlast : Analytic.toWord (1.2 * (Scalar.ofInt bin : ℝ)) = windowLast bin := by
    rw [Analytic.ofInt_real, Analytic.toWord_of_nonneg (by positivity) (by norm_num; linarith),
      windowLast]
  have hhalf : 0.15 * gmax = 0.3 * gmax / 2 := by
    norm_num
    ring
  have hlow := windowFirst_le (by omega) hbin
  have hhigh := windowLast_lt (show 0 < bin by omega)
  have hbetween := le_windowLast (show 0 ≤ bin by omega)
  have hband : minBin ≤ windowFirst minBin bin := le_max_right _ _
  unfold subPeak
  dsimp only
  rw [hfirst, hlast, hhalf]
  refine (yields_peak_first hpowers (by omega) (by omega) (by omega)).bind ?_
  rintro ⟨power, best⟩ ⟨hvalue, hbest⟩
  dsimp only at hvalue hbest ⊢
  subst hvalue
  have hbest_low := hbest.low
  have hbest_high := hbest.high
  have honly : ∀ top, Stands powers minBin gmax lastBin bin top → best = top :=
    fun top h => hbest.unique h.highest
  by_cases hinside : (if windowFirst minBin bin < lastBin ∧ lastBin < windowLast bin
      then 0.3 * gmax / 2 else 0.3 * gmax) < powerAt powers best ∧ 0 < best ∧ best + 1 < powers.size
  · rw [if_pos hinside]
    refine (yields_fetch_power (by omega) (by omega)).bind fun below hbelow => ?_
    refine (yields_fetch_power (by omega) (by omega)).bind fun above habove => ?_
    subst hbelow habove
    split_ifs with hneighbours
    · refine Yields.pure fun top => ⟨?_, fun h => congrArg some (honly top h)⟩
      intro heq
      cases heq
      exact ⟨hbest, hinside.1, hneighbours.1, hneighbours.2⟩
    · refine Yields.pure fun top => ⟨by simp, fun h => ?_⟩
      obtain rfl := honly top h
      exact absurd ⟨h.below, h.above⟩ hneighbours
  · rw [if_neg hinside]
    refine Yields.pure fun top => ⟨by simp, fun h => ?_⟩
    obtain rfl := honly top h
    exact absurd ⟨h.threshold, by omega, by omega⟩ hinside

/-! ### The run through the sub-multiples -/

/-- The run with no limit on the sub-multiples, which ends where they leave the pitch band. -/
inductive Descends (powers : Array ℝ) (minBin : ℤ) (gmax : ℝ) (gmaxBin lastBin : ℤ) :
    (multiple best result : ℤ) → Prop where
  | ends {multiple best : ℤ} (outside : ¬ minBin ≤ gmaxBin / multiple) :
      Descends powers minBin gmax gmaxBin lastBin multiple best best
  | next {multiple best result : ℤ} {found : Option ℤ} (inside : minBin ≤ gmaxBin / multiple)
      (searched : subPeak powers minBin gmax lastBin (gmaxBin / multiple) = .ok found)
      (rest : Descends powers minBin gmax gmaxBin lastBin (multiple + 1) (found.getD best) result) :
      Descends powers minBin gmax gmaxBin lastBin multiple best result

variable {minBin gmaxBin : ℤ} {gmax : ℝ} {lastBin : ℤ}

theorem double_submultiple_le {multiple : ℤ} (hgmax : 0 ≤ gmaxBin) (hmultiple : 2 ≤ multiple) :
    2 * (gmaxBin / multiple) ≤ gmaxBin := by
  have hle := Int.ediv_mul_le gmaxBin (show multiple ≠ 0 by omega)
  have hnonneg := Int.ediv_nonneg hgmax (show 0 ≤ multiple by omega)
  nlinarith

theorem submultiple_le {multiple further : ℤ} (hgmax : 0 ≤ gmaxBin) (hmultiple : 2 ≤ multiple)
    (hle : multiple ≤ further) : gmaxBin / further ≤ gmaxBin / multiple := by
  have hnonneg := Int.ediv_nonneg hgmax (show 0 ≤ further by omega)
  rw [Int.le_ediv_iff_mul_le (by omega)]
  calc gmaxBin / further * multiple
    _ ≤ gmaxBin / further * further := mul_le_mul_of_nonneg_left hle hnonneg
    _ ≤ gmaxBin := Int.ediv_mul_le gmaxBin (by omega)

/-- A limit that the run does not reach changes nothing. -/
theorem yields_lowestPeak_descends (hpowers : ∀ power ∈ powers, 0 ≤ power) (hmin : 1 ≤ minBin)
    (hgmax : 0 ≤ gmaxBin) (hsize : gmaxBin < powers.size) (hcount : powers.size ≤ 2 ^ 62)
    {fuel : ℕ} {multiple : ℤ} (best : ℤ) (hmultiple : 2 ≤ multiple)
    (hfuel : gmaxBin < multiple + fuel) :
    Yields (lowestPeak powers minBin gmax gmaxBin lastBin fuel multiple best)
      (Descends powers minBin gmax gmaxBin lastBin multiple best) := by
  induction fuel generalizing multiple best with
  | zero =>
      have hbelow : gmaxBin / multiple = 0 := Int.ediv_eq_zero_of_lt hgmax (by omega)
      exact Yields.ok (.ends (by omega))
  | succ fuel ih =>
      have hdouble := double_submultiple_le hgmax hmultiple
      rw [lowestPeak, Int.tdiv_eq_ediv_of_nonneg hgmax]
      split_ifs with hband
      · refine (yields_subPeak_stands hpowers gmax lastBin hmin hband (by omega)
          hcount).with_eq.bind ?_
        rintro found ⟨hfound, -⟩
        exact (ih _ (by omega) (by omega)).mono fun result hrest => .next hband hfound hrest
      · exact Yields.pure (.ends hband)

/-- A further sub-multiple has its peak no further up. -/
theorem Qualifies.le_of_le {multiple multiple' top top' : ℤ} (hgmax : 0 ≤ gmaxBin)
    (h : Qualifies powers minBin gmax gmaxBin lastBin multiple top)
    (h' : Qualifies powers minBin gmax gmaxBin lastBin multiple' top')
    (hle : multiple ≤ multiple') : top' ≤ top := by
  have hbins := submultiple_le hgmax h.two_le hle
  exact h.stands.highest.le_of_lower h'.stands.highest (windowFirst_mono minBin hbins)
    (windowLast_mono hbins)

/-- The peaks of a sub-multiple and of all further ones. -/
def peaksFrom (powers : Array ℝ) (minBin : ℤ) (gmax : ℝ) (gmaxBin lastBin multiple : ℤ) : Set ℤ :=
  {top | ∃ further, multiple ≤ further ∧ Qualifies powers minBin gmax gmaxBin lastBin further top}

theorem mem_peaksFrom {multiple top : ℤ} :
    top ∈ peaksFrom powers minBin gmax gmaxBin lastBin multiple ↔
      Qualifies powers minBin gmax gmaxBin lastBin multiple top ∨
        top ∈ peaksFrom powers minBin gmax gmaxBin lastBin (multiple + 1) := by
  constructor
  · rintro ⟨further, hfurther, hqualifies⟩
    rcases hfurther.lt_or_eq with hlt | rfl
    · exact .inr ⟨further, hlt, hqualifies⟩
    · exact .inl hqualifies
  · rintro (hqualifies | ⟨further, hfurther, hqualifies⟩)
    · exact ⟨multiple, le_rfl, hqualifies⟩
    · exact ⟨further, by omega, hqualifies⟩

/-- A run that starts no lower than any peak ends with the lowest one, if there is any. -/
theorem Descends.isLeast {multiple best result : ℤ} (hpowers : ∀ power ∈ powers, 0 ≤ power)
    (hmin : 1 ≤ minBin) (hgmax : 0 ≤ gmaxBin) (hsize : gmaxBin < powers.size)
    (hcount : powers.size ≤ 2 ^ 62) (hmultiple : 2 ≤ multiple)
    (hbest : ∀ top ∈ peaksFrom powers minBin gmax gmaxBin lastBin multiple, top ≤ best)
    (h : Descends powers minBin gmax gmaxBin lastBin multiple best result) :
    IsLeast (peaksFrom powers minBin gmax gmaxBin lastBin multiple) result ∨
      peaksFrom powers minBin gmax gmaxBin lastBin multiple = ∅ ∧ result = best := by
  induction h with
  | @ends multiple best outside =>
      refine .inr ⟨Set.eq_empty_of_forall_notMem ?_, rfl⟩
      rintro top ⟨further, hfurther, hqualifies⟩
      exact outside (hqualifies.inBand.trans (submultiple_le hgmax hmultiple hfurther))
  | @next multiple best result found inside searched rest ih =>
      have hdouble := double_submultiple_le hgmax hmultiple
      have hfound :=
        (yields_subPeak_stands hpowers gmax lastBin hmin inside (by omega) hcount).of_eq searched
      have hhere : ∀ top, Qualifies powers minBin gmax gmaxBin lastBin multiple top ↔
          found = some top :=
        fun top => ⟨fun h => (hfound top).mpr h.stands,
          fun h => ⟨hmultiple, inside, (hfound top).mp h⟩⟩
      cases found with
      | none =>
          have hsame : peaksFrom powers minBin gmax gmaxBin lastBin multiple =
              peaksFrom powers minBin gmax gmaxBin lastBin (multiple + 1) := by
            ext top
            rw [mem_peaksFrom, hhere]
            simp
          rw [hsame] at hbest ⊢
          exact ih (by omega) hbest
      | some top =>
          have htop := (hhere top).mpr rfl
          have hfurther : ∀ top' ∈ peaksFrom powers minBin gmax gmaxBin lastBin (multiple + 1),
              top' ≤ top := by
            rintro top' ⟨further, hle, hqualifies⟩
            exact htop.le_of_le hgmax hqualifies (by omega)
          have hlowest : ∀ result, result ≤ top →
              result ∈ lowerBounds (peaksFrom powers minBin gmax gmaxBin lastBin (multiple + 1)) →
              result ∈ lowerBounds (peaksFrom powers minBin gmax gmaxBin lastBin multiple) := by
            intro result hle hlower top' htop'
            rcases mem_peaksFrom.mp htop' with hqualifies | hlater
            · rw [hhere, Option.some.injEq] at hqualifies
              exact hqualifies ▸ hle
            · exact hlower hlater
          left
          rcases ih (by omega) hfurther with ⟨hmem, hlower⟩ | ⟨hempty, rfl⟩
          · exact ⟨mem_peaksFrom.mpr (.inr hmem), hlowest _ (hfurther _ hmem) hlower⟩
          · refine ⟨mem_peaksFrom.mpr (.inl htop), hlowest _ le_rfl ?_⟩
            rw [hempty]
            simp

theorem Qualifies.bounds {multiple top : ℤ} (hmin : 1 ≤ minBin) (hgmax : 0 ≤ gmaxBin)
    (h : Qualifies powers minBin gmax gmaxBin lastBin multiple top) :
    minBin ≤ top ∧ top ≤ gmaxBin := by
  have hdouble := double_submultiple_le hgmax h.two_le
  have hlast := windowLast_lt (hmin.trans h.inBand)
  have hhigh := h.stands.highest.high
  exact ⟨(le_max_right _ _).trans h.stands.highest.low, by omega⟩

/-! ### The estimate -/

/-- The bin of an estimate in Hz. -/
noncomputable def binOf (f0 : ℝ) : ℤ := Analytic.toWord (f0 * rateBins / sampleRate)

/-- The search for the fundamental ends with the lowest peak around any sub-multiple in the band, or
with the highest peak itself if no sub-multiple has one. So every estimate has a period of 20 to 160
samples. -/
theorem lowest_submultiple_peak :
    (∀ (powers : Array ℝ) (longest gmaxBin : ℤ) (gmax lastF0 : ℝ), powers.size = 512 →
      (∀ power ∈ powers, 0 ≤ power) → 1 ≤ rateBins.tdiv longest →
      rateBins.tdiv longest ≤ gmaxBin → gmaxBin < 512 →
      ∃ bin : ℤ,
        Descends powers (rateBins.tdiv longest) gmax gmaxBin (binOf lastF0) 2 gmaxBin bin ∧
        fundamental powers longest gmax gmaxBin lastF0 = .ok (bin * sampleRate / rateBins) ∧
        (IsLeast {top | ∃ multiple,
            Qualifies powers (rateBins.tdiv longest) gmax gmaxBin (binOf lastF0) multiple top} bin ∨
          (∀ multiple top, ¬ Qualifies powers (rateBins.tdiv longest) gmax gmaxBin (binOf lastF0)
            multiple top) ∧ bin = gmaxBin) ∧
        rateBins.tdiv longest ≤ bin ∧ bin ≤ gmaxBin) ∧
    ∀ (transform : Transform ℝ) (window : Vector ℝ 64) (memory : Memory ℝ) (fresh : List ℝ)
      (lastF0 : ℝ), fresh.length ≤ 320 →
      ∃ found next, estimate transform window memory fresh lastF0 = .ok (found, next) ∧
        (minPeriod : ℝ) ≤ found.period ∧ found.period ≤ maxPeriod := by
  constructor
  · intro powers longest gmaxBin gmax lastF0 hsize hpowers hmin hlow hhigh
    have hnonzero : longest ≠ 0 := by
      rintro rfl
      rw [Int.tdiv_zero] at hmin
      omega
    let minBin := rateBins.tdiv longest
    have hgmax : 0 ≤ gmaxBin := by omega
    obtain ⟨bin, hbin, hrun⟩ : Yields
        (lowestPeak powers minBin gmax gmaxBin (binOf lastF0) gmaxBin.toNat 2 gmaxBin)
        (Descends powers minBin gmax gmaxBin (binOf lastF0) 2 gmaxBin) :=
      yields_lowestPeak_descends hpowers hmin hgmax (by omega) (by omega) gmaxBin le_rfl (by omega)
    have hall : peaksFrom powers minBin gmax gmaxBin (binOf lastF0) 2 =
        {top | ∃ multiple, Qualifies powers minBin gmax gmaxBin (binOf lastF0) multiple top} := by
      ext top
      exact ⟨fun ⟨multiple, _, h⟩ => ⟨multiple, h⟩, fun ⟨multiple, h⟩ => ⟨multiple, h.two_le, h⟩⟩
    have hleast := hrun.isLeast hpowers hmin hgmax (by omega) (by omega) le_rfl
      fun top ⟨_, _, h⟩ => (h.bounds hmin hgmax).2
    rw [hall] at hleast
    have hreturned : fundamental powers longest gmax gmaxBin lastF0 =
        .ok (bin * sampleRate / rateBins) := by
      unfold fundamental
      dsimp only
      rw [if_neg hnonzero]
      exact bind_eq_ok.mpr ⟨bin, hbin, rfl⟩
    refine ⟨bin, hrun, hreturned, ?_⟩
    rcases hleast with hleast | ⟨hempty, rfl⟩
    · obtain ⟨multiple, hqualifies⟩ := hleast.1
      exact ⟨.inl hleast, hqualifies.bounds hmin hgmax⟩
    · refine ⟨.inr ⟨fun multiple top h => ?_, rfl⟩, hlow, le_rfl⟩
      exact Set.eq_empty_iff_forall_notMem.mp hempty top ⟨multiple, h⟩
  · intro transform window memory fresh lastF0 hfresh
    obtain ⟨⟨found, next⟩, hdone, hband⟩ := yields_estimate transform window memory lastF0 hfresh
    refine ⟨found, next, hdone, ?_, ?_⟩
    · simpa [minPeriod] using hband.low
    · simpa [maxPeriod] using hband.high

/-- A spectrum with two peaks, of which the lower one is half as high, in the middle of the window
around the second sub-multiple; and silence. -/
theorem lowest_submultiple_peak_octave :
    (∃ powers : Array ℝ, powers.size = 512 ∧ (∀ power ∈ powers, 0 ≤ power) ∧
      (∀ bin, powerAt powers bin = if bin = 50 then 5 else if bin = 100 then 10 else 0) ∧
      rateBins.tdiv 160 = 16 ∧ fundamental powers 160 10 100 50 = .ok 156.25) ∧
    (List.replicate 80 (0 : ℝ)).length ≤ 320 ∧
    ∃ found next, estimate Transform.dft Window.pitch Memory.start (List.replicate 80 (0 : ℝ)) 50 =
        .ok (found, next) ∧ 20 ≤ found.period ∧ found.period ≤ 160 := by
  obtain ⟨hlowest, hestimate⟩ := lowest_submultiple_peak
  constructor
  · let tone (i : ℕ) : ℝ := if i = 50 then 5 else if i = 100 then 10 else 0
    let powers : Array ℝ := (Array.range 512).map tone
    have hpowers : ∀ power ∈ powers, 0 ≤ power := by
      intro power hpower
      obtain ⟨i, -, rfl⟩ := Array.mem_map.mp hpower
      simp only [tone]
      split_ifs <;> norm_num
    have hpower : ∀ bin, powerAt powers bin =
        if bin = 50 then 5 else if bin = 100 then 10 else 0 := by
      intro bin
      have htone : powerAt powers bin = tone bin.toNat := by
        simp only [powerAt, powers, Array.getD_eq_getD_getElem?, Array.getElem?_map]
        by_cases hinside : bin.toNat < 512
        · simp [hinside]
        · have hsilent : tone bin.toNat = 0 := by
            simp only [tone]
            rw [if_neg (by omega), if_neg (by omega)]
          simp [hinside, hsilent]
      simp only [htone, tone, show bin.toNat = 50 ↔ bin = 50 by omega,
        show bin.toNat = 100 ↔ bin = 100 by omega]
    have hqualifies : Qualifies powers (rateBins.tdiv 160) 10 100 (binOf 50) 2 50 := by
      have hfirst : windowFirst (rateBins.tdiv 160) (100 / 2) = 40 := by
        rw [show rateBins.tdiv 160 = 16 by decide]
        norm_num [windowFirst]
      have hlast : windowLast (100 / 2) = 60 := by
        norm_num [windowLast]
      refine ⟨le_rfl, by decide, ⟨?_, ?_, ?_, ?_⟩, ?_, ?_, ?_⟩ <;> simp only [hfirst, hlast, hpower]
      · norm_num
      · norm_num
      · intro bin _ hhigh
        rw [if_neg (show bin ≠ 100 by omega)]
        split_ifs <;> norm_num
      · intro bin _ hlt
        rw [if_neg (show bin ≠ 50 by omega), if_neg (show bin ≠ 100 by omega)]
        norm_num
      · split_ifs <;> norm_num
      · norm_num
      · norm_num
    obtain ⟨bin, -, hreturned, hleast, -⟩ := hlowest powers 160 100 10 50 (by simp [powers]) hpowers
      (by decide) (by decide) (by decide)
    have hbin : bin = 50 := by
      rcases hleast with ⟨⟨multiple, htop⟩, hlower⟩ | ⟨hnone, -⟩
      · -- Only two bins have any power, and the lower one is a peak.
        have hle : bin ≤ 50 := hlower ⟨2, hqualifies⟩
        have hbelow := htop.stands.below
        rw [hpower, hpower] at hbelow
        by_contra hne
        rw [if_neg hne, if_neg (show bin ≠ 100 by omega)] at hbelow
        split_ifs at hbelow <;> norm_num at hbelow
      · exact absurd hqualifies (hnone 2 50)
    refine ⟨powers, by simp [powers], hpowers, hpower, by decide, ?_⟩
    rw [hreturned, hbin]
    norm_num [sampleRate, rateBins]
  · obtain ⟨found, next, hfound, hlow, hhigh⟩ := hestimate Transform.dft Window.pitch Memory.start
      (List.replicate 80 0) 50 (by simp)
    refine ⟨by simp, found, next, hfound, ?_, ?_⟩
    · simpa [minPeriod] using hlow
    · simpa [maxPeriod] using hhigh

end Vocoder.Pitch
