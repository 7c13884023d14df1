import Vocoder.Frame.Decode
import Vocoder.Proofs.LinesTotal
import Vocoder.Proofs.RealScalars

/-!
Order and separation of lines over the real numbers. Each step of a pass keeps a bound for every
position: an exchange takes a tenth of a radian off a line that moves down by one position, so lines
above as many tenths as their position stay so; and a line that is pushed down still leaves room for
the distances of all lines below it. So no pass takes the lowest line to zero, and after spreading
the lines are separated and stay below the ceiling.
-/

namespace Vocoder.Lines

/-- The line at a position. Beyond the end there is none, which counts as zero. -/
def line (lines : Array ℝ) (i : Nat) : ℝ := lines.getD i 0

theorem yields_fetch_line {lines : Array ℝ} {i : Int} {k : Nat} (hi : i = k)
    (hk : k < lines.size) : Yields (fetch lines i) fun x => x = line lines k := by
  refine (yields_fetch_at hi hk).mono fun x hx => ?_
  simp [line, hx]

theorem yields_store_line {lines : Array ℝ} {i : Int} {k : Nat} (hi : i = k)
    (hk : k < lines.size) (x : ℝ) :
    Yields (store lines i x) fun next =>
      next.size = lines.size ∧ line next = Function.update (line lines) k x := by
  subst hi
  refine (yields_store (Int.natCast_nonneg k) (by omega) x).mono ?_
  rintro next rfl
  refine ⟨Array.size_setIfInBounds, funext fun j => ?_⟩
  by_cases hj : j = k
  · subst hj
    simp [line, hk]
  · rw [Function.update_of_ne hj]
    simp [line, Array.getElem?_setIfInBounds_ne (Ne.symm hj)]

theorem line_push (lines : Array ℝ) (x : ℝ) (k : Nat) :
    line (lines.push x) k = if k = lines.size then x else line lines k := by
  simp only [line, Array.getD_eq_getD_getElem?, Array.getElem?_push]
  split_ifs <;> rfl

/-! ### Order -/

/-- No line lies below the one before it. -/
def InOrder (lines : Array ℝ) : Prop :=
  ∀ i, i + 1 < lines.size → line lines i ≤ line lines (i + 1)

theorem yields_descentFrom_line {lines : Array ℝ} {n count : Nat}
    (hcount : n + 1 + count = lines.size)
    (hbelow : ∀ i, i < n → line lines i ≤ line lines (i + 1)) :
    Yields (descentFrom lines (n + 1) count) fun found =>
      (found = none ∧ InOrder lines) ∨ ∃ k : Nat, found = some (k + 1 : Int) ∧
        k + 1 < lines.size ∧ line lines (k + 1) < line lines k := by
  induction count generalizing n with
  | zero => exact Yields.ok (.inl ⟨rfl, fun i hi => hbelow i (by omega)⟩)
  | succ count ih =>
      rw [descentFrom]
      refine (yields_fetch_line (k := n + 1) (by omega) (by omega)).bind fun top htop => ?_
      refine (yields_fetch_line (k := n) (by omega) (by omega)).bind fun below hlow => ?_
      subst htop hlow
      split_ifs with hdescent
      · exact Yields.pure (.inr ⟨n, rfl, by omega, hdescent⟩)
      · have hnext : ∀ i, i < n + 1 → line lines i ≤ line lines (i + 1) := by
          intro i hi
          rcases Nat.lt_succ_iff_lt_or_eq.mp hi with hlt | rfl
          · exact hbelow i hlt
          · exact not_lt.mp hdescent
        have hrest := ih (n := n + 1) (by omega) hnext
        push_cast at hrest
        exact hrest

/-- The scan finds a descent unless the lines are in order. -/
theorem yields_firstDescent_line (lines : Array ℝ) :
    Yields (firstDescent lines lines.size) fun found =>
      (found = none ∧ InOrder lines) ∨ ∃ k : Nat, found = some (k + 1 : Int) ∧
        k + 1 < lines.size ∧ line lines (k + 1) < line lines k := by
  rcases Nat.eq_zero_or_pos lines.size with hempty | hpos
  · refine ⟨none, ?_, .inl ⟨rfl, fun i hi => by omega⟩⟩
    rw [firstDescent, hempty]
    rfl
  · rw [firstDescent, show ((lines.size : Int) - 1).toNat = lines.size - 1 by omega]
    exact yields_descentFrom_line (n := 0) (by omega) fun i hi => by omega

/-- A line less a tenth of a radian for each position. -/
noncomputable def level (lines : Array ℝ) (i : Nat) : ℝ := line lines i - i / (10 : Nat)

/-- An exchange swaps two neighbouring levels. -/
theorem yields_exchange_level {lines : Array ℝ} {k : Nat} (hk : k + 1 < lines.size) :
    Yields (exchange lines (k + 1)) fun next =>
      next.size = lines.size ∧ ∀ i, level next i = level lines (Equiv.swap k (k + 1) i) := by
  refine (yields_fetch_line (k := k) (by omega) (by omega)).bind fun high hhigh => ?_
  refine (yields_fetch_line (k := k + 1) (by omega) (by omega)).bind fun low hlow => ?_
  refine (yields_store_line (k := k) (by omega) (by omega) _).bind fun lowered hlowered => ?_
  refine (yields_store_line (k := k + 1) (by omega) (by omega) _).mono fun next hnext => ?_
  refine ⟨hnext.1.trans hlowered.1, fun i => ?_⟩
  rw [level, hnext.2, hlowered.2]
  by_cases htop : i = k + 1
  · subst htop
    rw [Function.update_self, Equiv.swap_apply_right, level, hhigh]
    push_cast
    norm_num
    ring
  · rw [Function.update_of_ne htop]
    by_cases hbottom : i = k
    · subst hbottom
      rw [Function.update_self, Equiv.swap_apply_left, level, hlow]
      push_cast
      norm_num
      ring
    · rw [Function.update_of_ne hbottom, Equiv.swap_apply_of_ne_of_ne hbottom htop, level]

theorem swap_lt {k i n : Nat} (hk : k + 1 < n) (hi : i < n) : Equiv.swap k (k + 1) i < n := by
  simp only [Equiv.swap_apply_def]
  split_ifs <;> omega

/-- Every line is above as many tenths of a radian as its position. -/
def AboveTenths (lines : Array ℝ) : Prop :=
  ∀ i : Nat, i < lines.size → (i : ℝ) / (10 : Nat) < line lines i

theorem AboveTenths.yields_exchange {lines : Array ℝ} {i : Int} (hi : 1 ≤ i)
    (hsize : i < lines.size) (h : AboveTenths lines) :
    Yields (exchange lines i) fun next => next.size = lines.size ∧ AboveTenths next := by
  obtain ⟨k, rfl⟩ : ∃ k : Nat, i = k + 1 := ⟨(i - 1).toNat, by omega⟩
  have hk : k + 1 < lines.size := by omega
  refine (yields_exchange_level hk).mono ?_
  rintro next ⟨hcount, hlevel⟩
  refine ⟨hcount, fun j hj => ?_⟩
  have habove : 0 < level lines (Equiv.swap k (k + 1) j) :=
    sub_pos.mpr (h _ (swap_lt hk (hcount ▸ hj)))
  rw [← hlevel] at habove
  exact sub_pos.mp habove

theorem AboveTenths.yields_reorder {lines : Array ℝ} {order : Int} (h : AboveTenths lines)
    (horder : order ≤ lines.size) :
    Yields (reorder lines order) fun done =>
      done.1.size = lines.size ∧ AboveTenths done.1 :=
  yields_reorderFuel (fun _ _ hi hsize h => h.yields_exchange hi hsize) _ 0 horder h

/-- Lines in order are left as they are. -/
theorem reorder_of_ascending {lines : Array ℝ} {order : Int} (horder : order = lines.size)
    (h : InOrder lines) :
    reorder lines order = .ok (lines, 0) := by
  subst horder
  obtain ⟨found, hfound, ⟨rfl, -⟩ | ⟨k, -, hk, hdescent⟩⟩ := yields_firstDescent_line lines
  · rw [reorder, reorderFuel, hfound]
    rfl
  · exact absurd (h k hk) (not_le.mpr hdescent)

/-! ### Distances -/

theorem radPerHz_real : (radPerHz : ℝ) = Real.pi / 4000 := by
  unfold radPerHz
  norm_num

theorem radPerHz_pos : (0 : ℝ) < radPerHz := by
  rw [radPerHz_real]
  positivity

/-- The least distance of a line from the one before it. -/
noncomputable def gap (i : Nat) : ℝ := separation (i : Int) * radPerHz

theorem gap_pos (i : Nat) : 0 < gap i := by
  refine mul_pos ?_ radPerHz_pos
  unfold separation
  split_ifs <;> norm_num

/-- The room that the distances of a line and of all lines below it take. -/
noncomputable def room : Nat → ℝ
  | 0 => 0
  | i + 1 => room i + gap (i + 1)

theorem room_lt_ceiling : room 9 < ceiling := by
  have hpi := Real.pi_pos
  simp only [room, gap, separation, ceiling, radPerHz_real]
  norm_num
  linarith

/-- Lines from position `first` on keep their distances. -/
def Spaced (first : Int) (lines : Array ℝ) : Prop :=
  ∀ i : Nat, first ≤ i → i + 1 < lines.size → gap (i + 1) ≤ line lines (i + 1) - line lines i

theorem Spaced.room_le {lines : Array ℝ} (h : Spaced 0 lines) {i : Nat} (hi : i < lines.size) :
    line lines 0 + room i ≤ line lines i := by
  induction i with
  | zero => rw [room, add_zero]
  | succ i ih =>
      have hbelow := ih (by omega)
      have hgap := h i (by omega) hi
      rw [room]
      linarith

/-- A line that is pushed up is the higher of itself and the least place above the pushed line
before it. -/
theorem yields_pushUp_max {order : Int} {lines : Array ℝ} (horder : order = lines.size) :
    Yields (pushUp lines order) fun done =>
      done.size = lines.size ∧ line done 0 = line lines 0 ∧ ∀ i, i + 1 < lines.size →
        line done (i + 1) = max (line lines (i + 1)) (line done i + gap (i + 1)) := by
  -- Lines from the next position on are still where they were.
  refine yields_foldBetween (P := fun i done => done.size = lines.size ∧
    (∀ k : Nat, k = 0 ∨ i ≤ k → line done k = line lines k) ∧ ∀ k : Nat, (k + 1 : Int) < i →
      line done (k + 1) = max (line lines (k + 1)) (line done k + gap (k + 1)))
    ⟨rfl, fun k _ => rfl, fun k hk => by omega⟩ ?_ ?_
  · rintro i done hi hlt ⟨hsize, hkept, hpushed⟩
    obtain ⟨n, rfl⟩ : ∃ n : Nat, i = n + 1 := ⟨(i - 1).toNat, by omega⟩
    refine (yields_fetch_line (k := n) (by omega) (by omega)).bind fun below hbelow => ?_
    refine (yields_fetch_line (k := n + 1) (by omega) (by omega)).bind fun top htop => ?_
    have hgap : separation (n + 1 : Int) * radPerHz = gap (n + 1) := by
      rw [gap]
      push_cast
      rfl
    rw [hkept (n + 1) (by omega)] at htop
    rw [hgap]
    split_ifs with hclose
    · refine (yields_store_line (k := n + 1) (by omega) (by omega) _).mono fun next hnext => ?_
      refine ⟨hnext.1.trans hsize, fun k hk => ?_, fun k hk => ?_⟩
      · rw [hnext.2, Function.update_of_ne (by omega), hkept k (by omega)]
      · rw [hnext.2]
        by_cases heq : k = n
        · subst heq
          rw [Function.update_self, Function.update_of_ne (by omega), ← hbelow,
            max_eq_right (by linarith)]
        · rw [Function.update_of_ne (by omega), Function.update_of_ne (by omega)]
          exact hpushed k (by omega)
    · refine Yields.pure ⟨hsize, fun k hk => hkept k (by omega), fun k hk => ?_⟩
      by_cases heq : k = n
      · subst heq
        rw [hkept (k + 1) (by omega), ← hbelow, max_eq_left (by linarith)]
      · exact hpushed k (by omega)
  · rintro done ⟨hsize, hkept, hpushed⟩
    exact ⟨hsize, hkept 0 (.inl rfl), fun i hi => hpushed i (by omega)⟩

/-- A line that is pushed down is the lower of itself and the highest place below the pushed line
after it. -/
theorem yields_pushDown_min {order : Int} {lines : Array ℝ} (horder : order = lines.size) :
    Yields (pushDown lines order) fun done =>
      done.size = lines.size ∧ line done (lines.size - 1) = line lines (lines.size - 1) ∧
        ∀ i, i + 1 < lines.size →
          line done i = min (line lines i) (line done (i + 1) - gap (i + 1)) := by
  -- Lines below the next position, which goes down, are still where they were.
  refine yields_foldBetween (P := fun k done => done.size = lines.size ∧
    (∀ i : Nat, i + 1 = lines.size ∨ i < order - 1 - k → line done i = line lines i) ∧
    ∀ i : Nat, order - 1 - k ≤ i → i + 1 < lines.size →
      line done i = min (line lines i) (line done (i + 1) - gap (i + 1)))
    ⟨rfl, fun i _ => rfl, fun i hi hlt => by omega⟩ ?_ ?_
  · rintro k done hk hlt ⟨hsize, hkept, hpushed⟩
    obtain ⟨n, hn⟩ : ∃ n : Nat, order - 1 - k = n + 1 := ⟨(order - 2 - k).toNat, by omega⟩
    rw [hn] at hkept hpushed
    refine (yields_fetch_line (k := n + 1) (by omega) (by omega)).bind fun above habove => ?_
    refine (yields_fetch_line (k := n) (by omega) (by omega)).bind fun below hbelow => ?_
    have hgap : separation (order - 1 - k) * radPerHz = gap (n + 1) := by
      rw [gap, hn]
      push_cast
      rfl
    rw [hkept n (by omega)] at hbelow
    rw [hgap]
    split_ifs with hclose
    · refine (yields_store_line (k := n) (by omega) (by omega) _).mono fun next hnext => ?_
      refine ⟨hnext.1.trans hsize, fun i hi => ?_, fun i hi hlt => ?_⟩
      · rw [hnext.2, Function.update_of_ne (by omega), hkept i (by omega)]
      · rw [hnext.2, Function.update_of_ne (show i + 1 ≠ n by omega)]
        by_cases heq : i = n
        · subst heq
          rw [Function.update_self, ← habove, min_eq_right (by linarith)]
        · rw [Function.update_of_ne heq]
          exact hpushed i (by omega) hlt
    · refine Yields.pure ⟨hsize, fun i hi => hkept i (by omega), fun i hi hlt => ?_⟩
      by_cases heq : i = n
      · subst heq
        rw [hkept i (by omega), ← habove, min_eq_left (by linarith)]
      · exact hpushed i (by omega) hlt
  · rintro done ⟨hsize, hkept, hpushed⟩
    refine ⟨hsize, ?_, fun i hlt => hpushed i (by omega) hlt⟩
    rcases Nat.eq_zero_or_pos lines.size with hempty | hpos
    · simp [line, hsize, hempty]
    · exact hkept _ (.inl (by omega))

theorem yields_pushUp_spaced {order : Int} {lines : Array ℝ} (horder : order = lines.size) :
    Yields (pushUp lines order) fun done =>
      done.size = lines.size ∧ line done 0 = line lines 0 ∧ Spaced 0 done := by
  refine (yields_pushUp_max horder).mono ?_
  rintro done ⟨hsize, hfirst, hpushed⟩
  refine ⟨hsize, hfirst, fun i _ hi => ?_⟩
  have hle := le_max_right (line lines (i + 1)) (line done i + gap (i + 1))
  rw [← hpushed i (by omega)] at hle
  linarith

/-- Lines that leave room above a height for all distances still do so when they are pushed down. -/
theorem yields_pushDown_spaced {order : Int} {lines : Array ℝ} (horder : order = lines.size)
    {height : ℝ} (hroom : ∀ i, i < lines.size → height + room i ≤ line lines i) :
    Yields (pushDown lines order) fun done =>
      done.size = lines.size ∧ line done (lines.size - 1) = line lines (lines.size - 1) ∧
        (∀ i, i < lines.size → height + room i ≤ line done i) ∧ Spaced 0 done := by
  refine (yields_pushDown_min horder).mono ?_
  rintro done ⟨hsize, htop, hpushed⟩
  refine ⟨hsize, htop, fun i hi => ?_, fun i _ hi => ?_⟩
  · -- From the top line down, as the lines were pushed.
    induction hleft : lines.size - 1 - i generalizing i with
    | zero =>
        obtain rfl : i = lines.size - 1 := by omega
        rw [htop]
        exact hroom _ hi
    | succ left ih =>
        have habove := ih (i + 1) (by omega) (by omega)
        rw [room] at habove
        rw [hpushed i (by omega)]
        exact le_min (hroom i hi) (by linarith)
  · have hle := min_le_right (line lines i) (line done (i + 1) - gap (i + 1))
    rw [← hpushed i (by omega)] at hle
    linarith

/-- Lines that are spread keep their distances and stay below the ceiling, and the lowest one goes
down no further than all distances below the ceiling need. -/
theorem yields_spread_spaced (lines : Array ℝ) (hsize : 0 < lines.size) :
    Yields (spread lines lines.size) fun done =>
      done.size = lines.size ∧ Spaced 0 done ∧ line done (lines.size - 1) ≤ ceiling ∧
        min (line lines 0) (ceiling - room (lines.size - 1)) ≤ line done 0 := by
  refine (yields_pushUp_spaced rfl).bind fun pushed hpushed => ?_
  obtain ⟨hlength, hbottom, hspaced⟩ := hpushed
  refine (yields_fetch_line (k := lines.size - 1) (by omega) (by omega)).bind fun top htop => ?_
  split_ifs with hhigh
  · refine (yields_store_line (k := lines.size - 1) (by omega) (by omega) _).bind
      fun capped hcapped => ?_
    have hcount : capped.size = lines.size := hcapped.1.trans hlength
    have hroom : ∀ i, i < capped.size →
        min (line lines 0) (ceiling - room (lines.size - 1)) + room i ≤ line capped i := by
      intro i hi
      rw [hcapped.2]
      by_cases heq : i = lines.size - 1
      · subst heq
        have hle := min_le_right (line lines 0) (ceiling - room (lines.size - 1))
        rw [Function.update_self]
        linarith
      · have hle := min_le_left (line lines 0) (ceiling - room (lines.size - 1))
        have habove := hspaced.room_le (i := i) (by omega)
        rw [Function.update_of_ne heq]
        linarith
    refine (yields_pushDown_spaced (by rw [hcount]) hroom).mono ?_
    rintro done ⟨hdone, hlast, hroom, hspaced⟩
    have hlowest := hroom 0 (by omega)
    rw [room, add_zero] at hlowest
    rw [hcount, hcapped.2, Function.update_self] at hlast
    exact ⟨hdone.trans hcount, hspaced, hlast.le, hlowest⟩
  · refine Yields.pure ⟨hlength, hspaced, htop ▸ not_lt.mp hhigh, ?_⟩
    rw [hbottom]
    exact min_le_left _ _

/-- Ten lines above zero that keep their distances and stay below the ceiling. -/
structure Separated (lines : Array ℝ) : Prop where
  size : lines.size = 10
  first : 0 < line lines 0
  distance : ∀ i : Nat, i + 1 < 10 →
    separation (i + 1 : Nat) * radPerHz ≤ line lines (i + 1) - line lines i
  top : line lines 9 ≤ 3950 * radPerHz

/-- Ten lines whose lowest is above zero are separated by spreading them. -/
theorem yields_spread_separated {lines : Array ℝ} (hsize : lines.size = 10)
    (hfirst : 0 < line lines 0) : Yields (spread lines 10) Separated := by
  have hceiling : (ceiling : ℝ) = 3950 * radPerHz := by
    unfold ceiling
    norm_num
  have hspread := yields_spread_spaced lines (by omega)
  rw [hsize] at hspread
  refine hspread.mono ?_
  rintro done ⟨hdone, hspaced, htop, hlowest⟩
  have hroom := room_lt_ceiling
  refine ⟨hdone, (lt_min hfirst (by linarith)).trans_le hlowest,
    fun i hi => hspaced i (by omega) (by omega), ?_⟩
  rw [← hceiling]
  exact htop

/-! ### Between two frames -/

/-- Ten lines in strictly ascending order above zero and below half the sampling rate. -/
structure Ascending (lines : Array ℝ) : Prop where
  size : lines.size = 10
  ascending : ∀ i j, i < j → j < 10 → line lines i < line lines j
  inside : ∀ i, i < 10 → 0 < line lines i ∧ line lines i < Real.pi

/-- Ten lines in strictly ascending order of which the lowest may be zero. -/
structure Rising (lines : Array ℝ) : Prop where
  size : lines.size = 10
  ascending : ∀ i j, i < j → j < 10 → line lines i < line lines j
  inside : ∀ i, i < 10 → 0 ≤ line lines i ∧ line lines i < Real.pi

theorem Ascending.rising {lines : Array ℝ} (h : Ascending lines) : Rising lines where
  size := h.size
  ascending := h.ascending
  inside i hi := ⟨(h.inside i hi).1.le, (h.inside i hi).2⟩

theorem Separated.ascending {lines : Array ℝ} (h : Separated lines) : Ascending lines := by
  have hstep : ∀ i, i + 1 < 10 → line lines i < line lines (i + 1) := by
    intro i hi
    have hgap := gap_pos (i + 1)
    have hdistance := h.distance i hi
    rw [gap] at hgap
    linarith
  have hascending : ∀ i j, i < j → j < 10 → line lines i < line lines j := by
    intro i j hij hj
    induction j with
    | zero => omega
    | succ j ih =>
        rcases Nat.lt_succ_iff_lt_or_eq.mp hij with hlt | rfl
        · exact (ih hlt (by omega)).trans (hstep j hj)
        · exact hstep i hj
  refine ⟨h.size, hascending, fun i hi => ⟨?_, ?_⟩⟩
  · rcases Nat.eq_zero_or_pos i with rfl | hpos
    · exact h.first
    · exact h.first.trans (hascending 0 i hpos hi)
  · have htop : line lines i ≤ line lines 9 := by
      rcases Nat.lt_or_eq_of_le (Nat.le_of_lt_succ hi) with hlt | rfl
      · exact (hascending i 9 hlt (by omega)).le
      · exact le_rfl
    have hceiling := h.top
    rw [radPerHz_real] at hceiling
    linarith [Real.pi_pos]

/-- Strictly between two vectors of lines, the lowest line is above zero even when one is not. -/
theorem yields_between {prev next : Array ℝ} {weight : ℝ} (hprev : Rising prev)
    (hnext : Ascending next) (hlow : 0 < weight) (hhigh : weight < 1) :
    Yields (Interpolation.lines 10 prev next weight) Ascending := by
  have hvalue : ∀ i : Nat, i < 10 →
      Yields (do return (1.0 - weight) * (← fetch prev i) + weight * (← fetch next i))
        fun x => x = (1 - weight) * line prev i + weight * line next i := by
    intro i hi
    refine (yields_fetch_line rfl (by rw [hprev.size]; exact hi)).bind ?_
    rintro _ rfl
    refine (yields_fetch_line rfl (by rw [hnext.size]; exact hi)).bind ?_
    rintro _ rfl
    rw [one_point_zero]
    exact Yields.pure rfl
  refine (yields_tabulate_at hvalue).mono ?_
  rintro track ⟨hsize, hvalues⟩
  have hline : ∀ i, i < 10 →
      line track i = (1 - weight) * line prev i + weight * line next i := by
    intro i hi
    refine hvalues i (line track i) ?_
    simp [line, hsize, hi]
  refine ⟨hsize, fun i j hij hj => ?_, fun i hi => ?_⟩
  · have hprev' := hprev.ascending i j hij hj
    have hnext' := hnext.ascending i j hij hj
    rw [hline i (hij.trans hj), hline j hj]
    nlinarith
  · obtain ⟨hprev_low, hprev_high⟩ := hprev.inside i hi
    obtain ⟨hnext_low, hnext_high⟩ := hnext.inside i hi
    rw [hline i hi]
    constructor <;> nlinarith

end Vocoder.Lines
