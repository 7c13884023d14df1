import Vocoder.Proofs.ChebyshevSeries

/-!
The search for the roots of a filter's series, over the real numbers. A step of the grid whose ends
have no common sign holds a root, and halving the step keeps one inside. The upper end of the search
only goes down, below every root that was found, so the roots come in descending order; and once the
grid has passed minus one no root is found any more. The grid passes it after so many steps,
whatever the filter is, that the limit on them plays no part.
-/

namespace Vocoder

theorem Scalar.isZero_real {x : ℝ} : Scalar.IsZero x ↔ x = 0 := by
  rw [Scalar.IsZero, zero_point_zero, ← le_antisymm_iff]

namespace Lines

/-! ### The search without a limit -/

/-- The walk down the grid with no limit on its steps: the value at the upper end and the search
that it starts from, whether it found a root, and the search that it leaves. -/
inductive Walk (part : Array ℝ) (order : Int) (halvings : Nat) (spacing : ℝ) :
    (atUpper : ℝ) → Search ℝ → (hit : Bool) → Search ℝ → Prop where
  | past {atUpper : ℝ} {s : Search ℝ} (below : s.lower < -1) :
      Walk part order halvings spacing atUpper s false s
  | hit {atUpper atLower : ℝ} {s halved : Search ℝ} (inside : -1 ≤ s.lower)
      (value : evaluate part (s.upper - spacing) order = .ok atLower)
      (change : atLower * atUpper < 0 ∨ atLower = 0)
      (root : bisect part order halvings atUpper { s with lower := s.upper - spacing } =
        .ok halved) :
      Walk part order halvings spacing atUpper s true { halved with upper := halved.root }
  | miss {atUpper atLower : ℝ} {s last : Search ℝ} {hit : Bool} (inside : -1 ≤ s.lower)
      (value : evaluate part (s.upper - spacing) order = .ok atLower)
      (same : ¬(atLower * atUpper < 0 ∨ atLower = 0))
      (rest : Walk part order halvings spacing atLower
        ⟨s.upper - spacing, s.upper - spacing, s.root⟩ hit last) :
      Walk part order halvings spacing atUpper s hit last

/-- The part whose turn it is at a line. -/
def Parts.turn {α : Type} (series : Parts α) (j : Nat) : Array α :=
  if j % 2 = 1 then series.antisymmetric else series.symmetric

/-- The parts take turns, from the start of the grid on: for each line so far the root that its turn
found, if any, and the search that the last turn left. -/
inductive Turns (series : Parts ℝ) (order : Int) (halvings : Nat) (spacing : ℝ) :
    (outcomes : List (Option ℝ)) → Search ℝ → Prop where
  | start : Turns series order halvings spacing [] ⟨1, 0, 0⟩
  | turn {outcomes : List (Option ℝ)} {s last : Search ℝ} {atUpper : ℝ} {hit : Bool}
      (before : Turns series order halvings spacing outcomes s)
      (value : evaluate (series.turn outcomes.length) s.upper order = .ok atUpper)
      (walk : Walk (series.turn outcomes.length) order halvings spacing atUpper s hit last) :
      Turns series order halvings spacing
        (outcomes ++ [if hit then some last.root else none]) last

/-! ### Halving -/

/-- A step of the grid whose ends have no common sign. -/
structure Brackets (f : ℝ → ℝ) (s : Search ℝ) : Prop where
  ordered : s.lower < s.upper
  change : f s.lower * f s.upper ≤ 0

theorem Brackets.exists_root {f : ℝ → ℝ} (hf : Continuous f) {s : Search ℝ} (h : Brackets f s) :
    ∃ y, f y = 0 ∧ s.lower ≤ y ∧ y ≤ s.upper := by
  have hzero : (0 : ℝ) ∈ Set.uIcc (f s.lower) (f s.upper) := by
    rcases mul_nonpos_iff.mp h.change with ⟨hlow, hhigh⟩ | ⟨hlow, hhigh⟩
    · exact Set.mem_uIcc.mpr (.inr ⟨hhigh, hlow⟩)
    · exact Set.mem_uIcc.mpr (.inl ⟨hlow, hhigh⟩)
  obtain ⟨y, hy, hroot⟩ := intermediate_value_uIcc hf.continuousOn hzero
  rw [Set.uIcc_of_le h.ordered.le] at hy
  exact ⟨y, hroot, hy.1, hy.2⟩

theorem brackets_of_change {f : ℝ → ℝ} {s : Search ℝ} {spacing : ℝ} (hspacing : 0 < spacing)
    (h : f (s.upper - spacing) * f s.upper < 0 ∨ f (s.upper - spacing) = 0) :
    Brackets f { s with lower := s.upper - spacing } := by
  refine ⟨sub_lt_self _ hspacing, ?_⟩
  rcases h with hsign | hroot
  · exact hsign.le
  · exact (mul_eq_zero_of_left hroot _).le

/-- A step after it was halved so many times: it still holds a root, and the last middle is one of
its ends. -/
structure Halved (f : ℝ → ℝ) (start : Search ℝ) (times : Nat) (s : Search ℝ) : Prop where
  brackets : Brackets f s
  high : s.upper ≤ start.upper
  width : s.upper - s.lower = (start.upper - start.lower) / 2 ^ times
  atEnd : times ≠ 0 → s.root = s.upper ∨ s.root = s.lower
  below : times ≠ 0 → s.root < start.upper

theorem Brackets.halved {f : ℝ → ℝ} {s : Search ℝ} (h : Brackets f s) : Halved f s 0 s :=
  ⟨h, le_rfl, by rw [pow_zero, div_one], fun hne => absurd rfl hne, fun hne => absurd rfl hne⟩

theorem Halved.keep_lower {f : ℝ → ℝ} {start s : Search ℝ} {times : Nat} {middle : ℝ}
    (h : Halved f start times s) (hmiddle : middle = (s.upper + s.lower) / 2)
    (hsign : 0 < f middle * f s.upper) :
    Halved f start (times + 1) { s with upper := middle, root := middle } := by
  have hordered := h.brackets.ordered
  have hhigh := h.high
  have hwidth := h.width
  refine ⟨⟨?_, ?_⟩, ?_, ?_, fun _ => .inl rfl, fun _ => ?_⟩
  · dsimp only
    linarith
  · -- The sign at the upper end has not changed.
    dsimp only
    have hne : f s.upper ≠ 0 := right_ne_zero_of_mul hsign.ne'
    have hproduct : f s.lower * f middle * f s.upper ^ 2 ≤ 0 := by
      have hnonpos := mul_nonpos_of_nonpos_of_nonneg h.brackets.change hsign.le
      linarith
    exact nonpos_of_mul_nonpos_left hproduct (by positivity)
  · dsimp only
    linarith
  · dsimp only
    rw [pow_succ, ← div_div, ← hwidth, hmiddle]
    ring
  · dsimp only
    linarith

theorem Halved.keep_upper {f : ℝ → ℝ} {start s : Search ℝ} {times : Nat} {middle : ℝ}
    (h : Halved f start times s) (hmiddle : middle = (s.upper + s.lower) / 2)
    (hsign : ¬0 < f middle * f s.upper) :
    Halved f start (times + 1) { s with lower := middle, root := middle } := by
  have hordered := h.brackets.ordered
  have hhigh := h.high
  have hwidth := h.width
  refine ⟨⟨?_, not_lt.mp hsign⟩, hhigh, ?_, fun _ => .inr rfl, fun _ => ?_⟩
  · dsimp only
    linarith
  · dsimp only
    rw [pow_succ, ← div_div, ← hwidth, hmiddle]
    ring
  · dsimp only
    linarith

section Series

variable {part : Array ℝ} {order : Int} {f : ℝ → ℝ}

theorem Halved.yields_bisect (hvalue : ∀ x, evaluate part x order = .ok (f x)) {start s : Search ℝ}
    {done : Nat} (h : Halved f start done s) (times : Nat) :
    Yields (bisect part order times (f s.upper) s) (Halved f start (done + times)) := by
  induction times generalizing done s with
  | zero => exact Yields.ok h
  | succ times ih =>
      rw [bisect, hvalue, two_point_zero, zero_point_zero,
        show done + (times + 1) = done + 1 + times by omega]
      change Yields (if _ then _ else _) _
      split_ifs with hsign
      · exact ih (h.keep_lower rfl hsign)
      · exact ih (h.keep_upper rfl hsign)

/-! ### One walk -/

theorem nextRoot_of_past {atUpper spacing : ℝ} {s : Search ℝ} (h : s.lower < -1)
    (halvings fuel : Nat) :
    nextRoot part order halvings spacing (fuel + 1) atUpper s = .ok (false, s) := by
  rw [nextRoot, one_point_zero]
  exact if_neg (not_le.mpr h)

/-- The limit plays no part when the steps that it allows reach below minus one. -/
theorem yields_nextRoot_walk (hvalue : ∀ x, evaluate part x order = .ok (f x)) {halvings : Nat}
    {spacing : ℝ} (hspacing : 0 < spacing) {fuel : Nat} {s : Search ℝ}
    (hfuel : s.upper + 1 < fuel * spacing) (hle : s.lower ≤ s.upper) :
    Yields (nextRoot part order halvings spacing (fuel + 1) (f s.upper) s) fun done =>
      Walk part order halvings spacing (f s.upper) s done.1 done.2 := by
  induction fuel generalizing s with
  | zero =>
      have hpast : s.lower < -1 := by
        rw [Nat.cast_zero, zero_mul] at hfuel
        linarith
      exact ⟨_, nextRoot_of_past hpast halvings 0, .past hpast⟩
  | succ fuel ih =>
      rcases lt_or_ge s.lower (-1) with hpast | hinside
      · exact ⟨_, nextRoot_of_past hpast halvings _, .past hpast⟩
      · rw [nextRoot, one_point_zero, if_pos hinside]
        refine Yields.bind (P := fun x => x = f (s.upper - spacing)) ⟨_, hvalue _, rfl⟩ ?_
        rintro _ rfl
        split_ifs with hchange <;> rw [zero_point_zero, Scalar.isZero_real] at hchange
        · have hbrackets := brackets_of_change hspacing hchange
          refine (hbrackets.halved.yields_bisect hvalue halvings).with_eq.bind ?_
          rintro halved ⟨hbisect, -⟩
          exact Yields.pure (.hit hinside (hvalue _) hchange hbisect)
        · have hrest : s.upper - spacing + 1 < fuel * spacing := by
            push_cast at hfuel
            linarith
          refine (ih (s := ⟨s.upper - spacing, s.upper - spacing, s.root⟩) hrest le_rfl).mono ?_
          intro done hwalk
          exact .miss hinside (hvalue _) hchange hwalk

/-- What a walk leaves: the search below where it started, and either past the grid or at a root. -/
structure Landed (f : ℝ → ℝ) (halvings : Nat) (spacing : ℝ) (s : Search ℝ) (hit : Bool)
    (last : Search ℝ) : Prop where
  ordered : last.lower ≤ last.upper
  high : last.upper ≤ s.upper
  missed : hit = false → last.lower < -1
  inside : hit = true → -1 ≤ s.lower
  atRoot : hit = true → last.upper = last.root
  below : hit = true → last.root < s.upper
  near : hit = true → ∃ y, f y = 0 ∧ |last.root - y| ≤ spacing / 2 ^ halvings

/-- A step that was halved lands at a root. -/
theorem Halved.landed (hf : Continuous f) {halvings : Nat} (hhalvings : halvings ≠ 0)
    {spacing : ℝ} {s halved : Search ℝ} (hinside : -1 ≤ s.lower)
    (h : Halved f { s with lower := s.upper - spacing } halvings halved) :
    Landed f halvings spacing s true { halved with upper := halved.root } := by
  have hordered := h.brackets.ordered
  have hbelow := h.below hhalvings
  have hwidth := h.width
  dsimp only at hbelow hwidth
  obtain ⟨y, hroot, hlow, hhigh⟩ := h.brackets.exists_root hf
  have hstep : s.upper - (s.upper - spacing) = spacing := by ring
  rw [hstep] at hwidth
  refine ⟨?_, hbelow.le, by simp, fun _ => hinside, fun _ => rfl, fun _ => hbelow,
    fun _ => ⟨y, hroot, ?_⟩⟩
  · dsimp only
    rcases h.atEnd hhalvings with hend | hend <;> linarith
  · dsimp only
    rw [abs_le]
    rcases h.atEnd hhalvings with hend | hend <;> constructor <;> linarith

theorem Walk.landed (hvalue : ∀ x, evaluate part x order = .ok (f x)) (hf : Continuous f)
    {halvings : Nat} (hhalvings : halvings ≠ 0) {spacing : ℝ} (hspacing : 0 < spacing)
    {atUpper : ℝ} {s last : Search ℝ} {hit : Bool} (hatUpper : atUpper = f s.upper)
    (hle : s.lower ≤ s.upper) (h : Walk part order halvings spacing atUpper s hit last) :
    Landed f halvings spacing s hit last := by
  induction h with
  | past below => exact ⟨hle, le_rfl, fun _ => below, by simp, by simp, by simp, by simp⟩
  | @hit atUpper atLower s halved inside value change root =>
      subst hatUpper
      rw [hvalue] at value
      obtain rfl := Except.ok.inj value
      have hbrackets := brackets_of_change hspacing change
      have hhalved := (hbrackets.halved.yields_bisect hvalue halvings).of_eq root
      rw [Nat.zero_add] at hhalved
      exact hhalved.landed hf hhalvings inside
  | @miss atUpper atLower s last hit inside value same rest ih =>
      rw [hvalue] at value
      have hlanded := ih (Except.ok.inj value).symm le_rfl
      have hhigh := hlanded.high
      dsimp only at hhigh
      refine ⟨hlanded.ordered, by linarith, hlanded.missed, fun _ => inside, hlanded.atRoot,
        fun hhit => ?_, hlanded.near⟩
      have hbelow := hlanded.below hhit
      dsimp only at hbelow
      linarith

end Series

/-! ### All turns -/

/-- What turns leave: the roots that they found, in descending order and near roots of the part
whose turn it was, and a search below all of them, which has passed the grid if any turn missed. -/
structure Searched (value : Nat → ℝ → ℝ) (halvings : Nat) (spacing : ℝ) (roots : List ℝ)
    (misses : Nat) (s : Search ℝ) : Prop where
  ordered : s.lower ≤ s.upper
  high : s.upper ≤ 1
  ended : misses ≠ 0 → s.lower < -1
  falling : roots.Pairwise (· > ·)
  above : ∀ x ∈ roots, s.upper ≤ x
  below : ∀ x ∈ roots, x < 1
  near : ∀ j x, roots[j]? = some x → ∃ y, value j y = 0 ∧ |x - y| ≤ spacing / 2 ^ halvings

section Turns

variable {value : Nat → ℝ → ℝ} {halvings : Nat} {spacing : ℝ} {roots : List ℝ} {misses : Nat}
  {s last : Search ℝ}

theorem Searched.miss {f : ℝ → ℝ} (h : Searched value halvings spacing roots misses s)
    (hwalk : Landed f halvings spacing s false last) :
    Searched value halvings spacing roots (misses + 1) last where
  ordered := hwalk.ordered
  high := hwalk.high.trans h.high
  ended _ := hwalk.missed rfl
  falling := h.falling
  above x hx := hwalk.high.trans (h.above x hx)
  below := h.below
  near := h.near

/-- A turn finds a root only if all turns before it did. -/
theorem Searched.misses_eq_zero {f : ℝ → ℝ} (h : Searched value halvings spacing roots misses s)
    (hwalk : Landed f halvings spacing s true last) : misses = 0 := by
  by_contra hne
  exact absurd (hwalk.inside rfl) (not_le.mpr (h.ended hne))

theorem Searched.hit (h : Searched value halvings spacing roots 0 s)
    (hwalk : Landed (value roots.length) halvings spacing s true last) :
    Searched value halvings spacing (roots ++ [last.root]) 0 last := by
  have hbelow := hwalk.below rfl
  refine ⟨hwalk.ordered, hwalk.high.trans h.high, fun hne => absurd rfl hne, ?_, ?_, ?_, ?_⟩
  · refine List.pairwise_append.mpr ⟨h.falling, List.pairwise_singleton _ _, ?_⟩
    intro x hx y hy
    rw [List.mem_singleton.mp hy]
    exact hbelow.trans_le (h.above x hx)
  · intro x hx
    rcases List.mem_append.mp hx with hx | hx
    · exact hwalk.high.trans (h.above x hx)
    · rw [List.mem_singleton.mp hx, hwalk.atRoot rfl]
  · intro x hx
    rcases List.mem_append.mp hx with hx | hx
    · exact h.below x hx
    · rw [List.mem_singleton.mp hx]
      exact hbelow.trans_le h.high
  · intro j x hx
    rcases lt_trichotomy j roots.length with hlt | rfl | hgt
    · rw [List.getElem?_append_left hlt] at hx
      exact h.near j x hx
    · rw [List.getElem?_concat_length] at hx
      rw [← Option.some.inj hx]
      exact hwalk.near rfl
    · rw [List.getElem?_eq_none (by simp; omega)] at hx
      cases hx

/-- Turns find their roots first, and then no more. -/
theorem Turns.searched {series : Parts ℝ} {order : Int}
    (hvalue : ∀ j x, evaluate (series.turn j) x order = .ok (value j x))
    (hcontinuous : ∀ j, Continuous (value j)) (hhalvings : halvings ≠ 0) (hspacing : 0 < spacing)
    {outcomes : List (Option ℝ)} (h : Turns series order halvings spacing outcomes s) :
    ∃ roots misses, outcomes = roots.map some ++ List.replicate misses none ∧
      Searched value halvings spacing roots misses s := by
  induction h with
  | start =>
      exact ⟨[], 0, rfl, by norm_num, le_rfl, fun hne => absurd rfl hne, .nil, by simp, by simp,
        by simp⟩
  | @turn outcomes s last atUpper hit before atStart walk ih =>
      obtain ⟨roots, misses, rfl, hsearched⟩ := ih
      rw [hvalue] at atStart
      have hlanded := walk.landed (hvalue _) (hcontinuous _) hhalvings hspacing
        (Except.ok.inj atStart).symm hsearched.ordered
      cases hit with
      | false =>
          refine ⟨roots, misses + 1, ?_, hsearched.miss hlanded⟩
          rw [List.replicate_succ', List.append_assoc]
          rfl
      | true =>
          obtain rfl := hsearched.misses_eq_zero hlanded
          simp only [List.replicate_zero, List.append_nil, List.length_map] at hlanded
          refine ⟨roots ++ [last.root], 0, ?_, hsearched.hit hlanded⟩
          simp

end Turns

theorem gridSteps_enough {spacing : ℝ} (hspacing : 0 < spacing) :
    ∃ fuel : Nat, gridSteps spacing = fuel + 1 ∧ 2 < fuel * spacing := by
  have hquotient : 0 ≤ 2 / spacing := by positivity
  refine ⟨(Analytic.trunc (2 / spacing)).toNat + 7, ?_, ?_⟩
  · rw [gridSteps, zero_point_zero, two_point_zero, if_neg (not_le.mpr hspacing)]
  · rw [Analytic.trunc_of_nonneg hquotient]
    have hfloor : 2 / spacing < ⌊2 / spacing⌋ + 1 := Int.lt_floor_add_one _
    have hcast : ((⌊2 / spacing⌋.toNat : Nat) : ℝ) = ⌊2 / spacing⌋ := by
      exact_mod_cast Int.toNat_of_nonneg (Int.floor_nonneg.mpr hquotient)
    rw [← div_lt_iff₀ hspacing]
    push_cast
    rw [hcast]
    linarith

/-! ### Lines of roots -/

/-- A cosine, which is at most one and at least minus one. -/
noncomputable def clamped (x : ℝ) : ℝ := max (-1) (min 1 x)

theorem clamped_eq (x : ℝ) :
    (if 1.0 < x then 1.0 else if x < -1.0 then -1.0 else x) = clamped x := by
  rw [one_point_zero, clamped]
  split_ifs with hhigh hlow
  · rw [min_eq_left hhigh.le]
    norm_num
  · rw [min_eq_right (by linarith), max_eq_left hlow.le]
  · rw [min_eq_right (by linarith), max_eq_right (by linarith)]

theorem yields_angles {cosines : Array ℝ} {n : Nat} (hn : n ≤ cosines.size) :
    Yields (foldBetween 0 n cosines fun buffer i => do
      let x ← fetch buffer i
      store buffer i
        (Analytic.acos (if 1.0 < x then 1.0 else if x < -1.0 then -1.0 else x))) fun done =>
      done.size = cosines.size ∧
        ∀ i, i < n → line done i = Real.arccos (clamped (line cosines i)) := by
  refine yields_foldBetween (P := fun i done => done.size = cosines.size ∧
    (∀ k : Nat, k < i → line done k = Real.arccos (clamped (line cosines k))) ∧
    ∀ k : Nat, i ≤ k → line done k = line cosines k)
    ⟨rfl, fun k hk => by omega, fun _ _ => rfl⟩ ?_ ?_
  · rintro i done hi hlt ⟨hsize, hdone, hkept⟩
    obtain ⟨n, rfl⟩ := Int.eq_ofNat_of_zero_le hi
    refine (yields_fetch_line (k := n) rfl (by omega)).bind ?_
    rintro _ rfl
    rw [clamped_eq, hkept n le_rfl]
    refine (yields_store_line (k := n) rfl (by omega) _).mono fun next hnext => ?_
    refine ⟨hnext.1.trans hsize, fun k hk => ?_, fun k hk => ?_⟩
    · rw [hnext.2]
      by_cases heq : k = n
      · rw [heq, Function.update_self]
        rfl
      · rw [Function.update_of_ne heq]
        exact hdone k (by omega)
    · rw [hnext.2, Function.update_of_ne (by omega)]
      exact hkept k (by omega)
  · rintro done ⟨hsize, hdone, -⟩
    exact ⟨hsize, fun i hi => hdone i (by omega)⟩

theorem getD_concat (outcomes : List (Option ℝ)) (last : Option ℝ) (i : Nat) :
    (outcomes ++ [last]).getD i none =
      if i = outcomes.length then last else outcomes.getD i none := by
  rcases lt_trichotomy i outcomes.length with hlt | rfl | hgt
  · rw [List.getD_append _ _ _ _ hlt, if_neg hlt.ne]
  · simp
  · rw [List.getD_eq_default _ _ (by simp; omega), List.getD_eq_default _ _ hgt.le, if_neg hgt.ne']

theorem evaluate_turn {series : Parts ℝ} {m : Nat} {even odd : Nat → ℝ} (hm : 2 * m ≤ 20)
    (heven : Doubles series.symmetric m even) (hodd : Doubles series.antisymmetric m odd) (j : Nat)
    (x : ℝ) : evaluate (series.turn j) x (2 * m) = .ok ((seriesPoly (series.turn j) m).eval x) := by
  refine evaluate_eq hm ?_ x
  unfold Parts.turn
  split_ifs
  · rw [hodd.size]
    omega
  · rw [heven.size]
    omega

/-- What the search carries from line to line: the number of roots, the buffer with the roots in it,
and the search of the last turn. -/
structure Carries (series : Parts ℝ) (order : Int) (halvings : Nat) (spacing : ℝ)
    (buffer : Array ℝ) (outcomes : List (Option ℝ)) (carried : Nat × Array ℝ × Search ℝ) :
    Prop where
  turns : Turns series order halvings spacing outcomes carried.2.2
  count : carried.1 = (outcomes.filterMap id).length
  size : carried.2.1.size = buffer.size
  stored : ∀ i, line carried.2.1 i = (outcomes.getD i none).getD (line buffer i)

section Run

variable {series : Parts ℝ} {order : Int} {halvings : Nat} {spacing : ℝ} {buffer stored : Array ℝ}
  {outcomes : List (Option ℝ)} {found : Nat} {s last : Search ℝ}

theorem Carries.miss (h : Carries series order halvings spacing buffer outcomes (found, stored, s))
    (hturns : Turns series order halvings spacing (outcomes ++ [none]) last) :
    Carries series order halvings spacing buffer (outcomes ++ [none]) (found, stored, last) := by
  refine ⟨hturns, by simpa using h.count, h.size, fun i => ?_⟩
  rw [h.stored, getD_concat]
  split_ifs with hlast
  · rw [List.getD_eq_default _ _ hlast.ge]
  · rfl

theorem Carries.hit (h : Carries series order halvings spacing buffer outcomes (found, stored, s))
    {x : ℝ} {next : Array ℝ}
    (hturns : Turns series order halvings spacing (outcomes ++ [some x]) last)
    (hsize : next.size = stored.size)
    (hnext : line next = Function.update (line stored) outcomes.length x) :
    Carries series order halvings spacing buffer (outcomes ++ [some x])
      (found + 1, next, last) := by
  refine ⟨hturns, by simpa using h.count, hsize.trans h.size, fun i => ?_⟩
  dsimp only
  rw [hnext, getD_concat]
  split_ifs with hlast
  · rw [hlast, Function.update_self]
    rfl
  · rw [Function.update_of_ne hlast, h.stored]

/-- One line of the search is one turn. -/
theorem Carries.yields_turn {value : Nat → ℝ → ℝ}
    (h : Carries series order halvings spacing buffer outcomes (found, stored, s))
    (hvalue : ∀ j x, evaluate (series.turn j) x order = .ok (value j x))
    (hcontinuous : ∀ j, Continuous (value j)) (hhalvings : halvings ≠ 0) (hspacing : 0 < spacing)
    (hroom : outcomes.length < buffer.size) :
    Yields (do
      let atUpper ← evaluate (series.turn outcomes.length) s.upper order
      let (hit, s) ← nextRoot (series.turn outcomes.length) order halvings spacing
        (gridSteps spacing) atUpper s
      if hit then return (found + 1, ← store stored outcomes.length s.root, s)
      else return (found, stored, s)) fun carried =>
      ∃ outcome, Carries series order halvings spacing buffer (outcomes ++ [outcome]) carried := by
  obtain ⟨roots, misses, -, hsearched⟩ := h.turns.searched hvalue hcontinuous hhalvings hspacing
  obtain ⟨fuel, hgrid, hfuel⟩ := gridSteps_enough hspacing
  have hhigh := hsearched.high
  have hsize := h.size
  dsimp only at hhigh hsize
  rw [hgrid]
  refine Yields.bind (P := fun x => x = value outcomes.length s.upper) ⟨_, hvalue _ _, rfl⟩ ?_
  rintro _ rfl
  refine (yields_nextRoot_walk (hvalue _) hspacing (by linarith) hsearched.ordered).bind ?_
  rintro ⟨_ | _, last⟩ hwalk
  · have hturns : Turns series order halvings spacing (outcomes ++ [none]) last :=
      h.turns.turn (hvalue _ _) hwalk
    exact Yields.pure ⟨none, h.miss hturns⟩
  · have hturns : Turns series order halvings spacing (outcomes ++ [some last.root]) last :=
      h.turns.turn (hvalue _ _) hwalk
    refine (yields_store_line (k := outcomes.length) rfl (by omega) _).bind fun next hnext => ?_
    exact Yields.pure ⟨some last.root, h.hit hturns hnext.1 hnext.2⟩

end Run

/-- The search ends, and gives the angle of every root that the turns found. -/
theorem yields_ofFilter_turns {filter buffer : Array ℝ} {m : Nat} (bisections : Nat) {spacing : ℝ}
    (hm : 2 * m ≤ 20) (hfilter : 2 * m < filter.size) (hbuffer : 2 * m ≤ buffer.size)
    (hspacing : 0 < spacing) :
    Yields (ofFilter filter buffer (2 * m) bisections spacing) fun done =>
      ∃ series outcomes last, parts filter (2 * m) = .ok series ∧
        Turns series (2 * m) (bisections + 1) spacing outcomes last ∧ outcomes.length = 2 * m ∧
        done.1 = (outcomes.filterMap id).length ∧ done.2.size = buffer.size ∧
        ∀ i, i < 2 * m → line done.2 i =
          Real.arccos (clamped ((outcomes.getD i none).getD (line buffer i))) := by
  unfold ofFilter
  dsimp only
  rw [if_neg (by simp only [ofFilter.maxLines]; omega)]
  refine (yields_parts_doubles hfilter).with_eq.bind ?_
  rintro series ⟨hparts, heven, hodd⟩
  have hvalue := evaluate_turn hm heven hodd
  rw [show ((bisections : Int) + 1).toNat = bisections + 1 by omega]
  refine Yields.bind (P := fun carried => ∃ outcomes, outcomes.length = 2 * m ∧
      Carries series (2 * m) (bisections + 1) spacing buffer outcomes carried)
    (yields_foldBetween (P := fun j carried => ∃ outcomes, j = outcomes.length ∧
      Carries series (2 * m) (bisections + 1) spacing buffer outcomes carried) ?_ ?_ ?_) ?_
  · have hstart : (⟨1.0, 0.0, 0.0⟩ : Search ℝ) = ⟨1, 0, 0⟩ := by norm_num
    rw [hstart]
    exact ⟨[], rfl, .start, rfl, rfl, fun i => rfl⟩
  · rintro j ⟨found, stored, s⟩ hj hlt ⟨outcomes, rfl, hcarries⟩
    have hpart : (if (outcomes.length : Int) % 2 = 1 then series.antisymmetric
        else series.symmetric) = series.turn outcomes.length :=
      if_congr (by omega) rfl rfl
    dsimp only
    rw [hpart]
    refine (hcarries.yields_turn hvalue (fun j => (seriesPoly (series.turn j) m).continuous)
      (Nat.succ_ne_zero _) hspacing (by omega)).mono ?_
    rintro carried ⟨outcome, hnext⟩
    exact ⟨_, by simp, hnext⟩
  · rintro carried ⟨outcomes, hlength, hcarries⟩
    exact ⟨outcomes, by omega, hcarries⟩
  · rintro ⟨found, stored, last⟩ ⟨outcomes, hlength, hcarries⟩
    have hsize := hcarries.size
    dsimp only at hsize
    have hroom : 2 * m ≤ stored.size := by omega
    refine (yields_angles hroom).bind fun done hdone => ?_
    refine Yields.pure ⟨series, outcomes, last, hparts, hcarries.turns, hlength, hcarries.count,
      hdone.1.trans hsize, fun i hi => ?_⟩
    rw [← hcarries.stored]
    exact hdone.2 i hi

/-! ### Angles -/

theorem clamped_le_one (x : ℝ) : clamped x ≤ 1 := max_le (by norm_num) (min_le_left _ _)

theorem neg_one_le_clamped (x : ℝ) : -1 ≤ clamped x := le_max_left _ _

theorem clamped_lt_one {x : ℝ} (h : x < 1) : clamped x < 1 :=
  max_lt (by norm_num) ((min_le_right _ _).trans_lt h)

theorem clamped_mono {x y : ℝ} (h : x ≤ y) : clamped x ≤ clamped y :=
  max_le_max le_rfl (min_le_min le_rfl h)

theorem clamped_lt_clamped {x y : ℝ} (h : x < y) (hlow : -1 < clamped y) (hhigh : y < 1) :
    clamped x < clamped y := by
  have hy : clamped y = y := by
    rw [clamped, min_eq_right hhigh.le] at hlow ⊢
    exact max_eq_right ((lt_max_iff.mp hlow).resolve_left (lt_irrefl _)).le
  rw [hy] at hlow ⊢
  exact max_lt hlow ((min_le_right _ _).trans_lt h)

/-- Lines that start with the angles of roots. -/
def Angles (roots : List ℝ) (lines : Array ℝ) : Prop :=
  ∀ j x, roots[j]? = some x → line lines j = Real.arccos (clamped x)

section Angles

variable {roots : List ℝ} {lines : Array ℝ} (h : Angles roots lines)
include h

theorem Angles.inside (hbelow : ∀ x ∈ roots, x < 1) {j : Nat} (hj : j < roots.length) :
    0 < line lines j ∧ line lines j ≤ Real.pi := by
  rw [h j roots[j] (List.getElem?_eq_getElem hj)]
  refine ⟨?_, Real.arccos_le_pi _⟩
  rw [Real.arccos_pos]
  exact clamped_lt_one (hbelow _ (List.getElem_mem hj))

theorem Angles.le (hfalling : roots.Pairwise (· > ·)) {i j : Nat} (hij : i < j)
    (hj : j < roots.length) : line lines i ≤ line lines j := by
  have hlt := List.pairwise_iff_getElem.mp hfalling i j (by omega) hj hij
  rw [h i roots[i] (List.getElem?_eq_getElem (by omega)),
    h j roots[j] (List.getElem?_eq_getElem hj)]
  exact Real.antitone_arccos (clamped_mono (le_of_lt hlt))

theorem Angles.lt (hfalling : roots.Pairwise (· > ·)) (hbelow : ∀ x ∈ roots, x < 1) {i j : Nat}
    (hij : i < j) (hj : j < roots.length) (hpi : line lines i < Real.pi) :
    line lines i < line lines j := by
  have hlt := List.pairwise_iff_getElem.mp hfalling i j (by omega) hj hij
  have hi : i < roots.length := by omega
  rw [h i roots[i] (List.getElem?_eq_getElem hi)] at hpi ⊢
  rw [h j roots[j] (List.getElem?_eq_getElem hj)]
  have hlow : -1 < clamped roots[i] := by
    by_contra hle
    exact hpi.ne (Real.arccos_eq_pi.mpr (not_lt.mp hle))
  exact Real.arccos_lt_arccos (neg_one_le_clamped _)
    (clamped_lt_clamped hlt hlow (hbelow _ (List.getElem_mem hi))) (clamped_le_one _)

end Angles

/-- The value of a line before its angle is taken: the root found for it, or what it was. -/
theorem getD_outcomes (roots : List ℝ) (misses j : Nat) (x : ℝ) :
    ((roots.map some ++ List.replicate misses none).getD j none).getD x = roots.getD j x := by
  simp only [List.getD_eq_getElem?_getD, List.getElem?_append, List.length_map, List.getElem?_map,
    List.getElem?_replicate]
  split_ifs with hfound hmissed
  · simp [List.getElem?_eq_getElem hfound]
  · simp [List.getElem?_eq_none (not_lt.mp hfound)]
  · simp [List.getElem?_eq_none (not_lt.mp hfound)]

/-- The search finds roots for the first lines, and leaves their angles. -/
theorem yields_ofFilter_roots {filter buffer : Array ℝ} {m : Nat} (bisections : Nat) {spacing : ℝ}
    (hm : 2 * m ≤ 20) (hfilter : 2 * m < filter.size) (hbuffer : 2 * m ≤ buffer.size)
    (hspacing : 0 < spacing) :
    Yields (ofFilter filter buffer (2 * m) bisections spacing) fun done =>
      ∃ series roots last, parts filter (2 * m) = .ok series ∧
        roots.length ≤ 2 * m ∧ done.1 = roots.length ∧
        Turns series (2 * m) (bisections + 1) spacing
          (roots.map some ++ List.replicate (2 * m - roots.length) none) last ∧
        Searched (fun j x => (seriesPoly (series.turn j) m).eval x) (bisections + 1) spacing roots
          (2 * m - roots.length) last ∧
        done.2.size = buffer.size ∧
        ∀ j, j < 2 * m → line done.2 j = Real.arccos (clamped (roots.getD j (line buffer j))) := by
  refine (yields_ofFilter_turns bisections hm hfilter hbuffer hspacing).mono ?_
  rintro ⟨found, lines⟩ ⟨series, outcomes, last, hparts, hturns, hlength, rfl, hsize, hlines⟩
  obtain ⟨heven, hodd⟩ := (yields_parts_doubles hfilter).of_eq hparts
  obtain ⟨roots, misses, rfl, hsearched⟩ := hturns.searched (evaluate_turn hm heven hodd)
    (fun j => (seriesPoly (series.turn j) m).continuous) (Nat.succ_ne_zero _) hspacing
  rw [List.length_append, List.length_map, List.length_replicate] at hlength
  obtain rfl : misses = 2 * m - roots.length := by omega
  refine ⟨series, roots, last, hparts, by omega, ?_, hturns, hsearched, hsize, fun j hj => ?_⟩
  · simp [List.filterMap_append, List.filterMap_map]
  · rw [hlines j hj, getD_outcomes]

theorem angles_of_getD {roots : List ℝ} {lines buffer : Array ℝ} {n : Nat}
    (hlength : roots.length ≤ n)
    (h : ∀ j, j < n → line lines j = Real.arccos (clamped (roots.getD j (line buffer j)))) :
    Angles roots lines := by
  intro j x hx
  have hj : j < roots.length := (List.getElem?_eq_some_iff.mp hx).1
  rw [h j (by omega), List.getD_eq_getElem?_getD, hx, Option.getD_some]

/-! ### Lines of speech -/

/-- Lines in order above zero and up to half the sampling rate. -/
structure Settled (n : Nat) (lines : Array ℝ) : Prop where
  size : lines.size = n
  ordered : InOrder lines
  inside : ∀ i, i < n → 0 < line lines i ∧ line lines i ≤ Real.pi

theorem yields_evenlySpaced_settled {m : Nat} (hm : 2 * m ≤ 20) :
    Yields (evenlySpaced (2 * m)) (Settled (2 * m)) := by
  refine (yields_length (by omega) (by omega)).bind fun n hn => Yields.pure ?_
  obtain rfl : n = 2 * m := by omega
  have hline : ∀ i, i < 2 * m → line ((Array.range (2 * m)).map fun (i : Nat) =>
      Analytic.pi * Scalar.ofInt (i + 1) / Scalar.ofInt (2 * (m : Int) + 1)) i =
        Real.pi * (i + 1) / (2 * m + 1) := by
    intro i hi
    simp [line, hi]
  have hpi := Real.pi_pos
  refine ⟨by simp, fun i hi => ?_, fun i hi => ?_⟩
  · rw [Array.size_map, Array.size_range] at hi
    rw [hline i (by omega), hline (i + 1) hi]
    push_cast
    gcongr
    linarith
  · have hle : (i : ℝ) + 1 ≤ 2 * m + 1 := by exact_mod_cast by omega
    rw [hline i hi]
    refine ⟨by positivity, ?_⟩
    rw [div_le_iff₀ (by positivity)]
    gcongr

end Lines

open Lines in
/-- The lines of a block are in order, found or not. -/
theorem Prediction.yields_spectrum_settled {signal window : Array ℝ} {m : Nat} (hm : 2 * m ≤ 20)
    (hsignal : signal.size ≤ 512) (hwindow : signal.size ≤ window.size) :
    Yields (spectrum signal window (2 * m)) fun found => Settled (2 * m) found.lines := by
  have horder : Suits (2 * m) := ⟨by omega, by omega, by omega⟩
  refine (yields_length (by omega) (by omega)).bind fun n hn => ?_
  refine (yields_windowed hwindow).bind fun products _ => ?_
  dsimp only
  split
  · exact (yields_evenlySpaced_settled hm).bind fun _ hspaced => Yields.pure hspaced
  · refine (yields_analyse horder hsignal hwindow).bind fun done hdone => ?_
    refine (yields_ofFilter_roots 5 hm (by
        rw [List.size_toArray, length_widen, Array.length_toList]
        omega) (by rw [Array.size_replicate]; omega) (by norm_num)).bind ?_
    rintro ⟨count, lines⟩ ⟨series, roots, last, -, hlength, rfl, -, hsearched, hsize, hlines⟩
    dsimp only at hsize hlines ⊢
    split
    · have hangles := angles_of_getD hlength hlines
      rw [Array.size_replicate] at hsize
      refine Yields.pure ⟨by dsimp only; omega, fun i hi => ?_, fun i hi => ?_⟩
      · exact hangles.le hsearched.falling (by omega) (by dsimp only at hi; omega)
      · exact hangles.inside hsearched.below (by omega)
    · exact (yields_evenlySpaced_settled hm).bind fun _ hspaced => Yields.pure hspaced

namespace Lines

/-- The search for the lines of a filter is sound: the roots that it finds descend, and each is near
a zero of the part whose turn it was. So the lines of every block of speech are in order, whether
all roots were found or not. -/
theorem root_search_sound {m : Nat} (hm : 2 * m ≤ 20) :
    (∀ (filter buffer : Array ℝ) (bisections : Nat) (spacing : ℝ), 2 * m + 1 ≤ filter.size →
      2 * m ≤ buffer.size → 0 < spacing → ∃ (series : Parts ℝ) (roots : List ℝ) (lines : Array ℝ)
        (last : Search ℝ),
        parts filter (2 * m) = .ok series ∧
        ofFilter filter buffer (2 * m) bisections spacing = .ok (roots.length, lines) ∧
        roots.length ≤ 2 * m ∧
        Turns series (2 * m) (bisections + 1) spacing
          (roots.map some ++ List.replicate (2 * m - roots.length) none) last ∧
        roots.Pairwise (· > ·) ∧ (∀ x ∈ roots, x < 1) ∧
        (∀ j x, roots[j]? = some x → ∃ y, evaluate (series.turn j) y (2 * m) = .ok 0 ∧
          |x - y| ≤ spacing / 2 ^ (bisections + 1)) ∧
        lines.size = buffer.size ∧
        (∀ j, j < 2 * m →
          line lines j = Real.arccos (max (-1) (min 1 (roots.getD j (line buffer j))))) ∧
        (∀ j, j < roots.length → 0 < line lines j ∧ line lines j ≤ Real.pi) ∧
        ∀ i j, i < j → j < roots.length → line lines i < Real.pi →
          line lines i < line lines j) ∧
    ∀ signal window : Array ℝ, signal.size ≤ 512 → signal.size ≤ window.size →
      ∃ found, Prediction.spectrum signal window (2 * m) = .ok found ∧
        found.lines.size = 2 * m ∧ InOrder found.lines ∧
        ∀ i, i < 2 * m → 0 < line found.lines i ∧ line found.lines i ≤ Real.pi := by
  constructor
  · intro filter buffer bisections spacing hfilter hbuffer hspacing
    obtain ⟨⟨count, lines⟩, hdone, series, roots, last, hparts, hlength, rfl, hturns, hsearched,
      hsize, hlines⟩ := yields_ofFilter_roots bisections hm hfilter hbuffer hspacing
    obtain ⟨heven, hodd⟩ := (yields_parts_doubles hfilter).of_eq hparts
    have hangles := angles_of_getD hlength hlines
    refine ⟨series, roots, lines, last, hparts, hdone, hlength, hturns, hsearched.falling,
      hsearched.below, fun j x hx => ?_, hsize, hlines,
      fun j hj => hangles.inside hsearched.below hj,
      fun i j hij hj => hangles.lt hsearched.falling hsearched.below hij hj⟩
    obtain ⟨y, hzero, hnear⟩ := hsearched.near j x hx
    exact ⟨y, by rw [evaluate_turn hm heven hodd, hzero], hnear⟩
  · intro signal window hsignal hwindow
    obtain ⟨found, hfound, hsettled⟩ :=
      Prediction.yields_spectrum_settled hm hsignal hwindow
    exact ⟨found, hfound, hsettled.size, hsettled.ordered, hsettled.inside⟩

theorem Turns.eq_start {series : Parts ℝ} {order : Int} {halvings : Nat} {spacing : ℝ}
    {s : Search ℝ} (h : Turns series order halvings spacing [] s) : s = ⟨1, 0, 0⟩ := by
  generalize houtcomes : ([] : List (Option ℝ)) = outcomes at h
  cases h with
  | start => rfl
  | turn => simp at houtcomes

/-- The last of the turns is a walk from where the others end. -/
theorem Turns.exists_walk {series : Parts ℝ} {order : Int} {halvings : Nat} {spacing : ℝ}
    (outcomes : List (Option ℝ)) {outcome : Option ℝ} {last : Search ℝ}
    (h : Turns series order halvings spacing (outcomes ++ [outcome]) last) :
    ∃ s atUpper hit, Turns series order halvings spacing outcomes s ∧
      evaluate (series.turn outcomes.length) s.upper order = .ok atUpper ∧
      Walk (series.turn outcomes.length) order halvings spacing atUpper s hit last ∧
      outcome = if hit then some last.root else none := by
  generalize houtcomes : outcomes ++ [outcome] = all at h
  cases h with
  | start => simp at houtcomes
  | turn before value walk =>
      obtain ⟨rfl, houtcome⟩ := List.append_inj' houtcomes rfl
      exact ⟨_, _, _, before, value, walk, List.singleton_inj.mp houtcome⟩

theorem evaluate_pair (a b x : ℝ) : evaluate #[a, b] x 2 = .ok (b + a * x) := by
  have hsum : evaluate #[a, b] x 2 = .ok (0.0 + b * 1.0 + a * x) := rfl
  rw [hsum]
  norm_num

theorem parts_pair (a b : ℝ) :
    parts #[1, a, b] 2 = .ok ⟨#[2, a + b - 1], #[2, a - b + 1]⟩ := by
  have hparts : parts #[1, a, b] 2 =
      .ok ⟨#[1.0 * 2.0, a + b - 1.0], #[1.0 * 2.0, a - b + 1.0]⟩ := rfl
  rw [hparts]
  norm_num

/-- A filter that is not stable, on a coarse grid, and a block that is not silent. The first part
has its root at minus a half, below the root of the second part, which is not found. -/
theorem root_search_sound_unstable : 2 * 1 ≤ 20 ∧ 2 * 1 + 1 ≤ (#[1, 0, 2] : Array ℝ).size ∧
    2 * 1 ≤ (#[0, 0] : Array ℝ).size ∧ (0 : ℝ) < 1 ∧
    (∃ (root : ℝ) (lines : Array ℝ),
      ofFilter (#[1, 0, 2] : Array ℝ) #[0, 0] 2 4 1 = .ok (1, lines) ∧
      |root - -1 / 2| ≤ 1 / 2 ^ 5 ∧ line lines 0 = Real.arccos (max (-1) (min 1 root)) ∧
      line lines 1 = Real.arccos 0) ∧
    ∃ found, Prediction.spectrum (#[1, -2, 4] : Array ℝ) #[1, 1, 1] 2 = .ok found ∧
      InOrder found.lines := by
  obtain ⟨hsearch, hspeech⟩ := root_search_sound (m := 1) (by decide)
  obtain ⟨found, hspectrum, -, hordered, -⟩ :=
    hspeech #[1, -2, 4] #[1, 1, 1] (by decide) (by decide)
  refine ⟨by decide, by decide, by decide, one_pos, ?_, found, hspectrum, hordered⟩
  obtain ⟨series, roots, lines, last, hparts, hfound, hlength, hturns, hfalling, -, hnear, -,
    hlines, -⟩ := hsearch #[1, 0, 2] #[0, 0] 4 1 (by decide) (by decide) one_pos
  obtain rfl := Except.ok.inj ((parts_pair 0 2).symm.trans hparts)
  -- The walk of the first part changes its sign at the second step of the grid.
  have hsome : roots ≠ [] := by
    rintro rfl
    obtain ⟨_, _, _, hturns, -, -, -⟩ := Turns.exists_walk [none] hturns
    obtain ⟨s, atUpper, hit, hstart, -, hwalk, hmiss⟩ := Turns.exists_walk [] hturns
    obtain rfl := hstart.eq_start
    cases hwalk with
    | past below => norm_num at below
    | hit => cases hmiss
    | miss inside value same rest =>
        have hone := Except.ok.inj ((evaluate_pair _ _ _).symm.trans value)
        cases rest with
        | past below => norm_num at below
        | hit => cases hmiss
        | miss inside value same rest =>
            have hneg := Except.ok.inj ((evaluate_pair _ _ _).symm.trans value)
            norm_num [← hone, ← hneg] at same
  have hfirst : ∀ x : ℝ, roots[0]? = some x → |x - -1 / 2| ≤ 1 / 2 ^ 5 := by
    intro x hx
    obtain ⟨y, hzero, hle⟩ := hnear 0 x hx
    have hy : y = -1 / 2 := by
      have hvalue := Except.ok.inj ((evaluate_pair _ _ y).symm.trans hzero)
      linarith
    rwa [hy] at hle
  have hsecond : ∀ x : ℝ, roots[1]? = some x → |x - 1 / 2| ≤ 1 / 2 ^ 5 := by
    intro x hx
    obtain ⟨y, hzero, hle⟩ := hnear 1 x hx
    have hy : y = 1 / 2 := by
      have hvalue := Except.ok.inj ((evaluate_pair _ _ y).symm.trans hzero)
      linarith
    rwa [hy] at hle
  match roots, hsome, hlength with
  | [root], _, _ =>
      refine ⟨root, lines, hfound, hfirst root rfl, hlines 0 (by decide), ?_⟩
      simpa [line] using hlines 1 (by decide)
  | [root, other], _, _ =>
      have hroot := abs_le.mp (hfirst root rfl)
      have hother := abs_le.mp (hsecond other rfl)
      have hlt : root > other := by simpa using hfalling
      norm_num at hroot hother
      linarith

end Lines

end Vocoder
