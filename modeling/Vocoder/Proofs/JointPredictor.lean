import Vocoder.Proofs.CodingTotal
import Vocoder.Proofs.DecodedLines

/-!
The predictor of joint updates over the real numbers. Every move, of the encoder or of the decoder,
lets the last values fade and adds a residual of the codebook. So two predictors that are moved by
the same indexes come together geometrically, and a predictor that started at rest stays within a
multiple of the greatest residual, though nothing clamps it.
-/

namespace Vocoder

/-! ### Residuals -/

namespace Codebook

/-- The residuals of one coordinate, over all indexes of the joint codebook. -/
def jointColumn (coordinate : Int) : Set ℝ :=
  {x | ∃ index entry, 0 ≤ index ∧ index < (joint : Codebook ℝ).size ∧
    (joint : Codebook ℝ).entry index = .ok entry ∧ fetch entry coordinate = .ok x}

/-- A pair of the table, which counts in millionths. -/
noncomputable def residual (pair : Int × Int) : Array ℝ :=
  #[Scalar.decimal pair.1 6, Scalar.decimal pair.2 6]

theorem toList_values_joint : (joint : Codebook ℝ).values.toList =
    jointResiduals.toList.flatMap fun pair => (residual pair).toList := by
  simp only [joint, residual]
  -- The table stays closed here: only its shape matters.
  generalize jointResiduals = pairs
  simp

/-- The entries of the joint codebook are the pairs of its table. -/
theorem entry_joint {n : Nat} {pair : Int × Int} (h : jointResiduals[n]? = some pair) :
    (joint : Codebook ℝ).entry n = .ok (residual pair) := by
  obtain ⟨hn, hpair⟩ := Array.getElem?_eq_some_iff.mp h
  rw [size_jointResiduals] at hn
  have hhigh : (n : Int) < (joint : Codebook ℝ).size := by
    change (n : Int) < 256
    omega
  have hfirst : wrap ((n : Int) * 2) = (n * 2 : Nat) := by
    rw [wrap_of_bounds _ (by omega) (by omega)]
    push_cast
    rfl
  have hlast : wrap (((n : Int) + 1) * 2) = (n * 2 + 2 : Nat) := by
    rw [wrap_of_bounds _ (by omega) (by omega)]
    push_cast
    ring
  have hlength : n < jointResiduals.toList.length := by
    rw [Array.length_toList, size_jointResiduals]
    exact hn
  have htake := take_drop_flatMap (k := 2) (f := fun pair => (residual pair).toList)
    (fun _ _ => rfl) hlength
  obtain ⟨entry, hentry, -⟩ := whole_joint.yields_entry (Int.natCast_nonneg n) hhigh
  rw [hentry]
  refine congrArg Except.ok (Array.toList_inj.mp ?_)
  rw [Codebook.entry, show (joint : Codebook ℝ).dim = 2 from rfl, hfirst, hlast] at hentry
  obtain ⟨-, -, -, rfl⟩ := slice_eq_ok.mp hentry
  rw [Array.toList_extract, List.extract_eq_take_drop, toList_values_joint, Int.toNat_natCast,
    Int.toNat_natCast, Nat.add_sub_cancel_left, htake, Array.getElem_toList, hpair]

/-- A column of the codebook holds one part of every pair of its table. -/
theorem mem_jointColumn {coordinate : Int} {part : Int × Int → Int}
    (hpart : ∀ pair, fetch (residual pair) coordinate = .ok (Scalar.decimal (part pair) 6))
    {x : ℝ} :
    x ∈ jointColumn coordinate ↔ ∃ pair ∈ jointResiduals, x = Scalar.decimal (part pair) 6 := by
  constructor
  · rintro ⟨index, entry, hlow, hhigh, hentry, hx⟩
    obtain ⟨n, rfl⟩ := Int.eq_ofNat_of_zero_le hlow
    have hn : n < jointResiduals.size := by
      rw [size_jointResiduals]
      exact Int.ofNat_lt.mp hhigh
    rw [entry_joint (Array.getElem?_eq_getElem hn)] at hentry
    obtain rfl := Except.ok.inj hentry
    rw [hpart] at hx
    exact ⟨_, Array.getElem_mem hn, (Except.ok.inj hx).symm⟩
  · rintro ⟨pair, hmem, rfl⟩
    obtain ⟨n, hn⟩ := Array.mem_iff_getElem?.mp hmem
    have hlt := (Array.getElem?_eq_some_iff.mp hn).1
    rw [size_jointResiduals] at hlt
    exact ⟨n, _, Int.natCast_nonneg n, Int.ofNat_lt.mpr hlt, entry_joint hn, hpart pair⟩

/-- The greatest residual of a column, from the digits of the table. -/
theorem isGreatest_jointColumn {coordinate : Int} (part : Int × Int → Int) {reach : Nat}
    (hpart : ∀ pair, fetch (residual pair) coordinate = .ok (Scalar.decimal (part pair) 6))
    (hall : ∀ pair ∈ jointResiduals, (part pair).natAbs ≤ reach)
    (hsome : ∃ pair ∈ jointResiduals, (part pair).natAbs = reach) :
    IsGreatest (Set.image abs (jointColumn coordinate)) (Scalar.decimal reach 6) := by
  have habs : ∀ digits : Int, |(Scalar.decimal digits 6 : ℝ)| = (digits.natAbs : ℝ) / 10 ^ 6 := by
    intro digits
    rw [Scalar.decimal_real, abs_div, abs_of_pos (show (0 : ℝ) < 10 ^ 6 by norm_num),
      Nat.cast_natAbs, Int.cast_abs]
  rw [Scalar.decimal_real, Int.cast_natCast]
  constructor
  · obtain ⟨pair, hmem, hreach⟩ := hsome
    refine ⟨_, (mem_jointColumn hpart).mpr ⟨pair, hmem, rfl⟩, ?_⟩
    rw [habs, hreach]
  · rintro _ ⟨x, hx, rfl⟩
    obtain ⟨pair, hmem, rfl⟩ := (mem_jointColumn hpart).mp hx
    rw [habs]
    have hle : ((part pair).natAbs : ℝ) ≤ reach := by exact_mod_cast hall pair hmem
    gcongr

/-- The greatest residual of a fundamental, in octaves. -/
noncomputable def octaveReach : ℝ := Scalar.decimal 2825400 6

/-- The greatest residual of an energy, in decibels. -/
noncomputable def levelReach : ℝ := Scalar.decimal 43195000 6

theorem natAbs_jointResiduals : ∀ pair ∈ jointResiduals.toList,
    pair.1.natAbs ≤ 2825400 ∧ pair.2.natAbs ≤ 43195000 := by
  decide +kernel

theorem isGreatest_octaveReach : IsGreatest (Set.image abs (jointColumn 0)) octaveReach := by
  have hmem : jointResiduals[172]? = some (2825400, 1895380) := by decide +kernel
  exact isGreatest_jointColumn Prod.fst (fun _ => rfl)
    (fun pair hpair => (natAbs_jointResiduals pair (Array.mem_toList_iff.mpr hpair)).1)
    ⟨_, Array.mem_of_getElem? hmem, rfl⟩

theorem isGreatest_levelReach : IsGreatest (Set.image abs (jointColumn 1)) levelReach := by
  have hmem : jointResiduals[168]? = some (991152, 43195000) := by decide +kernel
  exact isGreatest_jointColumn Prod.snd (fun _ => rfl)
    (fun pair hpair => (natAbs_jointResiduals pair (Array.mem_toList_iff.mpr hpair)).2)
    ⟨_, Array.mem_of_getElem? hmem, rfl⟩

end Codebook

open Codebook

namespace Predictor

/-! ### One move -/

/-- A predictor fades and takes in a residual of each coordinate. -/
theorem advance_eq_ok {predictor next : Predictor ℝ} {index : Int}
    (h : predictor.advance index = .ok next) :
    ∃ entry x y, (joint : Codebook ℝ).entry index = .ok entry ∧ fetch entry 0 = .ok x ∧
      fetch entry 1 = .ok y ∧
      next = ⟨0.8 * predictor.octaves + x, 0.9 * predictor.level + y⟩ := by
  obtain ⟨entry, hentry, h⟩ := bind_eq_ok.mp h
  obtain ⟨x, hx, h⟩ := bind_eq_ok.mp h
  obtain ⟨y, hy, h⟩ := bind_eq_ok.mp h
  exact ⟨entry, x, y, hentry, hx, hy, (pure_eq_ok.mp h).symm⟩

/-- The same index takes two predictors closer by the same factors. -/
theorem sub_of_advance {left right left' right' : Predictor ℝ} {index : Int}
    (hleft : left.advance index = .ok left') (hright : right.advance index = .ok right') :
    left'.octaves - right'.octaves = 0.8 * (left.octaves - right.octaves) ∧
      left'.level - right'.level = 0.9 * (left.level - right.level) := by
  obtain ⟨entry, x, y, hentry, hx, hy, rfl⟩ := advance_eq_ok hleft
  obtain ⟨entry', x', y', hentry', hx', hy', rfl⟩ := advance_eq_ok hright
  obtain rfl := Except.ok.inj (hentry.symm.trans hentry')
  obtain rfl := Except.ok.inj (hx.symm.trans hx')
  obtain rfl := Except.ok.inj (hy.symm.trans hy')
  constructor <;> ring

theorem advance_of_decode {predictor : Predictor ℝ} {range : PitchRange ℝ} {index : Int}
    {done : (ℝ × ℝ) × Predictor ℝ} (h : predictor.decode range index = .ok done) :
    predictor.advance ((joint : Codebook ℝ).clamp index) = .ok done.2 := by
  obtain ⟨next, hnext, h⟩ := bind_eq_ok.mp h
  obtain rfl := pure_eq_ok.mp h
  exact hnext

theorem advance_of_encode {predictor : Predictor ℝ} {wo e : ℝ} {done : Int × Predictor ℝ}
    (h : predictor.encode wo e = .ok done) : predictor.advance done.1 = .ok done.2 := by
  obtain ⟨index, _, h⟩ := bind_eq_ok.mp h
  obtain ⟨next, hnext, h⟩ := bind_eq_ok.mp h
  obtain rfl := pure_eq_ok.mp h
  exact hnext

/-! ### Decoding the same indexes -/

/-- The predictor after it decoded indexes in turn. -/
def afterDecoding {α : Type} [Analytic α] (range : PitchRange α) (predictor : Predictor α) :
    List Int → Except Fault (Predictor α)
  | [] => .ok predictor
  | index :: rest => do
    let (_, next) ← predictor.decode range index
    next.afterDecoding range rest

theorem yields_afterDecoding (predictor : Predictor ℝ) (indexes : List Int) :
    Yields (predictor.afterDecoding .speech indexes) fun _ => True := by
  induction indexes generalizing predictor with
  | nil => exact Yields.ok trivial
  | cons index rest ih => exact (predictor.yields_decode index).bind fun done _ => ih done.2

/-- Indexes take two predictors closer, one factor for each. -/
theorem sub_of_afterDecoding {range : PitchRange ℝ} {left right left' right' : Predictor ℝ}
    {indexes : List Int} (hleft : left.afterDecoding range indexes = .ok left')
    (hright : right.afterDecoding range indexes = .ok right') :
    left'.octaves - right'.octaves = 0.8 ^ indexes.length * (left.octaves - right.octaves) ∧
      left'.level - right'.level = 0.9 ^ indexes.length * (left.level - right.level) := by
  induction indexes generalizing left right with
  | nil =>
      cases hleft
      cases hright
      simp
  | cons index rest ih =>
      obtain ⟨done, hdone, hleft⟩ := bind_eq_ok.mp hleft
      obtain ⟨done', hdone', hright⟩ := bind_eq_ok.mp hright
      obtain ⟨hoctaves, hlevel⟩ := ih hleft hright
      obtain ⟨hfirst, hfirst'⟩ :=
        sub_of_advance (advance_of_decode hdone) (advance_of_decode hdone')
      rw [hoctaves, hlevel, hfirst, hfirst', List.length_cons]
      constructor <;> ring

/-! ### Runs from rest -/

/-- What moves a predictor: coding a fundamental and an energy, or decoding an index. -/
inductive Move (α : Type) where
  | encode (wo energy : α)
  | decode (index : Int)

/-- A predictor after a move, and the fundamental and the energy that the move decoded. -/
structure Moved (α : Type) where
  predictor : Predictor α
  decoded : Option (α × α)

section

variable {α : Type} [Analytic α]

/-- Makes a move. -/
def move (range : PitchRange α) (predictor : Predictor α) : Move α → Except Fault (Moved α)
  | .encode wo energy => do
    let (_, next) ← predictor.encode wo energy
    return ⟨next, none⟩
  | .decode index => do
    let (values, next) ← predictor.decode range index
    return ⟨next, some values⟩

/-- Makes moves in turn, and gives what each of them led to. -/
def moveAll (range : PitchRange α) (predictor : Predictor α) :
    List (Move α) → Except Fault (List (Moved α))
  | [] => .ok []
  | first :: rest => do
    let moved ← predictor.move range first
    return moved :: (← moved.predictor.moveAll range rest)

end

/-- A predictor within the reach of the residuals. -/
structure Bounded (predictor : Predictor ℝ) : Prop where
  octaves : |predictor.octaves| ≤ 5 * octaveReach
  level : |predictor.level| ≤ 10 * levelReach

theorem bounded_start : (start : Predictor ℝ).Bounded := by
  constructor <;> norm_num [start, octaveReach, levelReach, Scalar.decimal_real]

/-- The reach is the sum of the residuals, each faded as often as moves came after it; one more move
fades that sum and adds the greatest residual. -/
theorem Bounded.advance {predictor next : Predictor ℝ} (h : predictor.Bounded) {index : Int}
    (hindex : 0 ≤ index ∧ index < (joint : Codebook ℝ).size)
    (hnext : predictor.advance index = .ok next) : next.Bounded := by
  obtain ⟨entry, x, y, hentry, hx, hy, rfl⟩ := advance_eq_ok hnext
  have hx' : |x| ≤ octaveReach :=
    isGreatest_octaveReach.2 ⟨x, ⟨index, entry, hindex.1, hindex.2, hentry, hx⟩, rfl⟩
  have hy' : |y| ≤ levelReach :=
    isGreatest_levelReach.2 ⟨y, ⟨index, entry, hindex.1, hindex.2, hentry, hy⟩, rfl⟩
  constructor
  · calc |0.8 * predictor.octaves + x|
      _ ≤ |0.8 * predictor.octaves| + |x| := abs_add_le _ _
      _ = 0.8 * |predictor.octaves| + |x| := by rw [abs_mul, abs_of_pos (by norm_num)]
      _ ≤ 0.8 * (5 * octaveReach) + octaveReach := by gcongr; exact h.octaves
      _ = 5 * octaveReach := by ring
  · calc |0.9 * predictor.level + y|
      _ ≤ |0.9 * predictor.level| + |y| := abs_add_le _ _
      _ = 0.9 * |predictor.level| + |y| := by rw [abs_mul, abs_of_pos (by norm_num)]
      _ ≤ 0.9 * (10 * levelReach) + levelReach := by gcongr; exact h.level
      _ = 10 * levelReach := by ring

/-- What a move leads to: a predictor within reach, and decoded values in range. -/
structure Moved.Sound (moved : Moved ℝ) : Prop where
  bounded : moved.predictor.Bounded
  wo : ∀ values, moved.decoded = some values → PitchRange.speech.Has values.1
  energy : ∀ values, moved.decoded = some values → Energy.InRange values.2

theorem Bounded.yields_move {predictor : Predictor ℝ} (h : predictor.Bounded) (next : Move ℝ) :
    Yields (predictor.move .speech next) Moved.Sound := by
  cases next with
  | encode wo energy =>
      refine (predictor.yields_encode wo energy).with_eq.bind ?_
      rintro ⟨index, moved⟩ ⟨hmoved, -⟩
      have hindex := encode_fits hmoved
      have hbounded := h.advance ⟨hindex.1, hindex.2⟩ (advance_of_encode hmoved)
      exact Yields.pure ⟨hbounded, by simp, by simp⟩
  | decode index =>
      refine (predictor.yields_decode index).with_eq.bind ?_
      rintro ⟨values, moved⟩ ⟨hmoved, hwo, henergy⟩
      have hbounded := h.advance (whole_joint.clamp_bounds index) (advance_of_decode hmoved)
      refine Yields.pure ⟨hbounded, ?_, ?_⟩
      · rintro _ ⟨⟩
        exact hwo
      · rintro _ ⟨⟩
        exact henergy

theorem Bounded.yields_moveAll {predictor : Predictor ℝ} (h : predictor.Bounded)
    (moves : List (Move ℝ)) :
    Yields (predictor.moveAll .speech moves) fun all =>
      all.length = moves.length ∧ ∀ moved ∈ all, moved.Sound := by
  induction moves generalizing predictor with
  | nil => exact Yields.ok ⟨rfl, by simp⟩
  | cons first rest ih =>
      refine (h.yields_move first).bind fun moved hmoved => ?_
      refine (ih hmoved.bounded).bind fun all hall => Yields.pure ⟨?_, ?_⟩
      · rw [List.length_cons, List.length_cons, hall.1]
      · exact List.forall_mem_cons.mpr ⟨hmoved, hall.2⟩

end Predictor

/-- The predictor of joint updates forgets geometrically and stays bounded. What two predictors
differ in decays by 0.8 and 0.9 with each index, and from rest a predictor stays within five and ten
times the greatest residual. -/
theorem joint_predictor_forgets_bounded :
    (∀ (left right : Predictor ℝ) (indexes : List Int), ∃ left' right',
      left.afterDecoding .speech indexes = .ok left' ∧
      right.afterDecoding .speech indexes = .ok right' ∧
      left'.octaves - right'.octaves = 0.8 ^ indexes.length * (left.octaves - right.octaves) ∧
      left'.level - right'.level = 0.9 ^ indexes.length * (left.level - right.level)) ∧
    IsGreatest (Set.image abs (jointColumn 0)) octaveReach ∧
    IsGreatest (Set.image abs (jointColumn 1)) levelReach ∧
    ∀ moves : List (Predictor.Move ℝ), ∃ all, Predictor.start.moveAll .speech moves = .ok all ∧
      all.length = moves.length ∧ ∀ moved ∈ all,
        |moved.predictor.octaves| ≤ 5 * octaveReach ∧
        |moved.predictor.level| ≤ 10 * levelReach ∧
        ∀ wo energy, moved.decoded = some (wo, energy) →
          (2 * Real.pi / 160 ≤ wo ∧ wo ≤ 2 * Real.pi / 20) ∧
          (10 : ℝ) ^ ((-10 : ℝ) / 10) ≤ energy ∧ energy ≤ (10 : ℝ) ^ ((60 : ℝ) / 10) := by
  refine ⟨fun left right indexes => ?_, isGreatest_octaveReach, isGreatest_levelReach,
    fun moves => ?_⟩
  · obtain ⟨left', hleft, -⟩ := left.yields_afterDecoding indexes
    obtain ⟨right', hright, -⟩ := right.yields_afterDecoding indexes
    exact ⟨left', right', hleft, hright, Predictor.sub_of_afterDecoding hleft hright⟩
  · obtain ⟨all, hmoves, hlength, hall⟩ := Predictor.bounded_start.yields_moveAll moves
    have hlowest : (10 : ℝ) ^ ((-10 : ℝ) / 10) = 1 / 10 := by
      rw [show (-10 : ℝ) / 10 = -1 by norm_num, Real.rpow_neg_one, one_div]
    have hhighest : (10 : ℝ) ^ ((60 : ℝ) / 10) = 10 ^ 6 := by
      rw [show (60 : ℝ) / 10 = (6 : ℕ) by norm_num, Real.rpow_natCast]
    refine ⟨all, hmoves, hlength, fun moved hmoved => ?_⟩
    have hsound := hall moved hmoved
    refine ⟨hsound.bounded.octaves, hsound.bounded.level, fun wo energy hdecoded => ?_⟩
    have hwo := hsound.wo _ hdecoded
    have henergy := hsound.energy _ hdecoded
    rw [hlowest, hhighest, ← PitchRange.speech_low, ← PitchRange.speech_high]
    exact ⟨⟨hwo.low, hwo.high⟩, henergy.low, henergy.high⟩

end Vocoder
