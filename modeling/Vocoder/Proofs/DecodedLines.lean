import Vocoder.Proofs.DecoderTotal
import Vocoder.Proofs.FrameStages
import Vocoder.Proofs.LineSeparation
import Vocoder.Proofs.SessionRuns

/-!
Decoded lines over the real numbers. Whatever the indexes are, the codebooks keep every line above
its position in tenths of a radian, or give lines in ascending order. So the lines of every frame
are separated, and on the way from one frame to the next they stay in order inside the band.
-/

namespace Vocoder

open Lines

/-! ### Codebooks -/

namespace Codebook

theorem le_of_mem_ramp {first step bits : Nat} {x : ℝ}
    (h : x ∈ (ramp first step bits : Codebook ℝ).values) : (first : ℝ) ≤ x := by
  simp only [ramp, Array.mem_map, Array.mem_range] at h
  obtain ⟨k, -, rfl⟩ := h
  rw [Analytic.ofInt_real]
  push_cast
  have : (0 : ℝ) ≤ step * k := by positivity
  linarith

/-- The book of each line starts 200 Hz higher, or more, than that of the line before. -/
theorem scalarLines_above {i : Nat} {book : Codebook ℝ} (h : scalarLines[i]? = some book) :
    ∀ x ∈ book.values, (100 + 200 * i : ℝ) ≤ x := by
  have hi : i < 10 := (Array.getElem?_eq_some_iff.mp h).1
  intro x hx
  interval_cases i <;> cases h <;> refine le_trans ?_ (le_of_mem_ramp hx) <;> norm_num

theorem differenceLines_above :
    ∀ book ∈ (differenceLines : Array (Codebook ℝ)), ∀ x ∈ book.values, (25 : ℝ) ≤ x := by
  intro book hbook x hx
  simp only [differenceLines, List.mem_toArray, List.mem_cons, List.not_mem_nil, or_false] at hbook
  rcases hbook with h | h | h | h | h | h | h | h | h | h <;> subst h <;>
    refine le_trans ?_ (le_of_mem_ramp hx) <;> norm_num

/-- An entry of a book has values of the book. -/
theorem mem_of_entry {β : Type} {book : Codebook β} {i : Int} {entry : Array β}
    (h : book.entry i = .ok entry) {x : β} (hx : x ∈ entry) : x ∈ book.values := by
  obtain ⟨_, _, _, rfl⟩ := slice_eq_ok.mp h
  obtain ⟨k, _, rfl⟩ := Array.mem_extract_iff_getElem.mp hx
  exact Array.getElem_mem _

end Codebook

namespace Product

/-- What holds of all levels of each factor holds of the levels at every index. -/
theorem forall₂_levels {β δ : Type} {R : δ → β → Prop} {bounds : List δ} {factors : List (List β)}
    (hfactors : ∀ levels ∈ factors, levels ≠ [] ∧ levels.length < 2 ^ 63)
    (h : List.Forall₂ (fun bound levels => ∀ x ∈ levels, R bound x) bounds factors) (n : Nat) :
    List.Forall₂ R bounds (levels factors n) := by
  rw [levels]
  have hdigit : ∀ place ∈ factors.zipIdx, ∃ x ∈ place.1,
      place.1[(digit n (factors.map fun levels => (levels.length : Int)) place.2).toNat]? =
        some x := by
    rintro ⟨levels, d⟩ hmem
    have hlevels : factors[d]? = some levels := List.mem_zipIdx_iff_getElem?.mp hmem
    obtain ⟨hne, hbound⟩ := hfactors levels (List.mem_of_getElem? hlevels)
    have hlt := digit_lt hlevels hne hbound n
    exact ⟨_, List.getElem_mem hlt, List.getElem?_eq_getElem hlt⟩
  rw [← List.zipIdx_map_fst 0 factors, List.forall₂_map_right_iff] at h
  generalize factors.map (fun levels => (levels.length : Int)) = sizes at hdigit ⊢
  generalize factors.zipIdx = places at h hdigit ⊢
  induction h with
  | nil => exact .nil
  | @cons bound place bounds places hhead _ ih =>
      obtain ⟨⟨x, hx, hlevel⟩, hrest⟩ := List.forall_mem_cons.mp hdigit
      obtain ⟨levels, d⟩ := place
      rw [List.filterMap_cons]
      simp only [hlevel]
      exact .cons (hhead x hx) (ih hrest)

end Product

namespace Codebook

theorem take_drop_flatMap {β γ : Type} {xs : List β} {f : β → List γ} {k n : Nat}
    (h : ∀ x ∈ xs, (f x).length = k) (hn : n < xs.length) :
    ((xs.flatMap f).drop (n * k)).take k = f xs[n] := by
  induction xs generalizing n with
  | nil => simp at hn
  | cons x xs ih =>
      obtain ⟨hx, hxs⟩ := List.forall_mem_cons.mp h
      rw [List.flatMap_cons]
      cases n with
      | zero =>
          rw [Nat.zero_mul, List.drop_zero, List.take_left' hx]
          rfl
      | succ n =>
          have hlt : n < xs.length := by simpa using hn
          rw [List.drop_append, hx, List.drop_eq_nil_of_le (by rw [hx, Nat.succ_mul]; omega),
            List.nil_append, show (n + 1) * k - k = n * k by rw [Nat.succ_mul]; omega, ih hxs hlt]
          rfl

/-- The entries of a book that is written block by block are the blocks. -/
theorem Whole.toList_of_entry {β : Type} {book : Codebook β} (hbook : book.Whole)
    {block : Nat → List β} {k : Nat}
    (hvalues : book.values.toList = (List.range book.size.toNat).flatMap block)
    (hdim : book.dim = k) (hblock : ∀ n, (block n).length = k) {i : Int} {entry : Array β}
    (hlow : 0 ≤ i) (hhigh : i < book.size) (h : book.entry i = .ok entry) :
    entry.toList = block i.toNat := by
  obtain ⟨n, rfl⟩ := Int.eq_ofNat_of_zero_le hlow
  obtain ⟨count, hcount⟩ := Int.eq_ofNat_of_zero_le (Int.le_trans Int.one_nonneg hbook.size)
  have hbound := hbook.bound
  rw [hcount, Int.toNat_natCast] at hvalues
  rw [hcount] at hhigh hbound
  have hn : n < count := by omega
  have hfirst : (n : Int) * k = (n * k : Nat) := by push_cast; rfl
  have hlast : ((n : Int) + 1) * k = (n * k + k : Nat) := by push_cast; ring
  have hle : n * k + k ≤ count * k := by
    rw [← Nat.succ_mul]
    exact Nat.mul_le_mul_right k hn
  have hlimit : ((count * k : Nat) : Int) < 2 ^ 62 := by
    push_cast
    exact hdim ▸ hbound
  rw [Codebook.entry, hdim, hfirst, hlast, wrap_of_bounds _ (by omega) (by omega),
    wrap_of_bounds _ (by omega) (by omega)] at h
  obtain ⟨_, _, _, rfl⟩ := slice_eq_ok.mp h
  rw [Array.toList_extract, List.extract_eq_take_drop, hvalues, Int.toNat_natCast,
    Int.toNat_natCast, Nat.add_sub_cancel_left,
    take_drop_flatMap (fun _ _ => hblock _) (by rwa [List.length_range])]
  simp

/-- Values in radians with a lower bound in Hz for each. -/
def FromHz (bounds : List Int) (values : List ℝ) : Prop :=
  List.Forall₂ (fun (bound : Int) (x : ℝ) => bound * radPerHz ≤ x) bounds values

theorem FromHz.le_line {bounds : List Int} {entry : Array ℝ} (h : FromHz bounds entry.toList)
    {i : Nat} (hi : i < bounds.length) : (bounds.getD i 0 : ℝ) * radPerHz ≤ line entry i := by
  have hlength := List.Forall₂.length_eq h
  have hi' : i < entry.size := by rwa [hlength, Array.length_toList] at hi
  have hget := List.Forall₂.get h hi (by rwa [← hlength])
  simpa [line, hi, hi'] using hget

/-- Any number stands for an entry that meets the bounds of all blocks. -/
theorem Whole.yields_fromHz {book : Codebook ℝ} (hbook : book.Whole) (block : Nat → List ℝ)
    {bounds : List Int}
    (hvalues : book.values.toList = (List.range book.size.toNat).flatMap block)
    (hdim : book.dim = bounds.length) (hblock : ∀ n, FromHz bounds (block n)) (index : Int) :
    Yields (book.entry (book.clamp index)) fun entry =>
      entry.size = bounds.length ∧ FromHz bounds entry.toList := by
  obtain ⟨hlow, hhigh⟩ := hbook.clamp_bounds index
  refine (hbook.yields_clamped index).with_eq.mono ?_
  rintro entry ⟨hentry, hsize⟩
  refine ⟨by omega, ?_⟩
  rw [hbook.toList_of_entry hvalues hdim (fun n => (List.Forall₂.length_eq (hblock n)).symm) hlow
    hhigh hentry]
  exact hblock _

/-- The lowest positions of the lines in Hz. -/
def lowestPositions : List Int := [340, 440, 850, 1100, 1435, 1755, 2180, 2555, 2955, 3350]

/-- The lowest residuals of the even lines in Hz. -/
def lowestEven : List Int := [-60, -85, -120, -85, -40]

/-- The lowest residuals of the odd lines in Hz. -/
def lowestOdd : List Int := [-55, -105, -95, -90, -60]

theorem fromHz_scaled {bound hz : Int} (h : bound ≤ hz) :
    (bound : ℝ) * radPerHz ≤ Scalar.ofInt hz * radPerHz := by
  rw [Analytic.ofInt_real]
  exact mul_le_mul_of_nonneg_right (by exact_mod_cast h) radPerHz_pos.le

theorem yields_positions (index : Int) :
    Yields ((positionLines : Codebook ℝ).entry ((positionLines : Codebook ℝ).clamp index))
      fun entry => entry.size = 10 ∧ FromHz lowestPositions entry.toList := by
  have hblock : ∀ n, FromHz lowestPositions ((Product.levels pairPositions n).flatMap
      fun pair => [Scalar.ofInt pair.1 * radPerHz, Scalar.ofInt pair.2 * radPerHz]) := by
    intro n
    have hlevels : List.Forall₂ (fun bound level : Int × Int =>
        bound.1 ≤ level.1 ∧ bound.2 ≤ level.2)
        [(340, 440), (850, 1100), (1435, 1755), (2180, 2555), (2955, 3350)]
        (Product.levels pairPositions n) :=
      Product.forall₂_levels (by decide) (by decide) n
    have hpair : ∀ bound level : Int × Int, bound.1 ≤ level.1 ∧ bound.2 ≤ level.2 →
        FromHz [bound.1, bound.2]
          [Scalar.ofInt level.1 * radPerHz, Scalar.ofInt level.2 * radPerHz] :=
      fun _ _ h => .cons (fromHz_scaled h.1) (.cons (fromHz_scaled h.2) .nil)
    exact List.rel_flatMap hlevels hpair
  exact whole_positionLines.yields_fromHz _ (by simp [positionLines]) rfl hblock index

theorem yields_residuals {residuals : List (List Int)} (bounds : List Int)
    (hresiduals : ∀ levels ∈ residuals, levels ≠ [] ∧ levels.length < 2 ^ 63)
    (hcount : residuals.length = 5)
    (hbounds : List.Forall₂ (fun bound levels => ∀ level ∈ levels, bound ≤ level) bounds residuals)
    (index : Int) :
    Yields ((residualLines residuals : Codebook ℝ).entry
      ((residualLines residuals : Codebook ℝ).clamp index))
      fun entry => entry.size = 5 ∧ FromHz bounds entry.toList := by
  have hlength : bounds.length = 5 := (List.Forall₂.length_eq hbounds).trans hcount
  have hwhole : (residualLines residuals : Codebook ℝ).Whole :=
    whole_residualLines fun n => (Product.length_levels hresiduals n).trans hcount
  have hblock : ∀ n, FromHz bounds ((Product.levels residuals n).map
      fun hz => Scalar.ofInt hz * radPerHz) := by
    intro n
    have hlevels := Product.forall₂_levels hresiduals hbounds n
    exact List.forall₂_map_right_iff.mpr (hlevels.imp fun _ _ hle => fromHz_scaled hle)
  rw [← hlength]
  exact hwhole.yields_fromHz _ (by simp [residualLines]) (by rw [hlength]; rfl) hblock index

end Codebook

/-! ### Decoding -/

namespace LineScheme

open Codebook

theorem tenths_lt {i : Nat} {x : ℝ} (h : (100 + 200 * i : ℝ) * radPerHz ≤ x) :
    (i : ℝ) / 10 < x := by
  have hpi := Real.pi_gt_three
  have hi : (0 : ℝ) ≤ i := Nat.cast_nonneg i
  rw [radPerHz_real] at h
  nlinarith

theorem aboveTenths_of_hz {lines : Array ℝ}
    (h : ∀ (i : Nat) (x : ℝ), lines[i]? = some x → (100 + 200 * i : ℝ) * radPerHz ≤ x) :
    AboveTenths lines := by
  intro i hi
  refine tenths_lt (h i (line lines i) ?_)
  simp [line, hi]

theorem yields_decodeScalar_above {indexes : Array Int} (h : indexes.size = 10) :
    Yields (decodeScalar indexes : Except Fault (Array ℝ)) fun lines =>
      lines.size = 10 ∧ AboveTenths lines := by
  refine (yields_tabulate_at (P := fun i x => (100 + 200 * i : ℝ) * radPerHz ≤ x)
    fun i hi => ?_).mono fun lines hlines => ⟨hlines.1, aboveTenths_of_hz hlines.2⟩
  have hi : i < 10 := hi
  refine (yields_fetch_at rfl hi).bind fun book hbook => ?_
  refine (yields_fetch_of_lt (by omega) (by omega)).bind fun index _ => ?_
  have hwhole := whole_scalarLines book (Array.mem_of_getElem? hbook)
  refine (yields_value hwhole index).with_eq.bind ?_
  rintro entry ⟨hentry, hsize⟩
  refine (yields_fetch (P := fun x => (100 + 200 * i : ℝ) ≤ x) (by decide) (by omega)
    fun x hx => scalarLines_above hbook x (mem_of_entry hentry hx)).bind fun x hx => ?_
  exact Yields.pure (mul_le_mul_of_nonneg_right hx radPerHz_pos.le)

/-- Every distance is positive, so the lines are in ascending order from the start. -/
theorem yields_decodeDifference_ascending {indexes : Array Int} (h : indexes.size = 10) :
    Yields (decodeDifference indexes : Except Fault (Array ℝ)) fun lines =>
      lines.size = 10 ∧ 0 < line lines 0 ∧
        ∀ k, k + 1 < lines.size → line lines k ≤ line lines (k + 1) := by
  have hsize : ((differenceLines : Array (Codebook ℝ)).size : Int) = 10 := rfl
  refine Yields.bind (P := fun done => done.1.size = 10 ∧ 0 < line done.1 0 ∧
    ∀ k, k + 1 < done.1.size → line done.1 k ≤ line done.1 (k + 1)) (yields_foldBetween
      (P := fun i (done : Array ℝ × ℝ) => done.1.size = i.toNat ∧ 0 ≤ done.2 ∧
        (∀ k, k < done.1.size → line done.1 k ≤ done.2 * radPerHz) ∧
        (0 < done.1.size → 0 < line done.1 0) ∧
        ∀ k, k + 1 < done.1.size → line done.1 k ≤ line done.1 (k + 1)) ?_ ?_ ?_)
    fun done hdone => Yields.pure hdone
  · exact ⟨rfl, by norm_num, by simp, by simp, by simp⟩
  · rintro i ⟨lines, hz⟩ hlow hhigh ⟨hlines, hz_nonneg, hbelow, hfirst, hascending⟩
    dsimp only at hlines hz_nonneg hbelow hfirst hascending ⊢
    refine (yields_fetch (P := fun book : Codebook ℝ => (book.Whole ∧ book.dim = 1) ∧
      ∀ x ∈ book.values, (25 : ℝ) ≤ x) hlow hhigh fun book hbook =>
        ⟨whole_differenceLines book hbook, differenceLines_above book hbook⟩).bind
          fun book hbook => ?_
    refine (yields_fetch_of_lt hlow (by omega)).bind fun index _ => ?_
    refine (yields_value hbook.1 index).with_eq.bind ?_
    rintro entry ⟨hentry, hentry_pos⟩
    refine (yields_fetch (P := fun x => (25 : ℝ) ≤ x) (by decide) (by omega)
      fun x hx => hbook.2 x (mem_of_entry hentry hx)).bind fun x hx => ?_
    have hup : hz * radPerHz < (hz + x) * radPerHz :=
      mul_lt_mul_of_pos_right (by linarith) radPerHz_pos
    have hpos : 0 < (hz + x) * radPerHz := mul_pos (by linarith) radPerHz_pos
    refine Yields.pure ⟨?_, by dsimp only; linarith, ?_, ?_, ?_⟩
    · rw [Array.size_push]
      omega
    · intro k hk
      rw [line_push]
      split_ifs with hlast
      · exact le_rfl
      · rw [Array.size_push] at hk
        exact (hbelow k (by omega)).trans hup.le
    · intro _
      rw [line_push]
      split_ifs with hlast
      · exact hpos
      · exact hfirst (by omega)
    · intro k hk
      rw [Array.size_push] at hk
      rw [line_push, line_push, if_neg (by omega)]
      split_ifs with hlast
      · exact (hbelow k (by omega)).trans hup.le
      · exact hascending k (by omega)
  · rintro done ⟨hdone, _, _, hfirst, hascending⟩
    exact ⟨by omega, hfirst (by omega), hascending⟩

/-- Every position with every residual is above its bound. -/
theorem yields_decodeSplit_above {indexes : Array Int} (h : indexes.size = 3) :
    Yields (decodeSplit indexes : Except Fault (Array ℝ)) fun lines =>
      lines.size = 10 ∧ AboveTenths lines := by
  refine (yields_fetch_of_lt (by decide) (by omega)).bind fun first _ => ?_
  refine (yields_positions first).bind fun position hposition => ?_
  refine (yields_fetch_of_lt (by decide) (by omega)).bind fun second _ => ?_
  refine (yields_residuals lowestEven (by decide) rfl (by decide) second).bind
    fun even heven => ?_
  refine (yields_fetch_of_lt (by decide) (by omega)).bind fun third _ => ?_
  refine (yields_residuals lowestOdd (by decide) rfl (by decide) third).bind
    fun odd hodd => ?_
  refine (yields_tabulate_at (P := fun i x => (100 + 200 * i : ℝ) * radPerHz ≤ x)
    fun i hi => ?_).mono fun lines hlines => ⟨by omega, aboveTenths_of_hz hlines.2⟩
  have hi : i < 10 := by omega
  have hplace := hposition.2.le_line (i := i) hi
  have hsum {bound : Int} {residual : ℝ} (hresidual : bound * radPerHz ≤ residual)
      (hbound : 100 + 200 * (i : Int) ≤ lowestPositions.getD i 0 + bound) :
      Yields (fetch position i >>= fun x => pure (x + residual))
        fun x => (100 + 200 * i : ℝ) * radPerHz ≤ x := by
    refine (yields_fetch_line rfl (by omega)).bind ?_
    rintro _ rfl
    refine Yields.pure ?_
    have hbound' : (100 + 200 * i : ℝ) ≤ lowestPositions.getD i 0 + bound := by
      exact_mod_cast hbound
    have hscaled := mul_le_mul_of_nonneg_right hbound' radPerHz_pos.le
    linarith
  dsimp only
  split_ifs with hparity
  · refine (yields_fetch_line rfl (by omega)).bind ?_
    rintro _ rfl
    refine hsum (heven.2.le_line (show i / 2 < 5 by omega)) ?_
    revert hparity
    interval_cases i <;> decide
  · refine (yields_fetch_line rfl (by omega)).bind ?_
    rintro _ rfl
    refine hsum (hodd.2.le_line (show i / 2 < 5 by omega)) ?_
    revert hparity
    interval_cases i <;> decide

/-- Whatever the indexes are, ordering leaves ten lines of which the lowest is above zero. -/
theorem yields_decode_reorder (scheme : LineScheme) {indexes : Array Int}
    (h : indexes.size = scheme.widths.length) :
    Yields (scheme.decode indexes : Except Fault (Array ℝ)) fun decoded =>
      Yields (reorder decoded 10) fun done =>
        done.1.size = 10 ∧ 0 < line done.1 0 ∧ (scheme = .difference → done.2 = 0) := by
  have habove {decoded : Array ℝ} (hdecoded : decoded.size = 10 ∧ AboveTenths decoded)
      (hscheme : scheme ≠ .difference) :
      Yields (reorder decoded 10) fun done =>
        done.1.size = 10 ∧ 0 < line done.1 0 ∧ (scheme = .difference → done.2 = 0) := by
    refine (hdecoded.2.yields_reorder (by omega)).mono fun done hdone => ?_
    have hfirst := hdone.2 0 (by omega)
    refine ⟨by omega, by simpa using hfirst, fun heq => absurd heq hscheme⟩
  cases scheme with
  | scalar =>
      exact (yields_decodeScalar_above h).mono fun decoded hdecoded => habove hdecoded (by decide)
  | difference =>
      refine (yields_decodeDifference_ascending h).mono fun decoded hdecoded => ?_
      rw [reorder_of_ascending (by omega) hdecoded.2.2]
      exact Yields.ok ⟨hdecoded.1, hdecoded.2.1, fun _ => rfl⟩
  | split =>
      exact (yields_decodeSplit_above h).mono fun decoded hdecoded => habove hdecoded (by decide)

end LineScheme

/-! ### Frames -/

/-- The lines before any frame are evenly spaced from zero on. -/
theorem Lines.rising_first : Rising ((Array.range 10).map fun (i : Nat) =>
    Scalar.ofInt i * Analytic.pi / Scalar.ofInt (10 + 1)) := by
  have hpi := Real.pi_pos
  have hline : ∀ i, i < 10 → line ((Array.range 10).map fun (i : Nat) =>
      Scalar.ofInt i * Analytic.pi / Scalar.ofInt (10 + 1)) i = i * (Real.pi / 11) := by
    intro i hi
    simp only [line, Array.getD_eq_getD_getElem?, Array.getElem?_map, Array.getElem?_range,
      if_pos hi, Option.map_some, Option.getD_some, Analytic.ofInt_real, Analytic.pi_real]
    push_cast
    ring
  refine ⟨by simp, fun i j hij hj => ?_, fun i hi => ?_⟩
  · have hlt : (i : ℝ) < j := by exact_mod_cast hij
    rw [hline i (hij.trans hj), hline j hj]
    nlinarith
  · have hlt : (i : ℝ) < 10 := by exact_mod_cast hi
    rw [hline i hi]
    constructor
    · positivity
    · nlinarith

theorem Decoder.rising_of_start {seed : UInt64} {decoder : Decoder ℝ}
    (h : Decoder.start 10 seed = .ok decoder) : Rising decoder.lastLines := by
  obtain ⟨count, hcount, h⟩ := bind_eq_ok.mp h
  obtain ⟨model, _, h⟩ := bind_eq_ok.mp h
  obtain rfl := pure_eq_ok.mp h
  obtain ⟨_, _, rfl⟩ := length_eq_ok.mp hcount
  exact rising_first

namespace Frame

/-- All lines on the way from one frame to the next are in ascending order inside the band. -/
theorem yields_lineTracks_ascending {decoder : Decoder ℝ} {count : Nat} {lines : Array ℝ}
    (hlast : Rising decoder.lastLines) (hlines : Ascending lines) :
    Yields (lineTracks decoder 10 count lines) fun tracks =>
      tracks.size = count ∧ ∀ track ∈ tracks, Ascending track := by
  refine (yields_length (by decide) (by decide)).bind ?_
  rintro _ rfl
  refine yields_tabulate fun i _ => ?_
  split_ifs with hi
  · have hpos : (0 : ℝ) < (i + 1 : Int) := by
      push_cast
      positivity
    have hlt : ((i + 1 : Int) : ℝ) < (count : Int) := by exact_mod_cast hi
    refine yields_between hlast hlines (div_pos hpos (hpos.trans hlt)) ?_
    exact (div_lt_one (hpos.trans hlt)).mpr hlt
  · exact Yields.pure hlines

namespace Stages

variable {engine : Engine ℝ} {layout : Layout} {settings : PostFilter ℝ} {decoder : Decoder ℝ}
  {bytes : List UInt8} {errorRate : ℝ}

theorem lines_separated (stages : Stages engine layout settings decoder bytes errorRate)
    (hlayout : layout.Regular) (horder : layout.order = 10)
    (hbits : layout.contentBits ≤ 8 * bytes.length) :
    Separated stages.lines ∧ (layout.lines = .difference → stages.swaps = 0) := by
  have hcontent := (yields_read hlayout hbits).of_eq stages.unpacked
  have hreorder := (layout.lines.yields_decode_reorder
    (by rw [List.size_toArray, hcontent.lines])).of_eq stages.decoding
  have hordering := stages.ordering
  have hspreading := stages.spreading
  rw [horder] at hordering hspreading
  obtain ⟨hsize, hfirst, hswaps⟩ := hreorder.of_eq hordering
  exact ⟨(yields_spread_separated hsize hfirst).of_eq hspreading, hswaps⟩

theorem tracks_ascending (stages : Stages engine layout settings decoder bytes errorRate)
    (horder : layout.order = 10) (hlast : Rising decoder.lastLines)
    (hlines : Separated stages.lines) :
    stages.tracks.size = stages.count ∧ ∀ track ∈ stages.tracks, Ascending track := by
  have htracking := stages.tracking
  rw [horder] at htracking
  exact (yields_lineTracks_ascending hlast hlines.ascending).of_eq htracking

end Stages

end Frame

/-! ### Sessions -/

namespace Session

/-- What holds of the lines of a session between frames. -/
structure Tracks (mode : Mode) (session : Session ℝ) : Prop where
  decodes : session.Decodes mode
  rising : Rising session.decoder.lastLines
  reorders : mode = .rate3200 → session.stats.reorders = 0

theorem exists_create_tracks (mode : Mode) (choices : List (Choice ℝ)) :
    ∃ session notices, create mode choices = .ok (session, notices) ∧ session.Tracks mode := by
  have horder : mode.layout.order = 10 := by cases mode <;> rfl
  obtain ⟨session, notices, hcreate, hdecodes⟩ := exists_create mode choices
  obtain ⟨decoder, hdecoder, rfl⟩ := exists_of_create hcreate
  rw [horder] at hdecoder
  exact ⟨_, notices, hcreate, hdecodes, Decoder.rising_of_start hdecoder, fun _ => rfl⟩

/-- A frame leaves separated lines, and was synthesised from lines in ascending order. -/
structure Tracked (engine : Engine ℝ) (mode : Mode) (before : Session ℝ)
    (frame : List UInt8 × ℝ) (reply : Reply ℝ (List Int16)) : Prop where
  separated : Separated reply.session.decoder.lastLines
  reorders : mode = .rate3200 → reply.session.stats.reorders = 0
  tracks : ∃ stages : Frame.Stages engine before.layout before.settings.postFilter before.decoder
    frame.1 frame.2, reply = before.decoded stages.result ∧
      (stages.tracks.size : Int) = mode.layout.subframes ∧
      ∀ track ∈ stages.tracks, Ascending track

theorem Tracks.yields_decode (engine : Engine ℝ) {mode : Mode} {session : Session ℝ}
    (h : session.Tracks mode) {frame : List UInt8 × ℝ}
    (hlength : (frame.1.length : Int) = mode.layout.totalBytes) :
    Yields (session.decode engine frame.1 frame.2) fun reply =>
      Tracked engine mode session frame reply ∧ reply.session.Tracks mode := by
  have hlayout := h.decodes.layout
  have horder : mode.layout.order = 10 := by cases mode <;> rfl
  have hscheme : mode = .rate3200 → mode.layout.lines = .difference := by
    rintro rfl
    rfl
  have hbits := Layout.contentBits_le_of_mode mode
  have hpos := (Layout.regular_of_mode mode).subframes_pos
  refine (h.decodes.yields_decode engine frame.2 hlength).with_eq.mono ?_
  rintro reply ⟨hreply, -, hnext⟩
  obtain ⟨done, hdone, rfl⟩ := exists_of_decode h.decodes.opened
    (by rw [bytesPerFrame, hlayout, hlength]) hreply
  obtain ⟨stages, rfl⟩ := Frame.Stages.exists_of_decode hdone
  obtain ⟨hlines, hswaps⟩ := stages.lines_separated
    (by rw [hlayout]; exact Layout.regular_of_mode mode) (by rw [hlayout, horder])
    (by rw [hlayout]; omega)
  obtain ⟨hcount, htracks⟩ := stages.tracks_ascending (by rw [hlayout, horder]) h.rising hlines
  have hreorders : mode = .rate3200 →
      (session.decoded stages.result).session.stats.reorders = 0 := by
    intro hmode
    have hzero := hswaps (by rw [hlayout]; exact hscheme hmode)
    simp [decoded, Frame.Stages.result, h.reorders hmode, hzero]
  refine ⟨⟨hlines, hreorders, stages, rfl, ?_, htracks⟩, hnext, hlines.ascending.rising, hreorders⟩
  rw [hcount, stages.count_eq, hlayout]
  omega

end Session

/-- Decoded lines are ordered, separated and inside the band, for every mode and every run of
frames, and so are those on the way from one frame to the next. At the highest rate the lines are
never out of order. -/
theorem decoded_lines_separated :
    (∀ (scheme : LineScheme) (indexes : Array Int), indexes.size = scheme.widths.length →
      ∃ decoded ordered swaps lines, scheme.decode indexes = .ok decoded ∧
        reorder decoded 10 = .ok (ordered, swaps) ∧ spread ordered 10 = .ok lines ∧
        Separated lines) ∧
    ∀ (mode : Mode) (engine : Engine ℝ) (choices : List (Choice ℝ)),
      ∃ session notices, Session.create mode choices = .ok (session, notices) ∧
        session.layout = mode.layout ∧ ∀ run : List (List UInt8 × ℝ),
          (∀ frame ∈ run, (frame.1.length : Int) = session.bytesPerFrame) →
          ∃ replies, session.decodeAll engine run = .ok replies ∧
            Session.Along (fun before frame reply =>
              Separated reply.session.decoder.lastLines ∧
              (mode = .rate3200 → reply.session.stats.reorders = 0) ∧
              ∃ stages : Frame.Stages engine before.layout before.settings.postFilter
                  before.decoder frame.1 frame.2,
                reply = before.decoded stages.result ∧
                (stages.tracks.size : Int) = session.layout.subframes ∧
                ∀ track ∈ stages.tracks, Ascending track) session run replies := by
  constructor
  · intro scheme indexes hindexes
    obtain ⟨decoded, hdecoded, ⟨ordered, swaps⟩, hordered, hsize, hfirst, -⟩ :=
      scheme.yields_decode_reorder hindexes
    obtain ⟨lines, hlines, hseparated⟩ := yields_spread_separated hsize hfirst
    exact ⟨decoded, ordered, swaps, lines, hdecoded, hordered, hlines, hseparated⟩
  · intro mode engine choices
    obtain ⟨session, notices, hcreate, htracks⟩ := Session.exists_create_tracks mode choices
    have hlayout := htracks.decodes.layout
    refine ⟨session, notices, hcreate, hlayout, fun run hrun => ?_⟩
    rw [Session.bytesPerFrame, hlayout] at hrun
    rw [hlayout]
    refine Session.yields_callAll (I := Session.Tracks mode) ?_ htracks
    intro before frame hframe hbefore
    refine (hbefore.yields_decode engine (hrun frame hframe)).mono ?_
    rintro reply ⟨hreply, hnext⟩
    exact ⟨⟨hreply.separated, hreply.reorders, hreply.tracks⟩, hnext⟩

/-- Indexes outside their codebooks, and at the highest rate a frame of ones and a muted frame of
zeros: the tracks from the lines before any frame, and what is left at the end. -/
theorem decoded_lines_separated_ones_zeros :
    (∃ decoded ordered swaps lines, LineScheme.split.decode #[-1, 512, 300] = .ok decoded ∧
      reorder decoded 10 = .ok (ordered, swaps) ∧ spread ordered 10 = .ok lines ∧
      Separated lines) ∧
    ∃ session notices, Session.create .rate3200 [] = .ok (session, notices) ∧
      (∀ frame ∈ [(List.replicate 8 (255 : UInt8), (0 : ℝ)), (List.replicate 8 0, 1)],
        (frame.1.length : Int) = session.bytesPerFrame) ∧
      ∃ ones zeros, session.decodeAll (Engine.ofTransform Transform.dft)
          [(List.replicate 8 255, 0), (List.replicate 8 0, 1)] = .ok [ones, zeros] ∧
        (∃ stages : Frame.Stages (Engine.ofTransform Transform.dft) session.layout
            session.settings.postFilter session.decoder (List.replicate 8 255) 0,
          ones = session.decoded stages.result ∧ ∀ track ∈ stages.tracks, Ascending track) ∧
        Separated zeros.session.decoder.lastLines ∧ zeros.session.stats.reorders = 0 := by
  obtain ⟨hschemes, hmodes⟩ := decoded_lines_separated
  refine ⟨hschemes .split #[-1, 512, 300] rfl, ?_⟩
  obtain ⟨session, notices, hcreate, hlayout, hruns⟩ :=
    hmodes .rate3200 (Engine.ofTransform Transform.dft) []
  have hrun : ∀ frame ∈ [(List.replicate 8 (255 : UInt8), (0 : ℝ)), (List.replicate 8 0, 1)],
      (frame.1.length : Int) = session.bytesPerFrame := by
    rw [Session.bytesPerFrame, hlayout]
    intro frame hframe
    rcases List.mem_pair.mp hframe with rfl | rfl <;> rfl
  obtain ⟨replies, hreplies, htracked⟩ := hruns _ hrun
  obtain _ | @⟨_, _, ones, _, _, ⟨_, _, stages, hones, _, htracks⟩, hzeros⟩ := htracked
  obtain _ | @⟨_, _, zeros, _, _, ⟨hseparated, hreorders, _⟩, hnil⟩ := hzeros
  cases hnil
  exact ⟨session, notices, hcreate, hrun, ones, zeros, hreplies, ⟨stages, hones, htracks⟩,
    hseparated, hreorders rfl⟩

end Vocoder
