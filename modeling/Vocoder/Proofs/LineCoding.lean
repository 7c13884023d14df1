import Vocoder.Proofs.DecodedLines
import Vocoder.Proofs.FirstNearest

/-!
What the indexes of lines stand for, over the real numbers. Two schemes code line by line: an index
is that of a frequency, counted from zero or from the line before as the decoder will have it. So
the error of an index is the error of the line that the decoder rebuilds, and a line that has been
decoded is found again without an error. The split scheme measures its error on the lines that it
rebuilds itself.
-/

namespace Vocoder

open Lines

theorem toHz_mul_radPerHz (hz : ℝ) : toHz (hz * radPerHz) = hz :=
  mul_div_cancel_right₀ hz radPerHz_pos.ne'

theorem toHz_sub (x y : ℝ) : toHz (x - y) = toHz x - toHz y := sub_div x y radPerHz

theorem abs_toHz_le {x : ℝ} (hlow : 0 ≤ x) (hhigh : x ≤ Real.pi) : |toHz x| ≤ 4000 := by
  rw [toHz, abs_of_nonneg (div_nonneg hlow radPerHz_pos.le), div_le_iff₀ radPerHz_pos,
    radPerHz_real]
  linarith

/-! ### Codebooks of frequencies -/

namespace Codebook

/-- The value at a position of a codebook. -/
def level (book : Codebook ℝ) (n : ℕ) : ℝ := Prediction.entry book.values n

/-- A codebook with one frequency for each index of a width, all different, none of them negative or
above half the sampling rate. -/
structure Frequencies (book : Codebook ℝ) (width : ℕ) : Prop where
  whole : book.Whole
  dim : book.dim = 1
  size : book.size = 2 ^ width
  nonneg : ∀ n, n < 2 ^ width → 0 ≤ book.level n
  le : ∀ n, n < 2 ^ width → book.level n ≤ 4000
  injective : ∀ m n, m < 2 ^ width → n < 2 ^ width → book.level m = book.level n →
    m = n

theorem frequencies_ramp {first step bits : ℕ} (hbits : bits ≤ 16) (hstep : 0 < step)
    (htop : first + step * (2 ^ bits - 1) ≤ 4000) :
    (ramp first step bits : Codebook ℝ).Frequencies bits := by
  have hvalue : ∀ n, n < 2 ^ bits →
      level (ramp first step bits : Codebook ℝ) n = ((first + step * n : ℕ) : ℝ) := by
    intro n hn
    simp [ramp, level, Prediction.entry, Nat.one_shiftLeft, hn]
  refine ⟨whole_ramp hbits, rfl, by simp [ramp, Nat.one_shiftLeft], fun n hn => ?_, fun n hn => ?_,
    fun m n hm hn heq => ?_⟩
  · rw [hvalue n hn]
    exact Nat.cast_nonneg _
  · rw [hvalue n hn]
    have hle : first + step * n ≤ 4000 :=
      (Nat.add_le_add_left (Nat.mul_le_mul_left step (by omega)) first).trans htop
    exact_mod_cast hle
  · rw [hvalue m hm, hvalue n hn, Nat.cast_inj, Nat.add_left_cancel_iff] at heq
    exact Nat.eq_of_mul_eq_mul_left hstep heq

namespace Frequencies

variable {book : Codebook ℝ} {width : ℕ}

theorem size_values (h : book.Frequencies width) : book.values.size = 2 ^ width := by
  have hvalues := h.whole.values
  rw [h.size, h.dim, mul_one] at hvalues
  exact_mod_cast hvalues

theorem entry_eq (h : book.Frequencies width) {n : ℕ} (hn : n < 2 ^ width) :
    book.entry n = .ok #[book.level n] := by
  have hbound := h.whole.sizeBound
  rw [h.size] at hbound
  have hn' : (n : ℤ) < 2 ^ width := by exact_mod_cast hn
  have hsize := h.size_values
  rw [Codebook.entry, h.dim, mul_one, mul_one, wrap_of_bounds _ (by omega) (by omega),
    wrap_of_bounds _ (by omega) (by omega)]
  refine slice_eq_ok.mpr ⟨by omega, by omega, by omega, ?_⟩
  have hlast : ((n : ℤ) + 1).toNat = n + 1 := by omega
  rw [hlast, Int.toNat_natCast]
  apply Array.ext
  · simp
    omega
  · intro i hi hi'
    obtain rfl : i = 0 := by simpa using hi
    simp [level, Prediction.entry, hsize, hn]

/-- Any number stands for the frequency of the nearest index. -/
theorem entry_clamp (h : book.Frequencies width) (index : ℤ) :
    book.entry (book.clamp index) =
      .ok #[book.level (min index.toNat (2 ^ width - 1))] := by
  have hpos : 0 < 2 ^ width := Nat.two_pow_pos width
  have hbound := h.whole.sizeBound
  rw [h.size] at hbound
  have hpow : ((2 ^ width : ℕ) : ℤ) = 2 ^ width := by push_cast; rfl
  have hclamp : book.clamp index = (min index.toNat (2 ^ width - 1) : ℕ) := by
    unfold clamp
    rw [h.size, wrap_of_bounds _ (by omega) (by omega), ← hpow]
    split_ifs <;> omega
  rw [hclamp]
  exact h.entry_eq (by omega)

/-- The search for a frequency finds the first of the nearest ones. -/
theorem exists_quantise (h : book.Frequencies width) {x : ℝ} (hx : |x| ≤ 10 ^ 9) :
    ∃ n : ℕ, FirstLeast (fun j => (book.level j - x) ^ 2) (2 ^ width) n ∧
      ∀ errors, quantise book.values #[x] #[1.0] book.dim book.size errors =
        .ok ((n : ℤ), errors + (book.level n - x) ^ 2) := by
  have hpos : 0 < 2 ^ width := Nat.two_pow_pos width
  have hsize := h.size_values
  have hdistance : ∀ j : ℕ, j < 2 ^ width →
      scaledDistance book.values #[x] #[1.0] 1 j = .ok ((book.level j - x) ^ 2) := by
    intro j hj
    refine (scaledDistance_eq (k := 1) (by omega) (by simp) (by simp)).trans ?_
    simp [level, Prediction.entry]
  have hclose : (book.level 0 - x) ^ 2 < (1e32 : ℝ) := by
    have hnonneg := h.nonneg 0 hpos
    have hle := h.le 0 hpos
    obtain ⟨hlow, hhigh⟩ := abs_le.mp hx
    have hfar : (book.level 0 - x) ^ 2 ≤ (10 ^ 10) ^ 2 :=
      sq_le_sq' (by linarith) (by linarith)
    refine hfar.trans_lt ?_
    norm_num
  obtain ⟨n, hfirst, hquantise⟩ := Codebook.exists_quantise hdistance hpos hclose
  refine ⟨n, hfirst, fun errors => ?_⟩
  have hsize' : book.size = ((2 ^ width : ℕ) : ℤ) := by rw [h.size]; push_cast; rfl
  rw [h.dim, hsize', hquantise]

end Frequencies

end Codebook

/-! ### Schemes that code line by line -/

namespace LineScheme

open Codebook Finset

/-- The codebooks of a scheme that codes line by line. -/
noncomputable def lineBooks : LineScheme → Array (Codebook ℝ)
  | .scalar => scalarLines
  | .difference => differenceLines
  | .split => #[]

/-- The width of the index of a line. -/
def width (scheme : LineScheme) (i : ℕ) : ℕ := scheme.widths.getD i 0

/-- The frequency of an index of a line. -/
noncomputable def frequency (scheme : LineScheme) (i n : ℕ) : ℝ :=
  (scheme.lineBooks[i]?.map fun book => book.level n).getD 0

/-- The frequency from which a line is counted: zero, or the line before it as it is rebuilt. -/
noncomputable def reference (scheme : LineScheme) (choice : ℕ → ℕ) (i : ℕ) : ℝ :=
  match scheme with
  | .difference => ∑ k ∈ range i, difference.frequency k (choice k)
  | .scalar | .split => 0

/-- The frequency of a line that is rebuilt from the indexes of all lines. -/
noncomputable def rebuilt (scheme : LineScheme) (choice : ℕ → ℕ) (i : ℕ) : ℝ :=
  scheme.reference choice i + scheme.frequency i (choice i)

/-- Each line has a codebook of frequencies with one entry for each index of its width. -/
theorem exists_book {scheme : LineScheme} (hscheme : scheme ≠ .split) {i : ℕ} (hi : i < 10) :
    ∃ book, scheme.lineBooks[i]? = some book ∧ book.Frequencies (scheme.width i) ∧
      scheme.frequency i = book.level := by
  have hbook : ∃ book, scheme.lineBooks[i]? = some book ∧ book.Frequencies (scheme.width i) := by
    cases scheme with
    | scalar =>
        interval_cases i <;> exact ⟨_, rfl, frequencies_ramp (by decide) (by decide) (by decide)⟩
    | difference =>
        interval_cases i <;> exact ⟨_, rfl, frequencies_ramp (by decide) (by decide) (by decide)⟩
    | split => exact absurd rfl hscheme
  obtain ⟨book, hsome, hfrequencies⟩ := hbook
  refine ⟨book, hsome, hfrequencies, funext fun n => ?_⟩
  simp [frequency, hsome]

theorem reference_congr (scheme : LineScheme) {choice choice' : ℕ → ℕ} {i : ℕ}
    (h : ∀ k, k < i → choice k = choice' k) :
    scheme.reference choice i = scheme.reference choice' i := by
  cases scheme with
  | difference =>
      refine sum_congr rfl fun k hk => ?_
      rw [h k (mem_range.mp hk)]
  | _ => rfl

theorem rebuilt_congr (scheme : LineScheme) {choice choice' : ℕ → ℕ} {i : ℕ}
    (h : ∀ k, k ≤ i → choice k = choice' k) :
    scheme.rebuilt choice i = scheme.rebuilt choice' i := by
  rw [rebuilt, rebuilt, scheme.reference_congr fun k hk => h k hk.le, h i le_rfl]

/-- The line before, as it is rebuilt, is what the next line is counted from. -/
theorem reference_succ (choice : ℕ → ℕ) (i : ℕ) :
    difference.reference choice (i + 1) = difference.rebuilt choice i :=
  sum_range_succ _ i

theorem abs_frequency_le {scheme : LineScheme} (hscheme : scheme ≠ .split) {i n : ℕ} (hi : i < 10)
    (hn : n < 2 ^ scheme.width i) : |scheme.frequency i n| ≤ 4000 := by
  obtain ⟨book, -, hbook, hfrequency⟩ := exists_book hscheme hi
  rw [hfrequency, abs_of_nonneg (hbook.nonneg n hn)]
  exact hbook.le n hn

/-- References of lines that have indexes of their widths. -/
theorem abs_reference_le {scheme : LineScheme} (hscheme : scheme ≠ .split) {choice : ℕ → ℕ} {i : ℕ}
    (hi : i ≤ 10) (hchoice : ∀ k, k < i → choice k < 2 ^ scheme.width k) :
    |scheme.reference choice i| ≤ 4000 * i := by
  cases scheme with
  | difference =>
      refine (abs_sum_le_sum_abs _ _).trans ?_
      have hterm : ∀ k ∈ range i, |difference.frequency k (choice k)| ≤ 4000 := by
        intro k hk
        rw [mem_range] at hk
        exact abs_frequency_le hscheme (by omega) (hchoice k hk)
      refine (sum_le_sum hterm).trans ?_
      rw [sum_const, card_range, nsmul_eq_mul, mul_comm]
  | _ =>
      rw [reference, abs_zero]
      positivity

/-! ### Decoding -/

/-- The index that the decoder takes a number for: the nearest one inside the codebook. -/
def clampedIndex (scheme : LineScheme) (indexes : Array ℤ) (i : ℕ) : ℕ :=
  min (indexes.getD i 0).toNat (2 ^ scheme.width i - 1)

theorem clampedIndex_lt (scheme : LineScheme) (indexes : Array ℤ) (i : ℕ) :
    scheme.clampedIndex indexes i < 2 ^ scheme.width i := by
  have hpos : 0 < 2 ^ scheme.width i := Nat.two_pow_pos _
  unfold clampedIndex
  omega

/-- The lines in radians that indexes are rebuilt to. -/
noncomputable def rebuiltLines (scheme : LineScheme) (choice : ℕ → ℕ) : Array ℝ :=
  (Array.range 10).map fun i => scheme.rebuilt choice i * radPerHz

theorem toHz_rebuiltLines (scheme : LineScheme) (choice : ℕ → ℕ) {i : ℕ} (hi : i < 10) :
    toHz (line (scheme.rebuiltLines choice) i) = scheme.rebuilt choice i := by
  rw [← toHz_mul_radPerHz (scheme.rebuilt choice i)]
  simp [rebuiltLines, line, hi]

/-- What both decoders read for a line: its codebook, its index and the frequency of the index. -/
theorem exists_decoded_level {scheme : LineScheme} (hscheme : scheme ≠ .split) {indexes : Array ℤ}
    (h : indexes.size = 10) {i : ℕ} (hi : i < 10) :
    ∃ book index, fetch scheme.lineBooks i = .ok book ∧ fetch indexes i = .ok index ∧
      book.entry (book.clamp index) =
        .ok #[scheme.frequency i (scheme.clampedIndex indexes i)] := by
  obtain ⟨book, hsome, hbook, hfrequency⟩ := exists_book hscheme hi
  obtain ⟨index, hindex, hat⟩ := yields_fetch_at rfl (show i < indexes.size by omega)
  have hclamped : scheme.clampedIndex indexes i = min index.toNat (2 ^ scheme.width i - 1) := by
    simp [clampedIndex, hat]
  refine ⟨book, index, fetch_eq_ok.mpr ⟨Int.natCast_nonneg i, hsome⟩, hindex, ?_⟩
  rw [hbook.entry_clamp index, hclamped, hfrequency]

theorem decodeScalar_eq {indexes : Array ℤ} (h : indexes.size = 10) :
    (decodeScalar indexes : Except Fault (Array ℝ)) =
      .ok (scalar.rebuiltLines (scalar.clampedIndex indexes)) := by
  refine tabulate_eq_map fun i hi => ?_
  have hi : i < 10 := hi
  obtain ⟨book, index, hbook, hindex, hentry⟩ :=
    exists_decoded_level (show scalar ≠ split by decide) h hi
  refine bind_eq_ok.mpr ⟨book, hbook, bind_eq_ok.mpr ⟨index, hindex, ?_⟩⟩
  rw [hentry]
  simp [rebuilt, reference, fetch, bind, Except.bind, pure, Except.pure]

theorem decodeDifference_eq {indexes : Array ℤ} (h : indexes.size = 10) :
    (decodeDifference indexes : Except Fault (Array ℝ)) =
      .ok (difference.rebuiltLines (difference.clampedIndex indexes)) := by
  set choice := difference.clampedIndex indexes with hchoice
  refine bind_eq_ok.mpr ⟨_, foldBetween_eq_state 10
    (fun k => ((Array.range k).map fun i => difference.rebuilt choice i * radPerHz,
      difference.reference choice k)) (by norm_num [reference]) ?_, rfl⟩
  intro k hk
  obtain ⟨book, index, hbook, hindex, hentry⟩ :=
    exists_decoded_level (show difference ≠ split by decide) h hk
  refine bind_eq_ok.mpr ⟨book, hbook, bind_eq_ok.mpr ⟨index, hindex, bind_eq_ok.mpr
    ⟨_, hentry, bind_eq_ok.mpr ⟨_, rfl, ?_⟩⟩⟩⟩
  rw [← hchoice, reference_succ, Array.range_succ, Array.map_append, pure_eq_ok]
  simp [rebuilt]

theorem decode_eq {scheme : LineScheme} (hscheme : scheme ≠ .split) {indexes : Array ℤ}
    (h : indexes.size = 10) :
    scheme.decode indexes = .ok (scheme.rebuiltLines (scheme.clampedIndex indexes)) := by
  cases scheme with
  | scalar => exact decodeScalar_eq h
  | difference => exact decodeDifference_eq h
  | split => exact absurd rfl hscheme

/-- The indexes of all lines as a list. -/
def indexList (choice : ℕ → ℕ) : List ℤ := (List.range 10).map fun i => (choice i : ℤ)

/-- Indexes inside their codebooks are rebuilt as they are. -/
theorem decode_indexList {scheme : LineScheme} (hscheme : scheme ≠ .split) {choice : ℕ → ℕ}
    (hchoice : ∀ i, i < 10 → choice i < 2 ^ scheme.width i) :
    scheme.decode (indexList choice).toArray = .ok (scheme.rebuiltLines choice) := by
  rw [decode_eq hscheme (by simp [indexList])]
  have hclamped : ∀ i, i < 10 → scheme.clampedIndex (indexList choice).toArray i = choice i := by
    intro i hi
    have hlt := hchoice i hi
    have hmin : min (choice i) (2 ^ scheme.width i - 1) = choice i := by omega
    simp [clampedIndex, indexList, hi, hmin]
  refine congrArg Except.ok (Array.map_congr_left fun i hi => ?_)
  have hi : i < 10 := by simpa using hi
  rw [scheme.rebuilt_congr fun k hk => hclamped k (by omega)]

/-! ### Encoding -/

/-- An index that the search takes for a frequency of a line. -/
structure Takes (scheme : LineScheme) (i : ℕ) (hz : ℝ) (n : ℕ) : Prop where
  first : FirstLeast (fun j => (scheme.frequency i j - hz) ^ 2) (2 ^ scheme.width i) n
  coded : ∃ book, scheme.lineBooks[i]? = some book ∧ book.entry n = .ok #[scheme.frequency i n] ∧
    ∀ errors, quantise book.values #[hz] #[1.0] book.dim book.size errors =
      .ok ((n : ℤ), errors + (scheme.frequency i n - hz) ^ 2)

theorem exists_takes {scheme : LineScheme} (hscheme : scheme ≠ .split) {i : ℕ} (hi : i < 10)
    {hz : ℝ} (hhz : |hz| ≤ 10 ^ 9) : ∃ n, scheme.Takes i hz n := by
  obtain ⟨book, hsome, hbook, hfrequency⟩ := exists_book hscheme hi
  obtain ⟨n, hfirst, hquantise⟩ := hbook.exists_quantise hhz
  rw [← hfrequency] at hfirst hquantise
  refine ⟨n, hfirst, book, hsome, ?_, hquantise⟩
  rw [hfrequency]
  exact hbook.entry_eq hfirst.lt

/-- Indexes that are taken one after the other, each for what its line is above its reference. -/
def Codes (scheme : LineScheme) (hz : ℕ → ℝ) (choice : ℕ → ℕ) (count : ℕ) : Prop :=
  ∀ i, i < count → scheme.Takes i (hz i - scheme.reference choice i) (choice i)

theorem exists_codes {scheme : LineScheme} (hscheme : scheme ≠ .split) {hz : ℕ → ℝ}
    (hhz : ∀ i, i < 10 → |hz i| ≤ 10 ^ 6) {count : ℕ} (hcount : count ≤ 10) :
    ∃ choice, scheme.Codes hz choice count := by
  induction count with
  | zero => exact ⟨fun _ => 0, fun i hi => absurd hi (Nat.not_lt_zero i)⟩
  | succ count ih =>
      obtain ⟨choice, hcodes⟩ := ih (by omega)
      have hreference := abs_reference_le hscheme (i := count) (by omega)
        fun k hk => (hcodes k hk).first.lt
      have hcount' : (count : ℝ) ≤ 10 := by exact_mod_cast (show count ≤ 10 by omega)
      have hnear : |hz count - scheme.reference choice count| ≤ 10 ^ 9 := by
        refine (abs_sub _ _).trans ?_
        linarith [hhz count (by omega)]
      obtain ⟨n, hn⟩ := exists_takes hscheme (show count < 10 by omega) hnear
      have hbefore : ∀ k, k < count → Function.update choice count n k = choice k :=
        fun k hk => Function.update_of_ne hk.ne n choice
      refine ⟨Function.update choice count n, fun i hi => ?_⟩
      rw [scheme.reference_congr fun k hk => hbefore k (by omega)]
      rcases Nat.lt_succ_iff_lt_or_eq.mp hi with hlt | rfl
      · rw [hbefore i hlt]
        exact hcodes i hlt
      · rwa [Function.update_self]

/-- Given the indexes before it, each index brings its line as near as any other does. -/
theorem Codes.firstLeast {scheme : LineScheme} {hz : ℕ → ℝ} {choice : ℕ → ℕ} {count i : ℕ}
    (h : scheme.Codes hz choice count) (hi : i < count) :
    FirstLeast (fun j => (scheme.reference choice i + scheme.frequency i j - hz i) ^ 2)
      (2 ^ scheme.width i) (choice i) := by
  refine (h i hi).first.of_le_iff fun j k _ _ => ?_
  have hcost : ∀ j, scheme.frequency i j - (hz i - scheme.reference choice i) =
      scheme.reference choice i + scheme.frequency i j - hz i := fun j => by ring
  simp only [hcost]

/-- The error of the lines that are rebuilt from indexes, in Hz squared. -/
noncomputable def codingError (scheme : LineScheme) (hz : ℕ → ℝ) (choice : ℕ → ℕ) (count : ℕ) : ℝ :=
  ∑ i ∈ range count, (scheme.rebuilt choice i - hz i) ^ 2

/-- The error of an index is the error of its line, whatever the line is counted from. -/
theorem codingError_succ (scheme : LineScheme) (hz : ℕ → ℝ) (choice : ℕ → ℕ) (i : ℕ) :
    scheme.codingError hz choice (i + 1) = scheme.codingError hz choice i +
      (scheme.frequency i (choice i) - (hz i - scheme.reference choice i)) ^ 2 := by
  rw [codingError, sum_range_succ, codingError, rebuilt]
  ring

/-- The frequencies of lines. -/
noncomputable def hzOf (lines : Array ℝ) (i : ℕ) : ℝ := toHz (line lines i)

/-- The indexes of the first lines, the last one first. -/
def indexStack (choice : ℕ → ℕ) (count : ℕ) : List ℤ :=
  ((List.range count).map fun i => (choice i : ℤ)).reverse

theorem indexStack_succ (choice : ℕ → ℕ) (count : ℕ) :
    indexStack choice (count + 1) = (choice count : ℤ) :: indexStack choice count := by
  rw [indexStack, List.range_succ, List.map_append, List.reverse_append]
  rfl

theorem reverse_indexStack (choice : ℕ → ℕ) : (indexStack choice 10).reverse = indexList choice :=
  List.reverse_reverse _

/-- What the encoder does for one line. -/
theorem Codes.exists_quantise {scheme : LineScheme} {lines : Array ℝ} {choice : ℕ → ℕ}
    (hsize : lines.size = 10) (h : scheme.Codes (hzOf lines) choice 10) {k : ℕ} (hk : k < 10) :
    ∃ book, fetch scheme.lineBooks k = .ok book ∧ fetch lines k = .ok (line lines k) ∧
      book.entry (choice k) = .ok #[scheme.frequency k (choice k)] ∧
      quantise book.values #[hzOf lines k - scheme.reference choice k] #[1.0] book.dim book.size
        (scheme.codingError (hzOf lines) choice k) =
          .ok ((choice k : ℤ), scheme.codingError (hzOf lines) choice (k + 1)) := by
  obtain ⟨book, hsome, hentry, hquantise⟩ := (h k hk).coded
  obtain ⟨_, hx, rfl⟩ := yields_fetch_line rfl (show k < lines.size by omega)
  refine ⟨book, fetch_eq_ok.mpr ⟨Int.natCast_nonneg k, hsome⟩, hx, hentry, ?_⟩
  rw [hquantise, codingError_succ]

theorem encodeScalar_eq {lines : Array ℝ} {choice : ℕ → ℕ} (hsize : lines.size = 10)
    (h : scalar.Codes (hzOf lines) choice 10) :
    encodeScalar lines = .ok (indexList choice, scalar.codingError (hzOf lines) choice 10) := by
  refine bind_eq_ok.mpr ⟨_, foldBetween_eq_state 10 (fun k => (indexStack choice k,
    scalar.codingError (hzOf lines) choice k)) (by norm_num [codingError, indexStack]) ?_,
    pure_eq_ok.mpr (by rw [reverse_indexStack])⟩
  intro k hk
  obtain ⟨book, hbook, hx, -, hquantise⟩ := h.exists_quantise hsize hk
  rw [show hzOf lines k - scalar.reference choice k = hzOf lines k from sub_zero _] at hquantise
  rw [indexStack_succ]
  exact bind_eq_ok.mpr ⟨book, hbook, bind_eq_ok.mpr ⟨_, hx, bind_eq_ok.mpr ⟨_, hquantise, rfl⟩⟩⟩

theorem encodeDifference_eq {lines : Array ℝ} {choice : ℕ → ℕ} (hsize : lines.size = 10)
    (h : difference.Codes (hzOf lines) choice 10) :
    encodeDifference lines =
      .ok (indexList choice, difference.codingError (hzOf lines) choice 10) := by
  refine bind_eq_ok.mpr ⟨_, foldBetween_eq_state 10 (fun k => (indexStack choice k,
    difference.reference choice k, difference.codingError (hzOf lines) choice k))
    (by norm_num [codingError, reference, indexStack]) ?_,
    pure_eq_ok.mpr (by rw [reverse_indexStack])⟩
  intro k hk
  obtain ⟨book, hbook, hx, hentry, hquantise⟩ := h.exists_quantise hsize hk
  rw [indexStack_succ, reference_succ]
  exact bind_eq_ok.mpr ⟨book, hbook, bind_eq_ok.mpr ⟨_, hx, bind_eq_ok.mpr ⟨_, hquantise,
    bind_eq_ok.mpr ⟨_, hentry, bind_eq_ok.mpr ⟨_, rfl, rfl⟩⟩⟩⟩⟩

/-- Ten lines that are not out of reach of the search are coded index by index, and the error is
that of the lines which the indexes are rebuilt to. -/
theorem exists_encode {scheme : LineScheme} (hscheme : scheme ≠ .split) {lines : Array ℝ}
    (hsize : lines.size = 10) (hreach : ∀ i, i < 10 → |hzOf lines i| ≤ 10 ^ 6) :
    ∃ choice, scheme.Codes (hzOf lines) choice 10 ∧ scheme.encode lines =
      .ok (indexList choice, scheme.codingError (hzOf lines) choice 10) := by
  obtain ⟨choice, hcodes⟩ := exists_codes hscheme hreach le_rfl
  refine ⟨choice, hcodes, ?_⟩
  cases scheme with
  | scalar => exact encodeScalar_eq hsize hcodes
  | difference => exact encodeDifference_eq hsize hcodes
  | split => exact absurd rfl hscheme

/-! ### The reported error -/

/-- The sum of the squared errors in Hz of decoded lines against the lines that were coded. -/
noncomputable def distortion (decoded lines : Array ℝ) : ℝ :=
  ∑ i ∈ range lines.size, (toHz (line decoded i) - toHz (line lines i)) ^ 2

theorem distortion_rebuiltLines (scheme : LineScheme) (choice : ℕ → ℕ) {lines : Array ℝ}
    (hsize : lines.size = 10) :
    distortion (scheme.rebuiltLines choice) lines = scheme.codingError (hzOf lines) choice 10 := by
  rw [distortion, hsize, codingError]
  refine sum_congr rfl fun i hi => ?_
  rw [scheme.toHz_rebuiltLines choice (mem_range.mp hi), hzOf]

/-- The split scheme reports the error of the lines that it rebuilds. -/
theorem encodeSplit_distortion {lines : Array ℝ} {indexes : List ℤ} {errors : ℝ}
    (hsize : lines.size = 10) (hdone : encodeSplit lines = .ok (indexes, errors)) :
    ∃ decoded, decodeSplit indexes.toArray = .ok decoded ∧ decoded.size = 10 ∧
      errors = distortion decoded lines := by
  obtain ⟨w, -, hdone⟩ := bind_eq_ok.mp hdone
  obtain ⟨first, -, hdone⟩ := bind_eq_ok.mp hdone
  obtain ⟨position, -, hdone⟩ := bind_eq_ok.mp hdone
  obtain ⟨even, -, hdone⟩ := bind_eq_ok.mp hdone
  obtain ⟨evenWeight, -, hdone⟩ := bind_eq_ok.mp hdone
  obtain ⟨second, -, hdone⟩ := bind_eq_ok.mp hdone
  obtain ⟨odd, -, hdone⟩ := bind_eq_ok.mp hdone
  obtain ⟨oddWeight, -, hdone⟩ := bind_eq_ok.mp hdone
  obtain ⟨third, -, hdone⟩ := bind_eq_ok.mp hdone
  obtain ⟨decoded, hdecoded, hdone⟩ := bind_eq_ok.mp hdone
  obtain ⟨total, htotal, hdone⟩ := bind_eq_ok.mp hdone
  cases hdone
  have hcount : decoded.size = 10 := (yields_decodeSplit rfl).of_eq hdecoded
  have hsum : sumBetween 0 lines.size (0.0 : ℝ) (fun i => do
      let line ← if i < decoded.size then fetch decoded i else pure 0.0
      let d := toHz (line - (← fetch lines i))
      return d * d) = .ok (distortion decoded lines) := by
    refine sumBetween_zero_eq fun i hi => ?_
    obtain ⟨_, hrebuilt, rfl⟩ := yields_fetch_line rfl (show i < decoded.size by omega)
    obtain ⟨_, hwanted, rfl⟩ := yields_fetch_line rfl hi
    rw [if_pos (by omega), hrebuilt, hwanted, ← toHz_sub, sq]
    rfl
  exact ⟨decoded, hdecoded, hcount, Except.ok.inj (htotal.symm.trans hsum)⟩

/-- The error that the encoder reports is that of the lines which the decoder rebuilds, for every
scheme. For lines that are coded by their own frequencies, no other indexes have a smaller error. -/
theorem reported_error_is_decoded_error (scheme : LineScheme) {lines : Array ℝ}
    (hsize : lines.size = 10) (hband : ∀ x ∈ lines, 0 ≤ x ∧ x ≤ Real.pi) :
    ∃ indexes errors decoded, scheme.encode lines = .ok (indexes, errors) ∧
      List.Forall₂ Fits indexes scheme.widths ∧
      scheme.decode indexes.toArray = .ok decoded ∧ decoded.size = 10 ∧
      errors = distortion decoded lines ∧
      (scheme = .scalar → IsLeast {error | ∃ (others : Array ℤ) (found : Array ℝ),
        others.size = 10 ∧ scheme.decode others = .ok found ∧ error = distortion found lines}
        errors) := by
  rcases eq_or_ne scheme .split with rfl | hscheme
  · obtain ⟨⟨indexes, errors⟩, hdone, -⟩ := split.yields_encode hsize
    obtain ⟨decoded, hdecoded, hcount, herrors⟩ := encodeSplit_distortion hsize hdone
    exact ⟨indexes, errors, decoded, hdone, encode_fits hdone, hdecoded, hcount, herrors,
      fun h => by cases h⟩
  · have hreach : ∀ i, i < 10 → |hzOf lines i| ≤ 10 ^ 6 := by
      intro i hi
      have hi' : i < lines.size := by omega
      have hline : line lines i = lines[i] := by simp [line, hi']
      obtain ⟨hlow, hhigh⟩ := hband lines[i] (Array.getElem_mem hi')
      rw [hzOf, hline]
      exact (abs_toHz_le hlow hhigh).trans (by norm_num)
    obtain ⟨choice, hcodes, hdone⟩ := exists_encode hscheme hsize hreach
    have hdecoded := decode_indexList hscheme fun i hi => (hcodes i hi).first.lt
    have herrors := scheme.distortion_rebuiltLines choice hsize
    refine ⟨_, _, _, hdone, encode_fits hdone, hdecoded, by simp [rebuiltLines], herrors.symm,
      fun h => ⟨⟨_, _, by simp [indexList], hdecoded, herrors.symm⟩, ?_⟩⟩
    rintro _ ⟨others, found, hothers, hfound, rfl⟩
    rw [decode_eq hscheme hothers] at hfound
    obtain rfl := Except.ok.inj hfound
    rw [scheme.distortion_rebuiltLines _ hsize, codingError, codingError]
    -- Every line is counted from zero, so each index can be compared on its own.
    refine sum_le_sum fun i hi => ?_
    subst h
    exact (hcodes.firstLeast (mem_range.mp hi)).least _ (clampedIndex_lt .scalar others i)

/-- Lines at both ends of the band in turn, so that every other distance is negative. -/
theorem reported_error_is_decoded_error_ends :
    (#[0, Real.pi, 0, Real.pi, 0, Real.pi, 0, Real.pi, 0, Real.pi] : Array ℝ).size = 10 ∧
    (∀ x ∈ (#[0, Real.pi, 0, Real.pi, 0, Real.pi, 0, Real.pi, 0, Real.pi] : Array ℝ),
      0 ≤ x ∧ x ≤ Real.pi) ∧
    ∀ scheme : LineScheme, ∃ indexes errors decoded,
      scheme.encode #[0, Real.pi, 0, Real.pi, 0, Real.pi, 0, Real.pi, 0, Real.pi] =
        .ok (indexes, errors) ∧
      scheme.decode indexes.toArray = .ok decoded ∧
      errors = distortion decoded
        #[0, Real.pi, 0, Real.pi, 0, Real.pi, 0, Real.pi, 0, Real.pi] := by
  have hband : ∀ x ∈ (#[0, Real.pi, 0, Real.pi, 0, Real.pi, 0, Real.pi, 0, Real.pi] : Array ℝ),
      0 ≤ x ∧ x ≤ Real.pi := by
    simp [Real.pi_nonneg]
  refine ⟨rfl, hband, fun scheme => ?_⟩
  obtain ⟨indexes, errors, decoded, hdone, -, hdecoded, -, herrors, -⟩ :=
    reported_error_is_decoded_error scheme rfl hband
  exact ⟨indexes, errors, decoded, hdone, hdecoded, herrors⟩

/-! ### Coding again -/

/-- Lines that were rebuilt are coded by the indexes they were rebuilt from. -/
theorem Codes.eq_of_rebuilt {scheme : LineScheme} (hscheme : scheme ≠ .split)
    {choice choice' : ℕ → ℕ} {hz : ℕ → ℝ} {count : ℕ} (hcount : count ≤ 10)
    (hchoice : ∀ i, i < count → choice i < 2 ^ scheme.width i)
    (hhz : ∀ i, i < count → hz i = scheme.rebuilt choice i)
    (h : scheme.Codes hz choice' count) : ∀ i, i < count → choice' i = choice i := by
  intro i
  -- The lines before have the same indexes, so both sides count this line from the same frequency.
  induction i using Nat.strong_induction_on with
  | _ i ih =>
    intro hi
    obtain ⟨book, -, hbook, hfrequency⟩ := exists_book hscheme (show i < 10 by omega)
    have hfirst := h.firstLeast hi
    rw [scheme.reference_congr fun k hk => ih k hk (by omega)] at hfirst
    have hleast := hfirst.least (choice i) (hchoice i hi)
    rw [hhz i hi, rebuilt, sub_self, zero_pow two_ne_zero] at hleast
    have hzero := pow_eq_zero_iff two_ne_zero |>.mp (le_antisymm hleast (sq_nonneg _))
    have hsame : scheme.frequency i (choice' i) = scheme.frequency i (choice i) := by linarith
    rw [hfrequency] at hsame
    exact hbook.injective _ _ hfirst.lt (hchoice i hi) hsame

/-- Lists of indexes that fit the fields of a scheme are those of indexes inside the codebooks. -/
theorem exists_indexList {scheme : LineScheme} (hscheme : scheme ≠ .split) {indexes : List ℤ}
    (h : List.Forall₂ Fits indexes scheme.widths) :
    ∃ choice, indexes = indexList choice ∧ ∀ i, i < 10 → choice i < 2 ^ scheme.width i := by
  have hwidths : scheme.widths.length = 10 := by
    cases scheme with
    | scalar => rfl
    | difference => rfl
    | split => exact absurd rfl hscheme
  have hlength : indexes.length = 10 := h.length_eq.trans hwidths
  have hfits : ∀ i, i < 10 → Fits (indexes.getD i 0) (scheme.width i) := by
    intro i hi
    have hget := h.get (i := i) (by omega) (by omega)
    simpa [width, hlength, hwidths, hi] using hget
  refine ⟨fun i => (indexes.getD i 0).toNat, ?_, fun i hi => ?_⟩
  · apply List.ext_getElem
    · simp [indexList, hlength]
    · intro i hi hi'
      have hnonneg := (hfits i (by omega)).1
      rw [List.getD_eq_getElem _ _ hi] at hnonneg
      simp [indexList, hi, hnonneg]
  · obtain ⟨hlow, hhigh⟩ := hfits i hi
    have hcast : ((2 ^ scheme.width i : ℕ) : ℤ) = 2 ^ scheme.width i := by push_cast; rfl
    dsimp only
    omega

theorem encode_rebuiltLines {scheme : LineScheme} (hscheme : scheme ≠ .split) {choice : ℕ → ℕ}
    (hchoice : ∀ i, i < 10 → choice i < 2 ^ scheme.width i) :
    scheme.encode (scheme.rebuiltLines choice) = .ok (indexList choice, 0) := by
  have hhz : ∀ i, i < 10 → hzOf (scheme.rebuiltLines choice) i = scheme.rebuilt choice i :=
    fun i hi => scheme.toHz_rebuiltLines choice hi
  have hreach : ∀ i, i < 10 → |hzOf (scheme.rebuiltLines choice) i| ≤ 10 ^ 6 := by
    intro i hi
    have hreference := abs_reference_le hscheme hi.le fun k hk => hchoice k (by omega)
    have hfrequency := abs_frequency_le hscheme hi (hchoice i hi)
    have hi' : (i : ℝ) ≤ 10 := by exact_mod_cast hi.le
    rw [hhz i hi, rebuilt]
    refine (abs_add_le _ _).trans ?_
    linarith
  obtain ⟨choice', hcodes, hdone⟩ := exists_encode hscheme (by simp [rebuiltLines]) hreach
  have hsame := hcodes.eq_of_rebuilt hscheme le_rfl hchoice hhz
  have hindexes : indexList choice' = indexList choice :=
    List.map_congr_left fun i hi => by rw [hsame i (List.mem_range.mp hi)]
  have herrors : scheme.codingError (hzOf (scheme.rebuiltLines choice)) choice' 10 = 0 := by
    refine sum_eq_zero fun i hi => ?_
    rw [mem_range] at hi
    rw [hhz i hi, scheme.rebuilt_congr fun k hk => hsame k (by omega), sub_self,
      zero_pow two_ne_zero]
  rw [hdone, hindexes, herrors]

/-- Decoded lines are coded by the indexes they come from, without an error, for both schemes that
code line by line and all indexes inside the codebooks, also where the lines run out of the band. So
different indexes are decoded to different lines. -/
theorem recoding_decoded_lines_lossless {scheme : LineScheme} (hscheme : scheme ≠ .split) :
    (∀ indexes : List ℤ, List.Forall₂ Fits indexes scheme.widths →
      ∃ lines : Array ℝ, scheme.decode indexes.toArray = .ok lines ∧
        scheme.encode lines = .ok (indexes, 0)) ∧
    Set.InjOn (fun indexes : List ℤ => (scheme.decode indexes.toArray : Except Fault (Array ℝ)))
      {indexes | List.Forall₂ Fits indexes scheme.widths} := by
  have hrecode : ∀ indexes : List ℤ, List.Forall₂ Fits indexes scheme.widths →
      ∃ lines : Array ℝ, scheme.decode indexes.toArray = .ok lines ∧
        scheme.encode lines = .ok (indexes, 0) := by
    intro indexes hindexes
    obtain ⟨choice, rfl, hchoice⟩ := exists_indexList hscheme hindexes
    exact ⟨_, decode_indexList hscheme hchoice, encode_rebuiltLines hscheme hchoice⟩
  refine ⟨hrecode, fun indexes hindexes others hothers hsame => ?_⟩
  obtain ⟨lines, hlines, hcoded⟩ := hrecode indexes hindexes
  obtain ⟨lines', hlines', hcoded'⟩ := hrecode others hothers
  have hequal : lines = lines' := Except.ok.inj (hlines.symm.trans (hsame.trans hlines'))
  subst hequal
  exact (Prod.mk.inj (Except.ok.inj (hcoded.symm.trans hcoded'))).1

/-- The greatest distances of all lines, whose sum is far above half the sampling rate. -/
theorem recoding_decoded_lines_lossless_top :
    LineScheme.difference ≠ .split ∧
    List.Forall₂ Fits (List.replicate 10 31) LineScheme.difference.widths ∧
    ∃ lines : Array ℝ, LineScheme.difference.decode (List.replicate 10 31).toArray = .ok lines ∧
      LineScheme.difference.encode lines = .ok (List.replicate 10 31, 0) := by
  have hfits : List.Forall₂ Fits (List.replicate 10 31) LineScheme.difference.widths := by
    simp [Fits, List.replicate, widths]
  exact ⟨by decide, hfits, (recoding_decoded_lines_lossless (by decide)).1 _ hfits⟩

end LineScheme

end Vocoder
