import Vocoder.Proofs.DecodedLines
import Vocoder.Proofs.FirstNearest

/-!
Search of the product codebooks, over the real numbers. An index of a product is a number with one
digit for each factor, and every choice of digits is an index. A distance is the sum of what each
factor adds to it. So the nearest entries of a product are those with a nearest level of every
factor, and the first of them has the first nearest level of every factor.
-/

namespace Vocoder

namespace Product

open Finset

/-! ### Digits -/

/-- A size of a factor: a power of two that a signed word of 64 bits holds. -/
def IsSize (size : ℤ) : Prop := ∃ w : ℕ, w ≤ 62 ∧ size = 2 ^ w

theorem IsSize.pos {size : ℤ} (h : IsSize size) : 0 < size := by
  obtain ⟨w, -, rfl⟩ := h
  positivity

theorem log2_two_pow (w : ℕ) : log2 (2 ^ w) = w := by
  unfold log2
  split_ifs with hone
  · by_contra hne
    have htwo : (2 : ℤ) ^ 1 ≤ 2 ^ w := pow_le_pow_right₀ (by decide) (by omega)
    omega
  · have htoNat : ((2 : ℤ) ^ w).toNat = 2 ^ w := by
      rw [show (2 : ℤ) ^ w = ((2 ^ w : ℕ) : ℤ) by push_cast; rfl, Int.toNat_natCast]
    rw [htoNat, Nat.log2_two_pow]

theorem common_two_pow_sub_one (a : ℤ) {w : ℕ} (hw : w ≤ 62) :
    common a (2 ^ w - 1) = a % 2 ^ w := by
  have hpow : 2 ^ w ≤ 2 ^ 62 := Nat.pow_le_pow_right (by decide) hw
  have hpos : 0 < 2 ^ w := Nat.two_pow_pos w
  have hcast : (2 : ℤ) ^ w - 1 = ((2 ^ w - 1 : ℕ) : ℤ) := by
    rw [Nat.cast_sub hpos]
    push_cast
    rfl
  have hmask : (BitVec.ofInt 64 (2 ^ w - 1)).toNat = 2 ^ w - 1 := by
    rw [BitVec.toNat_ofInt, hcast]
    omega
  have hand : (Int64.ofInt a &&& Int64.ofInt (2 ^ w - 1)).toBitVec.toNat =
      (a % 2 ^ 64).toNat % 2 ^ w := by
    rw [Int64.toBitVec_and, BitVec.toNat_and, Int64.toBitVec_ofInt, Int64.toBitVec_ofInt, hmask,
      Nat.and_two_pow_sub_one_eq_mod, BitVec.toNat_ofInt]
    rfl
  have hlt : (Int64.ofInt a &&& Int64.ofInt (2 ^ w - 1)).toBitVec.toNat < 2 ^ 62 := by
    rw [hand]
    exact (Nat.mod_lt _ hpos).trans_le hpow
  have hdvd : (2 : ℤ) ^ w ∣ 2 ^ 64 := pow_dvd_pow 2 (by omega)
  have hcommon : common a (2 ^ w - 1) =
      (Int64.ofInt a &&& Int64.ofInt (2 ^ w - 1)).toBitVec.toNat :=
    BitVec.toInt_eq_toNat_of_lt (by omega)
  rw [hcommon, hand, Int.natCast_mod, Int.toNat_of_nonneg (Int.emod_nonneg a (by decide)),
    Nat.cast_pow, Nat.cast_ofNat, Int.emod_emod_of_dvd a hdvd]

theorem digit_cons_zero {size : ℤ} (hsize : IsSize size) (n : ℤ) (sizes : List ℤ) :
    digit n (size :: sizes) 0 = n % size := by
  obtain ⟨w, hw, rfl⟩ := hsize
  simp only [digit, List.take_zero, List.map_nil, List.foldr_nil, List.getD_cons_zero]
  rw [common_two_pow_sub_one _ hw, Int.shiftRight_zero]

theorem digit_cons_succ {size : ℤ} (hsize : IsSize size) (n : ℤ) (sizes : List ℤ) (d : ℕ) :
    digit n (size :: sizes) (d + 1) = digit (n / size) sizes d := by
  obtain ⟨w, -, rfl⟩ := hsize
  simp only [digit, List.take_succ_cons, List.map_cons, List.foldr_cons, List.getD_cons_succ,
    log2_two_pow, Int.shiftRight_add]
  rw [Int.shiftRight_eq_div_pow n w]
  rfl

/-- The number with the given digits in a product of factors of the given sizes. -/
def number (sizes : List ℤ) (digits : ℕ → ℤ) : ℤ :=
  ∑ d ∈ range sizes.length, digits d * (sizes.take d).prod

theorem number_cons (size : ℤ) (sizes : List ℤ) (digits : ℕ → ℤ) :
    number (size :: sizes) digits = digits 0 + size * number sizes fun d => digits (d + 1) := by
  rw [number, List.length_cons, sum_range_succ', number, mul_sum, add_comm]
  simp only [List.take_zero, List.prod_nil, mul_one, List.take_succ_cons, List.prod_cons]
  refine congrArg _ (sum_congr rfl fun d _ => ?_)
  ring

/-- Digits that are inside their factors. -/
def Within (sizes : List ℤ) (digits : ℕ → ℤ) : Prop :=
  ∀ d size, sizes[d]? = some size → 0 ≤ digits d ∧ digits d < size

theorem Within.tail {size : ℤ} {sizes : List ℤ} {digits : ℕ → ℤ}
    (h : Within (size :: sizes) digits) : Within sizes fun d => digits (d + 1) :=
  fun d size hsize => h (d + 1) size hsize

theorem within_digit {sizes : List ℤ} (hsizes : ∀ size ∈ sizes, IsSize size) (n : ℤ) :
    Within sizes (digit n sizes) := by
  induction sizes generalizing n with
  | nil => exact fun d size hsize => by simp at hsize
  | cons first sizes ih =>
      obtain ⟨hfirst, hrest⟩ := List.forall_mem_cons.mp hsizes
      intro d size hsize
      cases d with
      | zero =>
          obtain rfl : first = size := by simpa using hsize
          rw [digit_cons_zero hfirst]
          exact ⟨Int.emod_nonneg n hfirst.pos.ne', Int.emod_lt_of_pos n hfirst.pos⟩
      | succ d =>
          rw [digit_cons_succ hfirst]
          exact ih hrest _ d size hsize

/-- A number of a product has its digits. -/
theorem number_digit {sizes : List ℤ} (hsizes : ∀ size ∈ sizes, IsSize size) {n : ℤ} (hlow : 0 ≤ n)
    (hhigh : n < sizes.prod) : number sizes (digit n sizes) = n := by
  induction sizes generalizing n with
  | nil =>
      rw [List.prod_nil] at hhigh
      rw [show n = 0 by omega]
      rfl
  | cons first sizes ih =>
      obtain ⟨hfirst, hrest⟩ := List.forall_mem_cons.mp hsizes
      rw [List.prod_cons, mul_comm] at hhigh
      rw [number_cons, digit_cons_zero hfirst]
      simp only [digit_cons_succ hfirst]
      rw [ih hrest (Int.ediv_nonneg hlow hfirst.pos.le) (Int.ediv_lt_of_lt_mul hfirst.pos hhigh),
        Int.emod_add_mul_ediv]

theorem number_bounds {sizes : List ℤ} {digits : ℕ → ℤ} (h : Within sizes digits) :
    0 ≤ number sizes digits ∧ number sizes digits < sizes.prod := by
  induction sizes generalizing digits with
  | nil => exact ⟨le_rfl, Int.one_pos⟩
  | cons first sizes ih =>
      obtain ⟨hlow, hhigh⟩ := ih h.tail
      obtain ⟨hdigit, hdigit'⟩ := h 0 first rfl
      rw [number_cons, List.prod_cons]
      constructor
      · nlinarith
      · nlinarith

/-- Digits inside their factors are the digits of their number. -/
theorem digit_number {sizes : List ℤ} (hsizes : ∀ size ∈ sizes, IsSize size) {digits : ℕ → ℤ}
    (h : Within sizes digits) {d : ℕ} (hd : d < sizes.length) :
    digit (number sizes digits) sizes d = digits d := by
  induction sizes generalizing digits d with
  | nil => exact absurd hd (Nat.not_lt_zero d)
  | cons first sizes ih =>
      obtain ⟨hfirst, hrest⟩ := List.forall_mem_cons.mp hsizes
      obtain ⟨hdigit, hdigit'⟩ := h 0 first rfl
      rw [number_cons]
      cases d with
      | zero =>
          rw [digit_cons_zero hfirst, Int.add_mul_emod_self_left, Int.emod_eq_of_lt hdigit hdigit']
      | succ d =>
          rw [digit_cons_succ hfirst, Int.add_mul_ediv_left _ _ hfirst.pos.ne',
            Int.ediv_eq_zero_of_lt hdigit hdigit', zero_add]
          exact ih hrest h.tail (by simpa using hd)

theorem bijOn_digit {sizes : List ℤ} (hsizes : ∀ size ∈ sizes, IsSize size) :
    Set.BijOn (fun n (d : Fin sizes.length) => digit n sizes d) (Set.Ico 0 sizes.prod)
      {digits | ∀ d, 0 ≤ digits d ∧ digits d < sizes.get d} := by
  refine ⟨fun n _ d => within_digit hsizes n d _ (by simp), fun n hn m hm hsame => ?_,
    fun digits hdigits => ?_⟩
  · rw [← number_digit hsizes hn.1 hn.2, ← number_digit hsizes hm.1 hm.2]
    refine sum_congr rfl fun d hd => ?_
    rw [mem_range] at hd
    exact congrArg (· * _) (congrFun hsame ⟨d, hd⟩)
  · let extended : ℕ → ℤ := fun d => if hd : d < sizes.length then digits ⟨d, hd⟩ else 0
    have hwithin : Within sizes extended := by
      intro d size hsize
      obtain ⟨hd, rfl⟩ := List.getElem?_eq_some_iff.mp hsize
      simpa [extended, hd] using hdigits ⟨d, hd⟩
    refine ⟨number sizes extended, number_bounds hwithin, funext fun d => ?_⟩
    dsimp only
    rw [digit_number hsizes hwithin d.isLt]
    simp [extended]

/-! ### Costs that are sums over the factors -/

/-- Another digit for one factor changes a sum over the digits by one term. -/
theorem sum_update {M : Type} [AddCommGroup M] (part : ℕ → ℤ → M) (digits : ℕ → ℤ) {count d : ℕ}
    (hd : d < count) (j : ℤ) :
    ∑ e ∈ range count, part e (Function.update digits d j e) =
      ∑ e ∈ range count, part e (digits e) + (part d j - part d (digits d)) := by
  have hrest : ∑ e ∈ (range count).erase d, part e (Function.update digits d j e) =
      ∑ e ∈ (range count).erase d, part e (digits e) := by
    refine sum_congr rfl fun e he => ?_
    rw [Function.update_of_ne (ne_of_mem_erase he)]
  rw [← add_sum_erase _ _ (mem_range.mpr hd), ← add_sum_erase _ _ (mem_range.mpr hd),
    Function.update_self, hrest]
  abel

/-- Of a cost that is a sum over the digits, the first least number has the first least digit of
every factor. -/
theorem firstLeast_digit {sizes : List ℤ} (hsizes : ∀ size ∈ sizes, IsSize size)
    {part : ℕ → ℤ → ℝ} {count n : ℕ} (hcount : (count : ℤ) = sizes.prod)
    (h : FirstLeast (fun n : ℕ => ∑ d ∈ range sizes.length, part d (digit n sizes d)) count n)
    {d : ℕ} {size : ℤ} (hd : sizes[d]? = some size) :
    FirstLeast (fun j : ℕ => part d j) size.toNat (digit n sizes d).toNat := by
  set digits := digit n sizes with hdigits
  have hlength : d < sizes.length := (List.getElem?_eq_some_iff.mp hd).1
  have hwithin : Within sizes digits := within_digit hsizes n
  obtain ⟨hlow, hhigh⟩ := hwithin d size hd
  have hplace : 0 < (sizes.take d).prod :=
    List.prod_pos fun size hsize => (hsizes size (List.mem_of_mem_take hsize)).pos
  have hself : number sizes digits = n :=
    number_digit hsizes (Int.natCast_nonneg n) (hcount ▸ Int.ofNat_lt.mpr h.lt)
  -- The number with digit `j` in place of its own is lower or higher as `j` is.
  have hexchange : ∀ j : ℕ, j < size.toNat → ∃ m : ℕ, m < count ∧
      (m : ℤ) = n + (j - digits d) * (sizes.take d).prod ∧
      ∑ e ∈ range sizes.length, part e (digit m sizes e) =
        ∑ e ∈ range sizes.length, part e (digits e) + (part d j - part d (digits d)) := by
    intro j hj
    have hother : Within sizes (Function.update digits d j) := by
      intro e size' hsize'
      rcases eq_or_ne e d with rfl | hne
      · obtain rfl : size = size' := Option.some.inj (hd.symm.trans hsize')
        rw [Function.update_self]
        omega
      · rw [Function.update_of_ne hne]
        exact hwithin e size' hsize'
    obtain ⟨hnonneg, hlt⟩ := number_bounds hother
    obtain ⟨m, hm⟩ := Int.eq_ofNat_of_zero_le hnonneg
    have hnumber : number sizes (Function.update digits d j) =
        n + (j - digits d) * (sizes.take d).prod := by
      rw [number, sum_update (fun e digit => digit * (sizes.take e).prod) digits hlength,
        ← number, hself]
      ring
    refine ⟨m, ?_, hm.symm.trans hnumber, ?_⟩
    · rw [← hcount, hm] at hlt
      exact_mod_cast hlt
    · rw [← sum_update part digits hlength]
      refine sum_congr rfl fun e he => ?_
      have hm' : (m : ℤ) = number sizes (Function.update digits d j) := hm.symm
      rw [hm', digit_number hsizes hother (mem_range.mp he)]
  have hdigit : ((digits d).toNat : ℤ) = digits d := Int.toNat_of_nonneg hlow
  refine ⟨by omega, fun j hj => ?_, fun j hj => ?_⟩
  · obtain ⟨m, hm, -, hcost⟩ := hexchange j hj
    have hleast := h.least m hm
    rw [hcost] at hleast
    rw [hdigit]
    linarith
  · obtain ⟨m, -, hnumber, hcost⟩ := hexchange j (by omega)
    have hbelow : ((j : ℤ) - digits d) * (sizes.take d).prod < 0 :=
      mul_neg_of_neg_of_pos (by omega) hplace
    have hearlier := h.earlier m (by omega)
    rw [hcost] at hearlier
    rw [hdigit]
    linarith

/-! ### Levels -/

/-- The sizes of the factors of a product. -/
def sizesOf {β : Type} (factors : List (List β)) : List ℤ :=
  factors.map fun levels => (levels.length : ℤ)

theorem getElem?_filterMap_of_isSome {β γ : Type} {f : β → Option γ} {xs : List β}
    (h : ∀ x ∈ xs, (f x).isSome) (d : ℕ) : (xs.filterMap f)[d]? = xs[d]?.bind f := by
  induction xs generalizing d with
  | nil => simp
  | cons x xs ih =>
      obtain ⟨hx, hxs⟩ := List.forall_mem_cons.mp h
      obtain ⟨y, hy⟩ := Option.isSome_iff_exists.mp hx
      rw [List.filterMap_cons_some hy]
      cases d with
      | zero => simp [hy]
      | succ d => simpa using ih hxs d

/-- The level of a factor at an index is the one that its digit names. -/
theorem getElem?_levels {β : Type} {factors : List (List β)}
    (hfactors : ∀ levels ∈ factors, levels ≠ [] ∧ levels.length < 2 ^ 63) (n : ℕ) {d : ℕ}
    {levels : List β} (hlevels : factors[d]? = some levels) :
    (Product.levels factors n)[d]? = levels[(digit n (sizesOf factors) d).toNat]? := by
  rw [Product.levels, getElem?_filterMap_of_isSome]
  · simp [List.getElem?_zipIdx, hlevels, sizesOf]
  · rintro ⟨levels, d⟩ hmem
    have hlevels : factors[d]? = some levels := List.mem_zipIdx_iff_getElem?.mp hmem
    obtain ⟨hne, hbound⟩ := hfactors levels (List.mem_of_getElem? hlevels)
    dsimp only
    rw [List.getElem?_eq_getElem (digit_lt hlevels hne hbound n)]
    rfl

/-- Five factors that make an index of nine bits. -/
def IsNineBits {β : Type} (factors : List (List β)) : Prop := sizesOf factors = [4, 4, 4, 4, 2]

namespace IsNineBits

variable {β : Type} {factors : List (List β)}

theorem length_mem (h : IsNineBits factors) {levels : List β} (hlevels : levels ∈ factors) :
    levels.length = 4 ∨ levels.length = 2 := by
  have hmem : (levels.length : ℤ) ∈ sizesOf factors := List.mem_map.mpr ⟨levels, hlevels, rfl⟩
  rw [h] at hmem
  simp only [List.mem_cons, List.not_mem_nil, or_false] at hmem
  omega

theorem length_eq (h : IsNineBits factors) : factors.length = 5 := by
  have hlength := congrArg List.length h
  rwa [sizesOf, List.length_map] at hlength

theorem isSize (h : IsNineBits factors) : ∀ size ∈ sizesOf factors, IsSize size := by
  intro size hsize
  obtain ⟨levels, hlevels, rfl⟩ := List.mem_map.mp hsize
  rcases h.length_mem hlevels with hlength | hlength
  · exact ⟨2, by decide, by rw [hlength]; rfl⟩
  · exact ⟨1, by decide, by rw [hlength]; rfl⟩

theorem prod_eq (h : IsNineBits factors) : (sizesOf factors).prod = 512 := by
  rw [h]
  rfl

theorem levels_ne_nil (h : IsNineBits factors) :
    ∀ levels ∈ factors, levels ≠ [] ∧ levels.length < 2 ^ 63 := by
  intro levels hlevels
  have hlength := h.length_mem hlevels
  exact ⟨List.ne_nil_of_length_pos (by omega), by omega⟩

theorem length_levels (h : IsNineBits factors) (n : ℕ) : (Product.levels factors n).length = 5 :=
  (Product.length_levels h.levels_ne_nil n).trans h.length_eq

theorem getElem?_levels (h : IsNineBits factors) (n : ℕ) {d : ℕ} (hd : d < 5) (default : β) :
    (Product.levels factors n)[d]? =
      some ((factors.getD d []).getD (digit n (sizesOf factors) d).toNat default) := by
  have hd' : d < factors.length := by rw [h.length_eq]; exact hd
  have hlevels : factors[d]? = some factors[d] := List.getElem?_eq_getElem hd'
  obtain ⟨hne, hbound⟩ := h.levels_ne_nil _ (List.getElem_mem hd')
  have hlt : (digit n (sizesOf factors) d).toNat < factors[d].length :=
    digit_lt hlevels hne hbound n
  rw [Product.getElem?_levels h.levels_ne_nil n hlevels, List.getD_eq_getElem _ _ hd',
    List.getD_eq_getElem _ _ hlt, List.getElem?_eq_getElem hlt]

end IsNineBits

/-- The digits of an index name the first nearest level of every factor. -/
def NearestDigits {β : Type} (factors : List (List β)) (cost : ℕ → ℕ → ℝ) (n : ℕ) : Prop :=
  ∀ d levels, factors[d]? = some levels →
    FirstLeast (cost d) levels.length (digit n (sizesOf factors) d).toNat

variable {β : Type} {factors : List (List β)} {cost : ℕ → ℕ → ℝ}

theorem NearestDigits.unique (hfactors : IsNineBits factors) {m n : ℕ} (hm : m < 512) (hn : n < 512)
    (h : NearestDigits factors cost m) (h' : NearestDigits factors cost n) : m = n := by
  have hself : ∀ n : ℕ, n < 512 →
      number (sizesOf factors) (digit n (sizesOf factors)) = n := fun n hn =>
    number_digit hfactors.isSize (Int.natCast_nonneg n) (by rw [hfactors.prod_eq]; omega)
  have hsame : number (sizesOf factors) (digit m (sizesOf factors)) =
      number (sizesOf factors) (digit n (sizesOf factors)) := by
    refine sum_congr rfl fun d hd => ?_
    rw [mem_range, sizesOf, List.length_map] at hd
    have hlevels : factors[d]? = some factors[d] := List.getElem?_eq_getElem hd
    have hdigit := (h d _ hlevels).unique (h' d _ hlevels)
    have hsize : (sizesOf factors)[d]? = some (factors[d].length : ℤ) := by
      simp [sizesOf, hd]
    have hlow := (within_digit hfactors.isSize m d _ hsize).1
    have hlow' := (within_digit hfactors.isSize n d _ hsize).1
    rw [show digit m (sizesOf factors) d = digit n (sizesOf factors) d by omega]
  rw [hself m hm, hself n hn] at hsame
  exact_mod_cast hsame

theorem nearestDigits_of_firstLeast (hfactors : IsNineBits factors) {n : ℕ}
    (h : FirstLeast (fun n : ℕ => ∑ d ∈ range 5, cost d (digit n (sizesOf factors) d).toNat) 512
      n) : NearestDigits factors cost n := by
  intro d levels hlevels
  have hlength : (sizesOf factors).length = 5 := by
    rw [sizesOf, List.length_map, hfactors.length_eq]
  have hsize : (sizesOf factors)[d]? = some (levels.length : ℤ) := by
    simp [sizesOf, hlevels]
  let part (d : ℕ) (j : ℤ) : ℝ := cost d j.toNat
  have hpart : FirstLeast (fun n : ℕ => ∑ d ∈ range (sizesOf factors).length,
      part d (digit n (sizesOf factors) d)) 512 n := by rwa [hlength]
  exact firstLeast_digit hfactors.isSize hfactors.prod_eq.symm hpart hsize

end Product

/-! ### The codebooks of lines -/

namespace Codebook

open Lines Finset Product

theorem isNineBits_pairPositions : IsNineBits pairPositions := rfl

theorem isNineBits_evenResiduals : IsNineBits evenResiduals := rfl

theorem isNineBits_oddResiduals : IsNineBits oddResiduals := rfl

/-- The squared distance of a pair of lines from one of its positions. -/
noncomputable def pairCost (x : Array ℝ) (p j : ℕ) : ℝ :=
  let position := (pairPositions.getD p []).getD j (0, 0)
  (line x (2 * p) - position.1 * radPerHz) ^ 2 + (line x (2 * p + 1) - position.2 * radPerHz) ^ 2

/-- The squared distance of a line from one of its residual levels. -/
noncomputable def residualCost (residuals : List (List ℤ)) (x : Array ℝ) (d j : ℕ) : ℝ :=
  (line x d - ((residuals.getD d []).getD j 0 : ℤ) * radPerHz) ^ 2

/-- No distance of a search through 512 entries reaches the bound that it starts with. -/
def InReach (distance : ℤ → Except Fault ℝ) : Prop :=
  ∀ n : ℕ, n < 512 → ∀ d, distance n = .ok d → d < 1e15

theorem line_eq_getD (xs : Array ℝ) (i : ℕ) : line xs i = xs.toList[i]?.getD 0 := by
  simp [line]

theorem exists_residualEntry {residuals : List (List ℤ)} (h : IsNineBits residuals) {n : ℕ}
    (hn : n < 512) :
    ∃ entry, (residualLines residuals : Codebook ℝ).entry n = .ok entry ∧ entry.size = 5 ∧
      ∀ d, d < 5 → line entry d = (((residuals.getD d []).getD
        (digit n (sizesOf residuals) d).toNat 0 : ℤ) : ℝ) * radPerHz := by
  have hwhole : (residualLines residuals : Codebook ℝ).Whole := whole_residualLines h.length_levels
  have hlow : (0 : ℤ) ≤ n := Int.natCast_nonneg n
  have hhigh : (n : ℤ) < (residualLines residuals : Codebook ℝ).size := Int.ofNat_lt.mpr hn
  obtain ⟨entry, hentry, hsize⟩ := hwhole.yields_entry hlow hhigh
  have hvalues : (residualLines residuals : Codebook ℝ).values.toList =
      (List.range 512).flatMap fun n =>
        (Product.levels residuals n).map fun hz => Scalar.ofInt hz * radPerHz := by
    simp [residualLines]
  have htoList := hwhole.toList_of_entry hvalues rfl
    (fun n => by rw [List.length_map, h.length_levels n]) hlow hhigh hentry
  refine ⟨entry, hentry, Int.ofNat_inj.mp hsize, fun d hd => ?_⟩
  rw [line_eq_getD, htoList, Int.toNat_natCast, List.getElem?_map, h.getElem?_levels n hd 0]
  rfl

/-- The distance of a vector from an entry is the sum of what the levels of all lines add to it. -/
theorem weightedDistance_residual {residuals : List (List ℤ)} (h : IsNineBits residuals)
    {x weights : Array ℝ} (hx : 5 ≤ x.size) (hweights : 5 ≤ weights.size) {n : ℕ} (hn : n < 512) :
    (residualLines residuals : Codebook ℝ).weightedDistance x weights n =
      .ok (∑ d ∈ range 5, line weights d *
        residualCost residuals x d (digit n (sizesOf residuals) d).toNat) := by
  obtain ⟨entry, hentry, hsize, hlevel⟩ := exists_residualEntry h hn
  rw [weightedDistance_eq hentry (by omega) (by omega), hsize]
  refine congrArg Except.ok (sum_congr rfl fun d hd => ?_)
  rw [residualCost, ← hlevel d (mem_range.mp hd)]
  rfl

theorem getElem?_flatMap_pair {β γ : Type} (f g : β → γ) (xs : List β) (i : ℕ) :
    (xs.flatMap fun x => [f x, g x])[2 * i]? = xs[i]?.map f ∧
      (xs.flatMap fun x => [f x, g x])[2 * i + 1]? = xs[i]?.map g := by
  induction xs generalizing i with
  | nil => simp
  | cons x xs ih =>
      cases i with
      | zero => simp
      | succ i =>
          obtain ⟨hfirst, hsecond⟩ := ih i
          rw [List.flatMap_cons, show 2 * (i + 1) = 2 * i + 2 by omega]
          exact ⟨hfirst, hsecond⟩

theorem exists_positionEntry {n : ℕ} (hn : n < 512) :
    ∃ entry, (positionLines : Codebook ℝ).entry n = .ok entry ∧ entry.size = 10 ∧
      ∀ p, p < 5 → ∃ position : ℤ × ℤ, position = (pairPositions.getD p []).getD
          (digit n (sizesOf pairPositions) p).toNat (0, 0) ∧
        line entry (2 * p) = position.1 * radPerHz ∧
        line entry (2 * p + 1) = position.2 * radPerHz := by
  have hnine := isNineBits_pairPositions
  have hlow : (0 : ℤ) ≤ n := Int.natCast_nonneg n
  have hhigh : (n : ℤ) < (positionLines : Codebook ℝ).size := Int.ofNat_lt.mpr hn
  obtain ⟨entry, hentry, hsize⟩ := whole_positionLines.yields_entry hlow hhigh
  have hvalues : (positionLines : Codebook ℝ).values.toList =
      (List.range 512).flatMap fun n => (Product.levels pairPositions n).flatMap fun pair =>
        [Scalar.ofInt pair.1 * radPerHz, Scalar.ofInt pair.2 * radPerHz] := by
    simp [positionLines]
  have hblock : ∀ n, ((Product.levels pairPositions n).flatMap fun pair =>
      [(Scalar.ofInt pair.1 * radPerHz : ℝ), Scalar.ofInt pair.2 * radPerHz]).length = 10 := by
    intro n
    simp [List.length_flatMap, List.map_const', hnine.length_levels]
  have htoList := whole_positionLines.toList_of_entry hvalues rfl hblock hlow hhigh hentry
  refine ⟨entry, hentry, Int.ofNat_inj.mp hsize, fun p hp => ⟨_, rfl, ?_, ?_⟩⟩
  · rw [line_eq_getD, htoList, Int.toNat_natCast, (getElem?_flatMap_pair _ _ _ p).1,
      hnine.getElem?_levels n hp (0, 0)]
    rfl
  · rw [line_eq_getD, htoList, Int.toNat_natCast, (getElem?_flatMap_pair _ _ _ p).2,
      hnine.getElem?_levels n hp (0, 0)]
    rfl

theorem sum_range_two_mul (f : ℕ → ℝ) (count : ℕ) :
    ∑ j ∈ range (2 * count), f j = ∑ p ∈ range count, (f (2 * p) + f (2 * p + 1)) := by
  induction count with
  | zero => rfl
  | succ count ih =>
      rw [show 2 * (count + 1) = 2 * count + 1 + 1 by omega, sum_range_succ, sum_range_succ,
        sum_range_succ, ih, add_assoc]

/-- The distance of lines from an entry is the sum of what the positions of all pairs add to it. -/
theorem squaredDistance_position {x : Array ℝ} (hx : 10 ≤ x.size) {n : ℕ} (hn : n < 512) :
    (positionLines : Codebook ℝ).squaredDistance x n =
      .ok (∑ p ∈ range 5, pairCost x p (digit n (sizesOf pairPositions) p).toNat) := by
  obtain ⟨entry, hentry, hsize, hpair⟩ := exists_positionEntry hn
  rw [squaredDistance_eq hentry (by omega), hsize, sum_range_two_mul _ 5]
  refine congrArg Except.ok (sum_congr rfl fun p hp => ?_)
  obtain ⟨position, hposition, hfirst, hsecond⟩ := hpair p (mem_range.mp hp)
  rw [pairCost, ← hposition, ← hfirst, ← hsecond]
  rfl

/-! ### The searches of the codebooks -/

/-- The search of all lines finds the first nearest position of every pair. -/
theorem exists_nearest_position {x : Array ℝ} (hx : 10 ≤ x.size)
    (hreach : InReach ((positionLines : Codebook ℝ).squaredDistance x)) :
    ∃ n : ℕ, (positionLines : Codebook ℝ).nearest x = .ok (n : ℤ) ∧ n < 512 ∧
      NearestDigits pairPositions (pairCost x) n := by
  have hdistance : ∀ n : ℕ, n < 512 → _ := fun n hn => squaredDistance_position hx hn
  obtain ⟨n, hn, hfirst⟩ := exists_firstNearest hdistance (show 0 < 512 by decide)
    (hreach 0 (by decide) _ (hdistance 0 (by decide)))
  exact ⟨n, bind_eq_ok.mpr ⟨_, hn, rfl⟩, hfirst.lt,
    nearestDigits_of_firstLeast isNineBits_pairPositions hfirst⟩

/-- Weights for the search of a vector: one for each line, all positive, under which no distance
reaches the bound. -/
structure Admits (book : Codebook ℝ) (x weights : Array ℝ) : Prop where
  size : 5 ≤ weights.size
  pos : ∀ weight ∈ weights, 0 < weight
  reach : InReach (book.weightedDistance x weights)

/-- The search of every other line finds the first nearest level of every line. -/
theorem exists_nearest_residual {residuals : List (List ℤ)} (h : IsNineBits residuals)
    {x weights : Array ℝ} (hx : 5 ≤ x.size)
    (hweights : (residualLines residuals : Codebook ℝ).Admits x weights) :
    ∃ n : ℕ, (residualLines residuals : Codebook ℝ).nearestWeighted x weights = .ok (n : ℤ) ∧
      n < 512 ∧ NearestDigits residuals (residualCost residuals x) n := by
  have hdistance : ∀ n : ℕ, n < 512 → _ := fun n hn =>
    weightedDistance_residual h hx hweights.size hn
  obtain ⟨n, hn, hfirst⟩ := exists_firstNearest hdistance (show 0 < 512 by decide)
    (hweights.reach 0 (by decide) _ (hdistance 0 (by decide)))
  have hdigits : NearestDigits residuals
      (fun d j => line weights d * residualCost residuals x d j) n :=
    nearestDigits_of_firstLeast h hfirst
  refine ⟨n, bind_eq_ok.mpr ⟨_, hn, rfl⟩, hfirst.lt, fun d levels hlevels => ?_⟩
  have hd : d < weights.size := by
    have hlt := (List.getElem?_eq_some_iff.mp hlevels).1
    rw [h.length_eq] at hlt
    exact hlt.trans_le hweights.size
  have hpos : 0 < line weights d := by
    have hmem := hweights.pos weights[d] (Array.getElem_mem hd)
    simpa [line, hd] using hmem
  -- A positive weight changes no comparison between levels of the same line.
  exact (hdigits d levels hlevels).of_le_iff fun i j _ _ => mul_le_mul_iff_right₀ hpos

/-! ### Vectors in reach -/

theorem forall_getD_getD {β : Type} {P : β → Prop} {factors : List (List β)} {default : β}
    (hdefault : P default) (h : ∀ levels ∈ factors, ∀ level ∈ levels, P level) (d j : ℕ) :
    P ((factors.getD d []).getD j default) := by
  rw [List.getD_eq_getElem?_getD, List.getD_eq_getElem?_getD]
  cases hlevels : factors[d]? with
  | none => simpa using hdefault
  | some levels =>
      cases hlevel : levels[j]? with
      | none => simpa [hlevel] using hdefault
      | some level =>
          have hmem := h levels (List.mem_of_getElem? hlevels) level (List.mem_of_getElem? hlevel)
          simpa [hlevel] using hmem

theorem sq_sub_hz_le {v : ℝ} {hz : ℤ} (hv : |v| ≤ 1000) (hhz : |hz| ≤ 4000) :
    (v - hz * radPerHz) ^ 2 ≤ 2000 ^ 2 := by
  have hrad : |(hz : ℝ) * radPerHz| ≤ 4 := by
    have hcast : |(hz : ℝ)| ≤ 4000 := by exact_mod_cast hhz
    have hpi := Real.pi_lt_four
    rw [abs_mul, abs_of_pos radPerHz_pos, radPerHz_real]
    calc |(hz : ℝ)| * (Real.pi / 4000)
      _ ≤ 4000 * (4 / 4000) := by gcongr
      _ = 4 := by norm_num
  refine sq_le_sq' ?_ ?_ <;> linarith [abs_le.mp hv, abs_le.mp hrad]

/-- Lines that are not far from the band are in reach. -/
theorem inReach_position {x : Array ℝ} (hx : 10 ≤ x.size) (hbound : ∀ i, |line x i| ≤ 1000) :
    InReach ((positionLines : Codebook ℝ).squaredDistance x) := by
  intro n hn d hd
  rw [squaredDistance_position hx hn] at hd
  obtain rfl := Except.ok.inj hd
  have hcost : ∀ p j, pairCost x p j ≤ 10 ^ 7 := by
    intro p j
    obtain ⟨hfirst, hsecond⟩ : |((pairPositions.getD p []).getD j (0, 0)).1| ≤ 4000 ∧
        |((pairPositions.getD p []).getD j (0, 0)).2| ≤ 4000 :=
      forall_getD_getD (P := fun pair : ℤ × ℤ => |pair.1| ≤ 4000 ∧ |pair.2| ≤ 4000) (by decide)
        (by decide) p j
    refine (add_le_add (sq_sub_hz_le (hbound _) hfirst) (sq_sub_hz_le (hbound _) hsecond)).trans ?_
    norm_num
  refine (sum_le_sum fun p _ => hcost p _).trans_lt ?_
  norm_num

theorem inReach_residual {residuals : List (List ℤ)} (h : IsNineBits residuals)
    (hlevels : ∀ levels ∈ residuals, ∀ level ∈ levels, |level| ≤ 4000) {x weights : Array ℝ}
    (hx : 5 ≤ x.size) (hweights : 5 ≤ weights.size) (hbound : ∀ i, |line x i| ≤ 1000)
    (hbound' : ∀ i, 0 ≤ line weights i ∧ line weights i ≤ 1000) :
    InReach ((residualLines residuals : Codebook ℝ).weightedDistance x weights) := by
  intro n hn d hd
  rw [weightedDistance_residual h hx hweights hn] at hd
  obtain rfl := Except.ok.inj hd
  have hcost : ∀ d j, line weights d * residualCost residuals x d j ≤ 1000 * 2000 ^ 2 := by
    intro d j
    have hlevel : |(residuals.getD d []).getD j 0| ≤ 4000 :=
      forall_getD_getD (P := fun level : ℤ => |level| ≤ 4000) (by decide) hlevels d j
    exact mul_le_mul (hbound' d).2 (sq_sub_hz_le (hbound d) hlevel) (sq_nonneg _) (by norm_num)
  refine (sum_le_sum fun d _ => hcost d _).trans_lt ?_
  norm_num

/-- Where each cost is a square in Hz, the digits can be compared in whole numbers. -/
theorem nearestDigits_of_squares {β : Type} {factors : List (List β)} {cost : ℕ → ℕ → ℝ}
    (square : ℕ → ℕ → ℤ) {n : ℕ} (hcost : ∀ d j, cost d j = square d j * radPerHz ^ 2)
    (h : ∀ d, d < factors.length → FirstLeast (square d) (factors.getD d []).length
      (digit n (sizesOf factors) d).toNat) : NearestDigits factors cost n := by
  intro d levels hlevels
  have hfirst := h d (List.getElem?_eq_some_iff.mp hlevels).1
  rw [List.getD_eq_getElem?_getD, hlevels, Option.getD_some] at hfirst
  refine hfirst.of_le_iff fun i j _ _ => ?_
  rw [hcost, hcost, mul_le_mul_iff_left₀ (pow_pos radPerHz_pos 2), Int.cast_le]

/-! ### Search by factors -/

/-- The search of a product is a search of each factor. Digits are a bijection between the indexes
and the choices of one level for each factor, and the index that a search finds has the first
nearest level of every factor as its digits. -/
theorem product_search_is_factor_search :
    (∀ sizes : List ℤ, (∀ size ∈ sizes, IsSize size) →
      Set.BijOn (fun n (d : Fin sizes.length) => digit n sizes d) (Set.Ico 0 sizes.prod)
        {digits | ∀ d, 0 ≤ digits d ∧ digits d < sizes.get d} ∧
      ∀ n, 0 ≤ n → n < sizes.prod →
        n = ∑ d ∈ range sizes.length, digit n sizes d * (sizes.take d).prod) ∧
    (∀ x : Array ℝ, 10 ≤ x.size → InReach ((positionLines : Codebook ℝ).squaredDistance x) →
      ∃ n : ℕ, (positionLines : Codebook ℝ).nearest x = .ok (n : ℤ) ∧ n < 512 ∧
        NearestDigits pairPositions (pairCost x) n) ∧
    ∀ residuals ∈ [evenResiduals, oddResiduals], ∀ x weights : Array ℝ, 5 ≤ x.size →
      (residualLines residuals : Codebook ℝ).Admits x weights →
      ∃ n : ℕ, (residualLines residuals : Codebook ℝ).nearestWeighted x weights = .ok (n : ℤ) ∧
        n < 512 ∧ NearestDigits residuals (residualCost residuals x) n ∧
        ∀ others, (residualLines residuals : Codebook ℝ).Admits x others →
          (residualLines residuals : Codebook ℝ).nearestWeighted x others = .ok (n : ℤ) := by
  refine ⟨fun sizes hsizes => ⟨bijOn_digit hsizes, fun n hlow hhigh => ?_⟩,
    fun x hx hreach => exists_nearest_position hx hreach,
    fun residuals hmem x weights hx hweights => ?_⟩
  · exact (number_digit hsizes hlow hhigh).symm
  · have hnine : IsNineBits residuals := by
      rcases List.mem_pair.mp hmem with rfl | rfl
      · exact isNineBits_evenResiduals
      · exact isNineBits_oddResiduals
    obtain ⟨n, hn, hlt, hdigits⟩ := exists_nearest_residual hnine hx hweights
    refine ⟨n, hn, hlt, hdigits, fun others hothers => ?_⟩
    obtain ⟨m, hm, hlt', hdigits'⟩ := exists_nearest_residual hnine hx hothers
    rw [hm, hdigits'.unique hnine hlt' hlt hdigits]

/-- Silence, from which two levels of the last even line are as far. -/
theorem product_search_is_factor_search_silence :
    (∀ size ∈ sizesOf evenResiduals, IsSize size) ∧
    InReach ((positionLines : Codebook ℝ).squaredDistance (Array.replicate 10 0)) ∧
    (residualLines evenResiduals : Codebook ℝ).Admits (Array.replicate 5 0) #[1, 2, 3, 4, 5] ∧
    102 = ∑ d ∈ range 5,
      digit 102 (sizesOf evenResiduals) d * ((sizesOf evenResiduals).take d).prod ∧
    (positionLines : Codebook ℝ).nearest (Array.replicate 10 0) = .ok 4 ∧
    (residualLines evenResiduals : Codebook ℝ).nearestWeighted (Array.replicate 5 0)
      #[1, 2, 3, 4, 5] = .ok 102 := by
  obtain ⟨hdigits, hposition, hresidual⟩ := product_search_is_factor_search
  have hsilent : ∀ count i, line (Array.replicate count 0) i = 0 := by
    intro count i
    rw [line, Array.getD_eq_getD_getElem?, Array.getElem?_replicate]
    split_ifs <;> rfl
  have hnear : ∀ count i, |line (Array.replicate count 0) i| ≤ 1000 := by
    intro count i
    rw [hsilent, abs_zero]
    norm_num
  have hnine := isNineBits_evenResiduals
  have hreach : InReach ((positionLines : Codebook ℝ).squaredDistance (Array.replicate 10 0)) :=
    inReach_position (by simp) (hnear 10)
  have hweights : ∀ i, 0 ≤ line #[1, 2, 3, 4, 5] i ∧ line #[1, 2, 3, 4, 5] i ≤ 1000 := by
    intro i
    rcases Nat.lt_or_ge i 5 with hi | hi
    · interval_cases i <;> norm_num [line]
    · have hend : line #[1, 2, 3, 4, 5] i = 0 := by simp [line, hi]
      rw [hend]
      norm_num
  have hadmits : (residualLines evenResiduals : Codebook ℝ).Admits (Array.replicate 5 0)
      #[1, 2, 3, 4, 5] :=
    ⟨by simp, by simp, inReach_residual hnine (by decide) (by simp) (by simp) (hnear 5) hweights⟩
  refine ⟨hnine.isSize, hreach, hadmits, ?_, ?_, ?_⟩
  · exact (hdigits _ hnine.isSize).2 102 (by decide) (by decide)
  · obtain ⟨n, hn, hlt, hfound⟩ := hposition _ (by simp) hreach
    have hfirst : NearestDigits pairPositions (pairCost (Array.replicate 10 0)) 4 := by
      refine nearestDigits_of_squares (fun p j =>
        ((pairPositions.getD p []).getD j (0, 0)).1 ^ 2 +
          ((pairPositions.getD p []).getD j (0, 0)).2 ^ 2) (fun p j => ?_) (by decide +kernel)
      rw [pairCost, hsilent, hsilent]
      push_cast
      ring
    rw [hn, hfound.unique isNineBits_pairPositions hlt (by decide) hfirst]
    rfl
  · obtain ⟨n, hn, hlt, hfound, -⟩ := hresidual _ List.mem_cons_self _ _ (by simp) hadmits
    have hfirst : NearestDigits evenResiduals (residualCost evenResiduals (Array.replicate 5 0))
        102 := by
      refine nearestDigits_of_squares (fun d j => ((evenResiduals.getD d []).getD j 0) ^ 2)
        (fun d j => ?_) (by decide +kernel)
      rw [residualCost, hsilent]
      push_cast
      ring
    rw [hn, hfound.unique hnine hlt (by decide) hfirst]
    rfl

end Codebook

end Vocoder
