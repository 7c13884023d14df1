import Vocoder.Prediction.Recursion
import Vocoder.Proofs.Outcome

/-!
Linear prediction of a block returns for all samples, over any type of scalars: the recursion and
the search for roots never leave their buffers, and there are as many lines as the order says. Only
sizes matter.
-/

namespace Vocoder

variable {α : Type} [Analytic α]

/-! ### Roots -/

namespace Lines

theorem size_extend (x : α) (k : Nat) (last current : α) (acc : Array α) :
    (chebyshev.extend x k last current acc).size = acc.size + k := by
  induction k generalizing last current acc with
  | zero => rfl
  | succ k ih =>
      rw [chebyshev.extend, ih, Array.size_push]
      omega

theorem size_chebyshev (x : α) (n : Nat) : (chebyshev x n).size = n + 1 := by
  cases n with
  | zero => rfl
  | succ k =>
      rw [chebyshev, size_extend]
      simp only [List.size_toArray, List.length_cons, List.length_nil]
      omega

/-- An order for which the search has room. -/
structure Suits (order : Int) : Prop where
  low : 0 ≤ order
  high : order ≤ 20
  even : order % 2 = 0

theorem Suits.half {order : Int} (h : Suits order) : 2 * order.tdiv 2 = order := by
  rw [Int.tdiv_eq_ediv_of_nonneg h.low]
  have := h.even
  omega

theorem yields_evaluate {series : Array α} {order : Int} (horder : Suits order)
    (hseries : (series.size : Int) = order.tdiv 2 + 1) (x : α) :
    Yields (evaluate series x order) fun _ => True := by
  have hhalf := horder.half
  have hlow := horder.low
  have hhigh := horder.high
  unfold evaluate
  dsimp only
  rw [if_neg (by omega)]
  refine yields_sumBetween fun i hi hi' => ?_
  refine (yields_fetch_of_lt (by omega) (by omega)).bind fun _ _ => ?_
  exact (yields_fetch_of_lt hi (by rw [size_chebyshev]; omega)).bind fun _ _ => Yields.pure trivial

theorem yields_parts {filter : Array α} {order : Int} (horder : Suits order)
    (hfilter : (filter.size : Int) = order + 1) :
    Yields (parts filter order) fun series =>
      (series.symmetric.size : Int) = order.tdiv 2 + 1 ∧
        (series.antisymmetric.size : Int) = order.tdiv 2 + 1 := by
  have hhalf := horder.half
  have hlow := horder.low
  refine Yields.bind (P := fun done => (done.1.size : Int) = order.tdiv 2 + 1 ∧
    (done.2.1.size : Int) = order.tdiv 2 + 1) (yields_foldBetween
      (P := fun i done => (done.1.size : Int) = i ∧ (done.2.1.size : Int) = i) ⟨rfl, rfl⟩ ?_ ?_) ?_
  · rintro i ⟨p, q, lastP, lastQ⟩ hi hi' hdone
    refine (yields_fetch_of_lt (by omega) (by omega)).bind fun near _ => ?_
    refine (yields_fetch_of_lt (by omega) (by omega)).bind fun far _ => ?_
    dsimp only at hdone
    refine Yields.pure ⟨?_, ?_⟩
    · rw [Array.size_push]
      omega
    · rw [Array.size_push]
      omega
  · intro done hdone
    omega
  · intro done hdone
    refine Yields.pure ⟨?_, ?_⟩
    · rw [Array.size_mapIdx, hdone.1]
    · rw [Array.size_mapIdx, hdone.2]

theorem yields_bisect {series : Array α} {order : Int} (horder : Suits order)
    (hseries : (series.size : Int) = order.tdiv 2 + 1) (times : Nat) (atUpper : α) (s : Search α) :
    Yields (bisect series order times atUpper s) fun _ => True := by
  induction times generalizing atUpper s with
  | zero => exact Yields.ok trivial
  | succ times ih =>
      rw [bisect]
      refine (yields_evaluate horder hseries _).bind fun atMiddle _ => ?_
      split
      · exact ih _ _
      · exact ih _ _

theorem yields_nextRoot {series : Array α} {order : Int} (horder : Suits order)
    (hseries : (series.size : Int) = order.tdiv 2 + 1) (halvings : Nat) (spacing : α) (fuel : Nat)
    (atUpper : α) (s : Search α) :
    Yields (nextRoot series order halvings spacing fuel atUpper s) fun _ => True := by
  induction fuel generalizing atUpper s with
  | zero => exact Yields.ok trivial
  | succ fuel ih =>
      rw [nextRoot]
      split
      · refine (yields_evaluate horder hseries _).bind fun atLower _ => ?_
        split
        · exact (yields_bisect horder hseries _ _ _).bind fun _ _ => Yields.pure trivial
        · exact ih _ _
      · exact Yields.pure trivial

/-- The search returns a value for every line, found or not. -/
theorem yields_ofFilter {filter buffer : Array α} {order : Int} (bisections : Int) (spacing : α)
    (horder : Suits order) (hfilter : (filter.size : Int) = order + 1)
    (hbuffer : (buffer.size : Int) = order) :
    Yields (ofFilter filter buffer order bisections spacing) fun done =>
      (done.2.size : Int) = order := by
  unfold ofFilter
  dsimp only
  rw [if_neg (by
    have := horder.high
    have := horder.even
    simp only [ofFilter.maxLines]
    omega)]
  refine (yields_parts horder hfilter).bind fun series hseries => ?_
  refine Yields.bind (P := fun done => (done.2.1.size : Int) = order) (yields_foldBetween
    (P := fun _ done => (done.2.1.size : Int) = order) hbuffer ?_ fun _ hdone => hdone)
    fun found hfound => ?_
  · rintro j ⟨found, buffer, s⟩ hj hj' hdone
    dsimp only at hdone
    have hpart : ((if j % 2 = 1 then series.antisymmetric else series.symmetric).size : Int) =
        order.tdiv 2 + 1 := by
      split
      · exact hseries.2
      · exact hseries.1
    refine (yields_evaluate horder hpart _).bind fun atUpper _ => ?_
    refine (yields_nextRoot horder hpart _ _ _ _ _).bind fun next _ => ?_
    dsimp only
    split
    · refine (yields_store hj (by omega) _).bind fun stored hstored => Yields.pure ?_
      rw [hstored, Array.size_setIfInBounds, hdone]
    · exact Yields.pure hdone
  · refine Yields.bind (P := fun buffer => (buffer.size : Int) = order) (yields_foldBetween
      (P := fun _ buffer => (buffer.size : Int) = order) hfound ?_ fun _ hdone => hdone)
      fun _ hdone => Yields.pure hdone
    intro i buffer hi hi' hbuffer
    refine (yields_fetch_of_lt hi (by omega)).bind fun x _ => ?_
    refine (yields_store hi (by omega) _).mono fun stored hstored => ?_
    rw [hstored, Array.size_setIfInBounds, hbuffer]

theorem yields_evenlySpaced {order : Int} (horder : Suits order) :
    Yields (evenlySpaced order : Except Fault (Array α)) fun lines =>
      (lines.size : Int) = order := by
  have hlow := horder.low
  have hhigh := horder.high
  refine (yields_length hlow (by omega)).bind fun n hn => Yields.pure ?_
  rw [Array.size_map, Array.size_range]
  omega

end Lines

/-! ### Coefficients -/

namespace Prediction

open Lines (Suits)

omit [Analytic α] in
theorem length_fitAll [Scalar α] (fit : Fit α) (seen lags : List α) :
    (fitAll fit seen lags).taps.length = fit.taps.length + lags.length := by
  induction lags generalizing fit seen with
  | nil => rfl
  | cons lag lags ih =>
      rw [fitAll, ih, Fit.extend, List.length_append, List.length_zipWith, List.length_reverse,
        List.length_singleton, List.length_cons]
      omega

theorem length_widen (factor power : α) (taps : List α) :
    (widen factor power taps).length = taps.length := by
  induction taps generalizing power with
  | nil => rfl
  | cons a rest ih => rw [widen, List.length_cons, ih, List.length_cons]

theorem yields_windowed {signal window : Array α} (h : signal.size ≤ window.size) :
    Yields (windowed signal window) fun products => products.size = signal.size := by
  refine Yields.mono (yields_tabulate (P := fun _ => True) fun i hi => ?_) fun _ hdone => hdone.1
  refine (yields_fetch_of_lt (by omega) (by omega)).bind fun _ _ => ?_
  exact (yields_fetch_of_lt (by omega) (by omega)).bind fun _ _ => Yields.pure trivial

theorem yields_coefficients {lags : Array α} {order : Int} (horder : Suits order)
    (hlags : (lags.size : Int) = order + 1) :
    Yields (coefficients lags order) fun a => (a.size : Int) = order + 1 := by
  have hlow := horder.low
  have hhigh := horder.high
  unfold coefficients
  dsimp only
  rw [if_neg (by omega)]
  refine (yields_slice (by omega) (by omega) (by omega)).bind fun used hused => ?_
  cases hlist : used.toList with
  | nil =>
      have hsize := congrArg List.length hlist
      rw [Array.length_toList, List.length_nil] at hsize
      omega
  | cons power rest =>
      have hsize := congrArg List.length hlist
      rw [Array.length_toList, List.length_cons] at hsize
      refine Yields.pure ?_
      rw [List.size_toArray, List.length_cons, length_fitAll, List.length_nil]
      omega

theorem yields_analyse {signal window : Array α} {order : Int} (horder : Suits order)
    (hsignal : signal.size ≤ 512) (hwindow : signal.size ≤ window.size) :
    Yields (analyse signal window order) fun done => (done.1.size : Int) = order + 1 := by
  have hlow := horder.low
  have hhigh := horder.high
  unfold analyse
  dsimp only
  rw [if_neg (by omega)]
  refine (yields_windowed hwindow).bind fun products _ => ?_
  have hautocorrelate : Yields (autocorrelate products order) fun lags =>
      (lags.size : Int) = order + 1 := by
    refine (yields_length (by omega) (by omega)).bind fun count hcount => Yields.pure ?_
    rw [Array.size_map, Array.size_range]
    omega
  refine hautocorrelate.bind fun lags hlags => ?_
  refine (yields_coefficients horder hlags).bind fun a ha => ?_
  refine Yields.bind (yields_sumBetween fun i hi hi' => ?_) fun energy _ => Yields.pure ha
  refine (yields_fetch_of_lt hi (by omega)).bind fun _ _ => ?_
  exact (yields_fetch_of_lt hi (by omega)).bind fun _ _ => Yields.pure trivial

/-- A block has an energy and as many lines as the order says. -/
theorem yields_spectrum {signal window : Array α} {order : Int} (horder : Suits order)
    (hsignal : signal.size ≤ 512) (hwindow : signal.size ≤ window.size) :
    Yields (spectrum signal window order) fun found => (found.lines.size : Int) = order := by
  have hlow := horder.low
  have hhigh := horder.high
  refine (yields_length hlow (by omega)).bind fun lines hlines => ?_
  refine (yields_windowed hwindow).bind fun products _ => ?_
  dsimp only
  split
  · exact (Lines.yields_evenlySpaced horder).bind fun _ hspaced => Yields.pure hspaced
  · refine (yields_analyse horder hsignal hwindow).bind fun done hdone => ?_
    refine (Lines.yields_ofFilter 5 0.01 horder (by
        rw [List.size_toArray, length_widen, Array.length_toList, hdone])
      (by rw [Array.size_replicate]; omega)).bind fun found hfound => ?_
    split
    · exact Yields.pure hfound
    · exact (Lines.yields_evenlySpaced horder).bind fun _ hspaced => Yields.pure hspaced

end Prediction

end Vocoder
