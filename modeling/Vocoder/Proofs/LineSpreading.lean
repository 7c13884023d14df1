import Vocoder.Proofs.LineSeparation

/-!
Spreading lines of any number, over the real numbers. The pass that goes up gives the least lines
that keep their distances and lie nowhere below the given ones. If their top line is too high, it is
taken down to the ceiling, and the pass that goes down gives up heights but no distances. So lines
that already keep their distances below the ceiling are left alone, and spreading twice is spreading
once.
-/

namespace Vocoder.Lines

theorem room_eq_sum (n : Nat) : room n = ∑ i ∈ Finset.Ico 1 (n + 1), gap i := by
  induction n with
  | zero => simp [room]
  | succ n ih => rw [room, ih, Finset.sum_Ico_succ_top (show 1 ≤ n + 1 by omega)]

theorem eq_of_line_eq {lines others : Array ℝ} (hsize : lines.size = others.size)
    (h : ∀ i, i < others.size → line lines i = line others i) : lines = others := by
  refine Array.ext hsize fun i hi hi' => ?_
  simpa [line, hi, hi'] using h i hi'

/-! ### Lines that are left alone -/

theorem pushUp_of_spaced {lines : Array ℝ} (h : Spaced 0 lines) :
    pushUp lines lines.size = .ok lines := by
  have hpass : (lines.size : Int) = lines.size := rfl
  obtain ⟨done, hdone, hsize, hfirst, hpushed⟩ := yields_pushUp_max hpass
  have hline : ∀ i, i < lines.size → line done i = line lines i := by
    intro i hi
    induction i with
    | zero => exact hfirst
    | succ i ih =>
        have hgap := h i (by omega) hi
        rw [hpushed i hi, ih (by omega), max_eq_left (by linarith)]
  rw [hdone, eq_of_line_eq hsize hline]

/-- Lines whose top is not too high after they were pushed up stay so. -/
theorem spread_of_pushUp {lines pushed : Array ℝ} (hsize : 0 < lines.size)
    (hpushed : pushUp lines lines.size = .ok pushed)
    (htop : line pushed (lines.size - 1) ≤ ceiling) : spread lines lines.size = .ok pushed := by
  have hlength := (yields_pushUp_spaced rfl).of_eq hpushed
  obtain ⟨top, hfetch, rfl⟩ : Yields (fetch pushed ((lines.size : Int) - 1))
      fun x => x = line pushed (lines.size - 1) := yields_fetch_line (by omega) (by omega)
  rw [spread, hpushed]
  change (fetch pushed _ >>= _) = _
  rw [hfetch]
  exact if_neg (not_lt.mpr htop)

theorem spread_of_spaced {lines : Array ℝ} (hsize : 0 < lines.size) (h : Spaced 0 lines)
    (htop : line lines (lines.size - 1) ≤ ceiling) : spread lines lines.size = .ok lines :=
  spread_of_pushUp hsize (pushUp_of_spaced h) htop

/-! ### The least lines -/

/-- Heights that lie nowhere below given lines and keep their distances. -/
def Above (lines : Array ℝ) : Set (Fin lines.size → ℝ) :=
  {heights | (∀ i : Fin lines.size, line lines i ≤ heights i) ∧
    ∀ i j : Fin lines.size, (j : Nat) = i + 1 → gap j ≤ heights j - heights i}

/-- Pushing up moves the lines no further than their distances need. -/
theorem isLeast_pushUp {lines pushed : Array ℝ} (hpushed : pushUp lines lines.size = .ok pushed) :
    IsLeast (Above lines) fun i => line pushed i := by
  obtain ⟨hsize, hfirst, hmax⟩ := (yields_pushUp_max rfl).of_eq hpushed
  obtain ⟨-, -, hdistance⟩ := (yields_pushUp_spaced rfl).of_eq hpushed
  refine ⟨⟨fun i => ?_, fun i j hij => ?_⟩, fun heights hheights i => ?_⟩
  · obtain ⟨i, hi⟩ := i
    cases i with
    | zero => exact hfirst.ge
    | succ i => exact (le_max_left _ _).trans (hmax i hi).ge
  · dsimp only
    rw [hij]
    exact hdistance i (by omega) (by omega)
  · -- The lowest line has not moved, and each line after it only as far as the one before needs.
    obtain ⟨habove, hspaced⟩ := hheights
    obtain ⟨i, hi⟩ := i
    induction i with
    | zero =>
        dsimp only
        rw [hfirst]
        exact habove ⟨0, hi⟩
    | succ i ih =>
        have hbelow := ih (by omega)
        have hgap := hspaced ⟨i, by omega⟩ ⟨i + 1, hi⟩ rfl
        dsimp only at hbelow hgap ⊢
        rw [hmax i hi]
        exact max_le (habove ⟨i + 1, hi⟩) (by linarith)

/-- Spreading lines keeps their distances and the ceiling, and spreading twice is spreading once. If
pushing up takes no line above the ceiling, the result is the least that lies nowhere below the
lines and keeps the distances. -/
theorem spread_separates_idempotent (lines : Array ℝ) (hsize : 0 < lines.size) :
    ∃ pushed done, pushUp lines lines.size = .ok pushed ∧ spread lines lines.size = .ok done ∧
      done.size = lines.size ∧
      (∀ i, i + 1 < lines.size → gap (i + 1) ≤ line done (i + 1) - line done i) ∧
      line done (lines.size - 1) ≤ ceiling ∧
      min (line lines 0) (ceiling - ∑ i ∈ Finset.Ico 1 lines.size, gap i) ≤ line done 0 ∧
      ((∀ i, i + 1 < lines.size → gap (i + 1) ≤ line lines (i + 1) - line lines i) →
        line lines (lines.size - 1) ≤ ceiling → done = lines) ∧
      spread done done.size = .ok done ∧
      (line pushed (lines.size - 1) ≤ ceiling → IsLeast (Above lines) fun i => line done i) := by
  obtain ⟨pushed, hpushed, -⟩ : Yields (pushUp lines lines.size) fun _ => True :=
    (yields_pushUp le_rfl).mono fun _ _ => trivial
  obtain ⟨done, hdone, hlength, hspaced, htop, hlowest⟩ := yields_spread_spaced lines hsize
  rw [room_eq_sum, Nat.sub_add_cancel hsize] at hlowest
  refine ⟨pushed, done, hpushed, hdone, hlength, fun i hi => hspaced i (by omega) (by omega), htop,
    hlowest, fun hdistance hlow => ?_, ?_, fun hlow => ?_⟩
  · have hsame := spread_of_spaced hsize (fun i _ hi => hdistance i hi) hlow
    exact Except.ok.inj (hdone.symm.trans hsame)
  · exact spread_of_spaced (by omega) hspaced (by rw [hlength]; exact htop)
  · have hsame := spread_of_pushUp hsize hpushed hlow
    rw [Except.ok.inj (hdone.symm.trans hsame)]
    exact isLeast_pushUp hpushed

/-- Three lines, the second above the ceiling and the third below all others. -/
theorem spread_separates_idempotent_three : 0 < (#[1, 4, 0.5] : Array ℝ).size ∧
    ∃ done, spread (#[1, 4, 0.5] : Array ℝ) 3 = .ok done ∧ done.size = 3 ∧
      gap 1 ≤ line done 1 - line done 0 ∧ gap 2 ≤ line done 2 - line done 1 ∧
      line done 2 ≤ ceiling ∧ spread done done.size = .ok done := by
  obtain ⟨-, done, -, hdone, hsize, hdistance, htop, -, -, hagain, -⟩ :=
    spread_separates_idempotent #[1, 4, 0.5] (by decide)
  exact ⟨by decide, done, hdone, hsize, hdistance 0 (by decide), hdistance 1 (by decide), htop,
    hagain⟩

end Vocoder.Lines
