import Vocoder.Proofs.AnalysisTotal
import Vocoder.Proofs.CodingTotal
import Vocoder.Proofs.FrameTrace
import Vocoder.Proofs.PredictionTotal
import Vocoder.Session.Basic

/-!
The encoder over the real numbers returns on every frame with the right number of samples, whatever
it remembers.
-/

namespace Vocoder

namespace Frame

theorem yields_subframe {pcm : Array Int16} {i : Nat} (h : 80 * (i + 1) ≤ pcm.size) :
    Yields (subframe pcm i) fun _ => True := by
  refine (yields_slice (by omega) (by omega) (by omega)).bind fun samples hsamples => ?_
  rw [dif_pos (by omega)]
  exact Yields.pure trivial

theorem Walk.yields_analyse (engine : Engine ℝ) (walk : Walk ℝ) {pcm : Array Int16} {i : Nat}
    (h : 80 * (i + 1) ≤ pcm.size) :
    Yields (walk.analyse engine pcm i) fun next =>
      next.model.Fitted ∧ next.lines = walk.lines := by
  refine (yields_subframe h).bind fun samples _ => ?_
  exact (walk.encoder.yields_analyse engine _ walk.model).bind
    fun done hdone => Yields.pure ⟨hdone, rfl⟩

theorem Walk.yields_update (engine : Engine ℝ) {layout : Layout} (frames i : Nat) (walk : Walk ℝ)
    {u : Nat} (horder : Lines.Suits layout.order) (hu : u < layout.schemes.length) :
    Yields (walk.update engine layout frames i u) fun next =>
      (next.lines.size : Int) = layout.order := by
  refine (Prediction.yields_spectrum horder (by simp) (by simp)).bind fun found hfound => ?_
  refine (yields_fetch_of_lt (by omega) (by rw [List.size_toArray]; omega)).bind fun scheme _ => ?_
  refine (UpdateCode.yields_encode _ scheme _ _ _).bind fun done _ => ?_
  exact Yields.pure hfound

theorem Walk.yields_step (engine : Engine ℝ) {layout : Layout} (frames : Nat) {walk : Walk ℝ}
    {pcm : Array Int16} {i : Nat} (hlayout : layout.Regular) (horder : Lines.Suits layout.order)
    (hpcm : 80 * (i + 1) ≤ pcm.size)
    (h : ∀ k : Nat, k < i → (k : Int) ∈ layout.updates → (walk.lines.size : Int) = layout.order) :
    Yields (walk.step engine layout frames pcm i) fun next =>
      ∀ k : Nat, k < i + 1 → (k : Int) ∈ layout.updates →
        (next.lines.size : Int) = layout.order := by
  refine (walk.yields_analyse engine hpcm).bind fun analysed hanalysed => ?_
  cases hupdate : layout.updateAt? i with
  | none =>
      refine Yields.pure fun k hk hmem => ?_
      rw [hanalysed.2]
      refine h k ?_ hmem
      rcases Nat.lt_succ_iff_lt_or_eq.mp hk with hlt | rfl
      · exact hlt
      · rw [← Layout.isSome_updateAt?, hupdate] at hmem
        cases hmem
  | some u =>
      have hu := (List.findIdx?_eq_some_iff_findIdx_eq.mp hupdate).1
      rw [← hlayout.schemes] at hu
      exact (analysed.yields_update engine frames i horder hu).mono fun next hnext k _ _ => hnext

/-- The walk through all subframes of a frame ends with all lines of its last subframe. -/
theorem yields_walk (engine : Engine ℝ) {layout : Layout} (frames : Nat) (encoder : Encoder ℝ)
    {pcm : Array Int16} (hlayout : layout.Regular) (horder : Lines.Suits layout.order)
    (hpcm : (pcm.size : Int) = layout.subframes * subframeSize) :
    Yields (walk engine layout frames encoder pcm layout.subframes.toNat) fun walked =>
      (walked.lines.size : Int) = layout.order := by
  have hpos := hlayout.subframes_pos
  rw [show (subframeSize : Int) = 80 from rfl] at hpcm
  refine (yields_foldlM_range (P := fun i walk => ∀ k : Nat, k < i → (k : Int) ∈ layout.updates →
    (walk.lines.size : Int) = layout.order) (fun k hk => by omega) fun i walk hi hwalk =>
      Walk.yields_step engine frames hlayout horder (by omega) hwalk).mono fun walked hwalked => ?_
  refine hwalked (layout.subframes.toNat - 1) (by omega) ?_
  rw [show ((layout.subframes.toNat - 1 : Nat) : Int) = layout.subframes - 1 by omega]
  exact List.mem_of_getLast? hlayout.ends

/-- Every frame with the right number of samples is encoded. -/
theorem yields_encode (engine : Engine ℝ) {layout : Layout} (frames : Nat) (encoder : Encoder ℝ)
    {pcm : Array Int16} (hlayout : layout.Regular) (horder : layout.order = 10)
    (hsubframes : layout.subframes ≤ 2 ^ 45) (hlow : 0 ≤ layout.totalBytes)
    (hhigh : layout.totalBytes ≤ 2 ^ 45)
    (hbits : layout.contentBits + layout.spare ≤ 8 * layout.totalBytes)
    (hpcm : (pcm.size : Int) = layout.subframes * subframeSize) :
    Yields (encode engine layout frames encoder pcm) fun _ => True := by
  have hpos := hlayout.subframes_pos
  have hspare := hlayout.spare
  refine (yields_length hlow hhigh).bind ?_
  rintro _ rfl
  refine (yields_length (by omega) hsubframes).bind ?_
  rintro _ rfl
  refine (yields_walk engine frames encoder hlayout
    (by rw [horder]; exact ⟨by decide, by decide, by decide⟩) hpcm).with_eq.bind ?_
  rintro walked ⟨hwalked, hlines⟩
  refine (layout.lines.yields_encode (show walked.lines.size = 10 by omega)).with_eq.bind ?_
  rintro ⟨indexes, lineError⟩ ⟨hindexes, _⟩
  refine (yields_shiftWidth hspare).bind ?_
  rintro _ rfl
  have hfit := widths_of_walk hlayout hwalked hindexes layout.spare.toNat
  obtain ⟨writer, hwriter⟩ := BitWriter.exists_writeAll_start
    (show _ ≤ 8 * layout.totalBytes.toNat by rw [hfit]; omega)
  dsimp only
  rw [hwriter]
  exact Yields.pure trivial

end Frame

/-! ### Sessions -/

/-- An open session encodes every frame with the right number of samples. -/
theorem Session.yields_encode (engine : Engine ℝ) {mode : Mode} {session : Session ℝ}
    {pcm : Array Int16} (hlayout : session.layout = mode.layout) (hopen : session.closed = false)
    (hpcm : (pcm.size : Int) = session.samplesPerFrame) :
    Yields (session.encode engine pcm) fun reply =>
      (∃ bytes, reply.result = .ok bytes ∧ (bytes.length : Int) = mode.layout.totalBytes) ∧
        reply.session.layout = mode.layout ∧ reply.session.closed = false := by
  have hclosed : ¬ session.closed = true := by rw [hopen]; decide
  unfold encode
  dsimp only
  rw [if_neg hclosed, if_neg (not_not_intro hpcm), hlayout]
  rw [samplesPerFrame, hlayout] at hpcm
  refine (Frame.yields_encode engine session.stats.frames session.encoder
    (Layout.regular_of_mode mode) (by cases mode <;> rfl) (by cases mode <;> decide)
    (by cases mode <;> decide) (by cases mode <;> decide) (by cases mode <;> decide)
    hpcm).with_eq.bind ?_
  rintro done ⟨hdone, _⟩
  have hlength := Frame.length_of_encode (Layout.regular_of_mode mode) hdone
  exact Yields.pure ⟨⟨_, rfl, hlength⟩, rfl, hopen⟩

end Vocoder
