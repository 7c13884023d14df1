import Vocoder.Proofs.EncoderRange
import Vocoder.Proofs.PairedOutcomes
import Vocoder.Proofs.StreamPieces

/-!
Analysis does not hear how a stream is cut into frames. The model that a subframe starts from may
hold harmonics of an earlier one, and where a frame starts it is blank; but no stage of the analysis
reads a harmonic before it is measured, and an update leaves what the analysis remembers as it is.
So the subframes of a stream sound the same in every mode.
-/

namespace Vocoder

/-! ### What a model says of a sound -/

namespace Model

variable {α : Type}

/-- Two models have one fundamental and the same amplitudes of its harmonics, whatever stands beyond
the last one. -/
structure SameTones (left right : Model α) : Prop where
  wo : left.wo = right.wo
  count : left.count = right.count
  amps : ∀ m : Int, 1 ≤ m → m ≤ left.count → left.amps.value m = right.amps.value m

/-- Two models describe one sound. -/
structure SameSound (left right : Model α) : Prop extends SameTones left right where
  voiced : left.voiced = right.voiced

namespace SameSound

variable {left middle right : Model α}

theorem symm (h : SameSound left right) : SameSound right left where
  wo := h.wo.symm
  count := h.count.symm
  amps := fun m hlow hhigh => (h.amps m hlow (h.count ▸ hhigh)).symm
  voiced := h.voiced.symm

theorem trans (h : SameSound left middle) (h' : SameSound middle right) :
    SameSound left right where
  wo := h.wo.trans h'.wo
  count := h.count.trans h'.count
  amps := fun m hlow hhigh => (h.amps m hlow hhigh).trans (h'.amps m hlow (h.count ▸ hhigh))
  voiced := h.voiced.trans h'.voiced

end SameSound

end Model

/-! ### Stages -/

theorem Refinement.matches_refine {α : Type} [Analytic α] (range : PitchRange α)
    {left right : Model α} (h : left.wo = right.wo) (bins : Array (Phasor α)) :
    Matches (fun model model' => model.wo = model'.wo ∧ model.count = model'.count)
      (refine range left bins) (refine range right bins) := by
  unfold refine
  rw [h]
  apply (Matches.refl _).bind
  rintro coarse _ rfl
  apply (Matches.refl _).bind
  rintro fine _ rfl
  unfold Model.withFundamental
  dsimp only
  split_ifs
  · rfl
  · exact ⟨rfl, rfl⟩

theorem Amplitudes.sameTones_of_estimate {α : Type} [Analytic α] {bins : Array (Phasor α)}
    {left right left' right' : Model α} (hwo : left.wo = right.wo)
    (hcount : left.count = right.count) (hleft : estimate left bins = .ok left')
    (hright : estimate right bins = .ok right') : left'.SameTones right' := by
  obtain ⟨amps, hamps, hleft⟩ := bind_eq_ok.mp hleft
  obtain ⟨amps', hamps', hright⟩ := bind_eq_ok.mp hright
  obtain rfl := pure_eq_ok.mp hleft
  obtain rfl := pure_eq_ok.mp hright
  refine ⟨hwo, hcount, fun m hlow hhigh => ?_⟩
  obtain ⟨a, ha, hvalue⟩ := Harmonics.value_of_fill hamps hlow hhigh
  obtain ⟨b, hb, hvalue'⟩ := Harmonics.value_of_fill hamps' hlow (hcount ▸ hhigh)
  rw [hwo, hb] at ha
  cases ha
  exact hvalue.trans hvalue'.symm

namespace Voicing

theorem energy_congr {α : Type} [Analytic α] {amps amps' : Harmonics α} {first last : Int}
    (h : ∀ m, first ≤ m → m ≤ last → amps.value m = amps'.value m) :
    energy amps first last = energy amps' first last := by
  apply foldRange_congr
  intro m sum hlow hhigh
  dsimp only
  rw [h m hlow (by omega)]

/-- The voicing sums start at the first harmonic or above it and end at the last one or below it. -/
theorem evidence_congr {left right : Model ℝ} (h : left.SameTones right) (hcount : 2 ≤ left.count)
    (hword : left.count < 2 ^ 63) (bins : Array (Phasor ℝ)) (response : Array ℝ) :
    evidence left bins response = evidence right bins response := by
  have hnonneg : 0 ≤ left.count := by omega
  have hlow := harmonicsTo_bounds hnonneg hword (show (0 : ℝ) ≤ 1000.0 by norm_num) (by norm_num)
  have hhalf := harmonicsTo_bounds hnonneg hword (show (0 : ℝ) ≤ 2000.0 by norm_num) (by norm_num)
  have htop := harmonicsTo_bounds hnonneg hword (show (0 : ℝ) ≤ 4000.0 by norm_num) (by norm_num)
  have hhalf' : 1 ≤ harmonicsTo left.count (2000.0 : ℝ) := by
    have hcount' : (2 : ℝ) ≤ left.count := by exact_mod_cast hcount
    have hword' : (left.count : ℝ) < 2 ^ 63 := by exact_mod_cast hword
    rw [harmonicsTo, Analytic.ofInt_real]
    apply Analytic.le_toWord
    · norm_num at hword' ⊢
      linarith
    · norm_num
      linarith
  have hsame : ∀ {first last : Int}, 1 ≤ first → last ≤ left.count →
      energy left.amps first last = energy right.amps first last := fun hfirst hlast =>
    energy_congr fun m hm hm' => h.amps m (hfirst.trans hm) (hm'.trans hlast)
  unfold evidence
  dsimp only
  rw [hsame le_rfl hlow.2, hsame le_rfl hhalf.2, hsame hhalf' htop.2, h.wo, h.count]

theorem sameSound_of_estimate {bins : Array (Phasor ℝ)} {response : Array ℝ}
    {left right left' right' : Model ℝ} {found found' : Evidence ℝ} (h : left.SameTones right)
    (hcount : 2 ≤ left.count) (hword : left.count < 2 ^ 63)
    (hleft : estimate left bins response = .ok (left', found))
    (hright : estimate right bins response = .ok (right', found')) :
    left'.SameSound right' ∧ found = found' := by
  obtain ⟨evidenceL, hevidenceL, hleft⟩ := bind_eq_ok.mp hleft
  obtain ⟨evidenceR, hevidenceR, hright⟩ := bind_eq_ok.mp hright
  rw [evidence_congr h hcount hword, hevidenceR] at hevidenceL
  cases hevidenceL
  cases pure_eq_ok.mp hleft
  cases pure_eq_ok.mp hright
  exact ⟨⟨⟨h.wo, h.count, h.amps⟩, congrArg (decide found) h.wo⟩, rfl⟩

end Voicing

/-! ### The analysis of a subframe -/

namespace Encoder

variable {α : Type}

/-- Two encoders remember the same speech; what they predict of updates may differ. -/
structure SameHearing (left right : Encoder α) : Prop where
  speech : left.speech = right.speech
  pitch : left.pitch = right.pitch
  lastEstimate : left.lastEstimate = right.lastEstimate
  lastF0 : left.lastF0 = right.lastF0
  lastVoiced : left.lastVoiced = right.lastVoiced

theorem SameHearing.refl (encoder : Encoder α) : encoder.SameHearing encoder :=
  ⟨rfl, rfl, rfl, rfl, rfl⟩

theorem SameHearing.trans {left middle right : Encoder α} (h : left.SameHearing middle)
    (h' : middle.SameHearing right) : left.SameHearing right :=
  ⟨h.speech.trans h'.speech, h.pitch.trans h'.pitch, h.lastEstimate.trans h'.lastEstimate,
    h.lastF0.trans h'.lastF0, h.lastVoiced.trans h'.lastVoiced⟩

theorem SameHearing.spectrum_eq [Analytic α] {left right : Encoder α} (h : left.SameHearing right)
    (engine : Engine α) (order : Int) :
    left.spectrum engine order = right.spectrum engine order := by
  unfold Encoder.spectrum
  rw [h.speech]

namespace Analysis

variable {engine : Engine ℝ} {left right : Encoder ℝ} {fresh : Vector ℝ 80}
  {stale stale' : Model ℝ}

theorem measured_fitted (analysis : Analysis engine left fresh stale) :
    analysis.measured.Fitted := by
  have hrough := Refinement.PeriodFrom.of_period (by norm_num) analysis.found_inBand.low
  have hrefined :=
    (Refinement.yields_refine (Vector.size_toArray analysis.bins) hrough).of_eq analysis.refining
  exact (Amplitudes.yields_estimate hrefined (Vector.size_toArray _)).of_eq analysis.measuring

/-- Encoders that remember the same speech hear the same in a subframe, whatever models they start
from. -/
theorem agree (h : left.SameHearing right) (a : Analysis engine left fresh stale)
    (b : Analysis engine right fresh stale') :
    a.model.SameSound b.model ∧ a.next.SameHearing b.next := by
  have hbins : a.bins = b.bins := by
    have hbins := a.transforming
    rw [h.speech, b.transforming] at hbins
    exact (Except.ok.inj hbins).symm
  have hpair : (a.found, a.pitch) = (b.found, b.pitch) := by
    have hpair := a.estimating
    rw [h.pitch, h.lastEstimate, b.estimating] at hpair
    exact (Except.ok.inj hpair).symm
  obtain ⟨hfound, hpitch⟩ := Prod.mk.inj hpair
  have hrefined : a.refined.wo = b.refined.wo ∧ a.refined.count = b.refined.count := by
    have hmatch := Refinement.matches_refine PitchRange.speech
      (show { stale with wo := Analytic.turn / a.found.period : Model ℝ }.wo =
        { stale' with wo := Analytic.turn / b.found.period : Model ℝ }.wo by rw [hfound])
      a.bins.toArray
    rw [a.refining, hbins, b.refining] at hmatch
    exact hmatch
  have hmeasured : a.measured.SameTones b.measured :=
    Amplitudes.sameTones_of_estimate hrefined.1 hrefined.2 a.measuring (hbins ▸ b.measuring)
  obtain ⟨hten, heighty⟩ := a.measured_fitted.count_bounds
  obtain ⟨hjudged, hevidence⟩ := Voicing.sameSound_of_estimate hmeasured (by omega) (by omega)
    a.judging (hbins ▸ b.judging)
  have hf0 : a.f0 = b.f0 := by
    unfold f0
    rw [hjudged.wo]
  have hvoiced : a.model.voiced = b.model.voiced := by
    unfold model
    rw [hjudged.voiced, hf0, h.lastF0, h.lastVoiced, hevidence]
  exact ⟨⟨⟨hjudged.wo, hjudged.count, hjudged.amps⟩, hvoiced⟩, ⟨by rw [next, next, h.speech],
    hpitch, congrArg Pitch.Estimate.f0 hfound, hf0, hvoiced⟩⟩

end Analysis

/-! ### A stream without frames -/

variable [Analytic α]

/-- The samples of a subframe of a stream, counted from its start. -/
def block (stream : List Int16) (t : Nat) : Vector Int16 80 :=
  Vector.ofFn fun j => stream.getD (80 * t + j.val) 0

/-- The same samples as numbers. -/
def fresh (stream : List Int16) (t : Nat) : Vector α 80 :=
  (block stream t).map fun s => Scalar.ofInt s.toInt

/-- The encoder after the first subframes of a stream, each of which is analysed apart. -/
def after (engine : Engine α) (stream : List Int16) : Nat → Except Fault (Encoder α)
  | 0 => .ok start
  | t + 1 => do
    let encoder ← after engine stream t
    let heard ← encoder.analyse engine (fresh stream t) Model.blank
    return heard.2

/-- What is heard in a subframe of a stream: its model, and the encoder after it. -/
def heardAt (engine : Engine α) (stream : List Int16) (t : Nat) :
    Except Fault (Model α × Encoder α) := do
  let encoder ← after engine stream t
  encoder.analyse engine (fresh stream t) Model.blank

theorem after_succ (engine : Engine α) (stream : List Int16) (t : Nat) :
    after engine stream (t + 1) = do return (← heardAt engine stream t).2 := by
  rw [after, heardAt, bind_assoc]

/-- An encoder remembers the first subframes of a stream. -/
def Follows (engine : Engine α) (stream : List Int16) (t : Nat) (encoder : Encoder α) : Prop :=
  ∃ reference, after engine stream t = .ok reference ∧ encoder.SameHearing reference

theorem Follows.congr {engine : Engine α} {stream : List Int16} {t : Nat}
    {encoder encoder' : Encoder α} (h : Follows engine stream t encoder)
    (hsame : encoder'.SameHearing encoder) : Follows engine stream t encoder' := by
  obtain ⟨reference, hreference, hencoder⟩ := h
  exact ⟨reference, hreference, hsame.trans hencoder⟩

/-- A model and the encoder after it are what is heard in a subframe of a stream. -/
def Hears (engine : Engine α) (stream : List Int16) (t : Nat) (model : Model α)
    (encoder : Encoder α) : Prop :=
  ∃ heard, heardAt engine stream t = .ok heard ∧ model.SameSound heard.1 ∧
    encoder.SameHearing heard.2

theorem Hears.follows {engine : Engine α} {stream : List Int16} {t : Nat} {model : Model α}
    {encoder : Encoder α} (h : Hears engine stream t model encoder) :
    Follows engine stream (t + 1) encoder := by
  obtain ⟨heard, hheard, _, hencoder⟩ := h
  refine ⟨heard.2, ?_, hencoder⟩
  rw [after_succ, hheard]
  rfl

/-- Whatever model an encoder starts from, it hears what the stream has. -/
theorem Follows.hears {engine : Engine ℝ} {stream : List Int16} {t : Nat} {encoder : Encoder ℝ}
    (h : Follows engine stream t encoder) {stale : Model ℝ} {heard : Model ℝ × Encoder ℝ}
    (hheard : encoder.analyse engine (fresh stream t) stale = .ok heard) :
    Hears engine stream t heard.1 heard.2 := by
  obtain ⟨reference, hreference, hsame⟩ := h
  obtain ⟨done, hdone, _⟩ := reference.yields_analyse engine (fresh stream t) Model.blank
  obtain ⟨analysis, rfl⟩ := Analysis.exists_of_analyse hheard
  obtain ⟨analysis', rfl⟩ := Analysis.exists_of_analyse hdone
  obtain ⟨hmodel, hencoder⟩ := Analysis.agree hsame analysis analysis'
  exact ⟨_, bind_eq_ok.mpr ⟨reference, hreference, hdone⟩, hmodel, hencoder⟩

end Encoder

/-! ### The subframes of a frame -/

/-- What the encoder finds in a subframe of a frame: a model, and at an update the energy and the
lines. -/
structure Finding (α : Type) where
  frame : Nat
  subframe : Nat
  model : Model α
  spectrum : Option (Prediction.Spectrum α)

/-- The reports of a finding: its model, and at an update the energy and whether lines stand in. -/
def Finding.notices {α : Type} [Scalar α] (finding : Finding α) : List (Notice α) :=
  .entered ⟨.analysing, finding.subframe, finding.model, 0.0⟩ ::
    match finding.spectrum with
    | none => []
    | some found =>
      (if found.found then [] else [.fallback finding.frame found.energy]) ++
        [.entered ⟨.quantising, finding.subframe, finding.model, found.energy⟩]

/-- A report that tells of a subframe. -/
def Notice.ofSubframe {α : Type} : Notice α → Bool
  | .created => false
  | .entered event => event.stage = .analysing ∨ event.stage = .quantising
  | .fallback _ _ => true

theorem Finding.filter_notices {α : Type} [Scalar α] (finding : Finding α) :
    finding.notices.filter Notice.ofSubframe = finding.notices := by
  unfold notices
  cases finding.spectrum with
  | none => rfl
  | some found =>
      dsimp only
      split_ifs <;> rfl

/-- A finding is that of a subframe of a stream, which carries an update or does not. -/
structure Finding.At {α : Type} [Analytic α] (engine : Engine α) (stream : List Int16) (t : Nat)
    (updated : Prop) (finding : Finding α) (encoder : Encoder α) : Prop where
  hears : Encoder.Hears engine stream t finding.model encoder
  updated_iff : finding.spectrum.isSome ↔ updated
  spectrum : ∀ found, finding.spectrum = some found → encoder.spectrum engine 10 = .ok found

/-- Two findings of one subframe agree, as far as both say something. -/
theorem Finding.At.agree {α : Type} [Analytic α] {engine : Engine α} {stream : List Int16} {t : Nat}
    {updated updated' : Prop} {finding finding' : Finding α} {encoder encoder' : Encoder α}
    (h : finding.At engine stream t updated encoder)
    (h' : finding'.At engine stream t updated' encoder') :
    finding.model.SameSound finding'.model ∧
      ∀ found found', finding.spectrum = some found → finding'.spectrum = some found' →
        found = found' := by
  obtain ⟨heard, hheard, hmodel, hencoder⟩ := h.hears
  obtain ⟨heard', hheard', hmodel', hencoder'⟩ := h'.hears
  rw [hheard] at hheard'
  cases hheard'
  refine ⟨hmodel.trans hmodel'.symm, fun found found' hfound hfound' => ?_⟩
  have hleft := h.spectrum found hfound
  have hright := h'.spectrum found' hfound'
  rw [hencoder.spectrum_eq] at hleft
  rw [hencoder'.spectrum_eq, hleft] at hright
  exact Except.ok.inj hright

namespace Frame

section

variable {α : Type} [Analytic α]

/-- What is found in a subframe of a frame, after the walk through those before it. -/
def findAt (engine : Engine α) (layout : Layout) (frames : Nat) (encoder : Encoder α)
    (pcm : Array Int16) (i : Nat) : Except Fault (Finding α) := do
  let before ← walk engine layout frames encoder pcm i
  let walked ← before.analyse engine pcm i
  if (layout.updateAt? i).isSome then
    return ⟨frames, i, walked.model, some (← walked.encoder.spectrum engine layout.order)⟩
  else return ⟨frames, i, walked.model, none⟩

theorem Walk.sameHearing_of_update {engine : Engine α} {layout : Layout} {frames i u : Nat}
    {walk next : Walk α} (h : walk.update engine layout frames i u = .ok next) :
    next.encoder.SameHearing walk.encoder := by
  obtain ⟨found, _, h⟩ := bind_eq_ok.mp h
  obtain ⟨scheme, _, h⟩ := bind_eq_ok.mp h
  obtain ⟨⟨code, reference⟩, _, h⟩ := bind_eq_ok.mp h
  obtain rfl := pure_eq_ok.mp h
  exact ⟨rfl, rfl, rfl, rfl, rfl⟩

theorem Walk.notices_of_analyse {engine : Engine α} {walk next : Walk α} {pcm : Array Int16}
    {i : Nat} (h : walk.analyse engine pcm i = .ok next) :
    next.notices = walk.notices ++ [.entered ⟨.analysing, i, next.model, 0.0⟩] := by
  obtain ⟨samples, _, h⟩ := bind_eq_ok.mp h
  obtain ⟨heard, _, h⟩ := bind_eq_ok.mp h
  obtain rfl := pure_eq_ok.mp h
  rfl

variable {engine : Engine α} {layout : Layout} {frames : Nat} {encoder : Encoder α}
  {pcm : Array Int16}

/-- A subframe of the walk reports what is found in it. -/
theorem Walk.notices_of_step {walked next : Walk α} {finding : Finding α} {i : Nat}
    (hwalked : walk engine layout frames encoder pcm i = .ok walked)
    (hfinding : findAt engine layout frames encoder pcm i = .ok finding)
    (h : walked.step engine layout frames pcm i = .ok next) :
    next.notices = walked.notices ++ finding.notices := by
  obtain ⟨before, hbefore, hfinding⟩ := bind_eq_ok.mp hfinding
  rw [hwalked] at hbefore
  obtain rfl := Except.ok.inj hbefore
  obtain ⟨analysed, hanalysed, hfinding⟩ := bind_eq_ok.mp hfinding
  obtain ⟨analysed', hanalysed', h⟩ := bind_eq_ok.mp h
  rw [hanalysed] at hanalysed'
  obtain rfl := Except.ok.inj hanalysed'
  have hnotices := Walk.notices_of_analyse hanalysed
  cases hat : layout.updateAt? i with
  | none =>
      rw [hat] at h hfinding
      obtain rfl := pure_eq_ok.mp h
      obtain rfl := pure_eq_ok.mp hfinding
      exact hnotices
  | some u =>
      rw [hat] at h hfinding
      obtain ⟨found, hfound, hfinding⟩ := bind_eq_ok.mp hfinding
      obtain rfl := pure_eq_ok.mp hfinding
      obtain ⟨found', hfound', h⟩ := bind_eq_ok.mp h
      rw [hfound] at hfound'
      obtain rfl := Except.ok.inj hfound'
      obtain ⟨scheme, _, h⟩ := bind_eq_ok.mp h
      obtain ⟨⟨code, reference⟩, _, h⟩ := bind_eq_ok.mp h
      obtain rfl := pure_eq_ok.mp h
      simp only [Finding.notices, hnotices, List.append_assoc, List.cons_append, List.nil_append]

theorem notices_of_walk {findings : List (Finding α)}
    (hfindings : ∀ (i : Nat) finding, findings[i]? = some finding →
      findAt engine layout frames encoder pcm i = .ok finding)
    {count : Nat} (hcount : count ≤ findings.length) {walked : Walk α}
    (h : walk engine layout frames encoder pcm count = .ok walked) :
    walked.notices = (findings.take count).flatMap Finding.notices := by
  induction count generalizing walked with
  | zero =>
      cases h
      rfl
  | succ count ih =>
      rw [walk_succ] at h
      obtain ⟨before, hbefore, hstep⟩ := bind_eq_ok.mp h
      have hfinding := hfindings count _ (List.getElem?_eq_getElem hcount)
      rw [Walk.notices_of_step hbefore hfinding hstep, ih (by omega) hbefore,
        List.take_succ_eq_append_getElem hcount, List.flatMap_append, List.flatMap_singleton]

theorem exists_walk_of_encode {done : Encoded α}
    (h : encode engine layout frames encoder pcm = .ok done) :
    ∃ walked, walk engine layout frames encoder pcm layout.subframes.toNat = .ok walked ∧
      done.encoder = walked.encoder ∧ done.notices = walked.notices ++
        [.entered (Event.ofFrame .packed), .entered (Event.ofFrame .idle)] := by
  obtain ⟨size, _, h⟩ := bind_eq_ok.mp h
  obtain ⟨subframes, hsubframes, h⟩ := bind_eq_ok.mp h
  obtain ⟨walked, hwalked, h⟩ := bind_eq_ok.mp h
  obtain ⟨⟨indexes, lineError⟩, _, h⟩ := bind_eq_ok.mp h
  obtain ⟨spare, _, h⟩ := bind_eq_ok.mp h
  obtain ⟨writer, _, h⟩ := bind_eq_ok.mp h
  obtain rfl := pure_eq_ok.mp h
  obtain ⟨_, _, rfl⟩ := length_eq_ok.mp hsubframes
  exact ⟨walked, hwalked, rfl, rfl⟩

end

variable {engine : Engine ℝ} {layout : Layout} {frames : Nat} {encoder : Encoder ℝ}
  {pcm : Array Int16} {stream : List Int16}

theorem Walk.hears_of_analyse {walk next : Walk ℝ} {i t : Nat}
    (hwalk : walk.encoder.Follows engine stream t)
    (hpcm : subframe pcm i = .ok (Encoder.block stream t))
    (h : walk.analyse engine pcm i = .ok next) :
    Encoder.Hears engine stream t next.model next.encoder := by
  obtain ⟨samples, hsamples, h⟩ := bind_eq_ok.mp h
  rw [hpcm] at hsamples
  obtain rfl := Except.ok.inj hsamples
  obtain ⟨heard, hheard, h⟩ := bind_eq_ok.mp h
  obtain rfl := pure_eq_ok.mp h
  exact hwalk.hears hheard

/-- A subframe with its update, if it carries one, leaves an encoder that remembers the stream up to
it. -/
theorem Walk.follows_step {walk next : Walk ℝ} {i t : Nat}
    (hwalk : walk.encoder.Follows engine stream t)
    (hpcm : subframe pcm i = .ok (Encoder.block stream t))
    (h : walk.step engine layout frames pcm i = .ok next) :
    next.encoder.Follows engine stream (t + 1) := by
  obtain ⟨analysed, hanalysed, h⟩ := bind_eq_ok.mp h
  have hfollows := (Walk.hears_of_analyse hwalk hpcm hanalysed).follows
  cases hat : layout.updateAt? i with
  | none =>
      rw [hat] at h
      obtain rfl := pure_eq_ok.mp h
      exact hfollows
  | some u =>
      rw [hat] at h
      exact hfollows.congr (Walk.sameHearing_of_update h)

variable {base count : Nat}

theorem follows_walk (hencoder : encoder.Follows engine stream base)
    (hpcm : ∀ i < count, subframe pcm i = .ok (Encoder.block stream (base + i))) {walked : Walk ℝ}
    (h : walk engine layout frames encoder pcm count = .ok walked) :
    walked.encoder.Follows engine stream (base + count) :=
  foldlM_range_induction
    (P := fun i (walk : Walk ℝ) => walk.encoder.Follows engine stream (base + i)) h hencoder
    fun i _ _ hi hwalk hstep => Walk.follows_step hwalk (hpcm i hi) hstep

/-- A frame holds the subframes of a stream from a given one on. -/
structure Holds (layout : Layout) (stream : List Int16) (base : Nat) (pcm : Array Int16) :
    Prop where
  size : (pcm.size : Int) = layout.subframes * subframeSize
  subframes : ∀ i < layout.subframes.toNat,
    subframe pcm i = .ok (Encoder.block stream (base + i))

theorem follows_encode {done : Encoded ℝ} (hencoder : encoder.Follows engine stream base)
    (hpcm : Holds layout stream base pcm)
    (h : encode engine layout frames encoder pcm = .ok done) :
    done.encoder.Follows engine stream (base + layout.subframes.toNat) := by
  obtain ⟨walked, hwalked, hdone, _⟩ := exists_walk_of_encode h
  rw [hdone]
  exact follows_walk hencoder hpcm.subframes hwalked

theorem yields_findAt {i t : Nat} {walked next : Walk ℝ}
    (hwalked : walk engine layout frames encoder pcm i = .ok walked)
    (hnext : walked.analyse engine pcm i = .ok next) (horder : layout.order = 10)
    (hears : Encoder.Hears engine stream t next.model next.encoder) :
    Yields (findAt engine layout frames encoder pcm i) fun finding =>
      ∃ encoder, finding.At engine stream t ((i : Int) ∈ layout.updates) encoder := by
  have hiff := layout.isSome_updateAt? i
  have hspectrum : Yields (next.encoder.spectrum engine layout.order) fun _ => True := by
    rw [horder]
    exact (Prediction.yields_spectrum ⟨by decide, by decide, by decide⟩ (by simp) (by simp)).mono
      fun _ _ => trivial
  refine Yields.bind ⟨_, hwalked, rfl⟩ ?_
  rintro _ rfl
  refine Yields.bind ⟨_, hnext, rfl⟩ ?_
  rintro _ rfl
  by_cases hupdate : (layout.updateAt? i).isSome
  · rw [if_pos hupdate]
    refine hspectrum.with_eq.bind fun found hfound => Yields.pure ⟨next.encoder, hears, ?_, ?_⟩
    · simpa [hupdate] using hiff
    · rintro _ ⟨⟩
      exact horder ▸ hfound.1
  · rw [if_neg hupdate]
    refine Yields.pure ⟨next.encoder, hears, ?_, ?_⟩
    · simpa [hupdate] using hiff
    · rintro _ ⟨⟩

/-- In every subframe of a frame that is encoded something is found: what the stream has there, and
what is reported. -/
theorem yields_findings {done : Encoded ℝ} (hencoder : encoder.Follows engine stream base)
    (hpcm : Holds layout stream base pcm) (horder : layout.order = 10)
    (h : encode engine layout frames encoder pcm = .ok done) :
    Yields (tabulate layout.subframes.toNat (findAt engine layout frames encoder pcm))
      fun findings => findings.size = layout.subframes.toNat ∧
        done.notices.filter Notice.ofSubframe = findings.toList.flatMap Finding.notices ∧
        ∀ (i : Nat) (finding : Finding ℝ), findings[i]? = some finding →
          ∃ encoder, finding.At engine stream (base + i) ((i : Int) ∈ layout.updates) encoder := by
  obtain ⟨walked, hwalked, _, hdone⟩ := exists_walk_of_encode h
  have hnotices : done.notices.filter Notice.ofSubframe =
      walked.notices.filter Notice.ofSubframe := by
    rw [hdone, List.filter_append]
    exact List.append_nil _
  have hvalue : ∀ i < layout.subframes.toNat, Yields (findAt engine layout frames encoder pcm i)
      fun finding => findAt engine layout frames encoder pcm i = .ok finding ∧
        ∃ encoder, finding.At engine stream (base + i) ((i : Int) ∈ layout.updates) encoder := by
    intro i hi
    obtain ⟨next, hnext, _⟩ := walk_earlier (show i + 1 ≤ layout.subframes.toNat by omega) hwalked
    rw [walk_succ] at hnext
    obtain ⟨before, hbefore, hstep⟩ := bind_eq_ok.mp hnext
    obtain ⟨analysed, hanalysed, _⟩ := bind_eq_ok.mp hstep
    have hfollows := follows_walk hencoder (fun k hk => hpcm.subframes k (by omega)) hbefore
    have hears := Walk.hears_of_analyse hfollows (hpcm.subframes i hi) hanalysed
    exact (yields_findAt hbefore hanalysed horder hears).with_eq
  refine (yields_tabulate_at hvalue).mono fun findings hfindings => ⟨hfindings.1, ?_, ?_⟩
  · have hlength : findings.toList.length = layout.subframes.toNat := by
      rw [Array.length_toList, hfindings.1]
    have hfound : ∀ (i : Nat) finding, findings.toList[i]? = some finding →
        findAt engine layout frames encoder pcm i = .ok finding := by
      intro i finding hfinding
      rw [Array.getElem?_toList] at hfinding
      exact (hfindings.2 i finding hfinding).1
    rw [hnotices, notices_of_walk hfound hlength.ge hwalked, ← hlength, List.take_length,
      List.filter_flatMap]
    exact List.flatMap_congr fun finding _ => finding.filter_notices
  · intro i finding hfinding
    exact (hfindings.2 i finding hfinding).2

/-- The subframes of a piece of a stream are those of the stream. -/
theorem subframe_piece {piece : List Int16} {n k i : Nat} (hlength : piece.length = 80 * n)
    (hpiece : piece = (stream.drop (80 * n * k)).take (80 * n)) (hi : i < n) :
    subframe piece.toArray i = .ok (Encoder.block stream (n * k + i)) := by
  have hend : 80 * i + 80 ≤ 80 * n := by omega
  have hfirst : (80 * (i : Int)).toNat = 80 * i := by omega
  have hslice : slice piece.toArray (80 * i) (80 * i + 80) =
      .ok (Encoder.block stream (n * k + i)).toArray := by
    rw [slice_eq_ok]
    refine ⟨by omega, by omega, by rw [List.size_toArray]; omega, ?_⟩
    apply Array.ext
    · rw [Vector.size_toArray, Array.size_extract, List.size_toArray]
      omega
    · intro j hj hj'
      rw [Vector.size_toArray] at hj
      have hget : piece[80 * i + j]? = stream[80 * (n * k + i) + j]? := by
        rw [hpiece, List.getElem?_take_of_lt (by omega), List.getElem?_drop]
        congr 1
        ring
      have hsome : piece[80 * i + j]? = some piece[80 * i + j] :=
        List.getElem?_eq_getElem (by omega)
      simp only [Encoder.block, Vector.getElem_toArray, Vector.getElem_ofFn, Array.getElem_extract,
        List.getElem_toArray, List.getD_eq_getElem?_getD, ← hget, hsome, Option.getD_some, hfirst]
  refine bind_eq_ok.mpr ⟨_, hslice, ?_⟩
  rw [dif_pos (Vector.size_toArray _)]
  rfl

end Frame

/-! ### Sessions -/

namespace Session

section

variable {α : Type} [Analytic α]

/-- The frames of a stream of samples. -/
def cut (session : Session α) (stream : List Int16) : List (Array Int16) :=
  (pieces session.samplesPerFrame.toNat stream).map List.toArray

/-- What is found in the subframes of frames that are encoded in turn. -/
def findings (engine : Engine α) (session : Session α) :
    List (Array Int16) → Except Fault (List (Finding α))
  | [] => .ok []
  | pcm :: rest => do
    let found ← tabulate session.layout.subframes.toNat
      (Frame.findAt engine session.layout session.stats.frames session.encoder pcm)
    let reply ← session.encode engine pcm
    return found.toList ++ (← reply.session.findings engine rest)

/-- What the replies to frames report, subframe by subframe. -/
def reported (replies : List (Reply α (List UInt8))) : List (Notice α) :=
  replies.flatMap fun reply => reply.notices.filter Notice.ofSubframe

omit [Analytic α] in
theorem reported_cons (reply : Reply α (List UInt8)) (replies : List (Reply α (List UInt8))) :
    reported (reply :: replies) = reply.notices.filter Notice.ofSubframe ++ reported replies :=
  List.flatMap_cons

end

variable {engine : Engine ℝ} {mode : Mode} {stream : List Int16}

/-- A session that remembers a stream up to its next frame finds in the frames to come what the
stream has, and reports what it finds. -/
theorem exists_findings {session : Session ℝ} {base : Nat} {run : List (Array Int16)}
    (hlayout : session.layout = mode.layout) (hopen : session.closed = false)
    (hencoder : session.encoder.Follows engine stream base)
    (hrun : ∀ (k : Nat) (pcm : Array Int16), run[k]? = some pcm →
      Frame.Holds mode.layout stream (base + mode.layout.subframes.toNat * k) pcm) :
    ∃ sent found, session.encodeAll engine run = .ok sent ∧
      session.findings engine run = .ok found ∧ reported sent = found.flatMap Finding.notices ∧
      found.length = mode.layout.subframes.toNat * run.length ∧
      ∀ (t : Nat) (finding : Finding ℝ), found[t]? = some finding →
        ∃ encoder, finding.At engine stream (base + t)
          (((t % mode.layout.subframes.toNat : Nat) : Int) ∈ mode.layout.updates) encoder := by
  induction run generalizing session base with
  | nil => exact ⟨[], [], rfl, rfl, rfl, rfl, by simp⟩
  | cons pcm rest ih =>
      have hholds := hrun 0 pcm rfl
      rw [Nat.mul_zero, Nat.add_zero] at hholds
      have hpcm : (pcm.size : Int) = session.samplesPerFrame := by
        rw [hholds.size, samplesPerFrame, hlayout]
      obtain ⟨reply, hreply, _, hnext, hopen'⟩ := yields_encode engine hlayout hopen hpcm
      obtain ⟨done, hdone, rfl⟩ := exists_of_encode hopen hpcm hreply
      rw [hlayout] at hdone
      obtain ⟨findings, hfindings, hcount, hreports, hfound⟩ :=
        Frame.yields_findings hencoder hholds (by cases mode <;> rfl) hdone
      have hrest : ∀ (k : Nat) (pcm : Array Int16), rest[k]? = some pcm →
          Frame.Holds mode.layout stream (base + mode.layout.subframes.toNat +
            mode.layout.subframes.toNat * k) pcm := by
        intro k pcm hk
        have hlater := hrun (k + 1) pcm hk
        rwa [Nat.mul_succ, Nat.add_comm (_ * k), ← Nat.add_assoc] at hlater
      obtain ⟨sent, later, hsent, hlater, hreports', hcount', hfound'⟩ :=
        ih hnext hopen' (Frame.follows_encode hencoder hholds hdone) hrest
      refine ⟨session.encoded done :: sent, findings.toList ++ later,
        bind_eq_ok.mpr ⟨_, hreply, bind_eq_ok.mpr ⟨sent, hsent, rfl⟩⟩,
        bind_eq_ok.mpr ⟨findings, by rw [hlayout]; exact hfindings,
          bind_eq_ok.mpr ⟨_, hreply, bind_eq_ok.mpr ⟨later, hlater, rfl⟩⟩⟩, ?_, ?_, ?_⟩
      · rw [reported_cons, hreports', List.flatMap_append, ← hreports]
        rfl
      · rw [List.length_append, Array.length_toList, hcount, hcount', List.length_cons]
        ring
      · intro t finding hfinding
        by_cases ht : t < mode.layout.subframes.toNat
        · rw [List.getElem?_append_left (by simpa [hcount] using ht), Array.getElem?_toList]
            at hfinding
          rw [Nat.mod_eq_of_lt ht]
          exact hfound t finding hfinding
        · rw [List.getElem?_append_right (by simpa [hcount] using ht), Array.length_toList, hcount]
            at hfinding
          have hlater := hfound' _ finding hfinding
          rwa [Nat.add_assoc, Nat.add_sub_of_le (by omega), ← Nat.mod_eq_sub_mod (by omega)]
            at hlater

theorem samplesPerFrame_eq {session : Session ℝ} (hlayout : session.layout = mode.layout) :
    session.samplesPerFrame.toNat = 80 * mode.layout.subframes.toNat := by
  rw [samplesPerFrame, hlayout, show (subframeSize : Int) = 80 from rfl]
  omega

/-- The frames of a stream hold its subframes. -/
theorem holds_cut {session : Session ℝ} (hlayout : session.layout = mode.layout) {k : Nat}
    {pcm : Array Int16} (h : (session.cut stream)[k]? = some pcm) :
    Frame.Holds mode.layout stream (mode.layout.subframes.toNat * k) pcm := by
  have hpos := (Layout.regular_of_mode mode).subframes_pos
  rw [cut, samplesPerFrame_eq hlayout, List.getElem?_map, Option.map_eq_some_iff] at h
  obtain ⟨piece, hpiece, rfl⟩ := h
  obtain ⟨hplace, hlength⟩ := getElem?_pieces (by omega) hpiece
  refine ⟨?_, fun i hi => Frame.subframe_piece hlength hplace hi⟩
  rw [List.size_toArray, hlength, show (subframeSize : Int) = 80 from rfl]
  omega

theorem length_cut {session : Session ℝ} (hlayout : session.layout = mode.layout) :
    (session.cut stream).length = stream.length / (80 * mode.layout.subframes.toNat) := by
  have hpos := (Layout.regular_of_mode mode).subframes_pos
  rw [cut, List.length_map, samplesPerFrame_eq hlayout, (cutInto_pieces (by omega) _).length_eq]

/-- A new session finds in the frames of a stream what the stream has. -/
theorem exists_findings_of_create (mode : Mode) (engine : Engine ℝ) (choices : List (Choice ℝ))
    {stream : List Int16} (hstream : mode.layout.subframes * subframeSize ∣ (stream.length : Int)) :
    ∃ session notices, create mode choices = .ok (session, notices) ∧
      ∃ sent found, session.encodeAll engine (session.cut stream) = .ok sent ∧
        session.findings engine (session.cut stream) = .ok found ∧
        reported sent = found.flatMap Finding.notices ∧ found.length = stream.length / 80 ∧
        ∀ (t : Nat) (finding : Finding ℝ), found[t]? = some finding →
          ∃ encoder, finding.At engine stream t
            (((t % mode.layout.subframes.toNat : Nat) : Int) ∈ mode.layout.updates) encoder := by
  obtain ⟨session, notices, hcreate, hsession⟩ := exists_create mode choices
  obtain ⟨decoder, _, hstart⟩ := exists_of_create hcreate
  have hfollows : session.encoder.Follows engine stream 0 :=
    ⟨Encoder.start, rfl, hstart ▸ Encoder.SameHearing.refl _⟩
  have hrun : ∀ (k : Nat) (pcm : Array Int16), (session.cut stream)[k]? = some pcm →
      Frame.Holds mode.layout stream (0 + mode.layout.subframes.toNat * k) pcm := by
    intro k pcm hk
    rw [Nat.zero_add]
    exact holds_cut hsession.layout hk
  obtain ⟨sent, found, hsent, hfound, hreports, hcount, hfindings⟩ :=
    exists_findings hsession.layout hsession.opened hfollows hrun
  refine ⟨session, notices, hcreate, sent, found, hsent, hfound, hreports, ?_, ?_⟩
  · rw [hcount, length_cut hsession.layout, ← Nat.div_div_eq_div_mul]
    apply Nat.mul_div_cancel'
    apply Nat.dvd_div_of_mul_dvd
    have hpos := (Layout.regular_of_mode mode).subframes_pos
    have hsize : ((80 * mode.layout.subframes.toNat : Nat) : Int) =
        mode.layout.subframes * subframeSize := by
      rw [show (subframeSize : Int) = 80 from rfl]
      omega
    rwa [← Int.natCast_dvd_natCast, hsize]
  · simpa only [Nat.zero_add] using hfindings

end Session

/-- The analysis of a stream does not depend on the mode or on how the stream is cut into frames. In
each subframe the sessions of two modes find one sound, and where both carry an update, the same
energy and the same lines. -/
theorem analysis_independent_of_framing (left right : Mode) (engine : Engine ℝ)
    (choices others : List (Choice ℝ)) (stream : List Int16)
    (hleft : left.layout.subframes * subframeSize ∣ (stream.length : Int))
    (hright : right.layout.subframes * subframeSize ∣ (stream.length : Int)) :
    ∃ first second notices notices', Session.create left choices = .ok (first, notices) ∧
      Session.create right others = .ok (second, notices') ∧
      ∃ sent sent' found found',
        first.encodeAll engine (first.cut stream) = .ok sent ∧
        second.encodeAll engine (second.cut stream) = .ok sent' ∧
        first.findings engine (first.cut stream) = .ok found ∧
        second.findings engine (second.cut stream) = .ok found' ∧
        Session.reported sent = found.flatMap Finding.notices ∧
        Session.reported sent' = found'.flatMap Finding.notices ∧
        found.length = stream.length / 80 ∧ found'.length = stream.length / 80 ∧
        ∀ (t : Nat) (finding finding' : Finding ℝ), found[t]? = some finding →
          found'[t]? = some finding' →
          finding.model.SameSound finding'.model ∧
          (finding.spectrum.isSome ↔
            ((t % left.layout.subframes.toNat : Nat) : Int) ∈ left.layout.updates) ∧
          (finding'.spectrum.isSome ↔
            ((t % right.layout.subframes.toNat : Nat) : Int) ∈ right.layout.updates) ∧
          ∀ spectrum spectrum', finding.spectrum = some spectrum →
            finding'.spectrum = some spectrum' → spectrum = spectrum' := by
  obtain ⟨first, notices, hfirst, sent, found, hsent, hfound, hreports, hcount, hat⟩ :=
    Session.exists_findings_of_create left engine choices hleft
  obtain ⟨second, notices', hsecond, sent', found', hsent', hfound', hreports', hcount', hat'⟩ :=
    Session.exists_findings_of_create right engine others hright
  refine ⟨first, second, notices, notices', hfirst, hsecond, sent, sent', found, found', hsent,
    hsent', hfound, hfound', hreports, hreports', hcount, hcount', ?_⟩
  intro t finding finding' hfinding hfinding'
  obtain ⟨_, hplace⟩ := hat t finding hfinding
  obtain ⟨_, hplace'⟩ := hat' t finding' hfinding'
  obtain ⟨hsound, hspectrum⟩ := hplace.agree hplace'
  exact ⟨hsound, hplace.updated_iff, hplace'.updated_iff, hspectrum⟩

/-- Two frames of four subframes and four of two on one stream, whose last subframe is an update in
both modes. -/
theorem analysis_independent_of_framing_last :
    ∃ stream : List Int16, stream = List.replicate 640 1000 ∧
      Mode.rate3200.layout.subframes * subframeSize ∣ (stream.length : Int) ∧
      Mode.rate1300.layout.subframes * subframeSize ∣ (stream.length : Int) ∧
      ∃ (first second : Session ℝ) (notices notices' : List (Notice ℝ)),
        Session.create .rate3200 [] = .ok (first, notices) ∧
        Session.create .rate1300 [] = .ok (second, notices') ∧
        ∃ found found' : List (Finding ℝ),
          first.findings (Engine.ofTransform Transform.dft) (first.cut stream) = .ok found ∧
          second.findings (Engine.ofTransform Transform.dft) (second.cut stream) = .ok found' ∧
          ∃ finding finding' spectrum, found[7]? = some finding ∧ found'[7]? = some finding' ∧
            finding.model.SameSound finding'.model ∧ finding.spectrum = some spectrum ∧
            finding'.spectrum = some spectrum := by
  have hlength : (List.replicate 640 (1000 : Int16)).length = 640 := List.length_replicate
  generalize List.replicate 640 (1000 : Int16) = stream at hlength
  have hleft : Mode.rate3200.layout.subframes * subframeSize ∣ (stream.length : Int) := by
    rw [hlength]
    decide
  have hright : Mode.rate1300.layout.subframes * subframeSize ∣ (stream.length : Int) := by
    rw [hlength]
    decide
  obtain ⟨first, second, notices, notices', hfirst, hsecond, _, _, found, found', _, _, hfound,
    hfound', _, _, hcount, hcount', hagree⟩ := analysis_independent_of_framing .rate3200 .rate1300
      (Engine.ofTransform Transform.dft) [] [] stream hleft hright
  rw [hlength] at hcount hcount'
  have hfinding := List.getElem?_eq_getElem (show 7 < found.length by omega)
  have hfinding' := List.getElem?_eq_getElem (show 7 < found'.length by omega)
  obtain ⟨hsound, hiff, hiff', hsame⟩ := hagree 7 _ _ hfinding hfinding'
  obtain ⟨spectrum, hspectrum⟩ := Option.isSome_iff_exists.mp (hiff.mpr (by decide))
  obtain ⟨spectrum', hspectrum'⟩ := Option.isSome_iff_exists.mp (hiff'.mpr (by decide))
  obtain rfl := hsame spectrum spectrum' hspectrum hspectrum'
  exact ⟨stream, rfl, hleft, hright, first, second, notices, notices', hfirst, hsecond, found,
    found', hfound, hfound', _, _, spectrum, hfinding, hfinding', hsound, hspectrum, hspectrum'⟩

end Vocoder
