import Vocoder.Frame.Decode
import Vocoder.Proofs.Outcome

/-!
Decoding of a frame that returned, taken apart. A `Stages` holds what every stage made of what the
stages before it had made; decoding returns exactly when there is one, and gives its `result`. What
is proved of a stage can so be used without opening the stages before it. The last stage goes
through the subframes, and each of its steps is taken apart in the same way.
-/

namespace Vocoder

variable {α : Type} [Analytic α]

/-- Before the first frame there is no noise, and the generator is at the seed. -/
theorem Decoder.fresh_of_start {order : Int} {seed : UInt64} {decoder : Decoder α}
    (h : start order seed = .ok decoder) : decoder.background = 0.0 ∧ decoder.noise = ⟨seed⟩ := by
  obtain ⟨count, _, h⟩ := bind_eq_ok.mp h
  obtain ⟨model, _, h⟩ := bind_eq_ok.mp h
  obtain rfl := pure_eq_ok.mp h
  exact ⟨rfl, rfl⟩

namespace Frame

/-- What the stages of decoding a frame make, in order. -/
structure Stages (engine : Engine α) (layout : Layout) (settings : PostFilter α)
    (decoder : Decoder α) (bytes : List UInt8) (errorRate : α) where
  count : Nat
  content : Content
  received : Subframes α
  reference : UpdateCode.Reference α
  decoded : Array α
  ordered : Array α
  swaps : Nat
  lines : Array α
  /-- The last subframe before interpolation. -/
  dequantised : Model α
  dequantisedEnergy : α
  interpolated : Subframes α
  /-- The lines that each subframe is synthesised from. -/
  tracks : Array (Array α)
  sounding : Sounding α
  lastModel : Model α
  lastEnergy : α
  counted : length layout.subframes = .ok count
  unpacked : read layout bytes = .ok content
  updating : updated layout decoder count content = .ok (received, reference)
  decoding : layout.lines.decode content.lines.toArray = .ok decoded
  ordering : Lines.reorder decoded layout.order = .ok (ordered, swaps)
  spreading : Lines.spread ordered layout.order = .ok lines
  dequantising : fetch received.models (count - 1 : Int) = .ok dequantised
  dequantisingEnergy : fetch received.energies (count - 1 : Int) = .ok dequantisedEnergy
  interpolating : interpolate layout decoder count
    (muteVoicing (decide (muteThreshold < errorRate)) received) = .ok interpolated
  tracking : lineTracks decoder layout.order count lines = .ok tracks
  synthesising : (List.range count).foldlM (soundAt engine settings layout.order
    (muteEnergy (decide (muteThreshold < errorRate)) interpolated) tracks)
    ⟨decoder, [], [], 0, []⟩ = .ok sounding
  keeping : fetch sounding.models.toArray (count - 1 : Int) = .ok lastModel
  keepingEnergy : fetch (muteEnergy (decide (muteThreshold < errorRate)) interpolated).energies
    (count - 1 : Int) = .ok lastEnergy

namespace Stages

variable {engine : Engine α} {layout : Layout} {settings : PostFilter α} {decoder : Decoder α}
  {bytes : List UInt8} {errorRate : α}

/-- What decoding returns after these stages. -/
def result (stages : Stages engine layout settings decoder bytes errorRate) : Decoded α where
  samples := stages.sounding.samples
  decoder := { stages.sounding.decoder with
    lastModel := stages.lastModel
    lastLines := stages.lines
    lastEnergy := stages.lastEnergy
    predictor := stages.reference.predictor }
  reordered := decide (0 < stages.swaps)
  noisy := stages.sounding.noisy
  notices := [.entered (Event.ofFrame .unpacked),
    .entered ⟨.dequantising, (stages.count - 1 : Int), stages.dequantised,
      stages.dequantisedEnergy⟩,
    .entered (Event.ofFrame .interpolating)] ++ stages.sounding.notices ++
    [.entered (Event.ofFrame .idle)]

theorem exists_of_decode {done : Decoded α}
    (h : decode engine layout settings decoder bytes errorRate = .ok done) :
    ∃ stages : Stages engine layout settings decoder bytes errorRate, stages.result = done := by
  obtain ⟨count, hcount, h⟩ := bind_eq_ok.mp h
  obtain ⟨content, hcontent, h⟩ := bind_eq_ok.mp h
  obtain ⟨⟨received, reference⟩, hupdated, h⟩ := bind_eq_ok.mp h
  obtain ⟨decoded, hdecoded, h⟩ := bind_eq_ok.mp h
  obtain ⟨⟨ordered, swaps⟩, hordered, h⟩ := bind_eq_ok.mp h
  obtain ⟨lines, hlines, h⟩ := bind_eq_ok.mp h
  obtain ⟨model, hmodel, h⟩ := bind_eq_ok.mp h
  obtain ⟨energy, henergy, h⟩ := bind_eq_ok.mp h
  obtain ⟨interpolated, hinterpolated, h⟩ := bind_eq_ok.mp h
  obtain ⟨tracks, htracks, h⟩ := bind_eq_ok.mp h
  obtain ⟨sounding, hsounding, h⟩ := bind_eq_ok.mp h
  obtain ⟨lastModel, hlastModel, h⟩ := bind_eq_ok.mp h
  obtain ⟨lastEnergy, hlastEnergy, h⟩ := bind_eq_ok.mp h
  cases h
  exact ⟨⟨count, content, received, reference, decoded, ordered, swaps, lines, model, energy,
    interpolated, tracks, sounding, lastModel, lastEnergy, hcount, hcontent, hupdated, hdecoded,
    hordered, hlines, hmodel, henergy, hinterpolated, htracks, hsounding, hlastModel,
    hlastEnergy⟩, rfl⟩

theorem count_eq (stages : Stages engine layout settings decoder bytes errorRate) :
    stages.count = layout.subframes.toNat :=
  (length_eq_ok.mp stages.counted).2.2

end Stages

/-- What the synthesis of a subframe makes, in order. -/
theorem soundAt_eq_ok {engine : Engine α} {settings : PostFilter α} {order : Int}
    {subframes : Subframes α} {tracks : Array (Array α)} {sounding next : Sounding α} {i : Nat}
    (h : soundAt engine settings order subframes tracks sounding i = .ok next) :
    ∃ track filter energy source sampled model sounded, fetch tracks i = .ok track ∧
      Lines.toFilter track order = .ok filter ∧ fetch subframes.energies i = .ok energy ∧
      fetch subframes.models i = .ok source ∧
      Envelope.sample engine.transform filter order source energy settings = .ok sampled ∧
      Envelope.correct sampled.model = .ok model ∧
      sounding.decoder.sound engine model sampled.bins = .ok sounded ∧
      next = ⟨sounded.decoder, sounding.models ++ [sounded.model],
        sounding.samples ++ sounded.samples, sounding.noisy + sounded.noisy,
        sounding.notices ++ [.entered ⟨.synthesising, i, model, energy⟩]⟩ := by
  obtain ⟨track, htrack, h⟩ := bind_eq_ok.mp h
  obtain ⟨filter, hfilter, h⟩ := bind_eq_ok.mp h
  obtain ⟨energy, henergy, h⟩ := bind_eq_ok.mp h
  obtain ⟨source, hsource, h⟩ := bind_eq_ok.mp h
  obtain ⟨sampled, hsampled, h⟩ := bind_eq_ok.mp h
  obtain ⟨model, hmodel, h⟩ := bind_eq_ok.mp h
  obtain ⟨sounded, hsounded, h⟩ := bind_eq_ok.mp h
  exact ⟨track, filter, energy, source, sampled, model, sounded, htrack, hfilter, henergy, hsource,
    hsampled, hmodel, hsounded, (pure_eq_ok.mp h).symm⟩

end Frame

end Vocoder
