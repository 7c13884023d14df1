import Vocoder.Proofs.DecoderTotal
import Vocoder.Proofs.FieldOrder
import Vocoder.Proofs.FrameStages
import Vocoder.Proofs.SessionRuns

/-!
How long a decoder remembers. When the first update of a frame is a scalar one and none is joint,
the updates of a frame do not look at what came before it. So a frame leaves the same lines, energy
and fundamental behind whatever the decoder held before, and these are all that the parameters of
the next frame depend on.
-/

namespace Vocoder

variable {α : Type} [Analytic α]

/-! ### Updates -/

/-- A layout whose updates do not refer to the frame before. -/
def Layout.Memoryless (layout : Layout) : Prop :=
  layout.schemes.head? = some .scalar ∧ .joint ∉ layout.schemes

namespace Frame

/-- A scalar update looks at nothing from before, a change at the last fundamental only. -/
theorem reference_of_decode {range : PitchRange α} {code : UpdateCode}
    {left right left' right' : UpdateCode.Reference α} {x y : α × α} (hjoint : code.scheme ≠ .joint)
    (h : code.scheme = .scalar ∨ left.wo = right.wo)
    (hleft : code.decode range left = .ok (x, left'))
    (hright : code.decode range right = .ok (y, right')) : x = y ∧ left'.wo = right'.wo := by
  cases code with
  | scalar pitch energy =>
      cases hleft
      cases hright
      exact ⟨rfl, rfl⟩
  | delta change energy =>
      have hwo : left.wo = right.wo := h.resolve_left (by simp [UpdateCode.scheme])
      cases hleft
      cases hright
      rw [hwo]
      exact ⟨rfl, rfl⟩
  | joint index => exact absurd rfl hjoint

/-- Updates that start with a scalar one, or from one fundamental, and of which none is joint, give
the same subframes. -/
theorem dequantise_congr {range : PitchRange α} {updates : List Int} {codes : List UpdateCode}
    {subframes a b : Subframes α} {left right left' right' : UpdateCode.Reference α}
    (hjoint : .joint ∉ codes.map UpdateCode.scheme)
    (h : (codes.map UpdateCode.scheme).head? = some .scalar ∨ left.wo = right.wo)
    (hleft : dequantise range updates codes subframes left = .ok (a, left'))
    (hright : dequantise range updates codes subframes right = .ok (b, right')) : a = b := by
  induction updates generalizing codes subframes left right with
  | nil =>
      cases hleft
      cases hright
      rfl
  | cons subframe updates ih =>
      cases codes with
      | nil =>
          cases hleft
          cases hright
          rfl
      | cons code codes =>
          rw [List.map_cons, List.mem_cons, not_or] at hjoint
          rw [List.map_cons, List.head?_cons, Option.some.injEq] at h
          obtain ⟨⟨x, next⟩, hx, hleft⟩ := bind_eq_ok.mp hleft
          obtain ⟨⟨y, next'⟩, hy, hright⟩ := bind_eq_ok.mp hright
          obtain ⟨rfl, hwo⟩ := reference_of_decode (Ne.symm hjoint.1) h hx hy
          obtain ⟨source, hsource, hleft⟩ := bind_eq_ok.mp hleft
          obtain ⟨model, hmodel, hleft⟩ := bind_eq_ok.mp hleft
          obtain ⟨models, hmodels, hleft⟩ := bind_eq_ok.mp hleft
          obtain ⟨energies, henergies, hleft⟩ := bind_eq_ok.mp hleft
          obtain ⟨source', hsource', hright⟩ := bind_eq_ok.mp hright
          obtain ⟨model', hmodel', hright⟩ := bind_eq_ok.mp hright
          obtain ⟨models', hmodels', hright⟩ := bind_eq_ok.mp hright
          obtain ⟨energies', henergies', hright⟩ := bind_eq_ok.mp hright
          obtain rfl := Except.ok.inj (hsource.symm.trans hsource')
          obtain rfl := Except.ok.inj (hmodel.symm.trans hmodel')
          obtain rfl := Except.ok.inj (hmodels.symm.trans hmodels')
          obtain rfl := Except.ok.inj (henergies.symm.trans henergies')
          exact ih hjoint.2 (.inr hwo) hleft hright

end Frame

/-! ### What a decoder hands on -/

/-- Two models that differ at most in amplitudes and phases. -/
structure Model.Alike (left right : Model α) : Prop where
  wo : left.wo = right.wo
  count : left.count = right.count
  voiced : left.voiced = right.voiced

/-- Two decoders that differ at most in what no parameter of a later frame is made from. -/
structure Decoder.Alike (left right : Decoder α) : Prop where
  lines : left.lastLines = right.lastLines
  energy : left.lastEnergy = right.lastEnergy
  model : left.lastModel.Alike right.lastModel

namespace Model.Alike

omit [Analytic α] in
theorem symm {left right : Model α} (h : left.Alike right) : right.Alike left :=
  ⟨h.wo.symm, h.count.symm, h.voiced.symm⟩

omit [Analytic α] in
theorem trans {left middle right : Model α} (h : left.Alike middle) (h' : middle.Alike right) :
    left.Alike right :=
  ⟨h.wo.trans h'.wo, h.count.trans h'.count, h.voiced.trans h'.voiced⟩

end Model.Alike

/-! ### Synthesis -/

theorem Envelope.alike_of_sample {transform : Transform α} {filter : Array α} {order : Int}
    {model : Model α} {energy : α} {settings : PostFilter α} {sampled : Envelope.Sampled α}
    (h : Envelope.sample transform filter order model energy settings = .ok sampled) :
    sampled.model.Alike model := by
  obtain ⟨bins, _, h⟩ := bind_eq_ok.mp h
  obtain ⟨shaped, _, h⟩ := bind_eq_ok.mp h
  obtain ⟨⟨amps, signal, noise⟩, _, h⟩ := bind_eq_ok.mp h
  obtain rfl := pure_eq_ok.mp h
  exact ⟨rfl, rfl, rfl⟩

theorem Envelope.alike_of_correct {model corrected : Model α}
    (h : Envelope.correct model = .ok corrected) : corrected.Alike model := by
  unfold Envelope.correct at h
  split at h
  · obtain ⟨first, _, h⟩ := bind_eq_ok.mp h
    obtain ⟨amps, _, h⟩ := bind_eq_ok.mp h
    obtain rfl := pure_eq_ok.mp h
    exact ⟨rfl, rfl, rfl⟩
  · obtain rfl := pure_eq_ok.mp h
    exact ⟨rfl, rfl, rfl⟩

theorem Phase.alike_of_synthesise {samples : Int} {model : Model α} {pulse : α}
    {response : Harmonics (Phasor α)} {noise : NoiseSource} {phased : Phase.Synthesised α}
    (h : Phase.synthesise samples model pulse response noise = .ok phased) :
    phased.model.Alike model := by
  obtain ⟨⟨phases, later⟩, _, h⟩ := bind_eq_ok.mp h
  obtain rfl := pure_eq_ok.mp h
  exact ⟨rfl, rfl, rfl⟩

theorem Background.alike_of_treat {model : Model α} {estimate : α} {noise : NoiseSource}
    {treated : Background.Treated α}
    (h : Background.treat model estimate noise = .ok treated) : treated.model.Alike model := by
  obtain ⟨level, _, h⟩ := bind_eq_ok.mp h
  split at h
  · obtain ⟨⟨phases, later, count⟩, _, h⟩ := bind_eq_ok.mp h
    obtain rfl := pure_eq_ok.mp h
    exact ⟨rfl, rfl, rfl⟩
  · obtain rfl := pure_eq_ok.mp h
    exact ⟨rfl, rfl, rfl⟩

theorem Decoder.alike_of_sound {engine : Engine α} {decoder : Decoder α} {model : Model α}
    {bins : Bins α} {sounded : Decoder.Sounded α}
    (h : decoder.sound engine model bins = .ok sounded) : sounded.model.Alike model := by
  obtain ⟨response, _, h⟩ := bind_eq_ok.mp h
  obtain ⟨phased, hphased, h⟩ := bind_eq_ok.mp h
  obtain ⟨treated, htreated, h⟩ := bind_eq_ok.mp h
  obtain ⟨buffer, _, h⟩ := bind_eq_ok.mp h
  obtain rfl := pure_eq_ok.mp h
  exact (Background.alike_of_treat htreated).trans (Phase.alike_of_synthesise hphased)

namespace Frame

/-- What is reported of a subframe when it is synthesised. -/
def report (engine : Engine α) (settings : PostFilter α) (order : Int) (subframes : Subframes α)
    (tracks : Array (Array α)) (i : Nat) : Except Fault (Notice α) := do
  let filter ← Lines.toFilter (← fetch tracks i) order
  let energy ← fetch subframes.energies i
  let sampled ← Envelope.sample engine.transform filter order (← fetch subframes.models i) energy
    settings
  return .entered ⟨.synthesising, i, ← Envelope.correct sampled.model, energy⟩

variable {engine : Engine α} {settings : PostFilter α} {order : Int} {subframes : Subframes α}
  {tracks : Array (Array α)}

/-- A subframe adds its report, and a model that has its fundamental and its voicing. -/
theorem exists_of_soundAt {sounding next : Sounding α} {i : Nat}
    (h : soundAt engine settings order subframes tracks sounding i = .ok next) :
    ∃ notice source model, report engine settings order subframes tracks i = .ok notice ∧
      subframes.models[i]? = some source ∧ model.Alike source ∧
      next.notices = sounding.notices ++ [notice] ∧ next.models = sounding.models ++ [model] := by
  obtain ⟨track, filter, energy, source, sampled, model, sounded, htrack, hfilter, henergy, hsource,
    hsampled, hmodel, hsounded, rfl⟩ := soundAt_eq_ok h
  have hreport : report engine settings order subframes tracks i =
      .ok (.entered ⟨.synthesising, i, model, energy⟩) :=
    bind_eq_ok.mpr ⟨track, htrack, bind_eq_ok.mpr ⟨filter, hfilter, bind_eq_ok.mpr ⟨energy, henergy,
      bind_eq_ok.mpr ⟨source, hsource, bind_eq_ok.mpr ⟨sampled, hsampled,
        bind_eq_ok.mpr ⟨model, hmodel, rfl⟩⟩⟩⟩⟩⟩
  have halike : sounded.model.Alike source :=
    (Decoder.alike_of_sound hsounded).trans
      ((Envelope.alike_of_correct hmodel).trans (Envelope.alike_of_sample hsampled))
  have hat : subframes.models[i]? = some source := by
    simpa using (fetch_eq_ok.mp hsource).2
  exact ⟨_, source, sounded.model, hreport, hat, halike, rfl, rfl⟩

/-- Synthesis after `n` subframes: their reports, and models with their fundamentals and voicing. -/
structure Sounding.Follows (engine : Engine α) (settings : PostFilter α) (order : Int)
    (subframes : Subframes α) (tracks : Array (Array α)) (n : Nat) (sounding : Sounding α) :
    Prop where
  notices : List.Forall₂ (fun i notice =>
    report engine settings order subframes tracks i = .ok notice) (List.range n) sounding.notices
  models : List.Forall₂ (fun i (model : Model α) =>
    ∃ source, subframes.models[i]? = some source ∧ model.Alike source)
    (List.range n) sounding.models

theorem Sounding.Follows.step {sounding next : Sounding α} {n : Nat}
    (h : sounding.Follows engine settings order subframes tracks n)
    (hnext : soundAt engine settings order subframes tracks sounding n = .ok next) :
    next.Follows engine settings order subframes tracks (n + 1) := by
  obtain ⟨notice, source, model, hreport, hsource, hmodel, hnotices, hmodels⟩ :=
    exists_of_soundAt hnext
  constructor
  · rw [hnotices, List.range_succ]
    exact List.rel_append h.notices (.cons hreport .nil)
  · rw [hmodels, List.range_succ]
    exact List.rel_append h.models (.cons ⟨source, hsource, hmodel⟩ .nil)

theorem follows_of_foldlM {count : Nat} {decoder : Decoder α} {last : Sounding α}
    (h : (List.range count).foldlM (soundAt engine settings order subframes tracks)
      ⟨decoder, [], [], 0, []⟩ = .ok last) :
    last.Follows engine settings order subframes tracks count :=
  foldlM_range_induction (P := Sounding.Follows engine settings order subframes tracks) h
    ⟨.nil, .nil⟩ fun _ _ _ _ hsounding hnext => hsounding.step hnext

/-! ### Interpolation -/

variable {layout : Layout} {left right decoder : Decoder α} {count : Nat}

/-- Interpolation looks at nothing of a decoder but its energy and its fundamental and voicing. -/
theorem interpolateAt_congr (h : left.Alike right) (i : Nat) (last : Option Nat)
    (subframes : Subframes α) :
    interpolateAt layout left count i last subframes =
      interpolateAt layout right count i last subframes := by
  cases last with
  | some k => rfl
  | none =>
      unfold interpolateAt anchor Interpolation.fundamental
      simp only [bind, Except.bind, h.model.wo, h.model.voiced, h.energy]

theorem interpolate_congr (h : left.Alike right) (subframes : Subframes α) :
    interpolate layout left count subframes = interpolate layout right count subframes := by
  unfold interpolate
  simp only [interpolateAt_congr h]

omit [Analytic α] in
theorem getElem?_of_store {β : Type} {xs ys : Array β} {i k : Nat} {x : β}
    (h : store xs i x = .ok ys) (hne : i ≠ k) : ys[k]? = xs[k]? := by
  obtain ⟨_, _, rfl⟩ := store_eq_ok.mp h
  exact Array.getElem?_setIfInBounds_ne (by simpa using hne)

/-- Interpolation leaves the subframes with an update as they are. -/
theorem interpolate_at_update {start done : Subframes α}
    (h : interpolate layout decoder count start = .ok done) {k : Nat}
    (hk : (k : Int) ∈ layout.updates) :
    done.models[k]? = start.models[k]? ∧ done.energies[k]? = start.energies[k]? := by
  obtain ⟨⟨last, place⟩, hlast, h⟩ := bind_eq_ok.mp h
  obtain rfl := pure_eq_ok.mp h
  refine foldlM_range_induction (P := fun _ (acc : Subframes α × Option Nat) =>
    acc.1.models[k]? = start.models[k]? ∧ acc.1.energies[k]? = start.energies[k]?) hlast
    ⟨rfl, rfl⟩ ?_
  rintro i ⟨subframes, place⟩ next _ hkept hnext
  dsimp only at hkept hnext
  split at hnext
  · obtain rfl := pure_eq_ok.mp hnext
    exact hkept
  · rename_i hupdate
    have hne : i ≠ k := by
      rintro rfl
      exact hupdate ((Layout.isSome_updateAt? layout i).mpr hk)
    obtain ⟨between, hbetween, hnext⟩ := bind_eq_ok.mp hnext
    obtain rfl := pure_eq_ok.mp hnext
    obtain ⟨prev, _, hbetween⟩ := bind_eq_ok.mp hbetween
    obtain ⟨nextModel, _, hbetween⟩ := bind_eq_ok.mp hbetween
    obtain ⟨source, _, hbetween⟩ := bind_eq_ok.mp hbetween
    obtain ⟨model, _, hbetween⟩ := bind_eq_ok.mp hbetween
    obtain ⟨energy, _, hbetween⟩ := bind_eq_ok.mp hbetween
    obtain ⟨models, hmodels, hbetween⟩ := bind_eq_ok.mp hbetween
    obtain ⟨energies, henergies, hbetween⟩ := bind_eq_ok.mp hbetween
    obtain rfl := pure_eq_ok.mp hbetween
    exact ⟨(getElem?_of_store hmodels hne).trans hkept.1,
      (getElem?_of_store henergies hne).trans hkept.2⟩

theorem lineTracks_congr (h : left.Alike right) (lines : Array α) :
    lineTracks left order count lines = lineTracks right order count lines := by
  unfold lineTracks
  rw [h.lines]

theorem muteEnergy_models (mute : Bool) (subframes : Subframes α) :
    (muteEnergy mute subframes).models = subframes.models := by
  cases mute <;> rfl

theorem muteEnergy_energies_congr (mute : Bool) {a b : Subframes α} {k : Nat}
    (h : a.energies[k]? = b.energies[k]?) :
    (muteEnergy mute a).energies[k]? = (muteEnergy mute b).energies[k]? := by
  cases mute with
  | false => exact h
  | true => simp [muteEnergy, h]

/-! ### Frames -/

namespace Stages

variable {bytes : List UInt8} {errorRate : α}
  (a : Stages engine layout settings left bytes errorRate)
  (b : Stages engine layout settings right bytes errorRate)

theorem count_unique : a.count = b.count := a.count_eq.trans b.count_eq.symm

theorem content_unique : a.content = b.content :=
  Except.ok.inj (a.unpacked.symm.trans b.unpacked)

theorem lines_unique : a.lines = b.lines := by
  have hdecoded := a.decoding
  rw [content_unique a b, b.decoding] at hdecoded
  have hordered := a.ordering
  rw [← Except.ok.inj hdecoded, b.ordering] at hordered
  have hlines := a.spreading
  rw [← (Prod.mk.inj (Except.ok.inj hordered)).1, b.spreading] at hlines
  exact (Except.ok.inj hlines).symm

/-- The updates of a frame do not depend on what came before it. -/
theorem received_unique (hlayout : layout.Regular) (hmemoryless : layout.Memoryless) :
    a.received = b.received := by
  have hschemes := schemes_of_read hlayout a.unpacked
  have hb := b.updating
  rw [← count_unique a b, ← content_unique a b] at hb
  apply dequantise_congr _ _ a.updating hb
  · rw [hschemes]
    exact hmemoryless.2
  · rw [hschemes]
    exact .inl hmemoryless.1

omit a b in
/-- The last subframe carries an update. -/
theorem last_mem_updates (stages : Stages engine layout settings decoder bytes errorRate)
    (hlayout : layout.Regular) : (((stages.count : Int) - 1).toNat : Int) ∈ layout.updates := by
  have hpos := hlayout.subframes_pos
  have hlast : (((stages.count : Int) - 1).toNat : Int) = layout.subframes - 1 := by
    rw [stages.count_eq]
    omega
  rw [hlast]
  exact List.mem_of_getLast? hlayout.ends

omit a b in
/-- The model that is kept has the fundamental and the voicing of the last subframe. -/
theorem exists_last_alike (stages : Stages engine layout settings decoder bytes errorRate) :
    ∃ source, stages.interpolated.models[((stages.count : Int) - 1).toNat]? = some source ∧
      stages.lastModel.Alike source := by
  have hat := (fetch_eq_ok.mp stages.keeping).2
  rw [List.getElem?_toArray] at hat
  obtain ⟨hlt, hlast⟩ := List.getElem?_eq_some_iff.mp hat
  have hmodels := (follows_of_foldlM stages.synthesising).models
  rw [muteEnergy_models] at hmodels
  obtain ⟨source, hsource, halike⟩ := hmodels.get (hmodels.length_eq ▸ hlt) hlt
  rw [List.get_eq_getElem, List.getElem_range] at hsource
  rw [List.get_eq_getElem, hlast] at halike
  exact ⟨source, hsource, halike⟩

/-- A frame leaves the same lines, energy, fundamental and voicing behind, whatever came before. -/
theorem alike (hlayout : layout.Regular) (hmemoryless : layout.Memoryless) :
    a.result.decoder.Alike b.result.decoder := by
  have hmem := b.last_mem_updates hlayout
  have hleft := interpolate_at_update a.interpolating hmem
  have hright := interpolate_at_update b.interpolating hmem
  rw [received_unique a b hlayout hmemoryless] at hleft
  have hmodels := hleft.1.trans hright.1.symm
  have henergies := muteEnergy_energies_congr (decide (muteThreshold < errorRate))
    (hleft.2.trans hright.2.symm)
  refine ⟨lines_unique a b, ?_, ?_⟩
  · have hkept := (fetch_eq_ok.mp a.keepingEnergy).2
    rw [count_unique a b, henergies, (fetch_eq_ok.mp b.keepingEnergy).2] at hkept
    exact (Option.some.inj hkept).symm
  · obtain ⟨source, hsource, halike⟩ := a.exists_last_alike
    obtain ⟨source', hsource', halike'⟩ := b.exists_last_alike
    rw [count_unique a b, hmodels, hsource'] at hsource
    obtain rfl := Option.some.inj hsource
    exact halike.trans halike'.symm

theorem interpolated_unique (hlayout : layout.Regular) (hmemoryless : layout.Memoryless)
    (h : left.Alike right) : a.interpolated = b.interpolated := by
  have hleft := a.interpolating
  rw [received_unique a b hlayout hmemoryless, count_unique a b, interpolate_congr h] at hleft
  exact Except.ok.inj (hleft.symm.trans b.interpolating)

theorem tracks_unique (h : left.Alike right) : a.tracks = b.tracks := by
  have hleft := a.tracking
  rw [lines_unique a b, count_unique a b, lineTracks_congr h] at hleft
  exact Except.ok.inj (hleft.symm.trans b.tracking)

/-- After decoders that are alike, a frame is reported in the same way. -/
theorem notices_unique (hlayout : layout.Regular) (hmemoryless : layout.Memoryless)
    (h : left.Alike right) : a.result.notices = b.result.notices := by
  have hcount := count_unique a b
  have hreceived := received_unique a b hlayout hmemoryless
  have hmodel := a.dequantising
  have henergy := a.dequantisingEnergy
  have hsounding := a.synthesising
  rw [hreceived, hcount] at hmodel henergy
  rw [hcount, interpolated_unique a b hlayout hmemoryless h, tracks_unique a b h] at hsounding
  -- The reports of the subframes are a function of their parameters and lines alone.
  have hnotices : a.sounding.notices = b.sounding.notices :=
    List.right_unique_forall₂' (fun _ _ _ hx hy => Except.ok.inj (hx.symm.trans hy))
      (follows_of_foldlM hsounding).notices (follows_of_foldlM b.synthesising).notices
  rw [result, result, hcount, hnotices, Except.ok.inj (hmodel.symm.trans b.dequantising),
    Except.ok.inj (henergy.symm.trans b.dequantisingEnergy)]

end Stages

end Frame

/-! ### Sessions -/

theorem Layout.memoryless_of_mode {mode : Mode}
    (h : mode = .rate3200 ∨ mode = .rate1600 ∨ mode = .rate1300) : mode.layout.Memoryless := by
  rcases h with rfl | rfl | rfl <;> exact ⟨by decide, by decide⟩

/-- A frame that a session of a mode decoded, taken apart. -/
theorem Session.exists_stages {mode : Mode} {engine : Engine α} {session : Session α}
    {settings : PostFilter α} {bytes : List UInt8} {errorRate : α} {reply : Reply α (List Int16)}
    (hlayout : session.layout = mode.layout) (hopen : session.closed = false)
    (hsettings : session.settings.postFilter = settings)
    (hlength : (bytes.length : Int) = mode.layout.totalBytes)
    (h : session.decode engine bytes errorRate = .ok reply) :
    ∃ stages : Frame.Stages engine mode.layout settings session.decoder bytes errorRate,
      reply = session.decoded stages.result := by
  have hbytes : (bytes.length : Int) = session.bytesPerFrame := by
    rw [Session.bytesPerFrame, hlayout]
    exact hlength
  obtain ⟨done, hdone, rfl⟩ := Session.exists_of_decode hopen hbytes h
  rw [hlayout, hsettings] at hdone
  obtain ⟨stages, rfl⟩ := Frame.Stages.exists_of_decode hdone
  exact ⟨stages, rfl⟩

/-- Two sessions with any histories that decode the same two frames, in a mode whose updates do not
refer to the frame before. After the first frame they hold the same lines, energy, fundamental and
voicing; of the second frame they report the same, amplitudes included. -/
theorem parameters_forget_history {mode : Mode}
    (hmode : mode = .rate3200 ∨ mode = .rate1600 ∨ mode = .rate1300) (engine : Engine α)
    {left right : Session α} (hleft : left.layout = mode.layout)
    (hright : right.layout = mode.layout) (hopen : left.closed = false)
    (hopen' : right.closed = false) (hfilter : left.settings.postFilter = right.settings.postFilter)
    {first : List UInt8} (hfirst : (first.length : Int) = mode.layout.totalBytes) {errorRate : α}
    {l₁ r₁ : Reply α (List Int16)} (hl₁ : left.decode engine first errorRate = .ok l₁)
    (hr₁ : right.decode engine first errorRate = .ok r₁) :
    l₁.session.decoder.lastLines = r₁.session.decoder.lastLines ∧
    l₁.session.decoder.lastEnergy = r₁.session.decoder.lastEnergy ∧
    l₁.session.decoder.lastModel.wo = r₁.session.decoder.lastModel.wo ∧
    l₁.session.decoder.lastModel.count = r₁.session.decoder.lastModel.count ∧
    l₁.session.decoder.lastModel.voiced = r₁.session.decoder.lastModel.voiced ∧
    ∀ (second : List UInt8) (errorRate' : α) (l₂ r₂ : Reply α (List Int16)),
      (second.length : Int) = mode.layout.totalBytes →
      l₁.session.decode engine second errorRate' = .ok l₂ →
      r₁.session.decode engine second errorRate' = .ok r₂ → l₂.notices = r₂.notices := by
  have hlayout := Layout.regular_of_mode mode
  have hmemoryless := Layout.memoryless_of_mode hmode
  obtain ⟨a, rfl⟩ := Session.exists_stages hleft hopen hfilter hfirst hl₁
  obtain ⟨b, rfl⟩ := Session.exists_stages hright hopen' rfl hfirst hr₁
  have halike := a.alike b hlayout hmemoryless
  refine ⟨halike.lines, halike.energy, halike.model.wo, halike.model.count, halike.model.voiced, ?_⟩
  intro second errorRate' l₂ r₂ hsecond hl₂ hr₂
  -- A decoded frame leaves the layout, the settings and whether the session is open as they are.
  have hleft' : (left.decoded a.result).session.layout = mode.layout := hleft
  have hright' : (right.decoded b.result).session.layout = mode.layout := hright
  obtain ⟨c, rfl⟩ := Session.exists_stages hleft' hopen hfilter hsecond hl₂
  obtain ⟨d, rfl⟩ := Session.exists_stages hright' hopen' rfl hsecond hr₂
  exact c.notices_unique d hlayout hmemoryless halike

/-- A new session, and one with another seed after a frame of ones on a bad channel. -/
theorem parameters_forget_history_ones :
    ∃ (engine : Engine ℝ) (left other : Session ℝ) (created created' : List (Notice ℝ))
      (lost l₁ l₂ r₁ r₂ : Reply ℝ (List Int16)),
      Session.create .rate1600 [] = .ok (left, created) ∧
      Session.create .rate1600 [.seed 7] = .ok (other, created') ∧
      other.decode engine (List.replicate 8 255) 1 = .ok lost ∧
      left.decode engine (List.replicate 8 90) 0 = .ok l₁ ∧
      lost.session.decode engine (List.replicate 8 90) 0 = .ok r₁ ∧
      l₁.session.decode engine (List.replicate 8 0) 0 = .ok l₂ ∧
      r₁.session.decode engine (List.replicate 8 0) 0 = .ok r₂ ∧
      l₁.session.decoder.lastLines = r₁.session.decoder.lastLines ∧
      l₁.session.decoder.lastEnergy = r₁.session.decoder.lastEnergy ∧
      l₁.session.decoder.lastModel.wo = r₁.session.decoder.lastModel.wo ∧
      l₁.session.decoder.lastModel.count = r₁.session.decoder.lastModel.count ∧
      l₁.session.decoder.lastModel.voiced = r₁.session.decoder.lastModel.voiced ∧
      l₂.notices = r₂.notices := by
  have hlength (byte : UInt8) :
      ((List.replicate 8 byte).length : Int) = Mode.rate1600.layout.totalBytes := by
    rw [List.length_replicate]
    decide
  obtain ⟨left, created, hleft, hdecodes⟩ := Session.exists_create .rate1600 []
  obtain ⟨other, created', hother, hdecodes'⟩ := Session.exists_create .rate1600 [.seed 7]
  let engine : Engine ℝ := Engine.ofTransform Transform.dft
  obtain ⟨lost, hlost, -, hdecodes'⟩ := hdecodes'.yields_decode engine 1 (hlength 255)
  obtain ⟨l₁, hl₁, -, hdecodes₁⟩ := hdecodes.yields_decode engine 0 (hlength 90)
  obtain ⟨r₁, hr₁, -, hdecodes₁'⟩ := hdecodes'.yields_decode engine 0 (hlength 90)
  obtain ⟨l₂, hl₂, -⟩ := hdecodes₁.yields_decode engine 0 (hlength 0)
  obtain ⟨r₂, hr₂, -⟩ := hdecodes₁'.yields_decode engine 0 (hlength 0)
  have hfilter : left.settings.postFilter = lost.session.settings.postFilter := by
    obtain ⟨_, _, rfl⟩ := Session.exists_of_create hleft
    obtain ⟨_, _, rfl⟩ := Session.exists_of_create hother
    obtain ⟨_, rfl⟩ := Session.exists_stages rfl rfl rfl (hlength 255) hlost
    rfl
  obtain ⟨hlines, henergy, hwo, hcount, hvoiced, hnotices⟩ :=
    parameters_forget_history (.inr (.inl rfl)) engine hdecodes.layout hdecodes'.layout
      hdecodes.opened hdecodes'.opened hfilter (hlength 90) hl₁ hr₁
  exact ⟨engine, left, other, created, created', lost, l₁, l₂, r₁, r₂, hleft, hother, hlost, hl₁,
    hr₁, hl₂, hr₂, hlines, henergy, hwo, hcount, hvoiced, hnotices _ _ _ _ (hlength 0) hl₂ hr₂⟩

end Vocoder
