import Vocoder.Proofs.DecoderTotal
import Vocoder.Proofs.EncoderTotal

/-!
The encoder and the decoder of a stream. What one side keeps of an update for coding the next, the
other side keeps as well: the predictor of joint updates over the whole stream, and the fundamental
inside a frame, where a change may follow a scalar update or another change but not a joint update.
-/

namespace Vocoder

variable {α : Type} [Analytic α]

/-! ### One update -/

theorem Codebook.clamp_joint {index : Int} (h : Fits index jointBits) :
    (Codebook.joint : Codebook α).clamp index = index := by
  have hsize : (Codebook.joint : Codebook α).size = 256 := rfl
  have hhigh : index < 256 := h.2
  have hlow := h.1
  rw [Codebook.clamp, hsize, if_neg (by omega), if_neg (by omega)]

theorem Predictor.decode_encode {predictor next decoded : Predictor α} {wo e wo' e' : α}
    {range : PitchRange α} {index : Int} (hencode : predictor.encode wo e = .ok (index, next))
    (hdecode : predictor.decode range index = .ok ((wo', e'), decoded)) : decoded = next := by
  rw [Predictor.decode, Codebook.clamp_joint (Predictor.encode_fits hencode)] at hdecode
  obtain ⟨found, _, hencode⟩ := bind_eq_ok.mp hencode
  obtain ⟨advanced, hadvanced, hencode⟩ := bind_eq_ok.mp hencode
  cases hencode
  rw [hadvanced] at hdecode
  cases hdecode
  rfl

namespace UpdateCode

theorem wo_of_decode {range : PitchRange α} {code : UpdateCode} {wo energy : α}
    {reference next : Reference α} (h : code.decode range reference = .ok ((wo, energy), next)) :
    next.wo = wo := by
  cases code with
  | scalar pitch level =>
      cases h
      rfl
  | delta change level =>
      cases h
      rfl
  | joint index =>
      obtain ⟨⟨⟨wo, energy⟩, predictor⟩, _, h⟩ := bind_eq_ok.mp h
      cases h
      rfl

/-- Both sides move their references in the same way. A change needs the same fundamental before
it, and a joint update leaves the two fundamentals apart. -/
theorem decode_encode {range : PitchRange α} {scheme : UpdateScheme} {wo energy wo' energy' : α}
    {sent sent' received received' : Reference α} {code : UpdateCode}
    (hencode : encode range scheme wo energy sent = .ok (code, sent'))
    (hdecode : code.decode range received = .ok ((wo', energy'), received'))
    (hwo : scheme = .delta → received.wo = sent.wo) :
    (received.predictor = sent.predictor → received'.predictor = sent'.predictor) ∧
      (scheme ≠ .joint → received'.wo = sent'.wo) := by
  cases scheme with
  | scalar =>
      cases hencode
      cases hdecode
      exact ⟨id, fun _ => rfl⟩
  | delta =>
      cases hencode
      cases hdecode
      exact ⟨id, fun _ => by rw [hwo rfl]⟩
  | joint =>
      obtain ⟨⟨index, next⟩, hindex, hencode⟩ := bind_eq_ok.mp hencode
      cases hencode
      obtain ⟨⟨⟨wo', energy'⟩, decoded⟩, hdecoded, hdecode⟩ := bind_eq_ok.mp hdecode
      cases hdecode
      refine ⟨fun hpredictor => ?_, fun h => absurd rfl h⟩
      rw [hpredictor] at hdecoded
      exact Predictor.decode_encode hindex hdecoded

end UpdateCode

namespace Frame

/-! ### Dequantisation -/

theorem dequantise_append {range : PitchRange α} {updates later : List Int}
    {codes rest : List UpdateCode} (hlength : updates.length = codes.length)
    (subframes : Subframes α) (reference : UpdateCode.Reference α) :
    dequantise range (updates ++ later) (codes ++ rest) subframes reference =
      dequantise range updates codes subframes reference >>= fun (subframes, reference) =>
        dequantise range later rest subframes reference := by
  induction updates generalizing codes subframes reference with
  | nil =>
      rw [List.eq_nil_of_length_eq_zero hlength.symm]
      rfl
  | cons subframe updates ih =>
      obtain ⟨code, codes, rfl⟩ := List.exists_cons_of_length_eq_add_one hlength.symm
      simp only [List.cons_append, dequantise, bind_assoc]
      simp only [ih (Nat.succ.inj hlength)]

/-- The model of the last updated subframe has the fundamental that the next update refers to. -/
theorem dequantise_singleton_eq_ok {range : PitchRange α} {subframe : Int} {code : UpdateCode}
    {before after : Subframes α} {reference reference' : UpdateCode.Reference α}
    (h : dequantise range [subframe] [code] before reference = .ok (after, reference')) :
    ∃ wo energy model, code.decode range reference = .ok ((wo, energy), reference') ∧
      after.models[subframe.toNat]? = some model ∧ model.wo = reference'.wo := by
  obtain ⟨⟨⟨wo, energy⟩, next⟩, hcode, h⟩ := bind_eq_ok.mp h
  obtain ⟨blank, _, h⟩ := bind_eq_ok.mp h
  obtain ⟨model, hmodel, h⟩ := bind_eq_ok.mp h
  obtain ⟨models, hmodels, h⟩ := bind_eq_ok.mp h
  obtain ⟨energies, _, h⟩ := bind_eq_ok.mp h
  cases h
  obtain ⟨hlow, hhigh, rfl⟩ := store_eq_ok.mp hmodels
  refine ⟨wo, energy, model, hcode, ?_, ?_⟩
  · simp [show subframe.toNat < before.models.size by omega]
  · rw [UpdateCode.wo_of_decode hcode]
    rw [Model.withFundamental] at hmodel
    split at hmodel
    · cases hmodel
    · cases hmodel
      rfl

/-- Updates leave the models of all other subframes alone. -/
theorem models_of_dequantise {range : PitchRange α} {updates : List Int} {codes : List UpdateCode}
    {before after : Subframes α} {reference reference' : UpdateCode.Reference α} {i : Nat}
    (h : dequantise range updates codes before reference = .ok (after, reference'))
    (hother : ∀ subframe ∈ updates, (i : Int) ≠ subframe) :
    after.models[i]? = before.models[i]? := by
  induction updates generalizing codes before reference with
  | nil =>
      cases h
      rfl
  | cons subframe updates ih =>
      cases codes with
      | nil =>
          cases h
          rfl
      | cons code codes =>
          obtain ⟨decoded, _, h⟩ := bind_eq_ok.mp h
          obtain ⟨blank, _, h⟩ := bind_eq_ok.mp h
          obtain ⟨model, hmodel, h⟩ := bind_eq_ok.mp h
          obtain ⟨models, hmodels, h⟩ := bind_eq_ok.mp h
          obtain ⟨energies, _, h⟩ := bind_eq_ok.mp h
          obtain ⟨hlow, _, rfl⟩ := store_eq_ok.mp hmodels
          have hne := hother subframe List.mem_cons_self
          rw [ih h fun next hnext => hother next (List.mem_cons_of_mem _ hnext)]
          exact Array.getElem?_setIfInBounds_ne (by omega)

/-! ### The walk, as the decoder follows it -/

theorem walk_succ (engine : Engine α) (layout : Layout) (frames : Nat) (encoder : Encoder α)
    (pcm : Array Int16) (count : Nat) :
    walk engine layout frames encoder pcm (count + 1) =
      walk engine layout frames encoder pcm count >>= fun walked =>
        walked.step engine layout frames pcm count := by
  rw [walk, walk, List.range_succ, List.foldlM_append]
  simp only [List.foldlM_cons, List.foldlM_nil, bind_pure]

/-- What one subframe adds to the codes and to the reference of the next update. -/
theorem Walk.step_eq_ok {engine : Engine α} {layout : Layout} {frames : Nat} {pcm : Array Int16}
    {walk next : Walk α} {i : Nat} (h : walk.step engine layout frames pcm i = .ok next) :
    (layout.updateAt? i = none ∧ next.updates = walk.updates ∧ next.wo = walk.wo ∧
      next.encoder.predictor = walk.encoder.predictor) ∨
    ∃ u scheme wo energy code reference, layout.updateAt? i = some u ∧
      layout.schemes[u]? = some scheme ∧
      UpdateCode.encode PitchRange.speech scheme wo energy
        ⟨walk.wo, walk.encoder.predictor⟩ = .ok (code, reference) ∧
      next.updates = walk.updates ++ [code] ∧ next.wo = reference.wo ∧
      next.encoder.predictor = reference.predictor := by
  obtain ⟨middle, hmiddle, h⟩ := bind_eq_ok.mp h
  obtain ⟨_, _, hupdates, _, hwo, hpredictor⟩ := Walk.analyse_eq_ok hmiddle
  cases hat : layout.updateAt? i with
  | none =>
      rw [hat] at h
      cases h
      exact .inl ⟨rfl, hupdates, hwo, hpredictor⟩
  | some u =>
      rw [hat] at h
      obtain ⟨scheme, energy, code, reference, hscheme, hcode, _, _, hcodes, _, hnext⟩ :=
        Walk.update_eq_ok h
      rw [hwo, hpredictor] at hcode
      rw [hupdates] at hcodes
      exact .inr ⟨u, scheme, _, energy, code, reference, rfl, hscheme, hcode, hcodes, hnext⟩

/-- The codes of the first subframes come first among those of all. -/
theorem walk_earlier {engine : Engine α} {layout : Layout} {frames : Nat} {encoder : Encoder α}
    {pcm : Array Int16} {count total : Nat} {walked : Walk α} (hle : count ≤ total)
    (h : walk engine layout frames encoder pcm total = .ok walked) :
    ∃ before, walk engine layout frames encoder pcm count = .ok before ∧
      before.updates <+: walked.updates := by
  induction total generalizing walked with
  | zero =>
      rw [Nat.le_zero.mp hle]
      exact ⟨walked, h, List.prefix_refl _⟩
  | succ total ih =>
      rcases Nat.lt_or_eq_of_le hle with hlt | rfl
      · rw [walk_succ] at h
        obtain ⟨middle, hmiddle, hstep⟩ := bind_eq_ok.mp h
        obtain ⟨before, hbefore, hcodes⟩ := ih (by omega) hmiddle
        refine ⟨before, hbefore, hcodes.trans ?_⟩
        rcases Walk.step_eq_ok hstep with
          ⟨_, hupdates, _⟩ | ⟨_, _, _, _, code, _, _, _, _, hupdates, _⟩
        · exact hupdates ▸ List.prefix_refl _
        · rw [hupdates]
          exact List.prefix_append _ _
      · exact ⟨walked, h, List.prefix_refl _⟩

end Frame

/-- The last of some updates leaves both sides with one fundamental. -/
def Settled (schemes : List UpdateScheme) : Prop :=
  ∃ scheme, schemes.getLast? = some scheme ∧ scheme ≠ .joint

/-- A layout in which every change comes after an update that settles the fundamental. -/
def Layout.Chained (layout : Layout) : Prop :=
  ∀ u, layout.schemes[u]? = some .delta → Settled (layout.schemes.take u)

namespace Frame

omit [Analytic α] in
/-- A walk stands right after an update when it has just gone through its subframe. -/
theorem Walk.Traced.length_eq {layout : Layout} (hlayout : layout.Regular) {walk : Walk α}
    {i u : Nat} {stretches : List Stretch} {pending : List Bool} {later : List Int}
    (h : walk.Traced layout (i + 1) stretches pending later)
    (hupdate : layout.updates[u]? = some (i : Int)) : walk.updates.length = u + 1 := by
  have hcount := congrArg List.length h.voicing
  rw [h.length, List.length_append] at hcount
  have hlength := length_lastSubframes 0 stretches
  rw [h.codes, List.length_map]
  have hlow : u < stretches.length := by
    by_contra hge
    rw [h.updates, List.getElem?_append_right (by omega)] at hupdate
    have := h.later _ (List.mem_of_getElem? hupdate)
    omega
  have hhigh : ¬ u + 1 < stretches.length := by
    intro hlt
    have hnext : layout.updates[u + 1]? = some (lastSubframes 0 stretches)[u + 1] := by
      rw [h.updates, List.getElem?_append_left (by omega), List.getElem?_eq_getElem]
    have hbound := lt_of_mem_lastSubframes
      (List.getElem_mem (show u + 1 < (lastSubframes 0 stretches).length by omega))
    obtain ⟨hu, hupdate⟩ := List.getElem?_eq_some_iff.mp hupdate
    obtain ⟨hu', hnext⟩ := List.getElem?_eq_some_iff.mp hnext
    have hless := List.pairwise_iff_getElem.mp hlayout.ascending u (u + 1) hu hu' (by omega)
    omega
  omega

/-- The decoder follows the walk: after the codes written so far it has the same predictor, if it
had before the frame, and the same fundamental if the codes are settled. -/
theorem walk_follows {engine : Engine α} {layout : Layout} (hlayout : layout.Regular)
    (hchained : layout.Chained) {frames : Nat} {encoder : Encoder α} {pcm : Array Int16}
    {start received : Subframes α} {origin reference : UpdateCode.Reference α} {count : Nat}
    {walked : Walk α}
    (hwalked : walk engine layout frames encoder pcm count = .ok walked)
    (hdone : dequantise PitchRange.speech (layout.updates.take walked.updates.length)
      walked.updates start origin = .ok (received, reference)) :
    (origin.predictor = encoder.predictor → reference.predictor = walked.encoder.predictor) ∧
      (Settled (layout.schemes.take walked.updates.length) → reference.wo = walked.wo) := by
  induction count generalizing walked received reference with
  | zero =>
      cases hwalked
      cases hdone
      exact ⟨id, fun ⟨scheme, hlast, _⟩ => by simp [Walk.start] at hlast⟩
  | succ count ih =>
      rw [walk_succ] at hwalked
      obtain ⟨before, hbefore, hstep⟩ := bind_eq_ok.mp hwalked
      obtain ⟨stretches, pending, later, htraced⟩ := walk_traced hlayout hbefore
      have hlength : before.updates.length = stretches.length := by
        rw [htraced.codes, List.length_map]
      rcases Walk.step_eq_ok hstep with ⟨_, hupdates, hwo, hpredictor⟩ |
        ⟨u, scheme, wo, energy, code, sent, hat, hscheme, hcode, hupdates, hwo, hpredictor⟩
      · rw [hupdates] at hdone ⊢
        rw [hwo, hpredictor]
        exact ih hbefore hdone
      · rcases updateAt?_of_traced hlayout htraced with ⟨hnone, _⟩ | ⟨hsome, rest, rfl, _⟩
        · rw [hnone] at hat
          cases hat
        · rw [hsome, Option.some.injEq] at hat
          subst hat
          have hget : layout.updates[stretches.length]? = some (count : Int) := by
            rw [htraced.updates,
              List.getElem?_append_right (Nat.le_of_eq (length_lastSubframes 0 stretches)),
              length_lastSubframes, Nat.sub_self]
            rfl
          have htake : (layout.updates.take stretches.length).length = before.updates.length := by
            rw [hlength, List.length_take]
            have := (List.getElem?_eq_some_iff.mp hget).1
            omega
          rw [hupdates, List.length_append, List.length_singleton, hlength, List.take_add_one,
            hget] at hdone
          rw [Option.toList_some, dequantise_append htake] at hdone
          obtain ⟨⟨middle, received'⟩, hmiddle, hlast⟩ := bind_eq_ok.mp hdone
          obtain ⟨wo', energy', model, hdecode, _⟩ := dequantise_singleton_eq_ok hlast
          rw [← hlength] at hmiddle
          obtain ⟨hsame, hsettled⟩ := ih hbefore hmiddle
          rw [hlength] at hsettled
          obtain ⟨hnext, hnextWo⟩ := UpdateCode.decode_encode hcode hdecode
            fun hdelta => hsettled (hchained _ (hdelta ▸ hscheme))
          rw [hwo, hpredictor, hupdates, List.length_append, List.length_singleton, hlength,
            List.take_add_one, hscheme]
          refine ⟨fun horigin => hnext (hsame horigin), fun ⟨last, hlast, hjoint⟩ => hnextWo ?_⟩
          rw [Option.toList_some, List.getLast?_concat, Option.some.injEq] at hlast
          rwa [hlast]

/-- After a frame both predictors agree. -/
theorem predictor_of_updated {engine : Engine α} {layout : Layout} (hlayout : layout.Regular)
    (hchained : layout.Chained) {frames count : Nat} {encoder : Encoder α} {decoder : Decoder α}
    {pcm : Array Int16} {done : Encoded α} {received : Subframes α}
    {reference : UpdateCode.Reference α} (hsame : decoder.predictor = encoder.predictor)
    (hdone : encode engine layout frames encoder pcm = .ok done)
    (hupdated : updated layout decoder count done.content = .ok (received, reference)) :
    reference.predictor = done.encoder.predictor := by
  obtain ⟨walked, _, _, _, hwalked, _, _, _, _, hcodes, hencoder⟩ := encode_eq_ok hdone
  obtain ⟨stretches, pending, later, htraced⟩ := walk_traced hlayout hwalked
  obtain ⟨_, hupdates, _⟩ := htraced.finish hlayout
  have hall : layout.updates.take walked.updates.length = layout.updates := by
    rw [htraced.codes, List.length_map, hupdates]
    exact List.take_of_length_le (Nat.le_of_eq (length_lastSubframes 0 stretches))
  rw [updated, hcodes, ← hall] at hupdated
  rw [hencoder]
  exact (walk_follows hlayout hchained hwalked hupdated).1 hsame

/-- The model that the decoder makes of an update which settles the fundamental has the fundamental
that the encoder expects of it. -/
theorem wo_of_updated {engine : Engine α} {layout : Layout} (hlayout : layout.Regular)
    (hchained : layout.Chained) {frames count : Nat} {encoder : Encoder α} {decoder : Decoder α}
    {pcm : Array Int16} {done : Encoded α} {received : Subframes α}
    {reference : UpdateCode.Reference α}
    (hdone : encode engine layout frames encoder pcm = .ok done)
    (hupdated : updated layout decoder count done.content = .ok (received, reference))
    {u subframe : Nat} {scheme : UpdateScheme}
    (hsubframe : layout.updates[u]? = some (subframe : Int))
    (hscheme : layout.schemes[u]? = some scheme) (hjoint : scheme ≠ .joint) :
    ∃ walked model,
      walk engine layout frames encoder pcm (subframe + 1) = .ok walked ∧
      received.models[subframe]? = some model ∧ model.wo = walked.wo := by
  obtain ⟨all, _, _, _, hall, _, _, _, _, hcodes, _⟩ := encode_eq_ok hdone
  have hinside := hlayout.lt_subframes (List.mem_of_getElem? hsubframe)
  obtain ⟨walked, hwalked, rest, hrest⟩ :=
    walk_earlier (show subframe + 1 ≤ layout.subframes.toNat by omega) hall
  obtain ⟨stretches, pending, later, htraced⟩ := walk_traced hlayout hwalked
  have hlength := htraced.length_eq hlayout hsubframe
  obtain ⟨hu, hget⟩ := List.getElem?_eq_some_iff.mp hsubframe
  have htake : layout.updates.take (u + 1) = layout.updates.take u ++ [(subframe : Int)] := by
    rw [List.take_add_one, hsubframe]
    rfl
  rw [updated, hcodes, ← hrest, ← List.take_append_drop (u + 1) layout.updates,
    dequantise_append (by rw [List.length_take]; omega)] at hupdated
  obtain ⟨⟨middle, settled⟩, hmiddle, hlater⟩ := bind_eq_ok.mp hupdated
  have hsettled : Settled (layout.schemes.take walked.updates.length) := by
    refine ⟨scheme, ?_, hjoint⟩
    rw [hlength, List.take_add_one, hscheme, Option.toList_some, List.getLast?_concat]
  have hwo : settled.wo = walked.wo := by
    rw [← hlength] at hmiddle
    exact (walk_follows hlayout hchained hwalked hmiddle).2 hsettled
  obtain ⟨codes, code, hsplit⟩ : ∃ codes code, walked.updates = codes ++ [code] := by
    rcases List.eq_nil_or_concat walked.updates with hnil | ⟨codes, code, hsplit⟩
    · rw [hnil] at hlength
      cases hlength
    · exact ⟨codes, code, by rw [hsplit, List.concat_eq_append]⟩
  rw [hsplit, List.length_append, List.length_singleton] at hlength
  rw [htake, hsplit, dequantise_append (by rw [List.length_take]; omega)] at hmiddle
  obtain ⟨⟨_, _⟩, _, hlast⟩ := bind_eq_ok.mp hmiddle
  obtain ⟨_, _, model, _, hmodel, hmodelWo⟩ := dequantise_singleton_eq_ok hlast
  refine ⟨walked, model, hwalked, ?_, hmodelWo.trans hwo⟩
  rw [models_of_dequantise hlater ?_]
  · exact hmodel
  · intro next hnext
    have hascending := hlayout.ascending
    rw [← List.take_append_drop (u + 1) layout.updates, htake, List.pairwise_append] at hascending
    exact Int.ne_of_lt (hascending.2.2 subframe (by simp) next hnext)

end Frame

/-! ### Two sessions -/

theorem Frame.decode_eq_ok {engine : Engine α} {layout : Layout} {settings : PostFilter α}
    {decoder : Decoder α} {bytes : List UInt8} {errorRate : α} {done : Frame.Decoded α}
    (h : Frame.decode engine layout settings decoder bytes errorRate = .ok done) :
    ∃ content received reference, Frame.read layout bytes = .ok content ∧
      Frame.updated layout decoder layout.subframes.toNat content = .ok (received, reference) ∧
      done.decoder.predictor = reference.predictor := by
  obtain ⟨count, hcount, h⟩ := bind_eq_ok.mp h
  obtain ⟨content, hcontent, h⟩ := bind_eq_ok.mp h
  obtain ⟨⟨received, reference⟩, hupdated, h⟩ := bind_eq_ok.mp h
  refine ⟨content, received, reference, hcontent, ?_, ?_⟩
  · rw [← (length_eq_ok.mp hcount).2.2]
    exact hupdated
  · obtain ⟨decoded, _, h⟩ := bind_eq_ok.mp h
    obtain ⟨ordered, _, h⟩ := bind_eq_ok.mp h
    obtain ⟨lines, _, h⟩ := bind_eq_ok.mp h
    obtain ⟨model, _, h⟩ := bind_eq_ok.mp h
    obtain ⟨energy, _, h⟩ := bind_eq_ok.mp h
    obtain ⟨interpolated, _, h⟩ := bind_eq_ok.mp h
    obtain ⟨tracks, _, h⟩ := bind_eq_ok.mp h
    obtain ⟨sounding, _, h⟩ := bind_eq_ok.mp h
    obtain ⟨lastModel, _, h⟩ := bind_eq_ok.mp h
    obtain ⟨lastEnergy, _, h⟩ := bind_eq_ok.mp h
    cases h
    rfl

namespace Session

theorem encode_eq_ok {engine : Engine α} {session : Session α} {pcm : Array Int16}
    {reply : Reply α (List UInt8)} (h : session.encode engine pcm = .ok reply) :
    ((∃ error, reply.result = .error error) ∧ reply.session = session) ∨
    ∃ done, Frame.encode engine session.layout session.stats.frames session.encoder pcm =
        .ok done ∧ reply.result = .ok done.bytes ∧ reply.session.layout = session.layout ∧
      reply.session.encoder = done.encoder := by
  rw [encode] at h
  split at h
  · cases h
    exact .inl ⟨⟨_, rfl⟩, rfl⟩
  · split at h
    · cases h
      exact .inl ⟨⟨_, rfl⟩, rfl⟩
    · obtain ⟨done, hdone, h⟩ := bind_eq_ok.mp h
      cases h
      exact .inr ⟨done, hdone, rfl, rfl, rfl⟩

theorem decode_eq_ok {engine : Engine α} {session : Session α} {bytes : List UInt8}
    {errorRate : α} {reply : Reply α (List Int16)} (hopen : session.closed = false)
    (hlength : (bytes.length : Int) = session.layout.totalBytes)
    (h : session.decode engine bytes errorRate = .ok reply) :
    ∃ done, Frame.decode engine session.layout session.settings.postFilter session.decoder bytes
        errorRate = .ok done ∧ reply.session.layout = session.layout ∧
      reply.session.closed = false ∧ reply.session.decoder = done.decoder := by
  rw [decode, if_neg (by rw [hopen]; decide), if_neg (by rw [bytesPerFrame, hlength]; simp)] at h
  obtain ⟨done, hdone, h⟩ := bind_eq_ok.mp h
  cases h
  exact ⟨done, hdone, rfl, hopen, rfl⟩

theorem create_eq_ok {mode : Mode} {choices : List (Choice α)} {session : Session α}
    {notices : List (Notice α)} (h : create mode choices = .ok (session, notices)) :
    session.layout = mode.layout ∧ session.closed = false ∧
      session.encoder.predictor = Predictor.start ∧
      session.decoder.predictor = Predictor.start := by
  rw [create] at h
  split at h
  · cases h
  · split at h
    · cases h
    · rename_i started hstarted
      cases h
      obtain ⟨decoder, hdecoder, hstarted⟩ := bind_eq_ok.mp hstarted
      cases hstarted
      obtain ⟨count, _, hdecoder⟩ := bind_eq_ok.mp hdecoder
      obtain ⟨model, _, hdecoder⟩ := bind_eq_ok.mp hdecoder
      cases hdecoder
      exact ⟨rfl, rfl, rfl, rfl⟩

end Session

/-- Encodes a frame on one session and decodes it on another, given an estimate of the bit error
rate. Samples that the first session refuses are not sent. -/
def relay (engine : Engine α) (sender receiver : Session α) (pcm : Array Int16) (errorRate : α) :
    Except Fault (Session α × Session α) := do
  let sent ← sender.encode engine pcm
  match sent.result with
  | .error _ => return (sent.session, receiver)
  | .ok bytes =>
    let heard ← receiver.decode engine bytes errorRate
    return (sent.session, heard.session)

/-- Relays frames in order. -/
def relayAll (engine : Engine α) (sender receiver : Session α) :
    List (Array Int16 × α) → Except Fault (Session α × Session α)
  | [] => .ok (sender, receiver)
  | (pcm, errorRate) :: rest => do
    let (sender, receiver) ← relay engine sender receiver pcm errorRate
    relayAll engine sender receiver rest

/-- Two sessions that can follow one another: they have one layout and equal predictors. -/
structure Paired (layout : Layout) (sender receiver : Session α) : Prop where
  sending : sender.layout = layout
  receiving : receiver.layout = layout
  listening : receiver.closed = false
  predictor : receiver.decoder.predictor = sender.encoder.predictor

/-- One frame that is encoded and decoded keeps two sessions paired. -/
theorem Paired.exchange {engine : Engine α} {layout : Layout} (hlayout : layout.Regular)
    (hchained : layout.Chained) {sender receiver : Session α} (h : Paired layout sender receiver)
    {pcm : Array Int16} {errorRate : α} {sent : Reply α (List UInt8)} {bytes : List UInt8}
    {heard : Reply α (List Int16)} (hsent : sender.encode engine pcm = .ok sent)
    (hbytes : sent.result = .ok bytes)
    (hheard : receiver.decode engine bytes errorRate = .ok heard) :
    Paired layout sent.session heard.session ∧ ∃ done received reference,
      Frame.encode engine layout sender.stats.frames sender.encoder pcm = .ok done ∧
      Frame.read layout bytes = .ok done.content ∧
      Frame.updated layout receiver.decoder layout.subframes.toNat done.content =
        .ok (received, reference) := by
  rcases Session.encode_eq_ok hsent with
    ⟨⟨error, hresult⟩, _⟩ | ⟨done, hencode, hresult, hsending, hencoder⟩
  · rw [hresult] at hbytes
    cases hbytes
  · rw [hresult] at hbytes
    cases hbytes
    rw [h.sending] at hencode hsending
    have hlength := Frame.length_of_encode hlayout hencode
    rw [← h.receiving] at hlength
    obtain ⟨decoded, hdecode, hreceiving, hlistening, hdecoder⟩ :=
      Session.decode_eq_ok h.listening hlength hheard
    rw [h.receiving] at hdecode hreceiving
    obtain ⟨content, received, reference, hread, hupdated, hpredictor⟩ :=
      Frame.decode_eq_ok hdecode
    have hcontent := Frame.read_encode hlayout hencode
    rw [hcontent] at hread
    cases hread
    refine ⟨⟨hsending, hreceiving, hlistening, ?_⟩, done, received, reference, hencode, hcontent,
      hupdated⟩
    rw [hdecoder, hencoder, hpredictor]
    exact Frame.predictor_of_updated hlayout hchained h.predictor hencode hupdated

theorem Paired.relay {engine : Engine α} {layout : Layout} (hlayout : layout.Regular)
    (hchained : layout.Chained) {sender receiver sender' receiver' : Session α}
    (h : Paired layout sender receiver) {pcm : Array Int16} {errorRate : α}
    (hdone : Vocoder.relay engine sender receiver pcm errorRate = .ok (sender', receiver')) :
    Paired layout sender' receiver' := by
  obtain ⟨sent, hsent, hdone⟩ := bind_eq_ok.mp hdone
  cases hresult : sent.result with
  | error error =>
      simp only [hresult] at hdone
      cases hdone
      rcases Session.encode_eq_ok hsent with ⟨_, hsession⟩ | ⟨done, _, hbytes, _⟩
      · rw [hsession]
        exact h
      · rw [hresult] at hbytes
        cases hbytes
  | ok bytes =>
      simp only [hresult] at hdone
      obtain ⟨heard, hheard, hdone⟩ := bind_eq_ok.mp hdone
      cases hdone
      exact (h.exchange hlayout hchained hsent hresult hheard).1

theorem relayAll_paired {engine : Engine α} {layout : Layout} (hlayout : layout.Regular)
    (hchained : layout.Chained) {sender receiver sender' receiver' : Session α}
    (h : Paired layout sender receiver) {run : List (Array Int16 × α)}
    (hdone : relayAll engine sender receiver run = .ok (sender', receiver')) :
    Paired layout sender' receiver' := by
  induction run generalizing sender receiver with
  | nil =>
      cases hdone
      exact h
  | cons frame rest ih =>
      obtain ⟨⟨sender, receiver⟩, hfirst, hdone⟩ := bind_eq_ok.mp hdone
      exact ih (h.relay hlayout hchained hfirst) hdone

theorem Layout.chained_of_mode (mode : Mode) : mode.layout.Chained := by
  intro u hdelta
  cases mode with
  | rate1600 =>
      match u, hdelta with
      | 1, _ => exact ⟨.scalar, rfl, by decide⟩
  | rate3200 | rate2400 | rate1400 | rate1300 | rate1200 =>
      exact absurd (List.mem_of_getElem? hdelta) (by decide)

/-- Over the real numbers, frames with the right number of samples are encoded and decoded. -/
theorem yields_relay (engine : Engine ℝ) {mode : Mode} {sender receiver : Session ℝ}
    {pcm : Array Int16} (errorRate : ℝ) (hsending : sender.layout = mode.layout)
    (hopen : sender.closed = false) (hreceiver : receiver.Decodes mode)
    (hpcm : (pcm.size : Int) = mode.layout.subframes * subframeSize) :
    Yields (relay engine sender receiver pcm errorRate) fun done =>
      done.1.layout = mode.layout ∧ done.1.closed = false ∧ done.2.Decodes mode := by
  rw [← hsending] at hpcm
  refine (Session.yields_encode engine hsending hopen hpcm).bind ?_
  rintro sent ⟨⟨bytes, hbytes, hlength⟩, hlayout, hclosed⟩
  simp only [hbytes]
  refine (hreceiver.yields_decode engine errorRate hlength).bind fun heard hheard => ?_
  exact Yields.pure ⟨hlayout, hclosed, hheard.2⟩

theorem yields_relayAll (engine : Engine ℝ) {mode : Mode} {sender receiver : Session ℝ}
    {run : List (Array Int16 × ℝ)} (hsending : sender.layout = mode.layout)
    (hopen : sender.closed = false) (hreceiver : receiver.Decodes mode)
    (hrun : ∀ frame ∈ run, (frame.1.size : Int) = mode.layout.subframes * subframeSize) :
    Yields (relayAll engine sender receiver run) fun done =>
      done.1.layout = mode.layout ∧ done.1.closed = false ∧ done.2.Decodes mode := by
  induction run generalizing sender receiver with
  | nil => exact Yields.ok ⟨hsending, hopen, hreceiver⟩
  | cons frame rest ih =>
      obtain ⟨hframe, hrest⟩ := List.forall_mem_cons.mp hrun
      refine (yields_relay engine frame.2 hsending hopen hreceiver hframe).bind ?_
      rintro ⟨sender, receiver⟩ ⟨hsending, hopen, hreceiver⟩
      exact ih hsending hopen hreceiver hrest

/-- The encoder of one session and the decoder of another stay in lock step: both have the same
joint predictor after any run, and every scalar or differential update is decoded to the fundamental
that the encoder had computed for it. -/
theorem predictors_in_lock_step (mode : Mode) (engine : Engine α)
    (sending receiving : List (Choice α)) {first second sender receiver : Session α}
    {created created' : List (Notice α)}
    (hfirst : Session.create mode sending = .ok (first, created))
    (hsecond : Session.create mode receiving = .ok (second, created'))
    (run : List (Array Int16 × α))
    (hrun : relayAll engine first second run = .ok (sender, receiver)) :
    sender.encoder.predictor = receiver.decoder.predictor ∧
    ∀ pcm errorRate sent bytes heard, sender.encode engine pcm = .ok sent →
      sent.result = .ok bytes → receiver.decode engine bytes errorRate = .ok heard →
      sent.session.encoder.predictor = heard.session.decoder.predictor ∧
      ∃ content received reference, Frame.read mode.layout bytes = .ok content ∧
        Frame.updated mode.layout receiver.decoder mode.layout.subframes.toNat content =
          .ok (received, reference) ∧
        ∀ (subframe : Nat) (scheme : UpdateScheme),
          ((subframe : Int), scheme) ∈ mode.layout.updates.zip mode.layout.schemes →
          scheme ≠ .joint →
          ∃ walked model,
            Frame.walk engine mode.layout sender.stats.frames sender.encoder pcm (subframe + 1) =
              .ok walked ∧
            received.models[subframe]? = some model ∧ model.wo = walked.wo := by
  have hlayout := Layout.regular_of_mode mode
  have hchained := Layout.chained_of_mode mode
  obtain ⟨hsending, _, hencoder, _⟩ := Session.create_eq_ok hfirst
  obtain ⟨hreceiving, hlistening, _, hdecoder⟩ := Session.create_eq_ok hsecond
  have hpaired : Paired mode.layout sender receiver :=
    relayAll_paired hlayout hchained
      ⟨hsending, hreceiving, hlistening, hdecoder.trans hencoder.symm⟩ hrun
  refine ⟨hpaired.predictor.symm, fun pcm errorRate sent bytes heard hsent hbytes hheard => ?_⟩
  obtain ⟨hnext, done, received, reference, hencode, hread, hupdated⟩ :=
    hpaired.exchange hlayout hchained hsent hbytes hheard
  refine ⟨hnext.predictor.symm, done.content, received, reference, hread, hupdated, ?_⟩
  intro subframe scheme hmem hjoint
  obtain ⟨u, hu⟩ := List.mem_iff_getElem?.mp hmem
  obtain ⟨hsubframe, hscheme⟩ := List.getElem?_zip_eq_some.mp hu
  exact Frame.wo_of_updated hlayout hchained hencode hupdated hsubframe hscheme hjoint

/-- Silence between two sessions with different settings, of which one frame is muted. The next
frame ends with a differential update. -/
theorem predictors_in_lock_step_silence :
    ∃ (engine : Engine ℝ) (first second sender receiver : Session ℝ)
      (created created' : List (Notice ℝ)),
      Session.create .rate1600 [] = .ok (first, created) ∧
      Session.create .rate1600 [.seed 7, .withoutPostFilter] = .ok (second, created') ∧
      relayAll engine first second
        [(Array.replicate 320 0, 0), (Array.replicate 320 0, 1)] = .ok (sender, receiver) ∧
      sender.encoder.predictor = receiver.decoder.predictor ∧
      ∃ sent bytes heard, sender.encode engine (Array.replicate 320 0) = .ok sent ∧
        sent.result = .ok bytes ∧ receiver.decode engine bytes 0 = .ok heard ∧
        sent.session.encoder.predictor = heard.session.decoder.predictor ∧
        ∃ content received reference walked model,
          Frame.read Mode.rate1600.layout bytes = .ok content ∧
          Frame.updated Mode.rate1600.layout receiver.decoder 4 content =
            .ok (received, reference) ∧
          Frame.walk engine Mode.rate1600.layout sender.stats.frames sender.encoder
            (Array.replicate 320 0) 4 = .ok walked ∧
          received.models[3]? = some model ∧ model.wo = walked.wo := by
  obtain ⟨first, created, hfirst, hsending⟩ := Session.exists_create .rate1600 []
  obtain ⟨second, created', hsecond, hreceiving⟩ :=
    Session.exists_create .rate1600 [.seed 7, .withoutPostFilter]
  have hrun : ∀ frame ∈ [(Array.replicate 320 (0 : Int16), (0 : ℝ)), (Array.replicate 320 0, 1)],
      (frame.1.size : Int) = Mode.rate1600.layout.subframes * subframeSize := by
    intro frame hframe
    rcases List.mem_pair.mp hframe with rfl | rfl <;> rw [Array.size_replicate] <;> rfl
  obtain ⟨⟨sender, receiver⟩, hrelayed, hlayout, hopen, hreceiver⟩ :=
    yields_relayAll (Engine.ofTransform Transform.dft) hsending.layout hsending.opened hreceiving
      hrun
  have hpcm : ((Array.replicate 320 (0 : Int16)).size : Int) = sender.samplesPerFrame := by
    rw [Session.samplesPerFrame, hlayout, Array.size_replicate]
    rfl
  obtain ⟨sent, hsent, ⟨bytes, hbytes, hlength⟩, _⟩ :=
    Session.yields_encode (Engine.ofTransform Transform.dft) hlayout hopen hpcm
  obtain ⟨heard, hheard, _⟩ := hreceiver.yields_decode (Engine.ofTransform Transform.dft) 0 hlength
  obtain ⟨hpredictor, hnext⟩ := predictors_in_lock_step .rate1600 _ _ _ hfirst hsecond _ hrelayed
  obtain ⟨hpredictor', content, received, reference, hread, hupdated, hupdates⟩ :=
    hnext _ _ _ _ _ hsent hbytes hheard
  obtain ⟨walked, model, hwalked, hmodel, hwo⟩ := hupdates 3 .delta (by decide) (by decide)
  exact ⟨_, first, second, sender, receiver, created, created', hfirst, hsecond, hrelayed,
    hpredictor, sent, bytes, heard, hsent, hbytes, hheard, hpredictor', content, received,
    reference, walked, model, hread, hupdated, hwalked, hmodel, hwo⟩

end Vocoder
