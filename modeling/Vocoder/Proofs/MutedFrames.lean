import Vocoder.Proofs.FieldOrder
import Vocoder.Proofs.Forgetting
import Vocoder.Proofs.PairedOutcomes

/-!
Muted frames. When the channel is known to be bad, neither the voicing flags of a frame nor the
energies of its scalar updates and changes are trusted: whatever these bits are, the samples, the
counters and all that the session keeps are the same. Every stage is followed in two runs, on two
frames that agree on all other bits.
-/

namespace Vocoder

/-! ### Roles of bits -/

/-- What a bit of a frame is for. -/
inductive Role where
  | voicing
  | pitch
  | energy
  | joint
  | line
deriving DecidableEq

/-- What a muted frame is still made from. -/
def Role.Trusted (role : Role) : Prop := role ≠ .voicing ∧ role ≠ .energy

/-- What the bits of an update are for, in order. A joint update has no energy of its own. -/
def UpdateScheme.roles : UpdateScheme → List Role
  | .scalar => List.replicate pitchBits .pitch ++ List.replicate energyBits .energy
  | .delta => List.replicate deltaBits .pitch ++ List.replicate energyBits .energy
  | .joint => List.replicate jointBits .joint

def Span.roles (span : Span) : List Role :=
  List.replicate span.flags .voicing ++ span.scheme.roles

/-- What the bits of a frame are for, in the order in which they are read. Bits after these are
spare. -/
def Layout.roles (layout : Layout) : List Role :=
  (Span.ofUpdates 0 (layout.updates.zip layout.schemes)).flatMap Span.roles ++
    List.replicate layout.lines.widths.sum .line

/-- Bits that agree wherever their role is trusted. -/
structure AgreeOn (roles : List Role) (left right : List Bool) : Prop where
  left_length : left.length = roles.length
  right_length : right.length = roles.length
  agree : ∀ (p : Nat) role, roles[p]? = some role → role.Trusted → left[p]? = right[p]?

namespace AgreeOn

variable {roles front back : List Role} {left right : List Bool}

theorem take (h : AgreeOn (front ++ back) left right) :
    AgreeOn front (left.take front.length) (right.take front.length) := by
  have hleft := h.left_length
  have hright := h.right_length
  rw [List.length_append] at hleft hright
  refine ⟨by rw [List.length_take]; omega, by rw [List.length_take]; omega, ?_⟩
  intro p role hrole htrusted
  have hp := (List.getElem?_eq_some_iff.mp hrole).1
  rw [List.getElem?_take_of_lt hp, List.getElem?_take_of_lt hp]
  apply h.agree p role _ htrusted
  rw [List.getElem?_append_left hp, hrole]

theorem drop (h : AgreeOn (front ++ back) left right) :
    AgreeOn back (left.drop front.length) (right.drop front.length) := by
  have hleft := h.left_length
  have hright := h.right_length
  rw [List.length_append] at hleft hright
  refine ⟨by rw [List.length_drop]; omega, by rw [List.length_drop]; omega, ?_⟩
  intro p role hrole htrusted
  rw [List.getElem?_drop, List.getElem?_drop]
  apply h.agree (front.length + p) role _ htrusted
  rw [List.getElem?_append_right (by omega), Nat.add_sub_cancel_left, hrole]

theorem eq_of_trusted (h : AgreeOn roles left right) (htrusted : ∀ role ∈ roles, role.Trusted) :
    left = right := by
  apply List.ext_getElem?
  intro p
  cases hrole : roles[p]? with
  | some role => exact h.agree p role hrole (htrusted role (List.mem_of_getElem? hrole))
  | none =>
      have hp := List.getElem?_eq_none_iff.mp hrole
      rw [List.getElem?_eq_none (h.left_length ▸ hp), List.getElem?_eq_none (h.right_length ▸ hp)]

end AgreeOn

/-! ### Reading two frames -/

namespace BitReader

variable {β γ : Type}

/-- Two actions of readers make related values of bits that agree where they are trusted. -/
def TakesAlike (act act' : BitReader → Except Fault (β × BitReader)) (roles : List Role)
    (R : β → β → Prop) : Prop :=
  ∀ left right, AgreeOn roles left right → ∃ x y, R x y ∧ Reads act left x ∧ Reads act' right y

namespace TakesAlike

theorem pure {R : β → β → Prop} {x y : β} (h : R x y) :
    TakesAlike (fun reader => .ok (x, reader)) (fun reader => .ok (y, reader)) [] R := by
  intro left right hagree
  rw [List.eq_nil_of_length_eq_zero hagree.left_length,
    List.eq_nil_of_length_eq_zero hagree.right_length]
  exact ⟨x, y, h, Reads.pure x, Reads.pure y⟩

theorem bind {act act' : BitReader → Except Fault (β × BitReader)}
    {next next' : β × BitReader → Except Fault (γ × BitReader)} {front back : List Role}
    {R : β → β → Prop} {S : γ → γ → Prop} (hact : TakesAlike act act' front R)
    (hnext : ∀ x y, R x y →
      TakesAlike (fun reader => next (x, reader)) (fun reader => next' (y, reader)) back S) :
    TakesAlike (fun reader => act reader >>= next) (fun reader => act' reader >>= next')
      (front ++ back) S := by
  intro left right hagree
  obtain ⟨x, y, hxy, hx, hy⟩ := hact _ _ hagree.take
  obtain ⟨u, v, huv, hu, hv⟩ := hnext x y hxy _ _ hagree.drop
  refine ⟨u, v, huv, ?_, ?_⟩
  · rw [← List.take_append_drop front.length left]
    exact hx.bind hu
  · rw [← List.take_append_drop front.length right]
    exact hy.bind hv

theorem of_eq {act act' : BitReader → Except Fault (β × BitReader)} {roles roles' : List Role}
    {R : β → β → Prop} (h : roles = roles') (hact : TakesAlike act act' roles R) :
    TakesAlike act act' roles' R :=
  h ▸ hact

variable {act : BitReader → Except Fault (β × BitReader)} {count : Nat} {P : β → Prop}

/-- An action that takes trusted bits makes one value of both. -/
theorem of_trusted (hact : Takes act count P) {role : Role} (htrusted : role.Trusted) :
    TakesAlike act act (List.replicate count role) Eq := by
  intro left right hagree
  obtain rfl := hagree.eq_of_trusted fun _ hmem => List.eq_of_mem_replicate hmem ▸ htrusted
  obtain ⟨x, _, hx⟩ := hact.reads left (by rw [hagree.left_length, List.length_replicate])
  exact ⟨x, x, rfl, hx, hx⟩

theorem of_takes (hact : Takes act count P) (role : Role) :
    TakesAlike act act (List.replicate count role) fun x y => P x ∧ P y := by
  intro left right hagree
  obtain ⟨x, hx, hleft⟩ := hact.reads left (by rw [hagree.left_length, List.length_replicate])
  obtain ⟨y, hy, hright⟩ := hact.reads right (by rw [hagree.right_length, List.length_replicate])
  exact ⟨x, y, ⟨hx, hy⟩, hleft, hright⟩

end TakesAlike

end BitReader

open BitReader

/-- A code with the energy of its own taken out. -/
def UpdateCode.withoutEnergy : UpdateCode → UpdateCode
  | .scalar pitch _ => .scalar pitch 0
  | .delta change _ => .delta change 0
  | .joint index => .joint index

theorem takesAlike_code (scheme : UpdateScheme) :
    TakesAlike (UpdateCode.read scheme) (UpdateCode.read scheme) scheme.roles
      fun x y => x.withoutEnergy = y.withoutEnergy := by
  have hpitch : Role.pitch.Trusted := ⟨by decide, by decide⟩
  have hjoint : Role.joint.Trusted := ⟨by decide, by decide⟩
  cases scheme with
  | scalar =>
      apply TakesAlike.of_eq (congrArg _ (List.append_nil _))
      apply (TakesAlike.of_trusted (takes_read pitchBits .gray) hpitch).bind
      rintro pitch _ rfl
      apply (TakesAlike.of_takes (takes_read energyBits .gray) .energy).bind
      intro energy energy' _
      exact TakesAlike.pure rfl
  | delta =>
      apply TakesAlike.of_eq (congrArg _ (List.append_nil _))
      apply (TakesAlike.of_trusted (takes_read deltaBits .gray) hpitch).bind
      rintro change _ rfl
      apply (TakesAlike.of_takes (takes_read energyBits .gray) .energy).bind
      intro energy energy' _
      exact TakesAlike.pure rfl
  | joint =>
      apply TakesAlike.of_eq (List.append_nil _)
      apply (TakesAlike.of_trusted (takes_read jointBits .gray) hjoint).bind
      rintro index _ rfl
      exact TakesAlike.pure rfl

namespace Frame

theorem takesAlike_updates {subframes : Int} (updates : List Int) (schemes : List UpdateScheme)
    {voicing voicing' : List Bool} (hvoicing : voicing'.length = voicing.length)
    (hinside : ∀ subframe ∈ updates, subframe < subframes)
    (hschemes : schemes.length = updates.length) :
    TakesAlike (readUpdates subframes updates schemes voicing)
      (readUpdates subframes updates schemes voicing')
      ((Span.ofUpdates voicing.length (updates.zip schemes)).flatMap Span.roles)
      fun x y => x.2.map UpdateCode.withoutEnergy = y.2.map UpdateCode.withoutEnergy := by
  induction updates generalizing schemes voicing voicing' with
  | nil => exact TakesAlike.pure rfl
  | cons subframe updates ih =>
      obtain ⟨scheme, schemes, rfl⟩ := List.exists_cons_of_length_eq_add_one hschemes
      obtain ⟨hfirst, hrest⟩ := List.forall_mem_cons.mp hinside
      rw [readUpdates_cons hfirst, readUpdates_cons hfirst, hvoicing, List.zip_cons_cons,
        Span.ofUpdates, List.flatMap_cons, Span.roles, List.append_assoc]
      apply (TakesAlike.of_takes (takes_voicing _) .voicing).bind
      rintro flags flags' ⟨hflags, hflags'⟩
      apply (takesAlike_code scheme).bind
      intro code code' hcode
      have hlength : (voicing' ++ flags').length = (voicing ++ flags).length := by
        rw [List.length_append, List.length_append, hflags, hflags', hvoicing]
      have htail := ih schemes hlength hrest (Nat.succ.inj hschemes)
      rw [List.length_append, hflags] at htail
      apply TakesAlike.of_eq (List.append_nil _)
      apply htail.bind
      intro found found' hfound
      exact TakesAlike.pure (by rw [List.map_cons, List.map_cons, hcode, hfound])

/-- What a muted frame is still made from. -/
structure Content.AlikeMuted (left right : Content) : Prop where
  updates : left.updates.map UpdateCode.withoutEnergy = right.updates.map UpdateCode.withoutEnergy
  lines : left.lines = right.lines

theorem takesAlike_content {layout : Layout} (h : layout.Regular) :
    TakesAlike (readContent layout) (readContent layout) layout.roles Content.AlikeMuted := by
  have hline : Role.line.Trusted := ⟨by decide, by decide⟩
  apply (takesAlike_updates layout.updates layout.schemes rfl
    (fun subframe hmem => h.lt_subframes hmem) h.schemes).bind
  intro found found' hfound
  apply TakesAlike.of_eq (List.append_nil _)
  apply (TakesAlike.of_trusted (takes_readAll layout.lines.widths) hline).bind
  rintro lines _ rfl
  exact TakesAlike.pure ⟨hfound, rfl⟩

/-- Frames that agree on the trusted bits are read alike. -/
theorem matches_read {layout : Layout} (hlayout : layout.Regular) {left right : List UInt8}
    (hleft : layout.roles.length ≤ 8 * left.length)
    (hright : layout.roles.length ≤ 8 * right.length)
    (hagree : ∀ (p : Nat) role, layout.roles[p]? = some role → role.Trusted →
      (Bits.ofBytes left)[p]? = (Bits.ofBytes right)[p]?) :
    Matches Content.AlikeMuted (read layout left) (read layout right) := by
  have hbits : AgreeOn layout.roles ((Bits.ofBytes left).take layout.roles.length)
      ((Bits.ofBytes right).take layout.roles.length) := by
    refine ⟨by rw [List.length_take, Bits.length_ofBytes]; omega,
      by rw [List.length_take, Bits.length_ofBytes]; omega, ?_⟩
    intro p role hrole htrusted
    have hp := (List.getElem?_eq_some_iff.mp hrole).1
    rw [List.getElem?_take_of_lt hp, List.getElem?_take_of_lt hp]
    exact hagree p role hrole htrusted
  obtain ⟨content, content', halike, hread, hread'⟩ := takesAlike_content hlayout _ _ hbits
  have hsees := sees_start left
  have hsees' := sees_start right
  rw [← List.take_append_drop layout.roles.length (Bits.ofBytes left)] at hsees
  rw [← List.take_append_drop layout.roles.length (Bits.ofBytes right)] at hsees'
  rw [read_eq_map, read_eq_map, hread _ _ hsees, hread' _ _ hsees']
  exact halike

/-! ### Subframes of two muted frames -/

variable {α : Type} [Analytic α]

/-- A model taken for unvoiced. -/
def unvoiced (model : Model α) : Model α := { model with voiced := false }

/-- Subframes that are the same once they are muted. -/
structure Subframes.AlikeMuted (left right : Subframes α) : Prop where
  models : left.models.map unvoiced = right.models.map unvoiced
  energies : left.energies.size = right.energies.size

theorem matches_decode_code {code code' : UpdateCode} (h : code.withoutEnergy = code'.withoutEnergy)
    (range : PitchRange α) (reference : UpdateCode.Reference α) :
    Matches (fun x y => x.1.1 = y.1.1 ∧ x.2 = y.2) (code.decode range reference)
      (code'.decode range reference) := by
  cases code <;> cases code' <;> cases h
  · exact ⟨rfl, rfl⟩
  · exact ⟨rfl, rfl⟩
  · exact (Matches.refl _).mono fun x y hxy => hxy ▸ ⟨rfl, rfl⟩

theorem matches_withFundamental {left right : Model α} (h : unvoiced left = unvoiced right)
    (wo : α) :
    Matches (fun x y => unvoiced x = unvoiced y) (left.withFundamental wo)
      (right.withFundamental wo) := by
  unfold Model.withFundamental
  dsimp only
  split_ifs
  · rfl
  · simp only [unvoiced, Model.mk.injEq] at h
    show unvoiced _ = unvoiced _
    simp only [unvoiced, h.2.2.1, h.2.2.2.1]

theorem matches_dequantise (range : PitchRange α) (updates : List Int)
    {codes codes' : List UpdateCode}
    (hcodes : codes.map UpdateCode.withoutEnergy = codes'.map UpdateCode.withoutEnergy)
    {left right : Subframes α} (h : left.AlikeMuted right) (reference : UpdateCode.Reference α) :
    Matches (fun x y => x.1.AlikeMuted y.1 ∧ x.2 = y.2)
      (dequantise range updates codes left reference)
      (dequantise range updates codes' right reference) := by
  induction updates generalizing codes codes' left right reference with
  | nil => exact ⟨h, rfl⟩
  | cons subframe updates ih =>
      cases codes with
      | nil =>
          rw [List.map_nil, eq_comm, List.map_eq_nil_iff] at hcodes
          rw [hcodes]
          exact ⟨h, rfl⟩
      | cons code codes =>
          cases codes' with
          | nil => cases hcodes
          | cons code' codes' =>
              obtain ⟨hcode, hcodes⟩ := List.cons.inj hcodes
              rw [dequantise, dequantise]
              apply (matches_decode_code hcode range reference).bind
              rintro ⟨⟨wo, energy⟩, next⟩ ⟨⟨_, energy'⟩, _⟩ ⟨rfl, rfl⟩
              apply (matches_fetch h.models subframe).bind
              intro model model' hmodel
              apply (matches_withFundamental hmodel wo).bind
              intro tuned tuned' htuned
              apply (matches_store h.models htuned subframe).bind
              intro models models' hmodels
              apply (matches_store_of_size h.energies subframe energy energy').bind
              intro energies energies' henergies
              exact ih hcodes ⟨hmodels, henergies⟩ next

theorem alikeMuted_start (count : Nat) (voicing voicing' : List Bool) :
    (Subframes.start count voicing : Subframes α).AlikeMuted (Subframes.start count voicing') where
  models := by simp [Subframes.start, unvoiced, Function.comp_def]
  energies := by simp [Subframes.start]

/-- What interpolation makes of muted subframes differs in their energies only. -/
structure Subframes.AlikeModels (left right : Subframes α) : Prop where
  models : left.models = right.models
  energies : left.energies.size = right.energies.size

omit [Analytic α] in
theorem Subframes.AlikeMuted.muteVoicing {left right : Subframes α} (h : left.AlikeMuted right) :
    (Frame.muteVoicing true left).AlikeModels (Frame.muteVoicing true right) :=
  ⟨h.models, h.energies⟩

theorem Subframes.AlikeModels.muteEnergy {left right : Subframes α} (h : left.AlikeModels right) :
    Frame.muteEnergy true left = Frame.muteEnergy true right := by
  simp only [Frame.muteEnergy, h.models, if_true]
  congr 1
  rw [← Array.toList_inj]
  simp [List.map_const', h.energies]

omit [Analytic α] in
theorem matches_anchor (decoder : Decoder α) (last : Option Nat) {left right : Subframes α}
    (h : left.AlikeModels right) :
    Matches (fun x y => x.model = y.model ∧ x.subframe = y.subframe) (anchor decoder last left)
      (anchor decoder last right) := by
  cases last with
  | none => exact ⟨rfl, rfl⟩
  | some k =>
      apply (Matches.of_eq (congrArg (fetch · k) h.models)).bind
      rintro model _ rfl
      apply (matches_fetch_of_size h.energies k).bind
      intro energy energy' _
      exact ⟨rfl, rfl⟩

theorem matches_interpolateAt (layout : Layout) (decoder : Decoder α) (count i : Nat)
    (last : Option Nat) {left right : Subframes α} (h : left.AlikeModels right) :
    Matches Subframes.AlikeModels (interpolateAt layout decoder count i last left)
      (interpolateAt layout decoder count i last right) := by
  unfold interpolateAt
  dsimp only
  apply (matches_anchor decoder last h).bind
  rintro ⟨model, energy, origin⟩ ⟨_, energy', _⟩ ⟨rfl, rfl⟩
  rw [h.models]
  apply (Matches.refl _).bind
  rintro next _ rfl
  apply (Matches.refl _).bind
  rintro source _ rfl
  apply (Matches.refl _).bind
  rintro between _ rfl
  apply (matches_fetch_of_size h.energies _).bind
  intro ahead ahead' _
  apply (Matches.refl _).bind
  rintro models _ rfl
  apply (matches_store_of_size h.energies _ _ _).bind
  intro energies energies' henergies
  exact ⟨rfl, henergies⟩

theorem matches_interpolate (layout : Layout) (decoder : Decoder α) (count : Nat)
    {left right : Subframes α} (h : left.AlikeModels right) :
    Matches Subframes.AlikeModels (interpolate layout decoder count left)
      (interpolate layout decoder count right) := by
  unfold interpolate
  apply (Matches.foldlM (R := fun x y => x.1.AlikeModels y.1 ∧ x.2 = y.2) ⟨h, rfl⟩ ?_).bind
  · rintro ⟨left, last⟩ ⟨right, _⟩ ⟨hnext, rfl⟩
    exact hnext
  · rintro i _ ⟨left, last⟩ ⟨right, _⟩ ⟨hnext, rfl⟩
    dsimp only
    split
    · exact ⟨hnext, rfl⟩
    · apply (matches_interpolateAt layout decoder count i last hnext).bind
      intro left right hdone
      exact ⟨hdone, rfl⟩

/-! ### Muted frames -/

/-- What two muted frames give: the reports may differ in what was dequantised. -/
structure Decoded.Same (left right : Decoded α) : Prop where
  samples : left.samples = right.samples
  decoder : left.decoder = right.decoder
  reordered : left.reordered = right.reordered
  noisy : left.noisy = right.noisy
  stage : ∀ stage, Session.stageAfter stage left.notices = Session.stageAfter stage right.notices

omit [Analytic α] in
theorem stageAfter_append (stage : Stage) (notices : List (Notice α)) (event : Event α) :
    Session.stageAfter stage (notices ++ [.entered event]) = event.stage := by
  simp [Session.stageAfter, Notice.events, List.filterMap_append]

/-- Muted frames that agree on the trusted bits sound the same and leave the same behind. -/
theorem matches_decode (engine : Engine α) {layout : Layout} (hlayout : layout.Regular)
    (settings : PostFilter α) (decoder : Decoder α) {errorRate : α}
    (hmute : muteThreshold < errorRate) {left right : List UInt8}
    (hleft : layout.roles.length ≤ 8 * left.length)
    (hright : layout.roles.length ≤ 8 * right.length)
    (hagree : ∀ (p : Nat) role, layout.roles[p]? = some role → role.Trusted →
      (Bits.ofBytes left)[p]? = (Bits.ofBytes right)[p]?) :
    Matches Decoded.Same (decode engine layout settings decoder left errorRate)
      (decode engine layout settings decoder right errorRate) := by
  unfold decode
  dsimp only
  rw [decide_eq_true hmute]
  apply (Matches.refl _).bind
  rintro count _ rfl
  apply (matches_read hlayout hleft hright hagree).bind
  intro content content' hcontent
  apply (matches_dequantise PitchRange.speech layout.updates hcontent.updates
    (alikeMuted_start count content.voicing content'.voicing) _).bind
  rintro ⟨received, reference⟩ ⟨received', _⟩ ⟨hreceived, rfl⟩
  dsimp only at hreceived ⊢
  rw [hcontent.lines]
  apply (Matches.refl _).bind
  rintro decoded _ rfl
  apply (Matches.refl _).bind
  rintro ⟨ordered, swaps⟩ _ rfl
  apply (Matches.refl _).bind
  rintro lines _ rfl
  apply (matches_fetch hreceived.models _).bind
  intro model model' _
  apply (matches_fetch_of_size hreceived.energies _).bind
  intro energy energy' _
  apply (matches_interpolate layout decoder count hreceived.muteVoicing).bind
  intro interpolated interpolated' hinterpolated
  apply (Matches.refl _).bind
  rintro tracks _ rfl
  rw [hinterpolated.muteEnergy]
  apply (Matches.refl _).bind
  rintro sounding _ rfl
  apply (Matches.refl _).bind
  rintro lastModel _ rfl
  apply (Matches.refl _).bind
  rintro lastEnergy _ rfl
  refine ⟨rfl, rfl, rfl, rfl, fun stage => ?_⟩
  rw [stageAfter_append, stageAfter_append]

/-! ### What a muted frame sounds like -/

theorem voiced_of_fundamental {model prev next done : Model α} {weight lowest : α}
    (h : Interpolation.fundamental model prev next weight lowest = .ok done)
    (hmodel : model.voiced = false) : done.voiced = false := by
  unfold Interpolation.fundamental Model.withFundamental at h
  dsimp only at h
  split_ifs at h <;> cases h <;> simp [hmodel]

/-- Interpolation makes no subframe voiced. -/
theorem unvoiced_of_interpolate {layout : Layout} {decoder : Decoder α} {count : Nat}
    {start done : Subframes α} (h : interpolate layout decoder count start = .ok done)
    (hstart : ∀ model ∈ start.models, model.voiced = false) :
    ∀ model ∈ done.models, model.voiced = false := by
  obtain ⟨⟨last, place⟩, hlast, h⟩ := bind_eq_ok.mp h
  obtain rfl := pure_eq_ok.mp h
  apply foldlM_range_induction (P := fun _ (acc : Subframes α × Option Nat) =>
    ∀ model ∈ acc.1.models, model.voiced = false) hlast hstart
  rintro i ⟨subframes, place⟩ next _ hunvoiced hnext
  dsimp only at hunvoiced hnext
  split at hnext
  · obtain rfl := pure_eq_ok.mp hnext
    exact hunvoiced
  · obtain ⟨between, hbetween, hnext⟩ := bind_eq_ok.mp hnext
    obtain rfl := pure_eq_ok.mp hnext
    obtain ⟨prev, _, hbetween⟩ := bind_eq_ok.mp hbetween
    obtain ⟨nextModel, _, hbetween⟩ := bind_eq_ok.mp hbetween
    obtain ⟨source, hsource, hbetween⟩ := bind_eq_ok.mp hbetween
    obtain ⟨tuned, htuned, hbetween⟩ := bind_eq_ok.mp hbetween
    obtain ⟨energy, _, hbetween⟩ := bind_eq_ok.mp hbetween
    obtain ⟨models, hmodels, hbetween⟩ := bind_eq_ok.mp hbetween
    obtain ⟨energies, _, hbetween⟩ := bind_eq_ok.mp hbetween
    obtain rfl := pure_eq_ok.mp hbetween
    obtain ⟨_, _, rfl⟩ := store_eq_ok.mp hmodels
    have hmem := Array.mem_of_getElem? (fetch_eq_ok.mp hsource).2
    intro model hmodel
    rcases Array.mem_or_eq_of_mem_setIfInBounds hmodel with hmodel | rfl
    · exact hunvoiced model hmodel
    · exact voiced_of_fundamental htuned (hunvoiced source hmem)

/-- All subframes of a muted frame are synthesised unvoiced and with the low energy. -/
theorem silent_of_decode {engine : Engine α} {layout : Layout} {settings : PostFilter α}
    {decoder : Decoder α} {bytes : List UInt8} {errorRate : α} {done : Decoded α}
    (hmute : muteThreshold < errorRate)
    (h : decode engine layout settings decoder bytes errorRate = .ok done) :
    ∀ event ∈ Notice.events done.notices, event.stage = .synthesising →
      event.model.voiced = false ∧ event.energy = Energy.decode 10 energyBits := by
  obtain ⟨stages, rfl⟩ := Stages.exists_of_decode h
  have hinterpolating := stages.interpolating
  have hsynthesising := stages.synthesising
  rw [decide_eq_true hmute] at hinterpolating hsynthesising
  have hunvoiced := unvoiced_of_interpolate hinterpolating (by simp [muteVoicing])
  intro event hevent hstage
  obtain ⟨notice, hnotice, hentered⟩ := List.mem_filterMap.mp hevent
  have hsound : notice ∈ stages.sounding.notices := by
    simp only [Stages.result, List.mem_append, List.mem_cons, List.not_mem_nil, or_false] at hnotice
    -- The other reports of a frame are of other stages.
    rcases hnotice with ((rfl | rfl | rfl) | hnotice) | rfl
    · cases hentered
      cases hstage
    · cases hentered
      cases hstage
    · cases hentered
      cases hstage
    · exact hnotice
    · cases hentered
      cases hstage
  obtain ⟨hlength, hreports⟩ :=
    List.forall₂_iff_get.mp (follows_of_foldlM hsynthesising).notices
  obtain ⟨k, rfl⟩ := List.mem_iff_get.mp hsound
  have hreport := hreports k (by rw [hlength]; exact k.isLt) k.isLt
  obtain ⟨track, _, hreport⟩ := bind_eq_ok.mp hreport
  obtain ⟨filter, _, hreport⟩ := bind_eq_ok.mp hreport
  obtain ⟨energy, henergy, hreport⟩ := bind_eq_ok.mp hreport
  obtain ⟨source, hsource, hreport⟩ := bind_eq_ok.mp hreport
  obtain ⟨sampled, hsampled, hreport⟩ := bind_eq_ok.mp hreport
  obtain ⟨model, hmodel, hreport⟩ := bind_eq_ok.mp hreport
  rw [← pure_eq_ok.mp hreport] at hentered
  cases hentered
  have hmem := Array.mem_of_getElem? (fetch_eq_ok.mp hsource).2
  have hlow := Array.mem_of_getElem? (fetch_eq_ok.mp henergy).2
  constructor
  · rw [((Envelope.alike_of_correct hmodel).trans (Envelope.alike_of_sample hsampled)).voiced]
    exact hunvoiced source (muteEnergy_models true stages.interpolated ▸ hmem)
  · simp only [muteEnergy, if_true, Array.mem_map] at hlow
    obtain ⟨_, _, heq⟩ := hlow
    exact heq.symm

end Frame

theorem Layout.roles_le_of_mode (mode : Mode) :
    (mode.layout.roles.length : Int) ≤ 8 * mode.layout.totalBytes := by
  cases mode <;> decide

variable {α : Type} [Analytic α]

/-- When the error rate is above the threshold, frames that differ in voicing flags, in the energies
of scalar updates and changes, and in spare bits only are decoded alike, unvoiced and with the low
energy. -/
theorem muted_decode_distrusts_voicing_energy (mode : Mode) (engine : Engine α)
    (session : Session α) (hlayout : session.layout = mode.layout) (errorRate : α)
    (hmute : Frame.muteThreshold < errorRate) :
    (∀ left right : List UInt8, (left.length : Int) = session.bytesPerFrame →
      (right.length : Int) = session.bytesPerFrame →
      (∀ (p : Nat) role, mode.layout.roles[p]? = some role → role ≠ .voicing → role ≠ .energy →
        (Bits.ofBytes left)[p]? = (Bits.ofBytes right)[p]?) →
      (session.decode engine left errorRate).map (fun reply => (reply.result, reply.session)) =
        (session.decode engine right errorRate).map fun reply => (reply.result, reply.session)) ∧
    ∀ bytes reply, session.decode engine bytes errorRate = .ok reply →
      ∀ event ∈ Notice.events reply.notices, event.stage = .synthesising →
        event.model.voiced = false ∧ event.energy = Energy.decode 10 energyBits := by
  constructor
  · intro left right hleft hright hagree
    have hroles := Layout.roles_le_of_mode mode
    rw [Session.bytesPerFrame, hlayout] at hleft hright
    have hrefusal : session.decodeRefusal? left = session.decodeRefusal? right := by
      have hlength : left.length = right.length := by omega
      rw [Session.decodeRefusal?, Session.decodeRefusal?, hlength]
    rw [Session.decode_eq, Session.decode_eq, hrefusal]
    cases session.decodeRefusal? right with
    | some error => rfl
    | none =>
        have hmatches := Frame.matches_decode engine (Layout.regular_of_mode mode)
          session.settings.postFilter session.decoder hmute (by omega) (by omega)
          fun p role hrole htrusted => hagree p role hrole htrusted.1 htrusted.2
        rw [hlayout]
        apply Matches.map_eq (R := fun reply reply' =>
          (reply.result, reply.session) = (reply'.result, reply'.session))
        · apply hmatches.bind
          intro done done' hsame
          simp only [Session.decoded, hsame.samples, hsame.decoder, hsame.reordered, hsame.noisy,
            hsame.stage]
          exact rfl
        · exact fun reply reply' => id
  · intro bytes reply hreply
    rw [Session.decode_eq] at hreply
    cases hrefusal : session.decodeRefusal? bytes with
    | some error =>
        rw [hrefusal] at hreply
        cases hreply
        simp [Session.refuse, Notice.events]
    | none =>
        rw [hrefusal] at hreply
        obtain ⟨done, hdone, hreply⟩ := bind_eq_ok.mp hreply
        obtain rfl := pure_eq_ok.mp hreply
        exact Frame.silent_of_decode hmute hdone

/-- A frame of zeros, and one with all voicing flags, energies and spare bits set. -/
theorem muted_decode_distrusts_voicing_energy_ones :
    ∃ (session : Session ℝ) (created : List (Notice ℝ)) (first second : Reply ℝ (List Int16)),
      Session.create .rate1600 [] = .ok (session, created) ∧
      (Frame.muteThreshold : ℝ) < 1 ∧
      session.decode (Engine.ofTransform Transform.dft) [0, 0, 0, 0, 0, 0, 0, 0] 1 = .ok first ∧
      session.decode (Engine.ofTransform Transform.dft) [0xc0, 0x7f, 0x1f, 0, 0, 0, 0, 0x0f] 1 =
        .ok second ∧
      first.result = second.result ∧ first.session = second.session ∧
      (Frame.synthesised second.notices).length = 4 ∧
      ∀ event ∈ Frame.synthesised second.notices,
        event.model.voiced = false ∧ event.energy = Energy.decode 10 energyBits := by
  have hroles (role : Role) (hvoicing : role ≠ .voicing) (henergy : role ≠ .energy) :
      role ∈ [Role.pitch, .joint, .line] := by
    cases role <;> simp_all
  obtain ⟨session, created, hcreate, hsession⟩ := Session.exists_create .rate1600 []
  have hmute : (Frame.muteThreshold : ℝ) < 1 := by
    unfold Frame.muteThreshold
    norm_num
  obtain ⟨first, hfirst, _⟩ := hsession.yields_decode (Engine.ofTransform Transform.dft) 1
    (show (([0, 0, 0, 0, 0, 0, 0, 0] : List UInt8).length : Int) = _ from rfl)
  obtain ⟨second, hsecond, hanswered, _⟩ := hsession.yields_decode
    (Engine.ofTransform Transform.dft) 1
    (show (([0xc0, 0x7f, 0x1f, 0, 0, 0, 0, 0x0f] : List UInt8).length : Int) = _ from rfl)
  obtain ⟨hsame, hsilent⟩ := muted_decode_distrusts_voicing_energy .rate1600
    (Engine.ofTransform Transform.dft) session hsession.layout 1 hmute
  have hbits : ∀ p, p < 60 → ∀ role ∈ [Role.pitch, .joint, .line],
      Mode.rate1600.layout.roles[p]? = some role →
      (Bits.ofBytes [0, 0, 0, 0, 0, 0, 0, 0])[p]? =
        (Bits.ofBytes [0xc0, 0x7f, 0x1f, 0, 0, 0, 0, 0x0f])[p]? := by decide
  have heq := hsame [0, 0, 0, 0, 0, 0, 0, 0] [0xc0, 0x7f, 0x1f, 0, 0, 0, 0, 0x0f]
    (by rw [Session.bytesPerFrame, hsession.layout]; rfl)
    (by rw [Session.bytesPerFrame, hsession.layout]; rfl) fun p role hrole hvoicing henergy => by
      apply hbits p _ role (hroles role hvoicing henergy) hrole
      exact (List.getElem?_eq_some_iff.mp hrole).1
  rw [hfirst, hsecond] at heq
  obtain ⟨hresult, hnext⟩ := Prod.mk.inj (Except.ok.inj heq)
  have hcount := congrArg List.length hanswered.subframes
  rw [List.length_map, List.length_map, List.length_range] at hcount
  refine ⟨session, created, first, second, hcreate, hmute, hfirst, hsecond, hresult, hnext, hcount,
    fun event hevent => ?_⟩
  obtain ⟨hmem, hstage⟩ := List.mem_filter.mp hevent
  exact hsilent _ _ hsecond event hmem (of_decide_eq_true hstage)

end Vocoder
