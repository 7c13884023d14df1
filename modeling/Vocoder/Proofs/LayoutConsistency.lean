import Vocoder.Proofs.FieldOrder
import Vocoder.Proofs.LockStep

/-!
What the check of a layout is worth. A layout that passes has a scheme for every update, its last
update at its last subframe, and as many bits as its rate wants. That is not all that the two sides
rely on. The fields that are written are the fields that are read exactly if the updates ascend
inside the frame, and a change refers to one fundamental on both sides only after an update that is
not joint. The check asks neither, nor does it ask whether the number of spare bits is negative.
-/

namespace Vocoder

namespace Layout

/-- A layout whose updates ascend inside the frame. -/
structure Ordered (layout : Layout) : Prop where
  ascending : layout.updates.Pairwise (· < ·)
  inside : ∀ subframe ∈ layout.updates, 0 ≤ subframe ∧ subframe < layout.subframes

theorem validate_eq_ok {layout : Layout} (h : layout.validate = .ok ()) :
    layout.updates.length = layout.schemes.length ∧
      layout.updates.getLast? = some (wrap (layout.subframes - 1)) := by
  unfold validate at h
  split at h
  · cases h
  · split at h
    · cases h
    · rename_i hupdates
      obtain ⟨hlength, hlast⟩ := not_or.mp hupdates
      exact ⟨not_not.mp hlength, not_not.mp hlast⟩

/-- Of ascending updates, those that the subframes carry are all, in their order. -/
theorem Ordered.carried_eq {layout : Layout} (h : layout.Ordered)
    (hlength : layout.updates.length = layout.schemes.length) :
    layout.carried layout.subframes.toNat = layout.updates.zip layout.schemes := by
  let before (left right : Int × UpdateScheme) : Prop := left.1 < right.1
  have : Std.Antisymm before := ⟨fun left right hlt hgt => absurd hlt (Int.lt_asymm hgt)⟩
  have : Std.Irrefl before := ⟨fun update => Int.lt_irrefl update.1⟩
  have hzip : (layout.updates.zip layout.schemes).Pairwise before := by
    have hfst := h.ascending
    rw [← List.map_fst_zip hlength.le] at hfst
    exact List.pairwise_map.mp hfst
  apply (layout.carried_ascending _).eq_of_mem_iff hzip
  intro update
  rw [mem_carried]
  constructor
  · rintro ⟨i, _, hi, hscheme⟩
    obtain ⟨u, hu, hscheme⟩ := Option.bind_eq_some_iff.mp hscheme
    obtain ⟨hlt, heq, _⟩ := List.findIdx?_eq_some_iff_getElem.mp hu
    have hget : layout.updates[u]? = some update.1 := by
      rw [List.getElem?_eq_getElem hlt, hi, eq_of_beq heq]
    exact List.mem_of_getElem? (List.getElem?_zip_eq_some.mpr ⟨hget, hscheme⟩)
  · intro hmem
    obtain ⟨u, hu⟩ := List.mem_iff_getElem?.mp hmem
    obtain ⟨hsubframe, hscheme⟩ := List.getElem?_zip_eq_some.mp hu
    obtain ⟨hlow, hhigh⟩ := h.inside _ (List.mem_of_getElem? hsubframe)
    obtain ⟨hlt, hget⟩ := List.getElem?_eq_some_iff.mp hsubframe
    refine ⟨update.1.toNat, by omega, by omega, ?_⟩
    rw [Int.toNat_of_nonneg hlow]
    refine Option.bind_eq_some_iff.mpr ⟨u, List.findIdx?_eq_some_iff_getElem.mpr ⟨hlt, ?_, ?_⟩,
      hscheme⟩
    · rw [hget]
      exact beq_self_eq_true _
    · -- No earlier update is at this subframe, since they ascend.
      intro k hk heq
      have hless := List.pairwise_iff_getElem.mp h.ascending k u (by omega) hlt hk
      rw [eq_of_beq heq, hget] at hless
      exact Int.lt_irrefl _ hless

/-- Both sides go through the same fields exactly if the updates ascend inside the frame. -/
theorem packedWidths_eq_iff {layout : Layout}
    (hlength : layout.updates.length = layout.schemes.length) :
    layout.packedWidths = layout.unpackedWidths ++ [layout.spare.toNat] ↔ layout.Ordered := by
  rw [packedWidths, unpackedWidths, List.append_left_inj, List.append_left_inj]
  constructor
  · intro heq
    have hspans := Span.flatMap_widths_injective heq
    have hcarried : ∀ update ∈ layout.carried layout.subframes.toNat,
        0 ≤ update.1 ∧ update.1 < layout.subframes.toNat := by
      intro update hmem
      obtain ⟨i, hi, hupdate, _⟩ := mem_carried.mp hmem
      omega
    have htotal := Span.total_le (Nat.zero_le _) fun update hmem => (hcarried update hmem).2
    have hflags := Span.flags_pos_iff.mpr
      ⟨layout.carried_ascending layout.subframes.toNat, fun update hmem => (hcarried update hmem).1⟩
    rw [hspans] at hflags htotal
    obtain ⟨hascending, hnonneg⟩ := Span.flags_pos_iff.mp hflags
    have hfst := List.map_fst_zip hlength.le
    refine ⟨?_, fun subframe hmem => ?_⟩
    · rw [← hfst]
      exact List.pairwise_map.mpr hascending
    · rw [← hfst] at hmem
      obtain ⟨update, hupdate, rfl⟩ := List.mem_map.mp hmem
      have hlow := hnonneg update hupdate
      have hhigh := Span.lt_total_of_mem 0 hupdate
      omega
  · intro h
    rw [h.carried_eq hlength]

/-- The last subframe of an ordered layout ends all its flags. -/
theorem Ordered.total_flags {layout : Layout} (h : layout.Ordered)
    (hlength : layout.updates.length = layout.schemes.length) {last : Int}
    (hlast : layout.updates.getLast? = some last) :
    (Span.total (Span.ofUpdates 0 (layout.updates.zip layout.schemes)) : Int) = last + 1 := by
  have hfst := List.map_fst_zip hlength.le
  have hmem := List.mem_of_getLast? hlast
  have hnonneg := (h.inside last hmem).1
  have hle : ∀ update ∈ layout.updates.zip layout.schemes, update.1 < (last + 1).toNat := by
    intro update hupdate
    have hsubframe : update.1 ∈ layout.updates := hfst ▸ List.mem_map_of_mem hupdate
    obtain ⟨before, hbefore⟩ := List.getLast?_eq_some_iff.mp hlast
    have hascending := h.ascending
    rw [hbefore, List.pairwise_append] at hascending
    rw [hbefore, List.mem_append, List.mem_singleton] at hsubframe
    rcases hsubframe with hsubframe | heq
    · have := hascending.2.2 _ hsubframe last List.mem_cons_self
      omega
    · omega
  have hhigh := Span.total_le (Nat.zero_le _) hle
  rw [← hfst] at hmem
  obtain ⟨update, hupdate, heq⟩ := List.mem_map.mp hmem
  have hlow := Span.lt_total_of_mem 0 hupdate
  omega

/-- The widths of an ordered layout make up the number of bits that it is said to have. -/
theorem Ordered.sum_packedWidths {layout : Layout} (h : layout.Ordered)
    (hlength : layout.updates.length = layout.schemes.length)
    (hlast : layout.updates.getLast? = some (wrap (layout.subframes - 1)))
    (hspare : 0 ≤ layout.spare) (hword : layout.packedWidths.sum < 2 ^ 63) :
    (layout.packedWidths.sum : Int) = layout.totalBits := by
  have hflags := h.total_flags hlength hlast
  have hschemes : (layout.updates.zip layout.schemes).map Prod.snd = layout.schemes :=
    List.map_snd_zip hlength.ge
  have hsum : (layout.packedWidths.sum : Int) = wrap (layout.subframes - 1) +
      (1 + layout.spare + layout.lines.widths.sum +
        (layout.schemes.map UpdateScheme.bits).sum) := by
    rw [packedWidths, h.carried_eq hlength, List.sum_append, List.sum_append, Span.sum_widths,
      Span.schemes_ofUpdates, hschemes, List.sum_singleton]
    push_cast
    omega
  -- The number of subframes may be any word, so its predecessor is known up to wrapping only.
  have hwrap : layout.totalBits = wrap layout.packedWidths.sum := by
    rw [hsum, totalBits, sumBits_eq_sum, sumBits_eq_sum, wrap_eq_bmod, wrap_eq_bmod, wrap_eq_bmod,
      Int.bmod_add_bmod]
    congr 1
    omega
  rw [hwrap, wrap_of_bounds _ (by omega) (by omega)]

end Layout

namespace Frame

variable {α : Type} [Analytic α]

/-! ### References of changes -/

/-- What the update number `u` of a frame refers to in the decoder. -/
def referenceAt (layout : Layout) (decoder : Decoder α) (content : Content) (u : Nat) :
    Except Fault (UpdateCode.Reference α) := do
  let (_, reference) ← dequantise PitchRange.speech (layout.updates.take u)
    (content.updates.take u) (Subframes.start layout.subframes.toNat content.voicing)
    ⟨decoder.lastModel.wo, decoder.predictor⟩
  return reference

theorem yields_referenceAt {layout : Layout} {decoder : Decoder α} {content : Content}
    {received : Subframes α} {reference : UpdateCode.Reference α}
    (hlength : content.updates.length = layout.updates.length)
    (h : updated layout decoder layout.subframes.toNat content = .ok (received, reference))
    (u : Nat) : Yields (referenceAt layout decoder content u) fun _ => True := by
  rw [updated, ← List.take_append_drop u layout.updates,
    ← List.take_append_drop u content.updates,
    dequantise_append (by rw [List.length_take, List.length_take, hlength])] at h
  obtain ⟨⟨middle, earlier⟩, hmiddle, _⟩ := bind_eq_ok.mp h
  refine ⟨earlier, ?_, trivial⟩
  rw [referenceAt, hmiddle]
  rfl

/-- In a frame that was encoded, both sides refer a change to the same fundamental. -/
theorem wo_of_referenceAt {engine : Engine α} {layout : Layout} (hlayout : layout.Regular)
    (hchained : layout.Chained) {frames : Nat} {encoder : Encoder α} {decoder : Decoder α}
    {pcm : Array Int16} {done : Encoded α} {reference : UpdateCode.Reference α}
    (hdone : encode engine layout frames encoder pcm = .ok done) {u subframe : Nat}
    (hsubframe : layout.updates[u]? = some (subframe : Int))
    (hscheme : layout.schemes[u]? = some .delta)
    (hreference : referenceAt layout decoder done.content u = .ok reference) :
    ∃ walked, walk engine layout frames encoder pcm subframe = .ok walked ∧
      reference.wo = walked.wo := by
  obtain ⟨all, _, _, _, hall, _, _, _, _, hcodes, _⟩ := encode_eq_ok hdone
  have hmem := List.mem_of_getElem? hsubframe
  have hinside := hlayout.lt_subframes hmem
  obtain ⟨after, hafter, rest, hrest⟩ :=
    walk_earlier (show subframe + 1 ≤ layout.subframes.toNat by omega) hall
  obtain ⟨stretches, pending, later, htraced⟩ := walk_traced hlayout hafter
  have hlength := htraced.length_eq hlayout hsubframe
  rw [walk_succ] at hafter
  obtain ⟨walked, hwalked, hstep⟩ := bind_eq_ok.mp hafter
  refine ⟨walked, hwalked, ?_⟩
  rcases Walk.step_eq_ok hstep with ⟨hnone, _⟩ | ⟨_, _, _, _, code, _, _, _, _, hupdates, _⟩
  · rw [← Layout.isSome_updateAt?, hnone] at hmem
    cases hmem
  · -- The walk stands before the change, so the codes it has are those before number `u`.
    rw [hupdates, List.length_append, List.length_singleton, Nat.add_right_cancel_iff] at hlength
    have htake : done.content.updates.take u = walked.updates := by
      rw [hcodes, ← hrest, hupdates, List.append_assoc, ← hlength, List.take_left]
    obtain ⟨⟨received, earlier⟩, hreceived, hreference⟩ := bind_eq_ok.mp hreference
    cases hreference
    rw [htake, ← hlength] at hreceived
    apply (walk_follows hlayout hchained hwalked hreceived).2
    rw [hlength]
    exact hchained u hscheme

theorem bounds_of_encode {engine : Engine α} {layout : Layout} {frames : Nat}
    {encoder : Encoder α} {pcm : Array Int16} {done : Encoded α}
    (h : encode engine layout frames encoder pcm = .ok done) :
    0 ≤ layout.subframes ∧ layout.subframes ≤ 2 ^ 45 ∧ 0 ≤ layout.spare := by
  obtain ⟨size, _, h⟩ := bind_eq_ok.mp h
  obtain ⟨subframes, hsubframes, h⟩ := bind_eq_ok.mp h
  obtain ⟨walked, _, h⟩ := bind_eq_ok.mp h
  obtain ⟨indexes, _, h⟩ := bind_eq_ok.mp h
  obtain ⟨spare, hspare, h⟩ := bind_eq_ok.mp h
  obtain ⟨hlow, hhigh, _⟩ := length_eq_ok.mp hsubframes
  exact ⟨hlow, hhigh, (shiftWidth_eq_ok.mp hspare).1⟩

theorem regular_of_encode {engine : Engine α} {layout : Layout} {frames : Nat}
    {encoder : Encoder α} {pcm : Array Int16} {done : Encoded α}
    (hvalid : layout.validate = .ok ()) (hordered : layout.Ordered)
    (h : encode engine layout frames encoder pcm = .ok done) : layout.Regular := by
  obtain ⟨hlength, hlast⟩ := Layout.validate_eq_ok hvalid
  obtain ⟨hlow, hhigh, hspare⟩ := bounds_of_encode h
  rw [wrap_of_bounds _ (by omega) (by omega)] at hlast
  exact ⟨hordered.ascending, fun subframe hmem => (hordered.inside subframe hmem).1, hlast,
    hlength.symm, hspare⟩

/-! ### Runs over the real numbers -/

/-- As long as all updates are joint, the encoder refers to no fundamental at all. -/
theorem wo_of_joint_walk {engine : Engine α} {layout : Layout} {frames : Nat}
    {encoder : Encoder α} {pcm : Array Int16} {count : Nat} {walked : Walk α}
    (hjoint : ∀ i : Nat, i < count → ∀ scheme, layout.schemeAt? i = some scheme → scheme = .joint)
    (h : walk engine layout frames encoder pcm count = .ok walked) : walked.wo = 0.0 := by
  apply foldlM_range_induction (P := fun _ walk => walk.wo = 0.0) h
  · rfl
  · intro i walk next hi hwalk hstep
    rcases Walk.step_eq_ok hstep with ⟨_, _, hwo, _⟩ |
      ⟨u, scheme, wo, energy, code, reference, hat, hscheme, hcode, _, hwo, _⟩
    · rw [hwo, hwalk]
    · obtain rfl := hjoint i hi scheme (Option.bind_eq_some_iff.mpr ⟨u, hat, hscheme⟩)
      obtain ⟨⟨index, predictor⟩, _, hcode⟩ := bind_eq_ok.mp hcode
      cases hcode
      rw [hwo, hwalk]

/-- After any update the decoder refers to a fundamental of speech. -/
theorem has_of_referenceAt {layout : Layout} {decoder : Decoder ℝ} {content : Content} {u : Nat}
    {reference : UpdateCode.Reference ℝ}
    (hlength : content.updates.length = layout.updates.length) (hu : u < layout.updates.length)
    (h : referenceAt layout decoder content (u + 1) = .ok reference) :
    PitchRange.speech.Has reference.wo := by
  obtain ⟨⟨received, last⟩, hreceived, h⟩ := bind_eq_ok.mp h
  cases h
  rw [List.take_add_one, List.take_add_one, List.getElem?_eq_getElem hu,
    List.getElem?_eq_getElem (hlength ▸ hu), Option.toList_some, Option.toList_some,
    dequantise_append (by rw [List.length_take, List.length_take, hlength])] at hreceived
  obtain ⟨⟨middle, earlier⟩, _, hlast⟩ := bind_eq_ok.mp hreceived
  obtain ⟨wo, energy, _, hdecode, _⟩ := dequantise_singleton_eq_ok hlast
  rw [UpdateCode.wo_of_decode hdecode]
  exact ((UpdateCode.yields_decode _ _).of_eq hdecode).1

/-- A frame of a regular layout is encoded and decoded again. -/
theorem exists_exchange (engine : Engine ℝ) {layout : Layout} (hlayout : layout.Regular)
    (horder : layout.order = 10) (hsubframes : layout.subframes ≤ 2 ^ 45)
    (hlow : 0 ≤ layout.totalBytes) (hhigh : layout.totalBytes ≤ 2 ^ 45)
    (hbits : layout.contentBits + layout.spare ≤ 8 * layout.totalBytes) {pcm : Array Int16}
    (hpcm : (pcm.size : Int) = layout.subframes * subframeSize) (settings : PostFilter ℝ) :
    ∃ done decoder decoded, encode engine layout 0 Encoder.start pcm = .ok done ∧
      decode engine layout settings decoder done.bytes 0 = .ok decoded := by
  have hspare := hlayout.spare
  obtain ⟨done, hdone, _⟩ := yields_encode engine 0 Encoder.start hlayout horder hsubframes hlow
    hhigh hbits hpcm
  have hlength := length_of_encode hlayout hdone
  obtain ⟨decoder, _, hsound⟩ :=
    Decoder.yields_start (show 0 ≤ layout.order by omega) (by omega) 0
  obtain ⟨decoded, hdecoded, _⟩ := yields_decode engine settings 0 hlayout hsubframes horder
    (show layout.contentBits ≤ 8 * done.bytes.length by omega) hsound
  exact ⟨done, decoder, decoded, hdone, hdecoded⟩

end Frame

/-- What the check of a layout leaves open. Writing packs the widths that reading unpacks exactly if
the updates ascend inside the frame, and then a change refers to the same fundamental on both sides
if it comes after an update that is not joint. -/
theorem validated_layout_consistency (layout : Layout) (hvalid : layout.validate = .ok ()) :
    (layout.packedWidths = layout.unpackedWidths ++ [layout.spare.toNat] ↔ layout.Ordered) ∧
    (layout.Ordered → 0 ≤ layout.spare → layout.packedWidths.sum < 2 ^ 63 →
      (layout.packedWidths.sum : Int) = layout.totalBits) ∧
    (∀ bytes content, Frame.read layout bytes = .ok content →
      ∃ fields next, content.SpelledBy layout fields ∧
        fields.map BitField.width = layout.unpackedWidths ∧
        BitReader.readAll { bytes } (fields.map BitField.width) =
          .ok (fields.map BitField.value, next)) ∧
    ∀ (α : Type) [Analytic α] (engine : Engine α) (frames : Nat) (encoder : Encoder α)
      (pcm : Array Int16) (done : Frame.Encoded α),
      Frame.encode engine layout frames encoder pcm = .ok done →
      (∃ fields writer, Frame.packed engine layout frames encoder pcm = .ok fields ∧
        fields.map BitField.width = layout.packedWidths ∧
        BitWriter.writeAll { size := layout.totalBytes.toNat } fields = .ok writer ∧
        done.bytes = writer.bytes) ∧
      (layout.Ordered → layout.Chained →
        ∀ (listening : Engine α) (settings : PostFilter α) (decoder : Decoder α) (errorRate : α)
          (decoded : Frame.Decoded α),
          Frame.decode listening layout settings decoder done.bytes errorRate = .ok decoded →
          Frame.read layout done.bytes = .ok done.content ∧
          ∀ u subframe : Nat, layout.updates[u]? = some (subframe : Int) →
            layout.schemes[u]? = some .delta →
            ∃ walked reference, Frame.walk engine layout frames encoder pcm subframe = .ok walked ∧
              Frame.referenceAt layout decoder done.content u = .ok reference ∧
              reference.wo = walked.wo) := by
  obtain ⟨hlength, hlast⟩ := Layout.validate_eq_ok hvalid
  refine ⟨Layout.packedWidths_eq_iff hlength,
    fun hordered => hordered.sum_packedWidths hlength hlast, ?_, ?_⟩
  · intro bytes content hread
    obtain ⟨fields, next, hspelled, hunpacks, hwidths⟩ := Frame.unpacks_of_read hread
    exact ⟨fields, next, hspelled, hwidths, hunpacks⟩
  · intro α _ engine frames encoder pcm done hdone
    constructor
    · obtain ⟨fields, writer, hpacked, hwriter, hbytes⟩ := Frame.packed_of_encode hdone
      exact ⟨fields, writer, hpacked, Frame.widths_of_packed hpacked, hwriter, hbytes⟩
    · intro hordered hchained listening settings decoder errorRate decoded hdecoded
      have hlayout := Frame.regular_of_encode hvalid hordered hdone
      have hread := Frame.read_encode hlayout hdone
      refine ⟨hread, fun u subframe hsubframe hscheme => ?_⟩
      obtain ⟨content, received, left, hcontent, hupdated, _⟩ := Frame.decode_eq_ok hdecoded
      rw [hread] at hcontent
      cases hcontent
      have hcount : done.content.updates.length = layout.updates.length := by
        have hschemes := congrArg List.length (Frame.schemes_of_read hlayout hread)
        rw [List.length_map] at hschemes
        rw [hschemes, hlength]
      obtain ⟨reference, hreference, _⟩ := Frame.yields_referenceAt hcount hupdated u
      obtain ⟨walked, hwalked, hwo⟩ :=
        Frame.wo_of_referenceAt hlayout hchained hdone hsubframe hscheme hreference
      exact ⟨walked, reference, hwalked, hreference, hwo⟩

/-- The layout of a mode whose second update is a change, and a frame of silence in it. -/
theorem validated_layout_consistency_silence :
    Mode.rate1600.layout.validate = .ok () ∧ Mode.rate1600.layout.Ordered ∧
    Mode.rate1600.layout.packedWidths =
      [1, 1, 7, 5, 1, 1, 3, 5, 4, 4, 4, 4, 4, 4, 4, 3, 3, 2, 4] ∧
    (Mode.rate1600.layout.packedWidths.sum : Int) = Mode.rate1600.layout.totalBits ∧
    ∃ (engine : Engine ℝ) (settings : PostFilter ℝ) (done : Frame.Encoded ℝ) (decoder : Decoder ℝ)
      (decoded : Frame.Decoded ℝ),
      Frame.encode engine Mode.rate1600.layout 0 Encoder.start (Array.replicate 320 0) =
        .ok done ∧
      Frame.decode engine Mode.rate1600.layout settings decoder done.bytes 0 = .ok decoded ∧
      ∃ walked reference,
        Frame.walk engine Mode.rate1600.layout 0 Encoder.start (Array.replicate 320 0) 3 =
          .ok walked ∧
        Frame.referenceAt Mode.rate1600.layout decoder done.content 1 = .ok reference ∧
        reference.wo = walked.wo := by
  have hvalid : Mode.rate1600.layout.validate = .ok () := by decide
  obtain ⟨hwidths, hsum, _, hruns⟩ := validated_layout_consistency Mode.rate1600.layout hvalid
  have hordered := hwidths.mp (by decide)
  obtain ⟨done, decoder, decoded, hdone, hdecoded⟩ := Frame.exists_exchange
    (Engine.ofTransform Transform.dft) (Layout.regular_of_mode .rate1600) rfl (by decide)
    (by decide) (by decide) (by decide)
    (show ((Array.replicate 320 (0 : Int16)).size : Int) = _ by rw [Array.size_replicate]; rfl)
    (Settings.ofChoices []).postFilter
  obtain ⟨_, hchanges⟩ := hruns ℝ _ 0 _ _ done hdone
  obtain ⟨_, hchanges⟩ :=
    hchanges hordered (Layout.chained_of_mode .rate1600) _ _ decoder 0 decoded hdecoded
  exact ⟨hvalid, hordered, by decide, hsum hordered (by decide) (by decide), _, _, done, decoder,
    decoded, hdone, hdecoded, hchanges 1 3 rfl rfl⟩

/-! ### Layouts that pass the check -/

/-- Two updates at the last subframe. -/
def Layout.doubled : Layout where
  name := "x"
  bitrate := 1600
  subframes := 4
  updates := [3, 3]
  schemes := [.scalar, .scalar]
  lines := .scalar
  order := 10
  spare := 0

/-- More bits in the fields than in the frame. -/
def Layout.overfull : Layout where
  name := "x"
  bitrate := 1200
  subframes := 4
  updates := [3]
  schemes := [.scalar]
  lines := .scalar
  order := 10
  spare := -4

/-- A change right after a joint update. -/
def Layout.unsettled : Layout where
  name := "x"
  bitrate := 1400
  subframes := 4
  updates := [1, 3]
  schemes := [.joint, .delta]
  lines := .scalar
  order := 10
  spare := 0

/-- The check passes a layout whose updates repeat, one whose fields do not fit, and one whose
change follows a joint update, and in each of them the two sides disagree. -/
theorem validate_admits_inconsistent :
    (Layout.doubled.validate = .ok () ∧
      Layout.doubled.packedWidths ≠
        Layout.doubled.unpackedWidths ++ [Layout.doubled.spare.toNat] ∧
      (Layout.doubled.packedWidths.sum : Int) ≠ Layout.doubled.totalBits) ∧
    (Layout.overfull.validate = .ok () ∧
      (Layout.overfull.packedWidths.sum : Int) ≠ Layout.overfull.totalBits) ∧
    Layout.unsettled.validate = .ok () ∧
    ∃ (engine : Engine ℝ) (settings : PostFilter ℝ) (done : Frame.Encoded ℝ) (decoder : Decoder ℝ)
      (decoded : Frame.Decoded ℝ),
      Frame.encode engine Layout.unsettled 0 Encoder.start (Array.replicate 320 0) = .ok done ∧
      Frame.decode engine Layout.unsettled settings decoder done.bytes 0 = .ok decoded ∧
      Layout.unsettled.updates[1]? = some 3 ∧ Layout.unsettled.schemes[1]? = some .delta ∧
      ∃ walked reference,
        Frame.walk engine Layout.unsettled 0 Encoder.start (Array.replicate 320 0) 3 =
          .ok walked ∧
        Frame.referenceAt Layout.unsettled decoder done.content 1 = .ok reference ∧
        reference.wo ≠ walked.wo := by
  have hlayout : Layout.unsettled.Regular := ⟨by decide, by decide, by decide, by decide, by decide⟩
  obtain ⟨done, decoder, decoded, hdone, hdecoded⟩ := Frame.exists_exchange
    (Engine.ofTransform Transform.dft) hlayout rfl (by decide) (by decide) (by decide) (by decide)
    (show ((Array.replicate 320 (0 : Int16)).size : Int) = _ by rw [Array.size_replicate]; rfl)
    (Settings.ofChoices []).postFilter
  obtain ⟨all, _, _, _, hall, _⟩ := Frame.encode_eq_ok hdone
  obtain ⟨walked, hwalked, _⟩ :=
    Frame.walk_earlier (show 3 ≤ Layout.unsettled.subframes.toNat by decide) hall
  obtain ⟨content, received, left, hcontent, hupdated, _⟩ := Frame.decode_eq_ok hdecoded
  rw [Frame.read_encode hlayout hdone] at hcontent
  cases hcontent
  have hcount : done.content.updates.length = Layout.unsettled.updates.length := by
    have hschemes := Frame.schemes_of_read hlayout (Frame.read_encode hlayout hdone)
    rw [← List.length_map, hschemes]
    rfl
  obtain ⟨reference, hreference, _⟩ := Frame.yields_referenceAt hcount hupdated 1
  have hjoint : ∀ i : Nat, i < 3 → ∀ scheme, Layout.unsettled.schemeAt? i = some scheme →
      scheme = .joint := by
    intro i hi scheme
    interval_cases i <;> revert scheme <;> decide
  have hzero : walked.wo = 0 := (Frame.wo_of_joint_walk hjoint hwalked).trans (by norm_num)
  have hspeech := (Frame.has_of_referenceAt hcount (by decide) hreference).low
  rw [PitchRange.speech_low] at hspeech
  refine ⟨⟨by decide, by decide, by decide⟩, ⟨by decide, by decide⟩, by decide, _, _, done,
    decoder, decoded, hdone, hdecoded, rfl, rfl, walked, reference, hwalked, hreference, ?_⟩
  rw [hzero]
  have hpi := Real.pi_pos
  intro heq
  rw [heq] at hspeech
  linarith

end Vocoder
