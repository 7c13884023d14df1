import Vocoder.Proofs.DecoderTotal
import Vocoder.Proofs.EncoderTotal

/-!
Frames are read as what was written, and the bits that no field owns do not matter.
-/

namespace Vocoder

/-- Reading an encoded frame of a regular layout gives field by field what was computed for it, and
all bits after the content are zero. Frames that agree on the bits of their content are decoded
alike. -/
theorem frame_round_trip :
    (∀ mode : Mode, mode.layout.Regular) ∧
    ∀ layout : Layout, layout.Regular → ∀ (α : Type) [Analytic α] (engine : Engine α),
      (∀ (frames : Nat) (encoder : Encoder α) (pcm : Array Int16) (done : Frame.Encoded α),
        Frame.encode engine layout frames encoder pcm = .ok done →
        (done.bytes.length : Int) = (layout.totalBits + 7) / 8 ∧
        layout.totalBits = layout.contentBits + layout.spare ∧
        (∃ walked,
          Frame.walk engine layout frames encoder pcm layout.subframes.toNat = .ok walked ∧
          layout.lines.encode walked.lines = .ok (done.content.lines, done.lineError) ∧
          Frame.read layout done.bytes =
            .ok ⟨walked.voicing, walked.updates, done.content.lines⟩) ∧
        ∀ bit ∈ (Bits.ofBytes done.bytes).drop layout.contentBits, bit = false) ∧
      ∀ (session : Session α) (left right : List UInt8) (errorRate : α),
        session.layout = layout → left.length = right.length →
        (Bits.ofBytes left).take layout.contentBits =
          (Bits.ofBytes right).take layout.contentBits →
        session.decode engine left errorRate = session.decode engine right errorRate := by
  refine ⟨Layout.regular_of_mode, fun layout hlayout α _ engine => ⟨?_, ?_⟩⟩
  · intro frames encoder pcm done hdone
    obtain ⟨htotal, hsize⟩ := Frame.totalBits_of_encode hlayout hdone
    obtain ⟨walked, _, _, _, hwalked, hlines, _, _, hvoicing, hcodes, _⟩ :=
      Frame.encode_eq_ok hdone
    obtain ⟨bits, hlength, _, _, hbits, _⟩ := Frame.encode_bits hlayout hdone
    refine ⟨hsize, htotal, ⟨walked, hwalked, hlines, ?_⟩, ?_⟩
    · rw [← hvoicing, ← hcodes]
      exact Frame.read_encode hlayout hdone
    · rw [hbits, ← hlength, List.drop_left]
      exact fun bit hbit => List.eq_of_mem_replicate hbit
  · rintro session left right errorRate rfl hlength hbits
    have hread := Frame.read_congr hlayout hlength hbits
    rw [Session.decode, Session.decode, hlength, Frame.decode, Frame.decode, hread]

/-- A frame of silence, and two frames that differ in the spare bit. -/
theorem frame_round_trip_silence :
    ∃ engine : Engine ℝ,
      (∃ done walked,
        Frame.encode engine Mode.rate1200.layout 0 Encoder.start (Array.replicate 320 0) =
          .ok done ∧
        done.bytes.length = 6 ∧
        Frame.walk engine Mode.rate1200.layout 0 Encoder.start (Array.replicate 320 0) 4 =
          .ok walked ∧
        Frame.read Mode.rate1200.layout done.bytes =
          .ok ⟨walked.voicing, walked.updates, done.content.lines⟩ ∧
        ∀ bit ∈ (Bits.ofBytes done.bytes).drop 47, bit = false) ∧
      ∃ session notices reply, Session.create .rate1200 [] = .ok (session, notices) ∧
        session.decode engine [0, 0, 0, 0, 0, 0] 0 = .ok reply ∧
        session.decode engine [0, 0, 0, 0, 0, 1] 0 = .ok reply := by
  obtain ⟨hregular, hround⟩ := frame_round_trip
  obtain ⟨hencoded, hdecoded⟩ := hround Mode.rate1200.layout (hregular .rate1200) ℝ
    (Engine.ofTransform Transform.dft)
  have hpcm : ((Array.replicate 320 (0 : Int16)).size : Int) =
      Mode.rate1200.layout.subframes * subframeSize := by
    rw [Array.size_replicate]
    rfl
  obtain ⟨done, hdone, _⟩ := Frame.yields_encode (Engine.ofTransform Transform.dft) 0 Encoder.start
    (hregular .rate1200) (by decide) (by decide) (by decide) (by decide) (by decide) hpcm
  obtain ⟨hlength, _, ⟨walked, hwalked, _, hread⟩, hzero⟩ := hencoded 0 Encoder.start _ done hdone
  obtain ⟨session, notices, hcreate, hsession⟩ := Session.exists_create .rate1200 []
  obtain ⟨reply, hreply, _⟩ := hsession.yields_decode (Engine.ofTransform Transform.dft) 0
    (show (([0, 0, 0, 0, 0, 0] : List UInt8).length : Int) = Mode.rate1200.layout.totalBytes by
      decide)
  have hsame := hdecoded session [0, 0, 0, 0, 0, 0] [0, 0, 0, 0, 0, 1] 0 hsession.layout rfl
    (by decide)
  refine ⟨_, ⟨done, walked, hdone, ?_, hwalked, hread, hzero⟩, session, notices, reply, hcreate,
    hreply, hsame ▸ hreply⟩
  have hsix : (Mode.rate1200.layout.totalBits + 7) / 8 = 6 := by decide
  omega

end Vocoder
