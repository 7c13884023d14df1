import Vocoder.Proofs.StageWords

/-!
The subframes that a run synthesises. Decoding a frame synthesises its subframes in turn, and from
one to the next nothing changes of what synthesis carries on, neither between two frames nor while
frames are encoded or requests are refused. So there is one chain of subframes behind a run of
requests. Their models are those that the run reports, their samples are those that it answers, and
the counter of noisy harmonics moves by theirs. What one subframe does to the generator or to the
noise level can be added up along the chain.
-/

namespace Vocoder

variable {α : Type}

/-- The models of the subframes that a list of reports tells to be synthesised. -/
def Notice.sounded (notices : List (Notice α)) : List (Model α) :=
  ((events notices).filter fun event => event.stage = .synthesising).map Event.model

/-- The samples of a reply. -/
def Reply.samples (reply : Reply α Answer) : List Int16 :=
  match reply.result with
  | .ok (.block samples) => samples
  | _ => []

theorem Notice.sounded_append (left right : List (Notice α)) :
    sounded (left ++ right) = sounded left ++ sounded right := by
  rw [sounded, events_append, List.filter_append, List.map_append]
  rfl

/-- Of a word without synthesis no model is told. -/
theorem Notice.Tell.sounded_eq_nil {notices : List (Notice α)} {word : List (Stage × Int)}
    (h : Tell notices word) (hword : ∀ place ∈ word, place.1 ≠ .synthesising) :
    sounded notices = [] := by
  rw [sounded, List.map_eq_nil_iff, List.filter_eq_nil_iff]
  intro event hevent
  have hplace : event.place ∈ word := h.places ▸ List.mem_map_of_mem hevent
  have hstage : event.stage ≠ .synthesising := hword _ hplace
  simpa using hstage

theorem Layout.stage_ne_of_mem_encodeWord (layout : Layout) {place : Stage × Int}
    (h : place ∈ layout.encodeWord) : place.1 ≠ .synthesising := by
  rw [encodeWord, List.mem_append, List.mem_flatMap] at h
  rcases h with ⟨i, -, hplace⟩ | hplace
  · rcases List.mem_cons.mp hplace with rfl | hupdate
    · simp
    · split at hupdate
      · rw [List.mem_singleton.mp hupdate]
        simp
      · cases hupdate
  · rcases List.mem_pair.mp hplace with rfl | rfl <;> simp

/-! ### Chains of subframes -/

/-- A decoder has what synthesis has left in another. -/
structure Decoder.Continues (decoder before : Decoder α) : Prop where
  overlap : decoder.overlap = before.overlap
  pulse : decoder.pulse = before.pulse
  background : decoder.background = before.background
  noise : decoder.noise = before.noise

namespace Decoder.Continues

theorem refl (decoder : Decoder α) : decoder.Continues decoder := ⟨rfl, rfl, rfl, rfl⟩

theorem trans {first second third : Decoder α} (h : third.Continues second)
    (h' : second.Continues first) : third.Continues first :=
  ⟨h.overlap.trans h'.overlap, h.pulse.trans h'.pulse, h.background.trans h'.background,
    h.noise.trans h'.noise⟩

end Decoder.Continues

section Chains

variable [Analytic α]

/-- A subframe that was synthesised: the decoder before it, its model and the spectrum of its
filter, and what came of them. -/
structure Subframe (engine : Engine α) where
  decoder : Decoder α
  model : Model α
  bins : Bins α
  sounded : Decoder.Sounded α
  sounding : decoder.sound engine model bins = .ok sounded

namespace Subframe

variable {engine : Engine α}

/-- Subframes that were synthesised in turn, on the way from one decoder to another. -/
inductive Chain (engine : Engine α) : Decoder α → List (Subframe engine) → Decoder α → Prop
  | nil {first last : Decoder α} (continues : last.Continues first) : Chain engine first [] last
  | cons {first last : Decoder α} {subframe : Subframe engine} {rest : List (Subframe engine)}
      (continues : subframe.decoder.Continues first)
      (later : Chain engine subframe.sounded.decoder rest last) :
      Chain engine first (subframe :: rest) last

/-- Subframes in turn, with the models that were reported, the samples that were made and the number
of harmonics that counted as noise. -/
structure Records (engine : Engine α) (first last : Decoder α) (notices : List (Notice α))
    (samples : List Int16) (noisy : Nat) (subframes : List (Subframe engine)) : Prop where
  chain : Chain engine first subframes last
  models : Notice.sounded notices = subframes.map model
  samples : samples = subframes.flatMap fun subframe => subframe.sounded.samples
  noisy : noisy = (subframes.map fun subframe => subframe.sounded.noisy).sum

variable {first middle last : Decoder α} {subframes later : List (Subframe engine)}

theorem Chain.of_continues (h : Chain engine middle subframes last)
    (hfirst : middle.Continues first) : Chain engine first subframes last := by
  cases h with
  | nil continues => exact .nil (continues.trans hfirst)
  | cons continues later => exact .cons (continues.trans hfirst) later

theorem Chain.append (h : Chain engine first subframes middle)
    (hlater : Chain engine middle later last) : Chain engine first (subframes ++ later) last := by
  induction h with
  | nil continues => exact hlater.of_continues continues
  | cons continues _ ih => exact .cons continues (ih hlater)

namespace Records

variable {notices notices' : List (Notice α)} {samples samples' : List Int16} {noisy noisy' : Nat}

/-- Where synthesis was not at work, there are no subframes. -/
theorem none (h : last.Continues first) (hnotices : Notice.sounded notices = []) :
    Records engine first last notices [] 0 [] :=
  ⟨.nil h, hnotices, rfl, rfl⟩

/-- One subframe. -/
theorem single (subframe : Subframe engine) (i : Int) (energy : α) :
    Records engine subframe.decoder subframe.sounded.decoder
      [.entered ⟨.synthesising, i, subframe.model, energy⟩] subframe.sounded.samples
      subframe.sounded.noisy [subframe] :=
  ⟨.cons (.refl _) (.nil (.refl _)), rfl, by simp, by simp⟩

theorem append (h : Records engine first middle notices samples noisy subframes)
    (hlater : Records engine middle last notices' samples' noisy' later) :
    Records engine first last (notices ++ notices') (samples ++ samples') (noisy + noisy')
      (subframes ++ later) where
  chain := h.chain.append hlater.chain
  models := by rw [Notice.sounded_append, h.models, hlater.models, List.map_append]
  samples := by rw [h.samples, hlater.samples, List.flatMap_append]
  noisy := by rw [h.noisy, hlater.noisy, List.map_append, List.sum_append]

end Records

end Subframe

/-! ### Frames -/

namespace Frame

open Subframe (Records)

variable {engine : Engine α} {layout : Layout} {settings : PostFilter α} {decoder : Decoder α}
  {bytes : List UInt8} {errorRate : α}

theorem sounded_of_encode {frames : Nat} {encoder : Encoder α} {pcm : Array Int16}
    {done : Encoded α} (h : encode engine layout frames encoder pcm = .ok done) :
    Notice.sounded done.notices = [] :=
  (tell_encode h).sounded_eq_nil fun _ => layout.stage_ne_of_mem_encodeWord

theorem exists_records_of_soundAt {order : Int} {subframes : Subframes α}
    {tracks : Array (Array α)} {sounding next : Sounding α} {i : Nat}
    (h : soundAt engine settings order subframes tracks sounding i = .ok next)
    (hbefore : ∃ ledger, Records engine decoder sounding.decoder sounding.notices sounding.samples
      sounding.noisy ledger) :
    ∃ ledger, Records engine decoder next.decoder next.notices next.samples next.noisy ledger := by
  obtain ⟨_, _, energy, _, sampled, model, sounded, -, -, -, -, -, -, hsounded, rfl⟩ :=
    soundAt_eq_ok h
  obtain ⟨ledger, hledger⟩ := hbefore
  exact ⟨_, hledger.append (.single ⟨sounding.decoder, model, sampled.bins, sounded, hsounded⟩ i
    energy)⟩

/-- A frame that was decoded is a chain of subframes. -/
theorem exists_records_of_decode {done : Decoded α}
    (h : decode engine layout settings decoder bytes errorRate = .ok done) :
    ∃ ledger, Records engine decoder done.decoder done.notices done.samples done.noisy ledger := by
  obtain ⟨stages, rfl⟩ := Stages.exists_of_decode h
  obtain ⟨ledger, hledger⟩ := foldlM_range_induction
    (P := fun _ (sounding : Sounding α) => ∃ ledger, Records engine decoder sounding.decoder
      sounding.notices sounding.samples sounding.noisy ledger)
    stages.synthesising ⟨[], .none (.refl _) rfl⟩
    fun _ _ _ _ hbefore hnext => exists_records_of_soundAt hnext hbefore
  -- The reports around synthesis tell of no model, and what a frame keeps at its end is not what
  -- synthesis carries on.
  have hopening : Records engine decoder decoder [.entered (Event.ofFrame .unpacked),
      .entered ⟨.dequantising, (stages.count - 1 : Int), stages.dequantised,
        stages.dequantisedEnergy⟩, .entered (Event.ofFrame .interpolating)] [] 0 [] :=
    .none (.refl _) rfl
  have hending : Records engine stages.sounding.decoder stages.result.decoder
      [.entered (Event.ofFrame .idle)] [] 0 [] := .none ⟨rfl, rfl, rfl, rfl⟩ rfl
  have hwhole := (hopening.append hledger).append hending
  rw [List.nil_append, List.append_nil, List.nil_append, List.append_nil, Nat.zero_add] at hwhole
  exact ⟨ledger, hwhole⟩

end Frame

end Chains

/-! ### Runs -/

namespace Session

open Subframe (Records)

variable [Analytic α] {engine : Engine α} {session : Session α} {reply : Reply α Answer}

/-- A request makes the samples of its answer in a chain of subframes, and the counter of noisy
harmonics moves by theirs. A request that decodes nothing has none. -/
theorem exists_records_of_serve {request : Request α}
    (h : session.serve engine request = .ok reply) :
    ∃ noisy ledger, Records engine session.decoder reply.session.decoder reply.notices
      reply.samples noisy ledger ∧
      reply.session.stats.noise = session.stats.noise + noisy := by
  rcases serve_cases h with ⟨error, -, rfl⟩ | htaken
  · exact ⟨0, [], .none (.refl _) rfl, rfl⟩
  · cases htaken with
    | encode hopen hsize hdone =>
        exact ⟨0, [], .none (.refl _) (Frame.sounded_of_encode hdone), rfl⟩
    | @decode bytes errorRate done hopen hlength hdone =>
        obtain ⟨ledger, hledger⟩ := Frame.exists_records_of_decode hdone
        exact ⟨done.noisy, ledger, hledger, rfl⟩
    | close hopen => exact ⟨0, [], .none (.refl _) rfl, rfl⟩

/-- Behind a run of requests there is one chain of subframes. -/
theorem exists_records_of_serveAll {requests : List (Request α)}
    {replies : List (Reply α Answer)} (h : session.serveAll engine requests = .ok replies) :
    ∃ noisy ledger, Records engine session.decoder (session.afterAll replies).decoder
      (replies.flatMap Reply.notices) (replies.flatMap Reply.samples) noisy ledger ∧
      (session.afterAll replies).stats.noise = session.stats.noise + noisy := by
  have halong := along_serveAll (fun _ _ _ => exists_records_of_serve) h
  clear h
  induction halong with
  | nil session => exact ⟨0, [], .none (.refl _) rfl, rfl⟩
  | @cons session request reply rest replies hfirst _ ih =>
      obtain ⟨noisy, ledger, hledger, hnoise⟩ := hfirst
      obtain ⟨later, ledger', hledger', hnoise'⟩ := ih
      have hwhole := hledger.append hledger'
      refine ⟨noisy + later, ledger ++ ledger', hwhole, ?_⟩
      calc (session.afterAll (reply :: replies)).stats.noise
          = reply.session.stats.noise + later := hnoise'
        _ = session.stats.noise + (noisy + later) := by rw [hnoise, Nat.add_assoc]

end Session

end Vocoder
