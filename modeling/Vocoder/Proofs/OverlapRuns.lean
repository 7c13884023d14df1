import Vocoder.Proofs.SynthesisTotal

/-!
Overlap-add over whole runs. A call leaves the falling half of its frame in the second half of the
buffer and renews the first half, which holds the samples it completes. So what is done to those
samples before the next call, as by the protection of the output, goes no further: the samples of a
call are made of the frame before and of its own frame, whatever the calls and the changes before.
-/

namespace Vocoder

theorem fetch_vector {β : Type} {n k : ℕ} (xs : Vector β n) {i : ℤ} (hi : i = k) (hk : k < n) :
    fetch xs.toArray i = .ok (xs.get ⟨k, hk⟩) := by
  subst hi
  refine fetch_eq_ok.mpr ⟨Int.natCast_nonneg k, ?_⟩
  simp [Vector.get, hk]

namespace OverlapAdd

variable {α : Type} {n : ℕ}

/-- Replaces the first `n` entries of a buffer. -/
def retouch (head : Vector α n) (buffer : Array α) : Array α :=
  head.toArray ++ buffer.extract n buffer.size

theorem size_retouch (head : Vector α n) {buffer : Array α} (h : n ≤ buffer.size) :
    (retouch head buffer).size = buffer.size := by
  simp only [retouch, Array.size_append, Vector.size_toArray, Array.size_extract]
  omega

theorem getElem?_retouch (head : Vector α n) {buffer : Array α} {i : ℕ} (hi : n ≤ i)
    (hbuffer : i < buffer.size) : (retouch head buffer)[i]? = buffer[i]? := by
  rw [retouch, Array.getElem?_append_right (by simpa using hi), Vector.size_toArray,
    Array.getElem?_extract, if_pos (by omega)]
  congr 1
  omega

variable [Analytic α]

/-! ### One call -/

/-- The frame of a model, in time. -/
def frameOf (transform : Transform α) (model : Model α) : Except Fault (Block α) := do
  return transform.inverse (← spectrum model)

theorem synthesise_eq (n : ℕ) (transform : Transform α) (buffer : Array α) (model : Model α)
    (window : Array α) (shift : Bool) :
    synthesise n transform buffer model window shift =
      frameOf transform model >>= fun frame => overlap n frame.toArray window buffer shift := by
  unfold synthesise frameOf
  cases spectrum model <;> rfl

/-- The second half of the buffer is the falling half of a frame. -/
def Pending (hn : n < 512) (window : Vector α (2 * n)) (frame : Block α) (buffer : Array α) :
    Prop :=
  ∀ i : Fin n, buffer[n + i]? =
    some (frame.get ⟨i + 1, by omega⟩ * window.get ⟨n + i, by omega⟩)

/-- The samples that are complete when the frame `after` has come after `before`. The falling half
of `before` ends one sample before the centre of `after`. -/
def meeting (hn : n < 512) (window : Vector α (2 * n)) (before after : Block α) (i : Fin n) : α :=
  if _ : (i : ℕ) + 1 < n then
    before.get ⟨i + 1, by omega⟩ * window.get ⟨n + i, by omega⟩ +
      after.get ⟨512 - n + 1 + i, by omega⟩ * window.get ⟨i, by omega⟩
  else after.get 0 * window.get ⟨n - 1, by omega⟩

/-- The entries after a shift: before the centre of the frame they add to old ones, from there on
they replace them. -/
structure Shifts (hn : n < 512) (window : Vector α (2 * n)) (frame : Block α)
    (buffer next : Array α) : Prop where
  le_size : 2 * n ≤ next.size
  adds : ∀ i (_ : i + 1 < n), ∃ old, buffer[n + i]? = some old ∧
    next[i]? = some (old + frame.get ⟨512 - n + 1 + i, by omega⟩ * window.get ⟨i, by omega⟩)
  replaces : ∀ i (_ : i < 2 * n) (_ : n ≤ i + 1),
    next[i]? = some (frame.get ⟨i + 1 - n, by omega⟩ * window.get ⟨i, by omega⟩)

theorem yields_overlap_shifts (hn : n < 512) (frame : Block α) (window : Vector α (2 * n))
    {buffer : Array α} (hbuffer : 2 * n ≤ buffer.size) :
    Yields (overlap n frame.toArray window.toArray buffer true)
      (Shifts hn window frame buffer) := by
  unfold overlap
  dsimp only
  rw [if_neg (by omega)]
  refine Yields.bind (yields_tabulate_at (P := fun i x =>
    (∀ _ : i + 1 < n, ∃ old, buffer[n + i]? = some old ∧
      x = old + frame.get ⟨512 - n + 1 + i, by omega⟩ * window.get ⟨i, by omega⟩) ∧
    ∀ (_ : i < 2 * n) (_ : n ≤ i + 1),
      x = frame.get ⟨i + 1 - n, by omega⟩ * window.get ⟨i, by omega⟩) ?_) ?_
  · intro i hi
    rw [fetch_vector window rfl hi]
    by_cases hearly : i + 1 < n
    · have hlt : n + i < buffer.size := by omega
      obtain ⟨old, hold, hat⟩ := yields_fetch_at (rfl : ((n + i : ℕ) : ℤ) = (n + i : ℕ)) hlt
      have hframe := fetch_vector frame (i := 512 - n + 1 + i) (k := 512 - n + 1 + i)
        (by omega) (by omega)
      refine ⟨old + frame.get ⟨512 - n + 1 + i, by omega⟩ * window.get ⟨i, hi⟩, ?_,
        fun _ => ⟨old, hat, rfl⟩, fun _ hlate => absurd hearly (by omega)⟩
      simp only [if_pos hearly, if_true, hold, hframe]
      rfl
    · have hframe := fetch_vector frame (i := i - n + 1) (k := i + 1 - n) (by omega) (by omega)
      refine ⟨frame.get ⟨i + 1 - n, by omega⟩ * window.get ⟨i, hi⟩, ?_,
        fun h => absurd h hearly, fun _ _ => rfl⟩
      simp only [if_neg hearly, if_true, hframe]
      rfl
  · intro sums hsums
    obtain ⟨hsize, hentry⟩ := hsums
    have hkept : ∀ i, i < 2 * n → ∃ x, sums[i]? = some x ∧
        (sums ++ buffer.extract (2 * n) buffer.size)[i]? = some x := by
      intro i hi
      have hlt : i < sums.size := by omega
      have hat : sums[i]? = some sums[i] := by simp [hlt]
      exact ⟨sums[i], hat, (Array.getElem?_append_left hlt).trans hat⟩
    refine Yields.pure ⟨?_, fun i hi => ?_, fun i hi hlate => ?_⟩
    · rw [Array.size_append, hsize]
      omega
    · obtain ⟨x, hx, hnext⟩ := hkept i (by omega)
      obtain ⟨old, hold, rfl⟩ := (hentry i x hx).1 hi
      exact ⟨old, hold, hnext⟩
    · obtain ⟨x, hx, hnext⟩ := hkept i hi
      rw [hnext, (hentry i x hx).2 hi hlate]

namespace Shifts

variable {hn : n < 512} {window : Vector α (2 * n)} {before frame : Block α}
  {buffer next : Array α}

/-- A call leaves the falling half of its frame. -/
theorem pending (h : Shifts hn window frame buffer next) : Pending hn window frame next := by
  intro i
  rw [h.replaces (n + i) (by omega) (by omega)]
  congr 3
  exact Fin.ext (by dsimp only; omega)

/-- A call completes what the frame before it left. -/
theorem completes (h : Shifts hn window frame buffer next)
    (hbuffer : Pending hn window before buffer) :
    next.extract 0 n = Array.ofFn (meeting hn window before frame) := by
  have hsize := h.le_size
  apply Array.ext_getElem?
  intro i
  by_cases hi : i < n
  · rw [Array.getElem?_extract, if_pos (by omega), Array.getElem?_ofFn, dif_pos hi, meeting,
      Nat.zero_add]
    by_cases hearly : i + 1 < n
    · obtain ⟨old, hold, hnext⟩ := h.adds i hearly
      rw [hbuffer ⟨i, hi⟩] at hold
      rw [hnext, dif_pos hearly, Option.some.inj hold]
    · obtain rfl : i = n - 1 := by omega
      rw [h.replaces (n - 1) (by omega) (by omega), dif_neg hearly]
      congr 3
      exact Fin.ext (by simp; omega)
  · rw [Array.getElem?_eq_none (by simp; omega), Array.getElem?_eq_none (by simp; omega)]

theorem le_size_retouch (h : Shifts hn window frame buffer next) (head : Vector α n) :
    2 * n ≤ (retouch head next).size := by
  have hsize := h.le_size
  rwa [size_retouch head (by omega)]

/-- What a call left is not touched with the samples it completed. -/
theorem pending_retouch (h : Shifts hn window frame buffer next) (head : Vector α n) :
    Pending hn window frame (retouch head next) := by
  have hsize := h.le_size
  intro i
  rw [getElem?_retouch head (by omega) (by omega)]
  exact h.pending i

end Shifts

theorem exists_of_synthesise (hn : n < 512) (window : Vector α (2 * n)) {transform : Transform α}
    {model : Model α} {buffer next : Array α}
    (h : synthesise n transform buffer model window.toArray true = .ok next) :
    ∃ frame, frameOf transform model = .ok frame ∧ Shifts hn window frame buffer next := by
  rw [synthesise_eq] at h
  obtain ⟨frame, hframe, h⟩ := bind_eq_ok.mp h
  exact ⟨frame, hframe, (yields_overlap_shifts hn frame window (size_of_overlap h).1).of_eq h⟩

/-! ### Runs of calls -/

/-- A call of a run. -/
structure Call (α : Type) (n : ℕ) where
  model : Model α
  /-- What stands in place of the samples it completes when the next call comes. -/
  head : Vector α n

/-- The buffers right after each call of a run. -/
def run (transform : Transform α) (window : Vector α (2 * n)) (buffer : Array α) :
    List (Call α n) → Except Fault (List (Array α))
  | [] => .ok []
  | call :: rest => do
    let next ← synthesise n transform buffer call.model window.toArray true
    return next :: (← run transform window (retouch call.head next) rest)

section Runs

variable {transform : Transform α} {window : Vector α (2 * n)} {buffer : Array α}

theorem run_cons_eq_ok {call : Call α n} {rest : List (Call α n)} {buffers : List (Array α)} :
    run transform window buffer (call :: rest) = .ok buffers ↔
      ∃ next later, synthesise n transform buffer call.model window.toArray true = .ok next ∧
        run transform window (retouch call.head next) rest = .ok later ∧
        next :: later = buffers := by
  simp only [run, bind_eq_ok, pure_eq_ok, exists_and_left]

/-- A run on a buffer of two subframes returns when every model has a frame, and only then. -/
theorem run_returns_iff (hn : n < 512) (hbuffer : 2 * n ≤ buffer.size) (calls : List (Call α n)) :
    (∃ buffers, run transform window buffer calls = .ok buffers) ↔
      ∀ call ∈ calls, ∃ frame, frameOf transform call.model = .ok frame := by
  induction calls generalizing buffer with
  | nil => simp [run]
  | cons call rest ih =>
      rw [List.forall_mem_cons]
      constructor
      · intro h
        obtain ⟨buffers, hrun⟩ := h
        obtain ⟨next, later, hnext, hlater, -⟩ := run_cons_eq_ok.mp hrun
        obtain ⟨frame, hframe, hshifts⟩ := exists_of_synthesise hn window hnext
        exact ⟨⟨frame, hframe⟩, (ih (hshifts.le_size_retouch call.head)).mp ⟨later, hlater⟩⟩
      · intro h
        obtain ⟨⟨frame, hframe⟩, hrest⟩ := h
        obtain ⟨next, hnext, hshifts⟩ := yields_overlap_shifts hn frame window hbuffer
        obtain ⟨later, hlater⟩ := (ih (hshifts.le_size_retouch call.head)).mpr hrest
        refine ⟨next :: later, run_cons_eq_ok.mpr ⟨next, later, ?_, hlater, rfl⟩⟩
        rw [synthesise_eq, hframe]
        exact hnext

/-- In a run, the samples of a call are made of its frame and of the frame before it. -/
theorem completed_of_run (hn : n < 512) {calls : List (Call α n)} {buffers : List (Array α)}
    (h : run transform window buffer calls = .ok buffers) {t : ℕ} {first second : Call α n}
    (hfirst : calls[t]? = some first) (hsecond : calls[t + 1]? = some second) :
    ∃ before after, frameOf transform first.model = .ok before ∧
      frameOf transform second.model = .ok after ∧
      buffers[t + 1]?.map (·.extract 0 n) =
        some (Array.ofFn (meeting hn window before after)) := by
  induction calls generalizing buffer buffers t with
  | nil => simp at hfirst
  | cons call rest ih =>
      obtain ⟨next, later, hnext, hlater, rfl⟩ := run_cons_eq_ok.mp h
      cases t with
      | succ t => exact ih hlater hfirst hsecond
      | zero =>
          cases rest with
          | nil => simp at hsecond
          | cons call' rest =>
              obtain ⟨last, others, hlast, -, rfl⟩ := run_cons_eq_ok.mp hlater
              obtain rfl : call = first := by simpa using hfirst
              obtain rfl : call' = second := by simpa using hsecond
              obtain ⟨before, hbefore, hshifts⟩ := exists_of_synthesise hn window hnext
              obtain ⟨after, hafter, hshifts'⟩ := exists_of_synthesise hn window hlast
              refine ⟨before, after, hbefore, hafter, ?_⟩
              simp [hshifts'.completes (hshifts.pending_retouch call.head)]

end Runs

/-! ### The decoder -/

/-- The decoder protects the samples that a call completes, and leaves them so in its buffer. -/
theorem exists_of_sound {engine : Engine α} {decoder : Decoder α} {model : Model α} {bins : Bins α}
    {sounded : Decoder.Sounded α} (h : decoder.sound engine model bins = .ok sounded) :
    ∃ (next : Array α) (head : Vector α subframeSize),
      synthesise subframeSize engine.transform decoder.overlap sounded.model
        engine.synthesisWindow.toArray true = .ok next ∧
      sounded.samples =
        (Output.protect (next.extract 0 subframeSize).toList).map Output.saturate ∧
      sounded.decoder.overlap = retouch head next := by
  obtain ⟨response, _, h⟩ := bind_eq_ok.mp h
  obtain ⟨phased, _, h⟩ := bind_eq_ok.mp h
  obtain ⟨treated, _, h⟩ := bind_eq_ok.mp h
  obtain ⟨next, hnext, h⟩ := bind_eq_ok.mp h
  obtain rfl := pure_eq_ok.mp h
  obtain ⟨frame, -, hshifts⟩ :=
    exists_of_synthesise (n := subframeSize) (by decide) engine.synthesisWindow hnext
  have hlength : (Output.protect (next.toList.take subframeSize)).length = subframeSize := by
    have hsize := hshifts.le_size
    rw [Output.length_protect, List.length_take, Array.length_toList]
    omega
  refine ⟨next, ⟨_, (List.size_toArray).trans hlength⟩, hnext, ?_, ?_⟩
  · simp
  · apply Array.ext'
    simp [retouch]

/-- In every run of calls the samples of a call are the falling half of the frame before it and the
rising half of its own frame, whatever else the run has and whatever is done to the completed
samples. -/
theorem overlap_add_over_runs {n : ℕ} (hn : n < 512) (transform : Transform α)
    (window : Vector α (2 * n)) :
    (∀ (buffer : Array α) (calls : List (Call α n)), 2 * n ≤ buffer.size →
      ((∃ buffers, run transform window buffer calls = .ok buffers) ↔
        ∀ call ∈ calls, ∃ frame, frameOf transform call.model = .ok frame)) ∧
    (∀ (buffer : Array α) (calls : List (Call α n)) (buffers : List (Array α)),
      run transform window buffer calls = .ok buffers →
      ∀ (t : ℕ) (first second : Call α n),
        calls[t]? = some first → calls[t + 1]? = some second →
        ∃ before after, frameOf transform first.model = .ok before ∧
          frameOf transform second.model = .ok after ∧
          buffers[t + 1]?.map (·.extract 0 n) =
            some (Array.ofFn (meeting hn window before after))) ∧
    (∀ (buffer buffer' : Array α) (calls calls' : List (Call α n))
      (buffers buffers' : List (Array α)),
      run transform window buffer calls = .ok buffers →
      run transform window buffer' calls' = .ok buffers' →
      ∀ t t' : ℕ, t + 1 < calls.length →
        calls[t]?.map Call.model = calls'[t']?.map Call.model →
        calls[t + 1]?.map Call.model = calls'[t' + 1]?.map Call.model →
        buffers[t + 1]?.map (·.extract 0 n) = buffers'[t' + 1]?.map (·.extract 0 n)) ∧
    ∀ (engine : Engine α) (decoder decoder' : Decoder α) (model model' : Model α)
      (bins bins' : Bins α) (sounded sounded' : Decoder.Sounded α),
      decoder.sound engine model bins = .ok sounded →
      decoder'.overlap = sounded.decoder.overlap →
      decoder'.sound engine model' bins' = .ok sounded' →
      ∃ before after, frameOf engine.transform sounded.model = .ok before ∧
        frameOf engine.transform sounded'.model = .ok after ∧
        sounded'.samples = (Output.protect (List.ofFn
          (meeting (n := subframeSize) (by decide) engine.synthesisWindow before after))).map
            Output.saturate := by
  refine ⟨fun buffer calls hbuffer => run_returns_iff hn hbuffer calls,
    fun buffer calls buffers hrun t first second => completed_of_run hn hrun, ?_, ?_⟩
  · intro buffer buffer' calls calls' buffers buffers' hrun hrun' t t' ht hfirst hsecond
    rw [List.getElem?_eq_getElem ht, Option.map_some] at hsecond
    rw [List.getElem?_eq_getElem (show t < calls.length by omega), Option.map_some] at hfirst
    obtain ⟨first', hfirst', hmodel⟩ := Option.map_eq_some_iff.mp hfirst.symm
    obtain ⟨second', hsecond', hmodel'⟩ := Option.map_eq_some_iff.mp hsecond.symm
    obtain ⟨before, after, hbefore, hafter, hbuffer⟩ :=
      completed_of_run hn hrun (List.getElem?_eq_getElem _) (List.getElem?_eq_getElem ht)
    obtain ⟨before', after', hbefore', hafter', hbuffer'⟩ :=
      completed_of_run hn hrun' hfirst' hsecond'
    rw [hmodel, hbefore] at hbefore'
    rw [hmodel', hafter] at hafter'
    cases hbefore'
    cases hafter'
    rw [hbuffer, hbuffer']
  · intro engine decoder decoder' model model' bins bins' sounded sounded' hsounded hoverlap
      hsounded'
    obtain ⟨next, head, hnext, -, hleft⟩ := exists_of_sound hsounded
    obtain ⟨next', -, hnext', hsamples, -⟩ := exists_of_sound hsounded'
    obtain ⟨before, hbefore, hshifts⟩ :=
      exists_of_synthesise (n := subframeSize) (by decide) engine.synthesisWindow hnext
    obtain ⟨after, hafter, hshifts'⟩ :=
      exists_of_synthesise (n := subframeSize) (by decide) engine.synthesisWindow hnext'
    refine ⟨before, after, hbefore, hafter, ?_⟩
    rw [hoverlap, hleft] at hshifts'
    rw [hsamples, hshifts'.completes (hshifts.pending_retouch head), Array.toList_ofFn]

/-- Two subframes of two samples. Neither the entries of the first buffer, nor those put in place of
the first two samples, are in the next two. -/
theorem overlap_add_over_runs_pair :
    let source : Model ℝ := ⟨0, 0, Vector.replicate 81 1, Vector.replicate 81 0, true⟩
    let window : Vector ℝ (2 * 2) := ⟨#[1, 2, 3, 4], rfl⟩
    ∃ (first second : Model ℝ) (before after : Block ℝ) (buffers : List (Array ℝ)),
      source.withFundamental PitchRange.speech.low = .ok first ∧
      source.withFundamental PitchRange.speech.high = .ok second ∧
      frameOf Transform.dft first = .ok before ∧ frameOf Transform.dft second = .ok after ∧
      run Transform.dft window #[5, 6, 7, 8] [⟨first, #v[9, 9]⟩, ⟨second, #v[9, 9]⟩] =
        .ok buffers ∧
      buffers[1]?.map (·.extract 0 2) =
        some #[before.get 1 * 3 + after.get 511 * 1, after.get 0 * 2] := by
  intro source window
  obtain ⟨hreturns, hmeeting, -, -⟩ :=
    overlap_add_over_runs (n := 2) (by decide) Transform.dft window
  have hframe : ∀ model : Model ℝ, model.Fitted →
      ∃ frame, frameOf Transform.dft model = .ok frame := by
    intro model hmodel
    obtain ⟨bins, hbins, -⟩ := yields_spectrum hmodel
    exact ⟨Transform.dft.inverse bins, by rw [frameOf, hbins]; rfl⟩
  obtain ⟨first, hfirst, hfitted⟩ := Model.yields_withFundamental source PitchRange.has_low
  obtain ⟨second, hsecond, hfitted'⟩ :=
    Model.yields_withFundamental source ⟨PitchRange.speech_le, le_rfl⟩
  obtain ⟨buffers, hrun⟩ :=
    (hreturns #[5, 6, 7, 8] [⟨first, #v[9, 9]⟩, ⟨second, #v[9, 9]⟩] (by simp)).mpr
      (by simp [hframe first hfitted, hframe second hfitted'])
  obtain ⟨before, after, hbefore, hafter, hbuffer⟩ := hmeeting _ _ _ hrun 0 _ _ rfl rfl
  refine ⟨first, second, before, after, buffers, hfirst, hsecond, hbefore, hafter, hrun, ?_⟩
  rw [hbuffer]
  rfl

end OverlapAdd

end Vocoder
