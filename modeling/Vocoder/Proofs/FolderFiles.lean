import Mathlib
import Vocoder.CommandLine.Script

/-!
What becomes of names when a file is put into a folder. A name that leads to a file, a folder or a
device still leads there; one that led to the place of the new file leads to it now. So a file that
a tool has made can be written to and read by its name, and all other files are read as before.
-/

namespace Vocoder.CommandLine.Folder

variable {folder : Folder} {path other : String}

/-! ### Files -/

theorem lookup_replaced (files : List (String × List UInt8)) (path other : String)
    (content : List UInt8) :
    (files.map fun file => if file.1 = path then (path, content) else file).lookup other =
      if other = path then (files.lookup other).map fun _ => content else files.lookup other := by
  induction files with
  | nil => simp
  | cons file files ih =>
      have hkey : (if file.1 = path then (path, content) else file).1 = file.1 := by
        split_ifs with hfile
        · exact hfile.symm
        · rfl
      rw [List.map_cons, List.lookup_cons, List.lookup_cons, hkey, ih]
      by_cases heq : other = file.1
      · by_cases hfile : file.1 = path
        · simp [heq, hfile]
        · simp [heq, hfile]
      · simp [beq_eq_false_iff_ne.mpr heq]

theorem get?_put_self (folder : Folder) (path : String) (content : List UInt8) :
    (folder.put path content).get? path = some content := by
  by_cases h : (folder.get? path).isSome
  · rw [put, if_pos h, get?, lookup_replaced, if_pos rfl]
    obtain ⟨old, hold⟩ := Option.isSome_iff_exists.mp h
    rw [get?] at hold
    rw [hold]
    rfl
  · rw [put, if_neg h, get?, List.lookup_append]
    rw [Option.not_isSome_iff_eq_none, get?] at h
    simp [h]

theorem get?_put_of_ne (h : other ≠ path) (content : List UInt8) :
    (folder.put path content).get? other = folder.get? other := by
  unfold put
  split_ifs
  · rw [get?, lookup_replaced, if_neg h, get?]
  · rw [get?, List.lookup_append, get?]
    simp [List.lookup_cons, beq_eq_false_iff_ne.mpr h]

theorem put_put (folder : Folder) (path : String) (content later : List UInt8) :
    (folder.put path content).put path later = folder.put path later := by
  have hthere : ((folder.put path content).get? path).isSome := by
    rw [get?_put_self]
    rfl
  rw [put, if_pos hthere]
  unfold put
  split_ifs with h
  · congr 1
    rw [List.map_map]
    apply List.map_congr_left
    intro file _
    by_cases hfile : file.1 = path
    · simp [hfile]
    · simp [hfile]
  · have habsent : ∀ file ∈ folder.files, file.1 ≠ path := by
      rw [Option.not_isSome_iff_eq_none, get?, List.lookup_eq_none_iff] at h
      intro file hfile heq
      simpa [heq] using h file hfile
    congr 1
    have hkept : folder.files.map (fun file => if file.1 = path then (path, later) else file) =
        folder.files := by
      calc folder.files.map (fun file => if file.1 = path then (path, later) else file)
          = folder.files.map id :=
            List.map_congr_left fun file hfile => if_neg (habsent file hfile)
        _ = folder.files := List.map_id _
    rw [List.map_append, hkept]
    simp

/-- A folder inside the folder stays when a file is put. -/
theorem hasFolder_put (h : folder.hasFolder other = true) (content : List UInt8) :
    (folder.put path content).hasFolder other = true := by
  rw [hasFolder, List.any_eq_true] at h ⊢
  obtain ⟨file, hfile, hprefix⟩ := h
  unfold put
  split_ifs
  · by_cases heq : file.1 = path
    · exact ⟨(path, content), List.mem_map.mpr ⟨file, hfile, if_pos heq⟩, heq ▸ hprefix⟩
    · exact ⟨file, List.mem_map.mpr ⟨file, hfile, if_neg heq⟩, hprefix⟩
  · exact ⟨file, List.mem_append_left _ hfile, hprefix⟩

/-! ### Spots -/

/-- What a place for a new file becomes when the file is there. -/
def Target.filled : Target → Target
  | .vacant path => .file path
  | target => target

/-- A file is at a path, or at least no folder is in its place. -/
def Free (folder : Folder) (path : String) : Prop :=
  (folder.get? path).isSome = true ∨ folder.hasFolder path = false

/-- Everything is where it was, but for the place of the file that was put. -/
theorem targetAt_put {spot : Spot} (content : List UInt8)
    (hpath : folder.Free path)
    (hspot : ∀ place, folder.targetAt spot = .vacant place → place = path) :
    (folder.put path content).targetAt spot = (folder.targetAt spot).filled := by
  cases spot with
  | outside steps =>
      rcases steps with _ | ⟨step, _ | ⟨next, steps⟩⟩
      · rfl
      · simp only [targetAt]
        split_ifs <;> rfl
      · simp only [targetAt]
        split_ifs <;> rfl
  | inside steps =>
      cases steps with
      | nil => rfl
      | cons step steps =>
          simp only [targetAt] at hspot ⊢
          generalize "/".intercalate (step :: steps) = name at hspot ⊢
          by_cases hname : name = path
          · subst hname
            rw [get?_put_self, if_pos Option.isSome_some]
            split_ifs with hfile hfolder
            · rfl
            · rcases hpath with hthere | hnone
              · exact absurd hthere hfile
              · rw [hnone] at hfolder
                cases hfolder
            · rfl
          · rw [get?_put_of_ne hname]
            by_cases hfile : (folder.get? name).isSome
            · rw [if_pos hfile, if_pos hfile]
              rfl
            · rw [if_neg hfile] at hspot ⊢
              rw [if_neg hfile]
              by_cases hfolder : folder.hasFolder name
              · rw [if_pos hfolder, if_pos (hasFolder_put hfolder content)]
                rfl
              · rw [if_neg hfolder] at hspot
                exact absurd (hspot name rfl) hname

theorem free_of_targetAt {spot : Spot}
    (h : folder.targetAt spot = .file path ∨ folder.targetAt spot = .vacant path) :
    folder.Free path := by
  cases spot with
  | outside steps =>
      rcases steps with _ | ⟨step, _ | ⟨next, steps⟩⟩ <;> simp only [targetAt] at h
      · simp at h
      · split_ifs at h <;> simp at h
      · split_ifs at h <;> simp at h
  | inside steps =>
      cases steps with
      | nil => simp [targetAt] at h
      | cons step steps =>
          simp only [targetAt] at h
          split_ifs at h with hfile hfolder
          · simp only [Target.file.injEq, or_false] at h
            exact .inl (h ▸ hfile)
          · simp at h
          · simp only [Target.vacant.injEq, false_or] at h
            exact .inr (h ▸ Bool.eq_false_iff.mpr hfolder)

/-! ### Names -/

/-- A component that leads down, and not out of place. -/
structure Descends (making : Bool) (step : String) (rest : List String) : Prop where
  named : ¬ (step = "" ∨ step = ".")
  down : step ≠ ".."
  unended : ¬ (making = true ∧ rest ≠ [] ∧ (rest.all (· = "")) = true)
  short : ¬ maxComponentSize < step.utf8ByteSize

/-- How the components of a name lead from a spot to what is named. -/
inductive Leads (folder : Folder) (making : Bool) : Spot → List String → Target → Prop
  | arrived {spot : Spot} : Leads folder making spot [] .folder
  | stayed {spot : Spot} {step : String} {rest : List String} {target : Target}
      (here : step = "" ∨ step = ".") (later : Leads folder making spot rest target) :
      Leads folder making spot (step :: rest) target
  | climbed {spot : Spot} {rest : List String} {target : Target}
      (later : Leads folder making spot.parent rest target) :
      Leads folder making spot (".." :: rest) target
  | entered {spot : Spot} {step : String} {rest : List String} {target : Target}
      (descends : Descends making step rest) (inner : folder.targetAt (spot.enter step) = .folder)
      (later : Leads folder making (spot.enter step) rest target) :
      Leads folder making spot (step :: rest) target
  | ended {spot : Spot} {step : String} (descends : Descends making step [])
      (inner : folder.targetAt (spot.enter step) ≠ .folder)
      (unbarred : folder.targetAt (spot.enter step) ≠ .barred) :
      Leads folder making spot [step] (folder.targetAt (spot.enter step))

theorem walk_of_descends {making : Bool} {spot : Spot} {step : String} {rest : List String}
    (h : Descends making step rest) :
    folder.walk making spot (step :: rest) =
      match folder.targetAt (spot.enter step) with
      | .folder => folder.walk making (spot.enter step) rest
      | .vacant path => if rest.isEmpty then .ok (.vacant path) else .error .missing
      | .elsewhere => if rest.isEmpty then .ok .elsewhere else .error .missing
      | .barred => .error .missing
      | target => if rest.isEmpty then .ok target else .error .notFolder := by
  rewrite [walk, if_neg h.named, if_neg h.down, if_neg h.unended, if_neg h.short]
  rfl

theorem walk_eq_ok {making : Bool} {spot : Spot} {steps : List String} {target : Target} :
    folder.walk making spot steps = .ok target ↔ Leads folder making spot steps target := by
  constructor
  · intro h
    induction steps generalizing spot with
    | nil =>
        cases h
        exact .arrived
    | cons step rest ih =>
        by_cases hstay : step = "" ∨ step = "."
        · rw [walk, if_pos hstay] at h
          exact .stayed hstay (ih h)
        by_cases hup : step = ".."
        · subst hup
          exact .climbed (ih h)
        by_cases hmade : making = true ∧ rest ≠ [] ∧ (rest.all (· = "")) = true
        · rw [walk, if_neg hstay, if_neg hup, if_pos hmade] at h
          cases h
        by_cases hlong : maxComponentSize < step.utf8ByteSize
        · rw [walk, if_neg hstay, if_neg hup, if_neg hmade, if_pos hlong] at h
          cases h
        have hdescends : Descends making step rest := ⟨hstay, hup, hmade, hlong⟩
        rw [walk_of_descends hdescends] at h
        cases hat : folder.targetAt (spot.enter step) with
        | folder =>
            rw [hat] at h
            exact .entered hdescends hat (ih h)
        | barred =>
            rw [hat] at h
            cases h
        | file | null | input | output | terminal | vacant | elsewhere =>
            rw [hat] at h
            dsimp only at h
            split_ifs at h with hlast
            obtain rfl := List.isEmpty_iff.mp hlast
            cases h
            rw [← hat]
            exact .ended hdescends (by rw [hat]; nofun) (by rw [hat]; nofun)
  · intro h
    induction h with
    | arrived => rfl
    | stayed here _ ih =>
        rw [walk, if_pos here]
        exact ih
    | climbed _ ih => exact ih
    | entered descends inner _ ih =>
        rw [walk_of_descends descends, inner]
        exact ih
    | @ended spot step descends inner unbarred =>
        rw [walk_of_descends descends]
        cases hat : folder.targetAt (spot.enter step) with
        | folder => exact absurd hat inner
        | barred => exact absurd hat unbarred
        | file | null | input | output | terminal | vacant | elsewhere => rfl

namespace Leads

variable {making : Bool} {spot : Spot} {steps : List String} {target : Target}

/-- What a file can be made of can be read. -/
theorem to_read (h : Leads folder true spot steps target) :
    Leads folder false spot steps target := by
  have hread : ∀ {step : String} {rest : List String}, Descends true step rest →
      Descends false step rest := fun h => ⟨h.named, h.down, by simp, h.short⟩
  induction h with
  | arrived => exact .arrived
  | stayed here _ ih => exact .stayed here ih
  | climbed _ ih => exact .climbed ih
  | entered descends inner _ ih => exact .entered (hread descends) inner ih
  | ended descends inner unbarred => exact .ended (hread descends) inner unbarred

theorem exists_targetAt (h : Leads folder making spot steps target) :
    target = .folder ∨ ∃ place, folder.targetAt place = target := by
  induction h with
  | arrived => exact .inl rfl
  | stayed _ _ ih | climbed _ ih | entered _ _ _ ih => exact ih
  | ended => exact .inr ⟨_, rfl⟩

/-- A name leads to what it led to before a file was put, or to that file if it led there. -/
theorem put (h : Leads folder making spot steps target) (content : List UInt8)
    (hpath : folder.Free path)
    (htarget : ∀ place, target = .vacant place → place = path) :
    Leads (folder.put path content) making spot steps target.filled := by
  induction h with
  | arrived => exact .arrived
  | stayed here _ ih => exact .stayed here (ih htarget)
  | climbed _ ih => exact .climbed (ih htarget)
  | @entered spot step _ _ descends inner _ ih =>
      refine .entered descends ?_ (ih htarget)
      rw [targetAt_put content hpath (by rw [inner]; nofun), inner]
      rfl
  | @ended spot step descends inner unbarred =>
      have hput : (folder.put path content).targetAt (spot.enter step) =
          (folder.targetAt (spot.enter step)).filled := targetAt_put content hpath htarget
      rw [← hput]
      refine .ended descends ?_ ?_
      · rw [hput]
        cases hat : folder.targetAt (spot.enter step) with
        | folder => exact absurd hat inner
        | file | null | input | output | terminal | vacant | elsewhere | barred => nofun
      · rw [hput]
        cases hat : folder.targetAt (spot.enter step) with
        | barred => exact absurd hat unbarred
        | file | null | input | output | terminal | vacant | elsewhere | folder => nofun

end Leads

/-! ### Files by their names -/

theorem resolve_eq_ok {making : Bool} {name : String} {target : Target} :
    folder.resolve making name = .ok target ↔ name ≠ "" ∧ ¬ maxNameSize < name.utf8ByteSize ∧
      Leads folder making (if name.startsWith "/" then .outside [] else .inside [])
        (name.splitOn "/") target := by
  unfold resolve
  split_ifs with hempty hlong <;> simp_all [walk_eq_ok]

theorem resolve_to_read {name : String} {target : Target}
    (h : folder.resolve true name = .ok target) : folder.resolve false name = .ok target := by
  obtain ⟨hempty, hlong, hleads⟩ := resolve_eq_ok.mp h
  exact resolve_eq_ok.mpr ⟨hempty, hlong, hleads.to_read⟩

theorem free_of_resolve {making : Bool} {name : String} {target : Target}
    (h : folder.resolve making name = .ok target)
    (htarget : target = .file path ∨ target = .vacant path) : folder.Free path := by
  obtain ⟨_, _, hleads⟩ := resolve_eq_ok.mp h
  rcases hleads.exists_targetAt with rfl | ⟨spot, rfl⟩
  · simp at htarget
  · exact free_of_targetAt htarget

/-- A file can be made, at a path, under a name that does not stand for a standard stream. -/
structure Takes (folder : Folder) (name path : String) : Prop where
  named : name ≠ "-"
  leads : folder.resolve true name = .ok (.file path) ∨
    folder.resolve true name = .ok (.vacant path)

namespace Takes

variable {name : String}

theorem free (h : folder.Takes name path) : folder.Free path := by
  rcases h.leads with hfile | hvacant
  · exact free_of_resolve hfile (.inl rfl)
  · exact free_of_resolve hvacant (.inr rfl)

/-- All that a name leads to stays where it is when the file is made. -/
theorem resolve_put (h : folder.Takes name path) (content : List UInt8) {making : Bool}
    {source : String} {target : Target} (hsource : folder.resolve making source = .ok target)
    (htarget : ∀ place, target = .vacant place → place = path) :
    (folder.put path content).resolve making source = .ok target.filled := by
  obtain ⟨hempty, hlong, hleads⟩ := resolve_eq_ok.mp hsource
  exact resolve_eq_ok.mpr ⟨hempty, hlong, hleads.put content h.free htarget⟩

theorem resolve_self (h : folder.Takes name path) (content : List UInt8) :
    (folder.put path content).resolve true name = .ok (.file path) := by
  rcases h.leads with hfile | hvacant
  · exact h.resolve_put content hfile (by simp)
  · exact h.resolve_put content hvacant (by simp)

theorem put (h : folder.Takes name path) (content : List UInt8) :
    (folder.put path content).Takes name path :=
  ⟨h.named, .inl (h.resolve_self content)⟩

theorem create_eq (h : folder.Takes name path) : folder.create name = .ok (folder.put path []) := by
  rcases h.leads with hfile | hvacant
  · rw [create, hfile]
  · rw [create, hvacant]

theorem append_eq (h : folder.Takes name path) (content later : List UInt8) :
    (folder.put path content).append name later = folder.put path (content ++ later) := by
  rw [append, h.resolve_self]
  dsimp only
  rw [get?_put_self, put_put]
  rfl

theorem read_eq (h : folder.Takes name path) (content : List UInt8) :
    (folder.put path content).read name = .ok content := by
  rw [read, resolve_to_read (h.resolve_self content)]
  dsimp only
  rw [get?_put_self]
  rfl

end Takes

end Vocoder.CommandLine.Folder
