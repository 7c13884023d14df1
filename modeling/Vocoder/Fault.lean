/-!
Faults: the ways in which a stage cannot go on. Reading and writing a buffer is checked, so a stage
that returns a value never looked outside one.
-/

namespace Vocoder

/-- Why a stage stopped. -/
inductive Fault where
  /-- A position outside a buffer, a negative length or shift, or a division of integers by zero. -/
  | outOfRange
  /-- A fundamental whose number of harmonics a model cannot hold. -/
  | harmonicCount
  /-- A number of lines that is odd or too large. -/
  | lineCount
  /-- A prediction order or a block of speech that is too large. -/
  | analysisBounds
deriving DecidableEq, Repr, Inhabited

/-- The text of a fault that has one. -/
def Fault.message? : Fault → Option String
  | .outOfRange => none
  | .harmonicCount => some "codec2: harmonic count out of range"
  | .lineCount => some "codec2: unsupported LSP order"
  | .analysisBounds => some "codec2: LPC analysis bounds exceeded"

variable {β γ : Type}

@[inline] def fetch (xs : Array β) (i : Int) : Except Fault β :=
  if 0 ≤ i then
    match xs[i.toNat]? with
    | some x => .ok x
    | none => .error .outOfRange
  else .error .outOfRange

@[inline] def store (xs : Array β) (i : Int) (x : β) : Except Fault (Array β) :=
  if 0 ≤ i ∧ i.toNat < xs.size then .ok (xs.setIfInBounds i.toNat x) else .error .outOfRange

/-- The elements of an array from position `first` up to position `last`. -/
def slice (xs : Array β) (first last : Int) : Except Fault (Array β) :=
  if 0 ≤ first ∧ first ≤ last ∧ last ≤ xs.size then
    .ok (xs.extract first.toNat last.toNat)
  else .error .outOfRange

/-- The length of a buffer, which is not negative and not beyond what memory can address. -/
def length (n : Int) : Except Fault Nat :=
  if 0 ≤ n ∧ n ≤ 35184372088832 then .ok n.toNat else .error .outOfRange

/-- The number of places of a shift, which is not negative. -/
def shiftWidth (n : Int) : Except Fault Nat :=
  if 0 ≤ n then .ok n.toNat else .error .outOfRange

/-- Folds a step over `count` successive integers from `first` on, up to the first fault. -/
@[specialize] def foldRange (step : γ → Int → Except Fault γ) :
    (first : Int) → (count : Nat) → γ → Except Fault γ
  | _, 0, acc => .ok acc
  | i, n + 1, acc =>
    match step acc i with
    | .ok next => foldRange step (i + 1) n next
    | .error fault => .error fault

/-- Folds a step over the integers `first ≤ i < last`. -/
@[inline] def foldBetween (first last : Int) (start : γ) (step : γ → Int → Except Fault γ) :
    Except Fault γ :=
  foldRange step first (last - first).toNat start

/-- Adds a term for every integer `first ≤ i < last` to a start value, in ascending order. -/
@[inline] def sumBetween [Add γ] (first last : Int) (start : γ) (term : Int → Except Fault γ) :
    Except Fault γ :=
  foldBetween first last start fun acc i => do return acc + (← term i)

/-- Appends `count` values of a function, from position `i` on, up to the first fault. -/
@[specialize] def appendValues (value : Nat → Except Fault γ) :
    (i count : Nat) → Array γ → Except Fault (Array γ)
  | _, 0, values => .ok values
  | i, count + 1, values =>
    match value i with
    | .ok x => appendValues value (i + 1) count (values.push x)
    | .error fault => .error fault

/-- The array of `count` values of a function, up to the first fault. -/
@[inline] def tabulate (count : Nat) (value : Nat → Except Fault γ) : Except Fault (Array γ) :=
  appendValues value 0 count #[]

theorem appendValues_size (value : Nat → Except Fault γ) (i count : Nat) (start values : Array γ)
    (done : appendValues value i count start = .ok values) :
    values.size = start.size + count := by
  induction count generalizing i start with
  | zero =>
    simp only [appendValues, Except.ok.injEq] at done
    simp [done]
  | succ count ih =>
    simp only [appendValues] at done
    split at done
    · rw [ih (i + 1) _ done, Array.size_push]
      omega
    · cases done

theorem tabulate_size (count : Nat) (value : Nat → Except Fault γ) (values : Array γ)
    (done : tabulate count value = .ok values) : values.size = count := by
  have size := appendValues_size value 0 count #[] values done
  simpa using size

end Vocoder
