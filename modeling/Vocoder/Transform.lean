import Vocoder.Fault
import Vocoder.Scalar

/-!
Phasors, the complex amplitudes of a spectrum, and the discrete Fourier transform of any length. A
list whose length is a power of two is split into its even and odd positions, whose transforms are
joined by the roots of unity. Any other length is a convolution with a chirp, which such transforms
carry out. The stages of the codec use transforms of 512 bins and know nothing else about them.
-/

namespace Vocoder

/-- A complex amplitude. -/
structure Phasor (α : Type) where
  re : α
  im : α

namespace Phasor

variable {α : Type} [Scalar α]

def zero : Phasor α := ⟨0.0, 0.0⟩

def ofReal (x : α) : Phasor α := ⟨x, 0.0⟩

@[inline] def add (x y : Phasor α) : Phasor α := ⟨x.re + y.re, x.im + y.im⟩

@[inline] def sub (x y : Phasor α) : Phasor α := ⟨x.re - y.re, x.im - y.im⟩

@[inline] def mul (x y : Phasor α) : Phasor α :=
  ⟨x.re * y.re - x.im * y.im, x.re * y.im + x.im * y.re⟩

/-- The amplitude with the opposite phase. -/
@[inline] def conj (x : Phasor α) : Phasor α := ⟨x.re, -x.im⟩

@[inline] def power (x : Phasor α) : α := x.re * x.re + x.im * x.im

end Phasor

/-- The amplitude of a magnitude and a phase. -/
@[inline] def Phasor.polar {α : Type} [Analytic α] (magnitude phase : α) : Phasor α :=
  ⟨magnitude * Analytic.cos phase, magnitude * Analytic.sin phase⟩

namespace Dft

section Halves

variable {β : Type}

def evens : List β → List β
  | [] => []
  | [x] => [x]
  | x :: _ :: rest => x :: evens rest

def odds : List β → List β
  | [] => []
  | [_] => []
  | _ :: y :: rest => y :: odds rest

theorem length_evens : (xs : List β) → (evens xs).length = (xs.length + 1) / 2
  | [] => by simp [evens]
  | [_] => by simp [evens]
  | _ :: _ :: rest => by simp only [evens, List.length_cons, length_evens rest]; omega

theorem length_odds : (xs : List β) → (odds xs).length = xs.length / 2
  | [] => by simp [odds]
  | [_] => by simp [odds]
  | _ :: _ :: rest => by simp only [odds, List.length_cons, length_odds rest]; omega

end Halves

variable {α : Type} [Analytic α]

/-- The root of unity for `k / n` of a turn backwards. Quarter turns are exact; elsewhere the
fraction is taken in lowest terms. -/
def root (k n : Nat) : Phasor α :=
  if 4 * k % n = 0 then
    match 4 * k / n with
    | 0 => ⟨1.0, 0.0⟩
    | 1 => ⟨0.0, -1.0⟩
    | 2 => ⟨-1.0, 0.0⟩
    | _ => ⟨0.0, 1.0⟩
  else
    let common := k.gcd n
    let angle := Analytic.turn / Scalar.ofInt (n / common : Nat) * Scalar.ofInt (k / common : Nat)
    ⟨Analytic.cos angle, -Analytic.sin angle⟩

/-- The roots over half a turn that join two transforms of `2 ^ levels` bins. -/
def roots (levels : Nat) : List (Phasor α) :=
  (List.range (1 <<< levels)).map fun k => root k (1 <<< (levels + 1))

theorem length_roots (levels : Nat) : (roots levels : List (Phasor α)).length = 1 <<< levels := by
  simp [roots]

/-- The transform of the even positions joined with that of the odd ones. -/
@[inline] def join (even odd : List (Phasor α)) : List (Phasor α) :=
  List.zipWith Phasor.add even odd ++ List.zipWith Phasor.sub even odd

/-- The transform of `2 ^ levels` values by halves, given the roots for its last step. The roots for
the halves are those at even positions. -/
@[specialize] def fast : (levels : Nat) → (roots xs : List (Phasor α)) → List (Phasor α)
  | 0, _, xs => xs
  | 1, _, xs => join (evens xs) (odds xs)
  | levels + 2, roots, xs =>
    let even := fast (levels + 1) (evens roots) (evens xs)
    let odd := fast (levels + 1) (evens roots) (odds xs)
    join even (List.zipWith Phasor.mul odd roots)

theorem length_fast : (levels : Nat) → (roots xs : List (Phasor α)) →
    1 <<< levels ≤ 2 * roots.length → xs.length = 1 <<< levels →
    (fast levels roots xs).length = 1 <<< levels
  | 0, _, _, _, size => size
  | 1, _, xs, _, size => by
    simp only [fast, join, List.length_append, List.length_zipWith, length_evens, length_odds, size]
    decide
  | levels + 2, roots, xs, enough, size => by
    have double : 1 <<< (levels + 2) = 2 * 1 <<< (levels + 1) := Nat.shiftLeft_succ ..
    have again : 1 <<< (levels + 1) = 2 * 1 <<< levels := Nat.shiftLeft_succ ..
    have halved : 1 <<< (levels + 1) ≤ 2 * (evens roots).length := by rw [length_evens]; omega
    have even := length_fast (levels + 1) (evens roots) (evens xs) halved
      (by rw [length_evens, size]; omega)
    have odd := length_fast (levels + 1) (evens roots) (odds xs) halved
      (by rw [length_odds, size]; omega)
    simp only [fast, join, List.length_append, List.length_zipWith, even, odd]
    omega

/-- The positions of a list counted from its start backwards. -/
def reflected {β : Type} : List β → List β
  | [] => []
  | x :: rest => x :: rest.reverse

theorem length_reflected {β : Type} (xs : List β) : (reflected xs).length = xs.length := by
  cases xs <;> simp [reflected]

/-- A bin divided by a real number. An infinite part stays as it is. -/
@[inline] def divide (n : α) (x : Phasor α) : Phasor α where
  re := if Scalar.IsInfinite x.re then x.re else (x.re + x.im * 0.0) / n
  im := if Scalar.IsInfinite x.im then x.im else (x.im - x.re * 0.0) / n

/-- The chirp of a length: its turns grow with the square of the position. -/
def chirp (n : Nat) : List (Phasor α) :=
  (List.range n).map fun i =>
    let angle := Analytic.pi / Scalar.ofInt (n : Int) * Scalar.ofInt (i * i : Nat)
    if i = 0 then ⟨1.0, 0.0⟩ else ⟨Analytic.cos angle, Analytic.sin angle⟩

/-- The transform of any length as a convolution with the chirp, in a circle of a power of two that
leaves room for both. -/
def byChirp (xs : List (Phasor α)) : List (Phasor α) :=
  let n := xs.length
  let levels := (2 * n - 1).log2 + 1
  let size := 1 <<< levels
  let table := roots (levels - 1)
  let up : List (Phasor α) := chirp n
  let down := up.map Phasor.conj
  let signal := List.zipWith Phasor.mul xs down ++ List.replicate (size - n) Phasor.zero
  let filter := up ++ List.replicate (size + 1 - 2 * n) Phasor.zero ++ (up.drop 1).reverse
  let product := List.zipWith Phasor.mul (fast levels table signal) (fast levels table filter)
  let convolved := (fast levels table (reflected product)).map (divide (Scalar.ofInt (size : Nat)))
  List.zipWith Phasor.mul convolved down

def forward (xs : List (Phasor α)) : List (Phasor α) :=
  let levels := xs.length.log2
  if xs.length ≤ 1 then xs
  else if xs.length = 1 <<< levels then fast levels (roots (levels - 1)) xs
  else byChirp xs

/-- The real part of a bin of an inverse transform of `n` bins, without the scale factor. -/
@[inline] def realPart (n : α) (x : Phasor α) : α := (divide n x).re * n

/-- The spectrum of a real block that is cut or filled with zeros to a size. -/
def ofReal (size : Nat) (block : Array α) : Array (Phasor α) :=
  let cut := (block.toList.take size).map Phasor.ofReal
  (forward (cut ++ List.replicate (size - cut.length) Phasor.zero)).toArray

/-- The real part of the inverse transform, without a scale factor. An empty spectrum has none. -/
def toReal (bins : Array (Phasor α)) : Except Fault (Array α) :=
  if bins.isEmpty then .error .outOfRange
  else
    .ok ((forward (reflected bins.toList)).map (realPart (Scalar.ofInt (bins.size : Nat)))).toArray

end Dft

abbrev Block (α : Type) := Vector α 512

abbrev Bins (α : Type) := Vector (Phasor α) 512

/-- A transform between blocks and spectra. The inverse has no scale factor. -/
structure Transform (α : Type) where
  forward : Block α → Bins α
  inverse : Bins α → Block α

/-- The transform of 512 points with its roots. -/
@[inline] def Transform.ofRoots {α : Type} [Analytic α] (roots : List (Phasor α))
    (enough : 256 ≤ roots.length) : Transform α where
  forward block :=
    ⟨(Dft.fast 9 roots (block.toList.map Phasor.ofReal)).toArray, by
      rw [List.size_toArray]
      exact Dft.length_fast 9 roots _ (by omega) (by simp)⟩
  inverse bins :=
    ⟨((Dft.fast 9 roots (Dft.reflected bins.toList)).map (Dft.realPart 512.0)).toArray, by
      rw [List.size_toArray, List.length_map]
      exact Dft.length_fast 9 roots _ (by omega) (by rw [Dft.length_reflected]; simp)⟩

/-- The discrete Fourier transform of 512 points. -/
def Transform.dft {α : Type} [Analytic α] : Transform α :=
  Transform.ofRoots (Dft.roots 8) (by rw [Dft.length_roots]; decide)

/-- Values followed by zeros. -/
def Block.padded {α : Type} [Scalar α] (values : Array α) : Block α :=
  Vector.ofFn fun i => values.getD i.val 0.0

end Vocoder
