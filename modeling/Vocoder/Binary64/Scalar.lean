import Vocoder.Binary64.Logarithm
import Vocoder.Binary64.Trigonometry
import Vocoder.Scalar

/-!
Binary floating point as the scalars that the codec runs on.
-/

namespace Vocoder

instance : Scalar Float where
  toAdd := inferInstance
  toSub := inferInstance
  toMul := inferInstance
  toDiv := inferInstance
  toNeg := inferInstance
  toLT := inferInstance
  toLE := inferInstance
  toOfScientific := inferInstance
  decidableLT := inferInstance
  decidableLE := inferInstance
  ofInt := Binary64.ofInt
  least := Binary64.least

instance : Analytic Float where
  pi := Binary64.pi
  sqrt := Float.sqrt
  cos := Binary64.cos
  sin := Binary64.sin
  acos := Binary64.acos
  atan2 := Binary64.atan2
  log2 := Binary64.log2
  log10 := Binary64.log10
  pow := Binary64.pow
  floor := Float.floor
  ceil := Float.ceil
  trunc := Binary64.trunc

end Vocoder
