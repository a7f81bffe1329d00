import DomainDecomposition.Proofs.Scalar.Exact
import Mathlib.Algebra.Order.Field.Rat
import Mathlib.Data.Rat.Sqrt

/-!
# Rational scalars

The rational numbers are an exact field with decidable equality, so the algorithms can be run over
them. The square root is exact where there is one. Tolerances are those of double precision.
-/

namespace DomainDecomposition

instance : Magnitude ℚ where
  sqrt := Rat.sqrt
  hypot x y := Rat.sqrt (x * x + y * y)
  larger := max
  ofNat n := n
  toNat x := x.floor.toNat
  epsilon := 1 / 2 ^ 52
  breakdown := 1 / 10 ^ 14

instance : Scalar ℚ ℚ where
  isComplex := false
  conj x := x
  modulus x := |x|
  modulusSq x := x * x
  re x := x
  im _ := 0
  ofReal r := r
  ofParts r _ := r
  isFinite _ := true

instance : ExactScalar ℚ ℚ where
  modulus_nonneg := abs_nonneg
  modulus_eq_zero _ := abs_eq_zero

end DomainDecomposition
