import DomainDecomposition.Scalar
import Mathlib.Algebra.Order.Field.Basic

/-!
# Exact scalars

Over a field whose operations do not round, the only thing that the elimination kernels need to know
about moduli is that they are sizes: never negative, and zero at zero alone. Everything else that a
`Scalar` or a `Magnitude` offers (square roots, tolerances, the test for finite entries) stays
arbitrary.
-/

namespace DomainDecomposition

/-- Scalars of an exact field, whose moduli lie in an ordered field. -/
class ExactScalar (T : Type) (R : outParam Type) [Field T] [Field R] [LinearOrder R]
    [IsStrictOrderedRing R] [Scalar T R] : Prop where
  modulus_nonneg (x : T) : (0 : R) ≤ Scalar.modulus x
  modulus_eq_zero (x : T) : Scalar.modulus x = (0 : R) ↔ x = 0

end DomainDecomposition
