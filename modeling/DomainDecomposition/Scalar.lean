/-!
# Scalars and magnitudes

Vectors and matrices hold scalars of a type `T`, real or complex. Norms, tolerances and relaxation
factors are magnitudes of a type `R`. The algorithms use the plain operations of both types and
the two classes below, and they fix the order of every sum and product. So the same definitions
run in machine arithmetic and can be read over an exact field.
-/

namespace DomainDecomposition

/-- What norms and tolerances need besides arithmetic and comparison. -/
class Magnitude (R : Type) where
  sqrt : R → R
  /-- Length of the hypotenuse, without overflow on the way. -/
  hypot : R → R → R
  /-- The larger operand; one that compares with nothing loses. -/
  larger : R → R → R
  ofNat : Nat → R
  /-- Whole part of a count that was carried as a magnitude. -/
  toNat : R → Nat
  /-- Relative size below which a pivot counts as zero. -/
  epsilon : R
  /-- Relative size below which a new search direction counts as zero. -/
  breakdown : R

/-- A scalar field with magnitudes `R`. -/
class Scalar (T : Type) (R : outParam Type) where
  /-- Whether the imaginary part carries information. -/
  isComplex : Bool
  conj : T → T
  modulus : T → R
  modulusSq : T → R
  re : T → R
  im : T → R
  ofReal : R → T
  /-- Real scalars drop the imaginary part. -/
  ofParts : R → R → T
  isFinite : T → Bool

end DomainDecomposition
