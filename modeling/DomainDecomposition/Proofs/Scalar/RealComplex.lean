import DomainDecomposition.Proofs.Scalar.Exact
import Mathlib.Analysis.RCLike.Basic
import Mathlib.Analysis.SpecialFunctions.Sqrt

/-!
# Real and complex scalars

The real and the complex numbers with exact operations: square roots and hypotenuses are not
rounded. Both are covered at once, as an `RCLike` field. Tolerances are those of double precision.
-/

namespace DomainDecomposition

noncomputable section

instance : Magnitude ℝ where
  sqrt := Real.sqrt
  hypot x y := √(x * x + y * y)
  larger := max
  ofNat n := n
  toNat x := ⌊x⌋₊
  epsilon := 1 / 2 ^ 52
  breakdown := 1 / 10 ^ 14

variable {𝕜 : Type} [RCLike 𝕜]

open scoped Classical in
instance : Scalar 𝕜 ℝ where
  isComplex := decide ((RCLike.I : 𝕜) ≠ 0)
  conj := starRingEnd 𝕜
  modulus x := ‖x‖
  modulusSq x := RCLike.normSq x
  re x := RCLike.re x
  im x := RCLike.im x
  ofReal r := (r : 𝕜)
  ofParts r i := (r : 𝕜) + (i : 𝕜) * RCLike.I
  isFinite _ := true

instance : ExactScalar 𝕜 ℝ where
  modulus_nonneg := norm_nonneg
  modulus_eq_zero _ := norm_eq_zero

end

/-! ## What the operations are -/

namespace Magnitude

lemma hypot_real (x y : ℝ) : hypot x y = √(x * x + y * y) :=
  rfl

lemma larger_real (x y : ℝ) : larger x y = max x y :=
  rfl

lemma breakdown_real : (breakdown : ℝ) = 1 / 10 ^ 14 :=
  rfl

end Magnitude

namespace Scalar

variable {𝕜 : Type} [RCLike 𝕜]

lemma conj_exact (x : 𝕜) : conj x = starRingEnd 𝕜 x :=
  rfl

lemma modulus_exact (x : 𝕜) : modulus x = ‖x‖ :=
  rfl

lemma ofReal_exact (r : ℝ) : (ofReal r : 𝕜) = (r : 𝕜) :=
  rfl

end Scalar

end DomainDecomposition
