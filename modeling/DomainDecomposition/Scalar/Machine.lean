import DomainDecomposition.Scalar
import DomainDecomposition.Scalar.Pair
import DomainDecomposition.Scalar.Binary64

/-!
# Machine scalars

Double and single precision, real and complex. Magnitudes are doubles throughout: single precision
parts are widened after the modulus is taken.
-/

namespace DomainDecomposition

instance : Magnitude Float where
  sqrt := Float.sqrt
  hypot := Binary64.hypot
  larger x y := if x.isNaN then y else if x < y then y else x
  ofNat := Float.ofNat
  toNat x := x.toUInt64.toNat
  epsilon := Float.ofBits 0x3CB0000000000000
  breakdown := 1e-14

instance : Scalar Float Float where
  isComplex := false
  conj x := x
  modulus x := x.abs
  modulusSq x := x * x
  re x := x
  im _ := 0
  ofReal r := r
  ofParts r _ := r
  isFinite x := x.isFinite

instance : Scalar Float32 Float where
  isComplex := false
  conj x := x
  modulus x := x.abs.toFloat
  modulusSq x := x.abs.toFloat * x.abs.toFloat
  re x := x.toFloat
  im _ := 0
  ofReal r := r.toFloat32
  ofParts r _ := r.toFloat32
  isFinite x := x.isFinite

instance : Scalar (ComplexPair Float) Float where
  isComplex := true
  conj := ComplexPair.conj
  modulus x := Binary64.hypot x.re x.im
  modulusSq := ComplexPair.normSq
  re x := x.re
  im x := x.im
  ofReal r := ⟨r, 0⟩
  ofParts r i := ⟨r, i⟩
  isFinite x := x.re.isFinite && x.im.isFinite

/-- Modulus in single precision: double precision holds the squares exactly. -/
def ComplexPair.modulus32 (x : ComplexPair Float32) : Float :=
  (Binary64.hypot x.re.toFloat x.im.toFloat).toFloat32.toFloat

instance : Scalar (ComplexPair Float32) Float where
  isComplex := true
  conj := ComplexPair.conj
  modulus := ComplexPair.modulus32
  modulusSq x := x.modulus32 * x.modulus32
  re x := x.re.toFloat
  im x := x.im.toFloat
  ofReal r := ⟨r.toFloat32, 0⟩
  ofParts r i := ⟨r.toFloat32, i.toFloat32⟩
  isFinite x := x.re.isFinite && x.im.isFinite

end DomainDecomposition
