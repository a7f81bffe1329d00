/-!
# Complex numbers as pairs of parts

Sums act part by part. A product is `(ac - bd) + (ad + bc)i`, and a quotient multiplies by the
conjugate of the divisor and divides both parts by its squared modulus. Two numbers are equal when
both parts compare equal.
-/

namespace DomainDecomposition

/-- A complex number with parts in `F`. -/
structure ComplexPair (F : Type) where
  re : F
  im : F
  deriving DecidableEq

namespace ComplexPair

variable {F : Type}

instance [Zero F] : Zero (ComplexPair F) := ⟨⟨0, 0⟩⟩

instance [Zero F] [One F] : One (ComplexPair F) := ⟨⟨1, 0⟩⟩

instance [Add F] : Add (ComplexPair F) := ⟨fun x y => ⟨x.re + y.re, x.im + y.im⟩⟩

instance [Sub F] : Sub (ComplexPair F) := ⟨fun x y => ⟨x.re - y.re, x.im - y.im⟩⟩

instance [Neg F] : Neg (ComplexPair F) := ⟨fun x => ⟨-x.re, -x.im⟩⟩

instance [Add F] [Sub F] [Mul F] : Mul (ComplexPair F) :=
  ⟨fun x y => ⟨x.re * y.re - x.im * y.im, x.re * y.im + x.im * y.re⟩⟩

/-- Squared modulus. -/
def normSq [Add F] [Mul F] (x : ComplexPair F) : F :=
  x.re * x.re + x.im * x.im

instance [Add F] [Sub F] [Mul F] [Div F] : Div (ComplexPair F) :=
  ⟨fun x y =>
    ⟨(x.re * y.re + x.im * y.im) / y.normSq, (x.im * y.re - x.re * y.im) / y.normSq⟩⟩

instance [BEq F] : BEq (ComplexPair F) := ⟨fun x y => x.re == y.re && x.im == y.im⟩

/-- The imaginary part with the opposite sign. -/
def conj [Neg F] (x : ComplexPair F) : ComplexPair F :=
  ⟨x.re, -x.im⟩

end ComplexPair

end DomainDecomposition
