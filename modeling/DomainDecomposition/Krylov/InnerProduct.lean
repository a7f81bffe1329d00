import DomainDecomposition.Scalar

/-!
# Inner products of distributed vectors

Every rank sums over its own entries, and one reduction adds the partial sums. The left operand of
a product is conjugated. A complex sum travels as its two parts.
-/

namespace DomainDecomposition.InnerProduct

variable {T R : Type} {m : Type → Type} [Monad m]
variable [Zero T] [Add T] [Mul T] [Zero R] [Scalar T R]

/-- `Σ conj x · y` for two vectors of one length. There is no product of other vectors, and no
caller asks for one. -/
def ownDot (x y : Array T) : T :=
  (x.zip y).foldl (fun sum (a, b) => sum + Scalar.conj a * b) 0

/-- The product of two distributed vectors. `reduce` adds lists of numbers over all ranks. -/
def dot (reduce : Array R → m (Array R)) (x y : Array T) : m T := do
  let own := ownDot x y
  if Scalar.isComplex T then
    let parts ← reduce #[Scalar.re own, Scalar.im own]
    return Scalar.ofParts (parts.getD 0 0) (parts.getD 1 0)
  else
    let parts ← reduce #[Scalar.re own]
    return Scalar.ofReal (parts.getD 0 0)

/-- `Σ |x|²` over the entries of one rank. -/
def ownNormSq [Add R] (x : Array T) : R :=
  x.foldl (fun sum v => sum + Scalar.modulusSq v) 0

/-- The Euclidean norm of a distributed vector. -/
def norm [Add R] [Magnitude R] (reduce : Array R → m (Array R)) (x : Array T) : m R := do
  let parts ← reduce #[ownNormSq x]
  return Magnitude.sqrt (parts.getD 0 0)

end DomainDecomposition.InnerProduct
