import DomainDecomposition.Block

/-!
# Block kernels on longer arrays

The kernels of `Block` produce arrays of exactly the size of a block or a block row. Here they act
on the leading entries of arrays that may be longer, and the entries behind are kept. An array that
is too short is an access out of range.
-/

namespace DomainDecomposition.Block.Leading

variable {T : Type}

/-- Fail unless an array has at least `size` entries. -/
def require (size : Nat) (xs : Array T) : Except Error Unit :=
  if size ≤ xs.size then .ok () else .error .outOfRange

variable [Zero T] [Add T] [Mul T]

/-- `y = a · x` on the first `b` entries of `y`. -/
def mulVec (b : Nat) (a x y : Array T) : Except Error (Array T) := do
  require (b * b) a
  require b y
  return Span.overwrite y 0 (Block.mulVec b a x)

/-- `y += a · x` on the first `b` entries of `y`. -/
def addMulVec (b : Nat) (a x y : Array T) : Except Error (Array T) := do
  require (b * b) a
  require b y
  return Span.overwrite y 0 (Block.addMulVec b a x (y.extract 0 b))

/-- `y -= a · x` on the first `b` entries of `y`. -/
def subMulVec [Sub T] (b : Nat) (a x y : Array T) : Except Error (Array T) := do
  require (b * b) a
  require b y
  return Span.overwrite y 0 (Block.subMulVec b a x (y.extract 0 b))

/-- `d = a · c` on the first `b * b` entries of `d`. -/
def mul (b : Nat) (a c d : Array T) : Except Error (Array T) := do
  require (b * b) a
  require (b * b) c
  require (b * b) d
  return Span.overwrite d 0 (Block.mul b a c)

end DomainDecomposition.Block.Leading
