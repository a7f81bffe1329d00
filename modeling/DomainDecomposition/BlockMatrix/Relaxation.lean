import DomainDecomposition.BlockMatrix.Basic

/-!
# Relaxation sweeps

A sweep of successive over-relaxation replaces the blocks of `y` one by one: the new block is
`(1 - omega) · old + omega · D⁻¹ · (rhs - Σ A · y)`, where the sum runs over the entries off the
diagonal and uses the blocks of `y` as they stand. A symmetric sweep goes forward and then
backward. The inverted diagonal blocks must have been computed before.
-/

namespace DomainDecomposition.BlockMatrix

variable {T R : Type} [Zero T] [One T] [Add T] [Sub T] [Mul T]

/-- Relax block `i`. -/
def relaxRow (a : BlockMatrix T) (omega : T) (rhs y : Array T) (i : Nat) :
    Except Error (Array T) := do
  let b := a.blockSize
  let right ← Span.run rhs (i * b) b
  let residual ← (← a.view.row i).foldlM (fun sum (j, block) =>
    if j = i then return sum
    else do return Block.subMulVec b block (← Span.run y (j * b) b) sum) right
  let inverse ← Span.run a.invertedDiagonal (i * (b * b)) (b * b)
  let old ← Span.run y (i * b) b
  let new := Array.zipWith (fun o u => (1 - omega) * o + omega * u) old
    (Block.mulVec b inverse residual)
  return Span.overwrite y (i * b) new

/-- Relax the blocks in the given order, `iterations` times over. Without blocks there is nothing to
repeat. -/
def sweeps (a : BlockMatrix T) (omega : T) (order : List Nat) (rhs : Array T) :
    Nat → Array T → Except Error (Array T)
  | 0, y => .ok y
  | iterations + 1, y =>
    if order.isEmpty then .ok y
    else do a.sweeps omega order rhs iterations (← order.foldlM (a.relaxRow omega rhs) y)

/-- The inverted diagonal is there, both vectors have the height of the matrix, and there is room
for the residual of a block. -/
def checkSweep (a : BlockMatrix T) (rhs y : Array T) : Except Error Unit := do
  Capacity.compare (a.rowCount * a.blockSize * a.blockSize) a.invertedDiagonal.size
    (.notFactored .relaxationSweep)
  checkSize (a.rowCount * a.blockSize) rhs.size
  checkSize (a.rowCount * a.blockSize) y.size
  Capacity.reserve a.blockSize

variable [Scalar T R]

/-- Forward sweeps on `A · y = rhs`, starting from the current `y`. -/
def applySor (a : BlockMatrix T) (rhs : Array T) (omega : R) (iterations : Nat) :
    Update (Array T) Unit := do
  a.checkSweep rhs (← get)
  Update.replace (a.sweeps (Scalar.ofReal omega) (List.range a.rowCount) rhs iterations)

/-- Symmetric sweeps on `A · y = rhs`, starting from the current `y`. -/
def applySsor (a : BlockMatrix T) (rhs : Array T) (omega : R) (iterations : Nat) :
    Update (Array T) Unit := do
  a.checkSweep rhs (← get)
  let order := List.range a.rowCount
  Update.replace (a.sweeps (Scalar.ofReal omega) (order ++ order.reverse) rhs iterations)

end DomainDecomposition.BlockMatrix
