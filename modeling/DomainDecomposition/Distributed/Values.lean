import DomainDecomposition.BlockMatrix.Values
import DomainDecomposition.Distributed.Basic

/-!
# Operations on the values of a distributed matrix

Each operation acts on the two pieces in the store. A second operand may share one or both pieces
with the receiver: a shared piece is its own operand and is scaled. An operand that does not fit is
refused before either piece changes.
-/

namespace DomainDecomposition.DistributedMatrix

variable {T : Type}

/-- Every stored scalar becomes zero. -/
def zeroEntries [Zero T] (a : DistributedMatrix T) (store : Store T) : Store T :=
  let store := store.set a.diagonal (store.get a.diagonal).zeroEntries
  store.set a.offDiagonal (store.get a.offDiagonal).zeroEntries

/-- Every stored scalar is multiplied by `alpha`. -/
def scale [Mul T] (alpha : T) (a : DistributedMatrix T) (store : Store T) : Store T :=
  let store := store.set a.diagonal ((store.get a.diagonal).scale alpha)
  store.set a.offDiagonal ((store.get a.offDiagonal).scale alpha)

/-- The pieces of a receiver, each with the piece of the operand that belongs to it. -/
def pairs (a other : DistributedMatrix T) : List (Handle × Handle) :=
  [(a.diagonal, other.diagonal), (a.offDiagonal, other.offDiagonal)]

/-- Whether another distributed matrix could be copied or added into this one. -/
def checkOperand (store : Store T) (a other : DistributedMatrix T) : Except Error Unit := do
  if a.layout ≠ other.layout then
    throw (.incompatibleOperand (.layout other.layout a.layout))
  (a.pairs other).forM fun (target, source) =>
    if target = source then .ok ()
    else (store.get target).checkOperand (store.get source)

variable [Zero T] [One T] [Add T] [Mul T]

/-- Take over the values of `other`. -/
def copyValues (a other : DistributedMatrix T) : Update (Store T) Unit := do
  checkOperand (← get) a other
  (a.pairs other).forM fun (target, source) => do
    if target ≠ source then
      let source := (← get).get source
      Store.onMatrix target (BlockMatrix.copyValues source)

/-- `a = alpha · other + beta · a`. -/
def axpby (alpha beta : T) (a other : DistributedMatrix T) : Update (Store T) Unit := do
  checkOperand (← get) a other
  (a.pairs other).forM fun (target, source) => do
    if target = source then
      Store.onMatrix target (modify (BlockMatrix.scale (alpha + beta)))
    else
      let source := (← get).get source
      Store.onMatrix target (BlockMatrix.axpby alpha beta source)

/-- `a += alpha · other`. -/
def axpy (alpha : T) (a other : DistributedMatrix T) : Update (Store T) Unit :=
  axpby alpha 1 a other

/-- Add `alpha` to every scalar on the diagonal, which only the diagonal piece holds. -/
def addDiagonal (alpha : T) (a : DistributedMatrix T) : Update (Store T) Unit :=
  Store.onMatrix a.diagonal (BlockMatrix.addDiagonal alpha)

/-! ## Boundary conditions -/

/-- Every constraint on an owned block names the right local block, and only components that a
block has. -/
def checkConstraints (a : DistributedMatrix T) (owned : List (Nat × Constraint T)) :
    Except Error Unit := do
  if let some (row, e) := owned.find? fun (row, e) => e.localBlock != row then
    throw (.config (.constraintPlace e.block e.localBlock row))
  let b := a.layout.blockSize
  if let some (_, e) := owned.find? fun (_, e) => e.components.any (b ≤ ·) then
    throw (.config (.constraintVariable e.block b))

/-- Make the constrained rows of the diagonal piece rows of the identity, and clear them in the
off-diagonal piece where they belong to the interface. Constraints are checked before anything
changes. -/
def imposeConstraints (a : DistributedMatrix T) : Update (Store T) Unit := do
  if let some constraints := a.constraints then
    let owned ← constraints.owned a.partition
    a.checkConstraints owned
    owned.forM fun (row, e) => do
      Store.onMatrix a.diagonal (BlockMatrix.zeroRow row e.components true)
      if a.layout.interior ≤ row then
        Store.onMatrix a.offDiagonal
          (BlockMatrix.zeroRow (row - a.layout.interior) e.components false)

end DomainDecomposition.DistributedMatrix
