import DomainDecomposition.BlockMatrix.Basic
import DomainDecomposition.BlockMatrix.Product
import DomainDecomposition.BlockMatrix.Solve

/-!
# Products and solves

The kernels of a `View`, guarded by the length and pattern tests that make them safe. The output
vector is the state of the operation: it is written only after every test has passed.
-/

namespace DomainDecomposition.BlockMatrix

variable {T : Type}

/-- The input has the width of the matrix and the output its height. -/
def checkVectors (a : BlockMatrix T) (x y : Array T) : Except Error Unit := do
  checkSize (a.columnCount * a.blockSize) x.size
  checkSize (a.rowCount * a.blockSize) y.size

variable [Zero T] [Add T] [Mul T]

/-! ## Products -/

/-- `y = A · x`. -/
def mult (a : BlockMatrix T) (x : Array T) : Update (Array T) Unit := do
  a.checkVectors x (← get)
  Update.replace (a.view.mult x)

/-- `z = A · x + y`. -/
def multAdd (a : BlockMatrix T) (x y : Array T) : Update (Array T) Unit := do
  a.checkVectors x y
  checkLength y.size (← get).size
  Update.replace (a.view.multAdd x y)

/-- `y += A · x`. -/
def multAddInPlace (a : BlockMatrix T) (x : Array T) : Update (Array T) Unit := do
  a.checkVectors x (← get)
  Update.replace (a.view.multAddInPlace x)

variable [Sub T]

/-- `c += alpha · a · b` on the stored positions of `c`. -/
def addProduct [One T] [Neg T] [BEq T] (alpha : T) (a b : BlockMatrix T) :
    Update (BlockMatrix T) Unit := do
  let c ← get
  if a.blockSize ≠ c.blockSize ∨ b.blockSize ≠ c.blockSize then
    throw (.incompatibleOperand .blockSizes)
  if a.rowCount ≠ c.rowCount ∨ a.columnCount ≠ b.rowCount ∨ b.columnCount ≠ c.columnCount then
    throw (.incompatibleOperand
      (.product a.rowCount a.columnCount b.rowCount b.columnCount c.rowCount c.columnCount))
  Update.replace fun c => do
    return { c with values := ← View.addProduct alpha a.view b.view c.view }

/-! ## Solves -/

/-- `y = L⁻¹ · x`. -/
def applyLower (a : BlockMatrix T) (x : Array T) : Update (Array T) Unit := do
  let _ ← a.requireDiagonal
  a.checkVectors x (← get)
  Update.replace fun _ => a.view.solveLower x

/-- `y = U⁻¹ · x`. -/
def applyUpper (a : BlockMatrix T) (x : Array T) : Update (Array T) Unit := do
  let _ ← a.requireDiagonal
  a.checkVectors x (← get)
  Update.replace fun _ => a.view.solveUpper x

/-- `y = U⁻¹ · L⁻¹ · x`. -/
def applyFactor (a : BlockMatrix T) (x : Array T) : Update (Array T) Unit := do
  let _ ← a.requireDiagonal
  a.checkVectors x (← get)
  Update.replace fun _ => do a.view.solveUpper (← a.view.solveLower x)

/-- A vector of the rows from `offset` on. -/
def checkTrailing (a : BlockMatrix T) (offset : Nat) (x : Array T) : Except Error Unit := do
  let _ ← a.requireDiagonal
  if a.rowCount < offset then throw (.config (.offsetRange offset a.rowCount))
  checkSize ((a.rowCount - offset) * a.blockSize) x.size

/-- Lower solve of the rows from `offset` on, in place. -/
def applyLowerFrom (a : BlockMatrix T) (offset : Nat) : Update (Array T) Unit := do
  a.checkTrailing offset (← get)
  Update.replace (a.view.solveLowerFrom offset)

/-- Upper solve of the rows from `offset` on, in place. -/
def applyUpperFrom (a : BlockMatrix T) (offset : Nat) : Update (Array T) Unit := do
  a.checkTrailing offset (← get)
  Update.replace (a.view.solveUpperFrom offset)

/-- Upper solve of the rows before `offset` of a full vector, in place. -/
def applyUpperBefore (a : BlockMatrix T) (offset : Nat) : Update (Array T) Unit := do
  let _ ← a.requireDiagonal
  checkSize (a.rowCount * a.blockSize) (← get).size
  Update.replace (a.view.solveUpperBefore offset)

end DomainDecomposition.BlockMatrix
