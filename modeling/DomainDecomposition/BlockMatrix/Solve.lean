import DomainDecomposition.Bisection
import DomainDecomposition.BlockMatrix.View

/-!
# Triangular solves through a view

The lower factor has an implied unit diagonal; of the upper factor the diagonal positions hold the
inverted pivots. All solves work in place, and each row reads only rows that are solved already.

A solve may be restricted to the rows from an offset on. Its vector then starts at the row of that
number: block `i` of the matrix is block `i - offset` of the vector.
-/

namespace DomainDecomposition.View

variable {T : Type} [Zero T] [Add T] [Sub T] [Mul T]

/-- `sum - Σ block · x` over the entries of a row, where `read` finds the block of `x` for a
column. -/
def subtractRow (b : Nat) (read : Nat → Except Error (Array T)) (sum : Array T)
    (row : Entries T) : Except Error (Array T) :=
  row.foldlM (fun sum (j, block) => do return Block.subMulVec b block (← read j) sum) sum

/-! ## Lower solve -/

/-- Solve row `i` with its entries from number `start` up to the diagonal, given the rows above. -/
def solveLowerRow (a : View T) (offset start : Nat) (x : Array T) (i : Nat) :
    Except Error (Array T) := do
  let b := a.blockSize
  let own := (i - offset) * b
  let old ← Span.run x own b
  let above := fun j =>
    if offset ≤ j then Span.runBefore x own ((j - offset) * b) b else .error .outOfRange
  let new ← subtractRow b above old (← a.entries start (← Span.item a.diagonal i))
  return Span.overwrite x own new

/-- `y = L⁻¹ · y`. -/
def solveLower (a : View T) (y : Array T) : Except Error (Array T) :=
  Walk.up (fun y i => do a.solveLowerRow 0 (← Span.item a.rowStart i) y i) (a.rowCount - 1) 1 y

/-- Number of the first entry of row `i` left of the diagonal whose column is at least `offset`. In
a row that is not sorted, it is the entry at which the bisection arrives. -/
def firstFrom (a : View T) (offset i : Nat) : Except Error Nat := do
  let start ← Span.item a.rowStart i
  let left ← Span.between a.columns start (← Span.item a.diagonal i)
  return start + Bisection.boundary (fun k => left.getD k 0 < offset) left.size

/-- Lower solve of the rows from `offset` on; columns below `offset` are ignored. -/
def solveLowerFrom (a : View T) (offset : Nat) (x : Array T) : Except Error (Array T) :=
  Walk.up (fun x i => do a.solveLowerRow offset (← a.firstFrom offset i) x i)
    (a.rowCount - (offset + 1)) (offset + 1) x

/-! ## Upper solve -/

/-- Solve row `i`, given the rows below it. -/
def solveUpperRow (a : View T) (offset : Nat) (x : Array T) (i : Nat) :
    Except Error (Array T) := do
  let b := a.blockSize
  let own := (i - offset) * b
  let old ← Span.run x own b
  let below := fun j => if i < j then Span.run x ((j - offset) * b) b else .error .outOfRange
  let new ← subtractRow b below old (← a.rightOfDiagonal i)
  return Span.overwrite x own (Block.mulVec b (← a.diagonalBlock i) new)

/-- Solve the rows `first, …, last - 1` from the bottom up. The sum of a row is kept aside, so there
must be room for one block. -/
def solveUpperRows (a : View T) (offset first last : Nat) (x : Array T) :
    Except Error (Array T) := do
  Capacity.reserve a.blockSize
  Walk.down (a.solveUpperRow offset) (last - first) first x

/-- `y = U⁻¹ · y`. -/
def solveUpper (a : View T) (y : Array T) : Except Error (Array T) :=
  a.solveUpperRows 0 0 a.rowCount y

/-- Upper solve of the rows from `offset` on. -/
def solveUpperFrom (a : View T) (offset : Nat) (x : Array T) : Except Error (Array T) :=
  a.solveUpperRows offset offset a.rowCount x

/-- Solve the rows before `offset` of a full vector whose remaining rows are solved. -/
def solveUpperBefore (a : View T) (offset : Nat) (x : Array T) : Except Error (Array T) :=
  a.solveUpperRows 0 0 (min offset a.rowCount) x

end DomainDecomposition.View
