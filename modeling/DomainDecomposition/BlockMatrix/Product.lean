import DomainDecomposition.BlockMatrix.View

/-!
# Products through a view

Matrix times vector, row by row, and the product of two matrices added onto the stored positions
of a third. Block `j` of a vector is its run of `blockSize` scalars from `j * blockSize` on.
-/

namespace DomainDecomposition.View

variable {T : Type} [Zero T] [Add T] [Mul T]

/-- `sum + Σ block · x` over the entries of a row. -/
def addRow (b : Nat) (x : Array T) (sum : Array T) (row : Entries T) : Except Error (Array T) :=
  row.foldlM (fun sum (j, block) => do
    return Block.addMulVec b block (← Span.run x (j * b) b) sum) sum

/-- Replace block `i` of `y` by what `start` makes of it plus row `i` times `x`. -/
def multiplyRow (a : View T) (start : Array T → Array T) (x y : Array T) (i : Nat) :
    Except Error (Array T) := do
  let b := a.blockSize
  let old ← Span.run y (i * b) b
  let new ← addRow b x (start old) (← a.row i)
  return Span.overwrite y (i * b) new

/-- `y = A · x`. -/
def mult (a : View T) (x y : Array T) : Except Error (Array T) :=
  Walk.up (a.multiplyRow (fun _ => Block.zeros a.blockSize) x) a.rowCount 0 y

/-- `y += A · x`. -/
def multAddInPlace (a : View T) (x y : Array T) : Except Error (Array T) :=
  Walk.up (a.multiplyRow id x) a.rowCount 0 y

/-- `z = A · x + y`. -/
def multAdd (a : View T) (x y z : Array T) : Except Error (Array T) := do
  let n := a.rowCount * a.blockSize
  let head ← Span.run y 0 n
  let _ ← Span.run z 0 n
  a.multAddInPlace x (Span.overwrite z 0 head)

variable [Sub T]

/-- The entries of row `i` as one slice of the columns and one of the values. The ends of both must
be in order and inside, also when the row is empty. -/
def rowSlice (a : View T) (i : Nat) : Except Error (Entries T) := do
  let start ← Span.item a.rowStart i
  let stop ← Span.item a.rowStart (i + 1)
  let size := a.blockSize * a.blockSize
  let _ ← Span.between a.columns start stop
  let _ ← Span.between a.values (start * size) (stop * size)
  a.entries start stop

/-- Row `target` plus the multiple of `row · B`, on the positions that `target` stores. -/
def addRowProduct (b : Nat) (scale : Block.Scale T) (right : View T) (row target : Entries T) :
    Except Error (Entries T) :=
  row.foldlM (fun target (j, left) => do
    return Entries.mergeRow (fun block old => Block.accumulate b scale left block old)
      (← right.rowSlice j) target) target

/-- Add the multiple of row `i` of `A · B` to row `i` of `C`, whose values are given and come back
changed. Where row `i` of `A` is empty, that of `C` is not looked at. -/
def addProductRow (scale : Block.Scale T) (a right c : View T) (values : Array T) (i : Nat) :
    Except Error (Array T) := do
  let b := a.blockSize
  let start ← Span.item c.rowStart i
  let _ ← Span.item c.rowStart (i + 1)
  match ← a.row i with
  | [] => return values
  | row => do
    let target ← rowSlice { c with blockSize := b, values } i
    let target ← addRowProduct b scale { right with blockSize := b } row target
    return Span.overwrite values (start * (b * b)) target.scalars

/-- The values of `c` after `C += alpha · A · B` on the stored positions of `C`. Products on other
positions are dropped. The block size is that of `A`. -/
def addProduct [One T] [Neg T] [BEq T] (alpha : T) (a right c : View T) :
    Except Error (Array T) :=
  Walk.up (addProductRow (.of alpha) a right c) (min a.rowCount c.rowCount) 0 c.values

end DomainDecomposition.View
