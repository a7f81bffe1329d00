import DomainDecomposition.Bisection
import DomainDecomposition.BlockMatrix.View
import DomainDecomposition.Offsets

/-!
# Block matrices in compressed rows

A `BlockMatrix` owns a pattern, fixed at construction, and the blocks attached to it. `ofValues`
checks everything that the kernels rely on: the row pointer runs from zero to the number of entries
without a descent, the columns of each row ascend strictly and stay in range, and the values fill
the stored blocks exactly.

The positions of the diagonal entries are kept beside the pattern when the matrix is square and
every row stores its diagonal entry.
-/

namespace DomainDecomposition

/-- A block matrix in compressed rows. -/
structure BlockMatrix (T : Type) where
  blockSize : Nat
  rowCount : Nat
  columnCount : Nat
  rowStart : Array Nat
  columns : Array Nat
  values : Array T
  /-- Position of each row's diagonal entry; empty when the pattern lacks one. -/
  diagonal : Array Nat
  /-- Inverted diagonal blocks for the relaxation sweeps; empty until they are computed. -/
  invertedDiagonal : Array T

namespace BlockMatrix

variable {T : Type}

/-- The matrix without rows and columns. -/
def empty : BlockMatrix T where
  blockSize := 1
  rowCount := 0
  columnCount := 0
  rowStart := #[0]
  columns := #[]
  values := #[]
  diagonal := #[]
  invertedDiagonal := #[]

instance : Inhabited (BlockMatrix T) := ⟨empty⟩

/-! ## Construction -/

/-- Every number is larger than the one before it. -/
def strictlyAscending : List Nat → Bool
  | a :: b :: rest => a < b && strictlyAscending (b :: rest)
  | _ => true

/-- The columns of row `i`. -/
def rowColumns (rowStart columns : Array Nat) (i : Nat) : Except Error (List Nat) := do
  let start ← Span.item rowStart i
  return (← Span.between columns start (← Span.item rowStart (i + 1))).toList

/-- The row pointer has one offset more than there are rows, and goes from zero to the number of
entries. -/
def checkEnds (rowCount : Nat) (rowStart columns : Array Nat) : Except Error Unit := do
  let shape := Error.config (.rowPointerShape rowStart.size rowCount columns.size)
  Capacity.compare (rowCount + 1) rowStart.size shape
  if rowStart[0]? = some 0 ∧ rowStart[rowCount]? = some columns.size then .ok () else .error shape

/-- The row pointer never descends and never passes the number of entries. -/
def checkOrder (rowCount : Nat) (rowStart columns : Array Nat) : Except Error Unit :=
  (List.range rowCount).forM fun i => do
    let start ← Span.item rowStart i
    let stop ← Span.item rowStart (i + 1)
    if start ≤ stop ∧ stop ≤ columns.size then .ok ()
    else .error (.config (.rowPointerOrder columns.size i))

/-- The columns of row `i` ascend strictly and stay below the number of columns. -/
def checkRow (columnCount : Nat) (rowStart columns : Array Nat) (i : Nat) : Except Error Unit := do
  let row ← rowColumns rowStart columns i
  if !strictlyAscending row then throw (.config (.columnOrder i))
  if row.getLast?.any (columnCount ≤ ·) then throw (.config (.columnRange i columnCount))

/-- Everything that must hold of a pattern. -/
def checkPattern (blockSize rowCount columnCount : Nat) (rowStart columns : Array Nat) :
    Except Error Unit := do
  if blockSize = 0 then throw (.config .zeroBlockSize)
  checkEnds rowCount rowStart columns
  checkOrder rowCount rowStart columns
  (List.range rowCount).forM (checkRow columnCount rowStart columns)

/-- Positions of the diagonal entries, or none at all when some row lacks its own. -/
def locateDiagonal (rowCount columnCount : Nat) (rowStart columns : Array Nat) :
    Except Error (Array Nat) := do
  if rowCount ≠ columnCount then return #[]
  let found ← (List.range rowCount).mapM fun i => do
    let start ← Span.item rowStart i
    let row ← rowColumns rowStart columns i
    return (Bisection.search row.toArray i).map (start + ·)
  return ((found.mapM id : Option (List Nat)).getD []).toArray

/-- Wrap existing arrays after checking them. -/
def ofValues (blockSize rowCount columnCount : Nat) (rowStart columns : Array Nat)
    (values : Array T) : Except Error (BlockMatrix T) := do
  checkPattern blockSize rowCount columnCount rowStart columns
  checkSize (columns.size * blockSize * blockSize) values.size
  let diagonal ← locateDiagonal rowCount columnCount rowStart columns
  return { blockSize, rowCount, columnCount, rowStart, columns, values, diagonal,
           invertedDiagonal := #[] }

/-- The zero matrix on a pattern. Its values are made before the pattern is checked. -/
def ofPattern [Zero T] (blockSize rowCount columnCount : Nat) (rowStart columns : Array Nat) :
    Except Error (BlockMatrix T) := do
  let values ← Block.allocate (columns.size * blockSize * blockSize)
  ofValues blockSize rowCount columnCount rowStart columns values

/-! ## Reading -/

/-- Number of stored blocks. -/
def blockCount (a : BlockMatrix T) : Nat :=
  a.columns.size

/-- The matrix as the kernels read it. -/
def view (a : BlockMatrix T) : View T where
  blockSize := a.blockSize
  rowCount := a.rowCount
  rowStart := a.rowStart
  columns := a.columns
  diagonal := a.diagonal
  values := a.values

/-- Positions of the diagonal entries, if every row stores its own. -/
def diagonal? (a : BlockMatrix T) : Option (Array Nat) :=
  if a.diagonal.size = a.rowCount ∧ a.rowCount = a.columnCount then some a.diagonal else none

/-- Fail unless every diagonal block is stored. -/
def requireDiagonal (a : BlockMatrix T) : Except Error (Array Nat) :=
  match a.diagonal? with
  | some diagonal => .ok diagonal
  | none => .error (.config .diagonalMissing)

/-- Position of the block in row `i` and column `j`, if it is stored. -/
def position? (a : BlockMatrix T) (i j : Nat) : Option Nat := do
  let start ← a.rowStart[i]?
  let stop ← a.rowStart[i + 1]?
  let k ← Bisection.search (a.columns.extract start stop) j
  return start + k

/-- The stored block in row `i` and column `j`. -/
def block? (a : BlockMatrix T) (i j : Nat) : Option (Array T) :=
  (a.position? i j).map fun k =>
    a.values.extract (k * (a.blockSize * a.blockSize)) ((k + 1) * (a.blockSize * a.blockSize))

/-- Overwrite a block if it is stored, and say whether it is. -/
def setBlock (i j : Nat) (block : Array T) : Update (BlockMatrix T) Bool :=
  Update.ofFunction fun a =>
    match a.position? i j with
    | none => (.ok false, a)
    | some k =>
      if block.size = a.blockSize * a.blockSize then
        (.ok true,
          { a with values := Span.overwrite a.values (k * (a.blockSize * a.blockSize)) block })
      else (.error .outOfRange, a)

end BlockMatrix

end DomainDecomposition
