import DomainDecomposition.BlockMatrix.Basic

/-!
# Assembly from triplets

A matrix may be given as a list of blocks with their rows and columns. Blocks given for the same
position are summed in the order of the list, starting at zero, and each row ends up sorted by
column.
-/

namespace DomainDecomposition

/-- A block with its row and column. -/
structure Triplet (T : Type) where
  row : Nat
  column : Nat
  block : Array T

namespace Entries

variable {T : Type} [Add T]

/-- Add a block at `column`, keeping the columns in ascending order. A new position starts at
`zero`. -/
def addAt (zero : Array T) (column : Nat) (block : Array T) : Entries T → Entries T
  | [] => [(column, Array.zipWith (· + ·) zero block)]
  | (c, old) :: rest =>
    if c < column then (c, old) :: addAt zero column block rest
    else if c = column then (c, Array.zipWith (· + ·) old block) :: rest
    else (column, Array.zipWith (· + ·) zero block) :: (c, old) :: rest

end Entries

namespace BlockMatrix

variable {T : Type} [Zero T] [Add T]

/-- Put one triplet into its row. -/
def addTriplet (blockSize rowCount columnCount : Nat) (rows : Array (Entries T))
    (t : Triplet T) : Except Error (Array (Entries T)) := do
  checkSize (blockSize * blockSize) t.block.size
  if t.row < rowCount ∧ t.column < columnCount then
    return rows.modify t.row
      (Entries.addAt (Block.zeros (blockSize * blockSize)) t.column t.block)
  else throw (.config (.blockRange t.row t.column rowCount columnCount))

/-- Build a matrix from triplets. There must be room for the rows before anything is checked. -/
def ofTriplets (blockSize rowCount columnCount : Nat) (triplets : List (Triplet T)) :
    Except Error (BlockMatrix T) := do
  Capacity.reserve rowCount
  let rows ← triplets.foldlM (addTriplet blockSize rowCount columnCount)
    (Array.replicate rowCount [])
  let rows := rows.toList
  ofValues blockSize rowCount columnCount (Offsets.ofLengths (rows.map List.length))
    (rows.flatMap fun row => row.map Prod.fst).toArray (Entries.scalars rows.flatten)

end BlockMatrix

end DomainDecomposition
