import DomainDecomposition.Distributed.Basic

/-!
# Stored positions in global numbering

The positions that a rank stores are written as a plot file: one zone for the diagonal piece, and
one for the off-diagonal piece when it stores anything. Each line holds the global row and the
global column of one block.
-/

namespace DomainDecomposition

/-- A stored block, by its global row and column. -/
structure GlobalPosition where
  row : Nat
  column : Nat
  deriving DecidableEq

namespace GlobalPosition

/-- One line per position. -/
def lines (positions : List GlobalPosition) : String :=
  String.join (positions.map fun p => s!"{p.row} {p.column}\n")

end GlobalPosition

namespace BlockMatrix

variable {T : Type}

/-- The stored positions, row by row, with rows and columns renamed. -/
def globalPositions (a : BlockMatrix T) (row : Nat → Nat) (column : Nat → Except Error Nat) :
    Except Error (List GlobalPosition) := do
  let rows ← (List.range a.rowCount).mapM fun i => do
    (← rowColumns a.rowStart a.columns i).mapM fun c => do
      return { row := row i, column := ← column c }
  return rows.flatten

/-- The plot file of a diagonal piece and an off-diagonal piece. The rows of the latter start
`interior` rows after `first`, the first owned row, and its columns are those of the `remote`
blocks. -/
def patternText (rank first interior : Nat) (remote : List Nat)
    (diagonal offDiagonal : BlockMatrix T) : Except Error String := do
  let own ← diagonal.globalPositions (· + first) fun c => .ok (c + first)
  let head := "VARIABLES = \"i\", \"j\" \n" ++ s!"ZONE T = \"Diagonal block {rank}\"\n" ++
    GlobalPosition.lines own
  if offDiagonal.blockCount = 0 then return head
  let coupling ← offDiagonal.globalPositions (· + interior + first)
    fun c => Span.item remote.toArray c
  return head ++ s!"ZONE T = \"Off-diagonal block {rank}\"\n" ++ GlobalPosition.lines coupling

end BlockMatrix

namespace DistributedMatrix

variable {T : Type}

/-- The plot file of a distributed matrix. -/
def patternText (store : Store T) (a : DistributedMatrix T) : Except Error String := do
  BlockMatrix.patternText a.partition.rank (← a.partition.range).1 a.layout.interior
    a.table.blocks (store.get a.diagonal) (store.get a.offDiagonal)

end DistributedMatrix

end DomainDecomposition
