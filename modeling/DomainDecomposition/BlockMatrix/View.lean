import DomainDecomposition.Block
import DomainDecomposition.Walk

/-!
# Views of block rows

A `View` shows a block matrix in compressed rows as the kernels read it: `rowStart` delimits the
entries of each row, `columns` holds their columns in ascending order, `values` their blocks, and
`diagonal` the position of each row's diagonal entry. Nothing about these arrays has been checked,
so every read through a view may fail, and the number of rows may be
anything.

A row is read as the list of its entries, each a column and a block; `mergeRow` combines two rows
that are sorted by column.
-/

namespace DomainDecomposition

/-- A block matrix in compressed rows, unchecked. -/
structure View (T : Type) where
  blockSize : Nat
  rowCount : Nat
  rowStart : Array Nat
  columns : Array Nat
  diagonal : Array Nat
  values : Array T

/-- Entries of a row: columns and blocks. -/
abbrev Entries (T : Type) : Type :=
  List (Nat × Array T)

namespace Entries

variable {T : Type}

/-- The scalars of the blocks, one block after the other. -/
def scalars (row : Entries T) : Array T :=
  row.foldl (fun acc e => acc ++ e.2) #[]

/-- Update the entries of `target` that share a column with `source`, in the order of the columns.
Entries of `source` without a partner are dropped. -/
def mergeRow (update : Array T → Array T → Array T) : Entries T → Entries T → Entries T
  | [], target => target
  | (k, block) :: source, target =>
    match target.dropWhile (·.1 < k) with
    | [] => target
    | (c, old) :: rest =>
      target.takeWhile (·.1 < k) ++
        mergeRow update source (if c = k then (c, update block old) :: rest else (c, old) :: rest)

end Entries

namespace View

variable {T : Type}

/-- Block number `k`. -/
def block (a : View T) (k : Nat) : Except Error (Array T) :=
  Span.run a.values (k * (a.blockSize * a.blockSize)) (a.blockSize * a.blockSize)

/-- Entry number `k`. -/
def entry (a : View T) (k : Nat) : Except Error (Nat × Array T) := do
  return (← Span.item a.columns k, ← a.block k)

/-- The entries numbered `start, …, stop - 1`. -/
def entries (a : View T) (start stop : Nat) : Except Error (Entries T) :=
  Walk.collect a.entry (stop - start) start

/-- All entries of row `i`. -/
def row (a : View T) (i : Nat) : Except Error (Entries T) := do
  a.entries (← Span.item a.rowStart i) (← Span.item a.rowStart (i + 1))

/-- The entries right of the diagonal of row `i`. -/
def rightOfDiagonal (a : View T) (i : Nat) : Except Error (Entries T) := do
  a.entries ((← Span.item a.diagonal i) + 1) (← Span.item a.rowStart (i + 1))

/-- The diagonal block of row `i`. -/
def diagonalBlock (a : View T) (i : Nat) : Except Error (Array T) := do
  a.block (← Span.item a.diagonal i)

end View

end DomainDecomposition
