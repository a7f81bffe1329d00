import DomainDecomposition.BlockMatrix.Basic

/-!
# Dense copies

`BlockMatrix.toDense` writes the stored blocks into a zero matrix of scalars.
-/

namespace DomainDecomposition

/-- A dense matrix of scalars, row by row. -/
structure DenseMatrix (T : Type) where
  rowCount : Nat
  columnCount : Nat
  values : Array T

namespace DenseMatrix

variable {T : Type} [Zero T]

/-- Entry at row `r` and column `c`. -/
def entry (d : DenseMatrix T) (r c : Nat) : T :=
  d.values.getD (r * d.columnCount + c) 0

end DenseMatrix

namespace BlockMatrix

variable {T : Type} [Zero T]

/-- Write a block into rows of `width` scalars, its corner at row `top` and column `left`. -/
def writeBlock (b width top left : Nat) (block : Array T) (dense : Array T) :
    Except Error (Array T) :=
  (List.range b).foldlM (fun dense r => do
    let line ← Span.run block (r * b) b
    let _ ← Span.run dense ((top + r) * width + left) b
    return Span.overwrite dense ((top + r) * width + left) line) dense

/-- All scalars of the matrix, zero where no block is stored. -/
def toDense (a : BlockMatrix T) : Except Error (DenseMatrix T) := do
  let b := a.blockSize
  let width := a.columnCount * b
  Capacity.checkWord (a.rowCount * b)
  Capacity.checkWord width
  let values ← (List.range a.rowCount).foldlM (fun dense i => do
    (← a.view.row i).foldlM (fun dense (j, block) =>
      writeBlock b width (i * b) (j * b) block dense) dense)
    (← Block.allocate (a.rowCount * b * width))
  return { rowCount := a.rowCount * b, columnCount := width, values }

end BlockMatrix

end DomainDecomposition
