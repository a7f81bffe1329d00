import DomainDecomposition.BlockMatrix.Basic

/-!
# Block factorization on the stored pattern

`factor` overwrites a matrix with its incomplete factors: left of the diagonal the lower factor,
whose unit diagonal is implied, right of it the upper factor, and on the diagonal the inverse of
each pivot block. Updates that fall outside the pattern are dropped.

Row `i` is finished before row `i + 1` is touched. Its entries left of the diagonal are taken in
order: entry `(i, j)` is multiplied by the inverted pivot of row `j`, and then that multiple of the
finished row `j` is subtracted from the rest of row `i`.
-/

namespace DomainDecomposition

variable {T R : Type} [Zero T] [One T] [Add T] [Sub T] [Mul T] [Div T] [BEq T]

namespace View

omit [One T] [Div T] [BEq T] in
/-- Eliminate the first `count` entries of a row, given the finished rows of `a`. -/
def eliminate (a : View T) : Nat → Entries T → Except Error (Entries T)
  | 0, row => .ok row
  | _ + 1, [] => .error .outOfRange
  | count + 1, (j, block) :: rest => do
    let b := a.blockSize
    let multiplier := Block.mul b block (← a.diagonalBlock j)
    let rest := Entries.mergeRow
      (fun source old => Block.accumulate b .minus multiplier source old)
      (← a.rightOfDiagonal j) rest
    return (j, multiplier) :: (← a.eliminate count rest)

end View

variable [Zero R] [One R] [Neg R] [Mul R] [LT R] [DecidableLT R] [LE R] [DecidableLE R] [BEq R]
variable [Magnitude R] [Scalar T R]

namespace BlockMatrix

/-- Values of row `i` after elimination, and the offset of its diagonal entry. -/
def eliminatedRow (a : BlockMatrix T) (i : Nat) : Except Error (Array T × Nat) := do
  let start ← Span.item a.rowStart i
  let diagonal ← Span.item a.diagonal i
  let row ← a.view.eliminate (diagonal - start) (← a.view.row i)
  return (Entries.scalars row, diagonal - start)

/-- Finish row `i`, given that the rows above are finished. When the pivot block is singular, the
row keeps what the elimination and the attempted inversion have made of it. -/
def factorRow (i : Nat) : Update (BlockMatrix T) Unit := do
  let a ← get
  let (row, offset) ← a.eliminatedRow i
  let size := a.blockSize * a.blockSize
  let start ← Span.item a.rowStart i
  let pivot ← Span.run row (offset * size) size
  let (result, inverse) := (Block.invert a.blockSize i).on pivot
  set { a with
    values := Span.overwrite a.values (start * size) (Span.overwrite row (offset * size) inverse) }
  result

/-- Factor in place. A singular pivot block stops the factorization at its row. A multiplier is kept
aside, so there must be room for one block, also when there is no row. -/
def factor : Update (BlockMatrix T) Unit := do
  let _ ← (← get).requireDiagonal
  Capacity.reserve ((← get).blockSize * (← get).blockSize)
  (List.range (← get).rowCount).forM factorRow

/-- The inverted diagonal blocks, row after row. -/
def invertDiagonal (a : BlockMatrix T) (diagonal : List Nat) : Except Error (Array T) :=
  diagonal.zipIdx.foldlM (fun inverted (k, i) => do
    let (result, inverse) := (Block.invert a.blockSize i).on (← a.view.block k)
    result
    return inverted ++ inverse) #[]

/-- Invert the diagonal blocks into the cache of the relaxation sweeps. -/
def factorDiagonal : Update (BlockMatrix T) Unit := do
  let diagonal ← (← get).requireDiagonal
  Update.replace fun a => do
    return { a with invertedDiagonal := ← a.invertDiagonal diagonal.toList }

end BlockMatrix

end DomainDecomposition
