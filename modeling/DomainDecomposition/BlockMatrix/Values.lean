import DomainDecomposition.BlockMatrix.Basic

/-!
# Operations on the values

The pattern of a matrix never changes; these operations change the blocks on it. A second operand
must have the same shape and only positions that the receiver stores, which `positionsOf` checks
before anything is written.
-/

namespace DomainDecomposition.BlockMatrix

variable {T : Type}

/-- Every stored scalar becomes zero. -/
def zeroEntries [Zero T] (a : BlockMatrix T) : BlockMatrix T :=
  { a with values := a.values.map fun _ => 0 }

/-- Every stored scalar is multiplied by `alpha`. -/
def scale [Mul T] (alpha : T) (a : BlockMatrix T) : BlockMatrix T :=
  { a with values := a.values.map (· * alpha) }

/-! ## Two operands -/

/-- Positions in `a` of the entries of row `i` of another matrix. -/
def positionsOfRow (a other : BlockMatrix T) (i : Nat) : Except Error (List Nat) := do
  (← rowColumns other.rowStart other.columns i).mapM fun c =>
    match a.position? i c with
    | some k => .ok k
    | none => .error (.incompatibleOperand (.position i c))

/-- Positions in `a` of all entries of another matrix. It must have the same shape, and its pattern
must be contained in that of `a`. -/
def positionsOf (a other : BlockMatrix T) : Except Error (List Nat) := do
  if (a.blockSize, a.rowCount, a.columnCount) ≠
      (other.blockSize, other.rowCount, other.columnCount) then
    throw (.incompatibleOperand (.shape other.rowCount other.columnCount other.blockSize
      a.rowCount a.columnCount a.blockSize))
  return (← (List.range a.rowCount).mapM (a.positionsOfRow other)).flatten

/-- Whether another matrix could be copied or added into this one. -/
def checkOperand (a other : BlockMatrix T) : Except Error Unit := do
  let _ ← a.positionsOf other
  return ()

/-- Add `alpha` times block `k` of `other` at the `k`-th of the listed positions. -/
def addBlocks [Add T] [Mul T] (alpha : T) (other : BlockMatrix T) (positions : List Nat)
    (a : BlockMatrix T) : Except Error (BlockMatrix T) := do
  let size := a.blockSize * a.blockSize
  let values ← positions.zipIdx.foldlM (fun values (target, k) => do
    let source ← other.view.block k
    let old ← Span.run values (target * size) size
    return Span.overwrite values (target * size)
      (Array.zipWith (fun d s => d + alpha * s) old source)) a.values
  return { a with values }

variable [Zero T] [One T] [Add T] [Mul T]

/-- Take over the values of `other`; entries that it lacks become zero. -/
def copyValues (other : BlockMatrix T) : Update (BlockMatrix T) Unit := do
  let positions ← (← get).positionsOf other
  modify zeroEntries
  Update.replace (addBlocks 1 other positions)

/-- `a += alpha · x`. -/
def axpy (alpha : T) (x : BlockMatrix T) : Update (BlockMatrix T) Unit := do
  let positions ← (← get).positionsOf x
  Update.replace (addBlocks alpha x positions)

/-- `a = alpha · x + beta · a`. -/
def axpby (alpha beta : T) (x : BlockMatrix T) : Update (BlockMatrix T) Unit := do
  let positions ← (← get).positionsOf x
  modify (scale beta)
  Update.replace (addBlocks alpha x positions)

/-! ## Diagonal and rows -/

/-- Add `alpha` to every scalar on the diagonal. -/
def addDiagonal (alpha : T) : Update (BlockMatrix T) Unit := do
  let diagonal ← (← get).requireDiagonal
  Update.replace fun a => do
    let b := a.blockSize
    let values ← diagonal.toList.foldlM (fun values k =>
      (List.range b).foldlM (fun values v => do
        let old ← Span.item values ((k * b + v) * b + v)
        return values.setIfInBounds ((k * b + v) * b + v) (old + alpha)) values) a.values
    return { a with values }

/-- Clear the listed scalar rows of entry `k`. On the diagonal entry, leave a one in each. -/
def clearEntryRows (b k : Nat) (components : List Nat) (onDiagonal : Bool) (values : Array T) :
    Except Error (Array T) :=
  components.foldlM (fun values v => do
    let start := (k * b + v) * b
    let _ ← Span.run values start b
    let cleared := Span.overwrite values start (Block.zeros b)
    return if onDiagonal then cleared.setIfInBounds (start + v) 1 else cleared) values

/-- Clear the scalar rows `components` of block row `row`. With `identity`, each of them becomes a
row of the identity, provided that the diagonal block is stored. -/
def zeroRow (row : Nat) (components : List Nat) (identity : Bool) :
    Update (BlockMatrix T) Unit := do
  let a ← get
  if a.rowCount ≤ row then throw (.config (.rowRange row a.rowCount))
  if let some v := components.find? (a.blockSize ≤ ·) then
    throw (.config (.variableRange v a.blockSize))
  let diagonal := if identity then a.position? row row else none
  Update.replace fun a => do
    let start ← Span.item a.rowStart row
    let stop ← Span.item a.rowStart (row + 1)
    let values ← (List.range' start (stop - start)).foldlM (fun values k =>
      clearEntryRows a.blockSize k components (diagonal == some k) values) a.values
    return { a with values }

end DomainDecomposition.BlockMatrix
