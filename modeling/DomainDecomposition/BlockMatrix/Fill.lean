import DomainDecomposition.BlockMatrix.Basic

/-!
# Level-of-fill patterns

`fillPattern` finds where an incomplete factorization of level `k` may store blocks. Stored
positions have level zero. Eliminating entry `(i, j)` with row `j` can create an entry `(i, k)`,
whose level is one more than the levels of `(i, j)` and `(j, k)` together; it is kept when that is
at most the chosen level. The diagonal is always present.

Rows are processed in order. The levels of the row at hand live in a work row with one place for
every column. Whoever asks for a pattern also says by what factor the number of blocks will grow;
the factor plays no part in the pattern, but there must be room for what it announces.
-/

namespace DomainDecomposition.BlockMatrix

variable {T R : Type}

/-- Levels of one row, by column; `none` where nothing is stored. -/
abbrev Levels : Type :=
  Array (Option Nat)

/-- Record an entry of level `level`, unless its column has a lower level already. -/
def Levels.lower (levels : Levels) (column level : Nat) : Levels :=
  levels.modify column fun
    | none => some level
    | some old => some (min old level)

/-- Levels of row `i` of the pattern itself, with the diagonal added. -/
def initialLevels (a : BlockMatrix T) (i : Nat) : Except Error Levels := do
  let columns ← rowColumns a.rowStart a.columns i
  return (columns ++ [i]).foldl (fun levels c => levels.lower c 0)
    (Array.replicate a.rowCount none)

/-- Fill caused by eliminating column `j`: `upper` lists the entries right of the diagonal of the
finished row `j`, with their levels. -/
def fillFrom (limit j : Nat) (upper : List (Nat × Nat)) (levels : Levels) : Levels :=
  match levels[j]?.join with
  | none => levels
  | some own =>
    upper.foldl (fun levels (k, level) =>
      if own + level + 1 ≤ limit then levels.lower k (own + level + 1) else levels) levels

/-- Stored columns of a work row with their levels, ascending. -/
def Levels.entries (levels : Levels) : List (Nat × Nat) :=
  (List.range levels.size).filterMap fun c => levels[c]?.join.map fun level => (c, level)

/-- Entries of row `i` with their levels, given those of the rows above. -/
def filledRow (limit : Nat) (a : BlockMatrix T) (above : Array (List (Nat × Nat))) (i : Nat) :
    Except Error (List (Nat × Nat)) := do
  let levels ← a.initialLevels i
  return ((List.range i).foldl (fun levels j =>
    fillFrom limit j ((above.getD j []).filter (j < ·.1)) levels) levels).entries

/-- Entries of all rows with their levels. -/
def filledRows (limit : Nat) (a : BlockMatrix T) : Except Error (List (List (Nat × Nat))) := do
  let rows ← (List.range a.rowCount).foldlM (fun above i => do
    return above.push (← filledRow limit a above i)) #[]
  return rows.toList

/-- Fail unless there is room for the columns of a pattern with `growth` times as many blocks as
`a`. A growth below one, or one that is no number, counts as one. -/
def reserveGrowth [One R] [Mul R] [LE R] [DecidableLE R] [Magnitude R] (a : BlockMatrix T)
    (growth : R) : Except Error Unit :=
  if Magnitude.ofNat Capacity.limit ≤
      Magnitude.ofNat (max a.blockCount a.rowCount) * Magnitude.larger growth 1 then
    .error .tooLarge
  else .ok ()

/-- The zero matrix on the level-of-fill pattern of `a`, which is expected to store `growth` times
as many blocks as `a`. -/
def fillPattern [Zero T] [One R] [Mul R] [LE R] [DecidableLE R] [Magnitude R]
    (a : BlockMatrix T) (limit : Nat) (growth : R) : Except Error (BlockMatrix T) := do
  if a.rowCount ≠ a.columnCount then
    throw (.config (.fillNotSquare a.rowCount a.columnCount))
  a.reserveGrowth growth
  let rows ← a.filledRows limit
  ofPattern a.blockSize a.rowCount a.rowCount (Offsets.ofLengths (rows.map List.length))
    (rows.flatten.map Prod.fst).toArray

end DomainDecomposition.BlockMatrix
