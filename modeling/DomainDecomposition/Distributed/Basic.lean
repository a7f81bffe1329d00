import DomainDecomposition.BlockMatrix.Operator
import DomainDecomposition.Dirichlet
import DomainDecomposition.Halo.Link
import DomainDecomposition.Store

/-!
# Row-distributed matrices

A rank owns consecutive block rows of a global matrix, stored in two pieces. The square diagonal
piece couples the owned blocks with one another. The off-diagonal piece couples the trailing
owned rows, the interface, to the remote blocks that a table lists; interior rows have no remote
blocks. Both pieces live in the store of the rank and may be shared.

`mult` is the product with a distributed vector: the exchange of interface values goes on while the
diagonal piece is multiplied.
-/

namespace DomainDecomposition

/-- One rank's part of a row-distributed matrix. -/
structure DistributedMatrix (T : Type) where
  partition : RowPartition
  diagonal : Handle
  offDiagonal : Handle
  table : Table T
  constraints : Option (Constraints T)
  halo : Halo T
  layout : Layout

namespace DistributedMatrix

variable {T R : Type}

/-- The layout of two pieces that fit together, the partition and the table. -/
def layoutOf (partition : RowPartition) (diagonal offDiagonal : BlockMatrix T)
    (remote : Nat) : Except Error Layout := do
  let owned := diagonal.rowCount
  if owned ≠ diagonal.columnCount then
    throw (.config (.diagonalNotSquare owned diagonal.columnCount))
  let interface := offDiagonal.rowCount
  if owned < interface then throw (.config (.interfaceRows interface owned))
  if offDiagonal.columnCount ≠ remote then
    throw (.config (.remoteColumns offDiagonal.columnCount remote))
  if diagonal.blockSize ≠ offDiagonal.blockSize then
    throw (.config (.blockSizes diagonal.blockSize offDiagonal.blockSize))
  let mapped ← partition.localSize
  if mapped ≠ owned then throw (.config (.ownedRows mapped owned))
  return { blockSize := diagonal.blockSize, owned, interface, interior := owned - interface, remote }

/-- Compose a distributed matrix of pieces in the store, checking every dimension. -/
def ofParts [Zero T] (store : Store T) (partition : RowPartition) (diagonal offDiagonal : Handle)
    (table : Table T) (constraints : Option (Constraints T)) :
    Except Error (DistributedMatrix T) := do
  let layout ← layoutOf partition (store.get diagonal) (store.get offDiagonal) table.slots
  let link ← table.link layout.blockSize
  if link.slots ≠ layout.remote ∨ link.blockSize ≠ layout.blockSize then
    throw (.config
      (.linkShape link.slots link.blockSize layout.remote layout.blockSize))
  let halo ← Halo.ofLink link layout.blockSize layout.remote
  return { partition, diagonal, offDiagonal, table, constraints, halo, layout }

/-- Compose a distributed matrix of pieces of its own, which are added to the store. -/
def ofBlocks [Zero T] (partition : RowPartition) (diagonal offDiagonal : BlockMatrix T)
    (table : Table T) (constraints : Option (Constraints T)) :
    Update (Store T) (DistributedMatrix T) := do
  let (first, store) := (← get).add diagonal
  let (second, store) := store.add offDiagonal
  set store
  ofParts store partition first second table constraints

/-- Number of owned scalars, the length of the vectors of this rank. -/
def vectorLength (a : DistributedMatrix T) : Nat :=
  a.layout.blockSize * a.layout.owned

/-- An operation on the part of a vector from position `start` on. -/
def onTail {α : Type} (start : Nat) (u : Update (Array T) α) : Update (Array T) α :=
  u.focus (fun y => y.extract start y.size) fun tail y => y.extract 0 start ++ tail

/-- An operation on the halo of a matrix. -/
def onHalo {α : Type} (c : Collective T R (Halo T) α) : Collective T R (DistributedMatrix T) α :=
  c.focus (·.halo) fun halo a => { a with halo }

/-- `y = A · x`, where the state is the matrix together with `y`. All ranks take part. The exchange
is finished even when the local product has failed. -/
def mult [Zero T] [Add T] [Mul T] (store : Store T) (x : Array T) :
    Collective T R (DistributedMatrix T × Array T) Unit := do
  let (a, y) ← get
  checkSize a.vectorLength x.size
  checkSize a.vectorLength y.size
  let ticket ← (onHalo (Halo.begin x 0)).onFst
  let multiplied ← Collective.attempt (.ofUpdate ((store.get a.diagonal).mult x).onSnd)
  let exchanged ← Collective.attempt (onHalo (Halo.finish ticket)).onFst
  multiplied
  exchanged
  let received := (← get).1.halo.received
  Collective.ofUpdate
    (onTail a.layout.interfaceStart ((store.get a.offDiagonal).multAddInPlace received)).onSnd

end DistributedMatrix

end DomainDecomposition
