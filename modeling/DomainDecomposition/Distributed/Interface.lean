import DomainDecomposition.Distributed.Basic

/-!
# The interface operator

Factoring the diagonal piece of a rank leaves, in its trailing rows and columns, factors `Ls` and
`Us` of a local Schur complement on the interface. The coupled interface problem of all ranks has
the operator `w ↦ w + Us⁻¹ · Ls⁻¹ · F · w_remote`, where `F` is the off-diagonal piece. Its vectors
hold the interface blocks alone, so a rank publishes them from block `interior` on.
-/

namespace DomainDecomposition

/-- One rank's part of the interface operator. -/
structure InterfaceOperator (T : Type) where
  partition : RowPartition
  factors : Handle
  offDiagonal : Handle
  halo : Halo T
  interior : Nat
  /-- Number of interface scalars, the length of the vectors of this rank. -/
  vectorLength : Nat

namespace InterfaceOperator

variable {T R : Type}

/-- The interface operator of a distributed matrix, with the factors of its diagonal piece. All
ranks take part in numbering the interface blocks. -/
def ofMatrix [Zero T] (store : Store T) (a : DistributedMatrix T) (factors : Handle) :
    Program T R (Except Error (InterfaceOperator T)) := do
  let layout := a.layout
  let f := store.get factors
  if f.rowCount ≠ layout.owned ∨ f.columnCount ≠ layout.owned ∨ f.blockSize ≠ layout.blockSize then
    return .error (.config
      (.factorShape f.rowCount f.columnCount f.blockSize layout.owned layout.blockSize))
  let partition ← RowPartition.ofLocalSize a.partition.communicator layout.interface
  return (Halo.ofTable a.table layout.blockSize).map fun halo =>
    { partition
      factors
      offDiagonal := a.offDiagonal
      halo
      interior := layout.interior
      vectorLength := layout.blockSize * layout.interface }

/-- An operation on the halo of an interface operator. -/
def onHalo {α : Type} (c : Collective T R (Halo T) α) : Collective T R (InterfaceOperator T) α :=
  c.focus (·.halo) fun halo op => { op with halo }

variable [Zero T] [Add T] [Mul T]

/-- `y = F · w_remote`, where the state is the operator together with `y`. All ranks take part. -/
def multRemote (store : Store T) (w : Array T) :
    Collective T R (InterfaceOperator T × Array T) Unit := do
  let (op, y) ← get
  checkSize op.vectorLength w.size
  checkSize op.vectorLength y.size
  let ticket ← (onHalo (Halo.begin w op.interior)).onFst
  (onHalo (Halo.finish ticket)).onFst
  let received := (← get).1.halo.received
  Collective.ofUpdate ((store.get op.offDiagonal).mult received).onSnd

/-- `w + Us⁻¹ · Ls⁻¹ · y` in place of `y`. -/
def finishProduct [Sub T] (factors : BlockMatrix T) (interior : Nat) (w : Array T) :
    Update (Array T) Unit := do
  factors.applyLowerFrom interior
  factors.applyUpperFrom interior
  modify fun y => Array.zipWith (· + ·) y w

/-- `y = w + Us⁻¹ · Ls⁻¹ · F · w_remote`. All ranks take part. -/
def mult [Sub T] (store : Store T) (w : Array T) :
    Collective T R (InterfaceOperator T × Array T) Unit := do
  multRemote store w
  let (op, _) ← get
  Collective.ofUpdate (finishProduct (store.get op.factors) op.interior w).onSnd

end InterfaceOperator

end DomainDecomposition
