import DomainDecomposition.Distributed.Interface
import DomainDecomposition.Distributed.Pattern
import DomainDecomposition.Krylov.Gmres
import DomainDecomposition.Precond.Schwarz

/-!
# Approximate Schur complements

With interior unknowns `u` and interface unknowns `w`, the equations of one rank are
`B · u + E · w = f` and `F · u + C · w + Σ F_remote · w_remote = g`. One application

1. eliminates the interior by the incomplete factors of the diagonal piece,
2. solves the interface problem of all ranks with a few steps of GMRES on the
   `InterfaceOperator`, and
3. recovers the interior by back substitution.

A single process has no interface problem and solves with the factors alone.
-/

namespace DomainDecomposition

/-- The interface problem, present when there are several ranks. -/
structure InterfaceSolve (T R : Type) where
  operator : InterfaceOperator T
  solver : Gmres R

/-- The approximate Schur complement preconditioner of one rank. -/
structure ApproximateSchur (T R : Type) where
  partition : RowPartition
  diagonal : Handle
  offDiagonal : Handle
  table : Table T
  factors : Handle
  layout : Layout
  /-- Added to the diagonal before every factorization. -/
  shift : T
  factored : Bool
  inner : Option (InterfaceSolve T R)
  /-- How the last interface solve ended. -/
  lastSolve : Option (SolveStats R)

namespace ApproximateSchur

variable {T R : Type}

/-- Bounds of the interface solve. -/
structure InnerSettings (R : Type) where
  iterations : Nat
  rtol : R
  atol : R

/-- The preconditioner of a distributed matrix, not factored yet. All ranks take part. -/
def ofMatrix [Zero T] [One R] [Mul R] [LE R] [DecidableLE R] [Magnitude R]
    (a : DistributedMatrix T) (level : Nat) (growth : R) (inner : InnerSettings R) :
    Collective T R (Store T) (ApproximateSchur T R) := do
  let factors ← Collective.ofUpdate (AdditiveSchwarz.allocateFactors a.diagonal level growth)
  let store ← get
  let interfaceSolve ←
    if 1 < a.partition.communicator.size then do
      let made ← Collective.ofProgram (InterfaceOperator.ofMatrix store a factors)
      let operator ← made
      let solver := Gmres.ofSettings inner.iterations inner.iterations inner.rtol inner.atol
      Capacity.reserve operator.vectorLength
      pure (some { operator, solver })
    else pure none
  return {
    partition := a.partition
    diagonal := a.diagonal
    offDiagonal := a.offDiagonal
    table := a.table
    factors
    layout := a.layout
    shift := 0
    factored := false
    inner := interfaceSolve
    lastSolve := none }

/-- The plot file of the factors and the off-diagonal piece. -/
def patternText (store : Store T) (p : ApproximateSchur T R) : Except Error String := do
  BlockMatrix.patternText p.partition.rank (← p.partition.range).1 p.layout.interior
    p.table.blocks (store.get p.factors) (store.get p.offDiagonal)

variable [Zero T] [One T] [Add T] [Sub T] [Neg T] [Mul T] [Div T] [BEq T]
variable [Zero R] [One R] [Neg R] [Add R] [Mul R] [Div R] [BEq R]
variable [LT R] [DecidableLT R] [LE R] [DecidableLE R] [Magnitude R] [Scalar T R]

/-- Factor the current values. -/
def factor : Update (Store T × ApproximateSchur T R) Unit := do
  modify fun (store, p) => (store, { p with factored := false })
  let (_, p) ← get
  (AdditiveSchwarz.refactor p.diagonal p.factors p.shift).onFst
  modify fun (store, p) => (store, { p with factored := true })

/-- Lower solve of all rows, and then upper solve of the interface rows. -/
def eliminateInterior (factors : BlockMatrix T) (layout : Layout) (x : Array T) :
    Update (Array T) Unit := do
  factors.applyLower x
  DistributedMatrix.onTail layout.interfaceStart (factors.applyUpperFrom layout.interior)

/-- Solve the interface problem with right-hand side `right`, starting from zero. The operator is
the state. -/
def solveInterface (store : Store T) (solver : Gmres R) (communicator : Communicator)
    (height : Nat) (right : Array T) :
    Collective T R (InterfaceOperator T) (SolveStats R × Array T) := do
  let system : LinearSystem (Collective T R (InterfaceOperator T)) T R := {
    operator := fun w y => Collective.ofFunction fun op => do
      let (result, op, y) ← (InterfaceOperator.mult store w).on (op, y)
      return (result.map fun _ => y, op)
    precondition := none
    reduce := fun values => Collective.ofProgram (communicator.reduceAll values) }
  solver.solve system height right (right.map fun _ => 0) >>= liftM

/-- The local part of an application, on the output vector. -/
def eliminate (store : Store T) (p : ApproximateSchur T R) (x : Array T) :
    Update (Array T) Unit :=
  if p.factored then eliminateInterior (store.get p.factors) p.layout x
  else throw (.notFactored .approximateSchur)

/-- The application in a world of ranks. Every rank reports whether its elimination has succeeded
before the interface solve starts, so that a failure on one rank is a failure on all. -/
def applyCoupled (store : Store T) (x : Array T) (inner : InterfaceSolve T R) :
    Collective T R (ApproximateSchur T R × Array T) Unit := do
  let (p, _) ← get
  let eliminated ← Collective.attempt (.ofUpdate (p.eliminate store x).onSnd)
  let communicator := inner.operator.partition.communicator
  let failed ← Collective.ofProgram
    (communicator.reduce (match eliminated with | .ok () => 0 | .error _ => (1 : R)))
  eliminated
  if (0 : R) < failed then throw (.peerFailure (Magnitude.toNat failed))
  let start := p.layout.interfaceStart
  let right := (← get).2.extract start (p.layout.blockSize * p.layout.owned)
  let (stats, w) ←
    (solveInterface store inner.solver communicator inner.operator.vectorLength right).focus
      (fun _ => inner.operator)
      fun operator s => ({ s.1 with inner := some { inner with operator } }, s.2)
  modify fun (p, y) => ({ p with lastSolve := some stats }, Span.overwrite y start w)
  Collective.ofUpdate ((store.get p.factors).applyUpperBefore p.layout.interior).onSnd

/-- Apply the preconditioner to `x`, where the state is the preconditioner together with the
output. All ranks take part. -/
def apply (store : Store T) (x : Array T) :
    Collective T R (ApproximateSchur T R × Array T) Unit := do
  let (p, _) ← get
  match p.inner with
  | some inner => applyCoupled store x inner
  | none => do
    if !p.factored then throw (.notFactored .approximateSchur)
    Collective.ofUpdate ((store.get p.factors).applyFactor x).onSnd

end ApproximateSchur

end DomainDecomposition
