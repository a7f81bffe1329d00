import DomainDecomposition.Precond.Basic

/-!
# Solving distributed systems

`DistributedOperator.solve` runs GMRES on a distributed matrix or on an interface operator, with or
without a preconditioner. Both the operator and the preconditioner change while they are applied,
for they exchange vectors, so they form the state of the solve.
-/

namespace DomainDecomposition

/-- What a distributed system may be about. -/
inductive DistributedOperator (T : Type) where
  | matrix (a : DistributedMatrix T)
  | interface (op : InterfaceOperator T)

namespace DistributedOperator

variable {T R : Type}

/-- Length of the vectors of this rank. -/
def vectorLength : DistributedOperator T → Nat
  | matrix a => a.vectorLength
  | interface op => op.vectorLength

variable [Zero T] [One T] [Add T] [Sub T] [Neg T] [Mul T] [Div T] [BEq T]
variable [Zero R] [One R] [Neg R] [Add R] [Mul R] [Div R] [BEq R]
variable [LT R] [DecidableLT R] [LE R] [DecidableLE R] [Magnitude R] [Scalar T R]

/-- The product with `x`, where the state is the operator together with the output. -/
def mult (store : Store T) (x : Array T) : Collective T R (DistributedOperator T × Array T) Unit :=
  Collective.ofFunction fun (op, y) =>
    match op with
    | matrix a => do
      let (result, a, y) ← (DistributedMatrix.mult store x).on (a, y)
      return (result, matrix a, y)
    | interface op => do
      let (result, op, y) ← (InterfaceOperator.mult store x).on (op, y)
      return (result, interface op, y)

/-- An operator and perhaps a preconditioner. -/
abbrev Solvable (T R : Type) : Type :=
  DistributedOperator T × Option (Preconditioner T R)

/-- The product with `x` as an action that answers the output. -/
def product (store : Store T) (x y : Array T) : Collective T R (Solvable T R) (Array T) :=
  Collective.ofFunction fun (op, p) => do
    let (result, op, y) ← (mult store x).on (op, y)
    return (result.map fun _ => y, op, p)

/-- The preconditioned `x` as an action that answers the output. -/
def preconditioned (store : Store T) (x y : Array T) :
    Collective T R (Solvable T R) (Array T) :=
  Collective.ofFunction fun (op, p) =>
    match p with
    | none => return (.ok x, op, none)
    | some p => do
      let (result, p, y) ← (Preconditioner.apply store x).on (p, y)
      return (result.map fun _ => y, op, some p)

/-- Solve `A · x = b` from the given start. All ranks take part. -/
def solve (store : Store T) (communicator : Communicator) (solver : Gmres R) (b x : Array T) :
    Collective T R (Solvable T R) (SolveStats R × Array T) := do
  let (op, p) ← get
  let system : LinearSystem (Collective T R (Solvable T R)) T R := {
    operator := product store
    precondition := if p.isSome then some (preconditioned store) else none
    reduce := fun values => Collective.ofProgram (communicator.reduceAll values) }
  solver.solve system op.vectorLength b x >>= liftM

end DistributedOperator

end DomainDecomposition
