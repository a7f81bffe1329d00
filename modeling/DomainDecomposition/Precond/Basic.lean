import DomainDecomposition.Precond.Options
import DomainDecomposition.Precond.Relaxation
import DomainDecomposition.Precond.Schur

/-!
# Preconditioners

A `Preconditioner` is any of the three of the library: it is built for a distributed matrix,
factored from the current values, and then applied to vectors. `build` makes the one that the
options ask for.
-/

namespace DomainDecomposition

/-- An approximate inverse of a distributed matrix. -/
inductive Preconditioner (T R : Type) where
  | relaxation (p : PointRelaxation T R)
  | additiveSchwarz (p : AdditiveSchwarz T)
  | approximateSchur (p : ApproximateSchur T R)

namespace Preconditioner

variable {T R : Type}

/-- Which one it is. -/
def kind : Preconditioner T R → PreconditionerKind
  | relaxation _ => .relaxation
  | additiveSchwarz _ => .additiveSchwarz
  | approximateSchur _ => .approximateSchur

/-- A preconditioner as it is spelled in reports. -/
def text (p : Preconditioner T R) (magnitude : R → String) : String :=
  match p with
  | relaxation p => p.text magnitude
  | other => other.kind.text

/-- The matrix of incomplete factors, where there is one. -/
def factors? : Preconditioner T R → Option Handle
  | relaxation _ => none
  | additiveSchwarz p => some p.factors
  | approximateSchur p => some p.factors

/-- Set the diagonal shift, where there is one. -/
def withShift (shift : T) : Preconditioner T R → Preconditioner T R
  | relaxation p => relaxation p
  | additiveSchwarz p => additiveSchwarz { p with shift }
  | approximateSchur p => approximateSchur { p with shift }

/-- The preconditioner that the options ask for, not factored yet. All ranks take part. -/
def build [Zero T] [One R] [Mul R] [LE R] [DecidableLE R] [Magnitude R] [Scalar T R]
    (a : DistributedMatrix T) (options : PreconditionerOptions R) :
    Collective T R (Store T) (Preconditioner T R) := do
  let shift : T := Scalar.ofReal options.diagonalShift
  match options.kind with
  | .relaxation =>
    return .relaxation (← PointRelaxation.ofMatrix a options.omega options.iterations
      (.ofSettings options.zeroGuess options.symmetric))
  | .additiveSchwarz => do
    let p ← Collective.ofUpdate (AdditiveSchwarz.ofMatrix a options.fillLevel options.fillRatio)
    return withShift shift (.additiveSchwarz p)
  | .approximateSchur => do
    let p ← ApproximateSchur.ofMatrix a options.fillLevel options.fillRatio
      { iterations := options.innerIterations, rtol := options.innerRtol,
        atol := options.innerAtol }
    return withShift shift (.approximateSchur p)

variable [Zero T] [One T] [Add T] [Sub T] [Neg T] [Mul T] [Div T] [BEq T]
variable [Zero R] [One R] [Neg R] [Add R] [Mul R] [Div R] [BEq R]
variable [LT R] [DecidableLT R] [LE R] [DecidableLE R] [Magnitude R] [Scalar T R]

/-- Factor the current values. -/
def factor : Update (Store T × Preconditioner T R) Unit :=
  Update.ofFunction fun (store, p) =>
    match p with
    | relaxation p =>
      let (result, store, p) := PointRelaxation.factor.on (store, p)
      (result, store, relaxation p)
    | additiveSchwarz p =>
      let (result, store, p) := (AdditiveSchwarz.factor (R := R)).on (store, p)
      (result, store, additiveSchwarz p)
    | approximateSchur p =>
      let (result, store, p) := ApproximateSchur.factor.on (store, p)
      (result, store, approximateSchur p)

/-- Apply the preconditioner to `x`, where the state is the preconditioner together with the
output. All ranks take part. -/
def apply (store : Store T) (x : Array T) :
    Collective T R (Preconditioner T R × Array T) Unit :=
  Collective.ofFunction fun (p, y) =>
    match p with
    | relaxation p => do
      let (result, p, y) ← (PointRelaxation.apply store x).on (p, y)
      return (result, relaxation p, y)
    | additiveSchwarz p =>
      let (result, y) := (p.apply store x).on y
      return (result, additiveSchwarz p, y)
    | approximateSchur p => do
      let (result, p, y) ← (ApproximateSchur.apply store x).on (p, y)
      return (result, approximateSchur p, y)

end Preconditioner

end DomainDecomposition
