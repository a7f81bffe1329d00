import DomainDecomposition.Scalar

/-!
# When to stop

An iteration counts as converged once the residual norm is at most `rtol` times the initial one, or
at most `atol`. It stops then, or after `maxIterations`.
-/

namespace DomainDecomposition

variable {R : Type}

/-- Tolerances and the bound on the number of iterations. -/
structure Stopping (R : Type) where
  rtol : R
  atol : R
  maxIterations : Nat

/-- How an iteration ended. -/
structure SolveStats (R : Type) where
  iterations : Nat
  finalResidual : R
  converged : Bool
  deriving DecidableEq

namespace Stopping

variable [Mul R] [LE R] [DecidableLE R] [Magnitude R]

/-- Largest residual norm that counts as converged. -/
def target (s : Stopping R) (initial : R) : R :=
  Magnitude.larger (s.rtol * initial) s.atol

/-- Whether a residual norm counts as converged. -/
def reached (s : Stopping R) (residual initial : R) : Bool :=
  residual ≤ s.target initial

/-- Whether to stop after iteration `i`, and what could be reported then. -/
def check (s : Stopping R) (residual initial : R) (i : Nat) : Bool × SolveStats R :=
  let converged := s.reached residual initial
  (converged || s.maxIterations ≤ i,
    { iterations := i, finalResidual := residual, converged })

end Stopping

end DomainDecomposition
