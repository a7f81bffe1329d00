import DomainDecomposition.Capacity
import DomainDecomposition.Krylov.InnerProduct
import DomainDecomposition.Krylov.Rotation
import DomainDecomposition.Krylov.Stopping
import DomainDecomposition.Update

/-!
# Flexible restarted GMRES

The solver minimises the residual of `A · x = b` over a growing Krylov space. It is flexible: the
preconditioned directions are stored, so the preconditioner may change from step to step. After
`restart` steps, or earlier when a step asks to stop, the solution is updated and the true residual
is computed anew.

The operator, the preconditioner and the reductions are actions of any monad `m`. Each decision
depends only on reduced values, so ranks that run the solver together take the same ones.
-/

namespace DomainDecomposition

/-- What the solver calls: every action gets its input and the vector that its output replaces. -/
structure LinearSystem (m : Type → Type) (T R : Type) where
  operator : Array T → Array T → m (Array T)
  precondition : Option (Array T → Array T → m (Array T))
  /-- Sums over all ranks, entry by entry. -/
  reduce : Array R → m (Array R)

/-- Restart length and stopping rule of the solver. -/
structure Gmres (R : Type) where
  restart : Nat
  stopping : Stopping R

namespace Gmres

variable {m : Type → Type} [Monad m] {T R : Type}

/-- A solver with at least one step between restarts. -/
def ofSettings (restart maxIterations : Nat) (rtol atol : R) : Gmres R where
  restart := max restart 1
  stopping := { rtol, atol, maxIterations }

/-- Replace the tolerances. -/
def withTolerances (solver : Gmres R) (rtol atol : R) : Gmres R :=
  { solver with stopping := { solver.stopping with rtol, atol } }

/-- The state between two steps of a cycle. -/
structure Cycle (T R : Type) where
  /-- Orthonormal vectors of the Krylov space. -/
  basis : Array (Array T)
  /-- Preconditioned directions, one per step. -/
  directions : Array (Array T)
  /-- Columns of the triangular matrix that the rotations have produced, one per step. -/
  columns : Array (List T)
  rotations : Array (Rotation T R)
  /-- Rotated right-hand side, one entry more than there are steps. -/
  right : Array T

variable [Zero T] [One T] [Add T] [Sub T] [Neg T] [Mul T] [Div T]
variable [Zero R] [One R] [Add R] [Mul R] [Div R] [BEq R]
variable [LT R] [DecidableLT R] [LE R] [DecidableLE R] [Magnitude R] [Scalar T R]

/-- A vector times a magnitude. -/
def scaled (factor : R) (v : Array T) : Array T :=
  v.map (· * Scalar.ofReal factor)

/-- `b - A · x`, where `old` is the vector that the product replaces. -/
def residual (system : LinearSystem m T R) (b x old : Array T) : m (Array T) := do
  return Array.zipWith (fun p q => q - p) (← system.operator x old) b

/-- Start a cycle with a residual and its norm. -/
def start (r : Array T) (norm : R) : Cycle T R where
  basis := #[scaled (1 / norm) r]
  directions := #[]
  columns := #[]
  rotations := #[]
  right := #[Scalar.ofReal norm]

/-- Subtract from `w` its components along the basis vectors, one after the other. Answers the
components and the rest of `w`. -/
def project (system : LinearSystem m T R) : List (Array T) → Array T → m (List T × Array T)
  | [], w => return ([], w)
  | v :: vs, w => do
    let h ← InnerProduct.dot system.reduce v w
    let (hs, w) ← project system vs (Array.zipWith (fun wk vk => wk - h * vk) w v)
    return (h :: hs, w)

/-- Append one step: the components of the new direction along the basis, and the norm of what is
left of it, become a column of the triangular matrix. -/
def Cycle.append (cycle : Cycle T R) (direction : Array T) (components : List T) (rest : R) :
    Cycle T R :=
  let j := cycle.columns.size
  let entries := Rotation.applyAll cycle.rotations.toList (components ++ [Scalar.ofReal rest])
  let (rotation, corner) := Rotation.zeroing (entries.getD j 0) (entries.getD (j + 1) 0)
  let (last, next) := rotation.apply (cycle.right.getD j 0) 0
  { cycle with
    directions := cycle.directions.push direction
    columns := cycle.columns.push (entries.take j ++ [corner])
    rotations := cycle.rotations.push rotation
    right := (cycle.right.setIfInBounds j last).push next }

/-- One step of a cycle. The new direction is made orthogonal to the basis twice over. Answers the
cycle, what is left of the direction and its norm. -/
def step (system : LinearSystem m T R) (length : Nat) (cycle : Cycle T R) :
    m (Cycle T R × Array T × R) := do
  let zeros := Array.replicate length (0 : T)
  let v := cycle.basis.back?.getD zeros
  let z ← match system.precondition with
    | some precondition => precondition v zeros
    | none => pure v
  let w ← system.operator z zeros
  let (first, w) ← project system cycle.basis.toList w
  let (second, w) ← project system cycle.basis.toList w
  let rest ← InnerProduct.norm system.reduce w
  let components := List.zipWith (fun p q => 0 + p + q) first second
  return (cycle.append z components rest, w, rest)

/-- Go on with a cycle for at most `steps` steps. It ends early when the estimated residual or the
number of iterations says so, or when nothing is left of a direction. Answers the cycle and the
number of iterations so far. -/
def extend (solver : Gmres R) (system : LinearSystem m T R) (length : Nat) (initial norm : R) :
    (steps iteration : Nat) → Cycle T R → m (Cycle T R × Nat)
  | 0, iteration, cycle => return (cycle, iteration)
  | steps + 1, iteration, cycle => do
    let (cycle, w, rest) ← step system length cycle
    let estimate := Scalar.modulus (cycle.right.back?.getD 0)
    let (stop, _) := solver.stopping.check estimate initial (iteration + 1)
    if stop || rest ≤ Magnitude.breakdown * norm then return (cycle, iteration + 1)
    else
      extend solver system length initial norm steps (iteration + 1)
        { cycle with basis := cycle.basis.push (scaled (1 / rest) w) }

/-- Coefficients of the directions that minimise the residual. -/
def Cycle.coefficients (cycle : Cycle T R) : List T :=
  backSubstitution (fun i j => (cycle.columns.getD j []).getD i 0) (fun i => cycle.right.getD i 0)
    cycle.columns.size

/-- `x` plus the best combination of the directions. -/
def Cycle.update (cycle : Cycle T R) (x : Array T) : Array T :=
  (cycle.coefficients.zip cycle.directions.toList).foldl
    (fun x (y, z) => Array.zipWith (fun xi zi => xi + y * zi) x z) x

/-- Run cycles until the residual is small enough or the iterations are used up. Every cycle takes
an iteration at least, so `cycles` need not exceed the number of iterations that are left. -/
def restarts (solver : Gmres R) (system : LinearSystem m T R) (b : Array T) (initial : R) :
    (cycles iteration : Nat) → (x r : Array T) → (norm : R) → m (SolveStats R × Array T)
  | 0, iteration, x, _, norm =>
    return ((solver.stopping.check norm initial iteration).2, x)
  | cycles + 1, iteration, x, r, norm => do
    let (cycle, iteration) ←
      solver.extend system b.size initial norm solver.restart iteration (start r norm)
    let x := cycle.update x
    let r ← residual system b x r
    let norm ← InnerProduct.norm system.reduce r
    let (stop, stats) := solver.stopping.check norm initial iteration
    if stop || norm == 0 then return (stats, x)
    else solver.restarts system b initial cycles iteration x r norm

/-- Number of coefficients for which a cycle makes room: a column of them for every step, and a row
for every basis vector. -/
def tableSize (solver : Gmres R) : Nat :=
  (solver.restart + 1) * solver.restart

/-- Solve `A · x = b` from the given start, where `height` is the number of own rows of `A`. When
there is an iteration to make, there must be room for the coefficients of a cycle, however few of
its steps will be made. -/
def solve (solver : Gmres R) (system : LinearSystem m T R) (height : Nat) (b x : Array T) :
    m (Except Error (SolveStats R × Array T)) := do
  match checkLength b.size x.size >>= fun _ => checkLength height b.size with
  | .error e => return .error e
  | .ok () => do
    let r ← residual system b x (Array.replicate b.size 0)
    let norm ← InnerProduct.norm system.reduce r
    if solver.stopping.reached norm norm then
      return .ok ({ iterations := 0, finalResidual := norm, converged := true }, x)
    else if 0 < solver.stopping.maxIterations ∧ Capacity.limit ≤ solver.tableSize then
      return .error .tooLarge
    else
      return .ok (← solver.restarts system b norm solver.stopping.maxIterations 0 x r norm)

end Gmres

end DomainDecomposition
