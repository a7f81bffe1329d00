import DomainDecomposition.Krylov.Gmres
import DomainDecomposition.Proofs.Outcome
import Mathlib.Data.Nat.Notation

/-!
# The course of a solve

A solve answers statistics and a solution. Its `Course` is what it has found on the way: the initial
norm, and for every cycle its steps, its directions and the norms before and after it. Every
condition on which the solver branches can be read off the course.

* `Course.decisions`: how the conditions have come out, in the order in which they are tested,
* `watched`: the solver, with its course among the answers,
* `solve_eq_watched`: apart from that it is the solver, in every monad.
-/

namespace DomainDecomposition.Gmres

variable {T R : Type}

/-- What a step finds. -/
structure Stride (T R : Type) where
  /-- The cycle before the step. -/
  cycle : Cycle T R
  direction : Array T
  /-- Components along the basis of what the operator makes of the direction. -/
  components : List T
  /-- What is left of it. -/
  remainder : Array T
  /-- The norm of what is left. -/
  rest : R

/-- A cycle, from one restart to the next. -/
structure Lap (T R : Type) where
  /-- The number of iterations before the cycle. -/
  iteration : ℕ
  /-- The solution that the cycle starts from. -/
  start : Array T
  /-- The norm of its residual. -/
  before : R
  strides : List (Stride T R)
  /-- The cycle after the last step. -/
  cycle : Cycle T R
  /-- The norm of the residual at the end. -/
  after : R

/-- What a solve finds on the way. -/
structure Course (T R : Type) where
  initial : R
  laps : List (Lap T R)

variable [Zero T] [One T] [Add T] [Sub T] [Neg T] [Mul T]
variable [Zero R] [One R] [Add R] [Div R] [BEq R] [Magnitude R] [Scalar T R]

namespace Stride

/-- The cycle with the new column. -/
def after (s : Stride T R) : Cycle T R :=
  s.cycle.append s.direction s.components s.rest

/-- The cycle that the next step starts from. -/
def grown (s : Stride T R) : Cycle T R :=
  { s.after with basis := s.after.basis.push (scaled (1 / s.rest) s.remainder) }

/-- The estimate of the residual after the step. -/
def estimate (s : Stride T R) : R :=
  Scalar.modulus (s.after.right.back?.getD 0)

/-- The new column after the rotations so far. -/
def entries (s : Stride T R) : List T :=
  Rotation.applyAll s.cycle.rotations.toList (s.components ++ [Scalar.ofReal s.rest])

/-- The two entries of the new column that the new rotation turns. -/
def pair (s : Stride T R) : T × T :=
  (s.entries.getD s.cycle.columns.size 0, s.entries.getD (s.cycle.columns.size + 1) 0)

/-- The new rotation, and the diagonal entry of the new column. -/
def zeroed (s : Stride T R) : Rotation T R × T :=
  Rotation.zeroing s.pair.1 s.pair.2

end Stride

section Probe

variable {m : Type → Type} [Monad m]

/-- The direction that is made of a basis vector. -/
def direct (system : LinearSystem m T R) (v old : Array T) : m (Array T) :=
  match system.precondition with
  | some precondition => precondition v old
  | none => pure v

/-- One step of a cycle, with everything that it finds. -/
def probe (system : LinearSystem m T R) (length : ℕ) (cycle : Cycle T R) : m (Stride T R) := do
  let zeros := Array.replicate length (0 : T)
  let direction ← direct system (cycle.basis.back?.getD zeros) zeros
  let w ← system.operator direction zeros
  let (first, w) ← project system cycle.basis.toList w
  let (second, remainder) ← project system cycle.basis.toList w
  let rest ← InnerProduct.norm system.reduce remainder
  let components := List.zipWith (fun p q => 0 + p + q) first second
  return { cycle, direction, components, remainder, rest }

lemma step_eq_probe [LawfulMonad m] (system : LinearSystem m T R) (length : ℕ)
    (cycle : Cycle T R) :
    step system length cycle =
      (fun s => (s.after, s.remainder, s.rest)) <$> probe system length cycle := by
  cases h : system.precondition with
  | none => simp [step, probe, direct, h, Stride.after]
  | some precondition => simp [step, probe, direct, h, Stride.after]

end Probe

variable [Div T] [Mul R] [LT R] [DecidableLT R] [LE R] [DecidableLE R]

/-! ## Decisions -/

/-- Whether the cycle ends with a step, the `iteration`-th one of the solve. -/
def Stride.ends (solver : Gmres R) (initial norm : R) (iteration : ℕ) (s : Stride T R) : Bool :=
  (solver.stopping.check s.estimate initial iteration).1 || s.rest ≤ Magnitude.breakdown * norm

/-- How the conditions of a step come out: whether the new rotation finds one of its entries to be
zero, whether the estimate is small enough, whether the iterations are used up, and whether nothing
is left. -/
def Stride.decisions (solver : Gmres R) (initial norm : R) (iteration : ℕ) (s : Stride T R) :
    List Bool :=
  [Scalar.modulus s.pair.2 == 0, Scalar.modulus s.pair.1 == 0,
    solver.stopping.reached s.estimate initial, solver.stopping.maxIterations ≤ iteration,
    s.rest ≤ Magnitude.breakdown * norm]

/-- Which diagonal entries of the triangular system can be divided by. -/
def Cycle.pivots (cycle : Cycle T R) : List Bool :=
  (List.range cycle.columns.size).map fun i =>
    (0 : R) < Scalar.modulus ((cycle.columns.getD i []).getD i 0)

namespace Lap

/-- The solution at the end of the cycle. -/
def finish (lap : Lap T R) : Array T :=
  lap.cycle.update lap.start

/-- How the conditions of a cycle come out. -/
def decisions (solver : Gmres R) (initial : R) (lap : Lap T R) : List Bool :=
  (lap.strides.zipIdx (lap.iteration + 1)).flatMap
    (fun (s, i) => s.decisions solver initial lap.before i) ++ lap.cycle.pivots ++
  [solver.stopping.reached lap.after initial,
    solver.stopping.maxIterations ≤ lap.iteration + lap.strides.length, lap.after == 0]

end Lap

/-- How the conditions of a solve come out, in the order in which they are tested. -/
def Course.decisions (solver : Gmres R) (course : Course T R) : List Bool :=
  [solver.stopping.reached course.initial course.initial,
    0 < solver.stopping.maxIterations ∧ Capacity.limit ≤ solver.tableSize] ++
  course.laps.flatMap (·.decisions solver course.initial)

/-- Whether a solve can go on from a residual norm, if it has to: a cycle needs room for all its
coefficients. -/
def HasRoom (solver : Gmres R) (initial : R) : Prop :=
  initial ≤ solver.stopping.target initial ∨ solver.stopping.maxIterations = 0 ∨
    solver.tableSize < Capacity.limit

/-! ## Watching the solver -/

variable {m : Type → Type} [Monad m]

/-- The steps of a cycle, and the cycle after them. -/
def follow (solver : Gmres R) (system : LinearSystem m T R) (length : ℕ) (initial norm : R) :
    (steps iteration : ℕ) → Cycle T R → m (List (Stride T R) × Cycle T R)
  | 0, _, cycle => return ([], cycle)
  | steps + 1, iteration, cycle => do
    let s ← probe system length cycle
    if s.ends solver initial norm (iteration + 1) then return ([s], s.after)
    else
      let (strides, cycle) ←
        follow solver system length initial norm steps (iteration + 1) s.grown
      return (s :: strides, cycle)

/-- The cycles of a solve, and what it answers. -/
def laps (solver : Gmres R) (system : LinearSystem m T R) (b : Array T) (initial : R) :
    (cycles iteration : ℕ) → (x r : Array T) → (norm : R) →
      m (List (Lap T R) × SolveStats R × Array T)
  | 0, iteration, x, _, norm =>
    return ([], (solver.stopping.check norm initial iteration).2, x)
  | cycles + 1, iteration, x, r, norm => do
    let (strides, cycle) ←
      follow solver system b.size initial norm solver.restart iteration (start r norm)
    let r ← residual system b (cycle.update x) r
    let after ← InnerProduct.norm system.reduce r
    let lap : Lap T R := { iteration, start := x, before := norm, strides, cycle, after }
    let check := solver.stopping.check after initial (iteration + strides.length)
    if check.1 || after == 0 then return ([lap], check.2, lap.finish)
    else
      let (later, answer) ←
        laps solver system b initial cycles (iteration + strides.length) lap.finish r after
      return (lap :: later, answer)

/-- The solver, with its course among the answers. -/
def watched (solver : Gmres R) (system : LinearSystem m T R) (height : ℕ) (b x : Array T) :
    m (Except Error (Course T R × SolveStats R × Array T)) := do
  match checkLength b.size x.size >>= fun _ => checkLength height b.size with
  | .error e => return .error e
  | .ok () => do
    let r ← residual system b x (Array.replicate b.size 0)
    let norm ← InnerProduct.norm system.reduce r
    if solver.stopping.reached norm norm then
      return .ok (⟨norm, []⟩, { iterations := 0, finalResidual := norm, converged := true }, x)
    else if 0 < solver.stopping.maxIterations ∧ Capacity.limit ≤ solver.tableSize then
      return .error .tooLarge
    else
      let (laps, answer) ← laps solver system b norm solver.stopping.maxIterations 0 x r norm
      return .ok (⟨norm, laps⟩, answer)

omit [Zero T] [One T] [Add T] [Sub T] [Neg T] [Mul T] [Div T] in
/-- Vectors of one length pass the checks. -/
lemma checkLengths_eq_ok {height : ℕ} {b x : Array T} (hx : x.size = b.size)
    (hb : b.size = height) :
    (checkLength b.size x.size >>= fun _ => checkLength height b.size) = .ok () := by
  simp [checkLength, hx, hb]

section Same

variable [LawfulMonad m] (solver : Gmres R) (system : LinearSystem m T R)

omit [Div T] [LT R] [DecidableLT R] in
lemma extend_eq_follow (length : ℕ) (initial norm : R) (steps iteration : ℕ) (cycle : Cycle T R) :
    solver.extend system length initial norm steps iteration cycle =
      (fun (strides, cycle) => (cycle, iteration + strides.length)) <$>
        follow solver system length initial norm steps iteration cycle := by
  induction steps generalizing iteration cycle with
  | zero => simp [extend, follow]
  | succ steps ih =>
    rw [extend, follow, step_eq_probe, bind_map_left, map_bind]
    refine bind_congr fun s => ?_
    -- `ends` is the condition of the solver, read off the step
    change (if s.ends solver initial norm (iteration + 1) then pure (s.after, iteration + 1)
      else solver.extend system length initial norm steps (iteration + 1) s.grown) = _
    split
    · simp
    · simp [ih, Nat.add_assoc, Nat.add_comm 1]

lemma restarts_eq_laps (b : Array T) (initial : R) (cycles iteration : ℕ) (x r : Array T)
    (norm : R) :
    solver.restarts system b initial cycles iteration x r norm =
      (·.2) <$> laps solver system b initial cycles iteration x r norm := by
  induction cycles generalizing iteration x r norm with
  | zero => simp [restarts, laps]
  | succ cycles ih =>
    rw [restarts, laps, extend_eq_follow, bind_map_left, map_bind]
    refine bind_congr ?_
    rintro ⟨strides, cycle⟩
    simp only [map_bind]
    refine bind_congr fun r => bind_congr fun after => ?_
    simp only [ih]
    split
    · simp [Lap.finish]
    · simp [Lap.finish]

/-- The solver does what the watched one does. -/
theorem solve_eq_watched (height : ℕ) (b x : Array T) :
    solver.solve system height b x =
      Except.map (·.2) <$> watched solver system height b x := by
  rw [solve, watched]
  cases checkLength b.size x.size >>= fun _ => checkLength height b.size with
  | error e => simp [Except.map]
  | ok _ =>
    simp only [map_bind]
    refine bind_congr fun r => bind_congr fun norm => ?_
    split
    · simp [Except.map]
    · split
      · simp [Except.map]
      · simp [restarts_eq_laps, Except.map]

end Same

end DomainDecomposition.Gmres
