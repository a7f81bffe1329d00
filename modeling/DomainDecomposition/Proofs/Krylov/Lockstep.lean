import DomainDecomposition.Proofs.Krylov.Dialogue
import DomainDecomposition.Proofs.Scalar.Rational

/-!
# Ranks that solve together

The vectors of a solve differ from rank to rank. All other things that it computes are made of
reduced numbers: the columns and rotations of a cycle, its right-hand side, the components of a
direction and every norm. What is left of a cycle without its vectors is its `shadow`, and ranks
with one shadow stay in lockstep: each condition reads the shadow only.

* `lockstep_probe`, `lockstep_follow`, `lockstep_laps`: a step, a cycle and a run of cycles,
* `solve_lockstep`: the whole solve.
-/

namespace DomainDecomposition

open Dialogue

variable {ι T R : Type}

namespace Gmres

/-! ## Shadows -/

section Shadow

/-- A cycle without its vectors. Only their number is left. -/
def Cycle.shadow (cycle : Cycle T R) : Cycle T R :=
  { cycle with
    basis := cycle.basis.map fun _ => #[]
    directions := cycle.directions.map fun _ => #[] }

/-- A step without its vectors. -/
def Stride.shadow (s : Stride T R) : Stride T R :=
  { s with cycle := s.cycle.shadow, direction := #[], remainder := #[] }

/-- A lap without its vectors. -/
def Lap.shadow (lap : Lap T R) : Lap T R :=
  { lap with start := #[], strides := lap.strides.map Stride.shadow, cycle := lap.cycle.shadow }

/-- A course without its vectors. -/
def Course.shadow (course : Course T R) : Course T R :=
  { course with laps := course.laps.map Lap.shadow }

/-- Cycles with one norm start with one shadow. -/
lemma Cycle.shadow_start [Mul T] [One R] [Div R] [Scalar T R] (r r' : Array T) (norm : R) :
    (start r norm).shadow = (start r' norm).shadow := by
  simp [start, Cycle.shadow]

variable [Zero T] [One T] [Add T] [Neg T] [Mul T]
variable [Zero R] [One R] [Div R] [BEq R] [Magnitude R] [Scalar T R]

namespace Stride

variable {s s' : Stride T R}

lemma shadow_after (same : s.shadow = s'.shadow) : s.after.shadow = s'.after.shadow := by
  -- the new column, rotation and right-hand side are read off the shadow
  have hshadow (s : Stride T R) : s.after.shadow = s.shadow.after.shadow := by
    simp [after, shadow, Cycle.shadow, Cycle.append, Function.comp_def]
  rw [hshadow, same, ← hshadow]

lemma shadow_grown (same : s.shadow = s'.shadow) : s.grown.shadow = s'.grown.shadow := by
  have hshadow (s : Stride T R) : s.grown.shadow = s.shadow.grown.shadow := by
    simp [grown, after, shadow, Cycle.shadow, Cycle.append, Function.comp_def]
  rw [hshadow, same, ← hshadow]

end Stride

variable [Mul R] [LE R] [DecidableLE R]

lemma Stride.ends_shadow (solver : Gmres R) (initial norm : R) (iteration : ℕ) (s : Stride T R) :
    s.shadow.ends solver initial norm iteration = s.ends solver initial norm iteration :=
  rfl

variable [LT R] [DecidableLT R]

lemma Lap.decisions_shadow (solver : Gmres R) (initial : R) (lap : Lap T R) :
    lap.shadow.decisions solver initial = lap.decisions solver initial := by
  simp only [decisions, shadow, List.zipIdx_map, List.flatMap_map, List.length_map]
  rfl

lemma Course.decisions_shadow (solver : Gmres R) (course : Course T R) :
    course.shadow.decisions solver = course.decisions solver := by
  simp [Course.decisions, Course.shadow, List.flatMap_map, Lap.decisions_shadow]

end Shadow

/-! ## One step -/

section Step

variable (p : Bool)

lemma lockstep_operator (x old : ι → Array T) :
    Lockstep (fun _ => ()) fun r => (asked p : LinearSystem _ T R).operator (x r) (old r) :=
  .operator x old _ fun answer => .done answer fun _ _ => rfl

lemma lockstep_reduce {values : ι → Array R} (sizes : ∀ r s, (values r).size = (values s).size) :
    Lockstep id fun r => (asked p : LinearSystem _ T R).reduce (values r) :=
  .reduce values _ sizes fun sums => .done (fun _ => sums) fun _ _ => rfl

lemma lockstep_direct (v old : ι → Array T) :
    Lockstep (fun _ => ()) fun r => direct (asked p : LinearSystem _ T R) (v r) (old r) := by
  cases p with
  | false => exact .done v fun _ _ => rfl
  | true => exact .precondition v old _ fun answer => .done answer fun _ _ => rfl

lemma lockstep_residual [Sub T] (b x old : ι → Array T) :
    Lockstep (fun _ => ()) fun r => residual (asked p : LinearSystem _ T R) (b r) (x r) (old r) :=
  (lockstep_operator p x old).bind fun _ _ => .done _ fun _ _ => rfl

variable [Zero R] [Scalar T R]

lemma lockstep_norm [Add R] [Magnitude R] (x : ι → Array T) :
    Lockstep id fun r => InnerProduct.norm (asked p : LinearSystem _ T R).reduce (x r) :=
  (lockstep_reduce p fun _ _ => rfl).bind fun _ same =>
    .done _ fun r s => congrArg (fun sums => Magnitude.sqrt (sums.getD 0 0)) (same r s)

variable [Zero T] [Add T] [Mul T]

lemma lockstep_dot (x y : ι → Array T) :
    Lockstep id fun r => InnerProduct.dot (asked p : LinearSystem _ T R).reduce (x r) (y r) := by
  have sizes (r s : ι) : (InnerProduct.parts (InnerProduct.ownDot (x r) (y r)) : Array R).size =
      (InnerProduct.parts (InnerProduct.ownDot (x s) (y s)) : Array R).size := by
    simp only [InnerProduct.parts]
    split
    · rfl
    · rfl
  simp only [InnerProduct.dot_eq]
  exact (lockstep_reduce p sizes).bind fun sums same =>
    .done _ fun r s => congrArg InnerProduct.ofSums (same r s)

variable [Sub T]

/-- As many basis vectors make as many products. -/
lemma lockstep_project {k : ℕ} {vs : ι → List (Array T)} (lengths : ∀ r, (vs r).length = k)
    (w : ι → Array T) :
    Lockstep Prod.fst fun r => project (asked p : LinearSystem _ T R) (vs r) (w r) := by
  induction k generalizing vs w with
  | zero =>
    obtain rfl : vs = fun _ => [] := funext fun r => List.length_eq_zero_iff.mp (lengths r)
    exact .done _ fun _ _ => rfl
  | succ k ih =>
    choose v vs' hvs using fun r => List.exists_cons_of_length_eq_add_one (lengths r)
    obtain rfl : vs = fun r => v r :: vs' r := funext hvs
    refine (lockstep_dot p v w).bind fun h same => ?_
    refine (ih (fun r => Nat.succ.inj (lengths r)) _).bind fun a sameLater => ?_
    exact .done _ fun r s => congrArg₂ List.cons (same r s) (sameLater r s)

/-- Ranks with one shadow take a step together. -/
lemma lockstep_probe [Add R] [Magnitude R] (length : ι → ℕ) {cycle : ι → Cycle T R}
    (shadows : ∀ r s, (cycle r).shadow = (cycle s).shadow) :
    Lockstep Stride.shadow fun r => probe (asked p) (length r) (cycle r) := by
  have sizes (r s : ι) : (cycle r).basis.size = (cycle s).basis.size := by
    simpa [Cycle.shadow] using congrArg (·.basis.size) (shadows r s)
  obtain ⟨k, hk⟩ := exists_common sizes
  refine (lockstep_direct p _ _).bind fun direction _ => ?_
  refine (lockstep_operator p _ _).bind fun w _ => ?_
  refine (lockstep_project p hk _).bind fun first sameFirst => ?_
  refine (lockstep_project p hk _).bind fun second sameSecond => ?_
  refine (lockstep_norm p _).bind fun rest sameRest => .done _ fun r s => ?_
  simp only [Stride.shadow, shadows r s, sameFirst r s, sameSecond r s,
    show rest r = rest s from sameRest r s]

end Step

/-! ## Cycles -/

section Cycles

variable [Zero T] [One T] [Add T] [Sub T] [Neg T] [Mul T]
variable [Zero R] [One R] [Add R] [Mul R] [Div R] [BEq R]
variable [LE R] [DecidableLE R] [Magnitude R] [Scalar T R]
variable (p : Bool) (solver : Gmres R)

/-- Ranks with one shadow take the steps of a cycle together. -/
lemma lockstep_follow (length : ι → ℕ) (initial norm : R) (steps iteration : ℕ)
    {cycle : ι → Cycle T R} (shadows : ∀ r s, (cycle r).shadow = (cycle s).shadow) :
    Lockstep (Prod.map (List.map Stride.shadow) Cycle.shadow) fun r =>
      follow solver (asked p) (length r) initial norm steps iteration (cycle r) := by
  induction steps generalizing iteration cycle with
  | zero => exact .done _ fun r s => congrArg (Prod.mk []) (shadows r s)
  | succ steps ih =>
    refine (lockstep_probe p length shadows).bind fun stride same => .ite ?_ ?_ ?_
    · intro r s
      rw [← Stride.ends_shadow, same r s, Stride.ends_shadow]
    · exact .done _ fun r s => congrArg₂ (fun stride cycle => ([stride], cycle)) (same r s)
        (Stride.shadow_after (same r s))
    · refine (ih (iteration + 1) fun r s => Stride.shadow_grown (same r s)).bind
        fun later sameLater => .done _ fun r s => ?_
      exact congrArg₂ (fun stride later => (stride :: later.1, later.2)) (same r s)
        (sameLater r s)

variable [Div T] [LT R] [DecidableLT R]

/-- Ranks take all cycles together. -/
lemma lockstep_laps (b : ι → Array T) (initial : R) (cycles iteration : ℕ) (x r : ι → Array T)
    (norm : R) :
    Lockstep (Prod.map (List.map Lap.shadow) Prod.fst) fun q =>
      laps solver (asked p) (b q) initial cycles iteration (x q) (r q) norm := by
  induction cycles generalizing iteration x r norm with
  | zero => exact .done _ fun _ _ => rfl
  | succ cycles ih =>
    refine (lockstep_follow p solver _ initial norm solver.restart iteration
      fun q s => Cycle.shadow_start (r q) (r s) norm).bind fun steps same => ?_
    refine (lockstep_residual p b _ r).bind fun r _ => ?_
    refine (lockstep_norm p r).bind fun after sameAfter => ?_
    obtain ⟨a, ha⟩ := exists_common sameAfter
    obtain rfl : after = fun _ => a := funext ha
    -- the shadows tell how many steps were taken, so all ranks count the same iteration
    have lengths (q s : ι) : (steps q).1.length = (steps s).1.length := by
      simpa using congrArg (·.1.length) (same q s)
    obtain ⟨k, hk⟩ := exists_common lengths
    simp only [hk]
    let lap (q : ι) : Lap T R :=
      ⟨iteration, x q, norm, (steps q).1, (steps q).2, a⟩
    have sameLap (q s : ι) : (lap q).shadow = (lap s).shadow :=
      congrArg (fun steps : List (Stride T R) × Cycle T R =>
        (⟨iteration, #[], norm, steps.1, steps.2, a⟩ : Lap T R)) (same q s)
    refine .ite (fun _ _ => rfl) ?_ ?_
    · exact .done _ fun q s => congrArg (fun lap => ([lap], _)) (sameLap q s)
    · refine (ih (iteration + k) (fun q => (lap q).finish) r a).bind
        fun later sameLater => .done _ fun q s => ?_
      exact congrArg₂ (fun lap later => (lap :: later.1, later.2)) (sameLap q s) (sameLater q s)

/-- Ranks whose vectors have the right lengths solve together. -/
lemma lockstep_watched {height : ι → ℕ} {b x : ι → Array T}
    (fits : ∀ r, (x r).size = (b r).size ∧ (b r).size = height r) :
    Lockstep (Except.map (Prod.map Course.shadow Prod.fst)) fun r =>
      watched solver (asked p) (height r) (b r) (x r) := by
  have checked (r : ι) := checkLengths_eq_ok (fits r).1 (fits r).2
  simp only [watched, checked]
  refine (lockstep_residual p b x _).bind fun r _ => ?_
  refine (lockstep_norm p r).bind fun norm sameNorm => ?_
  obtain ⟨a, ha⟩ := exists_common sameNorm
  obtain rfl : norm = fun _ => a := funext ha
  refine .ite (fun _ _ => rfl) (.done _ fun _ _ => rfl) ?_
  split
  · exact .done _ fun _ _ => rfl
  · refine (lockstep_laps p solver b a _ 0 x r a).bind fun answer same => .done _ fun q s => ?_
    exact congrArg (fun answer => Except.ok ((⟨a, answer.1⟩ : Course T R), answer.2)) (same q s)

/-- In every world of ranks that solve a system of their own sizes together with one solver, the
ranks make the same calls, as long as each reduction answers the same to all of them, and whatever
operators and preconditioners answer. All conditions come out in the same way and the statistics are
equal. The scalars may be any: nothing is assumed about their arithmetic and comparisons. And
`solve` makes these calls with every system, in every monad. Where only some ranks have a
preconditioner, a call of it answers the vector itself to the others. -/
theorem solve_lockstep {height : ι → ℕ} {b x : ι → Array T}
    (fits : ∀ r, (x r).size = (b r).size ∧ (b r).size = height r) :
    Lockstep (Except.map fun (course, stats, _) => (course.decisions solver, stats))
      (fun r => watched solver (asked p) (height r) (b r) (x r)) ∧
    ∀ {m : Type → Type} [Monad m] [LawfulMonad m] (system : LinearSystem m T R) (height : ℕ)
      (b x : Array T), (system.precondition.isSome → p) → solver.solve system height b x =
        Except.map (·.2) <$> conduct system (watched solver (asked p) height b x) := by
  constructor
  · convert (lockstep_watched p solver fits).comp
      (Except.map (Prod.map (Course.decisions solver) id)) using 1
    funext answer
    cases answer with
    | error e => rfl
    | ok answer =>
      exact congrArg (fun decisions => Except.ok (decisions, answer.2.1))
        (Course.decisions_shadow solver answer.1).symm
  · intro m _ _ system height b x covers
    rw [conduct_watched system covers, solve_eq_watched]

end Cycles

/-- Two ranks with one and two entries, a preconditioner and tolerances of zero. -/
theorem pair_solve_lockstep :
    Lockstep (Except.map fun (course, stats, _) => (course.decisions (ofSettings 2 10 0 0), stats))
      fun r : Fin 2 => watched (ofSettings 2 10 0 0) (asked true) (r + 1)
        (Array.replicate (r + 1) (1 : ℚ)) (Array.replicate (r + 1) 0) :=
  (solve_lockstep (b := fun r : Fin 2 => Array.replicate (r + 1) (1 : ℚ))
    (x := fun r => Array.replicate (r + 1) 0) true (ofSettings 2 10 0 0)
    fun r => ⟨by simp, Array.size_replicate⟩).1

end Gmres

end DomainDecomposition
