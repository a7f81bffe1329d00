import DomainDecomposition.Proofs.Krylov.Triangular

/-!
# The solver minimises the residual

In exact arithmetic every cycle ends with the solution of the least residual among all that start
from its solution and go along its directions. So the residual never grows. This needs nothing of
the preconditioner, and it holds also of a cycle that breaks down.

* `Trail`: the steps of a cycle, each with the direction that the preconditioner has answered,
* `Lap.Minimal`: a cycle that ends with the best solution along these directions,
* `follow_spec`, `laps_spec`, `watched_spec`: the loops of the solver, and the whole solve,
* `solve_minimal`: what this means for its course,
* `exists_solve_crowded`: a solve for which there is no room.
-/

namespace DomainDecomposition.Gmres

variable {σ 𝕜 : Type} [RCLike 𝕜] {n : ℕ}

section Best

variable (system : LinearSystem (StateM σ) 𝕜 ℝ)
  (A : EuclideanSpace 𝕜 (Fin n) →ₗ[𝕜] EuclideanSpace 𝕜 (Fin n)) (b : Array 𝕜)

/-- The norm of the true residual of a solution. -/
noncomputable def residualNorm (x : Array 𝕜) : ℝ :=
  ‖point n b - A (point n x)‖

/-- Steps that lead from one cycle to another. Each starts from what the one before has grown to,
and after the last one the basis may grow or not. -/
inductive Trail : Cycle 𝕜 ℝ → List (Stride 𝕜 ℝ) → Cycle 𝕜 ℝ → Prop
  | none (cycle : Cycle 𝕜 ℝ) : Trail cycle [] cycle
  | last {s : Stride 𝕜 ℝ} (stepped : Stepped system A s) : Trail s.cycle [s] s.after
  | next {s : Stride 𝕜 ℝ} {strides : List (Stride 𝕜 ℝ)} {finish : Cycle 𝕜 ℝ}
      (stepped : Stepped system A s) (later : Trail s.grown strides finish) :
      Trail s.cycle (s :: strides) finish

/-- A cycle of at most `restart` steps that ends with the best solution along its directions. It has
as many directions as steps, and direction `j` is what the preconditioner has answered to basis
vector `j` in step `j`. -/
structure Lap.Minimal (restart : ℕ) (lap : Lap 𝕜 ℝ) : Prop where
  before : lap.before = residualNorm A b lap.start
  after : lap.after = residualNorm A b lap.finish
  length_le : lap.strides.length ≤ restart
  moves : 0 < restart → lap.strides ≠ []
  trail : ∃ r : Array 𝕜, point n r = point n b - A (point n lap.start) ∧
    Trail system A (Gmres.start r lap.before) lap.strides lap.cycle
  directions : lap.cycle.directions.toList = lap.strides.map (·.direction)
  preconditioned : ∀ j (hj : j < lap.strides.length), ∃ v, lap.cycle.basis[j]? = some v ∧
    Possible (direct system v (Array.replicate n 0)) lap.strides[j].direction
  sum : point n lap.finish = point n lap.start +
    ∑ j ∈ Finset.range lap.strides.length,
      lap.cycle.coefficients.getD j 0 • lap.cycle.direction n j
  least : ∀ c : ℕ → 𝕜, residualNorm A b lap.finish ≤
    ‖point n b - A (point n lap.start +
      ∑ j ∈ Finset.range lap.strides.length, c j • lap.cycle.direction n j)‖

/-- Cycles each of which starts from the solution of the one before. Every step is an iteration. -/
def Linked (iteration : ℕ) (x : Array 𝕜) :
    List (Lap 𝕜 ℝ) → (iterations : ℕ) → (finish : Array 𝕜) → Prop
  | [], iterations, finish => iterations = iteration ∧ finish = x
  | lap :: laps, iterations, finish =>
    (lap.iteration = iteration ∧ lap.start = x) ∧
      Linked (iteration + lap.strides.length) lap.finish laps iterations finish

/-- What is to hold of the answer of a solve that starts from `x`. It fails exactly where there is
no room for the coefficients of a cycle, and it has a cycle unless `x` will do or no iteration may
be made. -/
def Solved (solver : Gmres ℝ) (x : Array 𝕜) :
    Except Error (Course 𝕜 ℝ × SolveStats ℝ × Array 𝕜) → Prop
  | .error e => e = .tooLarge ∧ ¬solver.HasRoom (residualNorm A b x)
  | .ok (course, stats, finish) =>
    solver.HasRoom (residualNorm A b x) ∧
    Linked 0 x course.laps stats.iterations finish ∧
    (course.laps = [] → residualNorm A b x ≤ solver.stopping.target (residualNorm A b x) ∨
      solver.stopping.maxIterations = 0) ∧
    (∀ lap ∈ course.laps, lap.Minimal system A b solver.restart ∧ lap.after ≤ lap.before) ∧
    stats.finalResidual = residualNorm A b finish ∧
    stats.finalResidual ≤ residualNorm A b x

end Best

variable {system : LinearSystem (StateM σ) 𝕜 ℝ}
  {A : EuclideanSpace 𝕜 (Fin n) →ₗ[𝕜] EuclideanSpace 𝕜 (Fin n)} {b : Array 𝕜}

/-! ## The steps of a cycle -/

namespace Trail

variable {cycle finish : Cycle 𝕜 ℝ} {strides : List (Stride 𝕜 ℝ)}

/-- Every step adds its direction. -/
lemma directions (trail : Trail system A cycle strides finish) :
    finish.directions.toList = cycle.directions.toList ++ strides.map (·.direction) := by
  induction trail with
  | none cycle => exact (List.append_nil _).symm
  | last _ => exact Array.toList_push
  | @next s strides finish _ _ ih =>
    have grown : s.grown.directions.toList = s.cycle.directions.toList ++ [s.direction] :=
      Array.toList_push
    rw [ih, grown, List.append_assoc]
    rfl

/-- Basis vectors stay. -/
lemma basis_eq (trail : Trail system A cycle strides finish) {i : ℕ} (hi : i < cycle.basis.size) :
    finish.basis[i]? = cycle.basis[i]? := by
  induction trail with
  | none cycle => rfl
  | last _ => rfl
  | @next s strides finish _ _ ih =>
    have grown : s.grown.basis = s.cycle.basis.push (scaled (1 / s.rest) s.remainder) := rfl
    rw [ih (by rw [grown, Array.size_push]; omega), grown, Array.getElem?_push_lt hi,
      Array.getElem?_eq_getElem hi]

/-- Each direction is an answer to the basis vector that is the newest one in its step. -/
lemma preconditioned (trail : Trail system A cycle strides finish) (j : ℕ)
    (hj : j < strides.length) : ∃ v, finish.basis[cycle.basis.size - 1 + j]? = some v ∧
      Possible (direct system v (Array.replicate n 0)) strides[j].direction := by
  induction trail generalizing j with
  | none cycle => exact absurd hj (Nat.not_lt_zero j)
  | last stepped =>
    obtain rfl : j = 0 := Nat.lt_one_iff.mp hj
    obtain ⟨v, newest, answered⟩ := stepped.preconditioned
    exact ⟨v, Array.back?_eq_getElem?.symm.trans newest, answered⟩
  | @next s strides finish stepped later ih =>
    obtain ⟨v, newest, answered⟩ := stepped.preconditioned
    rw [Array.back?_eq_getElem?] at newest
    have inside := (Array.getElem?_eq_some_iff.mp newest).1
    have size : s.grown.basis.size = s.cycle.basis.size + 1 := Array.size_push _
    cases j with
    | zero =>
      -- what the later steps push comes behind this basis vector
      refine ⟨v, ?_, answered⟩
      rw [Nat.add_zero, (Trail.next stepped later).basis_eq inside, newest]
    | succ j =>
      have found := ih j (Nat.lt_of_succ_lt_succ hj)
      rwa [size, show s.cycle.basis.size + 1 - 1 + j = s.cycle.basis.size - 1 + (j + 1) by omega]
        at found

end Trail

/-! ## Cycles -/

variable {restart : ℕ}

lemma Lap.Minimal.after_le {lap : Lap 𝕜 ℝ} (minimal : lap.Minimal system A b restart) :
    lap.after ≤ lap.before := by
  simpa [minimal.after, minimal.before, residualNorm] using minimal.least fun _ => 0

/-- A run of cycles does not make the residual larger. -/
lemma Linked.residualNorm_le {laps : List (Lap 𝕜 ℝ)} {iteration iterations : ℕ}
    {x finish : Array 𝕜} (linked : Linked iteration x laps iterations finish)
    (minimal : ∀ lap ∈ laps, lap.Minimal system A b restart) :
    residualNorm A b finish ≤ residualNorm A b x := by
  induction laps generalizing iteration x with
  | nil => exact linked.2 ▸ le_refl _
  | cons lap laps ih =>
    obtain ⟨⟨-, rfl⟩, hlater⟩ := linked
    obtain ⟨hlap, hlaps⟩ := List.forall_mem_cons.mp minimal
    have hle := hlap.after_le
    rw [hlap.after, hlap.before] at hle
    exact (ih hlater hlaps).trans hle

/-- Back substitution ends a cycle with the best solution. -/
lemma Triangular.minimal {r : Array 𝕜} {k : ℕ} {u : ℕ → EuclideanSpace 𝕜 (Fin n)}
    {lap : Lap 𝕜 ℝ} (triangular : Triangular A (point n r) lap.cycle k u)
    (trail : Trail system A (start r ‖point n r‖) lap.strides lap.cycle)
    (length_le : lap.strides.length ≤ restart) (moves : 0 < restart → lap.strides ≠ [])
    (hx : lap.start.size = n) (hr : point n r = point n b - A (point n lap.start))
    (before : lap.before = ‖point n r‖) (after : lap.after = residualNorm A b lap.finish) :
    lap.Minimal system A b restart := by
  have hdirections : lap.cycle.directions.toList = lap.strides.map (·.direction) := by
    rw [trail.directions]
    rfl
  have hk : lap.strides.length = k := by
    rw [← triangular.directions, ← Array.length_toList, hdirections, List.length_map]
  have hsum := (triangular.point_update hx).2
  have hresidual (c : ℕ → 𝕜) : point n b - A (point n lap.start +
      ∑ j ∈ Finset.range k, c j • lap.cycle.direction n j) =
      point n r - ∑ j ∈ Finset.range k, c j • A (lap.cycle.direction n j) := by
    rw [map_add, map_sum, hr, sub_add_eq_sub_sub]
    simp only [map_smul]
  constructor
  · rw [before, hr]
    rfl
  · exact after
  · exact length_le
  · exact moves
  · exact ⟨r, hr, before ▸ trail⟩
  · exact hdirections
  · intro j hj
    obtain ⟨v, found, answered⟩ := trail.preconditioned j hj
    -- a cycle starts with one basis vector, so step `j` finds vector `j` as the newest one
    rw [show (start r ‖point n r‖).basis.size = 1 from rfl, Nat.sub_self, Nat.zero_add] at found
    exact ⟨v, found, answered⟩
  · rw [hk]
    exact hsum
  · intro c
    rw [hk, residualNorm, Lap.finish, hsum, hresidual, hresidual]
    exact triangular.norm_sub_le c

/-! ## The loops -/

section Loops

variable (represents : Represents system A) (solver : Gmres ℝ)

include represents

/-- The steps of a cycle lead to its end, and however it ends, its columns are triangular
coordinates of its images. -/
lemma follow_spec {r : EuclideanSpace 𝕜 (Fin n)} (initial : ℝ) {norm : ℝ} (nonneg : 0 ≤ norm)
    (steps iteration : ℕ) {cycle : Cycle 𝕜 ℝ} {k : ℕ} {u : ℕ → EuclideanSpace 𝕜 (Fin n)}
    (running : Running A r cycle k u) :
    Always (fun (strides, finish) => Trail system A cycle strides finish ∧
        strides.length ≤ steps ∧ (0 < steps → strides ≠ []) ∧ ∃ k u, Triangular A r finish k u)
      (follow solver system n initial norm steps iteration cycle) := by
  induction steps generalizing iteration cycle k u with
  | zero =>
    exact .pure ⟨.none cycle, Nat.le_refl 0, fun h => absurd h (Nat.not_lt_zero 0), k, u,
      running.toTriangular⟩
  | succ steps ih =>
    have hframe : Frame 𝕜 cycle.basis.size (cycle.vector n) :=
      running.basis.symm ▸ running.basisFrame
    have nonempty : 0 < cycle.basis.size := running.basis.symm ▸ k.succ_pos
    refine (probe_spec represents nonempty running.basisSizes hframe).bind fun s hs => ?_
    obtain ⟨rfl, stepped⟩ := hs
    have found := stepped.toFound
    refine .ite (fun _ => ?_) fun hends => ?_
    · exact .pure ⟨.last stepped, Nat.succ_le_succ (Nat.zero_le _), fun _ => List.cons_ne_nil _ _,
        k + 1, _, running.after found⟩
    -- a step that leaves nothing is a breakdown, and the cycle does not go on after it
    have hrest : s.rest ≠ 0 := by
      intro hzero
      refine hends (Bool.or_eq_true_iff.mpr (.inr (decide_eq_true ?_)))
      rw [hzero, Magnitude.breakdown_real]
      positivity
    refine (ih (iteration + 1) (running.grown found hrest)).bind ?_
    rintro ⟨strides, finish⟩ ⟨trail, length_le, -, triangular⟩
    exact .pure ⟨.next stepped trail, Nat.succ_le_succ length_le, fun _ => List.cons_ne_nil _ _,
      triangular⟩

/-- Every cycle starts from the solution of the one before and ends with the best one. -/
lemma laps_spec (hb : b.size = n) (initial : ℝ) (cycles iteration : ℕ) {x r : Array 𝕜}
    (hx : x.size = n) (hr : r.size = n) (residual : point n r = point n b - A (point n x))
    (nonzero : point n r ≠ 0) :
    Always (fun (laps, stats, finish) => Linked iteration x laps stats.iterations finish ∧
        (0 < cycles → laps ≠ []) ∧
        (∀ lap ∈ laps, lap.Minimal system A b solver.restart) ∧
        stats.finalResidual = residualNorm A b finish)
      (laps solver system b initial cycles iteration x r ‖point n r‖) := by
  induction cycles generalizing iteration x r with
  | zero =>
    exact .pure ⟨⟨rfl, rfl⟩, fun h => absurd h (Nat.not_lt_zero 0),
      fun _ h => absurd h List.not_mem_nil, by rw [residual]; rfl⟩
  | succ cycles ih =>
    rw [laps, hb]
    refine (follow_spec represents solver initial (norm_nonneg _) solver.restart iteration
      (running_start hr nonzero)).bind ?_
    rintro ⟨strides, cycle⟩ ⟨trail, length_le, moves, k, u, triangular⟩
    obtain ⟨hsize, -⟩ := triangular.point_update hx
    refine (represents.residual hb hsize hr).bind ?_
    rintro r' ⟨hr', hresidual⟩
    refine (represents.norm hr').bind fun after hafter => ?_
    let lap : Lap 𝕜 ℝ := ⟨iteration, x, ‖point n r‖, strides, cycle, after⟩
    have hnorm : after = residualNorm A b lap.finish := by rw [hafter, hresidual]; rfl
    have hminimal : lap.Minimal system A b solver.restart :=
      triangular.minimal trail length_le moves hx residual rfl hnorm
    refine .ite (fun _ => ?_) fun hstop => ?_
    · exact .pure ⟨⟨⟨rfl, rfl⟩, rfl, rfl⟩, fun _ => List.cons_ne_nil _ _,
        List.forall_mem_singleton.mpr hminimal, hnorm⟩
    · -- the next cycle divides by the norm, but the solver has stopped if that is zero
      have hzero : point n r' ≠ 0 := by
        intro hnone
        refine hstop (Bool.or_eq_true_iff.mpr (.inr (beq_iff_eq.mpr ?_)))
        rw [hafter, hnone, norm_zero]
      have hlater := ih (iteration + strides.length) hsize hr' hresidual hzero
      rw [← hafter] at hlater
      refine hlater.bind ?_
      rintro ⟨later, stats, finish⟩ ⟨hlinked, -, hlaps, hstats⟩
      exact .pure ⟨⟨⟨rfl, rfl⟩, hlinked⟩, fun _ => List.cons_ne_nil _ _,
        List.forall_mem_cons.mpr ⟨hminimal, hlaps⟩, hstats⟩

/-- The course of a whole solve. -/
lemma watched_spec (nonneg : 0 ≤ solver.stopping.atol) (hb : b.size = n) {x : Array 𝕜}
    (hx : x.size = n) :
    Always (Solved system A b solver x) (watched solver system n b x) := by
  rw [watched, checkLengths_eq_ok (hx.trans hb.symm) hb, hb]
  refine (represents.residual hb hx Array.size_replicate).bind ?_
  rintro r ⟨hr, hresidual⟩
  refine (represents.norm hr).bind fun norm hnorm => ?_
  have hinitial : norm = residualNorm A b x := by rw [hnorm, hresidual]; rfl
  refine .ite (fun hreached => ?_) fun hreached => .ite (fun hcrowded => ?_) fun hroom => ?_
  · have small : residualNorm A b x ≤ solver.stopping.target (residualNorm A b x) :=
      hinitial ▸ of_decide_eq_true hreached
    exact .pure ⟨.inl small, ⟨rfl, rfl⟩, fun _ => .inl small,
      fun _ h => absurd h List.not_mem_nil, hinitial, hinitial.le⟩
  · refine .pure ⟨rfl, fun room => ?_⟩
    rw [← hinitial] at room
    rcases room with small | none | fits
    · exact hreached (decide_eq_true small)
    · exact absurd none hcrowded.1.ne'
    · exact absurd fits (Nat.not_lt.mpr hcrowded.2)
  · have room : solver.HasRoom (residualNorm A b x) := by
      rcases Nat.eq_zero_or_pos solver.stopping.maxIterations with none | some
      · exact .inr (.inl none)
      · exact .inr (.inr (Nat.not_le.mp fun crowded => hroom ⟨some, crowded⟩))
    -- a residual of zero reaches every target, as the tolerance is not negative
    have hzero : point n r ≠ 0 := by
      intro hnone
      refine hreached (decide_eq_true ?_)
      rw [hnorm, hnone, norm_zero, Stopping.target, Magnitude.larger_real]
      exact le_max_of_le_right nonneg
    rw [hnorm]
    refine (laps_spec represents solver hb ‖point n r‖ solver.stopping.maxIterations 0 hx hr
      hresidual hzero).bind ?_
    rintro ⟨laps, stats, finish⟩ ⟨hlinked, hmoves, hlaps, hstats⟩
    refine .pure ⟨room, hlinked, fun none => .inr ?_,
      fun lap h => ⟨hlaps lap h, (hlaps lap h).after_le⟩,
      hstats, hstats.trans_le (hlinked.residualNorm_le hlaps)⟩
    exact Nat.eq_zero_of_not_pos fun some => hmoves some none

/-- Over the real or the complex numbers, a process on its own solves with a linear operator, any
preconditioner and tolerances that are not negative. If there is room for the coefficients of a
cycle, or if none is needed, each cycle ends with the solution of the least residual along its
directions, one for every step. So the residual never grows, and the norm that is reported is that
of the solution. Otherwise the solve fails. -/
theorem solve_minimal (nonneg : 0 ≤ solver.stopping.atol) (hb : b.size = n) {x : Array 𝕜}
    (hx : x.size = n) :
    Always (Solved system A b solver x) (watched solver system n b x) ∧
      solver.solve system n b x = Except.map (·.2) <$> watched solver system n b x :=
  ⟨watched_spec represents solver nonneg hb hx, solve_eq_watched solver system n b x⟩

end Loops

/-- A process that counts its steps and multiplies the direction by the count, which starts at
zero. -/
noncomputable def counting : LinearSystem (StateM ℕ) ℂ ℝ :=
  { alone (StateM ℕ) (LinearMap.id : EuclideanSpace ℂ (Fin 2) →ₗ[ℂ] _) with
    precondition := some fun v _ => do
      let count ← getModify (· + 1)
      return v.map ((count : ℂ) * ·) }

lemma represents_counting : Represents (n := 2) counting LinearMap.id where
  operator x _ _ _ := .pure ⟨size_coordinates _, point_coordinates _⟩
  precondition p hp v _ hv _ := by
    obtain rfl := Option.mem_some.mp hp
    exact fun s => by simpa using hv
  reduce _ := .pure rfl

/-- The first direction of this process is zero, and so is the first pivot. -/
theorem counting_solve_minimal :
    Always (Solved (n := 2) counting LinearMap.id #[Complex.I, 2] (ofSettings 2 10 0 0) #[0, 0])
        (watched (ofSettings 2 10 0 0) counting 2 #[Complex.I, 2] #[0, 0]) ∧
      (ofSettings 2 10 0 0).solve counting 2 #[Complex.I, 2] #[0, 0] = Except.map (·.2) <$>
        watched (ofSettings 2 10 0 0) counting 2 #[Complex.I, 2] #[0, 0] :=
  solve_minimal represents_counting (ofSettings 2 10 0 0) (le_refl 0) rfl rfl

/-- The identity on the real numbers. -/
noncomputable def still : LinearSystem (StateM Unit) ℝ ℝ :=
  alone (StateM Unit) (LinearMap.id : EuclideanSpace ℝ (Fin 1) →ₗ[ℝ] _)

lemma represents_still : Represents (n := 1) still LinearMap.id where
  operator _ _ _ _ := .pure ⟨size_coordinates _, point_coordinates _⟩
  precondition p hp := absurd hp (Option.not_mem_none p)
  reduce _ := .pure rfl

/-- A cycle may be allowed more steps than there is room for. Then no cycle ends, although the first
step of one would solve this system. -/
theorem exists_solve_crowded :
    ¬∀ (restart : ℕ) (b x : Array ℝ), b.size = 1 → x.size = 1 →
      Always (fun answer => ∃ stats finish, answer = .ok (stats, finish))
        ((ofSettings restart 10 0 0).solve still 1 b x) := by
  intro solves
  obtain ⟨stats, finish, finished⟩ := solves (2 ^ 60) #[1] #[0] rfl rfl ()
  have solved := watched_spec represents_still (b := #[1]) (x := #[0]) (ofSettings (2 ^ 60) 10 0 0)
    (le_refl 0) rfl rfl ()
  -- the residual at the start is one, and it should become zero
  have large : residualNorm (n := 1) (LinearMap.id : _ →ₗ[ℝ] _) #[1] #[0] = 1 := by
    simp [residualNorm, point, EuclideanSpace.norm_eq]
  have crowded : ¬(ofSettings (2 ^ 60) 10 0 (0 : ℝ)).HasRoom (residualNorm (n := 1)
      (LinearMap.id : _ →ₗ[ℝ] _) #[1] #[0]) := by
    rw [large]
    rintro (small | none | fits)
    · rw [Stopping.target, Magnitude.larger_real, ofSettings, zero_mul, max_self] at small
      exact absurd small (not_le.mpr one_pos)
    · exact absurd none (by decide)
    · exact absurd fits (by decide)
  rw [solve_eq_watched] at finished
  change Except.map _ (Id.run ((watched _ still 1 #[1] #[0]).run ())).1 = _ at finished
  rcases answer :
    (Id.run ((watched (ofSettings (2 ^ 60) 10 0 (0 : ℝ)) still 1 #[1] #[0]).run ())).1 with e | course
  · rw [answer] at finished
    cases finished
  · rw [answer] at solved
    exact crowded solved.1

end DomainDecomposition.Gmres
