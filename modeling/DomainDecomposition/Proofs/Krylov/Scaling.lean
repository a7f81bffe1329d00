import DomainDecomposition.Proofs.Krylov.Arnoldi

/-!
# Solving on another scale

A right-hand side and a start that are `c` times as large. In exact arithmetic and with no absolute
tolerance, the vectors of a cycle and its triangular matrix stay as they are, and its right-hand
side, the solution and all norms of residuals are `c` times as large. The tests for convergence
compare two such norms. The test for breakdowns does not: it compares what is left of a direction,
which stays the same, with the norm of the residual, which does not.

* `solve_scaled`: a solve on another scale, as long as the breakdowns are the same,
* `swap_solve_not_scaled`: they need not be the same.
-/

namespace DomainDecomposition.Gmres

variable {n : ℕ}

/-- A cycle with `c` times the right-hand side. -/
noncomputable def Cycle.amplified (c : ℝ) (cycle : Cycle ℝ ℝ) : Cycle ℝ ℝ :=
  { cycle with right := cycle.right.map (c * ·) }

/-- A step of a cycle with `c` times the right-hand side. -/
noncomputable def Stride.amplified (c : ℝ) (s : Stride ℝ ℝ) : Stride ℝ ℝ :=
  { s with cycle := s.cycle.amplified c }

/-- An answer on a scale that is `c` times as large. -/
noncomputable def scaledAnswer (c : ℝ) (answer : SolveStats ℝ × Array ℝ) :
    SolveStats ℝ × Array ℝ :=
  ({ answer.1 with finalResidual := c * answer.1.finalResidual }, scaled c answer.2)

variable {A : EuclideanSpace ℝ (Fin n) →ₗ[ℝ] EuclideanSpace ℝ (Fin n)} {c : ℝ}

/-! ## Vectors -/

section Vectors

lemma scaled_apply (c : ℝ) (x : Array ℝ) : scaled c x = x.map (· * c) :=
  rfl

lemma coordinates_smul (c : ℝ) (v : EuclideanSpace ℝ (Fin n)) :
    coordinates (c • v) = scaled c (coordinates v) := by
  refine Array.ext (by simp [scaled_apply]) fun i _ _ => ?_
  simp [coordinates, scaled_apply, mul_comm]

lemma residual_scaled (b x old old' : Array ℝ) :
    residual (alone Id A) (scaled c b) (scaled c x) old' =
      (scaled c (residual (alone Id A) b x old) : Array ℝ) := by
  change Array.zipWith (fun p q => q - p) (coordinates (A (point n (scaled c x)))) (scaled c b) =
    scaled c (Array.zipWith (fun p q => q - p) (coordinates (A (point n x))) b)
  rw [point_scaled, map_smul, coordinates_smul]
  simp only [scaled_apply, Array.zipWith_map, Array.map_zipWith, sub_mul, RCLike.ofReal_real_eq_id,
    id_eq]

lemma sqrt_ownNormSq_scaled (pos : 0 < c) (x : Array ℝ) :
    √(InnerProduct.ownNormSq (scaled c x)) = c * √(InnerProduct.ownNormSq x) := by
  have hsum : (InnerProduct.ownNormSq (scaled c x) : ℝ) = c ^ 2 * InnerProduct.ownNormSq x := by
    rw [InnerProduct.ownNormSq_eq_sum, InnerProduct.ownNormSq_eq_sum, ← List.sum_map_mul_left]
    simp [scaled_apply, Function.comp_def, mul_pow, mul_comm]
  rw [hsum, Real.sqrt_mul (sq_nonneg c), Real.sqrt_sq pos.le]

lemma start_scaled (pos : 0 < c) (r : Array ℝ) (norm : ℝ) :
    start (scaled c r) (c * norm) = (start r norm).amplified c := by
  -- the direction of the residual does not depend on its length, also if `norm` is zero
  have hfactor (v : ℝ) : v * c * (1 / (c * norm)) = v * (1 / norm) := by
    field_simp
  have hbasis : scaled (1 / (c * norm)) (scaled c r) = scaled (1 / norm) r := by
    simp only [scaled_apply, Array.map_map, Function.comp_def, hfactor]
  simp only [start, Cycle.amplified, hbasis, List.map_toArray, List.map_cons, List.map_nil]
  rfl

end Vectors

/-! ## One step -/

section Step

lemma getD_map_mul (right : Array ℝ) (i : ℕ) :
    (right.map (c * ·)).getD i 0 = c * right.getD i 0 := by
  by_cases hi : i < right.size
  · simp [Array.getD, hi]
  · simp [Array.getD, hi]

lemma after_amplified (s : Stride ℝ ℝ) : (s.amplified c).after = s.after.amplified c := by
  -- the new rotation is made of the column only, so it is the same on both scales
  have hturn (g : Rotation ℝ ℝ) (x : ℝ) :
      g.apply (c * x) 0 = (c * (g.apply x 0).1, c * (g.apply x 0).2) := by
    simp only [Rotation.apply_exact, mul_zero, add_zero, mul_neg, mul_left_comm c]
  simp only [Stride.amplified, Stride.after, Cycle.append, Cycle.amplified, getD_map_mul, hturn]
  simp

lemma estimate_amplified (pos : 0 < c) (s : Stride ℝ ℝ) :
    (s.amplified c).estimate = c * s.estimate := by
  rw [Stride.estimate, after_amplified, Stride.estimate, Scalar.modulus_exact,
    Scalar.modulus_exact]
  cases h : s.after.right.back? with
  | none => simp [Cycle.amplified, h]
  | some t => simp [Cycle.amplified, h, abs_of_pos pos]

lemma grown_amplified (s : Stride ℝ ℝ) : (s.amplified c).grown = s.grown.amplified c := by
  rw [Stride.grown, after_amplified]
  rfl

end Step

/-! ## The solution -/

section Solution

lemma solveUnknown_mul (h : ℕ → ℕ → ℝ) (g : ℕ → ℝ) (i : ℕ) (behind : List ℝ) :
    solveUnknown h (fun i => c * g i) i (behind.map (c * ·)) = c * solveUnknown h g i behind := by
  have hfold (behind : List ℝ) (k : ℕ) (s : ℝ) :
      ((behind.map (c * ·)).zipIdx k).foldl (fun s (y, j) => s - h i j * y) (c * s) =
        c * (behind.zipIdx k).foldl (fun s (y, j) => s - h i j * y) s := by
    induction behind generalizing k s with
    | nil => rfl
    | cons y behind ih =>
      have hstep : c * s - h i k * (c * y) = c * (s - h i k * y) := by ring
      simp only [List.map_cons, List.zipIdx_cons, List.foldl_cons, hstep, ih]
  simp only [solveUnknown, hfold]
  split
  · rw [mul_div_assoc]
  · rw [mul_zero]

lemma solveUnknowns_mul (h : ℕ → ℕ → ℝ) (g : ℕ → ℝ) (i : ℕ) (known : List ℝ) :
    solveUnknowns h (fun i => c * g i) i (known.map (c * ·)) =
      (solveUnknowns h g i known).map (c * ·) := by
  induction i generalizing known with
  | zero => rfl
  | succ i ih => rw [solveUnknowns, solveUnknown_mul, solveUnknowns, ← ih, List.map_cons]

lemma coefficients_amplified (cycle : Cycle ℝ ℝ) :
    (cycle.amplified c).coefficients = cycle.coefficients.map (c * ·) := by
  have hright : (fun i => (cycle.amplified c).right.getD i 0) =
      fun i => c * cycle.right.getD i 0 := funext fun i => getD_map_mul _ i
  rw [Cycle.coefficients, hright]
  exact solveUnknowns_mul _ _ _ []

lemma update_amplified (cycle : Cycle ℝ ℝ) (x : Array ℝ) :
    (cycle.amplified c).update (scaled c x) = scaled c (cycle.update x) := by
  have hfold (ys : List ℝ) (zs : List (Array ℝ)) (x : Array ℝ) :
      ((ys.map (c * ·)).zip zs).foldl
        (fun x (y, z) => Array.zipWith (fun xi zi => xi + y * zi) x z) (scaled c x) =
      scaled c ((ys.zip zs).foldl
        (fun x (y, z) => Array.zipWith (fun xi zi => xi + y * zi) x z) x) := by
    induction ys generalizing zs x with
    | nil => rfl
    | cons y ys ih =>
      cases zs with
      | nil => rfl
      | cons z zs =>
        have hstep : Array.zipWith (fun xi zi => xi + c * y * zi) (scaled c x) z =
            scaled c (Array.zipWith (fun xi zi => xi + y * zi) x z) := by
          simp only [scaled_apply, Array.zipWith_map_left, Array.map_zipWith]
          congr 1
          funext xi zi
          ring
        simp only [List.map_cons, List.zip_cons_cons, List.foldl_cons, hstep, ih]
  rw [Cycle.update, coefficients_amplified]
  exact hfold _ _ _

end Solution

/-! ## Tests -/

section Tests

variable (solver : Gmres ℝ)

/-- With no absolute tolerance, convergence is a matter of two norms. -/
lemma reached_mul (pos : 0 < c) (relative : solver.stopping.atol = 0) (residual initial : ℝ) :
    solver.stopping.reached (c * residual) (c * initial) =
      solver.stopping.reached residual initial := by
  have htarget : solver.stopping.target (c * initial) = c * solver.stopping.target initial := by
    rw [Stopping.target, Stopping.target, relative, Magnitude.larger_real, Magnitude.larger_real,
      mul_left_comm, mul_max_of_nonneg _ _ pos.le, mul_zero]
  rw [Stopping.reached, Stopping.reached, htarget]
  exact decide_eq_decide.mpr (mul_le_mul_iff_right₀ pos)

lemma check_mul (pos : 0 < c) (relative : solver.stopping.atol = 0) (residual initial : ℝ)
    (iteration : ℕ) :
    solver.stopping.check (c * residual) (c * initial) iteration =
      ((solver.stopping.check residual initial iteration).1,
        { (solver.stopping.check residual initial iteration).2 with
          finalResidual := c * residual }) := by
  rw [Stopping.check, reached_mul solver pos relative, Stopping.check]

lemma ends_amplified (pos : 0 < c) (relative : solver.stopping.atol = 0) (initial norm : ℝ)
    (iteration : ℕ) {s : Stride ℝ ℝ}
    (same : s.rest ≤ Magnitude.breakdown * (c * norm) ↔ s.rest ≤ Magnitude.breakdown * norm) :
    (s.amplified c).ends solver (c * initial) (c * norm) iteration =
      s.ends solver initial norm iteration := by
  rw [Stride.ends, estimate_amplified pos, check_mul solver pos relative, Stride.ends]
  exact congrArg (_ || ·) (decide_eq_decide.mpr same)

end Tests

/-! ## The loops -/

section Loops

variable (solver : Gmres ℝ)

lemma follow_succ (length : ℕ) (initial norm : ℝ) (steps iteration : ℕ) (cycle : Cycle ℝ ℝ)
    {s : Stride ℝ ℝ} (hs : probe (alone Id A) length cycle = s) :
    follow solver (alone Id A) length initial norm (steps + 1) iteration cycle =
      if s.ends solver initial norm (iteration + 1) then ([s], s.after)
      else (follow solver (alone Id A) length initial norm steps (iteration + 1) s.grown).map
        (s :: ·) id :=
  hs ▸ rfl

/-- The steps of a cycle are the same on both scales, up to the right-hand side. -/
lemma follow_amplified (pos : 0 < c) (relative : solver.stopping.atol = 0) (length : ℕ)
    (initial norm : ℝ) (steps iteration : ℕ) (cycle : Cycle ℝ ℝ)
    (same : ∀ s ∈ (follow solver (alone Id A) length initial norm steps iteration cycle).1,
      (s.rest ≤ Magnitude.breakdown * (c * norm) ↔ s.rest ≤ Magnitude.breakdown * norm)) :
    follow solver (alone Id A) length (c * initial) (c * norm) steps iteration
      (cycle.amplified c) =
    (follow solver (alone Id A) length initial norm steps iteration cycle).map
      (List.map (Stride.amplified c)) (Cycle.amplified c) := by
  induction steps generalizing iteration cycle with
  | zero => rfl
  | succ steps ih =>
    obtain ⟨s, hs⟩ : ∃ s, probe (alone Id A) length cycle = s := ⟨_, rfl⟩
    have hs' : probe (alone Id A) length (cycle.amplified c) = s.amplified c :=
      congrArg (Stride.amplified c) hs
    rw [follow_succ solver length initial norm steps iteration cycle hs] at same ⊢
    rw [follow_succ solver length (c * initial) (c * norm) steps iteration _ hs']
    by_cases hends : s.ends solver initial norm (iteration + 1)
    · rw [if_pos hends] at same ⊢
      have hsame := same s (List.mem_singleton.mpr rfl)
      rw [if_pos ((ends_amplified solver pos relative initial norm _ hsame).trans hends),
        after_amplified]
      rfl
    · rw [if_neg hends] at same ⊢
      have hsame := same s (List.mem_cons_self ..)
      rw [if_neg (by rwa [ends_amplified solver pos relative initial norm _ hsame]),
        grown_amplified, ih (iteration + 1) s.grown fun t ht => same t (List.mem_cons_of_mem _ ht)]
      rfl

lemma laps_succ (b : Array ℝ) (initial : ℝ) (cycles iteration : ℕ) (x r : Array ℝ) (norm : ℝ)
    {steps : List (Stride ℝ ℝ) × Cycle ℝ ℝ}
    (hsteps : follow solver (alone Id A) b.size initial norm solver.restart iteration
      (start r norm) = steps)
    {r' : Array ℝ} (hr' : residual (alone Id A) b (steps.2.update x) r = r') {after : ℝ}
    (hafter : √(InnerProduct.ownNormSq r') = after) :
    laps solver (alone Id A) b initial (cycles + 1) iteration x r norm =
      if (solver.stopping.check after initial (iteration + steps.1.length)).1 || after == 0 then
        ([⟨iteration, x, norm, steps.1, steps.2, after⟩],
          (solver.stopping.check after initial (iteration + steps.1.length)).2,
          steps.2.update x)
      else
        (laps solver (alone Id A) b initial cycles (iteration + steps.1.length)
          (steps.2.update x) r' after).map
          (⟨iteration, x, norm, steps.1, steps.2, after⟩ :: ·) id := by
  subst hsteps hr' hafter
  rfl

/-- The cycles answer the same on both scales, up to the factor. -/
lemma laps_scaled (pos : 0 < c) (relative : solver.stopping.atol = 0) (b : Array ℝ)
    (initial : ℝ) (cycles iteration : ℕ) (x r : Array ℝ) (norm : ℝ)
    (same : ∀ lap ∈ (laps solver (alone Id A) b initial cycles iteration x r norm).1,
      ∀ s ∈ lap.strides, (s.rest ≤ Magnitude.breakdown * (c * lap.before) ↔
        s.rest ≤ Magnitude.breakdown * lap.before)) :
    (laps solver (alone Id A) (scaled c b) (c * initial) cycles iteration (scaled c x) (scaled c r)
      (c * norm)).2 =
    scaledAnswer c (laps solver (alone Id A) b initial cycles iteration x r norm).2 := by
  induction cycles generalizing iteration x r norm with
  | zero =>
    exact Prod.ext (congrArg Prod.snd (check_mul solver pos relative norm initial iteration)) rfl
  | succ cycles ih =>
    obtain ⟨steps, hsteps⟩ : ∃ steps, follow solver (alone Id A) b.size initial norm solver.restart
      iteration (start r norm) = steps := ⟨_, rfl⟩
    obtain ⟨r', hr'⟩ : ∃ r', residual (alone Id A) b (steps.2.update x) r = r' := ⟨_, rfl⟩
    obtain ⟨after, hafter⟩ : ∃ after, √(InnerProduct.ownNormSq r') = after := ⟨_, rfl⟩
    have hunfold := laps_succ solver b initial cycles iteration x r norm hsteps hr' hafter
    -- this cycle is one of those whose breakdowns are the same
    have hfirst : ∀ s ∈ steps.1, (s.rest ≤ Magnitude.breakdown * (c * norm) ↔
        s.rest ≤ Magnitude.breakdown * norm) := by
      refine same ⟨iteration, x, norm, steps.1, steps.2, after⟩ ?_
      rw [hunfold]
      split
      · exact List.mem_singleton.mpr rfl
      · exact List.mem_cons_self ..
    have hsteps' : follow solver (alone Id A) (scaled c b).size (c * initial) (c * norm)
        solver.restart iteration (start (scaled c r) (c * norm)) =
        (steps.1.map (Stride.amplified c), steps.2.amplified c) := by
      rw [start_scaled pos, scaled_apply, Array.size_map]
      rw [follow_amplified solver pos relative _ _ _ _ _ _ (hsteps ▸ hfirst), hsteps]
      rfl
    have hr'' : residual (alone Id A) (scaled c b)
        ((steps.2.amplified c).update (scaled c x)) (scaled c r) = scaled c r' := by
      rw [update_amplified, residual_scaled _ _ r, hr']
    -- all that the loop tests next is the norm `after`, which is `c` times as large
    have hafter' : √(InnerProduct.ownNormSq (scaled c r')) = c * after := by
      rw [sqrt_ownNormSq_scaled pos, hafter]
    have hunfold' := laps_succ solver (scaled c b) (c * initial) cycles iteration (scaled c x)
      (scaled c r) (c * norm) hsteps' hr'' hafter'
    have hzero : (c * after == 0) = (after == 0) := by
      simp [pos.ne']
    simp only [List.length_map, check_mul solver pos relative, hzero, update_amplified] at hunfold'
    rw [hunfold] at same ⊢
    rw [hunfold']
    split
    · rfl
    · rename_i hgo
      rw [if_neg hgo] at same
      exact ih (iteration + steps.1.length) (steps.2.update x) r' after
        fun lap hlap => same lap (List.mem_cons_of_mem _ hlap)

lemma watched_eq {b x : Array ℝ}
    (hchecked : (checkLength b.size x.size >>= fun _ => checkLength n b.size) = .ok ())
    {r : Array ℝ} (hr : residual (alone Id A) b x (Array.replicate b.size 0) = r) {norm : ℝ}
    (hnorm : √(InnerProduct.ownNormSq r) = norm) :
    watched solver (alone Id A) n b x =
      if solver.stopping.reached norm norm then .ok (⟨norm, []⟩, ⟨0, norm, true⟩, x)
      else if 0 < solver.stopping.maxIterations ∧ Capacity.limit ≤ solver.tableSize then
        .error .tooLarge
      else
        .ok ((laps solver (alone Id A) b norm solver.stopping.maxIterations 0 x r norm).map
          (⟨norm, ·⟩) id) := by
  subst hr hnorm
  rw [watched, hchecked]
  rfl

/-- A right-hand side and a start that are `c` times as large, with no absolute tolerance: as long
as no breakdown is found on one scale only, the solve takes as many iterations, ends in the same
way, and answers `c` times the solution and the norm of its residual. -/
theorem solve_scaled (pos : 0 < c) (relative : solver.stopping.atol = 0) (b x : Array ℝ)
    (same : ∀ course answer, watched solver (alone Id A) n b x = .ok (course, answer) →
      ∀ lap ∈ course.laps, ∀ s ∈ lap.strides, (s.rest ≤ Magnitude.breakdown * (c * lap.before) ↔
        s.rest ≤ Magnitude.breakdown * lap.before)) :
    solver.solve (alone Id A) n (scaled c b) (scaled c x) =
      Except.map (scaledAnswer c) (solver.solve (alone Id A) n b x) := by
  have hsizes : (checkLength (scaled c b).size (scaled c x).size >>= fun _ =>
      checkLength n (scaled c b).size) =
      (checkLength b.size x.size >>= fun _ => checkLength n b.size) := by
    simp only [scaled_apply, Array.size_map]
  cases hchecked : (checkLength b.size x.size >>= fun _ => checkLength n b.size) with
  | error e =>
    rw [solve, solve, hsizes, hchecked]
    rfl
  | ok _ =>
    obtain ⟨r, hr⟩ : ∃ r, residual (alone Id A) b x (Array.replicate b.size 0) = r := ⟨_, rfl⟩
    obtain ⟨norm, hnorm⟩ : ∃ norm, √(InnerProduct.ownNormSq r) = norm := ⟨_, rfl⟩
    have hr' : residual (alone Id A) (scaled c b) (scaled c x)
        (Array.replicate (scaled c b).size 0) = scaled c r := by
      rw [residual_scaled b x (Array.replicate b.size 0), hr]
    have hnorm' : √(InnerProduct.ownNormSq (scaled c r)) = c * norm := by
      rw [sqrt_ownNormSq_scaled pos, hnorm]
    have hwatched := watched_eq solver hchecked hr hnorm
    have hwatched' := watched_eq solver (hsizes.trans hchecked) hr' hnorm'
    rw [reached_mul solver pos relative] at hwatched'
    rw [solve_eq_watched, solve_eq_watched, hwatched']
    rw [hwatched] at same ⊢
    by_cases hreached : solver.stopping.reached norm norm
    · rw [if_pos hreached, if_pos hreached]
      rfl
    · rw [if_neg hreached] at same
      rw [if_neg hreached, if_neg hreached]
      by_cases hroom : 0 < solver.stopping.maxIterations ∧ Capacity.limit ≤ solver.tableSize
      · rw [if_pos hroom, if_pos hroom]
        rfl
      · rw [if_neg hroom] at same
        rw [if_neg hroom, if_neg hroom]
        have hlaps := laps_scaled solver pos relative b norm _ 0 x r norm (same _ _ rfl)
        exact congrArg Except.ok hlaps

end Loops

/-! ## A scale on which the solver stagnates

The operator below exchanges two coordinates. The first step from the first axis leaves a vector of
length one, which the solver takes to be nothing once the residual is `10 ^ 14`. -/

section Swap

/-- Exchange the coordinates of the plane. -/
noncomputable def swap : EuclideanSpace ℝ (Fin 2) →ₗ[ℝ] EuclideanSpace ℝ (Fin 2) where
  toFun v := WithLp.toLp _ ![v 1, v 0]
  map_add' v w := by ext i; fin_cases i <;> rfl
  map_smul' c v := by ext i; fin_cases i <;> rfl

noncomputable abbrev east : Array ℝ := #[1, 0]

noncomputable abbrev north : Array ℝ := #[0, 1]

noncomputable abbrev origin : Array ℝ := #[0, 0]

lemma coordinates_swap (a b : ℝ) : coordinates (swap (point 2 #[a, b])) = #[b, a] := by
  simp [coordinates, swap, point, Array.ofFn_succ]

lemma ownDot_pair (a b c d : ℝ) : InnerProduct.ownDot #[a, b] #[c, d] = a * c + b * d := by
  simp [InnerProduct.ownDot, Scalar.conj_exact]

lemma ownNormSq_pair (a b : ℝ) : InnerProduct.ownNormSq #[a, b] = a ^ 2 + b ^ 2 := by
  simp [InnerProduct.ownNormSq_eq_sum]

lemma residual_swap (p q a b : ℝ) (old : Array ℝ) :
    residual (alone Id swap) #[p, q] #[a, b] old = (#[p - b, q - a] : Array ℝ) := by
  simp [residual, alone, coordinates_swap]
  rfl

variable (cap : ℕ)

/-- Without tolerances, only a residual of zero will do. -/
lemma reached_ofSettings (residual initial : ℝ) :
    (ofSettings 2 cap (0 : ℝ) 0).stopping.reached residual initial = decide (residual ≤ 0) := by
  simp [Stopping.reached, Stopping.target, ofSettings, Magnitude.larger_real]

lemma room_ofSettings : ¬ (0 < (ofSettings 2 cap (0 : ℝ) 0).stopping.maxIterations ∧
    Capacity.limit ≤ (ofSettings 2 cap (0 : ℝ) 0).tableSize) :=
  fun h => absurd (show Capacity.limit ≤ 3 * 2 from h.2) (by decide)

/-! ### The first step -/

/-- The step along the first axis leaves the second one. -/
noncomputable def firstStride : Stride ℝ ℝ :=
  ⟨start east 1, east, [0], north, 1⟩

lemma probe_first : probe (alone Id swap) 2 (start east 1) = firstStride := by
  simp [probe, direct, alone, start, scaled_apply, project, InnerProduct.dot_pure,
    InnerProduct.norm_pure, coordinates_swap, ownDot_pair, ownNormSq_pair, firstStride]
  rfl

lemma after_first : firstStride.after = ⟨#[east], #[east], #[[1]], #[⟨0, 1⟩], #[0, -1]⟩ := by
  simp [firstStride, Stride.after, Cycle.append, start, scaled_apply, Rotation.zero_zeroing,
    Rotation.apply_exact, Scalar.ofReal_exact]

lemma update_first : firstStride.after.update origin = origin := by
  rw [after_first]
  simp [Cycle.update, Cycle.coefficients, backSubstitution, solveUnknowns, solveUnknown,
    Scalar.modulus_exact]

/-! ### The scale of the unit vectors -/

/-- The cycle before its second step. -/
noncomputable def secondCycle : Cycle ℝ ℝ :=
  ⟨#[east, north], #[east], #[[1]], #[⟨0, 1⟩], #[0, -1]⟩

/-- The step along the second axis leaves nothing. -/
noncomputable def secondStride : Stride ℝ ℝ :=
  ⟨secondCycle, north, [1, 0], origin, 0⟩

lemma grown_first : firstStride.grown = secondCycle := by
  rw [Stride.grown, after_first]
  simp [firstStride, scaled_apply, secondCycle]

lemma probe_second : probe (alone Id swap) 2 secondCycle = secondStride := by
  simp [secondCycle, probe, direct, alone, project, InnerProduct.dot_pure, InnerProduct.norm_pure,
    coordinates_swap, ownDot_pair, ownNormSq_pair, secondStride]
  rfl

lemma after_second : secondStride.after =
    ⟨#[east, north], #[east, north], #[[1], [0, -1]], #[⟨0, 1⟩, ⟨1, 0⟩], #[0, -1, 0]⟩ := by
  simp [secondStride, secondCycle, Stride.after, Cycle.append, Rotation.zeroing_zero,
    Rotation.apply_exact, Scalar.ofReal_exact]

lemma update_second : secondStride.after.update origin = north := by
  rw [after_second]
  simp [Cycle.update, Cycle.coefficients, backSubstitution, solveUnknowns, solveUnknown,
    Scalar.modulus_exact]

lemma ends_first (more : 1 < cap) : firstStride.ends (ofSettings 2 cap 0 0) 1 1 1 = false := by
  rw [Stride.ends, Stride.estimate, after_first, Stopping.check, reached_ofSettings]
  simp [firstStride, ofSettings, Magnitude.breakdown_real, Scalar.modulus_exact, more]
  norm_num

lemma ends_second : secondStride.ends (ofSettings 2 cap 0 0) 1 1 2 = true := by
  rw [Stride.ends, Stride.estimate, after_second, Stopping.check, reached_ofSettings]
  simp [Scalar.modulus_exact]

/-- The only lap, of two steps. -/
noncomputable def swapLap : Lap ℝ ℝ :=
  ⟨0, origin, 1, [firstStride, secondStride], secondStride.after, 0⟩

lemma follow_swap (more : 1 < cap) :
    follow (ofSettings 2 cap 0 0) (alone Id swap) 2 1 1 2 0 (start east 1) =
      ([firstStride, secondStride], secondStride.after) := by
  rw [follow_succ _ _ _ _ _ _ _ probe_first, ends_first cap more, grown_first,
    follow_succ _ _ _ _ _ _ _ probe_second, ends_second]
  rfl

lemma laps_swap :
    laps (ofSettings 2 10 0 0) (alone Id swap) east 1 10 0 origin east 1 =
      (([swapLap], ⟨2, 0, true⟩, north) : _ × _ × _) := by
  have hend : residual (alone Id swap) east (secondStride.after.update origin) east = origin := by
    rw [update_second, residual_swap]
    norm_num
  have hnone : √(InnerProduct.ownNormSq origin) = 0 := by norm_num [ownNormSq_pair]
  rw [laps_succ (ofSettings 2 10 0 0) east 1 9 0 origin east 1 (follow_swap 10 (by norm_num)) hend
    hnone]
  simp [Stopping.check, reached_ofSettings 10, update_second, swapLap]

lemma watched_swap :
    watched (ofSettings 2 10 0 0) (alone Id swap) 2 east origin =
      .ok (⟨1, [swapLap]⟩, ⟨2, 0, true⟩, north) := by
  have hresidual : residual (alone Id swap) east origin (Array.replicate 2 0) = east := by
    rw [residual_swap]
    norm_num
  have hunit : √(InnerProduct.ownNormSq east) = 1 := by norm_num [ownNormSq_pair]
  rw [watched_eq (n := 2) (ofSettings 2 10 0 0) rfl hresidual hunit, reached_ofSettings 10,
    if_neg (by norm_num), if_neg (room_ofSettings 10)]
  exact congrArg (fun answer => Except.ok (Prod.map (Course.mk 1) id answer)) laps_swap

lemma swap_solve :
    (ofSettings 2 10 0 0).solve (alone Id swap) 2 east origin = .ok (⟨2, 0, true⟩, north) := by
  rw [solve_eq_watched, watched_swap]
  rfl

/-- On three times the scale, the same two steps lead to three times the solution. -/
theorem swap_solve_scaled :
    (ofSettings 2 10 0 0).solve (alone Id swap) 2 (scaled 3 east) (scaled 3 origin) =
      .ok (⟨2, 3 * 0, true⟩, scaled 3 north) := by
  rw [solve_scaled (ofSettings 2 10 0 0) (by norm_num) rfl east origin, swap_solve]
  · rfl
  · rw [watched_swap]
    rintro course answer h lap hlap s hs
    cases h
    obtain rfl := List.mem_singleton.mp hlap
    rcases List.mem_pair.mp hs with rfl | rfl
    · norm_num [firstStride, swapLap, Magnitude.breakdown_real]
    · norm_num [secondStride, swapLap, Magnitude.breakdown_real]

/-! ### A large scale -/

section Large

variable {c : ℝ} (large : 10 ^ 14 ≤ c)

include large

/-- The first step is taken to be a breakdown. -/
lemma follow_stagnates (iteration : ℕ) :
    follow (ofSettings 2 cap 0 0) (alone Id swap) (scaled c east).size (c * 1) (c * 1) 2 iteration
      (start (scaled c east) (c * 1)) =
    ([firstStride.amplified c], (firstStride.amplified c).after) := by
  have pos : 0 < c := lt_of_lt_of_le (by norm_num) large
  have hprobe : probe (alone Id swap) (scaled c east).size ((start east 1).amplified c) =
      firstStride.amplified c := congrArg (Stride.amplified c) probe_first
  have hends : (firstStride.amplified c).ends (ofSettings 2 cap 0 0) (c * 1) (c * 1)
      (iteration + 1) = true := by
    refine Bool.or_eq_true_iff.mpr (.inr (decide_eq_true ?_))
    change (1 : ℝ) ≤ Magnitude.breakdown * (c * 1)
    rw [Magnitude.breakdown_real]
    linarith
  rw [start_scaled pos, follow_succ _ _ _ _ _ _ _ hprobe, if_pos hends]

/-- So every cycle ends where it has started, until the iterations are used up. -/
lemma laps_stagnate {cycles iteration : ℕ} (left : iteration + cycles = cap) :
    (laps (ofSettings 2 cap 0 0) (alone Id swap) (scaled c east) (c * 1) cycles iteration
      (scaled c origin) (scaled c east) (c * 1)).2 =
    (⟨cap, c * 1, false⟩, scaled c origin) := by
  have pos : 0 < c := lt_of_lt_of_le (by norm_num) large
  have hreached : (ofSettings 2 cap (0 : ℝ) 0).stopping.reached (c * 1) (c * 1) = false := by
    rw [reached_ofSettings]
    simpa using pos
  induction cycles generalizing iteration with
  | zero =>
    obtain rfl : iteration = cap := left
    exact Prod.ext (congrArg (SolveStats.mk iteration (c * 1)) hreached) rfl
  | succ cycles ih =>
    have hupdate : (firstStride.amplified c).after.update (scaled c origin) = scaled c origin := by
      rw [after_amplified, update_amplified, update_first]
    have hresidual : residual (alone Id swap) (scaled c east)
        ((firstStride.amplified c).after.update (scaled c origin)) (scaled c east) =
        scaled c east := by
      rw [hupdate, residual_scaled _ _ #[], residual_swap]
      norm_num
    have hnorm : √(InnerProduct.ownNormSq (scaled c east)) = c * 1 := by
      rw [sqrt_ownNormSq_scaled pos]
      norm_num [ownNormSq_pair]
    rw [laps_succ (ofSettings 2 cap 0 0) (scaled c east) (c * 1) cycles iteration _ _ _
      (follow_stagnates cap large iteration) hresidual hnorm, hupdate]
    simp only [List.length_singleton, Stopping.check, hreached, Bool.false_or]
    split
    · rename_i hstop
      have hlast : cap ≤ iteration + 1 := by simpa [ofSettings, pos.ne'] using hstop
      rw [show iteration + 1 = cap by omega]
    · exact ih (by omega)

/-- From `10 ^ 14` times the first axis on, the solver uses up all iterations and does not move. -/
theorem swap_solve_stagnates :
    (ofSettings 2 cap 0 0).solve (alone Id swap) 2 (scaled c east) (scaled c origin) =
      .ok (⟨cap, c * 1, false⟩, scaled c origin) := by
  have pos : 0 < c := lt_of_lt_of_le (by norm_num) large
  have hresidual : residual (alone Id swap) (scaled c east) (scaled c origin)
      (Array.replicate (scaled c east).size 0) = scaled c east := by
    rw [residual_scaled _ _ #[], residual_swap]
    norm_num
  have hnorm : √(InnerProduct.ownNormSq (scaled c east)) = c * 1 := by
    rw [sqrt_ownNormSq_scaled pos]
    norm_num [ownNormSq_pair]
  have hreached : (ofSettings 2 cap (0 : ℝ) 0).stopping.reached (c * 1) (c * 1) = false := by
    rw [reached_ofSettings]
    simpa using pos
  have hchecked : (checkLength (scaled c east).size (scaled c origin).size >>= fun _ =>
      checkLength 2 (scaled c east).size) = .ok () :=
    checkLengths_eq_ok (by simp [scaled_apply]) (by simp [scaled_apply])
  rw [solve_eq_watched, watched_eq (n := 2) (ofSettings 2 cap 0 0) hchecked hresidual hnorm,
    hreached, if_neg Bool.false_ne_true, if_neg (room_ofSettings cap)]
  exact congrArg Except.ok (laps_stagnate cap large (Nat.zero_add cap))

end Large

/-- On the scale `2 ^ 60`, the answer is not the scaled one: the solve of the unit vectors takes two
steps and converges. -/
theorem swap_solve_not_scaled :
    (ofSettings 2 10 0 0).solve (alone Id swap) 2 (scaled (2 ^ 60) east)
      (scaled (2 ^ 60) origin) ≠
    Except.map (scaledAnswer (2 ^ 60))
      ((ofSettings 2 10 0 0).solve (alone Id swap) 2 east origin) := by
  rw [swap_solve_stagnates 10 (by norm_num), swap_solve]
  intro h
  exact Bool.false_ne_true (congrArg (·.1.converged) (Except.ok.inj h))

end Swap

end DomainDecomposition.Gmres
