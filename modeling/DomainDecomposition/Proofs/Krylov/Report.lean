import DomainDecomposition.Proofs.Krylov.Dialogue
import DomainDecomposition.Proofs.Scalar.Rational

/-!
# What a solve reports

The statistics of a solve are compared with the calls that it has made. `Dialogue.Ends` lists the
calls of a dialogue with the answers that they got, whatever these are, so operators and
preconditioners may be anything and reductions may involve any number of ranks. No law of arithmetic
is used, and comparisons may all fail, as they do for numbers that are not numbers.

* `restarts_add`: the bound on the number of cycles is never what ends a solve,
* `Reported`: the norm reported is computed anew for the solution returned, and the iterations are
  used up where the solve has neither converged nor come to a residual of zero,
* `solve_reports`: every solve ends, and reports so, if there is room for the coefficients of a
  cycle.
-/

namespace DomainDecomposition

variable {T R α β : Type}

namespace Dialogue

/-! ## Dialogues and their ends -/

/-- A call, and the answer that it got. -/
structure Event (T R : Type) where
  call : Call T R
  answer : call.Answer

/-- A dialogue ends with a result, once some calls have been answered. -/
inductive Ends : Dialogue T R α → List (Event T R) → α → Prop
  | done (a : α) : Ends (.done a) [] a
  | call {c : Call T R} {next : c.Answer → Dialogue T R α} (answer : c.Answer)
      {events : List (Event T R)} {a : α} (later : Ends (next answer) events a) :
      Ends (.call c next) (⟨c, answer⟩ :: events) a

/-- The answers are those of a partner who knows what has been said before. -/
def Answered (respond : List (Event T R) → (c : Call T R) → c.Answer) :
    (past events : List (Event T R)) → Prop
  | _, [] => True
  | past, e :: events => e.answer = respond past e.call ∧ Answered respond (past ++ [e]) events

/-- With every partner, a dialogue comes to an end. -/
lemma exists_ends (respond : List (Event T R) → (c : Call T R) → c.Answer) (d : Dialogue T R α)
    (past : List (Event T R)) : ∃ events a, Ends d events a ∧ Answered respond past events := by
  induction d generalizing past with
  | done a => exact ⟨[], a, .done a, trivial⟩
  | call c next ih =>
    have later := ih (respond past c) (past ++ [⟨c, respond past c⟩])
    obtain ⟨events, a, ends, answered⟩ := later
    exact ⟨_, a, .call _ ends, rfl, answered⟩

lemma Ends.of_done {a b : α} {events : List (Event T R)}
    (ends : Ends (.done a : Dialogue T R α) events b) : events = [] ∧ b = a := by
  cases ends
  exact ⟨rfl, rfl⟩

/-- What was said in a dialogue that consists of two. -/
lemma Ends.of_bind {d : Dialogue T R α} {f : α → Dialogue T R β} {events : List (Event T R)} {b : β}
    (ends : Ends (d >>= f) events b) : ∃ a front back, events = front ++ back ∧
      Ends d front a ∧ Ends (f a) back b := by
  induction d generalizing events with
  | done a => exact ⟨a, [], events, rfl, .done a, ends⟩
  | call c next ih =>
    cases ends with
    | call answer later =>
      obtain ⟨a, front, back, rfl, first, second⟩ := ih answer later
      exact ⟨a, _ :: front, back, rfl, .call answer first, second⟩

/-- Two dialogues that go on in the same way after every end of the first one are the same. -/
lemma bind_congr_ends {d : Dialogue T R α} {f g : α → Dialogue T R β}
    (same : ∀ events a, Ends d events a → f a = g a) : d >>= f = d >>= g := by
  induction d with
  | done a => exact same [] a (.done a)
  | call c next ih =>
    rw [call_bind, call_bind]
    congr 1
    funext answer
    apply ih answer
    intro events a ends
    exact same _ a (.call answer ends)

/-! ## Computing a residual -/

section Measured

variable [Sub T] [Zero R] [Add R] [Scalar T R]

/-- The two calls that compute the norm of `b - A · x`. The operator answers `product`, and the sums
over all ranks are `sums`. -/
def measured (b x old product : Array T) (sums : Array R) : List (Event T R) :=
  [⟨.operator x old, product⟩,
    ⟨.reduce #[InnerProduct.ownNormSq (Array.zipWith (fun p q => q - p) product b)], sums⟩]

/-- The norm that is made of reduced squares. -/
def normOf [Magnitude R] (sums : Array R) : R :=
  Magnitude.sqrt (sums.getD 0 0)

variable [Magnitude R]

lemma Ends.of_residual {p : Bool} {b x old : Array T} {k : Array T → R → Dialogue T R α}
    {events : List (Event T R)} {a : α}
    (ends : Ends (do
      let r ← Gmres.residual (asked p) b x old
      let norm ← InnerProduct.norm (asked p : LinearSystem _ T R).reduce r
      k r norm) events a) :
    ∃ r product sums rest, events = measured b x old product sums ++ rest ∧
      Ends (k r (normOf sums)) rest a := by
  -- the residual and its norm are two calls, one after the other
  change Ends (.call (.operator x old) fun product => .call (.reduce _) fun sums =>
    k (Array.zipWith (fun p q => q - p) product b) (normOf sums)) events a at ends
  cases ends with
  | call product later =>
    cases later with
    | call sums rest => exact ⟨_, product, sums, _, rfl, rest⟩

end Measured

end Dialogue

namespace Gmres

open Dialogue

section Report

variable [Sub T] [Zero R] [Add R] [Mul R] [BEq R] [LE R] [Magnitude R] [Scalar T R]

/-- Statistics that are true of the solution they are answered with. -/
structure Reported (solver : Gmres R) (b : Array T) (initial : R) (events : List (Event T R))
    (stats : SolveStats R) (x : Array T) : Prop where
  iterations_le : stats.iterations ≤ solver.stopping.maxIterations
  /-- The last calls have computed the norm for this solution. -/
  recomputed : ∃ front old product sums, events = front ++ measured b x old product sums ∧
    stats.finalResidual = normOf sums
  converged_iff : stats.converged ↔ stats.finalResidual ≤ solver.stopping.target initial
  /-- Only convergence and a residual of zero end a solve before its iterations are used up. -/
  exhausted : stats.converged = false → (stats.finalResidual == 0) = false →
    stats.iterations = solver.stopping.maxIterations

/-- What was said before makes no difference. -/
lemma Reported.prepend {solver : Gmres R} {b x : Array T} {initial : R}
    {events : List (Event T R)} {stats : SolveStats R} (front : List (Event T R))
    (h : Reported solver b initial events stats x) :
    Reported solver b initial (front ++ events) stats x := by
  obtain ⟨before, old, product, sums, rfl, norm⟩ := h.recomputed
  refine { h with recomputed := ⟨front ++ before, old, product, sums, ?_, norm⟩ }
  exact (List.append_assoc ..).symm

variable [DecidableLE R] {solver : Gmres R}

/-- A check is true of the solution whose residual was computed last. -/
lemma reported_check {b x old product : Array T} {initial : R} {sums : Array R} {iteration : ℕ}
    (within : iteration ≤ solver.stopping.maxIterations)
    (stop : solver.stopping.reached (normOf sums) initial = false → (normOf sums == 0) = false →
      iteration = solver.stopping.maxIterations) :
    Reported solver b initial (measured b x old product sums)
      (solver.stopping.check (normOf sums) initial iteration).2 x where
  iterations_le := within
  recomputed := ⟨[], old, product, sums, rfl, rfl⟩
  converged_iff := decide_eq_true_iff
  exhausted := stop

omit [Zero R] [Add R] [BEq R] in
/-- Whatever else may stop a solve, it goes on only while iterations are left. -/
lemma left_of_not_stop {estimate initial : R} {iteration : ℕ} {other : Bool}
    (goes : ¬((solver.stopping.check estimate initial iteration).1 || other) = true) :
    iteration < solver.stopping.maxIterations := by
  simp only [Stopping.check, Bool.or_eq_true, decide_eq_true_eq] at goes
  omega

end Report

/-! ## Cycles -/

section Cycles

variable [Zero T] [One T] [Add T] [Sub T] [Neg T] [Mul T] [Div T]
variable [Zero R] [One R] [Add R] [Mul R] [Div R] [BEq R]
variable [LT R] [DecidableLT R] [LE R] [DecidableLE R] [Magnitude R] [Scalar T R]
variable {p : Bool} {solver : Gmres R}

omit [Div T] [LT R] [DecidableLT R] in
/-- A cycle takes an iteration at least, and no more than are left. -/
lemma iteration_of_extend {length : ℕ} {initial norm : R} {steps iteration iteration' : ℕ}
    {cycle cycle' : Cycle T R} {events : List (Event T R)} (room : 0 < steps)
    (left : iteration < solver.stopping.maxIterations)
    (ends : Ends (solver.extend (asked p) length initial norm steps iteration cycle) events
      (cycle', iteration')) :
    iteration < iteration' ∧ iteration' ≤ solver.stopping.maxIterations := by
  induction steps generalizing iteration cycle events with
  | zero => omega
  | succ steps ih =>
    unfold extend at ends
    obtain ⟨⟨cycle₁, w, rest⟩, front, back, -, -, second⟩ := ends.of_bind
    simp only at second
    split at second
    · obtain ⟨-, h⟩ := second.of_done
      have hnext : iteration' = iteration + 1 := congrArg Prod.snd h
      omega
    · rename_i goes
      have hleft := left_of_not_stop goes
      rcases Nat.eq_zero_or_pos steps with rfl | hsteps
      · obtain ⟨-, h⟩ := Ends.of_done second
        have hnext : iteration' = iteration + 1 := congrArg Prod.snd h
        omega
      · have := ih hsteps hleft second
        omega

/-- The bound on the number of cycles plays no part once it reaches the number of iterations that
are left. -/
lemma restarts_add (made : 0 < solver.restart) (b : Array T) (initial : R) {cycles : ℕ} (more : ℕ)
    {iteration : ℕ} (left : iteration < solver.stopping.maxIterations)
    (enough : solver.stopping.maxIterations ≤ iteration + cycles) (x r : Array T) (norm : R) :
    solver.restarts (asked p) b initial (cycles + more) iteration x r norm =
      solver.restarts (asked p) b initial cycles iteration x r norm := by
  induction cycles generalizing iteration x r norm with
  | zero => omega
  | succ cycles ih =>
    rw [Nat.succ_add, restarts, restarts]
    apply bind_congr_ends
    rintro events ⟨cycle, iteration'⟩ ends
    have grown := (iteration_of_extend made left ends).1
    refine bind_congr fun r => bind_congr fun norm => ?_
    change (if ((solver.stopping.check norm initial iteration').1 || norm == 0) then _ else _) =
      if ((solver.stopping.check norm initial iteration').1 || norm == 0) then _ else _
    split
    · rfl
    · rename_i goes
      exact ih (left_of_not_stop goes) (by omega) _ _ _

/-- After a cycle at least, what is answered is true. -/
lemma reported_restarts (made : 0 < solver.restart) {b : Array T} {initial : R} {cycles : ℕ}
    {iteration : ℕ} (left : iteration < solver.stopping.maxIterations)
    (enough : solver.stopping.maxIterations ≤ iteration + cycles) {x r x' : Array T} {norm : R}
    {events : List (Event T R)} {stats : SolveStats R}
    (ends : Ends (solver.restarts (asked p) b initial cycles iteration x r norm) events
      (stats, x')) :
    Reported solver b initial events stats x' := by
  induction cycles generalizing iteration x r norm events with
  | zero => omega
  | succ cycles ih =>
    unfold restarts at ends
    obtain ⟨⟨cycle, iteration'⟩, front, back, rfl, first, second⟩ := ends.of_bind
    obtain ⟨grown, within⟩ := iteration_of_extend made left first
    obtain ⟨r', product, sums, rest, rfl, later⟩ := Ends.of_residual second
    apply Reported.prepend
    change Ends (if ((solver.stopping.check (normOf sums) initial iteration').1 ||
      normOf sums == 0) then _ else _) _ _ at later
    split at later
    · rename_i stops
      obtain ⟨rfl, h⟩ := later.of_done
      obtain ⟨rfl, rfl⟩ := Prod.mk.inj h
      rw [List.append_nil]
      apply reported_check within
      intro unreached nonzero
      simp only [Stopping.check, unreached, nonzero, Bool.false_or, Bool.or_false,
        decide_eq_true_eq] at stops
      omega
    · rename_i goes
      apply Reported.prepend
      exact ih (left_of_not_stop goes) (by omega) later

variable {height : ℕ} {b x : Array T}

/-- What an end of a solve with vectors of the right sizes is like. -/
lemma ends_solve (made : 0 < solver.restart) (hx : x.size = b.size) (hb : b.size = height)
    {events : List (Event T R)} {answer : Except Error (SolveStats R × Array T)}
    (ends : Ends (solver.solve (asked p) height b x) events answer) :
    ∃ product sums rest, events = measured b x (Array.replicate b.size 0) product sums ++ rest ∧
      (solver.HasRoom (normOf sums) → ∃ stats x', answer = .ok (stats, x') ∧
        Reported solver b (normOf sums) events stats x' ∧
        (normOf sums ≤ solver.stopping.target (normOf sums) →
          rest = [] ∧ x' = x ∧ stats.iterations = 0)) ∧
      (¬solver.HasRoom (normOf sums) → rest = [] ∧ answer = .error .tooLarge) := by
  rw [solve, checkLengths_eq_ok hx hb] at ends
  obtain ⟨r, product, sums, rest, rfl, later⟩ := Ends.of_residual ends
  refine ⟨product, sums, rest, rfl, ?_⟩
  split at later
  · rename_i reached
    have small := of_decide_eq_true reached
    obtain ⟨rfl, rfl⟩ := later.of_done
    refine ⟨fun _ => ⟨_, x, rfl, ?_, fun _ => ⟨rfl, rfl, rfl⟩⟩, fun crowded => ?_⟩
    · rw [List.append_nil, ← reached]
      exact reported_check (Nat.zero_le _) fun unreached => by simp [reached] at unreached
    · exact absurd (.inl small) crowded
  · rename_i unreached
    have large : ¬normOf sums ≤ solver.stopping.target (normOf sums) :=
      fun small => unreached (decide_eq_true small)
    split at later
    · rename_i full
      obtain ⟨rfl, rfl⟩ := later.of_done
      refine ⟨fun room => ?_, fun _ => ⟨rfl, rfl⟩⟩
      rcases room with small | none | fits
      · exact absurd small large
      · omega
      · omega
    · rename_i fits
      have room : solver.HasRoom (normOf sums) := by
        unfold HasRoom
        omega
      refine ⟨fun _ => ?_, fun crowded => absurd room crowded⟩
      obtain ⟨⟨stats, x'⟩, front, back, rfl, first, second⟩ := later.of_bind
      obtain ⟨rfl, rfl⟩ := second.of_done
      refine ⟨stats, x', rfl, ?_, fun small => absurd small large⟩
      rw [List.append_nil]
      rcases Nat.eq_zero_or_pos solver.stopping.maxIterations with none | left
      · rw [none] at first
        obtain ⟨rfl, h⟩ := first.of_done
        obtain ⟨rfl, rfl⟩ := Prod.mk.inj h
        rw [List.append_nil]
        exact reported_check (Nat.zero_le _) fun _ _ => none.symm
      · apply Reported.prepend
        exact reported_restarts made left (by omega) first

/-- Every solve with vectors of the right sizes comes to an end, whatever its partners answer. If
there is room to go on, the statistics are true of the solution, and a start that meets the target
is returned as it was. Otherwise the lack of room is reported. No solve ends because it was allowed
too few cycles. And `solve` makes these calls with every system, in every monad. -/
theorem solve_reports (p : Bool) (restart maxIterations : ℕ) (rtol atol : R)
    (hx : x.size = b.size) (hb : b.size = height) :
    let solver := ofSettings restart maxIterations rtol atol
    let solve : Dialogue T R (Except Error (SolveStats R × Array T)) :=
      solver.solve (asked p) height b x
    (∀ respond, ∃ events answer, Ends solve events answer ∧ Answered respond [] events) ∧
    (∀ events answer, Ends solve events answer → ∃ product sums rest,
      events = measured b x (Array.replicate b.size 0) product sums ++ rest ∧
      (solver.HasRoom (normOf sums) → ∃ stats x', answer = .ok (stats, x') ∧
        Reported solver b (normOf sums) events stats x' ∧
        (normOf sums ≤ solver.stopping.target (normOf sums) →
          rest = [] ∧ x' = x ∧ stats.iterations = 0)) ∧
      (¬solver.HasRoom (normOf sums) → rest = [] ∧ answer = .error .tooLarge)) ∧
    (0 < maxIterations → ∀ (initial : R) (more : ℕ) (x r : Array T) (norm : R),
      solver.restarts (asked p) b initial (maxIterations + more) 0 x r norm =
        solver.restarts (asked p) b initial maxIterations 0 x r norm) ∧
    ∀ {m : Type → Type} [Monad m] [LawfulMonad m] (system : LinearSystem m T R),
      (system.precondition.isSome → p) →
        solver.solve system height b x = conduct system solve := by
  intro solver solve
  have made : 0 < solver.restart := Nat.le_max_right restart 1
  refine ⟨fun respond => exists_ends respond solve [], ?_, ?_, ?_⟩
  · intro events answer ends
    exact ends_solve made hx hb ends
  · intro left initial more x r norm
    exact restarts_add made b initial more left (by simp [solver, ofSettings]) x r norm
  · intro m _ _ system covers
    rw [solve_eq_watched, ← conduct_watched system covers, ← conduct_map, ← solve_eq_watched]

end Cycles

/-- A partner that multiplies by two, preconditions with a vector of ones and is alone. -/
def doubling : (c : Call ℚ ℚ) → c.Answer
  | .operator x _ => x.map (2 * ·)
  | .precondition v _ => Array.replicate v.size 1
  | .reduce values => values

/-- A solve with this partner reports truthfully. -/
theorem doubling_solve_reports :
    let solver := ofSettings 2 10 0 (0 : ℚ)
    ∃ events stats x', Ends (solver.solve (asked true) 2 #[1, 3] #[0, (0 : ℚ)]) events
        (.ok (stats, x')) ∧
      Answered (fun _ => doubling) [] events ∧
      ∃ product sums rest, events = measured #[1, 3] #[0, 0] #[0, 0] product sums ++ rest ∧
        Reported solver #[1, 3] (normOf sums) events stats x' := by
  intro solver
  obtain ⟨terminates, truthful, -, -⟩ :=
    solve_reports (b := #[1, 3]) (x := #[0, (0 : ℚ)]) true 2 10 0 (0 : ℚ) rfl rfl
  obtain ⟨events, answer, ends, answered⟩ := terminates fun _ => doubling
  obtain ⟨product, sums, rest, first, roomy, -⟩ := truthful events answer ends
  have room : solver.HasRoom (normOf sums) := .inr (.inr (by decide))
  obtain ⟨stats, x', rfl, reported, -⟩ := roomy room
  exact ⟨events, stats, x', ends, answered, product, sums, rest, first, reported⟩

/-- A process that multiplies by a function. -/
def multiplying (A : Array ℚ → Array ℚ) : LinearSystem Id ℚ ℚ where
  operator x _ := A x
  precondition := none
  reduce values := values

/-- A cycle may be asked to have more steps than there is room for, and then nothing is reported. -/
theorem exists_solve_fails :
    ¬∀ (restart maxIterations : ℕ) (A : Array ℚ → Array ℚ) (b x : Array ℚ), x.size = b.size →
      ∃ stats x', (ofSettings restart maxIterations 0 0).solve (multiplying A) b.size b x =
        Except.ok (stats, x') := by
  intro reported
  obtain ⟨stats, x', h⟩ := reported (2 ^ 60) 10 id #[1] #[0] rfl
  have failure : ¬(Except.toOption (Id.run
      ((ofSettings (2 ^ 60) 10 0 0).solve (multiplying id) 1 #[1] #[0]))).isSome := by
    decide +kernel
  exact failure (congrArg (fun answer => (Except.toOption answer).isSome) h)

end Gmres

end DomainDecomposition
