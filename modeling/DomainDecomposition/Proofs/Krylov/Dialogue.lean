import DomainDecomposition.Proofs.Krylov.Course
import DomainDecomposition.Proofs.Krylov.InnerProduct

/-!
# The calls of a solve

The solver reaches the operator, the preconditioner and the other ranks by calls only. A `Dialogue`
is the tree of these calls: every call, and what the solver does with each answer that it may get.
Nothing is known about the answers.

* `asked`: the system whose calls are these calls,
* `conduct`: go through a dialogue with an actual system,
* `conduct_watched`: the solver goes through the same dialogue with all systems, in all monads,
* `Lockstep`: ranks that make the same calls, as long as each reduction answers the same to all of
  them.
-/

namespace DomainDecomposition

variable {ι T R α β γ δ : Type}

/-- A call of the solver. -/
inductive Dialogue.Call (T R : Type) where
  | operator (x old : Array T)
  | precondition (v old : Array T)
  /-- Add up numbers over all ranks. -/
  | reduce (values : Array R)

/-- The answer to a call. -/
@[reducible]
def Dialogue.Call.Answer : Dialogue.Call T R → Type
  | operator _ _ => Array T
  | precondition _ _ => Array T
  | reduce _ => Array R

/-- A result, or a call and what follows its answer. -/
inductive Dialogue (T R α : Type) where
  | done (result : α)
  | call (c : Dialogue.Call T R) (next : c.Answer → Dialogue T R α)

namespace Dialogue

/-- The first dialogue, and then the one made from its result. -/
def bind : Dialogue T R α → (α → Dialogue T R β) → Dialogue T R β
  | done a, f => f a
  | call c next, f => call c fun answer => (next answer).bind f

instance : Monad (Dialogue T R) where
  pure := done
  bind := bind

@[simp]
lemma done_bind (a : α) (f : α → Dialogue T R β) : (done a : Dialogue T R α) >>= f = f a :=
  rfl

@[simp]
lemma call_bind (c : Call T R) (next : c.Answer → Dialogue T R α) (f : α → Dialogue T R β) :
    call c next >>= f = call c fun answer => next answer >>= f :=
  rfl

lemma bind_done (d : Dialogue T R α) : d >>= done = d := by
  induction d with
  | done a => rfl
  | call c next ih => simp [ih]

lemma bind_bind (d : Dialogue T R α) (f : α → Dialogue T R β) (g : β → Dialogue T R γ) :
    d >>= f >>= g = d >>= fun a => f a >>= g := by
  induction d with
  | done a => rfl
  | call c next ih => simp [ih]

instance : LawfulMonad (Dialogue T R) :=
  LawfulMonad.mk' _ bind_done (fun _ _ => rfl) bind_bind

/-- The system that asks for whatever it is to answer. -/
def asked (preconditioned : Bool) : LinearSystem (Dialogue T R) T R where
  operator x old := call (.operator x old) done
  precondition := if preconditioned then some fun v old => call (.precondition v old) done else none
  reduce values := call (.reduce values) done

/-! ## Going through a dialogue -/

section Conduct

variable {m : Type → Type} [Monad m] (system : LinearSystem m T R)

/-- Get the answer to a call from a system. Without a preconditioner, the vector itself is the
answer. -/
def perform : (c : Call T R) → m c.Answer
  | .operator x old => system.operator x old
  | .precondition v old => Gmres.direct system v old
  | .reduce values => system.reduce values

/-- Go through a dialogue with the answers of a system. -/
def conduct : Dialogue T R α → m α
  | done a => pure a
  | call c next => perform system c >>= fun answer => conduct (next answer)

@[simp]
lemma conduct_pure (a : α) : conduct system (pure a) = pure a :=
  rfl

variable [LawfulMonad m]

@[simp]
lemma conduct_bind (d : Dialogue T R α) (f : α → Dialogue T R β) :
    conduct system (d >>= f) = conduct system d >>= fun a => conduct system (f a) := by
  induction d with
  | done a => simp [conduct]
  | call c next ih => simp [conduct, ih]

@[simp]
lemma conduct_map (f : α → β) (d : Dialogue T R α) :
    conduct system (f <$> d) = f <$> conduct system d := by
  rw [map_eq_pure_bind, conduct_bind, map_eq_pure_bind]
  rfl

@[simp]
lemma conduct_operator (p : Bool) (x old : Array T) :
    conduct system ((asked p).operator x old) = system.operator x old :=
  bind_pure _

@[simp]
lemma conduct_reduce (p : Bool) (values : Array R) :
    conduct system ((asked p).reduce values) = system.reduce values :=
  bind_pure _

/-- Only a system without a preconditioner can do with fewer calls. -/
lemma conduct_direct {p : Bool} (covers : system.precondition.isSome → p) (v old : Array T) :
    conduct system (Gmres.direct (asked p) v old) = Gmres.direct system v old := by
  cases p with
  | true => exact bind_pure _
  | false =>
    have hnone : system.precondition = none := by
      simpa using mt covers Bool.false_ne_true
    simp [Gmres.direct, asked, hnone]

@[simp]
lemma conduct_residual [Sub T] (p : Bool) (b x old : Array T) :
    conduct system (Gmres.residual (asked p) b x old) = Gmres.residual system b x old := by
  simp [Gmres.residual]

variable [Zero R] [Scalar T R]

@[simp]
lemma conduct_norm [Add R] [Magnitude R] (p : Bool) (x : Array T) :
    conduct system (InnerProduct.norm (asked p).reduce x) = InnerProduct.norm system.reduce x := by
  simp [InnerProduct.norm]

variable [Zero T] [Add T] [Mul T]

@[simp]
lemma conduct_dot (p : Bool) (x y : Array T) :
    conduct system (InnerProduct.dot (asked p).reduce x y) =
      InnerProduct.dot system.reduce x y := by
  simp [InnerProduct.dot_eq]

variable [Sub T]

@[simp]
lemma conduct_project (p : Bool) (vs : List (Array T)) (w : Array T) :
    conduct system (Gmres.project (asked p) vs w) = Gmres.project system vs w := by
  induction vs generalizing w with
  | nil => simp [Gmres.project]
  | cons v vs ih => simp [Gmres.project, ih]

variable [Add R] [Magnitude R] {p : Bool} (covers : system.precondition.isSome → p)

include covers

lemma conduct_probe (length : ℕ) (cycle : Gmres.Cycle T R) :
    conduct system (Gmres.probe (asked p) length cycle) = Gmres.probe system length cycle := by
  simp [Gmres.probe, conduct_direct system covers]

variable [One T] [Neg T] [One R] [Div R] [BEq R] [Mul R] [LE R] [DecidableLE R] (solver : Gmres R)

lemma conduct_follow (length : ℕ) (initial norm : R) (steps iteration : ℕ)
    (cycle : Gmres.Cycle T R) :
    conduct system (Gmres.follow solver (asked p) length initial norm steps iteration cycle) =
      Gmres.follow solver system length initial norm steps iteration cycle := by
  induction steps generalizing iteration cycle with
  | zero => simp [Gmres.follow]
  | succ steps ih =>
    simp only [Gmres.follow, conduct_bind, conduct_probe system covers]
    refine bind_congr fun s => ?_
    split
    · rfl
    · simp [ih]

variable [Div T] [LT R] [DecidableLT R]

lemma conduct_laps (b : Array T) (initial : R) (cycles iteration : ℕ) (x r : Array T) (norm : R) :
    conduct system (Gmres.laps solver (asked p) b initial cycles iteration x r norm) =
      Gmres.laps solver system b initial cycles iteration x r norm := by
  induction cycles generalizing iteration x r norm with
  | zero => simp [Gmres.laps]
  | succ cycles ih =>
    simp only [Gmres.laps, conduct_bind, conduct_follow system covers, conduct_residual,
      conduct_norm]
    refine bind_congr ?_
    rintro ⟨strides, cycle⟩
    refine bind_congr fun r => bind_congr fun after => ?_
    split
    · rfl
    · simp [ih]

/-- The solver does nothing but go through its calls. -/
lemma conduct_watched (height : ℕ) (b x : Array T) :
    conduct system (Gmres.watched solver (asked p) height b x) =
      Gmres.watched solver system height b x := by
  unfold Gmres.watched
  cases checkLength b.size x.size >>= fun _ => checkLength height b.size with
  | error e => rfl
  | ok _ =>
    simp only [conduct_bind, conduct_residual, conduct_norm]
    refine bind_congr fun r => bind_congr fun norm => ?_
    split
    · rfl
    · split
      · rfl
      · simp [conduct_laps system covers]

end Conduct

/-! ## Ranks side by side -/

/-- Ranks that make the same calls, one after the other, and end with results of one view. Operators
and preconditioners may answer anything to each rank. Each rank adds equally many numbers to a
reduction, and a reduction answers the same to all of them. -/
inductive Lockstep (view : α → γ) : (ι → Dialogue T R α) → Prop where
  | done (a : ι → α) (same : ∀ r s, view (a r) = view (a s)) : Lockstep view fun r => .done (a r)
  | operator (x old : ι → Array T) (next : ι → Array T → Dialogue T R α)
      (later : ∀ answer : ι → Array T, Lockstep view fun r => next r (answer r)) :
      Lockstep view fun r => .call (.operator (x r) (old r)) (next r)
  | precondition (v old : ι → Array T) (next : ι → Array T → Dialogue T R α)
      (later : ∀ answer : ι → Array T, Lockstep view fun r => next r (answer r)) :
      Lockstep view fun r => .call (.precondition (v r) (old r)) (next r)
  | reduce (values : ι → Array R) (next : ι → Array R → Dialogue T R α)
      (sizes : ∀ r s, (values r).size = (values s).size)
      (later : ∀ sums, Lockstep view fun r => next r sums) :
      Lockstep view fun r => .call (.reduce (values r)) (next r)

/-- Ranks that agree have one value. -/
lemma exists_common [Nonempty α] {f : ι → α} (same : ∀ r s, f r = f s) : ∃ a, ∀ r, f r = a := by
  rcases isEmpty_or_nonempty ι with none | ⟨⟨s⟩⟩
  · exact ⟨Classical.arbitrary α, fun r => none.elim r⟩
  · exact ⟨f s, fun r => same r s⟩

namespace Lockstep

variable {view : α → γ} {view' : β → δ}

lemma bind {d : ι → Dialogue T R α} (first : Lockstep view d) {f : ι → α → Dialogue T R β}
    (second : ∀ a : ι → α, (∀ r s, view (a r) = view (a s)) →
      Lockstep view' fun r => f r (a r)) :
    Lockstep view' fun r => d r >>= f r := by
  induction first with
  | done a same => exact second a same
  | operator x old next later ih => exact .operator x old _ ih
  | precondition v old next later ih => exact .precondition v old _ ih
  | reduce values next sizes later ih => exact .reduce values _ sizes ih

/-- Equal views have equal images. -/
lemma comp (g : γ → δ) {d : ι → Dialogue T R α} (h : Lockstep view d) : Lockstep (g ∘ view) d := by
  induction h with
  | done a same => exact .done a fun r s => congrArg g (same r s)
  | operator x old next later ih => exact .operator x old next ih
  | precondition v old next later ih => exact .precondition v old next ih
  | reduce values next sizes later ih => exact .reduce values next sizes ih

/-- All ranks take the same branch. -/
lemma ite {c : ι → Bool} (same : ∀ r s, c r = c s) {d e : ι → Dialogue T R α}
    (yes : Lockstep view d) (no : Lockstep view e) :
    Lockstep view fun r => if c r then d r else e r := by
  -- one rank that refuses stands for all of them
  by_cases all : ∀ r, c r
  · simpa [all] using yes
  · obtain ⟨s, hs⟩ := not_forall.mp all
    have none (r : ι) : c r = false := by rw [same r s]; exact Bool.eq_false_iff.mpr hs
    simpa [none] using no

end Lockstep

end Dialogue

end DomainDecomposition
