import DomainDecomposition.Error

/-!
# Operations in place

An operation that changes a matrix, a vector or a preconditioner is an `Update`: a failing run
still leaves a state, so what a failure has or has not changed can be said of it.

The lemmas on `Update.on` say what each building block does to the state, so proofs need not look
inside the monad. `checkLength` is the length test that all entry points share.
-/

namespace DomainDecomposition

/-- An operation on a state `σ` that answers `α` or fails. The state survives a failure. -/
abbrev Update (σ α : Type) : Type :=
  ExceptT Error (StateM σ) α

namespace Update

variable {σ τ α β : Type}

/-- Result of an operation and the state it leaves. -/
def on (u : Update σ α) (s : σ) : Except Error α × σ :=
  (ExceptT.run u).run s

/-- The operation that does what `f` says to the state. -/
def ofFunction (f : σ → Except Error α × σ) : Update σ α :=
  ExceptT.mk fun s => f s

@[simp]
theorem on_ofFunction (f : σ → Except Error α × σ) (s : σ) : (ofFunction f).on s = f s :=
  rfl

/-- Replace the state by what `f` computes from it, unless `f` fails. -/
def replace (f : σ → Except Error σ) : Update σ Unit :=
  ofFunction fun s =>
    match f s with
    | .ok s' => (.ok (), s')
    | .error e => (.error e, s)

/-- Run an operation on a part of a larger state. -/
def focus (part : σ → τ) (restore : τ → σ → σ) (u : Update τ α) : Update σ α :=
  ofFunction fun s =>
    let (result, t) := u.on (part s)
    (result, restore t s)

/-- Run an operation on the first half of a pair. -/
def onFst (u : Update σ α) : Update (σ × τ) α :=
  u.focus Prod.fst fun x s => (x, s.2)

/-- Run an operation on the second half of a pair. -/
def onSnd (u : Update τ α) : Update (σ × τ) α :=
  u.focus Prod.snd fun y s => (s.1, y)

/-! ## Running -/

@[simp]
theorem on_pure (a : α) (s : σ) : (pure a : Update σ α).on s = (.ok a, s) :=
  rfl

@[simp]
theorem on_throw (e : Error) (s : σ) : (throw e : Update σ α).on s = (.error e, s) :=
  rfl

@[simp]
theorem on_get (s : σ) : (get : Update σ σ).on s = (.ok s, s) :=
  rfl

@[simp]
theorem on_set (s s' : σ) : (set s' : Update σ PUnit).on s = (.ok ⟨⟩, s') :=
  rfl

@[simp]
theorem on_modify (f : σ → σ) (s : σ) : (modify f : Update σ PUnit).on s = (.ok ⟨⟩, f s) :=
  rfl

/-- A result that does not depend on the state leaves it alone. -/
@[simp]
theorem on_monadLift (r : Except Error α) (s : σ) : (monadLift r : Update σ α).on s = (r, s) := by
  cases r <;> rfl

/-- The second operation starts from the state that the first one has left, unless that failed. -/
theorem on_bind (u : Update σ α) (f : α → Update σ β) (s : σ) :
    (u >>= f).on s =
      match u.on s with
      | (.ok a, s') => (f a).on s'
      | (.error e, s') => (.error e, s') := by
  unfold on
  rcases h : (ExceptT.run u).run s with ⟨_ | _, _⟩ <;>
    simp only [ExceptT.run_bind, StateT.run_bind, h] <;> rfl

@[simp]
theorem on_replace (f : σ → Except Error σ) (s : σ) :
    (replace f).on s =
      match f s with
      | .ok s' => (.ok (), s')
      | .error e => (.error e, s) :=
  rfl

@[simp]
theorem on_focus (part : σ → τ) (restore : τ → σ → σ) (u : Update τ α) (s : σ) :
    (u.focus part restore).on s = ((u.on (part s)).1, restore (u.on (part s)).2 s) :=
  rfl

@[simp]
theorem on_onFst (u : Update σ α) (s : σ) (t : τ) :
    u.onFst.on (s, t) = ((u.on s).1, (u.on s).2, t) :=
  rfl

@[simp]
theorem on_onSnd (u : Update τ α) (s : σ) (t : τ) :
    (u.onSnd : Update (σ × τ) α).on (s, t) = ((u.on t).1, s, (u.on t).2) :=
  rfl

end Update

/-- Lengths must agree exactly. -/
def checkLength (expected found : Nat) : Except Error Unit :=
  if expected = found then .ok () else .error (.dimensionMismatch expected found)

end DomainDecomposition
