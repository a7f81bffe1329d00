import DomainDecomposition.Rank.Program
import DomainDecomposition.Update

/-!
# Operations that involve other ranks

A `Collective` is an operation on a state that may make requests on the way. As with an `Update`, a
failing run still leaves a state.
-/

namespace DomainDecomposition

/-- An operation of one rank on a state `σ` that may communicate. -/
abbrev Collective (T R σ α : Type) : Type :=
  ExceptT Error (StateT σ (Program T R)) α

namespace Collective

variable {T R σ τ α β : Type}

/-- Result of an operation and the state it leaves. -/
def on (c : Collective T R σ α) (s : σ) : Program T R (Except Error α × σ) :=
  (ExceptT.run c).run s

/-- The operation that does what `f` says to the state. -/
def ofFunction (f : σ → Program T R (Except Error α × σ)) : Collective T R σ α :=
  ExceptT.mk fun s => f s

/-- An operation without communication. -/
def ofUpdate (u : Update σ α) : Collective T R σ α :=
  ofFunction fun s => .done (u.on s)

/-- Communication that cannot fail and leaves the state alone. -/
def ofProgram (p : Program T R α) : Collective T R σ α :=
  ofFunction fun s => do return (.ok (← p), s)

/-- Run an operation on a part of a larger state. -/
def focus (part : σ → τ) (restore : τ → σ → σ) (c : Collective T R τ α) : Collective T R σ α :=
  ofFunction fun s => do
    let (result, t) ← c.on (part s)
    return (result, restore t s)

/-- Run an operation on the first half of a pair. -/
def onFst (c : Collective T R σ α) : Collective T R (σ × τ) α :=
  c.focus Prod.fst fun x s => (x, s.2)

/-- Run an operation on the second half of a pair. -/
def onSnd (c : Collective T R τ α) : Collective T R (σ × τ) α :=
  c.focus Prod.snd fun y s => (s.1, y)

/-- Carry an operation out and hand over its result, also when it is a failure. -/
def attempt (c : Collective T R σ α) : Collective T R σ (Except Error α) :=
  ofFunction fun s => do
    let (result, s) ← c.on s
    return (.ok result, s)

/-! ## Running -/

@[simp]
theorem on_pure (a : α) (s : σ) : (pure a : Collective T R σ α).on s = .done (.ok a, s) :=
  rfl

@[simp]
theorem on_throw (e : Error) (s : σ) :
    (throw e : Collective T R σ α).on s = .done (.error e, s) :=
  rfl

@[simp]
theorem on_get (s : σ) : (get : Collective T R σ σ).on s = .done (.ok s, s) :=
  rfl

@[simp]
theorem on_set (s s' : σ) : (set s' : Collective T R σ PUnit).on s = .done (.ok ⟨⟩, s') :=
  rfl

@[simp]
theorem on_modify (f : σ → σ) (s : σ) :
    (modify f : Collective T R σ PUnit).on s = .done (.ok ⟨⟩, f s) :=
  rfl

@[simp]
theorem on_monadLift (r : Except Error α) (s : σ) :
    (monadLift r : Collective T R σ α).on s = .done (r, s) := by
  cases r <;> rfl

/-- The second operation starts from the state that the first one has left, unless that failed. -/
theorem on_bind (c : Collective T R σ α) (f : α → Collective T R σ β) (s : σ) :
    (c >>= f).on s = c.on s >>= fun
      | (.ok a, s') => (f a).on s'
      | (.error e, s') => .done (.error e, s') := by
  unfold on
  rw [ExceptT.run_bind, StateT.run_bind]
  congr 1
  funext ⟨r, s'⟩
  cases r <;> rfl

@[simp]
theorem on_ofFunction (f : σ → Program T R (Except Error α × σ)) (s : σ) :
    (ofFunction f).on s = f s :=
  rfl

@[simp]
theorem on_ofUpdate (u : Update σ α) (s : σ) :
    (ofUpdate u : Collective T R σ α).on s = .done (u.on s) :=
  rfl

@[simp]
theorem on_ofProgram (p : Program T R α) (s : σ) :
    (ofProgram p : Collective T R σ α).on s = p >>= fun a => .done (.ok a, s) :=
  rfl

@[simp]
theorem on_focus (part : σ → τ) (restore : τ → σ → σ) (c : Collective T R τ α) (s : σ) :
    (c.focus part restore).on s =
      c.on (part s) >>= fun (result, t) => .done (result, restore t s) :=
  rfl

@[simp]
theorem on_attempt (c : Collective T R σ α) (s : σ) :
    c.attempt.on s = c.on s >>= fun (result, s') => .done (.ok result, s') :=
  rfl

end Collective

end DomainDecomposition
