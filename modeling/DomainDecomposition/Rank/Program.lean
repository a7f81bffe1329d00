/-!
# Programs of a rank

A rank of a world computes on its own and meets the others through a few shared places: a place to
offer numbers for a reduction, a place to announce a count, a place to publish a vector, and one
barrier. A `Program` is what one rank does, as a tree of requests to these places. Every request is
one atomic step, so a world may run its ranks in any interleaving.
-/

namespace DomainDecomposition

/-- A vector offered to the other ranks. Its first block is block `offset` of the owner. -/
structure Published (T : Type) where
  values : Array T
  offset : Nat

/-- One atomic step. Each rank writes its own places and may read those of any rank. -/
inductive Request (T R : Type) where
  /-- Offer numbers for a reduction. -/
  | offer (values : Array R)
  /-- Read what a rank has offered. -/
  | offered (rank : Nat)
  /-- Announce a count. -/
  | announce (count : Nat)
  /-- Read what a rank has announced. -/
  | announced (rank : Nat)
  /-- Publish a vector. -/
  | publish (vector : Published T)
  /-- Read the vector that a rank has published, if any. -/
  | published (rank : Nat)
  /-- Wait until every rank waits. -/
  | barrier

/-- The answer to a request. -/
@[reducible]
def Request.Reply {T R : Type} : Request T R → Type
  | offer _ => Unit
  | offered _ => Array R
  | announce _ => Unit
  | announced _ => Nat
  | publish _ => Unit
  | published _ => Option (Published T)
  | barrier => Unit

/-- What one rank does: a result, or a request and what follows its answer. -/
inductive Program (T R α : Type) where
  | done (result : α)
  | request (q : Request T R) (next : q.Reply → Program T R α)

namespace Program

variable {T R α β γ : Type}

/-- The first program, and then the one made from its result. -/
def bind : Program T R α → (α → Program T R β) → Program T R β
  | done a, f => f a
  | request q next, f => request q fun r => (next r).bind f

instance : Monad (Program T R) where
  pure := done
  bind := bind

@[simp]
theorem done_bind (a : α) (f : α → Program T R β) : (done a : Program T R α) >>= f = f a :=
  rfl

@[simp]
theorem request_bind (q : Request T R) (next : q.Reply → Program T R α) (f : α → Program T R β) :
    request q next >>= f = request q fun r => next r >>= f :=
  rfl

theorem bind_done (p : Program T R α) : p >>= done = p := by
  induction p with
  | done a => rfl
  | request q next ih => simp [ih]

theorem bind_bind (p : Program T R α) (f : α → Program T R β) (g : β → Program T R γ) :
    p >>= f >>= g = p >>= fun a => f a >>= g := by
  induction p with
  | done a => rfl
  | request q next ih => simp [ih]

instance : LawfulMonad (Program T R) :=
  LawfulMonad.mk' _ bind_done (fun _ _ => rfl) bind_bind

/-- A single request. -/
def ask (q : Request T R) : Program T R q.Reply :=
  request q done

end Program

end DomainDecomposition
