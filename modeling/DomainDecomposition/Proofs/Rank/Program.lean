import DomainDecomposition.Rank.Collective
import Mathlib.Data.Nat.Notation

/-!
# What a program ensures

`Ensures Q p` says that every result that the program `p` may have satisfies `Q`, whatever is
answered to its requests. So it holds in every world and for every order of steps. `Yields a p` says
that `a` is one of these results. `recorded` adds to the result the requests that have been made on
the way, and is the same program otherwise (`recorded_result`).
-/

namespace DomainDecomposition.Program

variable {T R α β : Type}

/-- Every result that a program may have satisfies `Q`. -/
def Ensures (Q : α → Prop) : Program T R α → Prop
  | .done a => Q a
  | .request _ next => ∀ reply, (next reply).Ensures Q

/-- Some answers to the requests of a program lead to the result `a`. -/
def Yields (a : α) : Program T R α → Prop
  | .done b => b = a
  | .request _ next => ∃ reply, (next reply).Yields a

lemma Ensures.of_yields {Q : α → Prop} {p : Program T R α} {a : α} (ensures : p.Ensures Q)
    (yields : p.Yields a) : Q a := by
  induction p with
  | done b =>
    obtain rfl : b = a := yields
    exact ensures
  | request q next ih =>
    obtain ⟨reply, h⟩ := yields
    exact ih reply (ensures reply) h

lemma Ensures.mono {Q Q' : α → Prop} {p : Program T R α} (ensures : p.Ensures Q)
    (h : ∀ a, Q a → Q' a) : p.Ensures Q' := by
  induction p with
  | done a => exact h a ensures
  | request q next ih => exact fun reply => ih reply (ensures reply)

lemma Ensures.bind {Q : α → Prop} {Q' : β → Prop} {p : Program T R α}
    {f : α → Program T R β} (first : p.Ensures Q) (second : ∀ a, Q a → (f a).Ensures Q') :
    (p >>= f).Ensures Q' := by
  induction p with
  | done a => exact second a first
  | request q next ih => exact fun reply => ih reply (first reply)

/-- A result of two programs, one after the other, comes from a result of the first one. -/
lemma Yields.of_bind {p : Program T R α} {f : α → Program T R β} {b : β}
    (yields : (p >>= f).Yields b) : ∃ a, p.Yields a ∧ (f a).Yields b := by
  induction p with
  | done a => exact ⟨a, rfl, yields⟩
  | request q next ih =>
    obtain ⟨reply, h⟩ := yields
    obtain ⟨a, ha, hb⟩ := ih reply h
    exact ⟨a, ⟨reply, ha⟩, hb⟩

/-- Nothing is known of a program, and it has some result. -/
lemma ensures_true (p : Program T R α) : p.Ensures fun _ => True := by
  induction p with
  | done a => trivial
  | request q next ih => exact fun reply => ih reply

/-! ## Requests on record -/

/-- The program, which answers its requests as well. They follow those that are on record. -/
def recorded (past : List (Request T R)) : Program T R α → Program T R (List (Request T R) × α)
  | .done a => .done (past, a)
  | .request q next => .request q fun reply => (next reply).recorded (past ++ [q])

lemma recorded_bind (past : List (Request T R)) (p : Program T R α) (f : α → Program T R β) :
    (p >>= f).recorded past = p.recorded past >>= fun (past, a) => (f a).recorded past := by
  induction p generalizing past with
  | done a => rfl
  | request q next ih => exact congrArg (request q) (funext fun reply => ih reply _)

/-- The record makes no difference to what the program does. -/
theorem recorded_result (past : List (Request T R)) (p : Program T R α) :
    (p.recorded past >>= fun s => .done s.2) = p := by
  induction p generalizing past with
  | done a => rfl
  | request q next ih => exact congrArg (request q) (funext fun reply => ih reply _)

end DomainDecomposition.Program
