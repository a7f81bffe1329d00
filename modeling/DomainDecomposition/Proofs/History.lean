import DomainDecomposition.Proofs.BlockMatrix.Calls
import DomainDecomposition.Proofs.Halo.Single

/-!
# Histories of an operator

An operator keeps buffers and the books of its exchanges from one use to the next. Between two uses
anything may happen to the matrices of the rank. A use `Forgets` what has been before when its
answer is the same from every state that an invariant allows, and the invariant holds again in the
end. If all uses of an operator keep the invariant (`Lasting`), it holds after every history, and no
use has found an exchange still in flight (`runEvents_spec`).

On a single process it is enough that a use is one exchange with work around it
(`Answers.of_isExchange`), over a table whose blocks end at places that are machine words.
-/

namespace DomainDecomposition

open BlockMatrix Outcome

variable {T R σ U : Type}

/-! ## One use -/

/-- The failure is not due to an exchange that somebody has left open. -/
def Error.NotInFlight (e : Error) : Prop :=
  ∀ n, e ≠ .exchange (.stillInFlight n)

lemma Link.Missing.notInFlight {b l : ℕ} {vector : Option (Published T)} {e : Error}
    (missing : Link.Missing b vector l e) : e.NotInFlight := by
  cases missing <;> exact fun _ => nofun

lemma ne_stillInFlight {α : Type} {result : Except Error α}
    (meets : Meets Error.NotInFlight (fun _ => True) result) (n : ℕ) :
    result ≠ .error (.exchange (.stillInFlight n)) := by
  rintro rfl
  exact meets n rfl

/-- With the output vector `y`, the operation has the same result and leaves the same vector from
every state of the invariant. -/
def Answers (P : σ → Prop) (c : Collective T R (σ × Array T) Unit) (y : Array T) : Prop :=
  ∃ result z, Meets Error.NotInFlight (fun _ => True) result ∧
    ∀ p, P p → ∃ p', c.on (p, y) = .done (result, p', z) ∧ P p'

/-- The operation answers the same whatever state of the invariant it starts from. -/
def Forgets (P : σ → Prop) (c : Collective T R (σ × Array T) Unit) : Prop :=
  ∀ y, Answers P c y

/-- Two operators answer the same, and neither finds an exchange in flight. -/
def SameAnswers (c : Collective T R (σ × Array T) Unit) (p q : σ) : Prop :=
  ∀ y, ∃ result p' q' z, c.on (p, y) = .done (result, p', z) ∧
    c.on (q, y) = .done (result, q', z) ∧ ∀ n, result ≠ .error (.exchange (.stillInFlight n))

lemma Forgets.sameAnswers {P : σ → Prop} {c : Collective T R (σ × Array T) Unit}
    (forgets : Forgets P c) {p q : σ} (hp : P p) (hq : P q) : SameAnswers c p q := by
  intro y
  obtain ⟨result, z, meets, runs⟩ := forgets y
  obtain ⟨p', run, -⟩ := runs p hp
  obtain ⟨q', run', -⟩ := runs q hq
  exact ⟨result, p', q', z, run, run', ne_stillInFlight meets⟩

section Answers

variable {P : σ → Prop} {c : Collective T R (σ × Array T) Unit} {y : Array T}

/-- An operation that always refuses for the same reason. -/
lemma Answers.of_refused {e : Error} (current : e.NotInFlight)
    (refused : ∀ p, P p → c.on (p, y) = .done (.error e, p, y)) : Answers P c y :=
  ⟨.error e, y, current, fun p hp => ⟨p, refused p hp, hp⟩⟩

/-- From the state `p` on, the operation is one exchange of `x` with work around it: it makes
`answer` of the blocks that it receives, and it passes a failure of the exchange on. -/
def IsExchange (P : σ → Prop) (b : ℕ) (blocks : List ℕ) (x : Array T) (offset : ℕ)
    (answer : Array T → Except Error Unit × Array T) (c : Collective T R (σ × Array T) Unit)
    (y : Array T) (p : σ) : Prop :=
  ∃ (halo : Halo T) (B : Except Error Ticket × Halo T → Program T R _)
    (K : Except Error Unit × Halo T → Program T R _), halo.Single b blocks ∧
    c.on (p, y) = (Halo.begin x offset).on halo >>= B ∧
    (∀ ticket h, B (.ok ticket, h) = (Halo.finish ticket).on h >>= K) ∧
    ∀ h : Halo T, h.Single b blocks →
      (∀ e, ∃ p', B (.error e, h) = .done (.error e, p', y) ∧ P p') ∧
      ∃ p', K (.ok (), h) = .done ((answer h.received).1, p', (answer h.received).2) ∧ P p'

/-- An exchange of a single process has the same outcome whatever the buffers hold. -/
lemma Answers.of_isExchange {b : ℕ} {blocks : List ℕ} (x : Array T) (offset : ℕ)
    (counted : Counted b 0 blocks) (answer : Array T → Except Error Unit × Array T)
    (meets : ∀ own, Meets Error.NotInFlight (fun _ => True) (answer own).1)
    (steps : ∀ p, P p → IsExchange P b blocks x offset answer c y p) : Answers P c y := by
  have fault : ∀ e, ownBlocks b offset x blocks = .error e → ∃ fault, e = .exchange fault :=
    fun e failed => exists_fault_of_ownBlocks failed fun g member behind =>
      .inr (counted.of_zero g member behind)
  have missing : Meets Error.NotInFlight (fun _ => True) (ownBlocks b offset x blocks) :=
    (meets_ownBlocks blocks).mono (fun e ⟨g, _, missing⟩ => missing.notInFlight) fun _ _ => trivial
  cases hown : ownBlocks b offset x blocks with
  | error e =>
    rw [hown] at missing
    refine ⟨.error e, y, missing, fun p hp => ?_⟩
    obtain ⟨halo, B, K, single, run, next, after⟩ := steps p hp
    obtain ⟨halo', single', -, exchange⟩ := single.exchange x offset fault next
    obtain ⟨p', failed, hp'⟩ := (after halo' single').1 e
    rw [hown] at exchange
    exact ⟨p', run.trans (exchange.trans failed), hp'⟩
  | ok own =>
    refine ⟨(answer own).1, (answer own).2, meets own, fun p hp => ?_⟩
    obtain ⟨halo, B, K, single, run, next, after⟩ := steps p hp
    obtain ⟨halo', single', received, exchange⟩ := single.exchange x offset fault next
    obtain ⟨p', done, hp'⟩ := (after halo' single').2
    rw [hown] at exchange
    rw [received own hown] at done
    exact ⟨p', run.trans (exchange.trans done), hp'⟩

end Answers

/-- Use an operator with an output vector. -/
def replyOf (s : Store T) (p : σ) (c : Collective T R (σ × Array T) Unit) (y : Array T) :
    Program T R (Reply T × Store T × σ) := do
  let (result, p, z) ← c.on (p, y)
  return (⟨result, z⟩, s, p)

lemma Forgets.replyOf_eq {P : σ → Prop} {c : Collective T R (σ × Array T) Unit}
    (forgets : Forgets P c) (s : Store T) {p : σ} (hp : P p) (y : Array T) :
    ∃ reply p', replyOf s p c y = .done (reply, s, p') ∧
      Meets Error.NotInFlight (fun _ => True) reply.result ∧ P p' := by
  obtain ⟨result, z, meets, runs⟩ := forgets y
  obtain ⟨p', run, hp'⟩ := runs p hp
  refine ⟨⟨result, z⟩, p', ?_, meets, hp'⟩
  rw [replyOf, run]
  rfl

/-! ## Histories -/

/-- A call on the matrices of the rank, or a use of the operator. -/
inductive Event (T R U : Type) where
  | call (c : BlockMatrix.Call T R)
  | use (u : U)

/-- No use was refused because an exchange was still in flight. -/
def Unhindered (replies : List (Reply T)) : Prop :=
  ∀ reply ∈ replies, ∀ n, reply.result ≠ .error (.exchange (.stillInFlight n))

/-- The matrices of a rank some time later. -/
structure Later (s₀ s : Store T) : Prop where
  sound : ∀ h, (s.get h).Sound
  patterns : Extends s₀ s

/-- Every use ends, finds no exchange in flight and keeps the invariant. -/
def Lasting (s₀ : Store T) (P : σ → Prop)
    (perform : Store T → σ → U → Program T R (Reply T × Store T × σ)) : Prop :=
  ∀ s p u, Later s₀ s → P p → ∃ reply s' p', perform s p u = .done (reply, s', p') ∧
    Meets Error.NotInFlight (fun _ => True) reply.result ∧ Later s₀ s' ∧ P p'

section Histories

variable [Zero T] [One T] [Add T] [Sub T] [Neg T] [Mul T] [Div T] [BEq T]
variable [Zero R] [One R] [Neg R] [Mul R] [LT R] [DecidableLT R] [LE R] [DecidableLE R] [BEq R]
variable [Magnitude R] [Scalar T R]

/-- One event after the other, whatever became of them, and the replies to the uses. -/
def runEvents (perform : Store T → σ → U → Program T R (Reply T × Store T × σ)) :
    Store T → σ → List (Event T R U) → Program T R (List (Reply T) × Store T × σ)
  | s, p, [] => .done ([], s, p)
  | s, p, .call c :: events => runEvents perform (c.perform s).2 p events
  | s, p, .use u :: events => do
    let (reply, s, p) ← perform s p u
    let (replies, s, p) ← runEvents perform s p events
    return (reply :: replies, s, p)

lemma Later.perform {s₀ s : Store T} (later : Later s₀ s) (c : BlockMatrix.Call T R) :
    Later s₀ (c.perform s).2 :=
  have safe := safe_perform later.sound c
  ⟨safe.sound, later.patterns.trans safe.patterns⟩

/-- If every use does, so does every history. -/
lemma runEvents_spec {s₀ : Store T} {P : σ → Prop}
    {perform : Store T → σ → U → Program T R (Reply T × Store T × σ)}
    (lasting : Lasting s₀ P perform) (events : List (Event T R U)) {s : Store T} {p : σ}
    (later : Later s₀ s) (hp : P p) :
    ∃ replies s' p', runEvents perform s p events = .done (replies, s', p') ∧
      Unhindered replies ∧ Later s₀ s' ∧ P p' := by
  induction events generalizing s p with
  | nil => exact ⟨[], s, p, rfl, fun _ member => absurd member List.not_mem_nil, later, hp⟩
  | cons event events ih =>
    cases event with
    | call c => exact ih (later.perform c) hp
    | use u =>
      obtain ⟨reply, s₁, p₁, first, meets, later₁, hp₁⟩ := lasting s p u later hp
      obtain ⟨replies, s₂, p₂, rest, others, later₂, hp₂⟩ := ih later₁ hp₁
      refine ⟨reply :: replies, s₂, p₂, ?_, ?_, later₂, hp₂⟩
      · rw [runEvents, first, Program.done_bind]
        simp only [rest, Program.done_bind]
        rfl
      · exact List.forall_mem_cons.mpr ⟨ne_stillInFlight meets, others⟩

end Histories

end DomainDecomposition
