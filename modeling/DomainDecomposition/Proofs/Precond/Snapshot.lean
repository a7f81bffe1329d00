import DomainDecomposition.Precond.Basic
import DomainDecomposition.Proofs.Precond.Refactoring

/-!
# A factored preconditioner is a snapshot

A preconditioner shares the matrix that it was made for with others, who may change its values at
any time. Its factors belong to it alone. Whatever happens in between (`Act`), an application
answers what a preconditioner would that was made, shifted and factored at the time of the last
factorization (`factored_is_snapshot`). If there was none, or if it has failed, an application is
refused.

The approximate Schur complement of a single process does the same, step by step (`Alike`).
-/

namespace DomainDecomposition

open Outcome

namespace Preconditioner

open BlockMatrix

variable {T R : Type}

/-! ## What may happen to a preconditioner -/

/-- A call on the matrices of the rank, or an operation of the preconditioner. -/
inductive Act (T R : Type) where
  | call (c : BlockMatrix.Call T R)
  | setShift (shift : T)
  | factor
  | apply (x y : Array T)

/-- Only the preconditioner writes its factors. -/
def Act.Spares (factors : Handle) : Act T R → Prop
  | call c => c.Spares factors
  | _ => True

section Acts

variable [Zero T] [One T] [Add T] [Sub T] [Neg T] [Mul T] [Div T] [BEq T]
variable [Zero R] [One R] [Neg R] [Add R] [Mul R] [Div R] [BEq R]
variable [LT R] [DecidableLT R] [LE R] [DecidableLE R] [Magnitude R] [Scalar T R]

/-- The reply, the matrices and the preconditioner afterwards. -/
def Act.perform (s : Store T) (p : Preconditioner T R) :
    Act T R → Program T R (Reply T × Store T × Preconditioner T R)
  | call c => .done ((c.perform s).1, (c.perform s).2, p)
  | setShift shift => .done (⟨.ok (), #[]⟩, s, p.withShift shift)
  | factor =>
    let (result, s, p) := Preconditioner.factor.on (s, p)
    .done (⟨result, #[]⟩, s, p)
  | apply x y => do
    let (result, p, y) ← (Preconditioner.apply s x).on (p, y)
    return (⟨result, y⟩, s, p)

/-- One act after the other, whatever became of them. -/
def performAll (s : Store T) (p : Preconditioner T R) :
    List (Act T R) → Program T R (List (Reply T) × Store T × Preconditioner T R)
  | [] => .done ([], s, p)
  | act :: acts => do
    let (reply, s, p) ← act.perform s p
    let (replies, s, p) ← performAll s p acts
    return (reply :: replies, s, p)

variable {s s' s'' : Store T} {p p' p'' : Preconditioner T R}

lemma performAll_cons {act : Act T R} {acts : List (Act T R)} {reply : Reply T}
    {replies : List (Reply T)} (first : act.perform s p = .done (reply, s', p'))
    (rest : performAll s' p' acts = .done (replies, s'', p'')) :
    performAll s p (act :: acts) = .done (reply :: replies, s'', p'') := by
  rw [performAll, first, Program.done_bind]
  simp only [rest, Program.done_bind]
  rfl

end Acts

end Preconditioner

namespace AdditiveSchwarz

open BlockMatrix Preconditioner

variable {T R : Type}

section Serving

variable [Zero T] [One R] [Mul R] [LE R] [DecidableLE R] [Magnitude R]

/-- A preconditioner for the diagonal piece of a matrix, whose level-of-fill pattern is `f`. -/
structure Serving (a : DistributedMatrix T) (level : ℕ) (growth : R) (f : BlockMatrix T)
    (s : Store T) (p : AdditiveSchwarz T) : Prop where
  sound : ∀ h, (s.get h).Sound
  diagonal : p.diagonal = a.diagonal
  held_diagonal : s.Holds p.diagonal
  held_factors : s.Holds p.factors
  apart : p.diagonal ≠ p.factors
  pattern : (s.get p.diagonal).fillPattern level growth = .ok f
  factors : SamePattern f (s.get p.factors)

variable {a : DistributedMatrix T} {level : ℕ} {growth : R} {f : BlockMatrix T} {s : Store T}
variable {p : AdditiveSchwarz T}

lemma Serving.levelOfFill (serving : Serving a level growth f s p) :
    (s.get p.diagonal).rowCount = (s.get p.diagonal).columnCount ∧
      (s.get p.diagonal).LevelOfFill level f :=
  levelOfFill_of_fillPattern (serving.sound _).valid serving.pattern

lemma Serving.covers (serving : Serving a level growth f s p) : f.Covers (s.get p.diagonal) :=
  serving.levelOfFill.2.covers (serving.sound _).valid serving.levelOfFill.1

/-- The constructor makes a preconditioner that has not been factored. -/
lemma Serving.of_ofMatrix (sound : ∀ h, (s.get h).Sound) (held : s.Holds a.diagonal)
    (pattern : (s.get a.diagonal).fillPattern level growth = .ok f) {s' : Store T}
    (built : (ofMatrix a level growth).on s = (.ok p, s')) :
    Serving a level growth f s' p ∧ p.factored = false := by
  rw [ofMatrix_on pattern, Prod.mk.injEq] at built
  obtain ⟨hp, rfl⟩ := built
  obtain rfl := Except.ok.inj hp
  obtain ⟨-, level⟩ := levelOfFill_of_fillPattern (sound a.diagonal).valid pattern
  have fresh : f.Fresh := ⟨level.valid, cache_of_fillPattern pattern⟩
  refine ⟨?_, rfl⟩
  have kept : Safe True 0 s (keep (.ok f) s) := safe_keep sound fresh.sound
  exact {
    sound := kept.sound
    diagonal := rfl
    held_diagonal := Store.holds_add held f
    held_factors := Store.holds_add_self s f
    apart := Store.ne_add_of_holds held f
    pattern := by
      rw [Store.get_add_of_holds held]
      exact pattern
    factors := by
      rw [Store.get_add_self]
      exact .refl f }

/-- Other values on the same patterns make no difference, as long as the factors stay. -/
lemma Serving.of_extends (serving : Serving a level growth f s p) {s' : Store T}
    (sound : ∀ h, (s'.get h).Sound) (patterns : Extends s s')
    (kept : s'.get p.factors = s.get p.factors) : Serving a level growth f s' p where
  sound := sound
  diagonal := serving.diagonal
  held_diagonal := (patterns _ serving.held_diagonal).1
  held_factors := (patterns _ serving.held_factors).1
  apart := serving.apart
  pattern := by
    rw [(patterns _ serving.held_diagonal).2.fillPattern_eq]
    exact serving.pattern
  factors := by
    rw [kept]
    exact serving.factors

end Serving

section Steps

variable [Zero T] [One T] [Add T] [Sub T] [Neg T] [Mul T] [Div T] [BEq T]
variable [Zero R] [One R] [Neg R] [Add R] [Mul R] [Div R] [BEq R]
variable [LT R] [DecidableLT R] [LE R] [DecidableLE R] [Magnitude R] [Scalar T R]
variable {a : DistributedMatrix T} {level : ℕ} {growth : R} {f : BlockMatrix T} {s : Store T}
variable {p : AdditiveSchwarz T}

omit [Neg T] [Add R] [Div R] in
/-- Nothing is refused, whatever the pattern of the matrix. -/
lemma Serving.meets_refactoring (serving : Serving a level growth f s p) (shift : T)
    (permitted : Error → Prop)
    (crowded : ¬f.blockSize * f.blockSize < Capacity.limit → permitted .tooLarge)
    (singular : ∀ i, permitted (.singularPivot i)) :
    (refactoring (R := R) (s.get p.diagonal) shift).Meets permitted (SamePattern f)
      (fun _ => True) f := by
  obtain ⟨-, level⟩ := serving.levelOfFill
  have meets := AdditiveSchwarz.meets_refactoring (R := R) level.valid (serving.sound _).valid shift
    permitted (fun lack => absurd serving.covers lack)
    (fun lack => absurd level.hasDiagonal lack) crowded singular
  exact meets.imp fun _ _ => trivial

/-- What is left in the place of the factors does not depend on what was there. -/
lemma Serving.perform_factor (serving : Serving a level growth f s p) {result : Except Error Unit}
    {g : BlockMatrix T} (refactored : (refactoring (R := R) (s.get p.diagonal) p.shift).on f =
      (result, g)) :
    Act.perform s (.additiveSchwarz p) (.factor : Act T R) =
        .done (⟨result, #[]⟩, s.set p.factors g, .additiveSchwarz { p with factored := result.isOk }) ∧
      Serving a level growth f (s.set p.factors g) { p with factored := result.isOk } := by
  have run := refactoring_congr (R := R) serving.levelOfFill.2.valid
    (serving.sound p.diagonal).valid p.shift serving.covers serving.factors
  rw [refactored] at run
  have kept : SamePattern f g := by
    have meets := serving.meets_refactoring (R := R) p.shift (fun _ => True)
      (fun _ => trivial) fun _ => trivial
    rw [Update.Meets, refactored] at meets
    exact meets.1
  have same : SamePattern (s.get p.factors) g := by
    obtain ⟨v, hv, hf⟩ := serving.factors
    obtain ⟨w, hw, rfl⟩ := kept
    rw [hf]
    exact ⟨w, hw.trans hv.symm, rfl⟩
  constructor
  · simp only [Act.perform, Preconditioner.factor, Update.on_ofFunction, factor_on run]
  · exact {
      sound := fun h => by
        rcases Store.get_set s p.factors g h with old | ⟨-, new⟩
        · rw [old]
          exact serving.sound h
        · rw [new]
          exact same.sound (serving.sound p.factors)
      diagonal := serving.diagonal
      held_diagonal := Store.holds_set serving.held_diagonal g
      held_factors := Store.holds_set serving.held_factors g
      apart := serving.apart
      pattern := by
        rw [Store.get_set_ne s g serving.apart.symm]
        exact serving.pattern
      factors := by
        rw [Store.get_set_self s _ g serving.held_factors]
        exact kept }

/-- Any act that spares the factors keeps the preconditioner fit for service. Only a factorization
changes the factors and the flag. -/
lemma Serving.perform (serving : Serving a level growth f s p) {act : Act T R}
    (spared : act.Spares p.factors) :
    ∃ reply s' p', act.perform s (.additiveSchwarz p) = .done (reply, s', .additiveSchwarz p') ∧
      Serving a level growth f s' p' ∧ p'.factors = p.factors ∧
      (act ≠ .factor → p'.factored = p.factored ∧ s'.get p.factors = s.get p.factors) := by
  cases act with
  | call c =>
    have safe := safe_perform serving.sound c
    have kept := get_perform serving.held_factors spared
    exact ⟨_, _, p, rfl, serving.of_extends safe.sound safe.patterns kept, rfl, fun _ => ⟨rfl, kept⟩⟩
  | setShift shift =>
    exact ⟨_, s, { p with shift }, rfl, { serving with }, rfl, fun _ => ⟨rfl, rfl⟩⟩
  | factor =>
    obtain ⟨run, serving'⟩ := serving.perform_factor (R := R) (Prod.eta _).symm
    exact ⟨_, _, _, run, serving', rfl, fun other => absurd rfl other⟩
  | apply x y => exact ⟨_, s, p, rfl, serving, rfl, fun _ => ⟨rfl, rfl⟩⟩

/-- The same for any number of acts. -/
lemma Serving.performAll (serving : Serving a level growth f s p) {acts : List (Act T R)}
    (spared : ∀ act ∈ acts, act.Spares p.factors) :
    ∃ replies s' p',
      Preconditioner.performAll s (.additiveSchwarz p) acts =
        .done (replies, s', .additiveSchwarz p') ∧
      Serving a level growth f s' p' ∧ p'.factors = p.factors ∧
      ((∀ act ∈ acts, act ≠ .factor) →
        p'.factored = p.factored ∧ s'.get p.factors = s.get p.factors) := by
  induction acts generalizing s p with
  | nil => exact ⟨[], s, p, rfl, serving, rfl, fun _ => ⟨rfl, rfl⟩⟩
  | cons act acts ih =>
    obtain ⟨spared, sparedRest⟩ := List.forall_mem_cons.mp spared
    obtain ⟨reply, s₁, p₁, first, serving₁, factors₁, kept₁⟩ := serving.perform spared
    obtain ⟨replies, s₂, p₂, rest, serving₂, factors₂, kept₂⟩ :=
      ih serving₁ (by rwa [factors₁])
    refine ⟨_, s₂, p₂, performAll_cons first rest, serving₂, factors₂.trans factors₁, ?_⟩
    intro quiet
    obtain ⟨other, quietRest⟩ := List.forall_mem_cons.mp quiet
    obtain ⟨flag₁, get₁⟩ := kept₁ other
    obtain ⟨flag₂, get₂⟩ := kept₂ quietRest
    rw [factors₁] at get₂
    exact ⟨flag₂.trans flag₁, get₂.trans get₁⟩

end Steps

/-! ## Applications -/

section Applications

variable [Zero T] [Add T] [Sub T] [Mul T] {s : Store T} {p : AdditiveSchwarz T}

/-- Every application is rejected, and the output stays as it is. -/
def Refuses (s : Store T) (p : AdditiveSchwarz T) : Prop :=
  ∀ x y, (p.apply s x).on y = (.error (.notFactored .additiveSchwarz), y)

lemma refuses_of_unfactored (flag : p.factored = false) : Refuses s p := by
  intro x y
  unfold apply
  rw [flag]
  rfl

lemma apply_of_factored (flag : p.factored = true) (x y : Array T) :
    (p.apply s x).on y = ((s.get p.factors).applyFactor x).on y := by
  unfold apply
  rw [flag]
  rfl

/-- The solves of the factors have other ways to fail. -/
lemma apply_ne_notFactored (valid : (s.get p.factors).Valid) (flag : p.factored = true)
    (x y : Array T) : ((p.apply s x).on y).1 ≠ .error (.notFactored .additiveSchwarz) := by
  have meets : ((s.get p.factors).applyFactor x).Meets (· ≠ .notFactored .additiveSchwarz)
      (·.size = y.size) (fun _ => True) y :=
    meets_applyFactor valid (fun _ _ => nofun) (fun _ => nofun) (fun _ => nofun)
      fun _ => nofun
  rw [apply_of_factored flag]
  intro failed
  rw [Update.Meets, failed] at meets
  exact meets.2 rfl

end Applications

section Anew

variable [Zero T] [One T] [Add T] [Sub T] [Mul T] [Div T] [BEq T]
variable [Zero R] [One R] [Neg R] [Mul R] [LT R] [DecidableLT R] [LE R] [DecidableLE R] [BEq R]
variable [Magnitude R] [Scalar T R]

/-- Make a preconditioner, set its shift and factor it. -/
def anew (a : DistributedMatrix T) (level : ℕ) (growth : R) (shift : T) :
    Update (Store T) (AdditiveSchwarz T) :=
  Update.ofFunction fun s =>
    match (ofMatrix a level growth).on s with
    | (.error e, s) => (.error e, s)
    | (.ok p, s) =>
      let (result, s, p) := (factor (R := R)).on (s, { p with shift })
      (result.map fun _ => p, s)

/-- A preconditioner in service leaves the same factors as one that is made anew. -/
lemma Serving.anew_on {a : DistributedMatrix T} {level : ℕ} {growth : R} {f g : BlockMatrix T}
    {s : Store T} {p : AdditiveSchwarz T} (serving : Serving a level growth f s p)
    {result : Except Error Unit}
    (refactored : (refactoring (R := R) (s.get p.diagonal) p.shift).on f = (result, g)) :
    ∃ s' p', (anew a level growth p.shift).on s = (result.map fun _ => p', s') ∧
      p'.factored = result.isOk ∧ s'.get p'.factors = g := by
  have pattern := serving.pattern
  have held := serving.held_diagonal
  rw [serving.diagonal] at pattern held refactored
  have run : (refactoring (R := R) ((s.add f).2.get a.diagonal) p.shift).on
      ((s.add f).2.get (s.add f).1) = (result, g) := by
    rwa [Store.get_add_of_holds held, Store.get_add_self]
  unfold anew
  simp only [Update.on_ofFunction, ofMatrix_on pattern,
    factor_on (p := ⟨a.diagonal, (s.add f).1, p.shift, false⟩) run]
  exact ⟨_, _, rfl, rfl, Store.get_set_self _ _ g (Store.holds_add_self s f)⟩

end Anew

end AdditiveSchwarz

/-! ## A single process -/

section Alike

open BlockMatrix Preconditioner

variable {T R : Type}

/-- The approximate Schur complement of a single process beside an additive Schwarz
preconditioner. -/
structure AdditiveSchwarz.Alike (p : AdditiveSchwarz T) (q : ApproximateSchur T R) : Prop where
  inner : q.inner = none
  diagonal : q.diagonal = p.diagonal
  factors : q.factors = p.factors
  shift : q.shift = p.shift
  factored : q.factored = p.factored

/-- The same reply, up to the name of the part that has not been factored. -/
def SameReply (r r' : Reply T) : Prop :=
  r' = r ∨ r.result = .error (.notFactored .additiveSchwarz) ∧
    r' = ⟨.error (.notFactored .approximateSchur), r.output⟩

namespace ApproximateSchur

variable {s s₁ s₂ : Store T} {p : AdditiveSchwarz T} {q : ApproximateSchur T R}

lemma alike_of_ofMatrix [Zero T] [One R] [Mul R] [LE R] [DecidableLE R] [Magnitude R]
    {a : DistributedMatrix T} {level : ℕ} {growth growth' : R} {settings : InnerSettings R}
    (alone : a.partition.communicator.size ≤ 1)
    (built : (AdditiveSchwarz.ofMatrix a level growth).on s = (.ok p, s₁))
    (built' : (ofMatrix a level growth' settings).on s = .done (.ok q, s₂)) :
    s₂ = s₁ ∧ p.Alike q := by
  obtain ⟨f, pattern⟩ := AdditiveSchwarz.fillPattern_of_ofMatrix built
  rw [AdditiveSchwarz.ofMatrix_on pattern, Prod.mk.injEq] at built
  obtain ⟨hp, rfl⟩ := built
  obtain rfl := Except.ok.inj hp
  rw [ofMatrix, Collective.on_bind, Collective.on_ofUpdate, Program.done_bind] at built'
  rcases allocated : (AdditiveSchwarz.allocateFactors a.diagonal level growth').on s with
    ⟨e | factors, s'⟩
  · rw [allocated] at built'
    simp at built'
  · obtain ⟨f', pattern', rfl, rfl⟩ := AdditiveSchwarz.fillPattern_of_allocateFactors allocated
    obtain rfl := fillPattern_inj pattern pattern'
    rw [allocated] at built'
    simp only [Collective.on_bind, Collective.on_get, Program.done_bind,
      if_neg (Nat.not_lt.mpr alone), Collective.on_pure, Program.done.injEq, Prod.mk.injEq,
      Except.ok.injEq] at built'
    obtain ⟨rfl, rfl⟩ := built'
    exact ⟨rfl, rfl, rfl, rfl, rfl, rfl⟩

/-- Where one can be made, so can the other. -/
lemma exists_ofMatrix [Zero T] [One R] [Mul R] [LE R] [DecidableLE R] [Magnitude R]
    {a : DistributedMatrix T} {level : ℕ} {growth : R} {settings : InnerSettings R}
    (alone : a.partition.communicator.size ≤ 1)
    (built : (AdditiveSchwarz.ofMatrix a level growth).on s = (.ok p, s₁)) :
    ∃ q s₂, (ofMatrix a level growth settings).on s = .done (.ok q, s₂) := by
  obtain ⟨f, pattern⟩ := AdditiveSchwarz.fillPattern_of_ofMatrix built
  rw [ofMatrix, Collective.on_bind, Collective.on_ofUpdate, Program.done_bind,
    AdditiveSchwarz.allocateFactors_on pattern]
  simp only [Collective.on_bind, Collective.on_get, Program.done_bind,
    if_neg (Nat.not_lt.mpr alone), Collective.on_pure]
  exact ⟨_, _, rfl⟩

variable [Zero T] [One T] [Add T] [Sub T] [Neg T] [Mul T] [Div T] [BEq T]
variable [Zero R] [One R] [Neg R] [Add R] [Mul R] [Div R] [BEq R]
variable [LT R] [DecidableLT R] [LE R] [DecidableLE R] [Magnitude R] [Scalar T R]

omit [BEq T] [Neg R] in
/-- Alone, it solves with the factors and asks nobody. -/
lemma apply_alone (alone : q.inner = none) (x y : Array T) :
    (apply s x).on (q, y) =
      if q.factored then
        .done ((((s.get q.factors).applyFactor x).on y).1, q,
          (((s.get q.factors).applyFactor x).on y).2)
      else .done (.error (.notFactored .approximateSchur), q, y) := by
  rw [apply, Collective.on_bind, Collective.on_get, Program.done_bind]
  simp only [alone]
  cases flag : q.factored with
  | false => rfl
  | true => rfl

/-- One act has the same effect on both. -/
lemma perform_alike (alike : p.Alike q) (act : Act T R) :
    ∃ reply reply' s' p' q',
      act.perform s (.additiveSchwarz p) = .done (reply, s', .additiveSchwarz p') ∧
      act.perform s (.approximateSchur q) = .done (reply', s', .approximateSchur q') ∧
      SameReply reply reply' ∧ p'.Alike q' := by
  cases act with
  | call c => exact ⟨_, _, _, p, q, rfl, rfl, .inl rfl, alike⟩
  | setShift shift =>
    exact ⟨_, _, s, { p with shift }, { q with shift }, rfl, rfl, .inl rfl,
      { alike with shift := rfl }⟩
  | factor =>
    rcases refactored : (AdditiveSchwarz.refactoring (R := R) (s.get p.diagonal) p.shift).on
      (s.get p.factors) with ⟨result, g⟩
    have run := AdditiveSchwarz.factor_on (R := R) refactored
    rw [← alike.diagonal, ← alike.factors, ← alike.shift] at refactored
    have run' := factor_on refactored
    refine ⟨⟨result, #[]⟩, ⟨result, #[]⟩, s.set p.factors g, { p with factored := result.isOk },
      { q with factored := result.isOk }, ?_, ?_, .inl rfl, { alike with factored := rfl }⟩
    · simp only [Act.perform, Preconditioner.factor, Update.on_ofFunction, run]
    · simp only [Act.perform, Preconditioner.factor, Update.on_ofFunction, run', alike.factors]
  | apply x y =>
    have run : Act.perform s (.additiveSchwarz p) (.apply x y : Act T R) =
      .done (⟨((p.apply s x).on y).1, ((p.apply s x).on y).2⟩, s, .additiveSchwarz p) := rfl
    have run' : Act.perform s (.approximateSchur q) (.apply x y : Act T R) =
        ((apply s x).on (q, y) >>= fun t => .done (t.1, .approximateSchur t.2.1, t.2.2)) >>=
          fun t => .done (⟨t.1, t.2.2⟩, s, t.2.1) := rfl
    rw [apply_alone alike.inner, alike.factored, alike.factors] at run'
    cases flag : p.factored with
    | false =>
      rw [AdditiveSchwarz.refuses_of_unfactored flag] at run
      rw [flag, if_neg Bool.false_ne_true] at run'
      exact ⟨_, _, s, p, q, run, run', .inr ⟨rfl, rfl⟩, alike⟩
    | true =>
      rw [AdditiveSchwarz.apply_of_factored flag] at run
      rw [flag, if_pos rfl] at run'
      exact ⟨_, _, s, p, q, run, run', .inl rfl, alike⟩

/-- The same for any number of acts. -/
lemma performAll_alike (alike : p.Alike q) (acts : List (Act T R)) :
    ∃ replies replies' s' p' q',
      performAll s (.additiveSchwarz p) acts = .done (replies, s', .additiveSchwarz p') ∧
      performAll s (.approximateSchur q) acts = .done (replies', s', .approximateSchur q') ∧
      List.Forall₂ SameReply replies replies' := by
  induction acts generalizing s p q with
  | nil => exact ⟨[], [], s, p, q, rfl, rfl, .nil⟩
  | cons act acts ih =>
    obtain ⟨_, _, s₁, p₁, q₁, first, first', same, alike₁⟩ := perform_alike (s := s) alike act
    obtain ⟨_, _, s₂, p₂, q₂, rest, rest', sameRest⟩ := ih (s := s₁) alike₁
    exact ⟨_, _, s₂, p₂, q₂, performAll_cons first rest, performAll_cons first' rest',
      .cons same sameRest⟩

end ApproximateSchur

/-! ## Every run -/

section Runs

variable [Zero T] [One T] [Add T] [Sub T] [Neg T] [Mul T] [Div T] [BEq T]
variable [Zero R] [One R] [Neg R] [Add R] [Mul R] [Div R] [BEq R]
variable [LT R] [DecidableLT R] [LE R] [DecidableLE R] [Magnitude R] [Scalar T R]

open AdditiveSchwarz in
/-- A preconditioner is made for a matrix, and then anything may happen, `before` and `after` its
last factorization, but nobody else writes its factors. Before the first factorization it is not
applied. A factorization fails at a singular pivot, or, if there are no rows, for lack of room. If
the last one has failed, the preconditioner is not applied; otherwise it answers what one would that
had been made anew at that time. Beside it, the approximate Schur complement of a single process
gives the same replies. -/
theorem factored_is_snapshot {a : DistributedMatrix T} {level : ℕ} {growth : R} {s s₀ : Store T}
    {p : AdditiveSchwarz T} (sound : ∀ h, (s.get h).Sound) (held : s.Holds a.diagonal)
    (built : (ofMatrix a level growth).on s = (.ok p, s₀)) :
    (∀ before after : List (Act T R), (∀ act ∈ before ++ after, act.Spares p.factors) →
      (∀ act ∈ after, act ≠ .factor) →
      ∃ replies s₁ p₁, performAll s₀ (.additiveSchwarz p) before =
          .done (replies, s₁, .additiveSchwarz p₁) ∧
        ((∀ act ∈ before, act ≠ .factor) → Refuses s₁ p₁) ∧
        ∃ result replies' s₂ p₂ s' p', performAll s₁ (.additiveSchwarz p₁) (.factor :: after) =
            .done (⟨result, #[]⟩ :: replies', s₂, .additiveSchwarz p₂) ∧
          (anew (R := R) a level growth p₁.shift).on s₁ = (result.map fun _ => p', s') ∧
          (∀ e, result = .error e →
            ((∃ i, e = .singularPivot i) ∨ e = .tooLarge ∧ (s.get a.diagonal).rowCount = 0 ∧
              ¬(s.get a.diagonal).blockSize * (s.get a.diagonal).blockSize < Capacity.limit) ∧
            Refuses s₂ p₂) ∧
          (result = .ok () → ∀ x y, (p₂.apply s₂ x).on y = (p'.apply s' x).on y ∧
            ((p₂.apply s₂ x).on y).1 ≠ .error (.notFactored .additiveSchwarz))) ∧
      ∀ {growth' : R} {settings : ApproximateSchur.InnerSettings R} {s₀' : Store T}
        {q : ApproximateSchur T R}, a.partition.communicator.size ≤ 1 →
        (ApproximateSchur.ofMatrix a level growth' settings).on s = .done (.ok q, s₀') →
        ∀ acts : List (Act T R), ∃ replies replies' s₁ p₁ q₁,
          performAll s₀ (.additiveSchwarz p) acts = .done (replies, s₁, .additiveSchwarz p₁) ∧
          performAll s₀' (.approximateSchur q) acts = .done (replies', s₁, .approximateSchur q₁) ∧
          List.Forall₂ SameReply replies replies' := by
  obtain ⟨f, pattern⟩ := fillPattern_of_ofMatrix built
  obtain ⟨serving, flag⟩ := Serving.of_ofMatrix sound held pattern built
  constructor
  · intro before after spared quiet
    obtain ⟨sparedBefore, sparedAfter⟩ := List.forall_mem_append.mp spared
    obtain ⟨replies, s₁, p₁, run, serving₁, factors₁, kept₁⟩ := serving.performAll sparedBefore
    refine ⟨replies, s₁, p₁, run, fun none => refuses_of_unfactored ((kept₁ none).1.trans flag), ?_⟩
    -- what follows depends on the values and the shift at this time, and on nothing before
    rcases refactored : (refactoring (R := R) (s₁.get p₁.diagonal) p₁.shift).on f with ⟨result, g⟩
    obtain ⟨first, serving'⟩ := serving₁.perform_factor refactored
    obtain ⟨replies', s₂, p₂, rest, serving₂, factors₂, kept₂⟩ :=
      serving'.performAll (by rwa [← factors₁] at sparedAfter)
    obtain ⟨flag₂, get₂⟩ := kept₂ quiet
    obtain ⟨s', p', run', flag', get'⟩ := serving₁.anew_on refactored
    refine ⟨result, replies', s₂, p₂, s', p', performAll_cons first rest, run', ?_, ?_⟩
    · rintro e rfl
      refine ⟨?_, refuses_of_unfactored flag₂⟩
      have crowded : ¬f.blockSize * f.blockSize < Capacity.limit →
          (s.get a.diagonal).rowCount = 0 ∧
            ¬(s.get a.diagonal).blockSize * (s.get a.diagonal).blockSize < Capacity.limit := by
        intro lack
        obtain ⟨-, level⟩ := levelOfFill_of_fillPattern (sound a.diagonal).valid pattern
        refine ⟨?_, by rwa [← level.blockSize]⟩
        by_contra nonempty
        exact lack (block_lt_of_fillPattern (sound a.diagonal).valid pattern nonempty)
      have meets := serving₁.meets_refactoring (R := R) p₁.shift (fun e =>
        (∃ i, e = .singularPivot i) ∨ e = .tooLarge ∧ (s.get a.diagonal).rowCount = 0 ∧
          ¬(s.get a.diagonal).blockSize * (s.get a.diagonal).blockSize < Capacity.limit)
        (fun lack => .inr ⟨rfl, crowded lack⟩) fun i => .inl ⟨i, rfl⟩
      rw [Update.Meets, refactored] at meets
      exact meets.2
    · rintro rfl x y
      refine ⟨?_, apply_ne_notFactored (serving₂.sound _).valid flag₂ x y⟩
      rw [apply_of_factored flag₂, apply_of_factored flag', get', factors₂, get₂,
        Store.get_set_self s₁ _ g serving₁.held_factors]
  · intro growth' settings s₀' q alone built' acts
    obtain ⟨rfl, alike⟩ := ApproximateSchur.alike_of_ofMatrix alone built built'
    obtain ⟨replies, replies', s₁, p₁, q₁, run, run', same⟩ :=
      ApproximateSchur.performAll_alike alike acts
    exact ⟨replies, replies', s₁, p₁, q₁, run, run', same⟩

end Runs

/-! ### Single processes -/

/-- A matrix without its first diagonal block. -/
def soloDiagonal : BlockMatrix ℚ where
  blockSize := 1
  rowCount := 2
  columnCount := 2
  rowStart := #[0, 1, 3]
  columns := #[1, 0, 1]
  values := #[1, 1, 2]
  diagonal := #[]
  invertedDiagonal := #[]

/-- A matrix without rows and with large blocks. -/
def vastDiagonal : BlockMatrix ℚ where
  blockSize := 2 ^ 30
  rowCount := 0
  columnCount := 0
  rowStart := #[0]
  columns := #[]
  values := #[]
  diagonal := #[]
  invertedDiagonal := #[]

/-- A store with one matrix. -/
def soloStore (d : BlockMatrix ℚ) : Store ℚ :=
  (Store.empty.add d).2

/-- A distributed matrix of one process. -/
def soloMatrix (d : BlockMatrix ℚ) : DistributedMatrix ℚ where
  partition := ⟨.single, #[0, d.rowCount]⟩
  diagonal := ⟨0⟩
  offDiagonal := ⟨0⟩
  table := { blocks := [], link := fun b => .ok ⟨b, .idle, .remote []⟩ }
  constraints := none
  halo := ⟨⟨d.blockSize, .idle, .remote []⟩, #[]⟩
  layout := ⟨d.blockSize, d.rowCount, 0, d.rowCount, 0⟩

lemma soloStore_sound {d : BlockMatrix ℚ} (valid : d.Valid) (cache : d.invertedDiagonal.size = 0)
    (h : Handle) : ((soloStore d).get h).Sound := by
  have sound : d.Sound := ⟨valid, .inl cache⟩
  have kept : Safe True 0 .empty (keep (.ok d) .empty) :=
    safe_keep (s := .empty) (fun _ => sound_empty) sound
  exact kept.sound h

/-- With a shift the factors exist, they stay what they are when the values are doubled, and the
other preconditioner replies in the same way. -/
theorem solo_is_snapshot : ∃ p s₀ replies s₁ p₁ replies' s₂ p₂ s' p' q s₀',
    (AdditiveSchwarz.ofMatrix (soloMatrix soloDiagonal) 0 (1 : ℚ)).on (soloStore soloDiagonal) =
      (.ok p, s₀) ∧
    performAll s₀ (.additiveSchwarz p) [.setShift (1 : ℚ)] =
      .done (replies, s₁, .additiveSchwarz p₁) ∧
    performAll s₁ (.additiveSchwarz p₁) [.factor, .call (.change ⟨0⟩ (.scale (2 : ℚ)))] =
      .done (⟨.ok (), #[]⟩ :: replies', s₂, .additiveSchwarz p₂) ∧
    (AdditiveSchwarz.anew (soloMatrix soloDiagonal) 0 1 1).on s₁ = (.ok p', s') ∧
    (p₂.apply s₂ #[1, 1]).on #[0, 0] = (p'.apply s' #[1, 1]).on #[0, 0] ∧
    (ApproximateSchur.ofMatrix (soloMatrix soloDiagonal) 0 1 ⟨1, 0, 0⟩).on (soloStore soloDiagonal) =
      .done (.ok q, s₀') ∧
    ∃ replies replies' s₁ p₁ q₁,
      performAll s₀ (.additiveSchwarz p) [.factor, .apply #[1, (1 : ℚ)] #[0, 0]] =
        .done (replies, s₁, .additiveSchwarz p₁) ∧
      performAll s₀' (.approximateSchur q) [.factor, .apply #[1, (1 : ℚ)] #[0, 0]] =
        .done (replies', s₁, .approximateSchur q₁) ∧
      List.Forall₂ SameReply replies replies' := by
  have valid : soloDiagonal.Valid := by decide +kernel
  have held : (soloStore soloDiagonal).Holds (soloMatrix soloDiagonal).diagonal := Nat.zero_lt_one
  have factors : ((AdditiveSchwarz.ofMatrix (soloMatrix soloDiagonal) 0 (1 : ℚ)).on
      (soloStore soloDiagonal)).1.map (·.factors) = .ok ⟨1⟩ := by decide +kernel
  have success : ((AdditiveSchwarz.anew (soloMatrix soloDiagonal) 0 (1 : ℚ) 1).on
      ((AdditiveSchwarz.ofMatrix (soloMatrix soloDiagonal) 0 (1 : ℚ)).on
        (soloStore soloDiagonal)).2).1.toOption.isSome := by decide +kernel
  rcases made : (AdditiveSchwarz.ofMatrix (soloMatrix soloDiagonal) 0 (1 : ℚ)).on
    (soloStore soloDiagonal) with ⟨e | p, s₀⟩
  · rw [made] at factors
    cases factors
  rw [made] at factors success
  have spared : ∀ act ∈ [Act.setShift (1 : ℚ)] ++ [.call (.change ⟨0⟩ (.scale (2 : ℚ)))],
      act.Spares (R := ℚ) p.factors := by
    have own : p.factors = ⟨1⟩ := Except.ok.inj factors
    simp [Act.Spares, BlockMatrix.Call.Spares, own]
  obtain ⟨snapshots, alike⟩ := factored_is_snapshot (R := ℚ) (soloStore_sound valid rfl) held made
  obtain ⟨replies, s₁, p₁, run, -, result, replies', s₂, p₂, s', p', run', anew, -, answers⟩ :=
    snapshots _ _ spared (by simp)
  have setShift : performAll s₀ (.additiveSchwarz p) [.setShift (1 : ℚ)] =
      .done ([⟨.ok (), #[]⟩], s₀, .additiveSchwarz { p with shift := (1 : ℚ) }) := rfl
  rw [setShift] at run
  obtain ⟨rfl, rfl, rfl⟩ : _ ∧ s₀ = s₁ ∧ { p with shift := 1 } = p₁ := by simpa using run
  rw [anew] at success
  have made' : ∃ q s₀', (ApproximateSchur.ofMatrix (soloMatrix soloDiagonal) 0 (1 : ℚ) ⟨1, 0, 0⟩).on
      (soloStore soloDiagonal) = .done (.ok q, s₀') :=
    ApproximateSchur.exists_ofMatrix (le_refl 1) made
  obtain ⟨q, s₀', made'⟩ := made'
  cases result with
  | error e => cases success
  | ok _ =>
    exact ⟨p, s₀, _, s₀, _, replies', s₂, p₂, s', p', q, s₀', rfl, setShift, run', anew,
      (answers rfl #[1, 1] #[0, 0]).1, made', alike (le_refl 1) made' _⟩

/-- Without rows there is nothing to factor, but a block is kept aside all the same. -/
theorem exists_factor_tooLarge :
    ¬∀ (a : DistributedMatrix ℚ) (level : ℕ) (growth : ℚ) (s s₀ : Store ℚ) (p : AdditiveSchwarz ℚ),
      (∀ h, (s.get h).Sound) → s.Holds a.diagonal →
      (AdditiveSchwarz.ofMatrix a level growth).on s = (.ok p, s₀) →
      ((AdditiveSchwarz.factor (R := ℚ)).on (s₀, p)).1 = .ok () ∨
        ∃ i, ((AdditiveSchwarz.factor (R := ℚ)).on (s₀, p)).1 = .error (.singularPivot i) := by
  intro factored
  have valid : vastDiagonal.Valid := by decide +kernel
  have failed : (match (AdditiveSchwarz.ofMatrix (soloMatrix vastDiagonal) 0 (1 : ℚ)).on
      (soloStore vastDiagonal) with
    | (.ok p, s) => ((AdditiveSchwarz.factor (R := ℚ)).on (s, p)).1
    | (.error _, _) => .ok ()) = .error .tooLarge := by decide +kernel
  rcases made : (AdditiveSchwarz.ofMatrix (soloMatrix vastDiagonal) 0 (1 : ℚ)).on
    (soloStore vastDiagonal) with ⟨e | p, s⟩
  · rw [made] at failed
    cases failed
  · rw [made] at failed
    dsimp only at failed
    have result := factored (soloMatrix vastDiagonal) 0 1 _ s p (soloStore_sound valid rfl)
      Nat.zero_lt_one made
    rw [failed] at result
    rcases result with h | ⟨i, h⟩
    · cases h
    · cases h

end Alike

end DomainDecomposition
