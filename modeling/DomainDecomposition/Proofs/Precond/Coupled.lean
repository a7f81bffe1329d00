import DomainDecomposition.Proofs.Distributed.Interface
import DomainDecomposition.Proofs.Krylov.Dialogue
import DomainDecomposition.Proofs.Precond.Refactoring
import DomainDecomposition.Proofs.Rank.Vote

/-!
# Approximate Schur complements in a world of ranks

A preconditioner that several ranks apply together is made, shifted, factored and applied, again and
again, and every one of these may fail. Whatever has happened (`Reached`), it fits its factors and
its place among the ranks, and if it counts as factored then the solves go through (`Coupled`).

* `Collective.Keeps`: what an operation keeps however it ends, with a rule for every way to put
  operations together,
* `Coupled.of_ofMatrix`, `Coupled.factor`, `Coupled.apply`: the constructor, factoring and applying,
* `alternates_solveInterface`: the interface solve writes and reads by turns,
* `Reached.coupled`: all of them, one after the other.
-/

namespace DomainDecomposition

open Outcome

variable {T R σ τ α β : Type}

/-! ## What an operation keeps -/

namespace Collective

/-- However the operation ends, a property of the state is kept. -/
def Keeps (P : σ → Prop) (c : Collective T R σ α) : Prop :=
  ∀ s, P s → (c.on s).Ensures fun result => P result.2

namespace Keeps

variable {P : σ → Prop} {c : Collective T R σ α}

lemma get : Keeps P (get : Collective T R σ σ) :=
  fun _ hs => hs

lemma lift (r : Except Error α) : Keeps P (monadLift r : Collective T R σ α) := by
  intro s hs
  rw [on_monadLift]
  exact hs

lemma ofProgram (p : Program T R α) : Keeps P (ofProgram p : Collective T R σ α) :=
  fun _ hs => (Program.ensures_true p).bind fun _ _ => hs

lemma ofUpdate {u : Update σ α} (kept : ∀ s, P s → P (u.on s).2) :
    Keeps P (ofUpdate u : Collective T R σ α) :=
  kept

/-- The second operation starts from what the first one has kept. -/
lemma bind (first : Keeps P c) {f : α → Collective T R σ β} (next : ∀ a, Keeps P (f a)) :
    Keeps P (c >>= f) := by
  intro s hs
  rw [on_bind]
  refine (first s hs).bind ?_
  rintro ⟨e | a, t⟩ ht
  · exact ht
  · exact next a t ht

lemma compositional (P : σ → Prop) : Compositional (T := T) (R := R) (Keeps P) :=
  ⟨lift, fun first => first.bind⟩

/-- An operation on a part keeps what the part and the rest keep. -/
lemma focus (P' : τ → Prop) {part : σ → τ} {restore : τ → σ → σ} {c : Collective T R τ α}
    (inner : Keeps P' c) (taken : ∀ s, P s → P' (part s))
    (kept : ∀ t s, P' t → P s → P (restore t s)) : Keeps P (c.focus part restore) := by
  intro s hs
  rw [on_focus]
  exact (inner _ (taken s hs)).bind fun result h => kept result.2 s h hs

end Keeps

end Collective

open Collective in
/-- What the calls of a solver do, the whole solve does. -/
lemma Dialogue.conduct_compositional {Q : ∀ {α : Type}, Collective T R σ α → Prop}
    (compositional : Compositional Q) {system : LinearSystem (Collective T R σ) T R}
    (operator : ∀ x old, Q (system.operator x old))
    (precondition : ∀ v old, Q (Gmres.direct system v old))
    (reduce : ∀ values, Q (system.reduce values)) (d : Dialogue T R α) : Q (conduct system d) := by
  induction d with
  | done a => exact compositional.lift (.ok a)
  | call c next ih =>
    refine compositional.bind ?_ ih
    cases c with
    | operator x old => exact operator x old
    | precondition v old => exact precondition v old
    | reduce values => exact reduce values

namespace InterfaceOperator

/-- The operator still has the partition and the vectors of `op`. -/
def SameShape (op op' : InterfaceOperator T) : Prop :=
  op'.partition = op.partition ∧ op'.vectorLength = op.vectorLength

open Collective in
/-- A product changes nothing but the halo. -/
lemma keeps_mult [Zero T] [Add T] [Mul T] [Sub T] (op : InterfaceOperator T) (store : Store T)
    (w : Array T) :
    Keeps (fun s => SameShape op s.1)
      (mult store w : Collective T R (InterfaceOperator T × Array T) Unit) := by
  have halo : ∀ {α : Type} (c : Collective T R (Halo T) α),
      Keeps (fun s : InterfaceOperator T × Array T => SameShape op s.1) (onHalo c).onFst := by
    intro α c
    have whole : Keeps (SameShape op) (onHalo c) :=
      .focus (fun _ => True) (fun _ _ => Program.ensures_true _) (fun _ _ => trivial)
        fun _ _ _ same => same
    exact .focus _ whole (fun _ same => same) fun _ _ same _ => same
  unfold mult multRemote
  refine .bind (.bind .get fun s => ?_) fun _ => .bind .get fun s => .ofUpdate fun _ same => same
  refine .bind (.lift _) fun _ => .bind (.lift _) fun _ => .bind (halo _) fun ticket => ?_
  exact .bind (halo _) fun _ => .bind .get fun _ => .ofUpdate fun _ same => same

end InterfaceOperator

namespace ApproximateSchur

/-! ## One application -/

section Application

variable [Zero T] [One T] [Add T] [Sub T] [Neg T] [Mul T] [Div T]
variable [Zero R] [One R] [Add R] [Mul R] [Div R] [BEq R]
variable [LT R] [DecidableLT R] [LE R] [DecidableLE R] [Magnitude R] [Scalar T R]

open Collective in
/-- What the interface operator and the reductions do, the interface solve does. -/
lemma solveInterface_compositional {Q : ∀ {α : Type}, Collective T R (InterfaceOperator T) α → Prop}
    (compositional : Compositional Q) {store : Store T} {communicator : Communicator}
    (operator : ∀ w y : Array T, Q (ofFunction fun op =>
      (InterfaceOperator.mult store w).on (op, y) >>= fun s =>
        .done (s.1.map fun _ => s.2.2, s.2.1)))
    (reduce : ∀ values : Array R, Q (ofProgram (communicator.reduceAll values)))
    (solver : Gmres R) (height : ℕ) (right : Array T) :
    Q (solveInterface store solver communicator height right) := by
  unfold solveInterface
  dsimp only
  rw [Gmres.solve_eq_watched, map_eq_pure_bind]
  refine compositional.bind (compositional.bind ?_ fun _ => compositional.lift (.ok _)) fun _ =>
    compositional.lift _
  rw [← Dialogue.conduct_watched (p := false)]
  · refine Dialogue.conduct_compositional compositional operator ?_ reduce _
    exact fun v _ => compositional.lift (.ok v)
  · exact nofun

open Collective in
/-- The interface solve changes nothing but the halo of its operator. -/
lemma keeps_solveInterface (op : InterfaceOperator T) (store : Store T) (solver : Gmres R)
    (communicator : Communicator) (height : ℕ) (right : Array T) :
    Keeps op.SameShape (solveInterface store solver communicator height right) :=
  solveInterface_compositional (Keeps.compositional _)
    (fun w y s same => (op.keeps_mult store w (s, y) same).bind fun _ h => h)
    (fun _ => .ofProgram _) solver height right

open Collective in
/-- The interface solve writes and reads by turns. -/
lemma alternates_solveInterface (store : Store T) (solver : Gmres R) (communicator : Communicator)
    (height : ℕ) (right : Array T) :
    Alternates .writing (solveInterface store solver communicator height right) :=
  solveInterface_compositional (Alternates.compositional _)
    (fun w y op => (InterfaceOperator.alternates_mult store w (op, y)).bind fun _ => .done _)
    (fun values => .ofProgram (alternates_reduceAll communicator values)) solver height right

/-- The interface solve of an application, and what follows it. -/
def solveCoupled (store : Store T) (inner : InterfaceSolve T R) :
    Collective T R (ApproximateSchur T R × Array T) Unit := do
  let (p, y) ← get
  let start := p.layout.interfaceStart
  let right := y.extract start (p.layout.blockSize * p.layout.owned)
  let (stats, w) ←
    (solveInterface store inner.solver inner.operator.partition.communicator
        inner.operator.vectorLength right).focus
      (fun _ => inner.operator)
      fun operator s => ({ s.1 with inner := some { inner with operator } }, s.2)
  modify fun (p, y) => ({ p with lastSolve := some stats }, Span.overwrite y start w)
  Collective.ofUpdate ((store.get p.factors).applyUpperBefore p.layout.interior).onSnd

/-- What a rank does when it knows how its elimination has ended, and what all ranks have
reported. -/
def afterVote (store : Store T) (inner : InterfaceSolve T R) (p : ApproximateSchur T R)
    (y : Array T) (votes : Array R) :
    Except Error Unit → Program T R (Except Error Unit × ApproximateSchur T R × Array T)
  | .error e => .done (.error e, p, y)
  | .ok () =>
    if 0 < votes.getD 0 0 then
      .done (.error (.peerFailure (Magnitude.toNat (votes.getD 0 0))), p, y)
    else (solveCoupled store inner).on (p, y)

/-- An application is an elimination, a report, and what follows from the reports. -/
lemma apply_on_vote {store : Store T} {p : ApproximateSchur T R} {inner : InterfaceSolve T R}
    (present : p.inner = some inner) (x y : Array T) :
    (apply store x).on (p, y) =
      inner.operator.partition.communicator.reduceAll
          #[ballot ((p.eliminate store x).on y).1] >>= fun votes =>
        afterVote store inner p ((p.eliminate store x).on y).2 votes
          ((p.eliminate store x).on y).1 := by
  rw [apply, Collective.on_bind, Collective.on_get, Program.done_bind]
  simp only [present, applyCoupled, Collective.on_bind, Collective.on_get, Program.done_bind,
    Collective.on_attempt, Collective.on_ofUpdate, Update.on_onSnd, Collective.on_ofProgram,
    Communicator.reduce, Program.bind_bind, Collective.on_monadLift]
  rcases (p.eliminate store x).on y with ⟨e | _, y'⟩
  · rfl
  · refine bind_congr fun votes => ?_
    rw [pure_bind]
    dsimp only [afterVote]
    by_cases failed : 0 < votes.getD 0 0
    · rw [if_pos failed, if_pos failed, Collective.on_bind, Collective.on_throw,
        Program.done_bind]
    · rw [if_neg failed, if_neg failed, Collective.on_bind, Collective.on_get, Program.done_bind,
        solveCoupled, Collective.on_bind, Collective.on_get, Program.done_bind]

end Application

/-! ## What a rank relies on -/

/-- A preconditioner at rank `r` of `n` ranks. The factors fit the layout, and once they count as
factored they have a diagonal and there is room for a block. -/
structure Coupled (n r : ℕ) (store : Store T) (p : ApproximateSchur T R)
    (inner : InterfaceSolve T R) : Prop where
  present : p.inner = some inner
  communicator : inner.operator.partition.communicator = .member r n
  vectorLength : inner.operator.vectorLength =
    p.layout.blockSize * (p.layout.owned - p.layout.interior)
  interior_le : p.layout.interior ≤ p.layout.owned
  source : (store.get p.diagonal).Valid
  held : store.Holds p.factors
  valid : (store.get p.factors).Valid
  rows : (store.get p.factors).rowCount = p.layout.owned
  blockSize : (store.get p.factors).blockSize = p.layout.blockSize
  factored : p.factored = true → (store.get p.factors).HasDiagonal ∧
    (store.get p.factors).blockSize < Capacity.limit

/-! ### Construction -/

section Construction

variable [Zero T] [One R] [Mul R] [LE R] [DecidableLE R] [Magnitude R]
variable {n r level : ℕ} {growth : R} {settings : InnerSettings R} {store : Store T}
variable {a : DistributedMatrix T} {f : BlockMatrix T}

/-- The preconditioner as it is made for several ranks. -/
def unfactored (a : DistributedMatrix T) (settings : InnerSettings R) (factors : Handle)
    (operator : InterfaceOperator T) : ApproximateSchur T R where
  partition := a.partition
  diagonal := a.diagonal
  offDiagonal := a.offDiagonal
  table := a.table
  factors := factors
  layout := a.layout
  shift := 0
  factored := false
  inner := some {
    operator
    solver := .ofSettings settings.iterations settings.iterations settings.rtol settings.atol }
  lastSolve := none

/-- Several ranks make their interface operators together, with the pattern that each has added to
its store. -/
lemma ofMatrix_on (several : 1 < a.partition.communicator.size)
    (pattern : (store.get a.diagonal).fillPattern level growth = .ok f) :
    (ofMatrix a level growth settings).on store =
      InterfaceOperator.ofMatrix (store.add f).2 a (store.add f).1 >>= fun made =>
        .done (made >>= fun operator => (Capacity.reserve operator.vectorLength).map fun _ =>
          unfactored a settings (store.add f).1 operator, (store.add f).2) := by
  rw [ofMatrix, Collective.on_bind, Collective.on_ofUpdate, Program.done_bind,
    AdditiveSchwarz.allocateFactors_on pattern]
  simp only [Collective.on_bind, Collective.on_get, Program.done_bind, if_pos several,
    Collective.on_ofProgram, Program.bind_bind]
  refine bind_congr fun made => ?_
  cases made with
  | error e => rfl
  | ok operator =>
    simp only [Collective.on_monadLift, Program.done_bind, ok_bind]
    cases Capacity.reserve operator.vectorLength with
    | error e => rfl
    | ok _ => rfl

/-- What is made has a pattern and an interface operator. -/
lemma ofMatrix_ensures (several : 1 < a.partition.communicator.size)
    {Q : BlockMatrix T → InterfaceOperator T → Prop}
    (operators : ∀ f, (store.get a.diagonal).fillPattern level growth = .ok f →
      (InterfaceOperator.ofMatrix (store.add f).2 a (store.add f).1 :
        Program T R (Except Error (InterfaceOperator T))).Ensures fun made =>
          ∀ operator, made = .ok operator → Q f operator) :
    ((ofMatrix a level growth settings).on store).Ensures fun result => ∀ p, result.1 = .ok p →
      ∃ f operator, (store.get a.diagonal).fillPattern level growth = .ok f ∧ Q f operator ∧
        p = unfactored a settings (store.add f).1 operator ∧ result.2 = (store.add f).2 := by
  rcases pattern : (store.get a.diagonal).fillPattern level growth with e | f
  · have refused : (AdditiveSchwarz.allocateFactors a.diagonal level growth).on store =
        (.error e, store) := by
      unfold AdditiveSchwarz.allocateFactors
      rw [Update.on_bind_of_ok (Update.on_get store), pattern, Update.on_bind, Update.on_monadLift]
    rw [ofMatrix, Collective.on_bind, Collective.on_ofUpdate, Program.done_bind, refused]
    exact nofun
  · rw [ofMatrix_on several pattern]
    refine (operators f pattern).bind fun made known p made' => ?_
    dsimp only at made'
    obtain ⟨operator, found, made'⟩ := bind_eq_ok.mp made'
    cases reserved : Capacity.reserve operator.vectorLength with
    | error e =>
      rw [reserved] at made'
      cases made'
    | ok _ =>
      rw [reserved] at made'
      exact ⟨f, operator, rfl, known operator found, (Except.ok.inj made').symm, rfl⟩

/-- What several ranks have made for a matrix is ready to be factored. -/
lemma Coupled.of_ofMatrix (several : 1 < n) (communicator : a.partition.communicator = .member r n)
    (layout : DistributedMatrix.layoutOf a.partition (store.get a.diagonal)
      (store.get a.offDiagonal) a.table.slots = .ok a.layout)
    (held : store.Holds a.diagonal) (valid : (store.get a.diagonal).Valid) :
    ((ofMatrix a level growth settings).on store).Ensures fun result => ∀ p, result.1 = .ok p →
      ∃ inner, Coupled n r result.2 p inner := by
  obtain ⟨-, interface_le, -, hlayout⟩ := DistributedMatrix.layoutOf_eq_ok layout
  refine (ofMatrix_ensures (by rwa [communicator])
    fun f _ => InterfaceOperator.ofMatrix_ensures _ a _).mono ?_
  rintro ⟨_, _⟩ made p rfl
  obtain ⟨f, operator, pattern, built, rfl, rfl⟩ := made p rfl
  obtain ⟨-, level⟩ := BlockMatrix.levelOfFill_of_fillPattern valid pattern
  refine ⟨_, {
    present := rfl
    communicator := built.communicator.trans communicator
    vectorLength := ?_
    interior_le := ?_
    source := ?_
    held := Store.holds_add_self store f
    valid := ?_
    rows := built.factors ▸ built.rows
    blockSize := built.factors ▸ built.blockSize
    factored := nofun }⟩
  · change operator.vectorLength = a.layout.blockSize * (a.layout.owned - a.layout.interior)
    rw [built.vectorLength, hlayout]
    dsimp only
    congr 1
    omega
  · change a.layout.interior ≤ a.layout.owned
    rw [hlayout]
    exact Nat.sub_le _ _
  · change ((store.add f).2.get a.diagonal).Valid
    rwa [Store.get_add_of_holds held]
  · change ((store.add f).2.get (store.add f).1).Valid
    rw [Store.get_add_self]
    exact level.valid

end Construction

/-! ### Later on -/

section Acts

variable {n r : ℕ} {store store' : Store T} {p : ApproximateSchur T R} {inner : InterfaceSolve T R}

/-- Only the factors and the pattern of the matrix matter. -/
lemma Coupled.of_get_eq (coupled : Coupled n r store p inner) (held : store'.Holds p.factors)
    (kept : store'.get p.factors = store.get p.factors)
    (source : (store'.get p.diagonal).Valid) : Coupled n r store' p inner where
  present := coupled.present
  communicator := coupled.communicator
  vectorLength := coupled.vectorLength
  interior_le := coupled.interior_le
  source := source
  held := held
  valid := by rw [kept]; exact coupled.valid
  rows := by rw [kept]; exact coupled.rows
  blockSize := by rw [kept]; exact coupled.blockSize
  factored := by rw [kept]; exact coupled.factored

variable [Zero T] [One T] [Add T] [Sub T] [Neg T] [Mul T] [Div T] [BEq T]
variable [Zero R] [One R] [Neg R] [Add R] [Mul R] [Div R] [BEq R]
variable [LT R] [DecidableLT R] [LE R] [DecidableLE R] [Magnitude R] [Scalar T R]

omit [Neg T] [Add R] [Div R] in
/-- A factorization that succeeds has found the diagonal and the room. -/
lemma Coupled.factor (coupled : Coupled n r store p inner) :
    Coupled n r (factor.on (store, p)).2.1 (factor.on (store, p)).2.2 inner := by
  rcases refactored : (AdditiveSchwarz.refactoring (R := R) (store.get p.diagonal) p.shift).on
    (store.get p.factors) with ⟨result, g⟩
  have meets := AdditiveSchwarz.meets_refactoring (R := R) coupled.valid coupled.source p.shift
    (fun _ => True) (fun _ _ => trivial) (fun _ => trivial) (fun _ => trivial) fun _ => trivial
  rw [Update.Meets, refactored] at meets
  obtain ⟨same, found⟩ := meets
  have new : (store.set p.factors g).get p.factors = g := Store.get_set_self _ _ g coupled.held
  rw [factor_on refactored]
  obtain ⟨v, hv, rfl⟩ := same
  exact {
    present := coupled.present
    communicator := coupled.communicator
    vectorLength := coupled.vectorLength
    interior_le := coupled.interior_le
    source := by
      change ((store.set p.factors ((store.get p.factors).withValues v)).get p.diagonal).Valid
      rcases Store.get_set store p.factors ((store.get p.factors).withValues v) p.diagonal with
        old | ⟨-, written⟩
      · rw [old]
        exact coupled.source
      · rw [written]
        exact coupled.valid.withValues hv
    held := Store.holds_set coupled.held _
    valid := by
      rw [new]
      exact coupled.valid.withValues hv
    rows := by
      rw [new]
      exact coupled.rows
    blockSize := by
      rw [new]
      exact coupled.blockSize
    factored := by
      intro flag
      cases result with
      | error e => cases flag
      | ok _ =>
        rw [new]
        exact ⟨found.1.withValues v, (Nat.le_mul_self _).trans_lt found.2⟩ }

omit [BEq T] [Neg R] in
/-- An application changes nothing but the halo and the report of the interface solve. -/
lemma Coupled.apply (coupled : Coupled n r store p inner) (x y : Array T) :
    ((apply store x).on (p, y)).Ensures fun result => ∃ inner, Coupled n r store result.2.1 inner := by
  rw [apply_on_vote coupled.present]
  refine (Program.ensures_true _).bind fun votes _ => ?_
  cases ((p.eliminate store x).on y).1 with
  | error e => exact ⟨inner, coupled⟩
  | ok _ =>
    dsimp only [afterVote]
    split
    · exact ⟨inner, coupled⟩
    · rw [solveCoupled, Collective.on_bind, Collective.on_get, Program.done_bind]
      dsimp only
      rw [Collective.on_bind, Collective.on_focus, Program.bind_bind]
      refine (keeps_solveInterface inner.operator store inner.solver _ _ _ inner.operator
        ⟨rfl, rfl⟩).bind ?_
      rintro ⟨outcome, operator⟩ ⟨hpartition, hlength⟩
      have after : Coupled n r store { p with inner := some { inner with operator } }
          { inner with operator } := { coupled with
        present := rfl
        communicator := by rw [hpartition]; exact coupled.communicator
        vectorLength := hlength.trans coupled.vectorLength }
      cases outcome with
      | error e => exact ⟨_, after⟩
      | ok _ => exact ⟨_, { after with }⟩

end Acts

/-! ## Everything that may have happened -/

section Reached

variable [Zero T] [One T] [Add T] [Sub T] [Neg T] [Mul T] [Div T] [BEq T]
variable [Zero R] [One R] [Neg R] [Add R] [Mul R] [Div R] [BEq R]
variable [LT R] [DecidableLT R] [LE R] [DecidableLE R] [Magnitude R] [Scalar T R]

/-- What a preconditioner at rank `r` of `n` ranks may have come to. The other matrices of the rank
may have changed at any time, but nobody else has written the factors. -/
inductive Reached (n r : ℕ) : Store T → ApproximateSchur T R → Prop
  | make {a : DistributedMatrix T} {level : ℕ} {growth : R} {settings : InnerSettings R}
      {store store' : Store T} {p : ApproximateSchur T R} (several : 1 < n)
      (communicator : a.partition.communicator = .member r n)
      (layout : DistributedMatrix.layoutOf a.partition (store.get a.diagonal)
        (store.get a.offDiagonal) a.table.slots = .ok a.layout)
      (held : store.Holds a.diagonal) (valid : (store.get a.diagonal).Valid)
      (made : ((ofMatrix a level growth settings).on store).Yields (.ok p, store')) :
      Reached n r store' p
  | setShift {store : Store T} {p : ApproximateSchur T R} (reached : Reached n r store p)
      (shift : T) : Reached n r store { p with shift }
  | factor {store : Store T} {p : ApproximateSchur T R} (reached : Reached n r store p) :
      Reached n r (factor.on (store, p)).2.1 (factor.on (store, p)).2.2
  | apply {store : Store T} {p p' : ApproximateSchur T R} {x y y' : Array T}
      {result : Except Error Unit} (reached : Reached n r store p)
      (applied : ((apply store x).on (p, y)).Yields (result, p', y')) : Reached n r store p'
  | change {store store' : Store T} {p : ApproximateSchur T R} (reached : Reached n r store p)
      (held : store'.Holds p.factors) (kept : store'.get p.factors = store.get p.factors)
      (valid : (store'.get p.diagonal).Valid) : Reached n r store' p

/-- Whatever has happened, a rank can rely on its preconditioner. -/
theorem Reached.coupled {n r : ℕ} {store : Store T} {p : ApproximateSchur T R}
    (reached : Reached n r store p) : ∃ inner, Coupled n r store p inner := by
  induction reached with
  | make several communicator layout held valid made =>
    exact (Coupled.of_ofMatrix several communicator layout held valid).of_yields made _ rfl
  | setShift _ shift ih =>
    obtain ⟨inner, coupled⟩ := ih
    exact ⟨inner, { coupled with }⟩
  | factor _ ih =>
    obtain ⟨inner, coupled⟩ := ih
    exact ⟨inner, coupled.factor⟩
  | apply _ applied ih =>
    obtain ⟨inner, coupled⟩ := ih
    exact (coupled.apply _ _).of_yields applied
  | change _ held kept valid ih =>
    obtain ⟨inner, coupled⟩ := ih
    exact ⟨inner, coupled.of_get_eq held kept valid⟩

end Reached

end ApproximateSchur

end DomainDecomposition
