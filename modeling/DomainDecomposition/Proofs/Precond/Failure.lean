import DomainDecomposition.Proofs.BlockMatrix.Kernels
import DomainDecomposition.Proofs.BlockMatrix.Operator
import DomainDecomposition.Proofs.Precond.Schur

/-!
# A failure on one rank reaches all ranks

An application needs the local eliminations of all ranks before the interface solve can start. So
the ranks count first on how many of them the elimination has failed, and if there is any, all of
them give up: a rank that has failed answers its own failure, and the others the number of failures.

* `Coupled.eliminate_result`: an elimination fails if the factors are missing or a length is wrong,
* `Coupled.exists_eliminate`: otherwise it overwrites its output,
* `Application.proceed_of_pos`, `Application.proceed_of_zero`: after the count, a rank gives up and
  leaves its preconditioner as it is, or it begins the interface solve,
* `failures_reach_all`: all ranks together, and what comes afterwards.
-/

namespace DomainDecomposition.ApproximateSchur

open Outcome World

variable {T R α : Type}

/-! ## The local part -/

/-- Number of owned scalars, the length of the vectors of this rank. -/
def vectorLength (p : ApproximateSchur T R) : ℕ :=
  p.layout.blockSize * p.layout.owned

/-- What may go wrong on one rank: the factors are missing, or a vector has a wrong length. -/
def precheck (p : ApproximateSchur T R) (x y : Array T) : Except Error Unit := do
  if !p.factored then throw (.notFactored .approximateSchur)
  checkSize p.vectorLength x.size
  checkSize p.vectorLength y.size

lemma precheck_eq_ok {p : ApproximateSchur T R} {x y : Array T} :
    p.precheck x y = .ok () ↔
      p.factored = true ∧ x.size = p.vectorLength ∧ y.size = p.vectorLength := by
  unfold precheck checkSize Capacity.compare
  cases p.factored with
  | false => simp
  | true =>
    by_cases hx : p.vectorLength = x.size
    · by_cases hy : p.vectorLength = y.size
      · simp [← hx, ← hy]
      · simp [← hx, hy, Ne.symm hy]
    · simp [hx, Ne.symm hx]

section Local

variable [Zero T] [Add T] [Sub T] [Mul T] {n r : ℕ} {store : Store T} {p : ApproximateSchur T R}
variable {inner : InterfaceSolve T R} (coupled : Coupled n r store p inner) {x y : Array T}

include coupled

/-- A refused elimination has not touched its output. -/
lemma Coupled.eliminate_refused {e : Error} (refused : p.precheck x y = .error e) :
    (p.eliminate store x).on y = (.error e, y) := by
  unfold eliminate
  by_cases flag : p.factored = true
  · obtain ⟨has, -⟩ := coupled.factored flag
    have lengths : (store.get p.factors).checkVectors x y = .error e := by
      rw [← refused, BlockMatrix.checkVectors, ← has.square, coupled.rows, coupled.blockSize,
        Nat.mul_comm, precheck, flag]
      rfl
    have lower : ((store.get p.factors).applyLower x).on y = (.error e, y) := by
      rw [BlockMatrix.applyLower, has.requireDiagonal_eq,
        Update.on_bind_of_ok (Update.on_monadLift _ y), Update.on_bind_of_ok (Update.on_get y),
        lengths, Update.on_bind, Update.on_monadLift]
    rw [if_pos flag, eliminateInterior, Update.on_bind, lower]
  · rw [if_neg flag]
    rw [precheck, Bool.eq_false_iff.mpr flag] at refused
    exact congrArg (·, y) refused

/-- An elimination with vectors of the right lengths succeeds, and what it leaves does not depend on
what its output has held. -/
lemma Coupled.exists_eliminate (flag : p.factored = true) (hx : x.size = p.vectorLength) :
    ∃ z, z.size = p.vectorLength ∧ ∀ y, y.size = p.vectorLength →
      (p.eliminate store x).on y = (.ok (), z) := by
  obtain ⟨has, room⟩ := coupled.factored flag
  have valid := coupled.valid
  have rows := coupled.rows
  have length : p.vectorLength =
      (store.get p.factors).rowCount * (store.get p.factors).blockSize := by
    rw [rows, coupled.blockSize, ApproximateSchur.vectorLength, Nat.mul_comm]
  have start : p.layout.interfaceStart = p.layout.interior * (store.get p.factors).blockSize := by
    rw [coupled.blockSize, Layout.interfaceStart, Nat.mul_comm]
  rw [length] at hx ⊢
  have interior_le : p.layout.interior ≤ (store.get p.factors).rowCount := by
    rw [rows]
    exact coupled.interior_le
  obtain ⟨z, lower, hz⟩ := (BlockMatrix.gives_solveLower valid has hx).exists_eq_ok
  have htail : (z.extract p.layout.interfaceStart z.size).size =
      ((store.get p.factors).rowCount - p.layout.interior) * (store.get p.factors).blockSize := by
    rw [Array.size_extract, hz, start, Nat.min_self, Nat.sub_mul]
  obtain ⟨t, upper, ht⟩ := Gives.exists_eq_ok (BlockMatrix.meets_solveUpperRows valid has
    (Nat.le_refl p.layout.interior) (Nat.le_refl _) (fun lack => lack room) htail)
  refine ⟨z.extract 0 p.layout.interfaceStart ++ t, ?_, fun y hy => ?_⟩
  · have inside := Nat.mul_le_mul_right (store.get p.factors).blockSize interior_le
    rw [Array.size_append, Array.size_extract, hz, ht, start, Nat.sub_mul]
    omega
  · have lower' : ((store.get p.factors).applyLower x).on y = (.ok (), z) := by
      rw [has.applyLower_on hx hy, Update.on_replace, lower]
    rw [eliminate, if_pos flag, eliminateInterior, Update.on_bind_of_ok lower',
      DistributedMatrix.onTail, Update.on_focus, has.applyUpperFrom_on interior_le htail,
      Update.on_replace, upper]

/-- The elimination fails as the tests say. -/
lemma Coupled.eliminate_result : ((p.eliminate store x).on y).1 = p.precheck x y := by
  cases checked : p.precheck x y with
  | error e => rw [coupled.eliminate_refused checked]
  | ok _ =>
    obtain ⟨flag, hx, hy⟩ := precheck_eq_ok.mp checked
    obtain ⟨z, -, eliminated⟩ := coupled.exists_eliminate flag hx
    rw [eliminated y hy]

end Local

/-! ## One call -/

/-- The call of one rank: its preconditioner, the store behind it, and two vectors. -/
structure Application (T R : Type) where
  store : Store T
  schur : ApproximateSchur T R
  input : Array T
  output : Array T

namespace Application

section Call

variable [Zero T] [Add T] [Sub T] [Mul T]

/-- The same call with another output. -/
def into (c : Application T R) (y : Array T) : Application T R :=
  { c with output := y }

/-- What goes wrong on this rank. -/
def check (c : Application T R) : Except Error Unit :=
  c.schur.precheck c.input c.output

/-- What the local elimination leaves in the output. -/
def eliminated (c : Application T R) : Array T :=
  ((c.schur.eliminate c.store c.input).on c.output).2

variable {n r : ℕ} {c : Application T R} {inner : InterfaceSolve T R}
variable (coupled : Coupled n r c.store c.schur inner)

include coupled

/-- What the output has held is gone. -/
lemma eliminated_into {y y' : Array T} (good : (c.into y).check = .ok ())
    (good' : (c.into y').check = .ok ()) : (c.into y).eliminated = (c.into y').eliminated := by
  obtain ⟨flag, hx, hy⟩ := precheck_eq_ok.mp good
  obtain ⟨-, -, hy'⟩ := precheck_eq_ok.mp good'
  obtain ⟨z, -, eliminated⟩ := coupled.exists_eliminate flag hx
  change ((c.schur.eliminate c.store (c.into y).input).on y).2 =
    ((c.schur.eliminate c.store (c.into y).input).on y').2
  rw [eliminated y hy, eliminated y' hy']

/-- What goes to the interface solve has the length of its vectors. -/
lemma size_right (good : c.check = .ok ()) :
    (c.eliminated.extract c.schur.layout.interfaceStart c.schur.vectorLength).size =
      inner.operator.vectorLength := by
  obtain ⟨flag, hx, hy⟩ := precheck_eq_ok.mp good
  obtain ⟨z, hz, eliminated⟩ := coupled.exists_eliminate flag hx
  rw [Application.eliminated, eliminated _ hy, Array.size_extract, hz, Nat.min_self,
    coupled.vectorLength, vectorLength, Layout.interfaceStart, Nat.mul_sub]

end Call

end Application

/-! ## All ranks together -/

/-- What a rank answers when some elimination has failed: its own failure, if there is one. -/
def verdict (failed : ℕ) : Except Error Unit → Except Error Unit
  | .error e => .error e
  | .ok () => .error (.peerFailure failed)

section Together

variable [Zero T] [One T] [Add T] [Sub T] [Neg T] [Mul T] [Div T]
variable [Zero R] [One R] [Add R] [Mul R] [Div R] [BEq R]
variable [LT R] [DecidableLT R] [LE R] [DecidableLE R] [Magnitude R] [Scalar T R]

namespace Application

/-- What the rank does. -/
def run (c : Application T R) : Program T R (Except Error Unit × ApproximateSchur T R × Array T) :=
  (apply c.store c.input).on (c.schur, c.output)

/-- What the rank does when it knows the reports of all ranks. -/
def proceed (c : Application T R) (inner : InterfaceSolve T R) (votes : Array R) :
    Program T R (Except Error Unit × ApproximateSchur T R × Array T) :=
  afterVote c.store inner c.schur c.eliminated votes c.check

section Exact

variable {n : ℕ} (exact : Magnitude.CountsTo R n) (c : Application T R) (inner : InterfaceSolve T R)

include exact

/-- After a failure on some rank, nothing more is done. -/
lemma proceed_of_pos {k : ℕ} (le : k ≤ n) (pos : 0 < k) :
    c.proceed inner #[Magnitude.ofNat k] = .done (verdict k c.check, c.schur, c.eliminated) := by
  unfold proceed
  cases c.check with
  | error e => rfl
  | ok _ =>
    have failed : (0 : R) < Magnitude.ofNat k := (exact.pos_iff k le).mpr pos
    change (if (0 : R) < Magnitude.ofNat k then Program.done
      (Except.error (Error.peerFailure (Magnitude.toNat (Magnitude.ofNat k : R))), _) else _) = _
    rw [if_pos failed, exact.toNat k le]
    rfl

/-- When nobody has failed, the interface solve begins. -/
lemma proceed_of_zero (good : c.check = .ok ()) : c.proceed inner #[Magnitude.ofNat 0] =
    (solveCoupled c.store inner).on (c.schur, c.eliminated) := by
  have none : ¬(0 : R) < Magnitude.ofNat 0 :=
    fun h => Nat.lt_irrefl 0 ((exact.pos_iff 0 (Nat.zero_le n)).mp h)
  rw [proceed, good]
  exact if_neg none

end Exact

variable {n r : ℕ} {c : Application T R} {inner : InterfaceSolve T R}
variable (coupled : Coupled n r c.store c.schur inner)

include coupled

lemma run_on_vote :
    c.run = (Communicator.member r n).reduceAll #[ballot c.check] >>= c.proceed inner := by
  rw [run, apply_on_vote coupled.present, coupled.communicator, coupled.eliminate_result]
  rfl

end Application

variable {n : ℕ} (exact : Magnitude.CountsTo R n) {c : ℕ → Application T R}
variable {inner : ℕ → InterfaceSolve T R}
variable (coupled : ∀ r < n, Coupled n r (c r).store (c r).schur (inner r))
variable {world : World T R} (sized : world.Sized n)

include exact coupled sized

/-- All ranks take part in one reduction, and all learn from it how many have failed. -/
lemma arrives_recorded_run :
    Arrives n ⟨world.withOffered n fun r => #[ballot (c r).check], fun r =>
        ((c r).proceed (inner r) #[Magnitude.ofNat (failures n fun r => (c r).check)]).recorded
          (Communicator.reduction n #[ballot (c r).check])⟩
      ⟨world, fun r => (c r).run.recorded []⟩ := by
  refine arrives_vote (K := fun r votes => ((c r).proceed (inner r) votes).recorded
    (Communicator.reduction n #[ballot (c r).check])) exact sized fun r hr => ?_
  rw [Application.run_on_vote (coupled r hr), recorded_reduceAll, List.nil_append]

/-- After a failure on some rank, all ranks go on with what they have had. -/
lemma arrives_run_bind (some : 0 < failures n fun r => (c r).check)
    (next : ℕ → Except Error Unit × ApproximateSchur T R × Array T → Program T R α) :
    Arrives n ⟨world.withOffered n fun r => #[ballot (c r).check], fun r =>
        next r (verdict (failures n fun r => (c r).check) (c r).check, (c r).schur,
          (c r).eliminated)⟩
      ⟨world, fun r => (c r).run >>= next r⟩ := by
  refine (arrives_vote (K := fun r votes => (c r).proceed (inner r) votes >>= next r) exact sized
    (fun r hr => ?_)).trans (.here ⟨rfl, fun r hr => ?_⟩)
  · rw [Application.run_on_vote (coupled r hr), Program.bind_bind]
  · dsimp only
    rw [Application.proceed_of_pos exact _ _ (failures_le n _) some, Program.done_bind]

/-- When nobody has failed, all ranks begin the interface solve. -/
lemma arrives_run (good : ∀ r < n, (c r).check = .ok ()) :
    Arrives n ⟨world.withOffered n fun _ => #[ballot (.ok ())], fun r =>
        (solveCoupled (c r).store (inner r)).on ((c r).schur, (c r).eliminated)⟩
      ⟨world, fun r => (c r).run⟩ := by
  have none : failures n (fun _ => .ok ()) = 0 := failures_eq_zero_iff.mpr fun _ _ => rfl
  refine (arrives_vote (K := fun r => (c r).proceed (inner r)) exact sized
    (fun r hr => ?_)).trans (.here ⟨rfl, fun r hr => ?_⟩)
  · rw [Application.run_on_vote (coupled r hr), good r hr]
  · dsimp only
    rw [none, Application.proceed_of_zero exact _ _ (good r hr)]

/-- All ranks finish with their verdicts, and have done the same. -/
lemma settles_of_failure (some : 0 < failures n fun r => (c r).check) :
    Settles n (fun r => (Communicator.reduction n #[ballot (c r).check],
        verdict (failures n fun r => (c r).check) (c r).check, (c r).schur, (c r).eliminated))
      ⟨world, fun r => (c r).run.recorded []⟩ := by
  refine (arrives_recorded_run exact coupled sized).settles_iff.mpr
    ((settles_done n _ (world.withOffered n fun r => #[ballot (c r).check])).congr
      ⟨rfl, fun r hr => ?_⟩)
  dsimp only
  rw [Application.proceed_of_pos exact _ _ (failures_le n _) some]
  rfl

/-- What comes after a failure comes to the same as without it. -/
lemma settles_later_iff (some : 0 < failures n fun r => (c r).check)
    {later : ℕ → ApproximateSchur T R → Application T R} {target : ℕ → Array T → Array T}
    {inner' : ℕ → InterfaceSolve T R}
    (coupled' : ∀ r < n,
      Coupled n r (later r (c r).schur).store (later r (c r).schur).schur (inner' r))
    (good : ∀ r < n, ((later r (c r).schur).into (target r (c r).eliminated)).check = .ok ())
    (good' : ∀ r < n, ((later r (c r).schur).into (target r (c r).output)).check = .ok ())
    {f : ℕ → Except Error Unit × ApproximateSchur T R × Array T} :
    Settles n f ⟨world, fun r => (c r).run >>= fun (_, p, y) =>
        ((later r p).into (target r y)).run⟩ ↔
      Settles n f ⟨world, fun r =>
        ((later r (c r).schur).into (target r (c r).output)).run⟩ := by
  refine (arrives_run_bind exact coupled sized some _).settles_iff.trans ?_
  -- in both runs the ranks come to the beginning of the same interface solve
  have after := arrives_run exact (c := fun r =>
    (later r (c r).schur).into (target r (c r).eliminated)) coupled'
    (sized.withOffered fun r => #[ballot (c r).check]) good
  have alone := arrives_run exact (c := fun r =>
    (later r (c r).schur).into (target r (c r).output)) coupled' sized good'
  refine after.settles_iff.trans (Iff.trans ?_ alone.settles_iff.symm)
  refine Arrives.settles_iff (.here ⟨rfl, fun r hr => ?_⟩)
  dsimp only
  rw [Application.eliminated_into (coupled' r hr) (good r hr) (good' r hr)]
  rfl

end Together

variable [Zero T] [One T] [Add T] [Sub T] [Neg T] [Mul T] [Div T] [BEq T]
variable [Zero R] [One R] [Neg R] [Add R] [Mul R] [Div R] [BEq R]
variable [LT R] [DecidableLT R] [LE R] [DecidableLE R] [Magnitude R] [Scalar T R]

/-- In every interleaving of several ranks that apply their preconditioners, all of them take part
in one reduction, and if the elimination has failed on some of them then nobody does anything else.
Those answer their own failures and the others their number, the preconditioners are as they were,
and a later application that can be served goes as if this one had not been. If it has failed on
none of them, then all begin the interface solve with right-hand sides of the right lengths. -/
theorem failures_reach_all {n : ℕ} (several : 1 < n) (exact : Magnitude.CountsTo R n)
    {c : ℕ → Application T R} (reached : ∀ r < n, Reached n r (c r).store (c r).schur)
    {world : World T R} (sized : world.Sized n) :
    (0 < failures n (fun r => (c r).check) →
      Settles n (fun r => (Communicator.reduction n #[ballot (c r).check],
          verdict (failures n fun r => (c r).check) (c r).check, (c r).schur, (c r).eliminated))
        ⟨world, fun r => (c r).run.recorded []⟩ ∧
      ∀ (later : ℕ → ApproximateSchur T R → Application T R) (target : ℕ → Array T → Array T),
        (∀ r < n, Reached n r (later r (c r).schur).store (later r (c r).schur).schur) →
        (∀ r < n, ((later r (c r).schur).into (target r (c r).eliminated)).check = .ok ()) →
        (∀ r < n, ((later r (c r).schur).into (target r (c r).output)).check = .ok ()) →
        ∀ f, Settles n f ⟨world, fun r => (c r).run >>= fun (_, p, y) =>
              ((later r p).into (target r y)).run⟩ ↔
            Settles n f ⟨world, fun r =>
              ((later r (c r).schur).into (target r (c r).output)).run⟩) ∧
    (failures n (fun r => (c r).check) = 0 →
      ∃ inner : ℕ → InterfaceSolve T R,
        (∀ r < n, (c r).schur.inner = some (inner r) ∧
          ((c r).eliminated.extract (c r).schur.layout.interfaceStart
            (c r).schur.vectorLength).size = (inner r).operator.vectorLength) ∧
        Arrives n ⟨world.withOffered n fun r => #[ballot (c r).check], fun r =>
            ((solveCoupled (c r).store (inner r)).on ((c r).schur, (c r).eliminated)).recorded
              (Communicator.reduction n #[ballot (c r).check])⟩
          ⟨world, fun r => (c r).run.recorded []⟩) := by
  obtain ⟨first, -⟩ := (reached 0 (by omega)).coupled
  have : Nonempty (InterfaceSolve T R) := ⟨first⟩
  choose! inner coupled using fun r (hr : r < n) => (reached r hr).coupled
  constructor
  · intro some
    refine ⟨settles_of_failure exact coupled sized some, ?_⟩
    intro later target reached' good good' f
    choose! inner' coupled' using fun r (hr : r < n) => (reached' r hr).coupled
    exact settles_later_iff exact coupled sized some coupled' good good'
  · intro none
    have good := failures_eq_zero_iff.mp none
    refine ⟨inner, fun r hr => ⟨(coupled r hr).present, ?_⟩, ?_⟩
    · exact Application.size_right (coupled r hr) (good r hr)
    · refine (arrives_recorded_run exact coupled sized).trans (.here ⟨rfl, fun r hr => ?_⟩)
      dsimp only
      rw [none, Application.proceed_of_zero exact _ _ (good r hr)]

/-! ### Two ranks, one of which has not factored -/

/-- The pieces of rank `r` before the preconditioner is made. -/
def pairPieces (r : ℕ) : Store ℚ :=
  ⟨#[pairDiagonal, pairCoupling r]⟩

deriving instance DecidableEq for BlockMatrix

/-- The preconditioner is made together with the other rank, which announces one interface row. -/
lemma pairSchur_reached (r : ℕ) (hr : r < 2) : Reached 2 r (pairStore r) (pairSchur r) := by
  have pattern : ((pairPieces r).get (pairMatrix r).diagonal).fillPattern 0 (1 : ℚ) =
      .ok pairDiagonal.zeroEntries :=
    show pairDiagonal.fillPattern 0 (1 : ℚ) = _ by decide +kernel
  have made : ((ofMatrix (pairMatrix r) 0 (1 : ℚ) ⟨2, 0, 0⟩).on (pairPieces r)).Yields
      (.ok (pairSchur r), pairStore r) := by
    rw [ofMatrix_on (show 1 < (pairMatrix r).partition.communicator.size from Nat.one_lt_two) pattern]
    obtain rfl | rfl : r = 0 ∨ r = 1 := by omega
    all_goals exact ⟨(), (), 1, 1, (), rfl⟩
  have layout : DistributedMatrix.layoutOf (pairMatrix r).partition
      ((pairPieces r).get (pairMatrix r).diagonal) ((pairPieces r).get (pairMatrix r).offDiagonal)
      (pairMatrix r).table.slots = .ok (pairMatrix r).layout := by
    obtain rfl | rfl : r = 0 ∨ r = 1 := by omega
    all_goals rfl
  have valid : ((pairPieces r).get (pairMatrix r).diagonal).Valid :=
    show pairDiagonal.Valid by decide +kernel
  exact .make Nat.one_lt_two rfl layout Nat.zero_lt_two valid made

/-- The call of rank `r`. -/
def pairCall (r : ℕ) : Application ℚ ℚ where
  store := if r = 0 then (pairFactored r).1 else pairStore r
  schur := if r = 0 then (pairFactored r).2 else pairSchur r
  input := pairRight r
  output := #[0, 0]

/-- The call of rank `r` when it has factored again. -/
def pairLater (r : ℕ) (p : ApproximateSchur ℚ ℚ) : Application ℚ ℚ where
  store := (factor.on ((pairCall r).store, p)).2.1
  schur := (factor.on ((pairCall r).store, p)).2.2
  input := pairRight r
  output := #[0, 0]

/-- The second call of rank `r`. -/
def pairAgain (r : ℕ) : Application ℚ ℚ :=
  pairLater r (pairCall r).schur

lemma pairCall_reached (r : ℕ) (hr : r < 2) :
    Reached 2 r (pairCall r).store (pairCall r).schur := by
  unfold pairCall pairFactored
  dsimp only
  split
  · exact (pairSchur_reached r hr).factor
  · exact pairSchur_reached r hr

/-- The rank that has factored learns that one rank has failed, and a later application goes as if
this one had not been. -/
theorem pair_failures_reach_all :
    Settles 2 (fun r => (Communicator.reduction 2 #[if r = 0 then 0 else 1],
        .error (if r = 0 then .peerFailure 1 else .notFactored .approximateSchur),
        (pairCall r).schur, (pairCall r).eliminated))
      ⟨initial 2, fun r => (pairCall r).run.recorded []⟩ ∧
    (∀ f, Settles 2 f ⟨initial 2, fun r => (pairCall r).run >>= fun (_, p, y) =>
          ((pairLater r p).into y).run⟩ ↔
        Settles 2 f ⟨initial 2, fun r => (pairAgain r).run⟩) ∧
    ∃ inner : ℕ → InterfaceSolve ℚ ℚ,
      Arrives 2 ⟨(initial 2).withOffered 2 fun r =>
          #[ballot (pairAgain r).check], fun r =>
            ((solveCoupled (pairAgain r).store (inner r)).on
              ((pairAgain r).schur, (pairAgain r).eliminated)).recorded
                (Communicator.reduction 2 #[ballot (pairAgain r).check])⟩
        ⟨initial 2, fun r => (pairAgain r).run.recorded []⟩ := by
  have checks : ∀ r, (pairCall r).check =
      if r = 0 then .ok () else .error (.notFactored .approximateSchur) := by
    intro r
    by_cases hr : r = 0
    · subst hr
      decide +kernel
    · rw [if_neg hr, Application.check, pairCall]
      dsimp only
      rw [if_neg hr]
      rfl
  have one : failures 2 (fun r => (pairCall r).check) = 1 := by
    decide +kernel
  have zero : failures 2 (fun r => (pairAgain r).check) = 0 := by
    decide +kernel
  obtain ⟨failed, -⟩ := failures_reach_all Nat.one_lt_two (Magnitude.countsTo_rat 2)
    pairCall_reached (sized_initial 2)
  obtain ⟨settles, later⟩ := failed (one ▸ Nat.zero_lt_one)
  have reached : ∀ r < 2, Reached 2 r (pairAgain r).store (pairAgain r).schur :=
    fun r hr => (pairCall_reached r hr).factor
  obtain ⟨-, good⟩ := failures_reach_all Nat.one_lt_two (Magnitude.countsTo_rat 2)
    reached (sized_initial 2)
  obtain ⟨inner, -, arrives⟩ := good zero
  refine ⟨?_, ?_, inner, arrives⟩
  · rw [one] at settles
    refine Eq.mp (congrArg (Settles 2 · _) (funext fun r => ?_)) settles
    rw [checks r]
    split <;> rfl
  · have overwritten : ∀ r < 2, ((pairAgain r).into (pairCall r).eliminated).check = .ok () := by
      decide +kernel
    have fresh : ∀ r < 2, ((pairAgain r).into (pairCall r).output).check = .ok () :=
      failures_eq_zero_iff.mp zero
    exact later pairLater (fun _ y => y) reached overwritten fresh

end DomainDecomposition.ApproximateSchur
