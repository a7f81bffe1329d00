import DomainDecomposition.Proofs.BlockMatrix.Validation
import DomainDecomposition.Proofs.Distributed.Product
import DomainDecomposition.Proofs.Precond.Coupled
import DomainDecomposition.Proofs.Precond.Elimination
import DomainDecomposition.Proofs.Precond.Schwarz
import DomainDecomposition.Proofs.Scalar.Rational

/-!
# The approximate Schur complement solves the coupled system

A preconditioner is `Built` on a placed matrix when it is what `ofMatrix` has made of it, between
two exchanges. A successful `factor` keeps it so and leaves factored factors. When all ranks then
apply it and the interface solve hands back a solution of the interface problem, the result solves
the system whose diagonal pieces are the products of the factors. The interface solve may be looked
at in any one of its interleavings: its ranks write and read by turns, so it ends the same way in
all of them, and so does the application.

* `Built.of_ofMatrix`, `Built.factor_spec`: the constructor, and factoring,
* `apply_on`: an application as a vote, the interface solve, and local work,
* `apply_solves_coupled`: the coupled system of all ranks.
-/

namespace DomainDecomposition.ApproximateSchur

open Outcome World

variable {T R : Type}

/-- The preconditioner that `ofMatrix` has made of a placed matrix, between two exchanges. -/
structure Built (n r : ℕ) (store : Store T) (a : DistributedMatrix T) (p : ApproximateSchur T R)
    (inner : InterfaceSolve T R) : Prop where
  present : p.inner = some inner
  diagonal : p.diagonal = a.diagonal
  layout : p.layout = a.layout
  held : store.Holds p.factors
  apart_diagonal : a.diagonal ≠ p.factors
  apart_offDiagonal : a.offDiagonal ≠ p.factors
  valid : (store.get p.factors).Valid
  factors : inner.operator.factors = p.factors
  operator : inner.operator.Placed n r store a

/-! ## Construction -/

section Construction

variable [Zero T] [One R] [Mul R] [LE R] [DecidableLE R] [Magnitude R]

/-- In a world of several ranks, the constructor builds a preconditioner on a placed matrix. -/
theorem Built.of_ofMatrix {offsets : Array ℕ} {n r : ℕ} (several : 1 < n) {store : Store T}
    {a : DistributedMatrix T} (placed : a.Placed offsets n r store)
    (level : ℕ) (growth : R) (settings : InnerSettings R) :
    ((ofMatrix a level growth settings).on store).Ensures fun result =>
      ∀ p, result.1 = .ok p → ∃ inner, a.Placed offsets n r result.2 ∧
        Built n r result.2 a p inner := by
  obtain ⟨hpartition, -⟩ := placed.partition_spec
  have hsize : 1 < a.partition.communicator.size := by
    rw [hpartition]
    exact several
  -- the factors take a new place, so the pieces of the matrix stay
  have hplaced : ∀ f, a.Placed offsets n r (store.add f).2 := fun f =>
    placed.of_get_eq (by simp [Store.add]) (Store.get_add_of_holds placed.held_diagonal f)
      (Store.get_add_of_holds placed.held_offDiagonal f)
  refine (ofMatrix_ensures hsize fun f _ =>
    InterfaceOperator.Placed.of_ofMatrix (R := R) (hplaced f) (store.add f).1).mono ?_
  rintro ⟨_, _⟩ made p rfl
  obtain ⟨f, operator, pattern, ⟨hop, hfactors⟩, rfl, rfl⟩ := made p rfl
  obtain ⟨-, level⟩ := BlockMatrix.levelOfFill_of_fillPattern placed.diagonal pattern
  exact ⟨_, hplaced f, {
    present := rfl
    diagonal := rfl
    layout := rfl
    held := Store.holds_add_self store f
    apart_diagonal := Store.ne_add_of_holds placed.held_diagonal f
    apart_offDiagonal := Store.ne_add_of_holds placed.held_offDiagonal f
    valid := by
      change ((store.add f).2.get (store.add f).1).Valid
      rw [Store.get_add_self]
      exact level.valid
    factors := hfactors
    operator := hop }⟩

end Construction

variable [Field T] [Field R] [LinearOrder R] [Magnitude R] [Scalar T R]

/-! ## Factoring -/

/-- A successful factorization leaves factored factors, and otherwise what `ofMatrix` has built. -/
theorem Built.factor_spec [DecidableEq T] [IsStrictOrderedRing R] [ExactScalar T R]
    {offsets : Array ℕ} {n r : ℕ} {store store' : Store T} {a : DistributedMatrix T}
    {p p' : ApproximateSchur T R} {inner : InterfaceSolve T R}
    (placed : a.Placed offsets n r store) (built : Built n r store a p inner)
    (run : factor.on (store, p) = (.ok (), store', p')) :
    a.Placed offsets n r store' ∧ Built n r store' a p' inner ∧ p'.factored = true ∧
      (store'.get p'.factors).Factored ∧ store'.get a.diagonal = store.get a.diagonal := by
  rw [factor, Update.on_bind_of_ok (Update.on_modify _ _),
    Update.on_bind_of_ok (Update.on_get _)] at run
  obtain ⟨_, ⟨store'', p''⟩, hrefactor, hrun⟩ := Update.on_bind_eq_ok run
  rw [Update.on_onFst, Prod.mk.injEq, Prod.mk.injEq] at hrefactor
  obtain ⟨hok, hstore, rfl⟩ := hrefactor
  rw [Update.on_modify, Prod.mk.injEq, Prod.mk.injEq] at hrun
  obtain ⟨-, rfl, rfl⟩ := hrun
  -- only the matrix of the factors is replaced
  obtain ⟨f, rfl, hfactored, hrows, hblock⟩ := AdditiveSchwarz.refactor_spec
    (by rw [built.diagonal]; exact placed.diagonal) built.valid (Prod.ext hok hstore)
  have hdiagonal : (store.set p.factors f).get a.diagonal = store.get a.diagonal :=
    Store.get_set_ne store f built.apart_diagonal.symm
  have hoffDiagonal : (store.set p.factors f).get a.offDiagonal = store.get a.offDiagonal :=
    Store.get_set_ne store f built.apart_offDiagonal.symm
  have hself : (store.set p.factors f).get p.factors = f :=
    Store.get_set_self store p.factors f built.held
  have hsize : (store.set p.factors f).matrices.size = store.matrices.size :=
    Array.size_setIfInBounds
  have hop := built.operator
  refine ⟨placed.of_get_eq (Nat.le_of_eq hsize.symm) hdiagonal hoffDiagonal, ?_, rfl,
    by rw [hself]; exact hfactored, hdiagonal⟩
  exact {
    present := built.present
    diagonal := built.diagonal
    layout := built.layout
    held := Nat.lt_of_lt_of_eq built.held hsize.symm
    apart_diagonal := built.apart_diagonal
    apart_offDiagonal := built.apart_offDiagonal
    valid := by rw [hself]; exact hfactored.valid
    factors := built.factors
    operator := { hop with
      rows := by rw [built.factors, hself, hrows, ← built.factors, hop.rows]
      blockSize := by rw [built.factors, hself, hblock, ← built.factors, hop.blockSize] } }

/-! ## One application -/

/-- The right-hand side that an application hands to the interface solve. -/
def interfaceRight (store : Store T) (p : ApproximateSchur T R) (x y : Array T) : Array T :=
  ((p.eliminate store x).on y).2.extract p.layout.interfaceStart
    (p.layout.blockSize * p.layout.owned)

/-- What an application does with the outcome of the interface solve. -/
def conclude (store : Store T) (p : ApproximateSchur T R) (inner : InterfaceSolve T R)
    (y : Array T) : Except Error (SolveStats R × Array T) × InterfaceOperator T →
      Except Error Unit × ApproximateSchur T R × Array T
  | (.ok (stats, w), operator) =>
    (((store.get p.factors).applyUpperBefore p.layout.interior).onSnd).on
      ({ p with inner := some { inner with operator }, lastSolve := some stats },
        Span.overwrite y p.layout.interfaceStart w)
  | (.error e, operator) => (.error e, { p with inner := some { inner with operator } }, y)

/-- Where the elimination succeeds, an application takes part in the vote, solves the interface
problem and goes on alone. -/
lemma apply_on {store : Store T} {p : ApproximateSchur T R} {inner : InterfaceSolve T R}
    (present : p.inner = some inner) {x y y' : Array T}
    (eliminated : (p.eliminate store x).on y = (.ok (), y')) :
    (apply store x).on (p, y) =
      inner.operator.partition.communicator.reduceAll #[(0 : R)] >>= fun votes =>
        if 0 < votes.getD 0 0 then
          .done (.error (.peerFailure (Magnitude.toNat (votes.getD 0 0))), p, y')
        else
          (solveInterface store inner.solver inner.operator.partition.communicator
            inner.operator.vectorLength (interfaceRight store p x y)).on inner.operator >>=
              fun outcome => .done (conclude store p inner y' outcome) := by
  rw [apply_on_vote present, eliminated]
  refine bind_congr fun votes => if_congr Iff.rfl rfl ?_
  rw [solveCoupled, Collective.on_bind, Collective.on_get, Program.done_bind, interfaceRight,
    eliminated]
  simp only [Collective.on_bind, Collective.on_focus, Program.bind_bind, Program.done_bind]
  refine bind_congr fun outcome => ?_
  obtain ⟨e | ⟨stats, w⟩, operator⟩ := outcome
  · rfl
  · rfl

omit [Field R] [LinearOrder R] [Magnitude R] [Scalar T R] in
/-- The elimination succeeds with factored factors. -/
lemma eliminate_spec {offsets : Array ℕ} {n r b : ℕ} {store : Store T} {a : DistributedMatrix T}
    {p : ApproximateSchur T R} {inner : InterfaceSolve T R}
    (placed : a.Placed offsets n r store) (blockSize : a.layout.blockSize = b)
    (built : Built n r store a p inner) (flag : p.factored = true)
    (factored : (store.get p.factors).Factored) {x y : Array T}
    (hx : x.size = a.layout.owned * b) (hy : y.size = a.layout.owned * b) :
    ∃ y', (p.eliminate store x).on y = (.ok (), y') ∧ y'.size = a.layout.owned * b ∧
      ∃ z : ℕ → Fin b → T, Eliminated (store.get p.factors) a.layout x y' z := by
  have hop := built.operator
  rw [eliminate, if_pos flag, built.layout]
  exact eliminateInterior_spec factored (by rw [← built.factors, hop.rows])
    (by rw [← built.factors, hop.blockSize, blockSize]) blockSize placed.interior_le hx hy

/-! ## All ranks together -/

/-- Where the elimination has succeeded on all ranks, none of them gives up, and the outcome of the
interface solve is all that they wait for. -/
lemma orderly_apply {n : ℕ} {store : ℕ → Store T} {p : ℕ → ApproximateSchur T R}
    {inner : ℕ → InterfaceSolve T R} {x y y' : ℕ → Array T}
    (present : ∀ r < n, (p r).inner = some (inner r))
    (communicator : ∀ r < n, (inner r).operator.partition.communicator = .member r n)
    (eliminated : ∀ r < n, ((p r).eliminate (store r) (x r)).on (y r) = (.ok (), y' r))
    {world : World T R} (sized : world.Sized n)
    {outcome : ℕ → Except Error (SolveStats R × Array T) × InterfaceOperator T}
    (solved : Orderly n outcome (fun r => (solveInterface (store r) (inner r).solver
        (inner r).operator.partition.communicator (inner r).operator.vectorLength
        (interfaceRight (store r) (p r) (x r) (y r))).on (inner r).operator)
      (world.withOffered n fun _ => #[0])) :
    Orderly n (fun r => conclude (store r) (p r) (inner r) (y' r) (outcome r))
      (fun r => (apply (store r) (x r)).on (p r, y r)) world := by
  have hreduce := leads_reduceAll sized (fun _ => #[(0 : R)])
    (P := fun r => (apply (store r) (x r)).on (p r, y r))
    fun r hr => by rw [apply_on (present r hr) (eliminated r hr), communicator r hr]
  -- every rank has offered zero, so the sum is zero
  refine hreduce.orderly ((solved.map fun r => conclude (store r) (p r) (inner r) (y' r)).congr
    fun r hr => ?_)
  rw [total_zero, communicator r hr]
  exact if_neg (lt_irrefl _)

/-! ### Two ranks with one interface row each -/

/-- The diagonal piece of both ranks. -/
def pairDiagonal : BlockMatrix ℚ where
  blockSize := 1
  rowCount := 2
  columnCount := 2
  rowStart := #[0, 2, 4]
  columns := #[0, 1, 0, 1]
  values := #[1, 1, 1, 2]
  diagonal := #[0, 3]
  invertedDiagonal := #[]

/-- How rank `r` depends on the last block of the other rank. -/
def pairCoupling (r : ℕ) : BlockMatrix ℚ where
  blockSize := 1
  rowCount := 1
  columnCount := 1
  rowStart := #[0, 1]
  columns := #[0]
  values := #[if r = 0 then 1 else 3 / 4]
  diagonal := #[0]
  invertedDiagonal := #[]

/-- The pieces of rank `r`, and room for the factors. -/
def pairStore (r : ℕ) : Store ℚ :=
  ⟨#[pairDiagonal, pairCoupling r, pairDiagonal.zeroEntries]⟩

/-- Two block rows for each rank. -/
def pairPartition (r : ℕ) : RowPartition :=
  ⟨.member r 2, #[0, 2, 4]⟩

/-- A halo for the last block of the other rank. -/
def pairHalo (r : ℕ) : Halo ℚ where
  link := {
    blockSize := 1
    flight := .idle
    supply := .remote [(pairPartition r).source (3 - 2 * r)] }
  received := #[0]

/-- The matrix of rank `r`. -/
def pairMatrix (r : ℕ) : DistributedMatrix ℚ where
  partition := pairPartition r
  diagonal := ⟨0⟩
  offDiagonal := ⟨1⟩
  table := {
    blocks := [3 - 2 * r]
    link := fun b => .ok { (pairHalo r).link with blockSize := b } }
  constraints := none
  halo := pairHalo r
  layout := { blockSize := 1, owned := 2, interface := 1, interior := 1, remote := 1 }

/-- The interface solve of rank `r`. -/
def pairSolve (r : ℕ) : InterfaceSolve ℚ ℚ where
  operator := {
    partition := ⟨.member r 2, #[0, 1, 2]⟩
    factors := ⟨2⟩
    offDiagonal := ⟨1⟩
    halo := pairHalo r
    interior := 1
    vectorLength := 1 }
  solver := Gmres.ofSettings 2 2 0 0

/-- The preconditioner of rank `r`. -/
def pairSchur (r : ℕ) : ApproximateSchur ℚ ℚ where
  partition := pairPartition r
  diagonal := ⟨0⟩
  offDiagonal := ⟨1⟩
  table := (pairMatrix r).table
  factors := ⟨2⟩
  layout := (pairMatrix r).layout
  shift := 0
  factored := false
  inner := some (pairSolve r)
  lastSolve := none

lemma pairMatrix_placed (r : ℕ) (hr : r < 2) :
    (pairMatrix r).Placed #[0, 2, 4] 2 r (pairStore r) := by
  obtain rfl | rfl : r = 0 ∨ r = 1 := by omega
  all_goals exact {
    partition := rfl
    table := rfl
    layout := rfl
    held_diagonal := Nat.zero_lt_succ 2
    held_offDiagonal := Nat.one_lt_succ_succ 1
    diagonal := by decide +kernel
    offDiagonal := by decide +kernel
    halo := ⟨rfl, rfl, rfl, rfl⟩ }

lemma pairSchur_built (r : ℕ) :
    Built 2 r (pairStore r) (pairMatrix r) (pairSchur r) (pairSolve r) where
  present := rfl
  diagonal := rfl
  layout := rfl
  held := show 2 < 3 by decide
  apart_diagonal := show (⟨0⟩ : Handle) ≠ ⟨2⟩ by decide
  apart_offDiagonal := show (⟨1⟩ : Handle) ≠ ⟨2⟩ by decide
  valid := show pairDiagonal.zeroEntries.Valid by decide +kernel
  factors := rfl
  operator := ⟨rfl, rfl, rfl, rfl, rfl, rfl, ⟨rfl, rfl, rfl, rfl⟩⟩

/-- The store and the preconditioner of rank `r` after factoring. -/
def pairFactored (r : ℕ) : Store ℚ × ApproximateSchur ℚ ℚ :=
  (factor.on (pairStore r, pairSchur r)).2

/-- The right-hand side at rank `r`. -/
def pairRight (r : ℕ) : Array ℚ :=
  if r = 0 then #[1, 4] else #[2, 2]

/-- What rank `r` hands to the interface solve. -/
def pairInterface (r : ℕ) : Array ℚ :=
  interfaceRight (pairFactored r).1 (pairFactored r).2 (pairRight r) #[0, 0]

/-- The interface solution at rank `r`. -/
def pairSolution (r : ℕ) : Array ℚ :=
  if r = 0 then #[12] else #[-9]

/-- The factors at rank `r`. -/
def pairFactors (r : ℕ) : BlockMatrix ℚ :=
  (pairFactored r).1.get (pairFactored r).2.factors

/-- The pivots of both ranks are one, and so the products of the factors are the diagonal pieces. -/
lemma sum_pairFactors : ∀ r < 2, ∀ i < 2, ∀ j < 2,
    ∑ k ∈ Finset.range 2, (pairFactors r).lower 1 i k * (pairFactors r).upper 1 k j =
      ((pairFactored r).1.get ⟨0⟩).coeff 1 i j := by
  have hpivot : ∀ r < 2, ∀ k < 2, (pairFactors r).coeff 1 k k = 1 := by
    decide +kernel
  have hupper : ∀ r < 2, ∀ k < 2, ∀ j, (pairFactors r).upper 1 k j =
      if k ≤ j then (pairFactors r).coeff 1 k j else 0 := by
    intro r hr k hk j
    rcases lt_trichotomy k j with h | rfl | h
    · rw [BlockMatrix.upper_of_lt h, if_pos h.le]
    · rw [BlockMatrix.upper_self, if_pos le_rfl, hpivot r hr k hk, inv_one]
    · rw [BlockMatrix.upper_of_gt h, if_neg (Nat.not_le.mpr h)]
  have hproduct : ∀ r < 2, ∀ i < 2, ∀ j < 2,
      ∑ k ∈ Finset.range 2, (pairFactors r).lower 1 i k *
        (if k ≤ j then (pairFactors r).coeff 1 k j else 0) =
          ((pairFactored r).1.get ⟨0⟩).coeff 1 i j := by
    decide +kernel
  intro r hr i hi j hj
  rw [← hproduct r hr i hi j hj]
  refine Finset.sum_congr rfl fun k hk => ?_
  rw [hupper r hr k (Finset.mem_range.mp hk)]

section Family

variable [DecidableEq T] [IsStrictOrderedRing R] [ExactScalar T R]
variable {offsets : Array ℕ} {n b : ℕ} {store₀ store : ℕ → Store T} {a : ℕ → DistributedMatrix T}
variable {p₀ p : ℕ → ApproximateSchur T R} {inner : ℕ → InterfaceSolve T R}

/-- All ranks apply factored preconditioners, and in some interleaving the interface solve hands
back vectors that the interface operator takes to the right-hand sides it was given. Then every
interleaving of the application ends with the result that solves the coupled system whose diagonal
pieces are the products of the factors. Where these products are the diagonal pieces themselves, the
matrix takes the result back to `x`, again in every interleaving. -/
theorem apply_solves_coupled (placed : ∀ r < n, (a r).Placed offsets n r (store₀ r))
    (blockSize : ∀ r < n, (a r).layout.blockSize = b)
    (names : ∀ r < n, ∀ g ∈ (a r).table.blocks, ∀ q, (a r).partition.ownerOf g = some q →
      (a q).layout.interior ≤ g - offsets.getD q 0)
    (built : ∀ r < n, Built n r (store₀ r) (a r) (p₀ r) (inner r))
    (factored : ∀ r < n, factor.on (store₀ r, p₀ r) = (.ok (), store r, p r))
    {x y : ℕ → Array T} (hx : ∀ r < n, (x r).size = (a r).vectorLength)
    (hy : ∀ r < n, (y r).size = (a r).vectorLength)
    {world : World T R} (sized : world.Sized n)
    {stats : ℕ → SolveStats R} {w : ℕ → Array T} {op : ℕ → InterfaceOperator T}
    (solved : Finishes n (fun r => (.ok (stats r, w r), op r)) ⟨world.withOffered n fun _ => #[0],
      fun r => (solveInterface (store r) (inner r).solver
        (inner r).operator.partition.communicator (inner r).operator.vectorLength
        (interfaceRight (store r) (p r) (x r) (y r))).on (inner r).operator⟩)
    {checked : World T R} (sized' : checked.Sized n)
    {v : ℕ → Array T} {op' : ℕ → InterfaceOperator T}
    (solves : Finishes n (fun r => (.ok (), op' r, interfaceRight (store r) (p r) (x r) (y r)))
      ⟨checked, fun r => (InterfaceOperator.mult (store r) (w r)).on ((inner r).operator, v r)⟩) :
    ∃ (p' : ℕ → ApproximateSchur T R) (z : ℕ → Array T),
      Settles n (fun r => (.ok (), p' r, z r))
        ⟨world, fun r => (apply (store r) (x r)).on (p r, y r)⟩ ∧
      (∀ r < n, (z r).size = (a r).vectorLength ∧ ∀ i < (a r).layout.owned,
        ∑ j ∈ Finset.range (a r).layout.owned,
          (∑ k ∈ Finset.range (a r).layout.owned, ((store r).get (p r).factors).lower b i k *
            ((store r).get (p r).factors).upper b k j).mulVec (Block.part b (z r) j) +
          DistributedMatrix.remoteSum b (store r) (a r) (fun q => Block.part b (z q)) i =
        Block.part b (x r) i) ∧
      ((∀ r < n, ∀ i < (a r).layout.owned, ∀ j < (a r).layout.owned,
          ∑ k ∈ Finset.range (a r).layout.owned, ((store r).get (p r).factors).lower b i k *
            ((store r).get (p r).factors).upper b k j =
          ((store r).get (a r).diagonal).coeff b i j) →
        ∀ (later : World T R) (u : ℕ → Array T), later.Sized n →
          (∀ r < n, (u r).size = (a r).vectorLength) →
          ∃ a' : ℕ → DistributedMatrix T, Settles n (fun r => (.ok (), a' r, x r))
            ⟨later, fun r => (DistributedMatrix.mult (store r) (z r)).on (a r, u r)⟩) := by
  have hlength : ∀ r < n, (a r).vectorLength = (a r).layout.owned * b := by
    intro r hr
    rw [DistributedMatrix.vectorLength, blockSize r hr, Nat.mul_comm]
  have hinterface : ∀ r < n, (inner r).operator.vectorLength =
      ((a r).layout.owned - (a r).layout.interior) * b := by
    intro r hr
    rw [(built r hr).operator.vectorLength, blockSize r hr, (placed r hr).interface_eq,
      Nat.mul_comm]
  -- after factoring, the elimination goes through on every rank
  have hfactor := fun r hr => (built r hr).factor_spec (placed r hr) (factored r hr)
  have hplaced : ∀ r < n, (a r).Placed offsets n r (store r) := fun r hr => (hfactor r hr).1
  have hbuilt : ∀ r < n, Built n r (store r) (a r) (p r) (inner r) :=
    fun r hr => (hfactor r hr).2.1
  have hfactors : ∀ r < n, ((store r).get (p r).factors).Factored :=
    fun r hr => (hfactor r hr).2.2.2.1
  have heliminate := fun r hr => eliminate_spec (hplaced r hr) (blockSize r hr) (hbuilt r hr)
    (hfactor r hr).2.2.1 (hfactors r hr) (by rw [hx r hr, hlength r hr] : (x r).size = _)
    (by rw [hy r hr, hlength r hr] : (y r).size = _)
  choose! y₁ hy₁ hy₁size z₁ heliminated using heliminate
  -- the interface solution solves the two triangular systems
  have hproduct := InterfaceOperator.isProduct_of_runs hplaced blockSize names
    (fun r hr => (hbuilt r hr).operator)
    (fun r hr => by rw [(hbuilt r hr).factors]; exact hfactors r hr) sized'
    (solves.orderly fun r _ => InterfaceOperator.alternates_mult _ _ _).runs
  have hsubstitute := fun r hr => substitute_spec (hfactors r hr)
    (by rw [← (hbuilt r hr).factors, (hbuilt r hr).operator.rows])
    (by rw [← (hbuilt r hr).factors, (hbuilt r hr).operator.blockSize, blockSize r hr])
    (blockSize r hr) (placed r hr).interior_le (hy₁size r hr)
    (by rw [(hproduct r hr).1, hinterface r hr] : (w r).size = _)
  choose! z hz hzsize hsolved hput using hsubstitute
  have hcoupled : ∀ r < n, ∀ i < (a r).layout.owned,
      ∑ j ∈ Finset.range (a r).layout.owned,
        (∑ k ∈ Finset.range (a r).layout.owned, ((store r).get (p r).factors).lower b i k *
          ((store r).get (p r).factors).upper b k j).mulVec (Block.part b (z r) j) +
        DistributedMatrix.remoteSum b (store r) (a r) (fun q => Block.part b (z q)) i =
      Block.part b (x r) i := by
    intro r hr i hi
    -- the remote blocks are interface blocks, which the substitution takes from the solution
    have hremote : DistributedMatrix.remoteSum b (store r) (a r)
        (fun q l => Block.part b (w q) (l - (a q).layout.interior)) i =
          DistributedMatrix.remoteSum b (store r) (a r) (fun q => Block.part b (z q)) i := by
      refine DistributedMatrix.remoteSum_congr (store r) (fun g hg => ?_) i
      obtain ⟨q, hq, howner, hsource, hlocal⟩ :=
        DistributedMatrix.Placed.source_spec placed hr hg
      rw [hsource]
      exact (hput q hq _ (names r hr g hg q howner) hlocal).symm
    have hproduct := (hproduct r hr).2
    rw [(hbuilt r hr).factors] at hproduct
    rw [← hremote]
    refine (heliminated r hr).sum_product_add (placed r hr).interior_le hproduct
      (fun j low high => ?_) (hsolved r hr) (hput r hr) hi
    rw [interfaceRight, hy₁ r hr, (hbuilt r hr).layout, Layout.interfaceStart, blockSize r hr,
      Nat.mul_comm b, Nat.mul_comm b, Block.part_extract (by omega), Nat.add_sub_cancel' low]
  refine ⟨fun r => (conclude (store r) (p r) (inner r) (y₁ r) (.ok (stats r, w r), op r)).2.1, z,
    ?_, fun r hr => ⟨by rw [hzsize r hr, hlength r hr], hcoupled r hr⟩, ?_⟩
  · -- the interface solve writes and reads by turns, so the one interleaving stands for all
    have happly := orderly_apply (fun r hr => (hbuilt r hr).present)
      (fun r hr => (hbuilt r hr).operator.communicator) hy₁ sized
      (solved.orderly fun r _ => alternates_solveInterface _ _ _ _ _ _)
    refine happly.settles.congr_result fun r hr => ?_
    have hlast := hz r hr
    rw [← (hbuilt r hr).layout] at hlast
    rw [conclude, Update.on_onSnd, hlast]
    rfl
  · intro exact' later u hlater hu
    obtain ⟨a', s, hmult, hs⟩ := DistributedMatrix.orderly_mult (R := R) hplaced blockSize
      (x := z) (y := u) hzsize (fun r hr => by rw [hu r hr, hlength r hr]) hlater
    refine ⟨a', hmult.settles.congr_result fun r hr => ?_⟩
    -- the rows of the product are those of the coupled system
    have hsx : s r = x r := by
      refine Block.eq_of_part_eq (hs r hr).2.1 (by rw [hx r hr, hlength r hr]) fun i hi => ?_
      rw [(hs r hr).2.2 i hi, ← hcoupled r hr i hi]
      congr 1
      refine Finset.sum_congr rfl fun j hj => ?_
      rw [exact' r hr i hi j (Finset.mem_range.mp hj)]
    rw [hsx]

end Family

/-- Two ranks, where the products of the factors are the diagonal pieces. -/
theorem pair_apply_solves_coupled :
    ∃ (p' : ℕ → ApproximateSchur ℚ ℚ) (z : ℕ → Array ℚ) (a' : ℕ → DistributedMatrix ℚ),
      Settles 2 (fun r => (.ok (), p' r, z r)) ⟨initial 2, fun r =>
        (apply (pairFactored r).1 (pairRight r)).on ((pairFactored r).2, #[0, 0])⟩ ∧
      Settles 2 (fun r => (.ok (), a' r, pairRight r)) ⟨(initial 2 : World ℚ ℚ), fun r =>
        (DistributedMatrix.mult (pairFactored r).1 (z r)).on (pairMatrix r, #[0, 0])⟩ := by
  have succeeded : ∀ r < 2, (factor.on (pairStore r, pairSchur r)).1 = .ok () := by
    decide +kernel
  have factored : ∀ r < 2, factor.on (pairStore r, pairSchur r) =
      (.ok (), (pairFactored r).1, (pairFactored r).2) := by
    intro r hr
    rw [Prod.mk.eta, pairFactored, ← succeeded r hr]
  have solved : ∃ s, Runs 2 (fun r => (solveInterface (pairFactored r).1 (pairSolve r).solver
      (pairSolve r).operator.partition.communicator (pairSolve r).operator.vectorLength
        (pairInterface r)).on (pairSolve r).operator)
      ((initial 2).withOffered 2 fun _ => #[0]) s ∧
        ∀ r < 2, (s r).1 = .ok (⟨2, 0, true⟩, pairSolution r) :=
    exists_runs_of_map Prod.fst (.error (.peerFailure 0), (pairSolve 0).operator)
      (by decide +kernel)
  have solves : ∃ s, Runs 2 (fun r => (InterfaceOperator.mult (pairFactored r).1
      (pairSolution r)).on ((pairSolve r).operator, #[0])) (initial 2 : World ℚ ℚ) s ∧
        ∀ r < 2, ((s r).1, (s r).2.2) = (.ok (), pairInterface r) :=
    exists_runs_of_map (fun s => (s.1, s.2.2))
      (.error (.peerFailure 0), (pairSolve 0).operator, #[])
      (by decide +kernel)
  obtain ⟨s, hsolved, hs⟩ := solved
  obtain ⟨t, hsolves, ht⟩ := solves
  have hproduct : ∀ r < 2, t r = (.ok (), (t r).2.1, pairInterface r) := by
    intro r hr
    obtain ⟨hok, hright⟩ := Prod.mk.inj (ht r hr)
    rw [← hok, ← hright]
  obtain ⟨p', z, hrun, -, hexact⟩ := apply_solves_coupled (b := 1) pairMatrix_placed
    (fun _ _ => rfl) (by decide +kernel) (fun r _ => pairSchur_built r)
    factored (x := pairRight) (y := fun _ => #[0, 0])
    (by decide +kernel) (fun _ _ => rfl) (sized_initial 2)
    ((hsolved.congr_result fun r hr => (Prod.ext (hs r hr) rfl : s r = (_, (s r).2))).settles
      fun r _ => alternates_solveInterface _ _ _ _ _ _).finishes
    (sized_initial 2)
    ((hsolves.congr_result hproduct).settles
      fun r _ => InterfaceOperator.alternates_mult _ _ _).finishes
  obtain ⟨a', hmult⟩ := hexact sum_pairFactors (initial 2) (fun _ => #[0, 0])
    (sized_initial 2) fun _ _ => rfl
  exact ⟨p', z, a', hrun, hmult⟩

end DomainDecomposition.ApproximateSchur
