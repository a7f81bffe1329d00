import DomainDecomposition.Precond.Schur
import DomainDecomposition.Proofs.BlockMatrix.Calls
import DomainDecomposition.Proofs.Precond.Schwarz

/-!
# Factoring anew forgets what was there

The matrix of the factors is written by every factorization and read by every application. Factoring
anew starts with a copy of the current values, and the copy clears everything else, so what is left
depends on the values, the shift and the pattern, and not on earlier factors (`refactoring_congr`).
The pattern covers the matrix that it was made for and has a full diagonal (`LevelOfFill.covers`,
`LevelOfFill.hasDiagonal`). So neither the copy nor the shift can be refused, and a factorization
fails at a singular pivot or for lack of room (`meets_refactoring`).
-/

namespace DomainDecomposition

open Outcome

variable {T R : Type}

/-! ## The pattern -/

namespace BlockMatrix

section Pattern

variable [Zero T] [One R] [Mul R] [LE R] [DecidableLE R] [Magnitude R] {a f g : BlockMatrix T}
variable {limit : ℕ} {growth : R}

/-- Nothing but the pattern of a matrix counts for its level-of-fill pattern. -/
lemma Revalued.fillPattern_eq (same : Revalued a g) (limit : ℕ) (growth : R) :
    g.fillPattern limit growth = a.fillPattern limit growth := by
  obtain ⟨v, w, rfl⟩ := same
  rfl

/-- The growth that was announced makes no difference to the pattern. -/
lemma fillPattern_inj (found : a.fillPattern limit growth = .ok f) {growth' : R}
    (found' : a.fillPattern limit growth' = .ok g) : f = g := by
  unfold fillPattern at found found'
  by_cases square : a.rowCount = a.columnCount
  · rw [if_neg (not_not.mpr square)] at found found'
    obtain ⟨_, -, rest⟩ := bind_eq_ok.mp found
    obtain ⟨_, -, rest'⟩ := bind_eq_ok.mp found'
    exact Except.ok.inj (rest.symm.trans rest')
  · rw [if_pos square] at found
    cases found

omit [One R] [Mul R] [LE R] [DecidableLE R] [Magnitude R] in
lemma LevelOfFill.covers (level : a.LevelOfFill limit f) (valid : a.Valid)
    (square : a.rowCount = a.columnCount) : f.Covers a where
  shape := by rw [level.blockSize, level.rowCount, level.columnCount, square]
  stores i j stored := by
    have hj : j < a.rowCount := by
      rw [square]
      exact valid.stores_column_lt stored
    have own : a.FillStores 0 i j :=
      fillStores_zero.mpr ⟨(valid.stores_iff.mp stored).1, hj, .inr stored⟩
    exact (level.stores i j).mpr (own.mono (Nat.zero_le limit))

omit [One R] [Mul R] [LE R] [DecidableLE R] [Magnitude R] in
lemma LevelOfFill.hasDiagonal (level : a.LevelOfFill limit f) : f.HasDiagonal := by
  refine level.valid.hasDiagonal (level.rowCount.trans level.columnCount.symm) fun i hi => ?_
  rw [level.rowCount] at hi
  have own : a.FillStores 0 i i := fillStores_zero.mpr ⟨hi, hi, .inl rfl⟩
  exact (level.stores i i).mpr (own.mono (Nat.zero_le limit))

/-- The values of the pattern have been allocated, and they hold a block if there is a row. -/
lemma block_lt_of_fillPattern (valid : a.Valid) (found : a.fillPattern limit growth = .ok f)
    (nonempty : a.rowCount ≠ 0) : f.blockSize * f.blockSize < Capacity.limit := by
  obtain ⟨square, level⟩ := levelOfFill_of_fillPattern valid found
  have stored : 0 < f.columns.size := by
    have first : 0 < f.rowCount := by
      rw [level.rowCount]
      omega
    exact Nat.zero_lt_of_lt (level.hasDiagonal.diagonalOf_lt level.valid first)
  unfold fillPattern at found
  rw [if_neg (not_not.mpr square)] at found
  obtain ⟨_, -, found⟩ := bind_eq_ok.mp found
  obtain ⟨rows, -, found⟩ := bind_eq_ok.mp found
  obtain ⟨values, allocated, found⟩ := bind_eq_ok.mp found
  obtain ⟨_, reserved, -⟩ := bind_eq_ok.mp allocated
  have room := Capacity.reserve_eq_ok_iff.mp reserved
  obtain ⟨-, fields⟩ := ofValues_eq_ok.mp found
  have columns : f.columns = (rows.flatten.map Prod.fst).toArray :=
    congrArg BlockMatrix.columns fields
  rw [← columns, ← level.blockSize, Nat.mul_assoc] at room
  exact Nat.lt_of_le_of_lt (Nat.le_mul_of_pos_left _ stored) room

end Pattern

/-- A copy into another matrix on the same pattern leaves the same. -/
lemma copyValues_congr [Zero T] [One T] [Add T] [Mul T] {f g source : BlockMatrix T}
    (same : SamePattern f g) (valid : f.Valid) (validSource : source.Valid)
    (covers : f.Covers source) : (copyValues source).on g = (copyValues source).on f := by
  obtain ⟨v, hv, rfl⟩ := same
  have located : Gives (fun _ => True) (f.positionsOf source) :=
    (valid.meets_positionsOf validSource fun lack => absurd covers lack).ignore
  obtain ⟨positions, found, -⟩ := located.exists_eq_ok
  have found' : (f.withValues v).positionsOf source = .ok positions := found
  have cleared : (f.withValues v).zeroEntries = f.zeroEntries := by
    have zeros : v.map (fun _ => (0 : T)) = f.values.map fun _ => 0 := by
      rw [Array.map_const', Array.map_const', hv]
    exact congrArg f.withValues zeros
  unfold copyValues
  rw [Update.on_bind_of_ok (Update.on_get _), Update.on_bind_of_ok (Update.on_get _), found, found',
    Update.on_bind_of_ok (Update.on_monadLift _ _), Update.on_bind_of_ok (Update.on_monadLift _ _),
    Update.on_bind_of_ok (Update.on_modify _ _), Update.on_bind_of_ok (Update.on_modify _ _), cleared]

end BlockMatrix

/-! ## One factorization -/

namespace AdditiveSchwarz

open BlockMatrix

section Construction

variable [Zero T] [One R] [Mul R] [LE R] [DecidableLE R] [Magnitude R]
variable {a : DistributedMatrix T} {level : ℕ} {growth : R} {store store' : Store T}

lemma allocateFactors_on {diagonal : Handle} {f : BlockMatrix T}
    (pattern : (store.get diagonal).fillPattern level growth = .ok f) :
    (allocateFactors diagonal level growth).on store = (.ok (store.add f).1, (store.add f).2) := by
  unfold allocateFactors
  rw [Update.on_bind_of_ok (Update.on_get store), pattern,
    Update.on_bind_of_ok (Update.on_monadLift _ store)]
  rfl

/-- The constructor adds the pattern to the store and keeps its handle. -/
lemma ofMatrix_on {f : BlockMatrix T}
    (pattern : (store.get a.diagonal).fillPattern level growth = .ok f) :
    (ofMatrix a level growth).on store =
      (.ok ⟨a.diagonal, (store.add f).1, 0, false⟩, (store.add f).2) := by
  unfold ofMatrix
  rw [Update.on_bind_of_ok (allocateFactors_on pattern)]
  rfl

lemma fillPattern_of_ofMatrix {p : AdditiveSchwarz T}
    (built : (ofMatrix a level growth).on store = (.ok p, store')) :
    ∃ f, (store.get a.diagonal).fillPattern level growth = .ok f := by
  unfold ofMatrix at built
  obtain ⟨factors, t, allocated, -⟩ := Update.on_bind_eq_ok built
  obtain ⟨f, pattern, -⟩ := fillPattern_of_allocateFactors allocated
  exact ⟨f, pattern⟩

end Construction

variable [Zero T] [One T] [Add T] [Sub T] [Mul T] [Div T] [BEq T]
variable [Zero R] [One R] [Neg R] [Mul R] [LT R] [DecidableLT R] [LE R] [DecidableLE R] [BEq R]
variable [Magnitude R] [Scalar T R] {f g source : BlockMatrix T} {shift : T}

/-- What factoring does to the matrix of the factors. -/
def refactoring (source : BlockMatrix T) (shift : T) : Update (BlockMatrix T) Unit := do
  copyValues source
  if !(shift == 0) then addDiagonal shift
  BlockMatrix.factor (R := R)

lemma refactor_on (diagonal factors : Handle) (store : Store T) :
    (refactor (R := R) diagonal factors shift).on store =
      (((refactoring (R := R) (store.get diagonal) shift).on (store.get factors)).1,
        store.set factors
          ((refactoring (R := R) (store.get diagonal) shift).on (store.get factors)).2) := by
  unfold refactor
  rw [Update.on_bind_of_ok (Update.on_get store)]
  rfl

/-- A factorization replaces the factors and the flag. -/
lemma factor_on {store : Store T} {p : AdditiveSchwarz T} {result : Except Error Unit}
    (refactored : (refactoring (R := R) (store.get p.diagonal) p.shift).on (store.get p.factors) =
      (result, g)) :
    (AdditiveSchwarz.factor (R := R)).on (store, p) =
      (result, store.set p.factors g, { p with factored := result.isOk }) := by
  unfold AdditiveSchwarz.factor
  rw [Update.on_bind_of_ok (Update.on_modify _ _), Update.on_bind_of_ok (Update.on_get _),
    Update.on_bind, Update.on_onFst, refactor_on, refactored]
  cases result with
  | error e => rfl
  | ok _ => rfl

variable (valid : f.Valid) (validSource : source.Valid)

include valid validSource

/-- A factorization may be refused for the patterns, and it may meet a singular pivot. Where it
succeeds, there is a diagonal, and room for a block. -/
lemma meets_refactoring (shift : T) (permitted : Error → Prop)
    (refused : ¬f.Covers source → ∀ fault, permitted (.incompatibleOperand fault))
    (missing : ¬f.HasDiagonal → permitted (.config .diagonalMissing))
    (crowded : ¬f.blockSize * f.blockSize < Capacity.limit → permitted .tooLarge)
    (singular : ∀ i, permitted (.singularPivot i)) :
    (refactoring (R := R) source shift).Meets permitted (SamePattern f)
      (fun _ => f.HasDiagonal ∧ f.blockSize * f.blockSize < Capacity.limit) f := by
  have has : ∀ g, SamePattern f g → g.HasDiagonal → f.HasDiagonal := by
    rintro g ⟨v, hv, rfl⟩ h
    exact h.withValues f.values
  have factors : ∀ g, SamePattern f g → (BlockMatrix.factor (R := R)).Meets permitted (SamePattern f)
      (fun _ => f.HasDiagonal ∧ f.blockSize * f.blockSize < Capacity.limit) g := by
    rintro g ⟨v, hv, rfl⟩
    have same : SamePattern f (f.withValues v) := ⟨v, hv, rfl⟩
    have factored := meets_factor (R := R) (valid.withValues hv)
      (fun lack => missing fun h => lack (h.withValues v)) crowded singular
    exact (factored.weaken fun _ => same.trans).imp fun _ found => ⟨has _ same found.1, found.2⟩
  unfold refactoring
  refine (meets_copyValues valid validSource refused).bind ?_
  intro _ g _ same
  by_cases shifted : (!(shift == 0)) = true
  · rw [if_pos shifted]
    have added : (addDiagonal shift).Meets permitted (SamePattern g) (fun _ => True) g :=
      meets_addDiagonal (same.valid valid) (fun lack => missing fun h => lack (same.hasDiagonal h)) _
    exact (added.weaken fun _ => same.trans).bind fun _ g _ => factors g
  · rw [if_neg shifted]
    exact factors g same

/-- Nothing is left over from earlier factors. -/
lemma refactoring_congr (shift : T) (covers : f.Covers source) (same : SamePattern f g) :
    (refactoring (R := R) source shift).on g = (refactoring (R := R) source shift).on f := by
  unfold refactoring
  rw [Update.on_bind, Update.on_bind, copyValues_congr same valid validSource covers]

end AdditiveSchwarz

namespace ApproximateSchur

variable [Zero T] [One T] [Add T] [Sub T] [Mul T] [Div T] [BEq T]
variable [Zero R] [One R] [Neg R] [Mul R] [LT R] [DecidableLT R] [LE R] [DecidableLE R] [BEq R]
variable [Magnitude R] [Scalar T R]

/-- The approximate Schur complement is factored in the same way. -/
lemma factor_on {s : Store T} {q : ApproximateSchur T R} {result : Except Error Unit}
    {g : BlockMatrix T}
    (refactored : (AdditiveSchwarz.refactoring (R := R) (s.get q.diagonal) q.shift).on
      (s.get q.factors) = (result, g)) :
    factor.on (s, q) = (result, s.set q.factors g, { q with factored := result.isOk }) := by
  unfold factor
  rw [Update.on_bind_of_ok (Update.on_modify _ _), Update.on_bind_of_ok (Update.on_get _),
    Update.on_bind, Update.on_onFst, AdditiveSchwarz.refactor_on, refactored]
  cases result with
  | error e => rfl
  | ok _ => rfl

end ApproximateSchur

end DomainDecomposition
