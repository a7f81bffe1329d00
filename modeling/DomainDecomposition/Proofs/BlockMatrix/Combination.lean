import DomainDecomposition.Proofs.BlockMatrix.Dense
import DomainDecomposition.Proofs.BlockMatrix.ValueSafety
import DomainDecomposition.Proofs.Scalar.Rational

/-!
# Combining matrices on different patterns

Copying a matrix into another one, adding a multiple of it, and mixing the two begin with the same
scan, which finds the place of every entry of the operand in the receiver. The scan fails exactly
when the operand has another shape or a position that the receiver does not store
(`positionsOf_cases`). Then every stored scalar of the receiver is changed in one way, `m`, and the
multiple of the operand is added. So the operations differ in `m` and in the multiplier, and what is
true of all of them is shown once, of any operation that does this (`AddsAfter`). Which operands are
accepted does not depend on the arithmetic (`AddsAfter.accepts`). The values do:

* `AddsAfter.combined`: in exact arithmetic, the scalars of both matrices are combined,
* `Combined.toDense_eq`: so are their dense copies.
-/

namespace DomainDecomposition.BlockMatrix

open Outcome

variable {T : Type} {a other f : BlockMatrix T}

/-! ## Scalar by scalar -/

section Scalars

variable [Zero T]

/-- On the pattern of `a`, the scalars of `a` and `other` are combined by `g`. -/
structure Combined (g : T → T → T) (a other f : BlockMatrix T) : Prop where
  covers : a.Covers other
  pattern : SamePattern a f
  coeff : ∀ i j, f.coeff a.blockSize i j =
    Matrix.of fun r c => g (a.coeff a.blockSize i j r c) (other.coeff a.blockSize i j r c)

/-- The scalars of a matrix are those of its blocks. -/
lemma scalarAt_eq_coeff {b : ℕ} (hb : 0 < b) (size : a.blockSize = b) (p q : ℕ) :
    a.scalarAt p q =
      a.coeff b (p / b) (q / b) ⟨p % b, Nat.mod_lt p hb⟩ ⟨q % b, Nat.mod_lt q hb⟩ := by
  subst size
  unfold scalarAt BlockMatrix.coeff
  cases a.block? (p / a.blockSize) (q / a.blockSize) <;> rfl

namespace Combined

variable {g : T → T → T} (combined : Combined g a other f)

include combined

lemma scalarAt_eq (valid : a.Valid) (p q : ℕ) :
    f.scalarAt p q = g (a.scalarAt p q) (other.scalarAt p q) := by
  have hb := valid.blockSize_pos
  rw [scalarAt_eq_coeff hb combined.pattern.blockSize_eq, scalarAt_eq_coeff hb rfl,
    scalarAt_eq_coeff hb combined.covers.sizes.1.symm, combined.coeff, Matrix.of_apply]

/-- The dense copies are combined in the same way. -/
lemma toDense_eq (valid : a.Valid) (validOther : other.Valid) :
    f.toDense = do return DenseMatrix.zipWith g (← a.toDense) (← other.toDense) := by
  have scalars : f.scalarAt = fun p q => g (a.scalarAt p q) (other.scalarAt p q) :=
    funext fun p => funext fun q => combined.scalarAt_eq valid p q
  have pattern := combined.pattern
  obtain ⟨blockSize, rows, columns⟩ := combined.covers.sizes
  have own : f.HasDenseCopy ↔ a.HasDenseCopy :=
    hasDenseCopy_congr pattern.blockSize_eq pattern.rowCount_eq pattern.columnCount_eq
  have its : other.HasDenseCopy ↔ a.HasDenseCopy :=
    hasDenseCopy_congr blockSize.symm rows.symm columns.symm
  rw [BlockMatrix.toDense_eq (pattern.valid valid), BlockMatrix.toDense_eq valid,
    BlockMatrix.toDense_eq validOther]
  by_cases room : a.HasDenseCopy
  case pos =>
    rw [if_pos (own.mpr room), if_pos room, if_pos (its.mpr room), pattern.blockSize_eq,
      pattern.rowCount_eq, pattern.columnCount_eq, ← blockSize, ← rows, ← columns, scalars,
      ← DenseMatrix.zipWith_ofEntries]
    rfl
  case neg =>
    rw [if_neg (mt own.mp room), if_neg room]
    rfl

/-- A position that only the receiver stores. -/
lemma coeff_of_not_stores (validOther : other.Valid) {i j : ℕ} (missing : ¬other.Stores i j) :
    f.coeff a.blockSize i j = (a.coeff a.blockSize i j).map fun old => g old 0 := by
  rw [combined.coeff, validOther.coeff_eq_zero missing]
  rfl

end Combined

/-- The dense copy of a copy. -/
lemma Combined.toDense_copied (combined : Combined (fun _ new => new) a other f) (valid : a.Valid)
    (validOther : other.Valid) : f.toDense = other.toDense := by
  have scalars : f.scalarAt = other.scalarAt :=
    funext fun p => funext fun q => combined.scalarAt_eq valid p q
  have pattern := combined.pattern
  obtain ⟨blockSize, rows, columns⟩ := combined.covers.sizes
  have same : f.HasDenseCopy ↔ other.HasDenseCopy :=
    hasDenseCopy_congr (pattern.blockSize_eq.trans blockSize) (pattern.rowCount_eq.trans rows)
      (pattern.columnCount_eq.trans columns)
  rw [BlockMatrix.toDense_eq (pattern.valid valid), BlockMatrix.toDense_eq validOther,
    if_congr same rfl rfl, pattern.blockSize_eq, pattern.rowCount_eq, pattern.columnCount_eq,
    blockSize, rows, columns, scalars]

end Scalars

/-- In exact arithmetic, the scalars of both matrices are combined. -/
lemma AddsAfter.combined [Semiring T] {m : T → T} (zero : m 0 = 0) {alpha : T}
    {u : Update (BlockMatrix T) Unit} (adds : AddsAfter m alpha other u a) (valid : a.Valid)
    (validOther : other.Valid) (run : u.on a = (.ok (), f)) :
    Combined (fun old new => m old + alpha * new) a other f := by
  rcases positionsOf_cases valid validOther with ⟨covers, positions, found⟩ | ⟨-, fault, refused⟩
  · have size : (a.values.map m).size = a.values.size := Array.size_map
    -- the positions depend on the pattern alone
    have found' : (a.withValues (a.values.map m)).positionsOf other = .ok positions := found
    obtain ⟨v, added, hv, coeff⟩ := addBlocks_spec (valid.withValues size) validOther alpha found'
    rw [adds.found positions found, Update.on_replace, added, Prod.mk.injEq] at run
    obtain rfl := run.2
    refine ⟨covers, ⟨v, hv.trans size, rfl⟩, fun i j => ?_⟩
    calc ((a.withValues (a.values.map m)).withValues v).coeff a.blockSize i j
      _ = (a.withValues (a.values.map m)).coeff a.blockSize i j +
          alpha • other.coeff a.blockSize i j := coeff i j
      _ = (a.coeff a.blockSize i j).map m + alpha • other.coeff a.blockSize i j := by
        rw [coeff_map zero]
      _ = _ := rfl
  · rw [adds.missing _ refused] at run
    exact absurd (congrArg Prod.fst run) nofun

/-- A copy has the scalars of the operand on the pattern of the receiver. -/
lemma copyValues_combined [Semiring T] (valid : a.Valid) (validOther : other.Valid)
    (run : (copyValues other).on a = (.ok (), f)) : Combined (fun _ new => new) a other f := by
  have combined := (addsAfter_copyValues a other).combined rfl valid validOther run
  simp only [zero_add, one_mul] at combined
  exact combined

/-! ## The operations -/

/-- Copying a matrix, adding a multiple of it and mixing the two accept the operands that are
covered, in any arithmetic. In exact arithmetic, the dense copy afterwards is that of the operand,
or the combination of both, and a position that the operand lacks becomes zero, stays, or is
multiplied. -/
theorem combinations_across_patterns :
    (∀ {T : Type} [Zero T] [One T] [Add T] [Mul T] {a other : BlockMatrix T}, a.Valid →
      other.Valid → ∀ alpha beta : T,
      (a.checkOperand other = .ok () ↔ a.Covers other) ∧
      Accepts (copyValues other) a other ∧
      Accepts (axpy alpha other) a other ∧
      Accepts (axpby alpha beta other) a other) ∧
    ∀ {T : Type} [CommSemiring T] {a other f : BlockMatrix T}, a.Valid → other.Valid →
      ∀ alpha beta : T,
      ((copyValues other).on a = (.ok (), f) →
        Combined (fun _ new => new) a other f ∧ f.toDense = other.toDense ∧
        ∀ i j, ¬other.Stores i j → f.coeff a.blockSize i j = 0) ∧
      ((axpy alpha other).on a = (.ok (), f) →
        Combined (fun old new => old + alpha * new) a other f ∧
        (f.toDense = do
          return .zipWith (fun old new => old + alpha * new) (← a.toDense) (← other.toDense)) ∧
        ∀ i j, ¬other.Stores i j → f.coeff a.blockSize i j = a.coeff a.blockSize i j) ∧
      ((axpby alpha beta other).on a = (.ok (), f) →
        Combined (fun old new => alpha * new + beta * old) a other f ∧
        (f.toDense = do
          return .zipWith (fun old new => alpha * new + beta * old) (← a.toDense)
            (← other.toDense)) ∧
        ∀ i j, ¬other.Stores i j → f.coeff a.blockSize i j = beta • a.coeff a.blockSize i j) := by
  constructor
  · intro T _ _ _ _ a other valid validOther alpha beta
    exact ⟨checkOperand_eq_ok_iff valid validOther,
      (addsAfter_copyValues a other).accepts valid validOther,
      (addsAfter_axpy alpha a other).accepts valid validOther,
      (addsAfter_axpby alpha beta a other).accepts valid validOther⟩
  · intro T _ a other f valid validOther alpha beta
    refine ⟨fun run => ?_, fun run => ?_, fun run => ?_⟩
    · have combined := copyValues_combined valid validOther run
      refine ⟨combined, combined.toDense_copied valid validOther, fun i j missing => ?_⟩
      rw [combined.coeff_of_not_stores validOther missing]
      rfl
    · have combined := (addsAfter_axpy alpha a other).combined rfl valid validOther run
      simp only [id] at combined
      refine ⟨combined, combined.toDense_eq valid validOther, fun i j missing => ?_⟩
      rw [combined.coeff_of_not_stores validOther missing]
      ext r c
      simp
    · have combined := (addsAfter_axpby alpha beta a other).combined (zero_mul beta) valid
        validOther run
      simp only [mul_comm _ beta, add_comm (beta * _)] at combined
      refine ⟨combined, combined.toDense_eq valid validOther, fun i j missing => ?_⟩
      rw [combined.coeff_of_not_stores validOther missing]
      ext r c
      simp

/-- A matrix of two rows and three columns. -/
def roomy : BlockMatrix ℚ where
  blockSize := 1
  rowCount := 2
  columnCount := 3
  rowStart := #[0, 3, 4]
  columns := #[0, 1, 2, 1]
  values := #[1, 2, 3, 4]
  diagonal := #[]
  invertedDiagonal := #[]

/-- The same shape with fewer blocks. -/
def scant : BlockMatrix ℚ where
  blockSize := 1
  rowCount := 2
  columnCount := 3
  rowStart := #[0, 2, 2]
  columns := #[0, 2]
  values := #[10, 20]
  diagonal := #[]
  invertedDiagonal := #[]

/-- The smaller pattern can be copied and mixed into the larger one, where the second block of the
first row becomes zero, or is multiplied. The larger pattern does not fit into the smaller one. -/
theorem scant_combinations_across_patterns :
    (∃ f, (copyValues scant).on roomy = (.ok (), f) ∧ f.toDense = scant.toDense ∧
      f.coeff 1 0 1 = 0) ∧
    (∃ f, (axpby 2 3 scant).on roomy = (.ok (), f) ∧
      Combined (fun old new => 2 * new + 3 * old) roomy scant f ∧
      f.coeff 1 0 1 = (3 : ℚ) • roomy.coeff 1 0 1) ∧
    ∃ fault, (axpy 2 roomy).on scant = (.error (.incompatibleOperand fault), scant) := by
  have valid : roomy.Valid := by decide +kernel
  have validScant : scant.Valid := by decide +kernel
  have missing : ¬scant.Stores 0 1 := by decide +kernel
  have covers : roomy.Covers scant :=
    (combinations_across_patterns.1 valid validScant 2 3).1.mp (by decide +kernel)
  have misfit : ¬scant.Covers roomy := fun covers => missing (covers.stores 0 1 (by decide +kernel))
  obtain ⟨-, copy, -, mix⟩ := combinations_across_patterns.1 valid validScant 2 3
  obtain ⟨f, copied, -⟩ := copy.covered covers
  obtain ⟨g, mixed, -⟩ := mix.covered covers
  obtain ⟨-, dense, zero⟩ := (combinations_across_patterns.2 valid validScant 2 3).1 copied
  obtain ⟨combined, -, multiplied⟩ := (combinations_across_patterns.2 valid validScant 2 3).2.2 mixed
  exact ⟨⟨f, copied, dense, zero 0 1 missing⟩, ⟨g, mixed, combined, multiplied 0 1 missing⟩,
    (combinations_across_patterns.1 validScant valid 2 3).2.2.1.refused misfit⟩

end DomainDecomposition.BlockMatrix
