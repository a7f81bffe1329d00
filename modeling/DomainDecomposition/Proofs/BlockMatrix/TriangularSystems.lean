import DomainDecomposition.Proofs.BlockMatrix.Operator

/-!
# The triangular systems and their solutions

Any matrix with a full diagonal holds two triangular factors, whatever its values are: the entries
left of the diagonal belong to a lower factor with unit diagonal, and the others to an upper factor
whose diagonal blocks are stored inverted. The systems of both factors are written out row by row
(`LowerSystem`, `UpperSystem`), with the stored entries only.

A row of a triangular system determines its block of the solution from the blocks of the rows that
come earlier, so a system has no second solution (`LowerSystem.unique`, `UpperSystem.unique`). The
solves find the one there is: `solves_unique`. The upper solves keep one block of a vector aside,
and stop where there is no room for it; a matrix without rows may have such blocks
(`exists_solve_tooLarge`).
-/

namespace DomainDecomposition.BlockMatrix

open Outcome

/-- The array `z` of the given size has the property, and no other array of this size has it. -/
structure OnlySolution {T : Type} (size : ℕ) (property : Array T → Prop) (z : Array T) : Prop where
  full : z.size = size
  solves : property z
  only : ∀ w : Array T, w.size = size → property w → w = z

variable {T : Type} [Field T] {a : BlockMatrix T}

/-! ## The systems -/

/-- The equations of the unit lower factor: the own block of a row plus what its entries left of the
diagonal make of the blocks before. -/
def LowerSystem (a : BlockMatrix T) (x z : ℕ → Fin a.blockSize → T) : Prop :=
  ∀ i < a.rowCount, z i + ∑ j ∈ Finset.range i with a.Stores i j,
    (a.coeff a.blockSize i j).mulVec (z j) = x i

/-- The equations of the upper factor: its diagonal block, the inverse of the stored one, times the
own block of a row, plus what the entries right of the diagonal make of the blocks behind. -/
def UpperSystem (a : BlockMatrix T) (x z : ℕ → Fin a.blockSize → T) : Prop :=
  ∀ i < a.rowCount, (a.coeff a.blockSize i i)⁻¹.mulVec (z i) +
    ∑ j ∈ Finset.Ico (i + 1) a.rowCount with a.Stores i j,
      (a.coeff a.blockSize i j).mulVec (z j) = x i

/-- The equations of the product of both factors. -/
def ProductSystem (a : BlockMatrix T) (x z : ℕ → Fin a.blockSize → T) : Prop :=
  ∀ i < a.rowCount, ∑ j ∈ Finset.range a.rowCount, (∑ k ∈ Finset.range a.rowCount,
    a.lower a.blockSize i k * a.upper a.blockSize k j).mulVec (z j) = x i

/-- Entries that are not stored add nothing to a row. -/
lemma sum_stored (valid : a.Valid) (i : ℕ) (s : Finset ℕ) (z : ℕ → Fin a.blockSize → T) :
    ∑ j ∈ s with a.Stores i j, (a.coeff a.blockSize i j).mulVec (z j) =
      ∑ j ∈ s, (a.coeff a.blockSize i j).mulVec (z j) := by
  refine Finset.sum_filter_of_ne fun j _ nonzero => ?_
  by_contra absent
  rw [valid.coeff_eq_zero absent, Matrix.zero_mulVec] at nonzero
  exact nonzero rfl

lemma lowerSystem_iff (valid : a.Valid) {x z : ℕ → Fin a.blockSize → T} :
    a.LowerSystem x z ↔ ∀ i < a.rowCount,
      ∑ j ∈ Finset.range a.rowCount, (a.lower a.blockSize i j).mulVec (z j) = x i := by
  refine forall₂_congr fun i hi => ?_
  rw [sum_stored valid, Finset.range_eq_Ico, Finset.range_eq_Ico, sum_lower_mulVec (Nat.zero_le i) hi]

lemma upperSystem_iff (valid : a.Valid) {x z : ℕ → Fin a.blockSize → T} :
    a.UpperSystem x z ↔ ∀ i < a.rowCount,
      ∑ j ∈ Finset.range a.rowCount, (a.upper a.blockSize i j).mulVec (z j) = x i := by
  refine forall₂_congr fun i hi => ?_
  rw [sum_stored valid, Finset.range_eq_Ico, sum_upper_mulVec (Nat.zero_le i) hi, upper_self]

/-! ## At most one solution -/

/-- Two solutions of the lower system agree in a row once they agree in all rows before. -/
lemma LowerSystem.unique {x v w : ℕ → Fin a.blockSize → T} (hv : a.LowerSystem x v)
    (hw : a.LowerSystem x w) : ∀ i < a.rowCount, v i = w i := by
  intro i
  induction i using Nat.strong_induction_on with
  | h i before =>
    intro hi
    have sums : ∑ j ∈ Finset.range i with a.Stores i j, (a.coeff a.blockSize i j).mulVec (v j) =
        ∑ j ∈ Finset.range i with a.Stores i j, (a.coeff a.blockSize i j).mulVec (w j) := by
      refine Finset.sum_congr rfl fun j member => ?_
      have hj := Finset.mem_range.mp (Finset.mem_filter.mp member).1
      rw [before j hj (hj.trans hi)]
    have rows := (hv i hi).trans (hw i hi).symm
    rw [sums] at rows
    exact add_right_cancel rows

/-- Two solutions of the upper system agree in a row once they agree in all rows behind. -/
lemma UpperSystem.unique (units : ∀ i < a.rowCount, IsUnit (a.coeff a.blockSize i i))
    {x v w : ℕ → Fin a.blockSize → T} (hv : a.UpperSystem x v) (hw : a.UpperSystem x w) :
    ∀ i < a.rowCount, v i = w i := by
  intro i
  -- the rows are taken from the last one up, so the induction is on the number of rows behind
  induction behind : a.rowCount - i using Nat.strong_induction_on generalizing i with
  | h count later =>
    intro hi
    have sums : ∑ j ∈ Finset.Ico (i + 1) a.rowCount with a.Stores i j,
          (a.coeff a.blockSize i j).mulVec (v j) =
        ∑ j ∈ Finset.Ico (i + 1) a.rowCount with a.Stores i j,
          (a.coeff a.blockSize i j).mulVec (w j) := by
      refine Finset.sum_congr rfl fun j member => ?_
      have hj := Finset.mem_Ico.mp (Finset.mem_filter.mp member).1
      rw [later (a.rowCount - j) (by omega) j rfl hj.2]
    have rows := (hv i hi).trans (hw i hi).symm
    rw [sums] at rows
    have own := congrArg (a.coeff a.blockSize i i).mulVec (add_right_cancel rows)
    have inverse := Matrix.mul_nonsing_inv _ ((Matrix.isUnit_iff_isUnit_det _).mp (units i hi))
    rwa [Matrix.mulVec_mulVec, Matrix.mulVec_mulVec, inverse, Matrix.one_mulVec,
      Matrix.one_mulVec] at own

/-- A solution of the product is a solution of the upper system, with the solution of the lower one
on the right. -/
lemma ProductSystem.upper (valid : a.Valid) {x y z : ℕ → Fin a.blockSize → T}
    (product : a.ProductSystem x z) (lower : a.LowerSystem x y) : a.UpperSystem y z := by
  have image : a.LowerSystem x fun k =>
      ∑ j ∈ Finset.range a.rowCount, (a.upper a.blockSize k j).mulVec (z j) := by
    rw [lowerSystem_iff valid]
    intro i hi
    rw [← sum_product_mulVec]
    exact product i hi
  rw [upperSystem_iff valid]
  exact image.unique lower

/-! ## The solves -/

section Solves

variable (valid : a.Valid) (has : a.HasDiagonal) {x y : Array T}
variable (hx : x.size = a.rowCount * a.blockSize) (hy : y.size = a.rowCount * a.blockSize)

include has

include valid hx

/-- The lower solve leaves the only solution of the lower system. -/
lemma solveLower_only : ∃ z, a.view.solveLower x = .ok z ∧
    OnlySolution (a.rowCount * a.blockSize)
      (fun z => a.LowerSystem (Block.part a.blockSize x) (Block.part a.blockSize z)) z := by
  obtain ⟨z, run, hsize, solved⟩ := solveLower_spec valid has hx
  have solution := (lowerSystem_iff valid).mpr solved
  refine ⟨z, run, hsize.trans hx, solution, fun w hw other => ?_⟩
  exact Block.eq_of_part_eq hw (hsize.trans hx) (other.unique solution)

/-- The upper solve leaves the only solution of the upper system. -/
lemma solveUpper_only (room : a.blockSize < Capacity.limit)
    (units : ∀ i < a.rowCount, IsUnit (a.coeff a.blockSize i i)) :
    ∃ z, a.view.solveUpper x = .ok z ∧ OnlySolution (a.rowCount * a.blockSize)
      (fun z => a.UpperSystem (Block.part a.blockSize x) (Block.part a.blockSize z)) z := by
  have inverse : ∀ i, 0 ≤ i → i < a.rowCount →
      a.upper a.blockSize i i * a.coeff a.blockSize i i = 1 := by
    intro i _ hi
    rw [upper_self]
    exact Matrix.nonsing_inv_mul _ ((Matrix.isUnit_iff_isUnit_det _).mp (units i hi))
  obtain ⟨z, run, hsize, solved, -⟩ := solveUpperRows_spec valid has (Nat.le_refl 0)
    (Nat.le_refl a.rowCount) room inverse hx
  have solution : a.UpperSystem (Block.part a.blockSize x) (Block.part a.blockSize z) := by
    rw [upperSystem_iff valid, Finset.range_eq_Ico]
    exact fun i hi => solved i (Nat.zero_le i) hi
  refine ⟨z, run, hsize.trans hx, solution, fun w hw other => ?_⟩
  exact Block.eq_of_part_eq hw (hsize.trans hx) (other.unique units solution)

/-- Both solves, one after the other, leave the only solution of the product. -/
lemma solveFactor_only (room : a.blockSize < Capacity.limit)
    (units : ∀ i < a.rowCount, IsUnit (a.coeff a.blockSize i i)) :
    ∃ z, (do a.view.solveUpper (← a.view.solveLower x)) = .ok z ∧
      OnlySolution (a.rowCount * a.blockSize)
        (fun z => a.ProductSystem (Block.part a.blockSize x) (Block.part a.blockSize z)) z := by
  obtain ⟨w, lowerRun, hw, lower, -⟩ := solveLower_only valid has hx
  obtain ⟨z, upperRun, hz, upper, onlyUpper⟩ := solveUpper_only valid has hw room units
  refine ⟨z, by rw [lowerRun, ok_bind, upperRun], hz, fun i hi => ?_, fun v hv product => ?_⟩
  · have first := (lowerSystem_iff valid).mp lower i hi
    have second := (upperSystem_iff valid).mp upper
    rw [sum_product_mulVec, ← first]
    refine Finset.sum_congr rfl fun k member => ?_
    rw [second k (Finset.mem_range.mp member)]
  · exact onlyUpper v hv (product.upper valid lower)

include hy

/-- On a matrix with a full diagonal and any values, the lower solve answers the only solution of
the lower system. Where the diagonal blocks can be inverted and one block of a vector fits into an
array, the upper solve answers the only solution of the upper system, and both solves together that
of the product of the two factors. -/
theorem solves_unique :
    (∃ z, (a.applyLower x).on y = (.ok (), z) ∧ OnlySolution (a.rowCount * a.blockSize)
      (fun z => a.LowerSystem (Block.part a.blockSize x) (Block.part a.blockSize z)) z) ∧
    (a.blockSize < Capacity.limit → (∀ i < a.rowCount, IsUnit (a.coeff a.blockSize i i)) →
      (∃ z, (a.applyUpper x).on y = (.ok (), z) ∧ OnlySolution (a.rowCount * a.blockSize)
        (fun z => a.UpperSystem (Block.part a.blockSize x) (Block.part a.blockSize z)) z) ∧
      ∃ z, (a.applyFactor x).on y = (.ok (), z) ∧ OnlySolution (a.rowCount * a.blockSize)
        (fun z => a.ProductSystem (Block.part a.blockSize x) (Block.part a.blockSize z)) z) ∧
    (Capacity.limit ≤ a.blockSize →
      ((a.applyUpper x).on y).1 = .error .tooLarge ∧
        ((a.applyFactor x).on y).1 = .error .tooLarge) := by
  refine ⟨?_, fun room units => ⟨?_, ?_⟩, fun crowded => ⟨?_, ?_⟩⟩
  · obtain ⟨z, run, only⟩ := solveLower_only valid has hx
    exact ⟨z, by rw [has.applyLower_on hx hy, Update.on_replace, run], only⟩
  · obtain ⟨z, run, only⟩ := solveUpper_only valid has hx room units
    exact ⟨z, by rw [has.applyUpper_on hx hy, Update.on_replace, run], only⟩
  · obtain ⟨z, run, only⟩ := solveFactor_only valid has hx room units
    exact ⟨z, by rw [has.applyFactor_on hx hy, Update.on_replace, run], only⟩
  · rw [has.applyUpper_on hx hy, Update.on_replace, View.solveUpper,
      solveUpperRows_crowded crowded]
  · obtain ⟨w, lowerRun, -⟩ := solveLower_only valid has hx
    rw [has.applyFactor_on hx hy, Update.on_replace, lowerRun, ok_bind, View.solveUpper,
      solveUpperRows_crowded crowded]

end Solves

/-- The arrow stores three diagonal blocks that can be inverted. -/
theorem arrow_solves_unique :
    ∃ lower upper both : Array ℚ,
      (arrow.applyLower #[1, 2, 3, 4, 5, 6]).on (Block.zeros 6) = (.ok (), lower) ∧
      (arrow.applyUpper #[1, 2, 3, 4, 5, 6]).on (Block.zeros 6) = (.ok (), upper) ∧
      (arrow.applyFactor #[1, 2, 3, 4, 5, 6]).on (Block.zeros 6) = (.ok (), both) ∧
      OnlySolution 6 (fun z => arrow.ProductSystem (Block.part 2 #[1, 2, 3, 4, 5, 6])
        (Block.part 2 z)) both := by
  have valid : arrow.Valid := by decide +kernel
  have has : arrow.HasDiagonal := valid.hasDiagonal rfl (by decide +kernel)
  have units : ∀ i < 3, IsUnit (arrow.coeff 2 i i) := by
    simp only [Matrix.isUnit_iff_isUnit_det, isUnit_iff_ne_zero, Matrix.det_fin_two]
    decide +kernel
  have room : arrow.blockSize < Capacity.limit := by decide +kernel
  obtain ⟨⟨lower, lowerRun, -⟩, solved, -⟩ := solves_unique valid has
    (x := #[1, 2, 3, 4, 5, 6]) (y := Block.zeros 6) rfl rfl
  obtain ⟨⟨upper, upperRun, -⟩, both, bothRun, only⟩ := solved room units
  exact ⟨lower, upper, both, lowerRun, upperRun, bothRun, only⟩

/-- A matrix without rows has its diagonal and only invertible blocks there, but may have no room
for an upper solve. -/
theorem exists_solve_tooLarge :
    ¬∀ (a : BlockMatrix ℚ), a.Valid → a.HasDiagonal →
      (∀ i < a.rowCount, IsUnit (a.coeff a.blockSize i i)) →
      ∀ x y : Array ℚ, x.size = a.rowCount * a.blockSize → y.size = a.rowCount * a.blockSize →
        ((a.applyUpper x).on y).1 = .ok () := by
  intro solvable
  let a : BlockMatrix ℚ := { BlockMatrix.empty with blockSize := 2 ^ 60 }
  have valid : a.Valid := by decide +kernel
  have has : a.HasDiagonal := valid.hasDiagonal rfl fun _ hi => absurd hi (Nat.not_lt_zero _)
  have solved := solvable a valid has (fun _ hi => absurd hi (Nat.not_lt_zero _)) #[] #[]
    (Nat.zero_mul _).symm (Nat.zero_mul _).symm
  have failed : ((a.applyUpper #[]).on #[]).1 = .error .tooLarge := by decide +kernel
  rw [failed] at solved
  exact nomatch solved

end DomainDecomposition.BlockMatrix
