import DomainDecomposition.BlockMatrix.Operator
import DomainDecomposition.Proofs.BlockMatrix.Factor
import DomainDecomposition.Proofs.BlockMatrix.Solve

/-!
# The solves with a factored matrix

A matrix is `Factored` when its solves go through: it is square with a full diagonal, and the
diagonal blocks are the inverses of those of the upper factor. A successful factorization leaves
such a matrix. Each solve then answers the solution of a triangular system, of all rows or of those
from an offset on.

* `factored_of_factor`: what a factorization leaves,
* `applyLower_spec`, `applyLowerFrom_spec`: the lower systems,
* `applyUpperFrom_spec`, `applyUpperBefore_spec`: the upper systems,
* `applyFactor_spec`: both, one after the other.
-/

namespace DomainDecomposition.BlockMatrix

open Outcome

variable {T R : Type} [Field T] {b : ℕ} {f : BlockMatrix T}

/-- A matrix that holds two factors and the inverted pivots of the upper one. -/
structure Factored (f : BlockMatrix T) : Prop where
  valid : f.Valid
  hasDiagonal : f.HasDiagonal
  room : f.blockSize < Capacity.limit
  inverse_left : ∀ i < f.rowCount, f.upper f.blockSize i i * f.coeff f.blockSize i i = 1
  inverse_right : ∀ i < f.rowCount, f.coeff f.blockSize i i * f.upper f.blockSize i i = 1

section Factor

variable [DecidableEq T] [Field R] [LinearOrder R] [IsStrictOrderedRing R] [Magnitude R]
variable [Scalar T R] [ExactScalar T R]

/-- A successful factorization leaves a factored matrix on the pattern that was there. -/
lemma factored_of_factor {a : BlockMatrix T} (valid : a.Valid)
    (run : (factor (R := R)).on a = (.ok (), f)) :
    f.Factored ∧ a.HasDiagonal ∧ ∃ v, f = a.withValues v ∧ Factoring a a.rowCount v := by
  obtain ⟨has, hroom, v, rfl, h⟩ := factor_spec valid run
  have hunit : ∀ i < a.rowCount, IsUnit ((a.withValues v).coeff a.blockSize i i).det :=
    fun i hi => (Matrix.isUnit_iff_isUnit_det _).mp (h.units i hi)
  refine ⟨?_, has, v, rfl, h⟩
  exact {
    valid := valid.withValues h.size
    hasDiagonal := has.withValues v
    room := (Nat.le_mul_self _).trans_lt hroom
    inverse_left := fun i hi => by
      rw [upper_self]
      exact Matrix.nonsing_inv_mul _ (hunit i hi)
    inverse_right := fun i hi => by
      rw [upper_self]
      exact Matrix.mul_nonsing_inv _ (hunit i hi) }

end Factor

/-- The product of the factors times a vector is one factor after the other. -/
lemma sum_product_mulVec {n : ℕ} (l u : ℕ → ℕ → Matrix (Fin b) (Fin b) T) (i : ℕ)
    (x : ℕ → Fin b → T) :
    ∑ j ∈ Finset.range n, (∑ k ∈ Finset.range n, l i k * u k j).mulVec (x j) =
      ∑ k ∈ Finset.range n, (l i k).mulVec (∑ j ∈ Finset.range n, (u k j).mulVec (x j)) := by
  calc ∑ j ∈ Finset.range n, (∑ k ∈ Finset.range n, l i k * u k j).mulVec (x j)
      = ∑ j ∈ Finset.range n, ∑ k ∈ Finset.range n, (l i k).mulVec ((u k j).mulVec (x j)) := by
        refine Finset.sum_congr rfl fun j _ => ?_
        rw [Matrix.sum_mulVec]
        refine Finset.sum_congr rfl fun k _ => ?_
        rw [Matrix.mulVec_mulVec]
    _ = ∑ k ∈ Finset.range n, ∑ j ∈ Finset.range n, (l i k).mulVec ((u k j).mulVec (x j)) :=
        Finset.sum_comm
    _ = ∑ k ∈ Finset.range n, (l i k).mulVec (∑ j ∈ Finset.range n, (u k j).mulVec (x j)) := by
        refine Finset.sum_congr rfl fun k _ => ?_
        rw [Matrix.mulVec_sum]

omit [Field T] in
/-- Without room for one block of a vector, no upper row is solved. -/
lemma solveUpperRows_crowded [Zero T] [Add T] [Sub T] [Mul T] (crowded : Capacity.limit ≤ f.blockSize)
    (o first last : ℕ) (x : Array T) :
    f.view.solveUpperRows o first last x = .error .tooLarge := by
  rw [View.solveUpperRows, show f.view.blockSize = f.blockSize from rfl, Capacity.reserve,
    if_neg (Nat.not_lt.mpr crowded), error_bind]

/-! ## The tests before a solve -/

omit [Field T] in
lemma HasDiagonal.checkVectors_eq_ok (has : f.HasDiagonal) {x y : Array T}
    (hx : x.size = f.rowCount * f.blockSize) (hy : y.size = f.rowCount * f.blockSize) :
    f.checkVectors x y = .ok () :=
  BlockMatrix.checkVectors_eq_ok (by rw [← has.square, hx]) hy

omit [Field T] in
lemma HasDiagonal.checkTrailing_eq_ok (has : f.HasDiagonal) {o : ℕ} (ho : o ≤ f.rowCount)
    {x : Array T} (hx : x.size = (f.rowCount - o) * f.blockSize) :
    f.checkTrailing o x = .ok () := by
  rw [checkTrailing, has.requireDiagonal_eq, ok_bind]
  simp only [if_neg (Nat.not_lt.mpr ho)]
  exact checkSize_eq_ok.mpr hx.symm

omit [Field T] in
lemma HasDiagonal.applyLower_on [Zero T] [Add T] [Sub T] [Mul T] (has : f.HasDiagonal)
    {x y : Array T} (hx : x.size = f.rowCount * f.blockSize)
    (hy : y.size = f.rowCount * f.blockSize) :
    (f.applyLower x).on y = (Update.replace fun _ => f.view.solveLower x).on y := by
  rw [applyLower, has.requireDiagonal_eq, Update.on_bind_of_ok (Update.on_monadLift _ y),
    Update.on_bind_of_ok (Update.on_get y), has.checkVectors_eq_ok hx hy,
    Update.on_bind_of_ok (Update.on_monadLift _ y)]

omit [Field T] in
lemma HasDiagonal.applyUpper_on [Zero T] [Add T] [Sub T] [Mul T] (has : f.HasDiagonal)
    {x y : Array T} (hx : x.size = f.rowCount * f.blockSize)
    (hy : y.size = f.rowCount * f.blockSize) :
    (f.applyUpper x).on y = (Update.replace fun _ => f.view.solveUpper x).on y := by
  rw [applyUpper, has.requireDiagonal_eq, Update.on_bind_of_ok (Update.on_monadLift _ y),
    Update.on_bind_of_ok (Update.on_get y), has.checkVectors_eq_ok hx hy,
    Update.on_bind_of_ok (Update.on_monadLift _ y)]

omit [Field T] in
lemma HasDiagonal.applyFactor_on [Zero T] [Add T] [Sub T] [Mul T] (has : f.HasDiagonal)
    {x y : Array T} (hx : x.size = f.rowCount * f.blockSize)
    (hy : y.size = f.rowCount * f.blockSize) :
    (f.applyFactor x).on y =
      (Update.replace fun _ => do f.view.solveUpper (← f.view.solveLower x)).on y := by
  rw [applyFactor, has.requireDiagonal_eq, Update.on_bind_of_ok (Update.on_monadLift _ y),
    Update.on_bind_of_ok (Update.on_get y), has.checkVectors_eq_ok hx hy,
    Update.on_bind_of_ok (Update.on_monadLift _ y)]

omit [Field T] in
lemma HasDiagonal.applyLowerFrom_on [Zero T] [Add T] [Sub T] [Mul T] (has : f.HasDiagonal) {o : ℕ}
    (ho : o ≤ f.rowCount) {x : Array T} (hx : x.size = (f.rowCount - o) * f.blockSize) :
    (f.applyLowerFrom o).on x = (Update.replace (f.view.solveLowerFrom o)).on x := by
  rw [applyLowerFrom, Update.on_bind_of_ok (Update.on_get x), has.checkTrailing_eq_ok ho hx,
    Update.on_bind_of_ok (Update.on_monadLift _ x)]

omit [Field T] in
lemma HasDiagonal.applyUpperBefore_on [Zero T] [Add T] [Sub T] [Mul T] (has : f.HasDiagonal) (o : ℕ)
    {x : Array T} (hx : x.size = f.rowCount * f.blockSize) :
    (f.applyUpperBefore o).on x = (Update.replace (f.view.solveUpperBefore o)).on x := by
  have length : checkSize (f.rowCount * f.blockSize) x.size = .ok () :=
    checkSize_eq_ok.mpr hx.symm
  rw [applyUpperBefore, has.requireDiagonal_eq, Update.on_bind_of_ok (Update.on_monadLift _ x),
    Update.on_bind_of_ok (Update.on_get x), length, Update.on_bind_of_ok (Update.on_monadLift _ x)]

omit [Field T] in
lemma HasDiagonal.applyUpperFrom_on [Zero T] [Add T] [Sub T] [Mul T] (has : f.HasDiagonal) {o : ℕ}
    (ho : o ≤ f.rowCount) {x : Array T} (hx : x.size = (f.rowCount - o) * f.blockSize) :
    (f.applyUpperFrom o).on x =
      (Update.replace (f.view.solveUpperRows o o f.rowCount)).on x := by
  rw [applyUpperFrom, Update.on_bind_of_ok (Update.on_get x), has.checkTrailing_eq_ok ho hx,
    Update.on_bind_of_ok (Update.on_monadLift _ x)]
  rfl

namespace Factored

/-! ## Lower solves -/

lemma applyLower_spec (h : f.Factored) {x y : Array T} (hx : x.size = f.rowCount * f.blockSize)
    (hy : y.size = f.rowCount * f.blockSize) :
    ∃ z, (f.applyLower x).on y = (.ok (), z) ∧ z.size = f.rowCount * f.blockSize ∧
      ∀ i < f.rowCount, ∑ j ∈ Finset.range f.rowCount,
        (f.lower f.blockSize i j).mulVec (Block.part f.blockSize z j) =
          Block.part f.blockSize x i := by
  obtain ⟨z, hz, hsize, hsolved⟩ := solveLower_spec h.valid h.hasDiagonal hx
  refine ⟨z, ?_, hsize.trans hx, hsolved⟩
  rw [h.hasDiagonal.applyLower_on hx hy, Update.on_replace, hz]

lemma applyLowerFrom_spec (h : f.Factored) {o : ℕ} (ho : o ≤ f.rowCount) {x : Array T}
    (hx : x.size = (f.rowCount - o) * f.blockSize) :
    ∃ z, (f.applyLowerFrom o).on x = (.ok (), z) ∧ z.size = (f.rowCount - o) * f.blockSize ∧
      ∀ i, o ≤ i → i < f.rowCount → ∑ j ∈ Finset.Ico o f.rowCount,
        (f.lower f.blockSize i j).mulVec (Block.part f.blockSize z (j - o)) =
          Block.part f.blockSize x (i - o) := by
  obtain ⟨z, hz, hsize, hsolved⟩ := solveLowerFrom_spec h.valid h.hasDiagonal o hx
  refine ⟨z, ?_, hsize.trans hx, hsolved⟩
  rw [applyLowerFrom, Update.on_bind_of_ok (Update.on_get x),
    h.hasDiagonal.checkTrailing_eq_ok ho hx, Update.on_bind_of_ok (Update.on_monadLift _ x),
    Update.on_replace, hz]

/-! ## Upper solves -/

lemma applyUpperFrom_spec (h : f.Factored) {o : ℕ} (ho : o ≤ f.rowCount) {x : Array T}
    (hx : x.size = (f.rowCount - o) * f.blockSize) :
    ∃ z, (f.applyUpperFrom o).on x = (.ok (), z) ∧ z.size = (f.rowCount - o) * f.blockSize ∧
      ∀ i, o ≤ i → i < f.rowCount → ∑ j ∈ Finset.Ico o f.rowCount,
        (f.upper f.blockSize i j).mulVec (Block.part f.blockSize z (j - o)) =
          Block.part f.blockSize x (i - o) := by
  obtain ⟨z, hz, hsize, hsolved, -⟩ := solveUpperRows_spec h.valid h.hasDiagonal
    (Nat.le_refl o) (Nat.le_refl f.rowCount) h.room (fun i _ hi => h.inverse_left i hi) hx
  refine ⟨z, ?_, hsize.trans hx, hsolved⟩
  rw [h.hasDiagonal.applyUpperFrom_on ho hx, Update.on_replace, hz]

/-- The rows before the offset are solved for, and those behind are taken as they are. -/
lemma applyUpperBefore_spec (h : f.Factored) {o : ℕ} (ho : o ≤ f.rowCount) {x : Array T}
    (hx : x.size = f.rowCount * f.blockSize) :
    ∃ z, (f.applyUpperBefore o).on x = (.ok (), z) ∧ z.size = f.rowCount * f.blockSize ∧
      (∀ i < o, ∑ j ∈ Finset.range f.rowCount,
        (f.upper f.blockSize i j).mulVec (Block.part f.blockSize z j) =
          Block.part f.blockSize x i) ∧
      ∀ i, o ≤ i → Block.part f.blockSize z i = Block.part f.blockSize x i := by
  obtain ⟨z, hz, hsize, hsolved, hrest⟩ := solveUpperRows_spec h.valid h.hasDiagonal
    (Nat.le_refl 0) ho h.room (fun i _ hi => h.inverse_left i (by omega)) hx
  refine ⟨z, ?_, hsize.trans hx, fun i hi => ?_, fun i hi => ?_⟩
  · rw [h.hasDiagonal.applyUpperBefore_on o hx, Update.on_replace, View.solveUpperBefore,
      show f.view.rowCount = f.rowCount from rfl, Nat.min_eq_left ho, hz]
  · rw [Finset.range_eq_Ico]
    exact hsolved i (Nat.zero_le i) hi
  · exact hrest i (Nat.zero_le i) (Or.inr hi)

/-- The solves answer the solution of the lower and then of the upper system. -/
lemma applyFactor_spec (h : f.Factored) {x y : Array T} (hx : x.size = f.rowCount * f.blockSize)
    (hy : y.size = f.rowCount * f.blockSize) :
    ∃ z, (f.applyFactor x).on y = (.ok (), z) ∧ z.size = f.rowCount * f.blockSize ∧
      ∃ w : ℕ → Fin f.blockSize → T,
        (∀ i < f.rowCount, ∑ j ∈ Finset.range f.rowCount,
          (f.lower f.blockSize i j).mulVec (w j) = Block.part f.blockSize x i) ∧
        ∀ i < f.rowCount, ∑ j ∈ Finset.range f.rowCount,
          (f.upper f.blockSize i j).mulVec (Block.part f.blockSize z j) = w i := by
  obtain ⟨w, hlower, hw, hsolved⟩ := solveLower_spec h.valid h.hasDiagonal hx
  obtain ⟨z, hupper, hz, hsolved', -⟩ := solveUpperRows_spec h.valid h.hasDiagonal
    (Nat.le_refl 0) (Nat.le_refl f.rowCount) h.room (fun i _ hi => h.inverse_left i hi)
    (x := w) (hw.trans hx)
  refine ⟨z, ?_, (hz.trans hw).trans hx, Block.part f.blockSize w, hsolved, fun i hi => ?_⟩
  · rw [applyFactor, h.hasDiagonal.requireDiagonal_eq,
      Update.on_bind_of_ok (Update.on_monadLift _ y), Update.on_bind_of_ok (Update.on_get y),
      h.hasDiagonal.checkVectors_eq_ok hx hy, Update.on_bind_of_ok (Update.on_monadLift _ y),
      Update.on_replace, hlower, ok_bind, View.solveUpper,
      show f.view.rowCount = f.rowCount from rfl, hupper]
  · rw [Finset.range_eq_Ico]
    exact hsolved' i (Nat.zero_le i) hi

end Factored

end DomainDecomposition.BlockMatrix
