import DomainDecomposition.Proofs.Block.Inverse
import DomainDecomposition.Proofs.Scalar.Rational
import Mathlib.LinearAlgebra.Matrix.Determinant.Basic
import Mathlib.LinearAlgebra.Matrix.ToLinearEquiv

/-!
# Singular blocks

The row operations of an inversion change the determinant of the block by a factor that is not zero.
A column without a pivot is a combination of the cleared columns before it, so the determinant
vanishes there. Hence the elimination runs into a vanishing pivot exactly if the block is singular,
unless a pivot is refused for being small.

* `Cleared.pivot_pos`: a block that is not singular has a pivot in every column,
* `invert_sound`: a success answers the two-sided inverse, a singular block is reported, and without
  a tolerance nothing else is.
-/

namespace DomainDecomposition.Block

variable {T R : Type} [Field T] {b : ℕ}

/-! ## Determinants under row operations -/

lemma det_swapRows (m : Array T) {p c : ℕ} (hp : p < b) (hc : c < b)
    (regular : (toMatrix b m).det ≠ 0) : (toMatrix b (swapRows b m p c)).det ≠ 0 := by
  rw [toMatrix_swapRows m hp hc, Matrix.det_permute]
  -- the sign of a permutation is a unit
  have sign := (Equiv.Perm.sign (Equiv.swap (⟨p, hp⟩ : Fin b) ⟨c, hc⟩)).isUnit
  exact mul_ne_zero (sign.map (Int.castRingHom T)).ne_zero regular

lemma det_scaleRow (m : Array T) {c : ℕ} (hc : c < b) {f : T} (hf : f ≠ 0)
    (regular : (toMatrix b m).det ≠ 0) : (toMatrix b (scaleRow b m c f)).det ≠ 0 := by
  rw [toMatrix_scaleRow m hc, Matrix.det_mul, Matrix.det_diagonal]
  refine mul_ne_zero (Finset.prod_ne_zero_iff.mpr fun r _ => ?_) regular
  split_ifs
  · exact hf
  · exact one_ne_zero

/-- Subtracting multiples of one row from the others keeps the determinant. -/
lemma det_subtractRow [DecidableEq T] (m : Array T) {c : ℕ} (hc : c < b) (f : ℕ → T) :
    (toMatrix b (subtractRow b m c f)).det = (toMatrix b m).det := by
  symm
  refine Matrix.det_eq_of_forall_row_eq_smul_add_const
    (fun r : Fin b => if r = ⟨c, hc⟩ then 0 else f r) ⟨c, hc⟩ (if_pos rfl) fun r k => ?_
  rw [toMatrix_subtractRow m hc]
  simp [Matrix.vecMulVec_apply]

/-! ## Columns without a pivot -/

/-- Where a column vanishes from its diagonal entry on, it is a combination of the cleared columns
before it. -/
lemma det_eq_zero_of_unit {m : Matrix (Fin b) (Fin b) T} {c : ℕ} (hc : c < b)
    (unit : ∀ r k : Fin b, k.val < c → m r k = if r = k then 1 else 0)
    (vanishes : ∀ r : Fin b, c ≤ r.val → m r ⟨c, hc⟩ = 0) : m.det = 0 := by
  refine Matrix.exists_mulVec_eq_zero_iff.mp ⟨fun k => if k.val < c then m k ⟨c, hc⟩
    else if k = ⟨c, hc⟩ then -1 else 0, fun zero => ?_, funext fun r => ?_⟩
  · have own := congrFun zero ⟨c, hc⟩
    rw [if_neg (Nat.lt_irrefl c), if_pos rfl] at own
    exact one_ne_zero (neg_eq_zero.mp own)
  · -- only the entry of column `c` and the one of the cleared column `r` are left in row `r`
    have terms : ∀ k : Fin b, m r k * (if k.val < c then m k ⟨c, hc⟩
        else if k = ⟨c, hc⟩ then -1 else 0) =
        (if k = r then if r.val < c then m r ⟨c, hc⟩ else 0 else 0) -
          if k = ⟨c, hc⟩ then m r ⟨c, hc⟩ else 0 := by
      intro k
      by_cases below : k.val < c
      · have hk : k ≠ ⟨c, hc⟩ := fun e => by rw [e] at below; exact Nat.lt_irrefl c below
        rw [if_pos below, unit r k below, if_neg hk, sub_zero]
        by_cases hr : k = r
        · rw [if_pos hr.symm, if_pos hr, ← hr, if_pos below, one_mul]
        · rw [if_neg (Ne.symm hr), if_neg hr, zero_mul]
      · rw [if_neg below]
        have first : (if k = r then if r.val < c then m r ⟨c, hc⟩ else 0 else 0) = 0 := by
          split_ifs with hr hrc
          · exact absurd (hr ▸ hrc) below
          · rfl
          · rfl
        rw [first]
        by_cases hk : k = ⟨c, hc⟩
        · rw [if_pos hk, if_pos hk, hk, mul_neg_one, zero_sub]
        · rw [if_neg hk, if_neg hk, mul_zero, sub_zero]
    rw [Matrix.mulVec, dotProduct, Finset.sum_congr rfl fun k _ => terms k,
      Finset.sum_sub_distrib, Finset.sum_ite_eq' Finset.univ r, if_pos (Finset.mem_univ r),
      Finset.sum_ite_eq' Finset.univ, if_pos (Finset.mem_univ _), Pi.zero_apply]
    split_ifs with hr
    · exact sub_self _
    · rw [vanishes r (Nat.le_of_not_lt hr), sub_self]

section Pivots

variable [LinearOrder R] [Scalar T R]

/-- No row is larger than the one that is chosen, nor is the choice before. -/
lemma le_foldl_pivot (m : Array T) (c : ℕ) (rows : List ℕ) (best : ℕ × R) :
    let chosen := rows.foldl (fun best r =>
      let size := Scalar.modulus (entry b m r c)
      if best.2 < size then (r, size) else best) best
    best.2 ≤ chosen.2 ∧ ∀ r ∈ rows, Scalar.modulus (entry b m r c) ≤ chosen.2 := by
  induction rows generalizing best with
  | nil => exact ⟨le_refl _, fun _ member => absurd member List.not_mem_nil⟩
  | cons r rows ih =>
    rw [List.foldl_cons]
    by_cases larger : best.2 < Scalar.modulus (entry b m r c)
    · simp only [if_pos larger]
      obtain ⟨before, later⟩ := ih (r, Scalar.modulus (entry b m r c))
      exact ⟨larger.le.trans before, List.forall_mem_cons.mpr ⟨before, later⟩⟩
    · simp only [if_neg larger]
      obtain ⟨before, later⟩ := ih best
      exact ⟨before, List.forall_mem_cons.mpr ⟨(not_lt.mp larger).trans before, later⟩⟩

lemma modulus_le_pivot [Neg R] [One R] (m : Array T) {c r : ℕ} (low : c ≤ r) (high : r < b) :
    Scalar.modulus (entry b m r c) ≤ (pivot (R := R) b m c).2 :=
  (le_foldl_pivot m c (List.range' c (b - c)) (c, -1)).2 r
    (List.mem_range'_1.mpr ⟨low, by omega⟩)

end Pivots

variable [Field R] [LinearOrder R] [IsStrictOrderedRing R] [Scalar T R] [ExactScalar T R]

/-- A block that is not singular has a pivot in every column. -/
lemma Cleared.pivot_pos {a : Matrix (Fin b) (Fin b) T} {c : ℕ} {m w : Array T}
    (h : Cleared b a c m w) (hc : c < b) (regular : (toMatrix b m).det ≠ 0) :
    0 < (pivot (R := R) b m c).2 := by
  by_contra none
  refine regular (det_eq_zero_of_unit hc h.unit fun r hr => ?_)
  have size : Scalar.modulus (entry b m r c) ≤ (0 : R) :=
    (modulus_le_pivot m hr r.isLt).trans (not_lt.mp none)
  exact (ExactScalar.modulus_eq_zero _).mp (size.antisymm (ExactScalar.modulus_nonneg _))

/-- Without a tolerance, every column of a block that is not singular is cleared. -/
lemma Cleared.completes [DecidableEq T] {a : Matrix (Fin b) (Fin b) T} {row : ℕ} {tolerance : R}
    (none : tolerance ≤ 0) :
    ∀ (count c : ℕ) {m w : Array T}, c + count = b → Cleared b a c m w →
      (toMatrix b m).det ≠ 0 →
      (clearColumns b row tolerance (List.range' c count) m w).1 = .ok ()
  | 0, _, _, _, _, _, _ => rfl
  | count + 1, c, m, w, hcount, h, regular => by
    have hc : c < b := by omega
    obtain ⟨hcp, hp, -⟩ := pivot_spec (R := R) m hc
    have positive := h.pivot_pos (R := R) hc regular
    have accepted : ¬((pivot (R := R) b m c).2 == 0 || (pivot (R := R) b m c).2 ≤ tolerance) := by
      rw [Bool.or_eq_true, beq_iff_eq, decide_eq_true_eq, not_or]
      exact ⟨positive.ne', not_le.mpr (none.trans_lt positive)⟩
    rw [List.range'_succ, clearColumns]
    simp only [if_neg accepted]
    -- none of the three steps makes the determinant vanish
    have swapped := det_swapRows m hp hc regular
    have hswap := h.swap hc hp hcp
    have hne := swapRows_pivot_ne_zero (R := R) m hc positive.ne'
    have scaled := det_scaleRow _ hc (one_div_ne_zero hne) swapped
    refine Cleared.completes none count (c + 1) (by omega)
      ((hswap.scale hc (1 / entry b (swapRows b m (pivot (R := R) b m c).1 c) c c)).subtract hc ?_)
      ?_
    · rw [scaleRow, entry_ofEntries _ hc hc, if_pos rfl, mul_one_div_cancel hne]
    · rwa [det_subtractRow _ hc]

/-! ## Inversion -/

section Inversion

variable [DecidableEq T] [Magnitude R]

/-- An inversion that succeeds answers the inverse of the block, from both sides, and a singular
block is reported with the label of its row, whatever counts as small. Where nothing but zero does,
every block of finite entries that is not singular is inverted. -/
theorem invert_sound (row : ℕ) {a : Array T} (ha : a.size = b * b) :
    (∀ inverse, (invert (R := R) b row).on a = (.ok (), inverse) → inverse.size = b * b ∧
      toMatrix b inverse * toMatrix b a = 1 ∧ toMatrix b a * toMatrix b inverse = 1) ∧
    ((toMatrix b a).det = 0 →
      ((invert (R := R) b row).on a).1 = .error (.singularPivot row)) ∧
    ((toMatrix b a).det ≠ 0 → a.all Scalar.isFinite = true → (pivotTolerance b a : R) ≤ 0 →
      ((invert (R := R) b row).on a).1 = .ok ()) := by
  refine ⟨fun inverse run => ⟨?_, toMatrix_invert ha run⟩, fun singular => ?_,
    fun regular finite none => ?_⟩
  · have size : ((invert (R := R) b row).on a).2.size = b * b := size_invert ha
    rwa [run] at size
  · refine (invert_result row ha).resolve_left fun success => ?_
    have left := toMatrix_invert_mul (R := R) ha (Prod.ext success rfl)
    have det := congrArg Matrix.det left
    rw [Matrix.det_mul, singular, mul_zero, Matrix.det_one] at det
    exact zero_ne_one det
  · rw [invert, Update.on_ofFunction, if_neg (by simp [finite]), if_neg (by omega),
      List.range_eq_range']
    exact Cleared.completes none b 0 (Nat.zero_add b) (Cleared.start a) regular

/-- The first block has its pivot in the second row. The second row of the other one is twice the
first. -/
theorem invert_sound_pair :
    (∃ inverse : Array ℚ, (invert 2 7).on #[0, 2, 3, 1] = (.ok (), inverse) ∧
      toMatrix 2 inverse * toMatrix 2 #[0, 2, 3, 1] = 1) ∧
    ((invert 2 7).on (#[1, 2, 2, 4] : Array ℚ)).1 = .error (.singularPivot 7) := by
  have accepted : ((invert 2 7).on (#[0, 2, 3, 1] : Array ℚ)).1 = .ok () := by decide +kernel
  have singular : (toMatrix 2 (#[1, 2, 2, 4] : Array ℚ)).det = 0 := by
    rw [Matrix.det_fin_two]
    decide +kernel
  obtain ⟨sound, -, -⟩ := invert_sound (b := 2) 7 (a := (#[0, 2, 3, 1] : Array ℚ)) rfl
  obtain ⟨-, reported, -⟩ := invert_sound (b := 2) 7 (a := (#[1, 2, 2, 4] : Array ℚ)) rfl
  obtain ⟨inverse, run⟩ : ∃ inverse,
      (invert 2 7).on (#[0, 2, 3, 1] : Array ℚ) = (.ok (), inverse) := ⟨_, Prod.ext accepted rfl⟩
  exact ⟨⟨inverse, run, (sound inverse run).2.1⟩, reported singular⟩

end Inversion

end DomainDecomposition.Block
