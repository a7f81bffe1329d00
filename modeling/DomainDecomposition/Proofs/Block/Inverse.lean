import DomainDecomposition.Proofs.Block.Algebra
import DomainDecomposition.Proofs.Scalar.Exact
import Mathlib.LinearAlgebra.Matrix.NonsingularInverse

/-!
# Inversion of a block

Gauss–Jordan elimination does every row operation to the block `m` and to a second block `w`, which
starts as the unit block. A row operation is the same linear change on both, so `m = w · a` holds at
every moment, where `a` is the block as it was. After column `c` the leading columns of `m` up to
`c` are those of the unit block. So in the end `1 = w · a`, and the inverse is two-sided because
both factors are square.

* `Cleared.step`, `Cleared.run`: what one column keeps, and what a whole run keeps,
* `toMatrix_invert`: a successful inversion answers the inverse matrix.
-/

namespace DomainDecomposition.Block

variable {T R : Type}

/-! ## Row operations -/

section RowOperations

variable [Field T] {b : ℕ}

lemma toMatrix_swapRows (m : Array T) {p c : ℕ} (hp : p < b) (hc : c < b) :
    toMatrix b (swapRows b m p c) =
      (toMatrix b m).submatrix (Equiv.swap (⟨p, hp⟩ : Fin b) ⟨c, hc⟩) id := by
  rw [swapRows, toMatrix_ofEntries]
  ext r k
  rw [Matrix.of_apply, Matrix.submatrix_apply, toMatrix_apply, Equiv.swap_apply_def]
  simp only [Fin.ext_iff, id]
  split_ifs <;> rfl

lemma toMatrix_scaleRow (m : Array T) {c : ℕ} (hc : c < b) (f : T) :
    toMatrix b (scaleRow b m c f) =
      Matrix.diagonal (fun r : Fin b => if r = ⟨c, hc⟩ then f else 1) * toMatrix b m := by
  rw [scaleRow, toMatrix_ofEntries]
  ext r k
  rw [Matrix.of_apply, Matrix.diagonal_mul, toMatrix_apply]
  simp only [Fin.ext_iff]
  split_ifs
  · rw [mul_comm]
  · rw [one_mul]

lemma toMatrix_subtractRow [DecidableEq T] (m : Array T) {c : ℕ} (hc : c < b) (f : ℕ → T) :
    toMatrix b (subtractRow b m c f) =
      toMatrix b m - Matrix.vecMulVec (fun r : Fin b => if r = ⟨c, hc⟩ then 0 else f r)
        (toMatrix b m ⟨c, hc⟩) := by
  rw [subtractRow, toMatrix_ofEntries]
  ext r k
  rw [Matrix.of_apply, Matrix.sub_apply, Matrix.vecMulVec_apply]
  simp only [Fin.ext_iff, Bool.or_eq_true, decide_eq_true_eq, beq_iff_eq, toMatrix_apply]
  by_cases hr : r.val = c
  · rw [if_pos (Or.inl hr), if_pos hr, zero_mul, sub_zero]
  · by_cases hf : f r = 0
    · rw [if_pos (Or.inr hf), if_neg hr, hf, zero_mul, sub_zero]
    · rw [if_neg (by tauto), if_neg hr]

end RowOperations

/-! ## The pivot -/

section Pivot

variable [Field T] [Field R] [LinearOrder R] [IsStrictOrderedRing R] [Scalar T R]
variable [ExactScalar T R] {b : ℕ}

/-- Choosing the largest modulus among some rows answers one of them, or what was there before. -/
lemma foldl_pivot (m : Array T) (c : ℕ) (rows : List ℕ) (best : ℕ × R)
    (known : best.2 = Scalar.modulus (entry b m best.1 c) ∨ best.2 < 0) :
    let chosen := rows.foldl (fun best r =>
      let size := Scalar.modulus (entry b m r c)
      if best.2 < size then (r, size) else best) best
    (chosen.1 = best.1 ∨ chosen.1 ∈ rows) ∧
      (chosen.2 = Scalar.modulus (entry b m chosen.1 c) ∨ (rows = [] ∧ chosen.2 < 0)) := by
  induction rows generalizing best with
  | nil => exact ⟨Or.inl rfl, known.imp_right fun h => ⟨rfl, h⟩⟩
  | cons r rows ih =>
    rw [List.foldl_cons]
    by_cases larger : best.2 < Scalar.modulus (entry b m r c)
    · -- row `r` is the best one so far
      simp only [if_pos larger]
      obtain ⟨member, size⟩ := ih (r, Scalar.modulus (entry b m r c)) (Or.inl rfl)
      refine ⟨Or.inr ?_, Or.inl ?_⟩
      · rcases member with h | h
        · rw [h]; exact List.mem_cons_self
        · exact List.mem_cons_of_mem r h
      · rcases size with h | ⟨rfl, h⟩
        · exact h
        · rfl
    · -- a size below every modulus would have been exceeded
      simp only [if_neg larger]
      have hbest : best.2 = Scalar.modulus (entry b m best.1 c) := by
        rcases known with h | h
        · exact h
        · exact absurd (h.trans_le (ExactScalar.modulus_nonneg _)) larger
      obtain ⟨member, size⟩ := ih best (Or.inl hbest)
      refine ⟨member.imp_right (List.mem_cons_of_mem r), Or.inl ?_⟩
      rcases size with h | ⟨rfl, -⟩
      · exact h
      · exact hbest

/-- The pivot row lies at or below row `c`, and its size is the modulus of its entry. -/
lemma pivot_spec (m : Array T) {c : ℕ} (hc : c < b) :
    c ≤ (pivot b m c).1 ∧ (pivot b m c).1 < b ∧
      (pivot b m c).2 = Scalar.modulus (entry b m (pivot b m c).1 c) := by
  obtain ⟨member, size⟩ := foldl_pivot (b := b) m c (List.range' c (b - c)) (c, -1)
    (Or.inr (neg_lt_zero.mpr one_pos))
  have hrows : List.range' c (b - c) ≠ [] := by
    rw [Ne, List.range'_eq_nil_iff]; omega
  have hmem : (pivot b m c).1 = c ∨ (pivot b m c).1 ∈ List.range' c (b - c) := member
  rw [List.mem_range'_1] at hmem
  refine ⟨by omega, by omega, ?_⟩
  rcases size with h | ⟨h, -⟩
  · exact h
  · exact absurd h hrows

/-- After the exchange with the pivot row, the diagonal entry has the size of the pivot. -/
lemma modulus_swapRows_pivot (m : Array T) {c : ℕ} (hc : c < b) :
    Scalar.modulus (entry b (swapRows b m (pivot (R := R) b m c).1 c) c c) =
      (pivot (R := R) b m c).2 := by
  rw [(pivot_spec m hc).2.2, swapRows, entry_ofEntries _ hc hc]
  by_cases own : c = (pivot (R := R) b m c).1
  · rw [if_pos own, ← own]
  · rw [if_neg own, if_pos rfl]

/-- A pivot that does not vanish stands on the diagonal after the exchange. -/
lemma swapRows_pivot_ne_zero (m : Array T) {c : ℕ} (hc : c < b)
    (nonzero : (pivot (R := R) b m c).2 ≠ 0) :
    entry b (swapRows b m (pivot (R := R) b m c).1 c) c c ≠ 0 := by
  intro zero
  rw [← modulus_swapRows_pivot m hc, zero] at nonzero
  exact nonzero ((ExactScalar.modulus_eq_zero 0).mpr rfl)

end Pivot

/-! ## One column -/

section Columns

variable [Field T] {b : ℕ}

/-- After the columns before `c`: `m` is `w` times the original block, and its leading columns are
those of the unit block. -/
structure Cleared (b : ℕ) (a : Matrix (Fin b) (Fin b) T) (c : ℕ) (m w : Array T) : Prop where
  product : toMatrix b m = toMatrix b w * a
  unit : ∀ r k : Fin b, k.val < c → toMatrix b m r k = if r = k then 1 else 0

lemma Cleared.start (a : Array T) : Cleared b (toMatrix b a) 0 a (identity b) where
  product := by rw [toMatrix_identity, one_mul]
  unit := fun _ k hk => absurd hk (Nat.not_lt_zero k)

/-- Exchanging two rows at or below `c` keeps what is cleared. -/
lemma Cleared.swap {a : Matrix (Fin b) (Fin b) T} {c p : ℕ} {m w : Array T}
    (h : Cleared b a c m w) (hc : c < b) (hp : p < b) (hcp : c ≤ p) :
    Cleared b a c (swapRows b m p c) (swapRows b w p c) where
  product := by
    rw [toMatrix_swapRows m hp hc, toMatrix_swapRows w hp hc, h.product]
    rfl
  unit := by
    intro r k hk
    rw [toMatrix_swapRows m hp hc, Matrix.submatrix_apply, id, h.unit _ k hk]
    -- both rows lie behind the diagonal entry of column `k`
    have hkp : (⟨p, hp⟩ : Fin b) ≠ k := fun e => by
      rw [← e] at hk; exact absurd hcp (Nat.not_le.mpr hk)
    have hkc : (⟨c, hc⟩ : Fin b) ≠ k := fun e => by
      rw [← e] at hk; exact absurd hk (Nat.lt_irrefl c)
    rw [Equiv.swap_apply_def]
    split_ifs <;> simp_all

/-- Scaling row `c` keeps what is cleared before it. -/
lemma Cleared.scale {a : Matrix (Fin b) (Fin b) T} {c : ℕ} {m w : Array T}
    (h : Cleared b a c m w) (hc : c < b) (f : T) :
    Cleared b a c (scaleRow b m c f) (scaleRow b w c f) where
  product := by
    rw [toMatrix_scaleRow m hc, toMatrix_scaleRow w hc, h.product, Matrix.mul_assoc]
  unit := by
    intro r k hk
    rw [toMatrix_scaleRow m hc, Matrix.diagonal_mul, h.unit r k hk]
    by_cases hrk : r = k
    · have hrc : r ≠ ⟨c, hc⟩ := fun e => by
        rw [← hrk, e] at hk; exact absurd hk (Nat.lt_irrefl c)
      rw [if_neg hrc, one_mul]
    · rw [if_neg hrk, mul_zero]

variable [DecidableEq T]

/-- Once the diagonal entry is one, subtracting multiples of row `c` clears column `c`. -/
lemma Cleared.subtract {a : Matrix (Fin b) (Fin b) T} {c : ℕ} {m w : Array T}
    (h : Cleared b a c m w) (hc : c < b) (one : entry b m c c = 1) :
    Cleared b a (c + 1) (subtractRow b m c fun r => entry b m r c)
      (subtractRow b w c fun r => entry b m r c) where
  product := by
    rw [toMatrix_subtractRow m hc, toMatrix_subtractRow w hc, h.product, Matrix.sub_mul,
      Matrix.vecMulVec_mul]
    rfl
  unit := by
    intro r k hk
    rw [toMatrix_subtractRow m hc, Matrix.sub_apply, Matrix.vecMulVec_apply]
    rcases Nat.lt_or_ge k.val c with hkc | hkc
    · have hck : (⟨c, hc⟩ : Fin b) ≠ k := fun e => by
        rw [← e] at hkc; exact absurd hkc (Nat.lt_irrefl c)
      rw [h.unit r k hkc, h.unit ⟨c, hc⟩ k hkc, if_neg hck, mul_zero, sub_zero]
    · -- column `c` itself: every row loses its own entry times one
      have hkeq : k = ⟨c, hc⟩ := Fin.ext (by simp only; omega)
      rw [hkeq, toMatrix_apply, toMatrix_apply, one, mul_one]
      by_cases hr : r = ⟨c, hc⟩
      · rw [if_pos hr, if_pos hr, hr, one, sub_zero]
      · rw [if_neg hr, if_neg hr, sub_self]

variable [Field R] [LinearOrder R] [IsStrictOrderedRing R] [Scalar T R] [ExactScalar T R]

/-- Clearing the columns from `c` on, with success, leaves an inverse of the block. -/
lemma Cleared.run {a : Matrix (Fin b) (Fin b) T} {row : ℕ} {tolerance : R} :
    ∀ (count c : ℕ) {m w inverse : Array T}, c + count = b → Cleared b a c m w →
      clearColumns b row tolerance (List.range' c count) m w = (.ok (), inverse) →
      1 = toMatrix b inverse * a
  | 0, c, m, w, inverse, hcount, h, run => by
    have hw : w = inverse := by
      simpa [clearColumns] using run
    -- all columns are those of the unit block
    have hm : toMatrix b m = 1 := by
      ext r k
      rw [h.unit r k (by omega), Matrix.one_apply]
    rw [← hm, ← hw, h.product]
  | count + 1, c, m, w, inverse, hcount, h, run => by
    have hc : c < b := by omega
    obtain ⟨hcp, hp, -⟩ := pivot_spec (R := R) m hc
    rw [List.range'_succ, clearColumns] at run
    by_cases stop : (pivot (R := R) b m c).2 == 0 || (pivot (R := R) b m c).2 ≤ tolerance
    · simp [stop] at run
    · simp only [stop] at run
      have hne := swapRows_pivot_ne_zero (R := R) m hc fun zero => stop (by simp [zero])
      have hswap := h.swap hc hp hcp
      have hscale := hswap.scale hc (1 / entry b (swapRows b m (pivot (R := R) b m c).1 c) c c)
      refine Cleared.run count (c + 1) (by omega) (hscale.subtract hc ?_) run
      rw [scaleRow, entry_ofEntries _ hc hc, if_pos rfl, mul_one_div_cancel hne]

end Columns

/-! ## Inversion -/

section Inversion

/-- Writing a whole array over one of the same size. -/
lemma overwrite_all {x y : Array T} (h : y.size = x.size) : Span.overwrite x 0 y = y := by
  apply Array.ext (by rw [Span.size_overwrite, h])
  intro k hk hk'
  have hget := Span.getElem?_overwrite x 0 y k
  rw [if_pos ⟨Nat.zero_le k, by omega, by omega⟩, Nat.sub_zero] at hget
  rwa [Array.getElem?_eq_getElem hk, Array.getElem?_eq_getElem hk', Option.some_inj] at hget

variable {b : ℕ}

section Sizes

variable [Zero T] [One T] [Sub T] [Mul T] [Div T] [BEq T]
variable [Zero R] [One R] [Neg R] [Mul R] [LT R] [DecidableLT R] [LE R] [DecidableLE R] [BEq R]
variable [Magnitude R] [Scalar T R]

omit [Mul R] [Magnitude R] in
/-- Every column step produces blocks of full size. -/
lemma size_clearColumns {row : ℕ} {tolerance : R} {columns : List ℕ} {m w : Array T}
    (hw : w.size = b * b) :
    (clearColumns b row tolerance columns m w).2.size = b * b := by
  induction columns generalizing m w with
  | nil => exact hw
  | cons c columns ih =>
    rw [clearColumns]
    split
    split
    · exact hw
    · exact ih (size_ofEntries b _)

/-- The inversion of a full block keeps its size, also when it fails. -/
lemma size_invert {row : ℕ} {a : Array T} (ha : a.size = b * b) :
    ((invert (R := R) b row).on a).2.size = b * b := by
  rw [invert, Update.on_ofFunction]
  split
  · exact ha
  split
  · exact ha
  · simp [zeros, ha]

omit [Mul R] [Magnitude R] in
/-- Only a vanishing pivot stops the elimination. -/
lemma clearColumns_result {row : ℕ} {tolerance : R} {columns : List ℕ} {m w : Array T} :
    (clearColumns b row tolerance columns m w).1 = .ok () ∨
      (clearColumns b row tolerance columns m w).1 = .error (.singularPivot row) := by
  induction columns generalizing m w with
  | nil => exact .inl rfl
  | cons c columns ih =>
    rw [clearColumns]
    split
    split
    · exact .inr rfl
    · exact ih

/-- The inversion of a full block succeeds or finds it singular. -/
lemma invert_result (row : ℕ) {a : Array T} (ha : a.size = b * b) :
    ((invert (R := R) b row).on a).1 = .ok () ∨
      ((invert (R := R) b row).on a).1 = .error (.singularPivot row) := by
  rw [invert, Update.on_ofFunction]
  split
  · exact .inr rfl
  split
  · omega
  · exact clearColumns_result

end Sizes

variable [Field T] [DecidableEq T] [Field R] [LinearOrder R] [Scalar T R] [Magnitude R]
variable [IsStrictOrderedRing R] [ExactScalar T R]

/-- A successful inversion answers the inverse from the left. -/
lemma toMatrix_invert_mul {row : ℕ} {a inverse : Array T} (ha : a.size = b * b)
    (run : (invert (R := R) b row).on a = (.ok (), inverse)) :
    toMatrix b inverse * toMatrix b a = 1 := by
  rw [invert, Update.on_ofFunction] at run
  split at run
  · simp at run
  split at run
  · simp at run
  · obtain ⟨hresult, hinverse⟩ := Prod.ext_iff.mp run
    simp only at hresult hinverse
    have hidentity : (identity b : Array T).size = b * b := size_ofEntries b _
    have hsize : (clearColumns b row (pivotTolerance b a) (List.range b) a
        (identity b)).2.size = b * b := size_clearColumns hidentity
    rw [overwrite_all (by rw [hsize, zeros, Array.size_replicate, ha])] at hinverse
    rw [List.range_eq_range'] at hresult hinverse
    exact (Cleared.run b 0 (Nat.zero_add b) (Cleared.start a)
      (Prod.ext hresult hinverse)).symm

/-- A successful inversion answers the inverse, from both sides. -/
theorem toMatrix_invert {row : ℕ} {a inverse : Array T} (ha : a.size = b * b)
    (run : (invert (R := R) b row).on a = (.ok (), inverse)) :
    toMatrix b inverse * toMatrix b a = 1 ∧ toMatrix b a * toMatrix b inverse = 1 := by
  have hleft := toMatrix_invert_mul ha run
  exact ⟨hleft, mul_eq_one_comm.mp hleft⟩

end Inversion

end DomainDecomposition.Block
