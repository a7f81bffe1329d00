import DomainDecomposition.Proofs.BlockMatrix.Valid
import DomainDecomposition.Proofs.Chunks

/-!
# Other values on the same pattern

The pattern of a matrix is fixed at construction, so an operation in place leaves `a.withValues v`:
the same pattern with other values. Validity and the diagonal depend on the pattern alone, and
writing the scalars of one row changes that row and no other (`rowEntries_writeRow`).
-/

namespace DomainDecomposition.BlockMatrix

variable {T : Type} {a : BlockMatrix T}

/-- The matrix with other values on its pattern. -/
def withValues (a : BlockMatrix T) (v : Array T) : BlockMatrix T :=
  { a with values := v }

lemma Valid.withValues (valid : a.Valid) {v : Array T} (size : v.size = a.values.size) :
    (a.withValues v).Valid where
  blockSize_pos := valid.blockSize_pos
  size_rowStart := valid.size_rowStart
  start_zero := valid.start_zero
  start_rowCount := valid.start_rowCount
  start_le := valid.start_le
  ascending := valid.ascending
  columns_lt := valid.columns_lt
  size_values := size.trans valid.size_values
  located := valid.located

lemma HasDiagonal.withValues (has : a.HasDiagonal) (v : Array T) :
    (a.withValues v).HasDiagonal where
  square := has.square
  size_diagonal := has.size_diagonal
  start_le := has.start_le
  lt_stop := has.lt_stop
  column := has.column

lemma storedBlock_eq_chunk (a : BlockMatrix T) (k : ℕ) :
    a.storedBlock k = Span.chunk (a.blockSize * a.blockSize) a.values k :=
  rfl

/-- Rows with the same columns and the same blocks. -/
lemma rowEntries_congr {v : Array T} {i : ℕ}
    (h : ∀ k, a.start i ≤ k → k < a.start (i + 1) →
      (a.withValues v).storedBlock k = a.storedBlock k) :
    (a.withValues v).rowEntries i = a.rowEntries i := by
  refine List.map_congr_left fun k hk => ?_
  rw [List.mem_range'_1] at hk
  exact Prod.ext rfl (h k hk.1 (by
    have : (a.withValues v).start (i + 1) = a.start (i + 1) := rfl
    have : (a.withValues v).start i = a.start i := rfl
    omega))

/-- Writing the scalars of a row over row `i` puts that row there and keeps all others. -/
lemma rowEntries_writeRow (valid : a.Valid) {i : ℕ} (hi : i < a.rowCount) {row : Entries T}
    (columns : row.columns = a.columnsOf i)
    (full : ∀ e ∈ row, e.2.size = a.blockSize * a.blockSize) {r : ℕ} (hr : r < a.rowCount) :
    (a.withValues (Span.overwrite a.values (a.start i * (a.blockSize * a.blockSize))
      row.scalars)).rowEntries r = if r = i then row else a.rowEntries r := by
  have hlength : row.length = a.start (i + 1) - a.start i := by
    rw [← Entries.length_columns, columns, columnsOf, List.length_map, List.length_range']
  have hle := valid.start_le i hi
  have hlast := valid.start_le_size (i := i + 1) hi
  have hwritten : ∀ k, (a.withValues (Span.overwrite a.values
      (a.start i * (a.blockSize * a.blockSize)) row.scalars)).storedBlock k =
      if a.start i ≤ k ∧ k < a.start i + row.length then
        Span.chunk (a.blockSize * a.blockSize) row.scalars (k - a.start i)
      else a.storedBlock k := by
    intro k
    rw [storedBlock_eq_chunk, storedBlock_eq_chunk]
    refine Span.chunk_overwrite (Entries.size_scalars full) ?_ k
    rw [valid.size_values]
    exact Nat.mul_le_mul_right _ (by omega)
  by_cases hri : r = i
  · -- row `i` is read back entry by entry
    subst hri
    rw [if_pos rfl]
    apply List.ext_getElem
    · rw [length_rowEntries, hlength]
      rfl
    · intro k hk hk'
      have hget : ((a.withValues (Span.overwrite a.values
          (a.start r * (a.blockSize * a.blockSize)) row.scalars)).rowEntries r)[k] =
          (a.columns.getD (a.start r + k) 0, (a.withValues (Span.overwrite a.values
            (a.start r * (a.blockSize * a.blockSize)) row.scalars)).storedBlock (a.start r + k)) := by
        simp only [rowEntries, List.getElem_map, List.getElem_range', Nat.one_mul]
        rfl
      rw [hget, hwritten, if_pos (by omega), Nat.add_sub_cancel_left,
        Entries.chunk_scalars full hk']
      refine Prod.ext ?_ rfl
      have hcolumn := congrArg (·[k]?) columns
      simp only [Entries.columns, columnsOf, List.getElem?_map, List.getElem?_eq_getElem hk',
        List.getElem?_range' (show k < a.start (r + 1) - a.start r by omega), Option.map_some,
        Option.some_inj, Nat.one_mul] at hcolumn
      exact hcolumn.symm
  · -- the entries of another row lie before or behind
    rw [if_neg hri]
    refine rowEntries_congr fun k hlow hhigh => ?_
    rw [hwritten, if_neg]
    rintro ⟨hk, hk'⟩
    rcases Nat.lt_or_gt_of_ne hri with h | h
    · have := valid.start_mono (i := r + 1) (j := i) h (Nat.le_of_lt hi)
      omega
    · have := valid.start_mono (i := i + 1) (j := r) h (Nat.le_of_lt hr)
      omega

end DomainDecomposition.BlockMatrix
