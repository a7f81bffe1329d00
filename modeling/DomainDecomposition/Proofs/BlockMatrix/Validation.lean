import DomainDecomposition.Proofs.BlockMatrix.WithValues
import DomainDecomposition.Proofs.Offsets
import DomainDecomposition.Proofs.Scalar.Rational
import Mathlib.Algebra.BigOperators.Group.List.Lemmas
import Mathlib.Data.List.Chain

/-!
# What the constructor checks

A matrix is valid exactly when its fields pass the checks of the constructor (`valid_iff`), so
`Valid` is what every constructed matrix satisfies and nothing more (`ofValues_eq_ok`).

A pattern is often given row by row. The offsets of such rows are the sums of the lengths before
(`Offsets.getElem?_ofLengths`), and the rows can be read back (`columnsOf_ofRows`), so sorted rows
in range make a valid matrix (`ofValues_ofRows`).
-/

namespace DomainDecomposition

open Outcome

namespace BlockMatrix

variable {T : Type}

/-! ## The checks -/

lemma strictlyAscending_iff {columns : List ℕ} :
    strictlyAscending columns = true ↔ columns.Pairwise (· < ·) := by
  rw [← List.isChain_iff_pairwise]
  fun_induction strictlyAscending columns with
  | case1 i j rest ih => rw [Bool.and_eq_true, ih, List.isChain_cons_cons, decide_eq_true_iff]
  | case2 columns short =>
    match columns, short with
    | [], _ => simp
    | [_], _ => simp
    | i :: j :: rest, short => exact absurd rfl (short i j rest)

/-- In an ascending row it is enough to look at the last column. -/
lemma columns_lt_iff {columns : List ℕ} {n : ℕ} (ascending : columns.Pairwise (· < ·)) :
    columns.getLast?.any (n ≤ ·) = false ↔ ∀ c ∈ columns, c < n := by
  induction columns using List.reverseRecOn with
  | nil => simp
  | append_singleton columns last _ =>
    rw [List.getLast?_concat, Option.any_some, decide_eq_false_iff_not, Nat.not_le]
    have hbefore := (List.pairwise_append.mp ascending).2.2
    constructor
    · intro hlast c hc
      rcases List.mem_append.mp hc with h | h
      · exact (hbefore c h last List.mem_cons_self).trans hlast
      · rw [List.mem_singleton.mp h]
        exact hlast
    · intro h
      exact h last (List.mem_append_right _ List.mem_cons_self)

lemma checkEnds_eq_ok {rowCount : ℕ} {rowStart columns : Array ℕ} :
    checkEnds rowCount rowStart columns = .ok () ↔
      rowStart.size = rowCount + 1 ∧ rowStart[0]? = some 0 ∧
        rowStart[rowCount]? = some columns.size := by
  dsimp only [checkEnds]
  rw [bind_eq_ok]
  constructor
  · rintro ⟨⟨⟩, size, ends⟩
    exact ⟨(Capacity.compare_eq_ok_iff.mp size).symm, ite_eq_ok.mp ends⟩
  · rintro ⟨size, ends⟩
    exact ⟨(), Capacity.compare_eq_ok_iff.mpr size.symm, ite_eq_ok.mpr ends⟩

/-- The total reader of the row pointer. -/
lemma item_start {rowCount : ℕ} {rowStart : Array ℕ} (size : rowStart.size = rowCount + 1)
    {i : ℕ} (hi : i ≤ rowCount) : Span.item rowStart i = .ok (rowStart.getD i 0) :=
  item_eq_getD (by rw [size]; omega)

lemma checkOrder_eq_ok {rowCount : ℕ} {rowStart columns : Array ℕ}
    (size : rowStart.size = rowCount + 1) :
    checkOrder rowCount rowStart columns = .ok () ↔
      ∀ i < rowCount, rowStart.getD i 0 ≤ rowStart.getD (i + 1) 0 ∧
        rowStart.getD (i + 1) 0 ≤ columns.size := by
  rw [checkOrder, forM_eq_ok]
  refine forall_congr' fun i => ?_
  rw [List.mem_range]
  refine imp_congr_right fun hi => ?_
  rw [item_start size (Nat.le_of_lt hi), ok_bind, item_start size (i := i + 1) hi, ok_bind,
    ite_eq_ok]

/-- The columns of a row between offsets in order. -/
lemma rowColumns_of_le {rowCount : ℕ} {rowStart columns : Array ℕ}
    (size : rowStart.size = rowCount + 1) {i : ℕ} (hi : i < rowCount)
    (hle : rowStart.getD i 0 ≤ rowStart.getD (i + 1) 0)
    (hinside : rowStart.getD (i + 1) 0 ≤ columns.size) :
    rowColumns rowStart columns i =
      .ok ((List.range' (rowStart.getD i 0)
        (rowStart.getD (i + 1) 0 - rowStart.getD i 0)).map fun k => columns.getD k 0) := by
  rw [rowColumns, item_start size (Nat.le_of_lt hi), ok_bind, item_start size (i := i + 1) hi,
    ok_bind, Span.between, if_pos hle, Span.run, if_pos (by omega), ok_bind, pure_eq,
    Nat.add_sub_cancel' hle, toList_extract hinside]

lemma checkRow_eq_ok {columnCount : ℕ} {rowStart columns : Array ℕ} {i : ℕ} {row : List ℕ}
    (read : rowColumns rowStart columns i = .ok row) :
    checkRow columnCount rowStart columns i = .ok () ↔
      row.Pairwise (· < ·) ∧ ∀ c ∈ row, c < columnCount := by
  rw [checkRow, read, ok_bind]
  by_cases hsorted : strictlyAscending row
  · have ascending := strictlyAscending_iff.mp hsorted
    rw [← columns_lt_iff ascending]
    cases hlast : row.getLast?.any (columnCount ≤ ·) with
    | true => simp [hsorted]
    | false => simpa [hsorted] using ascending
  · have hnot : ¬ row.Pairwise (· < ·) := fun h => hsorted (strictlyAscending_iff.mpr h)
    simp [hsorted, hnot]

lemma checkLength_eq_ok {expected found : ℕ} :
    checkLength expected found = .ok () ↔ expected = found := by
  rw [checkLength, ite_eq_ok]

/-- All that is checked of a pattern. -/
lemma checkPattern_eq_ok {blockSize rowCount columnCount : ℕ} {rowStart columns : Array ℕ} :
    checkPattern blockSize rowCount columnCount rowStart columns = .ok () ↔
      0 < blockSize ∧ checkEnds rowCount rowStart columns = .ok () ∧
        checkOrder rowCount rowStart columns = .ok () ∧
        ∀ i < rowCount, checkRow columnCount rowStart columns i = .ok () := by
  have hrows : (List.range rowCount).forM (checkRow columnCount rowStart columns) = .ok () ↔
      ∀ i < rowCount, checkRow columnCount rowStart columns i = .ok () := by
    rw [forM_eq_ok]
    simp only [List.mem_range]
  rw [checkPattern]
  by_cases hpos : blockSize = 0
  · simp [hpos]
  · rw [if_neg hpos]
    show (checkEnds rowCount rowStart columns >>= fun _ => _) = .ok () ↔ _
    rw [bind_eq_ok]
    constructor
    · rintro ⟨⟨⟩, hends, rest⟩
      obtain ⟨⟨⟩, horder, hrest⟩ := bind_eq_ok.mp rest
      exact ⟨Nat.pos_of_ne_zero hpos, hends, horder, hrows.mp hrest⟩
    · rintro ⟨-, hends, horder, hrest⟩
      refine ⟨⟨⟩, hends, ?_⟩
      rw [horder, ok_bind, hrows.mpr hrest]

/-- A matrix is valid exactly when its fields pass the checks. -/
theorem valid_iff {a : BlockMatrix T} :
    a.Valid ↔
      checkPattern a.blockSize a.rowCount a.columnCount a.rowStart a.columns = .ok () ∧
        checkSize (a.columns.size * a.blockSize * a.blockSize) a.values.size = .ok () ∧
        locateDiagonal a.rowCount a.columnCount a.rowStart a.columns = .ok a.diagonal := by
  rw [checkPattern_eq_ok, checkEnds_eq_ok, checkSize_eq_ok]
  constructor
  · intro valid
    have hzero := valid.getElem?_rowStart (Nat.zero_le _)
    have hlast := valid.getElem?_rowStart (Nat.le_refl _)
    rw [valid.start_zero] at hzero
    rw [valid.start_rowCount] at hlast
    refine ⟨⟨valid.blockSize_pos, ⟨valid.size_rowStart, hzero, hlast⟩, ?_, ?_⟩, ?_, valid.located⟩
    · rw [checkOrder_eq_ok valid.size_rowStart]
      exact fun i hi => ⟨valid.start_le i hi, valid.start_le_size (i := i + 1) hi⟩
    · intro i hi
      rw [checkRow_eq_ok (valid.rowColumns_eq hi)]
      exact ⟨valid.ascending i hi, valid.columns_lt i hi⟩
    · rw [valid.size_values, Nat.mul_assoc]
  · rintro ⟨⟨hpos, ⟨hsize, hzero, hlast⟩, horder, hrows⟩, hlength, hlocated⟩
    rw [checkOrder_eq_ok hsize] at horder
    have hrow := fun i hi =>
      (checkRow_eq_ok (rowColumns_of_le hsize hi (horder i hi).1 (horder i hi).2)).mp (hrows i hi)
    exact {
      blockSize_pos := hpos
      size_rowStart := hsize
      start_zero := by simp [start, Array.getD_eq_getD_getElem?, hzero]
      start_rowCount := by simp [start, Array.getD_eq_getD_getElem?, hlast]
      start_le := fun i hi => (horder i hi).1
      ascending := fun i hi => (hrow i hi).1
      columns_lt := fun i hi => (hrow i hi).2
      size_values := by rw [← hlength, Nat.mul_assoc]
      located := hlocated }

instance (a : BlockMatrix T) : Decidable a.Valid :=
  decidable_of_iff _ valid_iff.symm

/-- An arrow of `2 × 2` blocks, which lacks the positions `(1, 2)` and `(2, 1)`. -/
def arrow : BlockMatrix ℚ where
  blockSize := 2
  rowCount := 3
  columnCount := 3
  rowStart := #[0, 3, 5, 7]
  columns := #[0, 1, 2, 0, 1, 0, 2]
  values := #[0, 2, 1, 0, 1, 1, 0, 1, 1, 0, 2, 1, 1, 2, 0, 1, 5, 1, 1, 4, 2, 0, 1, 1, 7, 0, 1, 6]
  diagonal := #[0, 4, 6]
  invertedDiagonal := #[]

example : arrow.Valid := by decide +kernel

/-- The constructor accepts exactly the arrays of a valid matrix. -/
theorem ofValues_eq_ok {blockSize rowCount columnCount : ℕ} {rowStart columns : Array ℕ}
    {values : Array T} {a : BlockMatrix T} :
    ofValues blockSize rowCount columnCount rowStart columns values = .ok a ↔
      a.Valid ∧ a = { blockSize, rowCount, columnCount, rowStart, columns, values,
                      diagonal := a.diagonal, invertedDiagonal := #[] } := by
  constructor
  · intro h
    rw [ofValues] at h
    obtain ⟨⟨⟩, hpattern, h⟩ := bind_eq_ok.mp h
    obtain ⟨⟨⟩, hlength, h⟩ := bind_eq_ok.mp h
    obtain ⟨diagonal, hdiagonal, h⟩ := bind_eq_ok.mp h
    have ha := Except.ok.inj h
    subst ha
    exact ⟨valid_iff.mpr ⟨hpattern, hlength, hdiagonal⟩, rfl⟩
  · rintro ⟨valid, fields⟩
    obtain ⟨hpattern, hlength, hdiagonal⟩ := valid_iff.mp valid
    rw [fields] at hpattern hlength hdiagonal
    rw [ofValues, hpattern, ok_bind, hlength, ok_bind, hdiagonal, ok_bind, pure_eq, fields]

/-! ## Patterns given row by row -/

section Rows

variable {rows : List (List ℕ)}

lemma start_ofRows {i : ℕ} (hi : i ≤ rows.length) :
    (Offsets.ofLengths (rows.map List.length)).getD i 0 =
      ((rows.map List.length).take i).sum := by
  rw [Array.getD_eq_getD_getElem?, Offsets.getElem?_ofLengths (by rwa [List.length_map]),
    Option.getD_some]

/-- The rows can be read back from the offsets and the columns one behind the other. -/
lemma rowColumns_ofRows {i : ℕ} (hi : i < rows.length) :
    rowColumns (Offsets.ofLengths (rows.map List.length)) rows.flatten.toArray i =
      .ok rows[i] := by
  have hnext : ((rows.map List.length).take (i + 1)).sum =
      ((rows.map List.length).take i).sum + rows[i].length := by
    rw [List.take_succ_eq_append_getElem (by rwa [List.length_map]), List.sum_append,
      List.sum_singleton, List.getElem_map]
  have hsize : (Offsets.ofLengths (rows.map List.length)).size = rows.length + 1 := by
    rw [Offsets.size_ofLengths, List.length_map]
  have hinside : ((rows.map List.length).take (i + 1)).sum ≤ rows.flatten.toArray.size := by
    rw [List.size_toArray, List.length_flatten]
    exact List.Sublist.sum_le_sum (List.take_sublist _ _) fun _ _ => Nat.zero_le _
  have hstart := start_ofRows (Nat.le_of_lt hi)
  have hstop := start_ofRows (i := i + 1) hi
  rw [rowColumns_of_le hsize hi (by rw [hstart, hstop, hnext]; exact Nat.le_add_right _ _)
    (by rw [hstop]; exact hinside), hstart, hstop, ← toList_extract hinside,
    Array.toList_extract, List.extract_eq_take_drop, List.take_drop,
    Nat.add_sub_cancel' (by rw [hnext]; exact Nat.le_add_right _ _)]
  exact congrArg _ (List.drop_take_succ_flatten_eq_getElem rows i hi)

/-- Where every row can be read, the diagonal entries can be looked for. -/
lemma exists_locateDiagonal {rowCount : ℕ} (columnCount : ℕ) {rowStart columns : Array ℕ}
    (row : ℕ → List ℕ) (size : rowStart.size = rowCount + 1)
    (read : ∀ i < rowCount, rowColumns rowStart columns i = .ok (row i)) :
    ∃ diagonal, locateDiagonal rowCount columnCount rowStart columns = .ok diagonal := by
  rw [locateDiagonal]
  split
  · exact ⟨#[], rfl⟩
  · have hfound : (List.range rowCount).mapM (fun i => do
        let start ← Span.item rowStart i
        let row ← rowColumns rowStart columns i
        return (Bisection.search row.toArray i).map (start + ·)) =
          .ok ((List.range rowCount).map fun i =>
            (Bisection.search (row i).toArray i).map (rowStart.getD i 0 + ·)) := by
      refine mapM_eq_ok fun i member => ?_
      have hi := List.mem_range.mp member
      rw [item_start size (Nat.le_of_lt hi), ok_bind, read i hi, ok_bind, pure_eq]
    rw [hfound]
    exact ⟨_, rfl⟩

/-- Sorted rows in range make a valid matrix with these rows. -/
lemma ofValues_ofRows {blockSize columnCount : ℕ} {values : Array T} (pos : 0 < blockSize)
    (ascending : ∀ row ∈ rows, row.Pairwise (· < ·))
    (below : ∀ row ∈ rows, ∀ c ∈ row, c < columnCount)
    (size : values.size = rows.flatten.length * (blockSize * blockSize)) :
    ∃ a : BlockMatrix T,
      ofValues blockSize rows.length columnCount (Offsets.ofLengths (rows.map List.length))
        rows.flatten.toArray values = .ok a ∧ a.Valid ∧ a.blockSize = blockSize ∧
      a.rowCount = rows.length ∧ a.columnCount = columnCount ∧ a.values = values ∧
      ∀ (i : ℕ) (hi : i < rows.length), a.columnsOf i = rows[i] := by
  have hsize : (Offsets.ofLengths (rows.map List.length)).size = rows.length + 1 := by
    rw [Offsets.size_ofLengths, List.length_map]
  obtain ⟨diagonal, hdiagonal⟩ := exists_locateDiagonal columnCount
    (fun i => rows[i]?.getD []) hsize fun i hi => by
      rw [rowColumns_ofRows hi, List.getElem?_eq_getElem hi, Option.getD_some]
  have hlast : (Offsets.ofLengths (rows.map List.length))[rows.length]? =
      some rows.flatten.toArray.size := by
    rw [Offsets.getElem?_ofLengths (by rw [List.length_map]), List.size_toArray,
      List.length_flatten, List.take_of_length_le (by rw [List.length_map])]
  have hzero : (Offsets.ofLengths (rows.map List.length))[0]? = some 0 :=
    Offsets.getElem?_ofLengths (Nat.zero_le _)
  have horder : ∀ i < rows.length,
      (Offsets.ofLengths (rows.map List.length)).getD i 0 ≤
        (Offsets.ofLengths (rows.map List.length)).getD (i + 1) 0 ∧
      (Offsets.ofLengths (rows.map List.length)).getD (i + 1) 0 ≤ rows.flatten.toArray.size := by
    intro i hi
    rw [start_ofRows (Nat.le_of_lt hi), start_ofRows (i := i + 1) hi, List.size_toArray,
      List.length_flatten]
    exact ⟨List.Sublist.sum_le_sum (List.take_sublist_take_left (Nat.le_succ i))
        fun _ _ => Nat.zero_le _,
      List.Sublist.sum_le_sum (List.take_sublist _ _) fun _ _ => Nat.zero_le _⟩
  set a : BlockMatrix T := {
    blockSize
    rowCount := rows.length
    columnCount
    rowStart := Offsets.ofLengths (rows.map List.length)
    columns := rows.flatten.toArray
    values
    diagonal
    invertedDiagonal := #[] } with ha
  have valid : a.Valid := by
    refine valid_iff.mpr ⟨checkPattern_eq_ok.mpr ⟨pos, checkEnds_eq_ok.mpr ⟨hsize, hzero, hlast⟩,
      (checkOrder_eq_ok hsize).mpr horder, fun i hi => ?_⟩, checkSize_eq_ok.mpr ?_, hdiagonal⟩
    · exact (checkRow_eq_ok (rowColumns_ofRows hi)).mpr
        ⟨ascending _ (List.getElem_mem hi), below _ (List.getElem_mem hi)⟩
    · rw [ha]
      simp only
      rw [size, List.size_toArray, Nat.mul_assoc]
  refine ⟨a, ofValues_eq_ok.mpr ⟨valid, rfl⟩, valid, rfl, rfl, rfl, rfl, fun i hi => ?_⟩
  have hread := valid.rowColumns_eq (i := i) hi
  rw [ha] at hread
  simp only at hread
  rw [rowColumns_ofRows hi] at hread
  exact (Except.ok.inj hread).symm

end Rows

end BlockMatrix

end DomainDecomposition
