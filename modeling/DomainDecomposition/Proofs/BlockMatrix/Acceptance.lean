import DomainDecomposition.Proofs.BlockMatrix.ClearedRows
import DomainDecomposition.Proofs.BlockMatrix.Creation
import DomainDecomposition.Proofs.BlockMatrix.ValueSafety

/-!
# Which arrays make a matrix

`WellFormed` says of plain arrays that they are block rows in compressed form, without a word about
how this is checked, and `EntryOf` says which entries such arrays list. The constructor takes
exactly the well-formed arrays, and reports a fault of the others instead of reading outside of
them, although it cuts the columns with the very offsets that it checks.

`Finds` says that the places kept for the diagonal and the look-up of a block, which halves a row
until one column is left, find exactly the entries that the arrays list. Every matrix of the
constructor does (`ofValues_spec`).
-/

namespace DomainDecomposition.BlockMatrix

open Outcome

variable {T : Type} {blockSize rowCount columnCount : ℕ} {rowStart columns : Array ℕ}
variable {values : Array T}

/-! ## Block rows in compressed form -/

/-- Entry number `k` belongs to row `i` and has column `j`. -/
def EntryOf (rowStart columns : Array ℕ) (i k j : ℕ) : Prop :=
  ∃ start stop, rowStart[i]? = some start ∧ rowStart[i + 1]? = some stop ∧
    start ≤ k ∧ k < stop ∧ columns[k]? = some j

/-- Block rows in compressed form. -/
structure WellFormed (blockSize rowCount columnCount : ℕ) (rowStart columns : Array ℕ)
    (values : Array T) : Prop where
  blockSize_pos : 1 ≤ blockSize
  /-- One offset for each row and one behind the last row. -/
  size_rowStart : rowStart.size = rowCount + 1
  first : rowStart[0]? = some 0
  last : rowStart[rowCount]? = some columns.size
  monotone : rowStart.toList.Pairwise (· ≤ ·)
  /-- The columns of a row ascend strictly. -/
  ascending : ∀ i k l j j', EntryOf rowStart columns i k j → EntryOf rowStart columns i l j' →
    k < l → j < j'
  columns_lt : ∀ i k j, EntryOf rowStart columns i k j → j < columnCount
  size_values : values.size = columns.size * blockSize * blockSize

/-- The matrix finds the entries that its arrays list, and no others. -/
structure Finds (a : BlockMatrix T) : Prop where
  /-- The diagonal is there when the matrix is square and every row lists its diagonal entry. -/
  diagonal_isSome : a.diagonal?.isSome = true ↔ a.rowCount = a.columnCount ∧
    ∀ i < a.rowCount, ∃ k, EntryOf a.rowStart a.columns i k i
  /-- Then it holds one place for each row, the only one with that column. -/
  diagonal : ∀ d, a.diagonal? = some d → d.size = a.rowCount ∧
    ∀ i < a.rowCount, ∀ k, d[i]? = some k ↔ EntryOf a.rowStart a.columns i k i
  position : ∀ i j k, a.position? i j = some k ↔ EntryOf a.rowStart a.columns i k j
  block : ∀ i j block, a.block? i j = some block ↔
    ∃ k, EntryOf a.rowStart a.columns i k j ∧ a.storedBlock k = block
  /-- No access of a look-up leaves an array. -/
  read : ∀ i j, a.readBlock i j = .ok (a.block? i j)
  /-- Writing a block finds the same entries. -/
  write : ∀ i j block, block.size = a.blockSize * a.blockSize →
    ((setBlock i j block).on a).1 = .ok (a.block? i j).isSome

/-! ## The entries of a valid matrix -/

namespace Valid

variable {a : BlockMatrix T} (valid : a.Valid)

include valid

/-- Entries in terms of the total readers. -/
lemma entryOf_iff {i k j : ℕ} :
    EntryOf a.rowStart a.columns i k j ↔
      i < a.rowCount ∧ a.start i ≤ k ∧ k < a.start (i + 1) ∧ a.columns.getD k 0 = j := by
  constructor
  · rintro ⟨start, stop, hstart, hstop, low, high, column⟩
    have hi : i + 1 < a.rowStart.size := (Array.getElem?_eq_some_iff.mp hstop).1
    rw [valid.size_rowStart] at hi
    rw [valid.getElem?_rowStart (by omega), Option.some_inj] at hstart
    rw [valid.getElem?_rowStart (by omega), Option.some_inj] at hstop
    rw [Array.getD_eq_getD_getElem?, column]
    exact ⟨by omega, by omega, by omega, rfl⟩
  · rintro ⟨hi, low, high, rfl⟩
    have inside : k < a.columns.size := high.trans_le (valid.start_le_size (i := i + 1) hi)
    refine ⟨_, _, valid.getElem?_rowStart (Nat.le_of_lt hi),
      valid.getElem?_rowStart (i := i + 1) hi, low, high, ?_⟩
    rw [Array.getD_eq_getD_getElem?, Array.getElem?_eq_getElem inside, Option.getD_some]

/-- Looking a position up answers the entry there, if there is one. -/
lemma position?_iff_entryOf {i j k : ℕ} :
    a.position? i j = some k ↔ EntryOf a.rowStart a.columns i k j := by
  rw [valid.entryOf_iff]
  constructor
  · intro found
    exact valid.place_of_position? found
  · rintro ⟨hi, low, high, column⟩
    exact (valid.position?_eq_some_iff hi low high).mpr column

lemma stores_iff_entryOf {i j : ℕ} :
    a.Stores i j ↔ ∃ k, EntryOf a.rowStart a.columns i k j := by
  rw [Stores, Option.isSome_iff_exists]
  exact exists_congr fun k => valid.position?_iff_entryOf

lemma wellFormed :
    WellFormed a.blockSize a.rowCount a.columnCount a.rowStart a.columns a.values where
  blockSize_pos := valid.blockSize_pos
  size_rowStart := valid.size_rowStart
  first := by rw [valid.getElem?_rowStart (Nat.zero_le _), valid.start_zero]
  last := by rw [valid.getElem?_rowStart (Nat.le_refl _), valid.start_rowCount]
  monotone := by
    refine List.pairwise_iff_getElem.mpr fun i j hi hj hij => ?_
    rw [Array.length_toList, valid.size_rowStart] at hj
    have hread : ∀ t (ht : t < a.rowStart.toList.length), a.rowStart.toList[t] = a.start t := by
      intro t ht
      rw [Array.getElem_toList, start, Array.getD_eq_getD_getElem?, Array.getElem?_eq_getElem,
        Option.getD_some]
    rw [hread, hread]
    exact valid.start_mono (Nat.le_of_lt hij) (by omega)
  ascending := by
    intro i k l j j' entry entry' before
    obtain ⟨hi, low, high, rfl⟩ := valid.entryOf_iff.mp entry
    obtain ⟨-, low', high', rfl⟩ := valid.entryOf_iff.mp entry'
    have ascends := List.pairwise_iff_getElem.mp (valid.ascending i hi) (k - a.start i)
      (l - a.start i) (by rw [columnsOf, List.length_map, List.length_range']; omega)
      (by rw [columnsOf, List.length_map, List.length_range']; omega) (by omega)
    simpa [columnsOf, Nat.add_sub_cancel' low, Nat.add_sub_cancel' low'] using ascends
  columns_lt := by
    intro i k j entry
    have stored := valid.stores_iff_entryOf.mpr ⟨k, entry⟩
    exact valid.stores_column_lt stored
  size_values := by rw [valid.size_values, Nat.mul_assoc]

/-! ## What a valid matrix finds -/

lemma diagonal?_isSome_iff :
    a.diagonal?.isSome = true ↔ a.rowCount = a.columnCount ∧
      ∀ i < a.rowCount, ∃ k, EntryOf a.rowStart a.columns i k i := by
  rw [Option.isSome_iff_exists]
  constructor
  · rintro ⟨d, found⟩
    have has := valid.hasDiagonal_of_requireDiagonal (by rw [requireDiagonal, found])
    exact ⟨has.square, fun i hi => valid.stores_iff_entryOf.mp (has.stores_diagonal valid hi)⟩
  · rintro ⟨square, listed⟩
    have has := valid.hasDiagonal square fun i hi => valid.stores_iff_entryOf.mpr (listed i hi)
    exact ⟨a.diagonal, by rw [diagonal?, if_pos ⟨has.size_diagonal, square⟩]⟩

/-- The places that are kept for the diagonal. -/
lemma diagonal?_spec {d : Array ℕ} (found : a.diagonal? = some d) :
    d.size = a.rowCount ∧
      ∀ i < a.rowCount, ∀ k, d[i]? = some k ↔ EntryOf a.rowStart a.columns i k i := by
  have required : a.requireDiagonal = .ok d := by rw [requireDiagonal, found]
  have has := valid.hasDiagonal_of_requireDiagonal required
  obtain ⟨size, -, rfl⟩ := requireDiagonal_eq_ok.mp required
  refine ⟨size, fun i hi k => ?_⟩
  have kept : a.diagonal[i]? = some (a.diagonalOf i) :=
    Span.item_eq_ok.mp (has.item_diagonal hi)
  have listed := (valid.position?_eq_some_iff hi (has.start_le i hi) (has.lt_stop i hi)).mpr
    (has.column i hi)
  rw [← valid.position?_iff_entryOf, kept, listed]

lemma finds : a.Finds where
  diagonal_isSome := valid.diagonal?_isSome_iff
  diagonal := fun _ found => valid.diagonal?_spec found
  position := fun _ _ _ => valid.position?_iff_entryOf
  block := by
    intro i j block
    rw [block?, Option.map_eq_some_iff]
    exact exists_congr fun k => and_congr_left' valid.position?_iff_entryOf
  read := valid.readBlock_eq
  write := by
    intro i j block full
    rw [setBlock, Update.on_ofFunction, block?, Option.isSome_map]
    cases a.position? i j with
    | none => rfl
    | some k =>
      dsimp only
      rw [if_pos full]
      rfl

end Valid

/-! ## The constructor -/

namespace WellFormed

variable (formed : WellFormed blockSize rowCount columnCount rowStart columns values)

include formed

lemma getElem?_rowStart {i : ℕ} (hi : i ≤ rowCount) :
    rowStart[i]? = some (rowStart.getD i 0) :=
  Span.item_eq_ok.mp (item_start formed.size_rowStart hi)

lemma offset_le {i j : ℕ} (hij : i ≤ j) (hj : j ≤ rowCount) :
    rowStart.getD i 0 ≤ rowStart.getD j 0 := by
  rcases Nat.eq_or_lt_of_le hij with rfl | hij
  · exact Nat.le_refl _
  · obtain ⟨hi', hi⟩ := Array.getElem?_eq_some_iff.mp (formed.getElem?_rowStart (i := i) (by omega))
    obtain ⟨hj', hj⟩ := Array.getElem?_eq_some_iff.mp (formed.getElem?_rowStart hj)
    rw [← hi, ← hj]
    exact List.pairwise_iff_getElem.mp formed.monotone i j hi' hj' hij

lemma offset_rowCount : rowStart.getD rowCount 0 = columns.size :=
  Option.some_inj.mp ((formed.getElem?_rowStart (Nat.le_refl _)).symm.trans formed.last)

lemma offset_le_size {i : ℕ} (hi : i ≤ rowCount) : rowStart.getD i 0 ≤ columns.size := by
  rw [← formed.offset_rowCount]
  exact formed.offset_le hi (Nat.le_refl _)

/-- The columns of a row are read at the entries of the row. -/
lemma entryOf {i k : ℕ} (hi : i < rowCount) (low : rowStart.getD i 0 ≤ k)
    (high : k < rowStart.getD (i + 1) 0) : EntryOf rowStart columns i k (columns.getD k 0) := by
  have inside : k < columns.size := high.trans_le (formed.offset_le_size (i := i + 1) hi)
  refine ⟨_, _, formed.getElem?_rowStart (Nat.le_of_lt hi),
    formed.getElem?_rowStart (i := i + 1) hi, low, high, ?_⟩
  rw [Array.getD_eq_getD_getElem?, Array.getElem?_eq_getElem inside, Option.getD_some]

/-- Well-formed arrays and the places of their diagonal entries make a valid matrix. -/
lemma valid {diagonal : Array ℕ}
    (located : locateDiagonal rowCount columnCount rowStart columns = .ok diagonal) :
    Valid ({ blockSize, rowCount, columnCount, rowStart, columns, values, diagonal,
             invertedDiagonal := #[] } : BlockMatrix T) where
  blockSize_pos := formed.blockSize_pos
  size_rowStart := formed.size_rowStart
  start_zero :=
    Option.some_inj.mp ((formed.getElem?_rowStart (Nat.zero_le _)).symm.trans formed.first)
  start_rowCount := formed.offset_rowCount
  start_le := fun i hi => formed.offset_le (Nat.le_succ i) hi
  ascending := by
    intro i hi
    rw [columnsOf, List.pairwise_map]
    refine List.Pairwise.imp_of_mem (fun {k l} hk hl before => ?_) List.pairwise_lt_range'
    rw [List.mem_range'_1] at hk hl
    have entry := formed.entryOf hi hk.1 (by simp only [start] at hk; omega)
    have entry' := formed.entryOf hi hl.1 (by simp only [start] at hl; omega)
    exact formed.ascending i k l _ _ entry entry' before
  columns_lt := by
    intro i hi c member
    obtain ⟨k, hk, rfl⟩ := List.mem_map.mp member
    rw [List.mem_range'_1] at hk
    exact formed.columns_lt i k _ (formed.entryOf hi hk.1 (by simp only [start] at hk; omega))
  size_values := by rw [formed.size_values, Nat.mul_assoc]
  located := located

lemma exists_ofValues :
    ∃ a, ofValues blockSize rowCount columnCount rowStart columns values = .ok a := by
  obtain ⟨diagonal, located⟩ := exists_locateDiagonal columnCount _ formed.size_rowStart
    fun i hi => rowColumns_of_le formed.size_rowStart hi (formed.offset_le (Nat.le_succ i) hi)
      (formed.offset_le_size hi)
  exact ⟨_, ofValues_eq_ok.mpr ⟨formed.valid located, rfl⟩⟩

end WellFormed

/-- As long as the lengths of the row pointer and of the values are machine words, the constructor
takes exactly the arrays that are block rows in compressed form, and reports what is wrong with all
others. The matrix consists of the arrays, and finds exactly the entries that they list. -/
theorem ofValues_spec (blockSize rowCount columnCount : ℕ) (rowStart columns : Array ℕ)
    (values : Array T) (offsets : rowCount + 1 < Capacity.words)
    (scalars : columns.size * blockSize * blockSize < Capacity.words) :
    ((∃ a, ofValues blockSize rowCount columnCount rowStart columns values = .ok a) ↔
        WellFormed blockSize rowCount columnCount rowStart columns values) ∧
      (∀ e, ofValues blockSize rowCount columnCount rowStart columns values = .error e →
        (∃ fault, e = .config fault) ∨ ∃ expected found, e = .dimensionMismatch expected found) ∧
      ∀ a, ofValues blockSize rowCount columnCount rowStart columns values = .ok a →
        a = { blockSize, rowCount, columnCount, rowStart, columns, values,
              diagonal := a.diagonal, invertedDiagonal := #[] } ∧ a.Finds := by
  refine ⟨⟨?_, WellFormed.exists_ofValues⟩, fun e failed => ?_, fun a made => ?_⟩
  · rintro ⟨a, made⟩
    obtain ⟨valid, fields⟩ := ofValues_eq_ok.mp made
    have formed := valid.wellFormed
    rw [fields] at formed
    exact formed
  · have meets : Meets (fun e => (∃ fault, e = Error.config fault) ∨
          ∃ expected found, e = .dimensionMismatch expected found) Fresh
        (ofValues blockSize rowCount columnCount rowStart columns values) :=
      meets_ofValues (fun fault => .inl ⟨fault, rfl⟩) (fun vast => absurd offsets vast)
        (fun expected found => .inr ⟨expected, found, rfl⟩) fun full => absurd scalars full
    rw [failed] at meets
    exact meets
  · obtain ⟨valid, fields⟩ := ofValues_eq_ok.mp made
    exact ⟨fields, valid.finds⟩

/-- The arrow is made of its arrays, and finds its entries. -/
theorem arrow_finds :
    WellFormed 2 3 3 arrow.rowStart arrow.columns arrow.values ∧
      ofValues 2 3 3 arrow.rowStart arrow.columns arrow.values = .ok arrow ∧ arrow.Finds := by
  have made : ofValues 2 3 3 arrow.rowStart arrow.columns arrow.values = .ok arrow :=
    ofValues_eq_ok.mpr ⟨by decide +kernel, rfl⟩
  obtain ⟨accepted, -, finds⟩ := ofValues_spec 2 3 3 arrow.rowStart arrow.columns arrow.values
    (by decide) (by decide)
  exact ⟨accepted.mp ⟨arrow, made⟩, made, (finds arrow made).2⟩

/-- The greatest machine word is the number of rows. So there is no word for the length of their
pointer, and instead of a fault of the arrays the stop of the machine is reported. -/
theorem exists_ofValues_tooLarge :
    ¬∀ (blockSize rowCount columnCount : ℕ) (rowStart columns : Array ℕ) (values : Array ℚ) (e : Error),
      ofValues blockSize rowCount columnCount rowStart columns values = .error e →
      (∃ fault, e = .config fault) ∨ ∃ expected found, e = .dimensionMismatch expected found := by
  intro reported
  have failed : (ofValues 1 (2 ^ 64 - 1) 0 #[] #[] #[] : Except Error (BlockMatrix ℚ)) =
      .error .tooLarge := rfl
  rcases reported _ _ _ _ _ _ _ failed with ⟨fault, h⟩ | ⟨expected, found, h⟩
  · cases h
  · cases h

/-- A row pointer that passes the entries and comes back to their number. -/
example : ofValues 1 2 3 #[0, 5, 3] #[0, 1, 2] #[2, 1, 1] =
    (.error (.config (.rowPointerOrder 3 0)) : Except Error (BlockMatrix ℚ)) := rfl

end DomainDecomposition.BlockMatrix
