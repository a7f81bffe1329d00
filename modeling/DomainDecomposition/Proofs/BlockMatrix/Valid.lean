import DomainDecomposition.BlockMatrix.Basic
import DomainDecomposition.Proofs.BlockMatrix.Entries
import DomainDecomposition.Proofs.Outcome

/-!
# Valid matrices and their rows

`BlockMatrix.Valid` says what a matrix in compressed rows has to satisfy, in terms of total readers:
`start` for the row pointer, `columnsOf` and `rowEntries` for the rows, `storedBlock` for the
blocks. On a valid matrix the checked reads of a `View` and the look-up of a block never fail, and
answer what the total readers say:

* `Valid.view_row`, `HasDiagonal.view_rightOfDiagonal`, `HasDiagonal.view_diagonalBlock`,
* `Valid.block?_eq_lookup`: looking a block up is looking its column up in the row.

A matrix that has its diagonal (`HasDiagonal`) is square and stores every diagonal block, so that
its rows fall into a left part, a diagonal block and a right part (`HasDiagonal.rowEntries_eq`).
-/

namespace DomainDecomposition.BlockMatrix

open Outcome

variable {T : Type}

/-! ## Total readers -/

/-- Number of the first entry of row `i`. -/
def start (a : BlockMatrix T) (i : ℕ) : ℕ :=
  a.rowStart.getD i 0

/-- Number of the diagonal entry of row `i`. -/
def diagonalOf (a : BlockMatrix T) (i : ℕ) : ℕ :=
  a.diagonal.getD i 0

/-- The columns of row `i`. -/
def columnsOf (a : BlockMatrix T) (i : ℕ) : List ℕ :=
  (List.range' (a.start i) (a.start (i + 1) - a.start i)).map fun k => a.columns.getD k 0

/-- Block number `k`. -/
def storedBlock (a : BlockMatrix T) (k : ℕ) : Array T :=
  a.values.extract (k * (a.blockSize * a.blockSize)) ((k + 1) * (a.blockSize * a.blockSize))

/-- Entry number `k`. -/
def entryAt (a : BlockMatrix T) (k : ℕ) : ℕ × Array T :=
  (a.columns.getD k 0, a.storedBlock k)

/-- The entries of row `i`. -/
def rowEntries (a : BlockMatrix T) (i : ℕ) : Entries T :=
  (List.range' (a.start i) (a.start (i + 1) - a.start i)).map a.entryAt

/-- The entries of row `i` left of the diagonal. -/
def leftEntries (a : BlockMatrix T) (i : ℕ) : Entries T :=
  (List.range' (a.start i) (a.diagonalOf i - a.start i)).map a.entryAt

/-- The entries of row `i` right of the diagonal. -/
def rightEntries (a : BlockMatrix T) (i : ℕ) : Entries T :=
  (List.range' (a.diagonalOf i + 1) (a.start (i + 1) - (a.diagonalOf i + 1))).map a.entryAt

/-- The diagonal block of row `i`. -/
def diagonalBlock (a : BlockMatrix T) (i : ℕ) : Array T :=
  a.storedBlock (a.diagonalOf i)

/-- The matrix stores a block in row `i` and column `j`. -/
def Stores (a : BlockMatrix T) (i j : ℕ) : Prop :=
  (a.position? i j).isSome

instance (a : BlockMatrix T) (i j : ℕ) : Decidable (a.Stores i j) :=
  inferInstanceAs (Decidable (_ = true))

/-- The block in row `i` and column `j` as a matrix, zero where none is stored. -/
def coeff [Zero T] (b : ℕ) (a : BlockMatrix T) (i j : ℕ) : Matrix (Fin b) (Fin b) T :=
  (a.block? i j).elim 0 (Block.toMatrix b)

/-- What the kernels rely on: the row pointer runs from zero to the number of entries without a
descent, the columns of every row ascend strictly and stay in range, and the values fill the stored
blocks exactly. The positions of the diagonal entries are those that the pattern has. -/
structure Valid (a : BlockMatrix T) : Prop where
  blockSize_pos : 0 < a.blockSize
  size_rowStart : a.rowStart.size = a.rowCount + 1
  start_zero : a.start 0 = 0
  start_rowCount : a.start a.rowCount = a.columns.size
  start_le : ∀ i < a.rowCount, a.start i ≤ a.start (i + 1)
  ascending : ∀ i < a.rowCount, (a.columnsOf i).Pairwise (· < ·)
  columns_lt : ∀ i < a.rowCount, ∀ c ∈ a.columnsOf i, c < a.columnCount
  size_values : a.values.size = a.columns.size * (a.blockSize * a.blockSize)
  located : locateDiagonal a.rowCount a.columnCount a.rowStart a.columns = .ok a.diagonal

/-- Square, with every diagonal block stored at the position that is kept for it. -/
structure HasDiagonal (a : BlockMatrix T) : Prop where
  square : a.rowCount = a.columnCount
  size_diagonal : a.diagonal.size = a.rowCount
  start_le : ∀ i < a.rowCount, a.start i ≤ a.diagonalOf i
  lt_stop : ∀ i < a.rowCount, a.diagonalOf i < a.start (i + 1)
  column : ∀ i < a.rowCount, a.columns.getD (a.diagonalOf i) 0 = i

/-! ## Reading checked arrays -/

lemma item_eq_getD {xs : Array ℕ} {i : ℕ} (h : i < xs.size) :
    Span.item xs i = .ok (xs.getD i 0) := by
  rw [Span.item_eq_ok, Array.getD_eq_getD_getElem?, Array.getElem?_eq_getElem h, Option.getD_some]

/-- A run of an array lists its entries. -/
lemma toList_extract {xs : Array ℕ} {first last : ℕ} (h : last ≤ xs.size) :
    (xs.extract first last).toList =
      (List.range' first (last - first)).map fun k => xs.getD k 0 := by
  apply List.ext_getElem
  · simp only [Array.length_toList, Array.size_extract, List.length_map, List.length_range']
    omega
  · intro k hk hk'
    simp only [Array.length_toList, Array.size_extract] at hk
    have hget : first + k < xs.size := by omega
    simp [Array.getD_eq_getD_getElem?, hget]

lemma columns_rowEntries (a : BlockMatrix T) (i : ℕ) :
    (a.rowEntries i).columns = a.columnsOf i := by
  rw [rowEntries, Entries.columns, List.map_map]
  rfl

lemma length_rowEntries (a : BlockMatrix T) (i : ℕ) :
    (a.rowEntries i).length = a.start (i + 1) - a.start i := by
  rw [rowEntries, List.length_map, List.length_range']

namespace Valid

variable {a : BlockMatrix T}

/-! ## Offsets -/

lemma start_mono (valid : a.Valid) {i j : ℕ} (hij : i ≤ j) (hj : j ≤ a.rowCount) :
    a.start i ≤ a.start j := by
  induction j, hij using Nat.le_induction with
  | base => exact Nat.le_refl _
  | succ j _ ih => exact (ih (by omega)).trans (valid.start_le j (by omega))

lemma start_le_size (valid : a.Valid) {i : ℕ} (hi : i ≤ a.rowCount) :
    a.start i ≤ a.columns.size := by
  rw [← valid.start_rowCount]
  exact valid.start_mono hi (Nat.le_refl _)

lemma item_rowStart (valid : a.Valid) {i : ℕ} (hi : i ≤ a.rowCount) :
    Span.item a.rowStart i = .ok (a.start i) :=
  item_eq_getD (by rw [valid.size_rowStart]; omega)

lemma getElem?_rowStart (valid : a.Valid) {i : ℕ} (hi : i ≤ a.rowCount) :
    a.rowStart[i]? = some (a.start i) :=
  Span.item_eq_ok.mp (valid.item_rowStart hi)

/-- Reading the columns of a row. -/
lemma rowColumns_eq (valid : a.Valid) {i : ℕ} (hi : i < a.rowCount) :
    rowColumns a.rowStart a.columns i = .ok (a.columnsOf i) := by
  have hle := valid.start_le i hi
  have hsize := valid.start_le_size (i := i + 1) hi
  rw [rowColumns, valid.item_rowStart (Nat.le_of_lt hi), ok_bind,
    valid.item_rowStart (i := i + 1) hi, ok_bind, Span.between, if_pos hle, Span.run,
    if_pos (by omega), ok_bind, pure_eq]
  rw [show a.start i + (a.start (i + 1) - a.start i) = a.start (i + 1) by omega,
    toList_extract hsize]
  rfl

/-! ## Blocks and rows -/

lemma size_storedBlock (valid : a.Valid) {k : ℕ} (hk : k < a.columns.size) :
    (a.storedBlock k).size = a.blockSize * a.blockSize := by
  have hle := Nat.mul_le_mul_right (a.blockSize * a.blockSize) (show k + 1 ≤ a.columns.size from hk)
  rw [storedBlock, Array.size_extract, valid.size_values, Nat.min_eq_left hle, Nat.succ_mul]
  omega

lemma view_block (valid : a.Valid) {k : ℕ} (hk : k < a.columns.size) :
    a.view.block k = .ok (a.storedBlock k) := by
  have hle := Nat.mul_le_mul_right (a.blockSize * a.blockSize) (show k + 1 ≤ a.columns.size from hk)
  rw [← valid.size_values, Nat.succ_mul] at hle
  rw [View.block, Span.run_eq_ok]
  refine ⟨hle, ?_⟩
  rw [storedBlock, Nat.succ_mul]
  rfl

/-- A run of entries. -/
lemma view_entries (valid : a.Valid) {first last : ℕ} (h : last ≤ a.columns.size) :
    a.view.entries first last = .ok ((List.range' first (last - first)).map a.entryAt) := by
  refine Walk.collect_eq_ok fun k _ hk => ?_
  have hsize : k < a.columns.size := by omega
  rw [View.entry, show a.view.columns = a.columns from rfl, item_eq_getD hsize, ok_bind,
    valid.view_block hsize, ok_bind]
  rfl

lemma view_row (valid : a.Valid) {i : ℕ} (hi : i < a.rowCount) :
    a.view.row i = .ok (a.rowEntries i) := by
  rw [View.row, show a.view.rowStart = a.rowStart from rfl,
    valid.item_rowStart (Nat.le_of_lt hi), ok_bind, valid.item_rowStart (i := i + 1) hi, ok_bind,
    valid.view_entries (valid.start_le_size (i := i + 1) hi)]
  rfl

lemma regular (valid : a.Valid) {i : ℕ} (hi : i < a.rowCount) :
    (a.rowEntries i).Regular a.blockSize where
  ascending := by rw [columns_rowEntries]; exact valid.ascending i hi
  full := by
    intro e member
    rw [rowEntries, List.mem_map] at member
    obtain ⟨k, hk, rfl⟩ := member
    rw [List.mem_range'_1] at hk
    have := valid.start_le_size (i := i + 1) hi
    exact valid.size_storedBlock (by omega)

/-! ## Looking up -/

/-- Among ascending numbers, the halving finds what a search from one end finds. -/
lemma search_toArray {columns : List ℕ} (ascending : columns.Pairwise (· < ·)) (j : ℕ) :
    Bisection.search columns.toArray j = columns.findIdx? (· == j) := by
  refine Option.ext fun k => ?_
  rw [Bisection.search_eq_some_iff ascending, List.getElem?_toArray,
    List.findIdx?_eq_some_iff_getElem]
  constructor
  · intro stored
    obtain ⟨hk, rfl⟩ := List.getElem?_eq_some_iff.mp stored
    refine ⟨hk, beq_self_eq_true _, fun p hp => ?_⟩
    have := List.pairwise_iff_getElem.mp ascending p k (hp.trans hk) hk hp
    rw [Bool.not_eq_true, beq_eq_false_iff_ne]
    exact Nat.ne_of_lt this
  · rintro ⟨hk, found, -⟩
    rw [List.getElem?_eq_getElem hk, beq_iff_eq.mp found]

/-- Finding the place of a column and reading the block there is looking the column up. -/
lemma findIdx?_map_range' (column : ℕ → ℕ) (block : ℕ → Array T) (j count first : ℕ) :
    (((List.range' first count).map column).findIdx? (· == j)).map (fun k => block (first + k)) =
      ((List.range' first count).map fun k => (column k, block k)).lookup j := by
  induction count generalizing first with
  | zero => rfl
  | succ count ih =>
    rw [List.range'_succ, List.map_cons, List.map_cons, List.findIdx?_cons]
    by_cases hj : j = column first
    · rw [if_pos (beq_iff_eq.mpr hj.symm), hj, List.lookup_cons_self]
      rfl
    · rw [if_neg (by rw [beq_iff_eq]; exact fun h => hj h.symm), Entries.lookup_cons_of_ne hj,
        ← ih (first + 1), Option.map_map]
      refine Option.map_congr fun k _ => ?_
      rw [Function.comp_apply, Nat.add_comm k 1, ← Nat.add_assoc]

/-- The columns of a row as the array that is searched. -/
lemma extract_columns (valid : a.Valid) {i : ℕ} (hi : i < a.rowCount) :
    a.columns.extract (a.start i) (a.start (i + 1)) = (a.columnsOf i).toArray := by
  rw [columnsOf, ← toList_extract (valid.start_le_size (i := i + 1) hi), Array.toArray_toList]

/-- The halving finds what a search from one end finds. -/
lemma search_columnsOf (valid : a.Valid) {i : ℕ} (hi : i < a.rowCount) (j : ℕ) :
    Bisection.search (a.columnsOf i).toArray j = (a.columnsOf i).findIdx? (· == j) :=
  search_toArray (valid.ascending i hi) j

lemma position?_eq (valid : a.Valid) {i : ℕ} (hi : i < a.rowCount) (j : ℕ) :
    a.position? i j = ((a.columnsOf i).findIdx? (· == j)).map (a.start i + ·) := by
  rw [position?, valid.getElem?_rowStart (Nat.le_of_lt hi), valid.getElem?_rowStart (i := i + 1) hi]
  simp only [Option.bind_eq_bind, Option.bind_some]
  rw [valid.extract_columns hi, valid.search_columnsOf hi]
  cases List.findIdx? _ _ <;> rfl

lemma block?_eq_lookup (valid : a.Valid) {i : ℕ} (hi : i < a.rowCount) (j : ℕ) :
    a.block? i j = (a.rowEntries i).lookup j := by
  rw [block?, valid.position?_eq hi, Option.map_map, rowEntries]
  exact findIdx?_map_range' _ a.storedBlock j _ _

lemma position?_eq_none (valid : a.Valid) {i : ℕ} (hi : a.rowCount ≤ i) (j : ℕ) :
    a.position? i j = none := by
  have hnone : a.rowStart[i + 1]? = none :=
    Array.getElem?_eq_none (by rw [valid.size_rowStart]; omega)
  rw [position?, hnone]
  cases a.rowStart[i]? <;> rfl

/-- A block is stored in the rows of the matrix, at the columns of its row. -/
lemma stores_iff (valid : a.Valid) {i j : ℕ} :
    a.Stores i j ↔ i < a.rowCount ∧ j ∈ a.columnsOf i := by
  rcases Nat.lt_or_ge i a.rowCount with hi | hi
  · rw [Stores, valid.position?_eq hi, Option.isSome_map, List.findIdx?_isSome, List.any_eq_true]
    simp [hi]
  · rw [Stores, valid.position?_eq_none hi]
    simp [hi]

lemma stores_column_lt (valid : a.Valid) {i j : ℕ} (h : a.Stores i j) : j < a.columnCount := by
  obtain ⟨hi, hj⟩ := valid.stores_iff.mp h
  exact valid.columns_lt i hi j hj

section Coefficients

variable [Zero T] {b : ℕ}

lemma coeff_eq (valid : a.Valid) {i : ℕ} (hi : i < a.rowCount) (j : ℕ) :
    a.coeff b i j = (a.rowEntries i).coeff b j := by
  rw [coeff, valid.block?_eq_lookup hi]
  rfl

lemma coeff_eq_zero (valid : a.Valid) {i j : ℕ} (h : ¬ a.Stores i j) : a.coeff b i j = 0 := by
  rcases Nat.lt_or_ge i a.rowCount with hi | hi
  · rw [valid.coeff_eq hi, Entries.coeff_eq_zero]
    rw [columns_rowEntries]
    exact fun hj => h (valid.stores_iff.mpr ⟨hi, hj⟩)
  · rw [coeff, block?, valid.position?_eq_none hi]
    rfl

end Coefficients

end Valid

/-! ## The diagonal -/

lemma requireDiagonal_eq_ok {a : BlockMatrix T} {diagonal : Array ℕ} :
    a.requireDiagonal = .ok diagonal ↔
      a.diagonal.size = a.rowCount ∧ a.rowCount = a.columnCount ∧ a.diagonal = diagonal := by
  rw [requireDiagonal, diagonal?]
  by_cases h : a.diagonal.size = a.rowCount ∧ a.rowCount = a.columnCount
  · rw [if_pos h]
    simp [h]
  · rw [if_neg h]
    simp only [reduceCtorEq, false_iff]
    exact fun h' => h ⟨h'.1, h'.2.1⟩

namespace HasDiagonal

variable {a : BlockMatrix T}

lemma requireDiagonal_eq (has : a.HasDiagonal) : a.requireDiagonal = .ok a.diagonal :=
  requireDiagonal_eq_ok.mpr ⟨has.size_diagonal, has.square, rfl⟩

lemma item_diagonal (has : a.HasDiagonal) {i : ℕ} (hi : i < a.rowCount) :
    Span.item a.diagonal i = .ok (a.diagonalOf i) :=
  item_eq_getD (by rw [has.size_diagonal]; exact hi)

/-- A row is made of the entries left of the diagonal, the diagonal one and those right of it. -/
lemma rowEntries_eq (has : a.HasDiagonal) {i : ℕ} (hi : i < a.rowCount) :
    a.rowEntries i = a.leftEntries i ++ (i, a.diagonalBlock i) :: a.rightEntries i := by
  have hlow := has.start_le i hi
  have hhigh := has.lt_stop i hi
  have hlength : a.start (i + 1) - a.start i =
      (a.diagonalOf i - a.start i) + ((a.start (i + 1) - (a.diagonalOf i + 1)) + 1) := by omega
  rw [rowEntries, hlength, ← List.range'_append_1, List.map_append, List.range'_succ,
    List.map_cons, show a.start i + (a.diagonalOf i - a.start i) = a.diagonalOf i by omega]
  rw [show a.entryAt (a.diagonalOf i) = (i, a.diagonalBlock i) from
    Prod.ext (has.column i hi) rfl]
  rfl

lemma length_leftEntries (a : BlockMatrix T) (i : ℕ) :
    (a.leftEntries i).length = a.diagonalOf i - a.start i := by
  rw [leftEntries, List.length_map, List.length_range']

lemma diagonalOf_lt (has : a.HasDiagonal) (valid : a.Valid) {i : ℕ} (hi : i < a.rowCount) :
    a.diagonalOf i < a.columns.size :=
  (has.lt_stop i hi).trans_le (valid.start_le_size (i := i + 1) hi)

lemma view_rightOfDiagonal (has : a.HasDiagonal) (valid : a.Valid) {i : ℕ} (hi : i < a.rowCount) :
    a.view.rightOfDiagonal i = .ok (a.rightEntries i) := by
  rw [View.rightOfDiagonal, show a.view.diagonal = a.diagonal from rfl,
    show a.view.rowStart = a.rowStart from rfl, has.item_diagonal hi, ok_bind,
    valid.item_rowStart (i := i + 1) hi, ok_bind,
    valid.view_entries (valid.start_le_size (i := i + 1) hi)]
  rfl

lemma view_diagonalBlock (has : a.HasDiagonal) (valid : a.Valid) {i : ℕ} (hi : i < a.rowCount) :
    a.view.diagonalBlock i = .ok (a.diagonalBlock i) := by
  rw [View.diagonalBlock, show a.view.diagonal = a.diagonal from rfl, has.item_diagonal hi,
    ok_bind, valid.view_block (has.diagonalOf_lt valid hi)]
  rfl

/-- The row as three ascending pieces around the diagonal. -/
lemma ascending_pieces (has : a.HasDiagonal) (valid : a.Valid) {i : ℕ} (hi : i < a.rowCount) :
    (a.leftEntries i).columns.Pairwise (· < ·) ∧ (a.rightEntries i).columns.Pairwise (· < ·) ∧
      (∀ c ∈ (a.leftEntries i).columns, c < i) ∧ ∀ c ∈ (a.rightEntries i).columns, i < c := by
  have hrow := (valid.regular hi).ascending
  rw [has.rowEntries_eq hi, Entries.columns_append, List.pairwise_append,
    Entries.ascending_cons] at hrow
  exact ⟨hrow.1, hrow.2.1.2, fun c hc => hrow.2.2 c hc i List.mem_cons_self, hrow.2.1.1⟩

lemma stores_diagonal (has : a.HasDiagonal) (valid : a.Valid) {i : ℕ} (hi : i < a.rowCount) :
    a.Stores i i := by
  rw [valid.stores_iff, ← columns_rowEntries, has.rowEntries_eq hi, Entries.columns_append]
  exact ⟨hi, List.mem_append_right _ List.mem_cons_self⟩

section Coefficients

variable [Zero T] {b : ℕ} (has : a.HasDiagonal) (valid : a.Valid)

include has valid

lemma coeff_diagonal {i : ℕ} (hi : i < a.rowCount) :
    a.coeff b i i = Block.toMatrix b (a.diagonalBlock i) := by
  obtain ⟨-, -, hleft, -⟩ := has.ascending_pieces valid hi
  have hlookup : (a.rowEntries i).lookup i = some (a.diagonalBlock i) := by
    have hnone : (a.leftEntries i).lookup i = none :=
      Entries.lookup_eq_none.mpr fun h => Nat.lt_irrefl i (hleft i h)
    rw [has.rowEntries_eq hi, List.lookup_append, hnone, Option.none_or, List.lookup_cons_self]
  rw [valid.coeff_eq hi, Entries.coeff_of_lookup hlookup]

lemma coeff_right {i j : ℕ} (hi : i < a.rowCount) (hj : i < j) :
    a.coeff b i j = (a.rightEntries i).coeff b j := by
  obtain ⟨-, -, hleft, -⟩ := has.ascending_pieces valid hi
  have hnone : (a.leftEntries i).lookup j = none :=
    Entries.lookup_eq_none.mpr fun h => by have := hleft j h; omega
  rw [valid.coeff_eq hi, has.rowEntries_eq hi, Entries.coeff, List.lookup_append, hnone,
    Option.none_or, Entries.lookup_cons_of_ne (by omega)]
  rfl

lemma coeff_left {i j : ℕ} (hi : i < a.rowCount) (hj : j < i) :
    a.coeff b i j = (a.leftEntries i).coeff b j := by
  obtain ⟨-, -, -, hright⟩ := has.ascending_pieces valid hi
  have hnone : ((i, a.diagonalBlock i) :: a.rightEntries i).lookup j = none := by
    rw [Entries.lookup_cons_of_ne (by omega), Entries.lookup_eq_none]
    exact fun h => by have := hright j h; omega
  rw [valid.coeff_eq hi, has.rowEntries_eq hi, Entries.coeff, List.lookup_append, hnone,
    Option.or_none]
  rfl

end Coefficients

end HasDiagonal

/-- Places of the diagonal columns within the rows, if every row has one. -/
lemma Valid.diagonal_eq {a : BlockMatrix T} (valid : a.Valid) (square : a.rowCount = a.columnCount) :
    a.diagonal = (((List.range a.rowCount).mapM fun i => a.position? i i).getD []).toArray := by
  have hfound : ∀ i ∈ List.range a.rowCount, (do
      let start ← Span.item a.rowStart i
      let row ← BlockMatrix.rowColumns a.rowStart a.columns i
      Except.ok ((Bisection.search row.toArray i).map (start + ·))) = .ok (a.position? i i) := by
    intro i member
    have hi := List.mem_range.mp member
    rw [valid.item_rowStart (Nat.le_of_lt hi), ok_bind, valid.rowColumns_eq hi, ok_bind,
      valid.search_columnsOf hi, valid.position?_eq hi]
  have hlocated := valid.located
  rw [locateDiagonal, if_neg (not_not.mpr square)] at hlocated
  simp only [pure_eq] at hlocated
  rw [mapM_eq_ok hfound, ok_bind, List.mapM_map] at hlocated
  exact (Except.ok.inj hlocated).symm

/-- A valid square matrix whose pattern has every diagonal block. -/
lemma Valid.hasDiagonal {a : BlockMatrix T} (valid : a.Valid) (square : a.rowCount = a.columnCount)
    (stores : ∀ i < a.rowCount, a.Stores i i) : a.HasDiagonal := by
  have hdiagonal := valid.diagonal_eq square
  have hmapM : (List.range a.rowCount).mapM (fun i => a.position? i i) =
      some ((List.range a.rowCount).map fun i => (a.position? i i).getD 0) := by
    rw [mapM_eq_some, List.map_map]
    refine List.map_congr_left fun i member => ?_
    have hsome := stores i (List.mem_range.mp member)
    rw [Stores, Option.isSome_iff_exists] at hsome
    obtain ⟨k, hk⟩ := hsome
    rw [Function.comp_apply, hk, Option.getD_some]
  rw [hmapM, Option.getD_some] at hdiagonal
  have hposition : ∀ i < a.rowCount, a.position? i i = some (a.diagonalOf i) := by
    intro i hi
    have hsome := stores i hi
    rw [Stores, Option.isSome_iff_exists] at hsome
    obtain ⟨k, hk⟩ := hsome
    rw [diagonalOf, hdiagonal]
    simp [Array.getD_eq_getD_getElem?, hi, hk]
  have hplace : ∀ i < a.rowCount, a.start i ≤ a.diagonalOf i ∧ a.diagonalOf i < a.start (i + 1) ∧
      a.columns.getD (a.diagonalOf i) 0 = i := by
    intro i hi
    have hp := hposition i hi
    rw [valid.position?_eq hi, Option.map_eq_some_iff] at hp
    obtain ⟨p, hp, hsum⟩ := hp
    obtain ⟨hlt, hcolumn, -⟩ := List.findIdx?_eq_some_iff_getElem.mp hp
    simp only [columnsOf, List.length_map, List.length_range'] at hlt
    simp only [columnsOf, List.getElem_map, List.getElem_range', Nat.one_mul, beq_iff_eq]
      at hcolumn
    rw [← hsum]
    exact ⟨Nat.le_add_right _ _, by omega, hcolumn⟩
  exact {
    square
    size_diagonal := by rw [hdiagonal]; simp
    start_le := fun i hi => (hplace i hi).1
    lt_stop := fun i hi => (hplace i hi).2.1
    column := fun i hi => (hplace i hi).2.2 }

/-- What it means that the diagonal was asked for and is there. -/
lemma Valid.hasDiagonal_of_requireDiagonal {a : BlockMatrix T} (valid : a.Valid)
    {diagonal : Array ℕ} (ok : a.requireDiagonal = .ok diagonal) : a.HasDiagonal := by
  obtain ⟨hsize, hsquare, -⟩ := requireDiagonal_eq_ok.mp ok
  refine valid.hasDiagonal hsquare fun i hi => ?_
  have hdiagonal := valid.diagonal_eq hsquare
  cases hmapM : (List.range a.rowCount).mapM fun i => a.position? i i with
  | none =>
    rw [hmapM] at hdiagonal
    rw [hdiagonal] at hsize
    simp at hsize
    omega
  | some found =>
    rw [mapM_eq_some] at hmapM
    have hget := congrArg (·[i]?) hmapM
    simp only [List.getElem?_map, List.getElem?_range hi, Option.map_some] at hget
    cases hfound : found[i]? with
    | none => rw [hfound] at hget; simp at hget
    | some k =>
      rw [hfound, Option.map_some, Option.some_inj] at hget
      rw [Stores, hget]
      rfl

end DomainDecomposition.BlockMatrix
