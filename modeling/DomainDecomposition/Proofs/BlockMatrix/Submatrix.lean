import DomainDecomposition.Proofs.BlockMatrix.Solve
import Mathlib.Data.List.Sort

/-!
# Trailing submatrices

`IsTrailing a o t` says that `t` is the matrix of the rows and columns of `a` from number `o` on, by
the blocks that both store. There is one for every offset (`exists_trailing`): the rows of `a`, each
without the columns before `o`, are sorted rows again.

A row is known once its blocks can be looked up, so the rows of `t` are pieces of rows of `a`, with
the columns counted from `o` on. In particular the entries left of the diagonal of `t` are the
entries of `a` between column `o` and the diagonal (`IsTrailing.tailEntries_eq`).
-/

namespace DomainDecomposition

open Outcome

variable {T : Type}

namespace Entries

/-! ## Rows and look-ups -/

/-- In an ascending row the look-up finds every entry. -/
lemma lookup_eq_some_iff {row : Entries T} (ascending : row.columns.Pairwise (· < ·)) {j : ℕ}
    {block : Array T} : row.lookup j = some block ↔ (j, block) ∈ row := by
  refine ⟨mem_of_lookup, fun member => ?_⟩
  induction row with
  | nil => exact absurd member List.not_mem_nil
  | cons e row ih =>
    rcases List.mem_cons.mp member with rfl | later
    · exact List.lookup_cons_self
    · have behind := (ascending_cons.mp ascending).1 j (mem_columns.mpr ⟨block, later⟩)
      rw [← ih (ascending_cons.mp ascending).2 later]
      exact lookup_cons_of_ne (Nat.ne_of_gt behind) e.2 row

/-- Ascending rows with the same entries are equal. -/
lemma eq_of_mem_iff {row row' : Entries T} (ascending : row.columns.Pairwise (· < ·))
    (ascending' : row'.columns.Pairwise (· < ·))
    (same : ∀ j block, (j, block) ∈ row ↔ (j, block) ∈ row') : row = row' := by
  rw [columns, List.pairwise_map] at ascending ascending'
  have irrefl : Std.Irrefl fun e e' : ℕ × Array T => e.1 < e'.1 := ⟨fun e => Nat.lt_irrefl e.1⟩
  have antisymm : Std.Antisymm fun e e' : ℕ × Array T => e.1 < e'.1 :=
    ⟨fun _ _ first second => absurd first (Nat.lt_asymm second)⟩
  exact ascending.eq_of_mem_iff ascending' fun e => same e.1 e.2

/-- The columns counted from `o` on. -/
def shift (o : ℕ) (row : Entries T) : Entries T :=
  row.map fun e => (o + e.1, e.2)

/-- The entries from column `o` on, with the columns counted from there. -/
def dropBefore (o : ℕ) (row : Entries T) : Entries T :=
  (row.filter (o ≤ ·.1)).map fun e => (e.1 - o, e.2)

lemma mem_shift {o j : ℕ} {row : Entries T} {block : Array T} :
    (j, block) ∈ row.shift o ↔ o ≤ j ∧ (j - o, block) ∈ row := by
  rw [shift, List.mem_map]
  constructor
  · rintro ⟨⟨c, _⟩, member, same⟩
    obtain ⟨rfl, rfl⟩ := Prod.mk.inj same
    exact ⟨Nat.le_add_right o c, by rwa [Nat.add_sub_cancel_left]⟩
  · rintro ⟨behind, member⟩
    exact ⟨_, member, Prod.ext (Nat.add_sub_cancel' behind) rfl⟩

lemma mem_dropBefore {o j : ℕ} {row : Entries T} {block : Array T} :
    (j, block) ∈ row.dropBefore o ↔ (o + j, block) ∈ row := by
  rw [dropBefore, List.mem_map]
  constructor
  · rintro ⟨⟨c, _⟩, member, same⟩
    obtain ⟨rfl, rfl⟩ := Prod.mk.inj same
    obtain ⟨member, behind⟩ := List.mem_filter.mp member
    rwa [Nat.add_sub_cancel' (of_decide_eq_true behind)]
  · intro member
    refine ⟨_, List.mem_filter.mpr ⟨member, decide_eq_true (Nat.le_add_right o j)⟩, ?_⟩
    exact Prod.ext (Nat.add_sub_cancel_left o j) rfl

lemma ascending_shift {o : ℕ} {row : Entries T} (ascending : row.columns.Pairwise (· < ·)) :
    (row.shift o).columns.Pairwise (· < ·) := by
  rw [columns, List.pairwise_map] at ascending
  rw [columns, shift, List.map_map, List.pairwise_map]
  exact ascending.imp fun h => Nat.add_lt_add_left h o

lemma Regular.dropBefore {b o : ℕ} {row : Entries T} (regular : row.Regular b) :
    (row.dropBefore o).Regular b where
  ascending := by
    have ascending := regular.ascending
    rw [columns, List.pairwise_map] at ascending
    rw [columns, Entries.dropBefore, List.map_map, List.pairwise_map, List.pairwise_filter]
    refine ascending.imp fun {e e'} h low _ => ?_
    have low := of_decide_eq_true low
    change e.1 - o < e'.1 - o
    omega
  full := by
    rintro ⟨j, block⟩ member
    exact regular.full (o + j, block) (mem_dropBefore.mp member)

end Entries

namespace BlockMatrix

variable {a t : BlockMatrix T} {o : ℕ}

/-- The entries of a row are its stored blocks. -/
lemma Valid.mem_rowEntries (valid : a.Valid) {i j : ℕ} (hi : i < a.rowCount) {block : Array T} :
    (j, block) ∈ a.rowEntries i ↔ a.block? i j = some block := by
  rw [valid.block?_eq_lookup hi, Entries.lookup_eq_some_iff (valid.regular hi).ascending]

/-- The entries left of the diagonal are the stored blocks there. -/
lemma HasDiagonal.mem_leftEntries (has : a.HasDiagonal) (valid : a.Valid) {i j : ℕ}
    (hi : i < a.rowCount) {block : Array T} :
    (j, block) ∈ a.leftEntries i ↔ j < i ∧ a.block? i j = some block := by
  obtain ⟨-, -, hleft, hright⟩ := has.ascending_pieces valid hi
  rw [← valid.mem_rowEntries hi, has.rowEntries_eq hi, List.mem_append, List.mem_cons]
  constructor
  · intro member
    exact ⟨hleft j (Entries.mem_columns.mpr ⟨block, member⟩), .inl member⟩
  · rintro ⟨low, left | own | right⟩
    · exact left
    · have := congrArg Prod.fst own
      omega
    · have := hright j (Entries.mem_columns.mpr ⟨block, right⟩)
      omega

lemma FirstFrom.mem_tailEntries {i s : ℕ} (first : FirstFrom a o i s) {j : ℕ} {block : Array T} :
    (j, block) ∈ a.tailEntries i s ↔ o ≤ j ∧ (j, block) ∈ a.leftEntries i := by
  obtain ⟨front, split, hfront, htail⟩ := first.leftEntries_eq
  rw [split, List.mem_append]
  constructor
  · intro member
    exact ⟨htail j (Entries.mem_columns.mpr ⟨block, member⟩), .inr member⟩
  · rintro ⟨low, before | behind⟩
    · have := hfront j (Entries.mem_columns.mpr ⟨block, before⟩)
      omega
    · exact behind

/-! ## Matrices given by their entries -/

/-- Sorted rows of full blocks make a valid matrix with these rows. -/
lemma exists_ofEntries {blockSize columnCount : ℕ} {rows : List (Entries T)} (pos : 0 < blockSize)
    (regular : ∀ row ∈ rows, row.Regular blockSize)
    (below : ∀ row ∈ rows, ∀ c ∈ row.columns, c < columnCount) :
    ∃ t : BlockMatrix T,
      ofValues blockSize rows.length columnCount (Offsets.ofLengths (rows.map List.length))
        (rows.flatMap Entries.columns).toArray (Entries.scalars rows.flatten) = .ok t ∧
      t.Valid ∧ t.blockSize = blockSize ∧ t.rowCount = rows.length ∧
      t.columnCount = columnCount ∧ ∀ (i : ℕ) (hi : i < rows.length), t.rowEntries i = rows[i] := by
  have full : ∀ e ∈ rows.flatten, e.2.size = blockSize * blockSize := by
    intro e member
    obtain ⟨row, inside, member⟩ := List.mem_flatten.mp member
    exact (regular row inside).full e member
  have ascending : ∀ row ∈ rows.map Entries.columns, row.Pairwise (· < ·) :=
    List.forall_mem_map.mpr fun row inside => (regular row inside).ascending
  have size : (Entries.scalars rows.flatten).size =
      (rows.map Entries.columns).flatten.length * (blockSize * blockSize) := by
    rw [Entries.size_scalars full, ← Entries.length_columns rows.flatten, Entries.columns,
      List.map_flatten]
    rfl
  obtain ⟨t, made, valid, hb, hrows, hcolumns, hvalues, columnsOf⟩ :=
    ofValues_ofRows pos ascending (List.forall_mem_map.mpr below) size
  rw [List.length_map] at hrows
  have offsets : ∀ i ≤ rows.length, t.start i = ((rows.map List.length).take i).sum := by
    intro i hi
    have hstart := (ofValues_eq_ok.mp made).2
    rw [start, hstart, start_ofRows (by rwa [List.length_map]), List.map_map]
    simp only [Function.comp_def, Entries.length_columns]
  have lengths : (rows.map Entries.columns).map List.length = rows.map List.length := by
    rw [List.map_map]
    exact List.map_congr_left fun row _ => Entries.length_columns row
  rw [lengths, List.length_map] at made
  refine ⟨t, made, valid, hb, hrows, hcolumns, fun i hi => ?_⟩
  have hnext : t.start (i + 1) = t.start i + rows[i].length := by
    rw [offsets i (Nat.le_of_lt hi), offsets (i + 1) hi,
      List.take_succ_eq_append_getElem (by rwa [List.length_map]), List.sum_append,
      List.sum_singleton, List.getElem_map]
  -- entry `k` of the row is entry `start i + k` of all entries
  have hflat : ∀ (k : ℕ) (hk : k < rows[i].length), ∃ inside : t.start i + k < rows.flatten.length,
      rows.flatten[t.start i + k] = rows[i][k] := by
    intro k hk
    have hrow := List.drop_take_succ_flatten_eq_getElem rows i hi
    rw [← offsets i (Nat.le_of_lt hi), ← offsets (i + 1) hi] at hrow
    have hentry := congrArg (·[k]?) hrow
    simp only [List.getElem?_drop, List.getElem?_take, List.getElem?_eq_getElem hk] at hentry
    rw [if_pos (by omega)] at hentry
    exact List.getElem?_eq_some_iff.mp hentry
  apply List.ext_getElem
  · rw [length_rowEntries, hnext, Nat.add_sub_cancel_left]
  · intro k hk hk'
    obtain ⟨inside, hentry⟩ := hflat k hk'
    have hcolumn := congrArg (·[k]?) (columnsOf i (by simpa using hi))
    simp only [BlockMatrix.columnsOf, List.getElem_map, Entries.columns, List.getElem?_map,
      List.getElem?_range' (show k < t.start (i + 1) - t.start i by omega), Option.map_some,
      List.getElem?_eq_getElem hk', Option.some_inj, Nat.one_mul] at hcolumn
    have hblock : t.storedBlock (t.start i + k) = rows[i][k].2 := by
      rw [storedBlock_eq_chunk, hb, hvalues, Entries.chunk_scalars full inside, hentry]
    simp only [rowEntries, List.getElem_map, List.getElem_range', Nat.one_mul]
    exact Prod.ext hcolumn hblock

/-! ## Trailing submatrices -/

/-- The matrix `t` consists of the rows and columns of `a` from number `o` on. -/
structure IsTrailing (a : BlockMatrix T) (o : ℕ) (t : BlockMatrix T) : Prop where
  valid : t.Valid
  blockSize_eq : t.blockSize = a.blockSize
  rowCount_eq : t.rowCount = a.rowCount - o
  columnCount_eq : t.columnCount = a.columnCount - o
  block?_eq : ∀ i j, t.block? i j = a.block? (o + i) (o + j)

/-- Every offset has a trailing submatrix. -/
lemma exists_trailing (valid : a.Valid) (o : ℕ) : ∃ t, IsTrailing a o t := by
  have regular : ∀ row ∈ (List.range (a.rowCount - o)).map fun i =>
      (a.rowEntries (o + i)).dropBefore o, row.Regular a.blockSize := by
    intro row inside
    obtain ⟨i, hi, rfl⟩ := List.mem_map.mp inside
    have hi := List.mem_range.mp hi
    exact (valid.regular (by omega)).dropBefore
  have below : ∀ row ∈ (List.range (a.rowCount - o)).map fun i =>
      (a.rowEntries (o + i)).dropBefore o, ∀ c ∈ row.columns, c < a.columnCount - o := by
    intro row inside c hc
    obtain ⟨i, hi, rfl⟩ := List.mem_map.mp inside
    have hi := List.mem_range.mp hi
    obtain ⟨block, member⟩ := Entries.mem_columns.mp hc
    have hcolumn : o + c ∈ (a.rowEntries (o + i)).columns :=
      Entries.mem_columns.mpr ⟨block, Entries.mem_dropBefore.mp member⟩
    rw [columns_rowEntries] at hcolumn
    have := valid.columns_lt (o + i) (by omega) _ hcolumn
    omega
  obtain ⟨t, -, validT, hb, hrows, hcolumns, hentries⟩ :=
    exists_ofEntries valid.blockSize_pos regular below
  rw [List.length_map, List.length_range] at hrows
  refine ⟨t, validT, hb, hrows, hcolumns, fun i j => ?_⟩
  rcases Nat.lt_or_ge i (a.rowCount - o) with hi | hi
  · have hrow := hentries i (by rwa [List.length_map, List.length_range])
    rw [List.getElem_map, List.getElem_range] at hrow
    refine Option.ext fun block => ?_
    rw [← validT.mem_rowEntries (by omega), ← valid.mem_rowEntries (by omega), hrow,
      Entries.mem_dropBefore]
  · rw [block?, block?, validT.position?_eq_none (by omega), valid.position?_eq_none (by omega)]
    rfl

namespace IsTrailing

variable (trailing : IsTrailing a o t) (valid : a.Valid) (has : a.HasDiagonal)

include trailing has

/-- The diagonal blocks of the submatrix are diagonal blocks of the whole. -/
lemma hasDiagonal (valid : a.Valid) : t.HasDiagonal := by
  refine trailing.valid.hasDiagonal ?_ fun i hi => ?_
  · rw [trailing.rowCount_eq, trailing.columnCount_eq, has.square]
  · have hi := trailing.rowCount_eq ▸ hi
    have whole := has.stores_diagonal valid (i := o + i) (by omega)
    have same := congrArg Option.isSome (trailing.block?_eq i i)
    rw [block?, block?, Option.isSome_map, Option.isSome_map] at same
    rwa [Stores, same]

include valid

/-- What the submatrix stores left of its diagonal, the whole matrix stores between column `o` and
the diagonal. -/
lemma tailEntries_eq {i s : ℕ} (hi : o + i < a.rowCount) (first : FirstFrom a o (o + i) s) :
    a.tailEntries (o + i) s = (t.leftEntries i).shift o := by
  have hasT := trailing.hasDiagonal has valid
  have hiT : i < t.rowCount := by
    rw [trailing.rowCount_eq]
    omega
  have ascending := (has.ascending_pieces valid hi).1
  obtain ⟨front, split, -⟩ := first.leftEntries_eq
  rw [split, Entries.columns_append] at ascending
  refine Entries.eq_of_mem_iff (List.pairwise_append.mp ascending).2.1
    (Entries.ascending_shift (hasT.ascending_pieces trailing.valid hiT).1) fun j block => ?_
  rw [first.mem_tailEntries, has.mem_leftEntries valid hi, Entries.mem_shift,
    hasT.mem_leftEntries trailing.valid hiT, trailing.block?_eq]
  constructor
  · rintro ⟨low, high, stored⟩
    exact ⟨low, by omega, by rwa [Nat.add_sub_cancel' low]⟩
  · rintro ⟨low, high, stored⟩
    rw [Nat.add_sub_cancel' low] at stored
    exact ⟨low, by omega, stored⟩

end IsTrailing

end BlockMatrix

end DomainDecomposition
