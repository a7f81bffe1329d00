import DomainDecomposition.Proofs.BlockMatrix.Submatrix

/-!
# Leading principal submatrices

`IsLeading a o t` says that `t` is the matrix of the first `o` rows and columns of `a`, by the
blocks that both store. A row of `t` is a row of `a` without the entries from column `o` on, so left
of the diagonal and on it nothing is missing. Merging rows takes an entry into account only for its
own column, so it makes no difference whether the entries from some column on are dropped before or
afterwards (`Entries.takeBefore_mergeRow`).
-/

namespace DomainDecomposition

variable {T : Type}

/-! ## The first columns of a row -/

namespace Entries

/-- The entries before column `o`. -/
def takeBefore (o : ℕ) (row : Entries T) : Entries T :=
  row.filter (·.1 < o)

variable {o j : ℕ} {row : Entries T}

lemma mem_takeBefore {block : Array T} :
    (j, block) ∈ row.takeBefore o ↔ j < o ∧ (j, block) ∈ row := by
  rw [takeBefore, List.mem_filter, decide_eq_true_iff, and_comm]

lemma takeBefore_append (row row' : Entries T) :
    Entries.takeBefore o (row ++ row') = row.takeBefore o ++ row'.takeBefore o :=
  List.filter_append ..

lemma takeBefore_cons (hj : j < o) (block : Array T) (row : Entries T) :
    Entries.takeBefore o ((j, block) :: row) = (j, block) :: row.takeBefore o :=
  List.filter_cons_of_pos (decide_eq_true hj)

/-- A row that ends before column `o` stays as it is. -/
lemma takeBefore_eq_self (before : ∀ c ∈ row.columns, c < o) : row.takeBefore o = row :=
  List.filter_eq_self.mpr fun e member => decide_eq_true (before e.1 (List.mem_map_of_mem member))

lemma lookup_takeBefore (hj : j < o) (row : Entries T) :
    (row.takeBefore o).lookup j = row.lookup j := by
  induction row with
  | nil => rfl
  | cons e row ih =>
    obtain ⟨c, block⟩ := e
    by_cases hc : c < o
    · rw [takeBefore_cons hc, List.lookup_cons, List.lookup_cons, ih]
    · rw [lookup_cons_of_ne (by omega), ← ih, takeBefore, takeBefore,
        List.filter_cons_of_neg (by simpa using hc)]

lemma lookup_takeBefore_of_le (hj : o ≤ j) (row : Entries T) :
    (row.takeBefore o).lookup j = none := by
  rw [lookup_eq_none, mem_columns]
  rintro ⟨block, member⟩
  have := (mem_takeBefore.mp member).1
  omega

lemma ascending_takeBefore (ascending : row.columns.Pairwise (· < ·)) :
    (row.takeBefore o).columns.Pairwise (· < ·) := by
  rw [columns, List.pairwise_map] at ascending ⊢
  exact ascending.filter _

lemma Regular.takeBefore {b : ℕ} (regular : row.Regular b) : (row.takeBefore o).Regular b where
  ascending := ascending_takeBefore regular.ascending
  full := fun e member => regular.full e (List.mem_of_mem_filter member)

/-- Ascending rows with the same look-ups are equal. -/
lemma eq_of_lookup_eq {row' : Entries T} (ascending : row.columns.Pairwise (· < ·))
    (ascending' : row'.columns.Pairwise (· < ·)) (same : ∀ j, row.lookup j = row'.lookup j) :
    row = row' :=
  eq_of_mem_iff ascending ascending' fun j block => by
    rw [← lookup_eq_some_iff ascending, ← lookup_eq_some_iff ascending', same]

/-- Entries from column `o` on do not influence those before. -/
lemma takeBefore_mergeRow (update : Array T → Array T → Array T) {source target : Entries T} (o : ℕ)
    (hsource : source.columns.Pairwise (· < ·)) (htarget : target.columns.Pairwise (· < ·)) :
    (mergeRow update source target).takeBefore o =
      mergeRow update (source.takeBefore o) (target.takeBefore o) := by
  have merged : (mergeRow update source target).columns.Pairwise (· < ·) := by
    rwa [columns_mergeRow]
  have taken : (mergeRow update (source.takeBefore o) (target.takeBefore o)).columns.Pairwise
      (· < ·) := by
    rw [columns_mergeRow]
    exact ascending_takeBefore htarget
  refine eq_of_lookup_eq (ascending_takeBefore merged) taken fun j => ?_
  rw [lookup_mergeRow update j (ascending_takeBefore hsource) (ascending_takeBefore htarget)]
  rcases Nat.lt_or_ge j o with hj | hj
  · rw [lookup_takeBefore hj, lookup_takeBefore hj, lookup_takeBefore hj,
      lookup_mergeRow update j hsource htarget]
  · rw [lookup_takeBefore_of_le hj, lookup_takeBefore_of_le hj target]
    rfl

/-- A row is cut at a column in one way. -/
lemma append_cons_inj {left left' right right' : Entries T} {block block' : Array T}
    (before : ∀ c ∈ left.columns, c < j) (before' : ∀ c ∈ left'.columns, c < j)
    (same : left ++ (j, block) :: right = left' ++ (j, block') :: right') :
    left = left' ∧ block = block' ∧ right = right' := by
  induction left generalizing left' with
  | nil =>
    cases left' with
    | nil =>
      obtain ⟨first, rest⟩ := List.cons.inj same
      exact ⟨rfl, (Prod.mk.inj first).2, rest⟩
    | cons e left' =>
      have low := before' e.1 List.mem_cons_self
      have := congrArg Prod.fst (List.cons.inj same).1
      omega
  | cons e left ih =>
    have low := before e.1 List.mem_cons_self
    cases left' with
    | nil =>
      have := congrArg Prod.fst (List.cons.inj same).1
      omega
    | cons e' left' =>
      obtain ⟨first, rest⟩ := List.cons.inj same
      obtain ⟨hleft, hblock, hright⟩ := ih (fun c hc => before c (List.mem_cons_of_mem _ hc))
        (fun c hc => before' c (List.mem_cons_of_mem _ hc)) rest
      exact ⟨by rw [first, hleft], hblock, hright⟩

end Entries

/-! ## The first rows and columns of a matrix -/

namespace BlockMatrix

variable {a t : BlockMatrix T} {o : ℕ}

/-- The matrix `t` consists of the first `o` rows and columns of `a`. -/
structure IsLeading (a : BlockMatrix T) (o : ℕ) (t : BlockMatrix T) : Prop where
  valid : t.Valid
  blockSize_eq : t.blockSize = a.blockSize
  rowCount_eq : t.rowCount = o
  columnCount_eq : t.columnCount = o
  block?_eq : ∀ i < o, ∀ j < o, t.block? i j = a.block? i j

/-- Rows without the entries from column `o` on make up the submatrix. -/
lemma IsLeading.of_rows (valid : t.Valid) (whole : a.Valid) (blockSize : t.blockSize = a.blockSize)
    (rows : t.rowCount = o) (columns : t.columnCount = o) (inside : o ≤ a.rowCount)
    (same : ∀ i < o, t.rowEntries i = (a.rowEntries i).takeBefore o) : IsLeading a o t where
  valid := valid
  blockSize_eq := blockSize
  rowCount_eq := rows
  columnCount_eq := columns
  block?_eq := by
    intro i hi j hj
    rw [valid.block?_eq_lookup (by omega), whole.block?_eq_lookup (by omega), same i hi,
      Entries.lookup_takeBefore hj]

/-- There is a submatrix for every number of rows. -/
lemma exists_leading (valid : a.Valid) (inside : o ≤ a.rowCount) : ∃ t, IsLeading a o t := by
  have regular : ∀ row ∈ (List.range o).map fun i => (a.rowEntries i).takeBefore o,
      row.Regular a.blockSize := by
    intro row member
    obtain ⟨i, hi, rfl⟩ := List.mem_map.mp member
    exact (valid.regular ((List.mem_range.mp hi).trans_le inside)).takeBefore
  have below : ∀ row ∈ (List.range o).map fun i => (a.rowEntries i).takeBefore o,
      ∀ c ∈ row.columns, c < o := by
    intro row member c hc
    obtain ⟨i, hi, rfl⟩ := List.mem_map.mp member
    obtain ⟨block, member⟩ := Entries.mem_columns.mp hc
    exact (Entries.mem_takeBefore.mp member).1
  obtain ⟨t, -, validT, hb, hrows, hcolumns, hentries⟩ :=
    exists_ofEntries valid.blockSize_pos regular below
  rw [List.length_map, List.length_range] at hrows
  refine ⟨t, .of_rows validT valid hb hrows hcolumns inside fun i hi => ?_⟩
  rw [hentries i (by rwa [List.length_map, List.length_range]), List.getElem_map,
    List.getElem_range]

namespace IsLeading

variable (leading : IsLeading a o t) (valid : a.Valid) (inside : o ≤ a.rowCount)

include leading valid inside

lemma rowEntries_eq {i : ℕ} (hi : i < o) : t.rowEntries i = (a.rowEntries i).takeBefore o := by
  have hiT : i < t.rowCount := leading.rowCount_eq ▸ hi
  have ascending := (valid.regular (hi.trans_le inside)).ascending
  refine Entries.eq_of_lookup_eq (leading.valid.regular hiT).ascending
    (Entries.ascending_takeBefore ascending) fun j => ?_
  rw [← leading.valid.block?_eq_lookup hiT]
  rcases Nat.lt_or_ge j o with hj | hj
  · rw [leading.block?_eq i hi j hj, valid.block?_eq_lookup (hi.trans_le inside),
      Entries.lookup_takeBefore hj]
  · rw [Entries.lookup_takeBefore_of_le hj, leading.valid.block?_eq_lookup hiT,
      Entries.lookup_eq_none, columns_rowEntries]
    intro member
    have := leading.valid.columns_lt i hiT j member
    rw [leading.columnCount_eq] at this
    omega

variable (has : a.HasDiagonal)

include has

/-- The diagonal blocks of the submatrix are diagonal blocks of the whole. -/
lemma hasDiagonal : t.HasDiagonal := by
  refine leading.valid.hasDiagonal (leading.rowCount_eq.trans leading.columnCount_eq.symm)
    fun i hi => ?_
  have hi := leading.rowCount_eq ▸ hi
  have whole := has.stores_diagonal valid (hi.trans_le inside)
  have same := congrArg Option.isSome (leading.block?_eq i hi i hi)
  rw [block?, block?, Option.isSome_map, Option.isSome_map] at same
  rwa [Stores, same]

/-- Up to the diagonal a row of the submatrix is one of the whole, and behind it the entries from
column `o` on are missing. -/
lemma pieces_eq {i : ℕ} (hi : i < o) : t.leftEntries i = a.leftEntries i ∧
    t.diagonalBlock i = a.diagonalBlock i ∧ t.rightEntries i = (a.rightEntries i).takeBefore o := by
  have hiA := hi.trans_le inside
  have hiT : i < t.rowCount := leading.rowCount_eq ▸ hi
  have hasT := leading.hasDiagonal valid inside has
  obtain ⟨-, -, before, -⟩ := has.ascending_pieces valid hiA
  obtain ⟨-, -, beforeT, -⟩ := hasT.ascending_pieces leading.valid hiT
  have row := leading.rowEntries_eq valid inside hi
  rw [hasT.rowEntries_eq hiT, has.rowEntries_eq hiA, Entries.takeBefore_append,
    Entries.takeBefore_cons hi, Entries.takeBefore_eq_self fun c hc => (before c hc).trans hi]
    at row
  exact Entries.append_cons_inj beforeT before row

end IsLeading

end BlockMatrix

end DomainDecomposition
