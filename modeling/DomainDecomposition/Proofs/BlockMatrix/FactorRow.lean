import DomainDecomposition.BlockMatrix.Factor
import DomainDecomposition.Proofs.Block.Inverse
import DomainDecomposition.Proofs.BlockMatrix.Sound

/-!
# The course of a factorization

Row `i` is eliminated against the finished rows above it, which is possible as its entries left of
the diagonal lie in columns below `i`. Then its pivot is replaced by what the inversion makes of it.
This holds in any arithmetic, and the row is written whether its pivot can be inverted or not.

* `View.gives_eliminate`: the elimination succeeds and keeps the columns and sizes of the row,
* `RowWritten`: what writing a row leaves,
* `factorRow_on`: the run of `factorRow`,
* `factor_cases`: how the runs of all rows make up that of `factor`.
-/

namespace DomainDecomposition

open Outcome

variable {T R : Type}

/-! ## Eliminating -/

namespace BlockMatrix

variable {f : BlockMatrix T}

/-- In an ascending row the columns below `i` come first. -/
lemma head_lt_of_countP {i count c : ℕ} {columns : List ℕ}
    (ascending : (c :: columns).Pairwise (· < ·))
    (hcount : (c :: columns).countP (· < i) = count + 1) :
    c < i ∧ columns.countP (· < i) = count := by
  by_cases hc : c < i
  · rw [List.countP_cons_of_pos (by simpa using hc)] at hcount
    exact ⟨hc, Nat.succ.inj hcount⟩
  · have hzero : (c :: columns).countP (· < i) = 0 := by
      rw [List.countP_eq_zero]
      intro j hj
      rcases List.mem_cons.mp hj with rfl | hj
      · simpa using hc
      · have := (List.pairwise_cons.mp ascending).1 j hj
        simp only [decide_eq_true_eq]
        omega
    omega

/-- The entries left of the diagonal are those before the kept position. -/
lemma countP_rowEntries (valid : f.Valid) (has : f.HasDiagonal) {i : ℕ} (hi : i < f.rowCount) :
    (f.rowEntries i).columns.countP (· < i) = f.diagonalOf i - f.start i := by
  obtain ⟨-, -, hleft, hright⟩ := has.ascending_pieces valid hi
  have hcountLeft : (f.leftEntries i).columns.countP (· < i) = (f.leftEntries i).length := by
    rw [← Entries.length_columns, List.countP_eq_length]
    exact fun c hc => by simpa using hleft c hc
  have hcountRight : (f.rightEntries i).columns.countP (· < i) = 0 := by
    rw [List.countP_eq_zero]
    intro c hc
    have := hright c hc
    simp only [decide_eq_true_eq]
    omega
  rw [has.rowEntries_eq hi, Entries.columns_append, Entries.columns_cons, List.countP_append,
    List.countP_cons_of_neg (by simp), hcountLeft, hcountRight, add_zero,
    HasDiagonal.length_leftEntries]

/-- A row with the columns of row `i` splits at the diagonal. -/
lemma exists_split {row : Entries T} (has : f.HasDiagonal) {i : ℕ} (hi : i < f.rowCount)
    (columns : row.columns = f.columnsOf i) :
    ∃ (left right : Entries T) (block : Array T), row = left ++ (i, block) :: right ∧
      left.length = f.diagonalOf i - f.start i ∧ left.columns = (f.leftEntries i).columns := by
  rw [← columns_rowEntries, has.rowEntries_eq hi, Entries.columns_append,
    Entries.columns_cons] at columns
  obtain ⟨left, rest, hrow, hleft, hrest⟩ := List.map_eq_append_iff.mp columns
  obtain ⟨⟨c, block⟩, right, rfl, hc, -⟩ := List.map_eq_cons_iff.mp hrest
  have hc' : c = i := hc
  subst hc'
  refine ⟨left, right, block, hrow, ?_, hleft⟩
  rw [← HasDiagonal.length_leftEntries, ← Entries.length_columns, ← Entries.length_columns]
  exact congrArg List.length hleft

/-- The block behind the entries of `left`. -/
lemma run_scalars {size i : ℕ} {left right : Entries T} {block : Array T}
    (full : ∀ e ∈ left ++ (i, block) :: right, e.2.size = size) :
    Span.run (Entries.scalars (left ++ (i, block) :: right)) (left.length * size) size =
      .ok block := by
  have hinside : left.length + 1 ≤ (left ++ (i, block) :: right).length := by
    rw [List.length_append, List.length_cons]
    omega
  have hroom : (left.length + 1) * size ≤
      (Entries.scalars (left ++ (i, block) :: right)).size := by
    rw [Entries.size_scalars full]
    exact Nat.mul_le_mul_right _ hinside
  rw [Span.run_chunk hroom, Entries.chunk_scalars full hinside]
  simp

end BlockMatrix

namespace View

variable [Zero T] [Add T] [Sub T] [Mul T] {v : View T} {i : ℕ}

/-- Only rows above row `i` are read. -/
lemma gives_eliminate
    (reads : ∀ j < i, Gives (fun _ => True) (v.diagonalBlock j) ∧
      Gives (fun _ => True) (v.rightOfDiagonal j))
    {count : ℕ} {row : Entries T} (regular : row.Regular v.blockSize)
    (hcount : row.columns.countP (· < i) = count) :
    Gives (fun new => new.columns = row.columns ∧ new.Regular v.blockSize)
      (v.eliminate count row) := by
  induction count generalizing row with
  | zero => exact ⟨rfl, regular⟩
  | succ count ih =>
    cases row with
    | nil => simp at hcount
    | cons e rest =>
      obtain ⟨j, block⟩ := e
      obtain ⟨hj, hrest⟩ := BlockMatrix.head_lt_of_countP regular.ascending hcount
      unfold eliminate
      apply (reads j hj).1.bind
      intro pivot _
      apply (reads j hj).2.bind
      intro upper _
      set m := Block.mul v.blockSize block pivot
      set rest' : Entries T := Entries.mergeRow
        (fun source old => Block.accumulate v.blockSize .minus m source old) upper rest
      have hcolumns : Entries.columns rest' = Entries.columns rest := Entries.columns_mergeRow _ _ _
      have hregular : rest'.Regular v.blockSize :=
        regular.tail.mergeRow fun _ _ h => Block.size_accumulate _ _ _ _ h
      apply (ih hregular (by rw [hcolumns]; exact hrest)).bind
      rintro new ⟨hnew, hnewRegular⟩
      rw [hcolumns] at hnew
      refine ⟨congrArg (j :: ·) hnew, Entries.ascending_cons.mpr ⟨?_, hnewRegular.ascending⟩, ?_⟩
      · rw [hnew]
        exact (Entries.ascending_cons.mp regular.ascending).1
      · intro e member
        rcases List.mem_cons.mp member with rfl | member
        · exact Block.size_mul _ _ _
        · exact hnewRegular.full e member

end View

/-! ## Writing -/

namespace BlockMatrix

variable {a f f' : BlockMatrix T} {i : ℕ}

/-- Row `i` of `f` has been replaced, and nothing else has changed. -/
structure RowWritten (f : BlockMatrix T) (i : ℕ) (row : Entries T) (f' : BlockMatrix T) : Prop where
  pattern : SamePattern f f'
  rows : ∀ k < f.rowCount, f'.rowEntries k = if k = i then row else f.rowEntries k

/-- Rows with the same entries store the same blocks. -/
lemma block?_congr (valid : a.Valid) (same : SamePattern a f)
    (rows : i < a.rowCount → f.rowEntries i = a.rowEntries i) (j : ℕ) :
    f.block? i j = a.block? i j := by
  have valid' := same.valid valid
  obtain ⟨v, -, rfl⟩ := same
  rcases Nat.lt_or_ge i a.rowCount with hi | hi
  · rw [valid'.block?_eq_lookup hi, valid.block?_eq_lookup hi, rows hi]
  · rw [block?, block?, valid'.position?_eq_none hi, valid.position?_eq_none hi]
    rfl

section Coefficients

variable [Zero T] {row : Entries T}

/-- The other rows keep their coefficients. -/
lemma RowWritten.coeff_eq (written : RowWritten f i row f') (valid : f.Valid) (b : ℕ) {k : ℕ}
    (hk : k ≠ i) (j : ℕ) : f'.coeff b k j = f.coeff b k j := by
  rw [coeff, coeff, block?_congr valid written.pattern fun inside => by
    rw [written.rows k inside, if_neg hk]]

/-- The coefficients of row `i` are those that have been written. -/
lemma RowWritten.coeff_self (written : RowWritten f i row f') (valid : f.Valid) (b : ℕ)
    (hi : i < f.rowCount) (j : ℕ) : f'.coeff b i j = row.coeff b j := by
  have rows := written.rows i hi
  have valid' := written.pattern.valid valid
  obtain ⟨v, -, rfl⟩ := written.pattern
  rw [if_pos rfl] at rows
  rw [valid'.coeff_eq hi, rows]

end Coefficients

section Arithmetic

variable [Zero T] [One T] [Add T] [Sub T] [Mul T] [Div T] [BEq T]
variable [Zero R] [One R] [Neg R] [Mul R] [LT R] [DecidableLT R] [LE R] [DecidableLE R] [BEq R]
variable [Magnitude R] [Scalar T R]

/-- Row `i` is eliminated and cut at the diagonal, and what the inversion has made of the pivot is
put back. The result is that of the inversion. -/
lemma factorRow_on (valid : f.Valid) (has : f.HasDiagonal) (hi : i < f.rowCount) :
    ∃ (left right : Entries T) (block : Array T) (f' : BlockMatrix T),
      f.view.eliminate (f.diagonalOf i - f.start i) (f.rowEntries i) =
        .ok (left ++ (i, block) :: right) ∧
      (∀ c ∈ left.columns, c < i) ∧ block.size = f.blockSize * f.blockSize ∧
      (factorRow (R := R) i).on f =
        (((Block.invert (R := R) f.blockSize i).on block).1, f') ∧
      RowWritten f i (left ++ (i, ((Block.invert (R := R) f.blockSize i).on block).2) :: right)
        f' := by
  have reads : ∀ j < i, Gives (fun _ => True) (f.view.diagonalBlock j) ∧
      Gives (fun _ => True) (f.view.rightOfDiagonal j) := by
    intro j hj
    exact ⟨.of_eq_ok (has.view_diagonalBlock valid (hj.trans hi)) trivial,
      .of_eq_ok (has.view_rightOfDiagonal valid (hj.trans hi)) trivial⟩
  obtain ⟨row, eliminated, columns, regular⟩ := (View.gives_eliminate (v := f.view) reads
    (valid.regular hi) (countP_rowEntries valid has hi)).exists_eq_ok
  rw [columns_rowEntries] at columns
  obtain ⟨left, right, block, rfl, length, leftColumns⟩ := exists_split has hi columns
  have full : ∀ e ∈ left ++ (i, block) :: right, e.2.size = f.blockSize * f.blockSize :=
    regular.full
  have size : block.size = f.blockSize * f.blockSize :=
    full (i, block) (List.mem_append_right _ List.mem_cons_self)
  have inverseSize : ((Block.invert (R := R) f.blockSize i).on block).2.size =
      f.blockSize * f.blockSize := Block.size_invert size
  set inverse := ((Block.invert (R := R) f.blockSize i).on block).2 with hinverse
  have written : Entries.columns (left ++ (i, inverse) :: right) = f.columnsOf i := by
    rw [← columns, Entries.columns_append, Entries.columns_append, Entries.columns_cons,
      Entries.columns_cons]
  have before : ∀ c ∈ left.columns, c < i := by
    rw [leftColumns]
    exact (has.ascending_pieces valid hi).2.2.1
  refine ⟨left, right, block, _, eliminated, before, size, ?_,
    ⟨⟨_, Span.size_overwrite .., rfl⟩, fun k hk =>
      rowEntries_writeRow valid hi written (regular.exchange inverseSize).full hk⟩⟩
  -- the offset that is kept for the diagonal is the number of entries left of it
  have found : f.eliminatedRow i =
      .ok (Entries.scalars (left ++ (i, block) :: right), left.length) := by
    rw [eliminatedRow, valid.item_rowStart (Nat.le_of_lt hi), ok_bind, has.item_diagonal hi,
      ok_bind, valid.view_row hi, ok_bind, eliminated, ok_bind, length]
    rfl
  rw [factorRow, Update.on_bind_of_ok (Update.on_get f), found,
    Update.on_bind_of_ok (Update.on_monadLift _ _), valid.item_rowStart (Nat.le_of_lt hi),
    Update.on_bind_of_ok (Update.on_monadLift _ _)]
  simp only
  rw [run_scalars full, Update.on_bind_of_ok (Update.on_monadLift _ _),
    Update.on_bind_of_ok (Update.on_set _ _), Update.on_monadLift, ← hinverse,
    Entries.overwrite_scalars full inverseSize]
  rfl

/-! ## All rows -/

/-- Once the checks have been passed, a factorization is a pass over the rows. -/
lemma factor_on (has : a.HasDiagonal) (room : a.blockSize * a.blockSize < Capacity.limit) :
    (factor (R := R)).on a = ((List.range a.rowCount).forM (factorRow (R := R))).on a := by
  rw [factor, Update.on_bind_of_ok (Update.on_get a), has.requireDiagonal_eq,
    Update.on_bind_of_ok (Update.on_monadLift _ a), Update.on_bind_of_ok (Update.on_get a),
    Update.on_bind_of_ok (Update.on_get a), Capacity.reserve_eq_ok_iff.mpr room,
    Update.on_bind_of_ok (Update.on_monadLift _ a), Update.on_bind_of_ok (Update.on_get a)]

/-- A factorization refuses its matrix, or it passes over the rows. -/
lemma factor_cases (valid : a.Valid) :
    (¬a.HasDiagonal ∧ (factor (R := R)).on a = (.error (.config .diagonalMissing), a)) ∨
    (a.HasDiagonal ∧ ¬a.blockSize * a.blockSize < Capacity.limit ∧
      (factor (R := R)).on a = (.error .tooLarge, a)) ∨
    (a.HasDiagonal ∧ a.blockSize * a.blockSize < Capacity.limit ∧
      (factor (R := R)).on a = ((List.range a.rowCount).forM (factorRow (R := R))).on a) := by
  by_cases has : a.HasDiagonal
  · by_cases room : a.blockSize * a.blockSize < Capacity.limit
    · exact .inr (.inr ⟨has, room, factor_on has room⟩)
    · refine .inr (.inl ⟨has, room, ?_⟩)
      rw [factor, Update.on_bind_of_ok (Update.on_get a), has.requireDiagonal_eq,
        Update.on_bind_of_ok (Update.on_monadLift _ a), Update.on_bind_of_ok (Update.on_get a),
        Update.on_bind_of_ok (Update.on_get a), Update.on_bind, Update.on_monadLift,
        Capacity.reserve, if_neg room]
  · refine .inl ⟨has, ?_⟩
    rw [factor, Update.on_bind_of_ok (Update.on_get a), Update.on_bind, Update.on_monadLift,
      valid.requireDiagonal_eq_error has]

end Arithmetic

end BlockMatrix

end DomainDecomposition
