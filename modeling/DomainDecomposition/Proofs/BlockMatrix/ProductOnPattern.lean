import DomainDecomposition.Proofs.BlockMatrix.ClearedRows
import DomainDecomposition.Proofs.BlockMatrix.FactorRow
import DomainDecomposition.Proofs.Scalar.Rational

/-!
# A product on a given pattern

`addProduct` adds a multiple of the product of two matrices to a third one, on the positions that
this one stores. A row of the left factor names rows of the right one, and each of them is merged
into the target: where both store a column, one term of the product is added, and everything else is
passed over. So a stored block gets all terms of its sum, each of them once.

* `addRowProduct_spec`: what merging the rows of the right factor does to a row,
* `addProductRow_spec`: one row of the target is written,
* `addProduct_spec`: all rows, one after the other,
* `eq_of_coeff_eq`: on one pattern the blocks determine the matrix, so that adding a product and
  taking it away again leaves nothing behind.
-/

namespace DomainDecomposition

open Outcome

variable {T : Type}

/-- Blocks of full size with the same matrix are equal. -/
lemma Block.eq_of_toMatrix_eq [Zero T] {b : ℕ} {x y : Array T} (hx : x.size = b * b)
    (hy : y.size = b * b) (same : toMatrix b x = toMatrix b y) : x = y :=
  eq_of_entry_eq hx hy fun r hr c hc => congrFun (congrFun same ⟨r, hr⟩) ⟨c, hc⟩

namespace BlockMatrix

variable {left right c f g : BlockMatrix T}

/-- On one pattern, the stored blocks determine the matrix. -/
lemma eq_of_coeff_eq [Zero T] (valid : c.Valid) (hf : SamePattern c f) (hg : SamePattern c g)
    (same : ∀ i j, c.Stores i j → f.coeff c.blockSize i j = g.coeff c.blockSize i j) : f = g := by
  obtain ⟨v, hv, rfl⟩ := hf
  obtain ⟨w, hw, rfl⟩ := hg
  refine congrArg c.withValues (Span.eq_of_chunk_eq (hv.trans valid.size_values)
    (hw.trans valid.size_values) fun k hk => ?_)
  obtain ⟨i, hi, low, high⟩ := valid.exists_row hk
  have found : c.position? i (c.columns.getD k 0) = some k :=
    (valid.position?_eq_some_iff hi low high).mpr rfl
  have blocks := same i (c.columns.getD k 0) (by rw [Stores, found]; rfl)
  rw [coeff, coeff, block?, block?, show (c.withValues v).position? = c.position? from rfl,
    show (c.withValues w).position? = c.position? from rfl, found] at blocks
  exact Block.eq_of_toMatrix_eq ((valid.withValues hv).size_storedBlock hk)
    ((valid.withValues hw).size_storedBlock hk) blocks

/-! ## Shapes -/

/-- Three matrices of one block size, of which the third has the shape of the product of the others.
-/
structure Conform (left right c : BlockMatrix T) : Prop where
  blockSize_left : left.blockSize = c.blockSize
  blockSize_right : right.blockSize = c.blockSize
  rows : left.rowCount = c.rowCount
  inner : left.columnCount = right.rowCount
  columns : right.columnCount = c.columnCount

/-- Values do not matter to the shapes. -/
lemma Conform.of_samePattern (conform : Conform left right c) (same : SamePattern c f) :
    Conform left right f where
  blockSize_left := conform.blockSize_left.trans same.blockSize_eq.symm
  blockSize_right := conform.blockSize_right.trans same.blockSize_eq.symm
  rows := conform.rows.trans same.rowCount_eq.symm
  inner := conform.inner
  columns := conform.columns.trans same.columnCount_eq.symm

/-! ## One row -/

variable [Ring T] {b : ℕ}

/-- Merging rows of the right factor adds one term for each of them. -/
lemma addRowProduct_spec (valid : right.Valid) (scale : Block.Scale T) {row : Entries T}
    (inside : ∀ e ∈ row, e.1 < right.rowCount) {target : Entries T} (regular : target.Regular b) :
    ∃ new, View.addRowProduct b scale right.view row target = .ok new ∧
      new.columns = target.columns ∧ new.Regular b ∧ ∀ j ∈ target.columns,
        new.coeff b j = target.coeff b j +
          scale.factor • (row.map fun e => Block.toMatrix b e.2 * right.coeff b e.1 j).sum := by
  induction row generalizing target with
  | nil => exact ⟨target, rfl, rfl, regular, fun j _ => by simp⟩
  | cons e row ih =>
    obtain ⟨k, block⟩ := e
    obtain ⟨hk, inside⟩ := List.forall_mem_cons.mp inside
    set merged : Entries T := Entries.mergeRow
      (fun source old => Block.accumulate b scale block source old) (right.rowEntries k) target
    have columns : merged.columns = target.columns := Entries.columns_mergeRow _ _ _
    obtain ⟨new, run, hcolumns, hregular, hcoeff⟩ := ih inside
      (regular.mergeRow fun _ _ size => Block.size_accumulate _ _ _ _ size : merged.Regular b)
    refine ⟨new, ?_, hcolumns.trans columns, hregular, fun j hj => ?_⟩
    · rw [View.addRowProduct, List.foldlM_cons]
      dsimp only
      rw [valid.view_rowSlice hk, ok_bind, pure_eq, ok_bind]
      exact run
    · have term := Entries.coeff_mergeRow_accumulate scale block (valid.regular hk).ascending
        regular hj
      rw [hcoeff j (columns ▸ hj), term, ← valid.coeff_eq hk, List.map_cons, List.sum_cons,
        smul_add, add_assoc]

/-- The block in row `i` and column `j` of a product. -/
def productCoeff (b : ℕ) (left right : BlockMatrix T) (i j : ℕ) : Matrix (Fin b) (Fin b) T :=
  ∑ k ∈ Finset.range left.columnCount, left.coeff b i k * right.coeff b k j

/-- The entries of a row contribute the terms of the product. -/
lemma sum_rowEntries_mul (valid : left.Valid) {i : ℕ} (hi : i < left.rowCount)
    (right : BlockMatrix T) (j : ℕ) :
    ((left.rowEntries i).map fun e => Block.toMatrix b e.2 * right.coeff b e.1 j).sum =
      productCoeff b left right i j := by
  have below : ∀ k ∈ (left.rowEntries i).columns, k < left.columnCount := by
    rw [columns_rowEntries]
    exact valid.columns_lt i hi
  rw [← Entries.sum_coeff (fun block k => block * right.coeff b k j) (fun k => zero_mul _)
    (valid.regular hi).ascending below, productCoeff]
  simp only [valid.coeff_eq hi]

section Rows

variable (validLeft : left.Valid) (validRight : right.Valid) (valid : c.Valid)
variable (conform : Conform left right c)

include validLeft validRight valid conform

/-- One row of the target gets its multiple of the product. -/
lemma addProductRow_spec (scale : Block.Scale T) {i : ℕ} (hi : i < c.rowCount) {values : Array T}
    (hvalues : values.size = c.values.size) :
    ∃ (new : Entries T) (v : Array T),
      View.addProductRow scale left.view right.view c.view values i = .ok v ∧
      RowWritten (c.withValues values) i new (c.withValues v) ∧ ∀ j ∈ c.columnsOf i,
        new.coeff c.blockSize j = (c.withValues values).coeff c.blockSize i j +
          scale.factor • productCoeff c.blockSize left right i j := by
  have hiLeft : i < left.rowCount := by rwa [conform.rows]
  have valid' := valid.withValues hvalues
  have inside : ∀ e ∈ left.rowEntries i, e.1 < right.rowCount := by
    intro e member
    rw [← conform.inner]
    apply validLeft.columns_lt i hiLeft
    rw [← columns_rowEntries]
    exact List.mem_map_of_mem member
  obtain ⟨new, run, hcolumns, regular, hcoeff⟩ :=
    addRowProduct_spec validRight scale inside (valid'.regular hi)
  rw [columns_rowEntries] at hcolumns hcoeff
  simp only [sum_rowEntries_mul validLeft hiLeft, ← valid'.coeff_eq hi] at hcoeff
  rw [addProductRow_eq validLeft valid conform.blockSize_left conform.blockSize_right scale hiLeft
    hi hvalues]
  cases row : left.rowEntries i with
  | nil =>
    -- an empty row of the left factor leaves the row of the target as it is
    rw [row] at run
    obtain rfl := Except.ok.inj run
    refine ⟨_, values, rfl, ⟨.refl _, fun k _ => ?_⟩, hcoeff⟩
    split
    case isTrue same => rw [same]
    case isFalse => rfl
  | cons e rest =>
    rw [row] at run
    refine ⟨new, _, ?_, ⟨⟨_, Span.size_overwrite .., rfl⟩, fun k hk =>
      rowEntries_writeRow valid' hi hcolumns regular.full hk⟩, hcoeff⟩
    change View.addRowProduct c.blockSize scale right.view (e :: rest)
      ((c.withValues values).rowEntries i) >>= _ = _
    rw [show View.addRowProduct c.blockSize scale right.view (e :: rest)
      ((c.withValues values).rowEntries i) = .ok new from run]
    rfl

/-! ## All rows -/

/-- The rows before `n` have got their multiples of the product, and the others are as they were. -/
structure RowsAdded (alpha : T) (left right c : BlockMatrix T) (n : ℕ) (f : BlockMatrix T) :
    Prop where
  pattern : SamePattern c f
  coeff : ∀ i j, c.Stores i j → f.coeff c.blockSize i j = c.coeff c.blockSize i j +
    if i < n then alpha • productCoeff c.blockSize left right i j else 0

/-- One row more. -/
lemma RowsAdded.step {alpha : T} {scale : Block.Scale T} (factor : scale.factor = alpha) {n : ℕ}
    (hn : n < c.rowCount) {values : Array T}
    (added : RowsAdded alpha left right c n (c.withValues values)) :
    ∃ v, View.addProductRow scale left.view right.view c.view values n = .ok v ∧
      RowsAdded alpha left right c (n + 1) (c.withValues v) := by
  obtain ⟨w, hvalues, rfl⟩ : ∃ w, w.size = c.values.size ∧ values = w := by
    obtain ⟨w, hw, same⟩ := added.pattern
    exact ⟨w, hw, congrArg BlockMatrix.values same⟩
  have valid' := valid.withValues hvalues
  obtain ⟨new, v, run, written, hnew⟩ :=
    addProductRow_spec validLeft validRight valid conform scale hn hvalues
  refine ⟨v, run, added.pattern.trans written.pattern, fun i j stored => ?_⟩
  by_cases own : i = n
  · -- the row that has just been written
    subst own
    rw [written.coeff_self valid' _ hn, hnew j (valid.stores_iff.mp stored).2,
      added.coeff i j stored, factor, if_neg (Nat.lt_irrefl i), add_zero,
      if_pos (Nat.lt_succ_self i)]
  · have later : i < n + 1 ↔ i < n := by omega
    rw [written.coeff_eq valid' _ own, added.coeff i j stored, if_congr later rfl rfl]

/-- Every stored block gets its multiple of the product. -/
lemma addProduct_spec [BEq T] [LawfulBEq T] (alpha : T) :
    ∃ f, (addProduct alpha left right).on c = (.ok (), f) ∧ SamePattern c f ∧
      ∀ i j, c.Stores i j → f.coeff c.blockSize i j =
        c.coeff c.blockSize i j + alpha • productCoeff c.blockSize left right i j := by
  have first : RowsAdded alpha left right c 0 (c.withValues c.values) :=
    ⟨.refl c, fun i j _ => by rw [if_neg (Nat.not_lt_zero i), add_zero]; rfl⟩
  have walked : ∃ v, View.addProduct alpha left.view right.view c.view = .ok v ∧
      RowsAdded alpha left right c (0 + min left.rowCount c.rowCount) (c.withValues v) :=
    Walk.up_spec (P := fun n values => RowsAdded alpha left right c n (c.withValues values)) first
      fun n values _ high added => by
        have inside : n < 0 + min left.rowCount c.rowCount := high
        exact added.step validLeft validRight valid conform (Block.Scale.factor_of alpha) (by omega)
  obtain ⟨v, run, added⟩ := walked
  refine ⟨c.withValues v, ?_, added.pattern, fun i j stored => ?_⟩
  · have sizes : ¬(left.blockSize ≠ c.blockSize ∨ right.blockSize ≠ c.blockSize) := by
      simp [conform.blockSize_left, conform.blockSize_right]
    have shapes : ¬(left.rowCount ≠ c.rowCount ∨ left.columnCount ≠ right.rowCount ∨
        right.columnCount ≠ c.columnCount) := by
      simp [conform.rows, conform.inner, conform.columns]
    rw [addProduct, Update.on_bind_of_ok (Update.on_get c)]
    simp only [if_neg sizes, if_neg shapes]
    rw [Update.on_replace, run]
    rfl
  · have hi : i < min left.rowCount c.rowCount := by
      rw [conform.rows, Nat.min_self]
      exact (valid.stores_iff.mp stored).1
    rw [added.coeff i j stored, if_pos (by omega)]

end Rows

/-- Factors and a target that do not fit together are refused, and the target stays as it is. -/
lemma addProduct_refused [BEq T] (alpha : T) (misfit : ¬Conform left right c) :
    ∃ fault, (addProduct alpha left right).on c = (.error (.incompatibleOperand fault), c) := by
  rw [addProduct, Update.on_bind_of_ok (Update.on_get c)]
  by_cases sizes : left.blockSize ≠ c.blockSize ∨ right.blockSize ≠ c.blockSize
  · simp only [if_pos sizes]
    exact ⟨_, rfl⟩
  by_cases shapes : left.rowCount ≠ c.rowCount ∨ left.columnCount ≠ right.rowCount ∨
      right.columnCount ≠ c.columnCount
  · simp only [if_neg sizes, if_pos shapes]
    exact ⟨_, rfl⟩
  simp only [not_or, not_not] at sizes shapes
  exact absurd ⟨sizes.1, sizes.2, shapes.1, shapes.2.1, shapes.2.2⟩ misfit

/-- The short forms of a multiplier add the same rows as the general one. -/
lemma addProductRow_of [BEq T] [LawfulBEq T] (alpha : T) :
    View.addProductRow (.of alpha) = View.addProductRow (.times alpha) := by
  have combine : (Block.Scale.of alpha).combine = (Block.Scale.times alpha).combine := by
    funext old increment
    rw [Block.Scale.combine_eq, Block.Scale.combine_eq, Block.Scale.factor_of, Block.Scale.factor]
  funext left right c values i
  simp only [View.addProductRow, View.addRowProduct, Block.accumulate, combine]

/-- Adding `alpha` times the product of two matrices of fitting dimensions. Every stored block gets
the multiple of its block of the product, where blocks that are not stored count as zero, and the
positions stay as they are. The short forms for one and minus one are those of the general formula,
and adding the opposite multiple restores the matrix. Other dimensions are refused. -/
theorem addProduct_on_pattern [BEq T] [LawfulBEq T] (validLeft : left.Valid)
    (validRight : right.Valid) (valid : c.Valid) (alpha : T) :
    (Conform left right c → ∃ f, (addProduct alpha left right).on c = (.ok (), f) ∧
      SamePattern c f ∧
      (∀ i j, c.Stores i j → f.coeff c.blockSize i j = c.coeff c.blockSize i j +
        alpha • ∑ k ∈ Finset.range left.columnCount,
          left.coeff c.blockSize i k * right.coeff c.blockSize k j) ∧
      (addProduct (-alpha) left right).on f = (.ok (), c)) ∧
    View.addProductRow (.of alpha) left.view right.view c.view =
      View.addProductRow (.times alpha) left.view right.view c.view ∧
    (¬Conform left right c →
      ∃ fault, (addProduct alpha left right).on c = (.error (.incompatibleOperand fault), c)) := by
  refine ⟨fun conform => ?_, by rw [addProductRow_of], addProduct_refused alpha⟩
  obtain ⟨f, run, same, added⟩ := addProduct_spec validLeft validRight valid conform alpha
  refine ⟨f, run, same, added, ?_⟩
  -- taking away starts from the blocks that adding has left
  obtain ⟨g, back, same', removed⟩ :=
    addProduct_spec validLeft validRight (same.valid valid) (conform.of_samePattern same)
      (-alpha)
  have restored : g = c := by
    refine eq_of_coeff_eq valid (same.trans same') (.refl c) fun i j stored => ?_
    have block := removed i j (same.stores_iff.mpr stored)
    rw [same.blockSize_eq, added i j stored, neg_smul, add_neg_cancel_right] at block
    exact block
  rw [back, restored]

/-- A left factor whose second row is empty. -/
def wideFactor : BlockMatrix ℚ where
  blockSize := 1
  rowCount := 2
  columnCount := 3
  rowStart := #[0, 2, 2]
  columns := #[0, 2]
  values := #[1, 2]
  diagonal := #[]
  invertedDiagonal := #[]

def tallFactor : BlockMatrix ℚ where
  blockSize := 1
  rowCount := 3
  columnCount := 2
  rowStart := #[0, 2, 3, 4]
  columns := #[0, 1, 1, 0]
  values := #[3, 4, 5, 6]
  diagonal := #[]
  invertedDiagonal := #[]

/-- A target without its upper left block, where the product is not zero. -/
def cornerless : BlockMatrix ℚ where
  blockSize := 1
  rowCount := 2
  columnCount := 2
  rowStart := #[0, 1, 3]
  columns := #[1, 0, 1]
  values := #[7, 8, 9]
  diagonal := #[]
  invertedDiagonal := #[]

/-- Half of the product goes to the upper right block and can be taken away again, and the factors
cannot be exchanged. -/
theorem cornerless_addProduct_on_pattern :
    (∃ f, (addProduct (1 / 2) wideFactor tallFactor).on cornerless = (.ok (), f) ∧
      f.coeff 1 0 1 = cornerless.coeff 1 0 1 + (1 / 2 : ℚ) •
        ∑ k ∈ Finset.range 3, wideFactor.coeff 1 0 k * tallFactor.coeff 1 k 1 ∧
      (addProduct (-(1 / 2)) wideFactor tallFactor).on f = (.ok (), cornerless)) ∧
    ∃ fault, (addProduct (1 / 2) tallFactor wideFactor).on cornerless =
      (.error (.incompatibleOperand fault), cornerless) := by
  have validWide : wideFactor.Valid := by decide +kernel
  have validTall : tallFactor.Valid := by decide +kernel
  have valid : cornerless.Valid := by decide +kernel
  obtain ⟨f, run, -, added, back⟩ :=
    (addProduct_on_pattern validWide validTall valid (1 / 2)).1 ⟨rfl, rfl, rfl, rfl, rfl⟩
  have exchanged : ¬Conform tallFactor wideFactor cornerless := fun conform =>
    absurd conform.rows (by decide)
  exact ⟨⟨f, run, added 0 1 (by decide +kernel), back⟩,
    (addProduct_on_pattern validTall validWide valid (1 / 2)).2.2 exchanged⟩

end BlockMatrix

end DomainDecomposition
