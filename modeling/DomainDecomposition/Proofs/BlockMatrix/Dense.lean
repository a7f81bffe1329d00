import DomainDecomposition.BlockMatrix.Dense
import DomainDecomposition.Proofs.BlockMatrix.Valid
import DomainDecomposition.Proofs.Chunks

/-!
# Dense copies

A dense copy starts from zeros and writes the stored blocks, line by line, each into its square. The
array that is written to `Shows` a scalar for every row and column, and writing a line exchanges the
scalars under it and no others. What a valid matrix ends up with is `scalarAt`: the scalar of the
block that is stored there, and zero where none is.

* `Shows.line`, `Shows.block`, `Shows.row`: writing a line, a block, and the blocks of a row,
* `toDense_eq`: the whole copy, or the lack of room for it,
* `zipWith_ofEntries`: combining two dense matrices of one shape.
-/

namespace DomainDecomposition

open Outcome

variable {T : Type}

namespace DenseMatrix

/-- The matrix of the given scalars. -/
def ofEntries (height width : ℕ) (f : ℕ → ℕ → T) : DenseMatrix T where
  rowCount := height
  columnCount := width
  values := Array.ofFn fun l : Fin (height * width) => f (l / width) (l % width)

/-- Two matrices of one shape, combined scalar by scalar. -/
def zipWith (g : T → T → T) (d e : DenseMatrix T) : DenseMatrix T where
  rowCount := d.rowCount
  columnCount := d.columnCount
  values := Array.zipWith g d.values e.values

lemma zipWith_ofEntries (g : T → T → T) (height width : ℕ) (f f' : ℕ → ℕ → T) :
    zipWith g (ofEntries height width f) (ofEntries height width f') =
      ofEntries height width fun p q => g (f p q) (f' p q) := by
  have values : Array.zipWith g (ofEntries height width f).values (ofEntries height width f').values =
      (ofEntries height width fun p q => g (f p q) (f' p q)).values := by
    apply Array.ext
    · simp [ofEntries]
    · intro l hl hl'
      simp [ofEntries]
  unfold zipWith
  rw [values]
  rfl

/-! ## What an array shows -/

/-- Every position lies inside. -/
lemma position_lt {height width p q : ℕ} (hp : p < height) (hq : q < width) :
    p * width + q < height * width := by
  have := Span.succ_mul_le width hp
  rw [Nat.succ_mul] at this
  omega

/-- The array consists of the scalars `f p q`, row by row. -/
structure Shows (height width : ℕ) (f : ℕ → ℕ → T) (xs : Array T) : Prop where
  size : xs.size = height * width
  scalar : ∀ p < height, ∀ q < width, xs[p * width + q]? = some (f p q)

namespace Shows

variable {height width : ℕ} {f g : ℕ → ℕ → T} {xs : Array T}

lemma congr (shows : Shows height width f xs)
    (same : ∀ p < height, ∀ q < width, f p q = g p q) : Shows height width g xs where
  size := shows.size
  scalar p hp q hq := by rw [shows.scalar p hp q hq, same p hp q hq]

/-- Nothing else is in the array. -/
lemma eq_ofEntries (shows : Shows height width f xs) : xs = (ofEntries height width f).values := by
  apply Array.ext
  · rw [shows.size]
    simp [ofEntries]
  · intro l hl hl'
    rw [shows.size] at hl
    have hwidth : 0 < width := Nat.pos_of_mul_pos_left (Nat.zero_lt_of_lt hl)
    have row : l / width < height := Nat.div_lt_of_lt_mul (by rwa [Nat.mul_comm])
    have found := shows.scalar (l / width) row (l % width) (Nat.mod_lt l hwidth)
    rw [Nat.mul_comm, Nat.div_add_mod, Array.getElem?_eq_getElem (by rwa [shows.size]),
      Option.some_inj] at found
    rw [found]
    simp [ofEntries]

lemma zeros [Zero T] (height width : ℕ) :
    Shows height width (fun _ _ => (0 : T)) (Block.zeros (height * width)) where
  size := Array.size_replicate
  scalar p hp q hq := by
    rw [Block.zeros, Array.getElem?_replicate, if_pos (position_lt hp hq)]

/-- A line of scalars is written into row `p`. -/
lemma line (shows : Shows height width f xs) {p : ℕ} (hp : p < height) (left : ℕ) (ys : Array T)
    (hys : left + ys.size ≤ width) {h : ℕ → ℕ → T}
    (written : ∀ q, left ≤ q → q < left + ys.size → ys[q - left]? = some (h p q)) :
    Shows height width
      (fun p' q => if p' = p ∧ left ≤ q ∧ q < left + ys.size then h p' q else f p' q)
      (Span.overwrite xs (p * width + left) ys) where
  size := (Span.size_overwrite ..).trans shows.size
  scalar p' hp' q hq := by
    have inside : p' * width + q < xs.size := by
      rw [shows.size]
      exact position_lt hp' hq
    -- the line stays within its row, so that it covers the same columns of no other row
    have covered : (p * width + left ≤ p' * width + q ∧
        p' * width + q < p * width + left + ys.size ∧ p' * width + q < xs.size) ↔
        p' = p ∧ left ≤ q ∧ q < left + ys.size := by
      rcases Nat.lt_trichotomy p' p with before | same | after
      · have := Span.succ_mul_le width before
        rw [Nat.succ_mul] at this
        omega
      · subst same
        omega
      · have := Span.succ_mul_le width after
        rw [Nat.succ_mul] at this
        omega
    rw [Span.getElem?_overwrite, if_congr covered rfl rfl]
    by_cases under : p' = p ∧ left ≤ q ∧ q < left + ys.size
    · rw [if_pos under, if_pos under]
      obtain ⟨rfl, low, high⟩ := under
      rw [← written q low high]
      congr 1
      omega
    · rw [if_neg under, if_neg under]
      exact shows.scalar p' hp' q hq

end Shows

end DenseMatrix

namespace BlockMatrix

open DenseMatrix

variable [Zero T] {height width b : ℕ} {f : ℕ → ℕ → T} {dense : Array T}

/-- The first `n` lines of a block stand with their corner at row `top` and column `left`, and
around them is what `f` says. -/
def withLines (b top left n : ℕ) (block : Array T) (f : ℕ → ℕ → T) (p q : ℕ) : T :=
  if top ≤ p ∧ p < top + n ∧ left ≤ q ∧ q < left + b then Block.entry b block (p - top) (q - left)
  else f p q

/-- Writing one line of a block. -/
lemma writeLine_shows {top left r : ℕ} {block : Array T}
    (shows : Shows height width (withLines b top left r block f) dense) (full : block.size = b * b)
    (hr : r < b) (hrow : top + b ≤ height) (hcolumn : left + b ≤ width) :
    ∃ new, (do
        let line ← Span.run block (r * b) b
        let _ ← Span.run dense ((top + r) * width + left) b
        return Span.overwrite dense ((top + r) * width + left) line) = .ok new ∧
      Shows height width (withLines b top left (r + 1) block f) new := by
  have inside : (r + 1) * b ≤ block.size := by
    rw [full]
    exact Span.succ_mul_le b hr
  have size : (Span.chunk b block r).size = b := Span.size_chunk inside
  have room : (top + r) * width + left + b ≤ dense.size := by
    rw [shows.size]
    have := Span.succ_mul_le width (show top + r < height by omega)
    rw [Nat.succ_mul] at this
    omega
  refine ⟨Span.overwrite dense ((top + r) * width + left) (Span.chunk b block r), ?_, ?_⟩
  · rw [Span.run_chunk inside, ok_bind, Span.run_eq_ok.mpr ⟨room, rfl⟩, ok_bind]
    rfl
  -- line `r` of the block is line `top + r` of the square
  have scalars : ∀ q, left ≤ q → q < left + (Span.chunk b block r).size →
      (Span.chunk b block r)[q - left]? = some (Block.entry b block (top + r - top) (q - left)) := by
    intro q low high
    rw [Nat.succ_mul] at inside
    rw [Span.getElem?_chunk, if_pos (by omega), Block.entry, Nat.add_sub_cancel_left,
      Array.getD_eq_getD_getElem?, Array.getElem?_eq_getElem (by omega)]
    rfl
  have written := shows.line (h := fun p q => Block.entry b block (p - top) (q - left))
    (by omega) left (Span.chunk b block r) (by omega) scalars
  refine written.congr fun p _ q _ => ?_
  unfold withLines
  rw [size]
  grind

/-- Writing a block, line by line. -/
lemma writeBlock_shows (shows : Shows height width f dense) {top left : ℕ} {block : Array T}
    (full : block.size = b * b) (hrow : top + b ≤ height) (hcolumn : left + b ≤ width) :
    ∃ new, writeBlock b width top left block dense = .ok new ∧
      Shows height width (withLines b top left b block f) new := by
  have first : Shows height width (withLines b top left 0 block f) dense :=
    shows.congr fun p _ q _ => (if_neg (by omega)).symm
  have walked : ∃ new, Walk.up _ b 0 dense = .ok new ∧
      Shows height width (withLines b top left (0 + b) block f) new :=
    Walk.up_spec (P := fun n => Shows height width (withLines b top left n block f)) first
      fun r _ _ hr shows => writeLine_shows shows full (by omega) hrow hcolumn
  rw [Nat.zero_add] at walked
  unfold writeBlock
  rw [List.range_eq_range', ← Walk.up_eq_foldlM]
  exact walked

/-- Writing the block of row `i` and column `j`. -/
lemma writeBlock_shows_square (hb : 0 < b) {rows columns i j : ℕ} (hi : i < rows) (hj : j < columns)
    (shows : Shows (rows * b) (columns * b) f dense) {block : Array T} (full : block.size = b * b) :
    ∃ new, writeBlock b (columns * b) (i * b) (j * b) block dense = .ok new ∧
      Shows (rows * b) (columns * b) (fun p q => if p / b = i ∧ q / b = j then
        Block.entry b block (p % b) (q % b) else f p q) new := by
  have hrow := Span.succ_mul_le b hi
  have hcolumn := Span.succ_mul_le b hj
  rw [Nat.succ_mul] at hrow hcolumn
  obtain ⟨new, run, written⟩ := writeBlock_shows shows full hrow hcolumn
  refine ⟨new, run, written.congr fun p _ q _ => ?_⟩
  have square : ∀ k n : ℕ, k * b ≤ n ∧ n < k * b + b ↔ n / b = k := by
    intro k n
    rw [Nat.div_eq_iff hb]
    omega
  by_cases inside : p / b = i ∧ q / b = j
  · obtain ⟨rfl, rfl⟩ := inside
    have hp := (square (p / b) p).mpr rfl
    have hq := (square (q / b) q).mpr rfl
    rw [withLines, if_pos ⟨hp.1, hp.2, hq.1, hq.2⟩, if_pos ⟨rfl, rfl⟩, Nat.mod_eq_sub_div_mul,
      Nat.mod_eq_sub_div_mul]
  · rw [if_neg inside, withLines, if_neg]
    rintro ⟨low, high, low', high'⟩
    exact inside ⟨(square i p).mp ⟨low, high⟩, (square j q).mp ⟨low', high'⟩⟩

/-- Writing the blocks of row `i`. -/
lemma writeRow_shows (hb : 0 < b) {rows columns i : ℕ} (hi : i < rows) {row : Entries T}
    (regular : row.Regular b) (below : ∀ c ∈ row.columns, c < columns)
    (shows : Shows (rows * b) (columns * b) f dense) :
    ∃ new, row.foldlM (fun dense (j, block) =>
        writeBlock b (columns * b) (i * b) (j * b) block dense) dense = .ok new ∧
      Shows (rows * b) (columns * b) (fun p q => if p / b = i then
        (row.lookup (q / b)).elim (f p q) fun block => Block.entry b block (p % b) (q % b)
        else f p q) new := by
  induction row generalizing f dense with
  | nil => exact ⟨dense, rfl, shows.congr fun p _ q _ => by simp⟩
  | cons e row ih =>
    obtain ⟨j, block⟩ := e
    have full : block.size = b * b := regular.full _ List.mem_cons_self
    have hj : j < columns := below j List.mem_cons_self
    obtain ⟨next, run, written⟩ := writeBlock_shows_square hb hi hj shows full
    obtain ⟨new, rest, done⟩ :=
      ih regular.tail (fun c member => below c (List.mem_cons_of_mem _ member)) written
    refine ⟨new, ?_, done.congr fun p _ q _ => ?_⟩
    · rw [List.foldlM_cons]
      dsimp only
      rw [run, ok_bind]
      exact rest
    by_cases hp : p / b = i
    · rw [if_pos hp, if_pos hp]
      by_cases hq : q / b = j
      · -- the other blocks of the row lie in other columns
        have fresh : row.lookup j = none :=
          Entries.lookup_eq_none.mpr (Entries.not_mem_of_ascending_cons regular.ascending le_rfl)
        rw [if_pos ⟨hp, hq⟩, hq, fresh, List.lookup_cons_self]
        rfl
      · rw [if_neg (fun both => hq both.2), Entries.lookup_cons_of_ne hq]
    · rw [if_neg hp, if_neg hp, if_neg (fun both => hp both.1)]

/-! ## The whole copy -/

variable {a : BlockMatrix T}

/-- The scalar in row `p` and column `q`, zero where no block is stored. -/
def scalarAt (a : BlockMatrix T) (p q : ℕ) : T :=
  (a.block? (p / a.blockSize) (q / a.blockSize)).elim 0 fun block =>
    Block.entry a.blockSize block (p % a.blockSize) (q % a.blockSize)

/-- The scalars of the rows before row `n`. -/
def scalarsBefore (a : BlockMatrix T) (n p q : ℕ) : T :=
  if p / a.blockSize < n then a.scalarAt p q else 0

/-- Writing one row of a matrix. -/
lemma denseRow_shows (valid : a.Valid) {i : ℕ} (hi : i < a.rowCount)
    (shows : Shows (a.rowCount * a.blockSize) (a.columnCount * a.blockSize) (a.scalarsBefore i)
      dense) :
    ∃ new, (do
        (← a.view.row i).foldlM (fun dense (j, block) =>
          writeBlock a.blockSize (a.columnCount * a.blockSize) (i * a.blockSize) (j * a.blockSize)
            block dense) dense : Except Error (Array T)) = .ok new ∧
      Shows (a.rowCount * a.blockSize) (a.columnCount * a.blockSize) (a.scalarsBefore (i + 1))
        new := by
  have below : ∀ c ∈ (a.rowEntries i).columns, c < a.columnCount := by
    rw [columns_rowEntries]
    exact valid.columns_lt i hi
  obtain ⟨new, run, written⟩ := writeRow_shows valid.blockSize_pos hi (valid.regular hi) below shows
  refine ⟨new, by rw [valid.view_row hi, ok_bind]; exact run, written.congr fun p _ q _ => ?_⟩
  unfold scalarsBefore
  rcases Nat.lt_trichotomy (p / a.blockSize) i with before | same | behind
  · rw [if_neg (by omega), if_pos before, if_pos (by omega)]
  · rw [if_pos same, if_neg (by omega), if_pos (by omega), scalarAt, same,
      valid.block?_eq_lookup hi]
  · rw [if_neg (by omega), if_neg (by omega), if_neg (by omega)]

/-- Both sides of the dense matrix are machine words, and an array can hold its scalars. -/
def HasDenseCopy (a : BlockMatrix T) : Prop :=
  a.rowCount * a.blockSize < Capacity.words ∧ a.columnCount * a.blockSize < Capacity.words ∧
    a.rowCount * a.blockSize * (a.columnCount * a.blockSize) < Capacity.limit

instance (a : BlockMatrix T) : Decidable a.HasDenseCopy :=
  inferInstanceAs (Decidable (_ ∧ _ ∧ _))

omit [Zero T] in
/-- Matrices of one shape need the same room. -/
lemma hasDenseCopy_congr {f : BlockMatrix T} (blockSize : f.blockSize = a.blockSize)
    (rows : f.rowCount = a.rowCount) (columns : f.columnCount = a.columnCount) :
    f.HasDenseCopy ↔ a.HasDenseCopy := by
  unfold HasDenseCopy
  rw [blockSize, rows, columns]

/-- A dense copy shows the scalars of the matrix, and fails only for lack of room. -/
lemma toDense_eq (valid : a.Valid) :
    a.toDense =
      if a.HasDenseCopy then
        .ok (.ofEntries (a.rowCount * a.blockSize) (a.columnCount * a.blockSize) a.scalarAt)
      else .error .tooLarge := by
  unfold toDense Block.allocate Capacity.reserve Capacity.checkWord
  dsimp only
  -- the two sides are tested before the array is made, so each of the three may be what stops it
  by_cases rows : a.rowCount * a.blockSize < Capacity.words
  case neg =>
    rw [if_neg rows, if_neg fun fits : a.HasDenseCopy => rows fits.1]
    rfl
  by_cases columns : a.columnCount * a.blockSize < Capacity.words
  case neg =>
    rw [if_pos rows, if_neg columns, if_neg fun fits : a.HasDenseCopy => columns fits.2.1]
    rfl
  by_cases room : a.rowCount * a.blockSize * (a.columnCount * a.blockSize) < Capacity.limit
  case neg =>
    rw [if_pos rows, if_pos columns, if_neg room,
      if_neg fun fits : a.HasDenseCopy => room fits.2.2]
    rfl
  rw [if_pos rows, if_pos columns, if_pos room,
    if_pos (show a.HasDenseCopy from ⟨rows, columns, room⟩), ok_bind, ok_bind]
  -- the rows before row `n` have been written, and the others show zeros
  have walked : ∃ dense, Walk.up _ a.rowCount 0
      (Block.zeros (a.rowCount * a.blockSize * (a.columnCount * a.blockSize))) = .ok dense ∧
      Shows (a.rowCount * a.blockSize) (a.columnCount * a.blockSize)
        (a.scalarsBefore (0 + a.rowCount)) dense :=
    Walk.up_spec (P := fun n => Shows (a.rowCount * a.blockSize) (a.columnCount * a.blockSize)
        (a.scalarsBefore n))
      (Shows.zeros (a.rowCount * a.blockSize) (a.columnCount * a.blockSize))
      fun i _ _ high shows => denseRow_shows valid (by omega) shows
  obtain ⟨dense, run, shows⟩ := walked
  rw [Walk.up_eq_foldlM, ← List.range_eq_range'] at run
  have whole : Shows (a.rowCount * a.blockSize) (a.columnCount * a.blockSize) a.scalarAt dense :=
    shows.congr fun p hp q _ => by
      have inside : p / a.blockSize < a.rowCount := Nat.div_lt_of_lt_mul (by rwa [Nat.mul_comm])
      rw [scalarsBefore, if_pos (by omega)]
  rw [ok_bind, pure_eq, ok_bind, run, ok_bind, whole.eq_ofEntries]
  rfl

end BlockMatrix

end DomainDecomposition
