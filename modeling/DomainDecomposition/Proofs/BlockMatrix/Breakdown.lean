import DomainDecomposition.Proofs.BlockMatrix.FactorSafety
import DomainDecomposition.Proofs.BlockMatrix.Principal

/-!
# Where a factorization stops

A factorization finishes one row after the other, and the first pivot that cannot be inverted stops
it. Finishing row `i` reads rows up to `i` and writes row `i` alone (`factorRow_on`). So the rows
behind the failing one are still the original ones. An entry from column `o` on never reaches a
column before, so the factorization of the first `o` rows and columns takes the same steps
(`IsLeading.factorRow`), and where the whole matrix fails in row `o` it has done all of them.

* `IsLeading.factorRow`: one row of a leading submatrix,
* `factor_stops_at_singular_pivot`: what is left after a failure, in any arithmetic and in a field.
-/

namespace DomainDecomposition.BlockMatrix

open Outcome

variable {T R : Type} {a f f' s t : BlockMatrix T} {i k o r : ℕ}

/-! ## Leading submatrices -/

section Arithmetic

variable [Zero T] [One T] [Add T] [Sub T] [Mul T] [Div T] [BEq T]
variable [Zero R] [One R] [Neg R] [Mul R] [LT R] [DecidableLT R] [LE R] [DecidableLE R] [BEq R]
variable [Magnitude R] [Scalar T R]

omit [One T] [Div T] [BEq T] in
/-- A leading submatrix eliminates a row as the whole matrix does. -/
lemma IsLeading.eliminate (leading : IsLeading f o t) (valid : f.Valid) (has : f.HasDiagonal)
    (inside : o ≤ f.rowCount) (hi : i ≤ o) {count : ℕ} {row : Entries T}
    (ascending : row.columns.Pairwise (· < ·)) (hcount : row.columns.countP (· < i) = count) :
    t.view.eliminate count (row.takeBefore o) =
      (f.view.eliminate count row).map (Entries.takeBefore o) := by
  induction count generalizing row with
  | zero => rfl
  | succ count ih =>
    cases row with
    | nil => simp at hcount
    | cons e rest =>
      obtain ⟨j, block⟩ := e
      obtain ⟨hji, hrest⟩ := head_lt_of_countP ascending hcount
      have hj : j < o := by omega
      have hjF : j < f.rowCount := hj.trans_le inside
      have hjT : j < t.rowCount := leading.rowCount_eq ▸ hj
      have hasT := leading.hasDiagonal valid inside has
      obtain ⟨-, diagonal, right⟩ := leading.pieces_eq valid inside has hj
      have tail := (Entries.ascending_cons.mp ascending).2
      have size : t.view.blockSize = f.view.blockSize := leading.blockSize_eq
      -- what the merge drops from column `o` on may as well be dropped before it
      have merged := Entries.takeBefore_mergeRow (fun source old => Block.accumulate
        f.view.blockSize .minus (Block.mul f.view.blockSize block (f.diagonalBlock j)) source old) o
        (has.ascending_pieces valid hjF).2.1 tail
      rw [Entries.takeBefore_cons hj, View.eliminate, View.eliminate,
        hasT.view_diagonalBlock leading.valid hjT, has.view_diagonalBlock valid hjF, ok_bind,
        ok_bind, hasT.view_rightOfDiagonal leading.valid hjT, has.view_rightOfDiagonal valid hjF,
        ok_bind, ok_bind, diagonal, right, size]
      simp only
      rw [← merged, ih (by rwa [Entries.columns_mergeRow]) (by rwa [Entries.columns_mergeRow])]
      cases f.view.eliminate count (Entries.mergeRow _ (f.rightEntries j) rest) with
      | error e => rfl
      | ok new => exact congrArg Except.ok (Entries.takeBefore_cons hj _ new).symm

/-- Finishing a row of a leading submatrix leaves a leading submatrix. -/
lemma IsLeading.factorRow (leading : IsLeading f o t) (valid : f.Valid) (has : f.HasDiagonal)
    (inside : o ≤ f.rowCount) (hi : i < o)
    (run : (factorRow (R := R) i).on f = (.ok (), f')) :
    ∃ t', (BlockMatrix.factorRow (R := R) i).on t = (.ok (), t') ∧ IsLeading f' o t' := by
  have hiF := hi.trans_le inside
  have hiT : i < t.rowCount := leading.rowCount_eq ▸ hi
  have hasT := leading.hasDiagonal valid inside has
  obtain ⟨left, right, block, g, eliminated, before, -, step, written⟩ :=
    factorRow_on (R := R) valid has hiF
  obtain ⟨leftT, rightT, blockT, t', eliminatedT, beforeT, -, stepT, writtenT⟩ :=
    factorRow_on (R := R) leading.valid hasT hiT
  rw [run] at step
  obtain ⟨success, rfl⟩ := Prod.mk.inj step
  -- both eliminations end with the same entries up to the diagonal
  have count : t.diagonalOf i - t.start i = f.diagonalOf i - f.start i := by
    rw [← HasDiagonal.length_leftEntries, ← HasDiagonal.length_leftEntries,
      (leading.pieces_eq valid inside has hi).1]
  rw [leading.rowEntries_eq valid inside hi, count, leading.eliminate valid has inside hi.le
    (valid.regular hiF).ascending (countP_rowEntries valid has hiF), eliminated] at eliminatedT
  have same := Except.ok.inj eliminatedT
  rw [Entries.takeBefore_append, Entries.takeBefore_cons hi,
    Entries.takeBefore_eq_self fun c hc => (before c hc).trans hi] at same
  obtain ⟨rfl, rfl, rfl⟩ := Entries.append_cons_inj before beforeT same
  rw [leading.blockSize_eq] at stepT writtenT
  refine ⟨t', stepT.trans (Prod.ext success.symm rfl), ?_⟩
  have validT' := writtenT.pattern.valid leading.valid
  have valid' := written.pattern.valid valid
  obtain ⟨⟨v, -, rfl⟩, rows⟩ := written
  obtain ⟨⟨w, -, rfl⟩, rowsT⟩ := writtenT
  refine .of_rows validT' valid' leading.blockSize_eq leading.rowCount_eq leading.columnCount_eq
    inside fun k hk => ?_
  rw [rowsT k (leading.rowCount_eq ▸ hk), rows k (hk.trans_le inside)]
  split
  · rw [Entries.takeBefore_append, Entries.takeBefore_cons hi,
      Entries.takeBefore_eq_self fun c hc => (before c hc).trans hi]
  · exact leading.rowEntries_eq valid inside hk

end Arithmetic

/-! ## The course of a factorization -/

/-- The rows from `k` on are still those of `a`, and so is the pattern. -/
structure Reached (a : BlockMatrix T) (k : ℕ) (s : BlockMatrix T) : Prop where
  pattern : SamePattern a s
  rest : ∀ j, k ≤ j → j < a.rowCount → s.rowEntries j = a.rowEntries j

lemma Reached.start (a : BlockMatrix T) : Reached a 0 a :=
  ⟨.refl a, fun _ _ _ => rfl⟩

lemma Reached.step (reached : Reached a k s) {row : Entries T} (written : RowWritten s k row f) :
    Reached a (k + 1) f where
  pattern := reached.pattern.trans written.pattern
  rest := by
    intro j low high
    rw [written.rows j (reached.pattern.rowCount_eq ▸ high), if_neg (by omega),
      reached.rest j (by omega) high]

section Course

variable [Zero T] [One T] [Add T] [Sub T] [Mul T] [Div T] [BEq T]
variable [Zero R] [One R] [Neg R] [Mul R] [LT R] [DecidableLT R] [LE R] [DecidableLE R] [BEq R]
variable [Magnitude R] [Scalar T R] (valid : a.Valid) (has : a.HasDiagonal)

include valid has

/-- One more row, whether its pivot can be inverted or not. -/
lemma Reached.factorRow (reached : Reached a k s) (hk : k < a.rowCount) :
    Reached a (k + 1) ((BlockMatrix.factorRow (R := R) k).on s).2 := by
  obtain ⟨left, right, block, f, -, -, -, step, written⟩ := factorRow_on (R := R)
    (reached.pattern.valid valid) (reached.pattern.hasDiagonal has) (reached.pattern.rowCount_eq ▸ hk)
  rw [step]
  exact reached.step written

/-- The first `k` rows are finished without a look at the others. -/
lemma reached_of_forM (hk : k ≤ a.rowCount)
    (run : ((List.range k).forM (factorRow (R := R))).on a = (.ok (), s)) : Reached a k s := by
  refine Update.forM_range_spec (P := Reached a) (.start a) ?_ run
  intro i s f hi reached step
  have next := reached.factorRow (R := R) valid has (hi.trans_le hk)
  rwa [step] at next

/-- A leading submatrix goes along with the rows that it has. -/
lemma IsLeading.forM_factorRow (leading : IsLeading a o t) (inside : o ≤ a.rowCount) (hk : k ≤ o)
    (run : ((List.range k).forM (BlockMatrix.factorRow (R := R))).on a = (.ok (), s)) :
    ∃ t', ((List.range k).forM (BlockMatrix.factorRow (R := R))).on t = (.ok (), t') ∧
      IsLeading s o t' := by
  -- the invariant: both runs have finished `j` rows, and the one matrix still leads the other
  have along := Update.forM_range_spec (P := fun j s => Reached a j s ∧
    ∃ t', ((List.range j).forM (BlockMatrix.factorRow (R := R))).on t = (.ok (), t') ∧
      IsLeading s o t') ⟨.start a, t, rfl, leading⟩ ?_ run
  · exact along.2
  rintro j s f hj ⟨reached, t', before, leading'⟩ step
  have next := reached.factorRow (R := R) valid has (by omega)
  rw [step] at next
  obtain ⟨t'', stepT, leading''⟩ := leading'.factorRow (reached.pattern.valid valid)
    (reached.pattern.hasDiagonal has) (reached.pattern.rowCount_eq ▸ inside) (hj.trans_le hk) step
  refine ⟨next, t'', ?_, leading''⟩
  rw [Update.forM_range_succ, Update.on_bind_of_ok before, stepT]

omit has in
/-- The row that is reported is the one whose pivot has not been inverted. -/
lemma exists_of_singularPivot (run : (factor (R := R)).on a = (.error (.singularPivot r), f)) :
    a.HasDiagonal ∧ a.blockSize * a.blockSize < Capacity.limit ∧ r < a.rowCount ∧
      ∃ s, ((List.range r).forM (factorRow (R := R))).on a = (.ok (), s) ∧
        (factorRow (R := R) r).on s = (.error (.singularPivot r), f) := by
  rcases factor_cases (R := R) valid with ⟨-, failed⟩ | ⟨-, -, failed⟩ | ⟨has, room, pass⟩
  · cases run.symm.trans failed
  · cases run.symm.trans failed
  rw [pass] at run
  obtain ⟨i, hi, s, before, step⟩ := Update.forM_range_eq_error run
  have reached := reached_of_forM valid has hi.le before
  have hiS : i < s.rowCount := reached.pattern.rowCount_eq ▸ hi
  obtain ⟨left, right, block, g, -, -, size, step', -⟩ := factorRow_on (R := R)
    (reached.pattern.valid valid) (reached.pattern.hasDiagonal has) hiS
  obtain ⟨failure, -⟩ := Prod.mk.inj (step.symm.trans step')
  rcases Block.invert_result (R := R) i size with success | singular
  · rw [success] at failure
    cases failure
  · rw [singular] at failure
    cases failure
    exact ⟨has, room, hi, s, before, step⟩

end Course

/-! ## Pivots -/

section Pivots

variable [Field T]

/-- The block is the updated pivot of row `i`: what is left of the diagonal block of `a` by the
entries that `f` holds left of it and above it. -/
structure UpdatedPivot (a f : BlockMatrix T) (i : ℕ) (block : Array T) : Prop where
  size : block.size = a.blockSize * a.blockSize
  matrix : Block.toMatrix a.blockSize block = a.coeff a.blockSize i i -
    ∑ m ∈ Finset.range i, f.coeff a.blockSize i m * f.coeff a.blockSize m i

/-- Rows behind do not matter. -/
lemma UpdatedPivot.congr {block : Array T} (pivot : UpdatedPivot a s i block)
    (same : ∀ k ≤ i, ∀ j, f.coeff a.blockSize k j = s.coeff a.blockSize k j) :
    UpdatedPivot a f i block where
  size := pivot.size
  matrix := by
    rw [pivot.matrix]
    congr 1
    refine Finset.sum_congr rfl fun m hm => ?_
    rw [same i le_rfl, same m (Finset.mem_range.mp hm).le]

variable [DecidableEq T] [Field R] [LinearOrder R] [IsStrictOrderedRing R] [Magnitude R]
variable [Scalar T R] [ExactScalar T R]

/-- The first `k` pivots could be inverted. -/
structure Accepted (a : BlockMatrix T) (k : ℕ) (s : BlockMatrix T) : Prop where
  reached : Reached a k s
  units : ∀ i < k, IsUnit (s.coeff a.blockSize i i)
  pivots : ∀ i < k, ∃ block, UpdatedPivot a s i block ∧
    ((Block.invert (R := R) a.blockSize i).on block).1 = .ok ()

variable (valid : a.Valid) (has : a.HasDiagonal)

include valid has

omit [IsStrictOrderedRing R] [ExactScalar T R] in
/-- The block that is inverted in row `i` is the updated pivot. -/
lemma Accepted.updatedPivot (accepted : Accepted (R := R) a i s) (hi : i < a.rowCount) :
    ∃ (block : Array T) (new : Entries T) (f : BlockMatrix T), UpdatedPivot a f i block ∧
      (factorRow (R := R) i).on s = (((Block.invert (R := R) a.blockSize i).on block).1, f) ∧
      RowWritten s i new f ∧ f.coeff a.blockSize i i = Block.toMatrix a.blockSize
        ((Block.invert (R := R) a.blockSize i).on block).2 := by
  have reached := accepted.reached
  have units := accepted.units
  have rows := reached.pattern.rowCount_eq
  have blockSize := reached.pattern.blockSize_eq
  rw [← blockSize] at units ⊢
  have validS := reached.pattern.valid valid
  have hasS := reached.pattern.hasDiagonal has
  have hiS : i < s.rowCount := rows ▸ hi
  obtain ⟨block, new, f, size, step, written, inverse, combination⟩ :=
    factorRow_spec (R := R) validS hasS hiS units
  -- the equation of the row in its own column
  have stored : i ∈ s.columnsOf i := (validS.stores_iff.mp (hasS.stores_diagonal validS hiS)).2
  have diagonal := combination i stored
  rw [if_neg (Nat.lt_irrefl i), if_pos rfl, reached.rest i le_rfl hi, ← valid.coeff_eq hi]
    at diagonal
  refine ⟨block, new, f, ⟨blockSize ▸ size, ?_⟩, step, written, ?_⟩
  · rw [← blockSize, diagonal, eq_sub_iff_add_eq']
    congr 1
    refine Finset.sum_congr rfl fun m hm => ?_
    have hm := Finset.mem_range.mp hm
    rw [upper_of_lt hm, written.coeff_eq validS _ hm.ne, written.coeff_self validS _ hiS]
  · rw [written.coeff_self validS _ hiS, inverse]

/-- One more pivot that can be inverted. -/
lemma Accepted.step (accepted : Accepted (R := R) a i s) (hi : i < a.rowCount)
    (run : (factorRow (R := R) i).on s = (.ok (), f)) : Accepted (R := R) a (i + 1) f := by
  obtain ⟨block, new, g, pivot, step, written, diagonal⟩ := accepted.updatedPivot valid has hi
  obtain ⟨success, rfl⟩ := Prod.mk.inj (run.symm.trans step)
  have validS := accepted.reached.pattern.valid valid
  have kept : ∀ k < i, ∀ j, f.coeff a.blockSize k j = s.coeff a.blockSize k j :=
    fun k hk j => written.coeff_eq validS _ hk.ne j
  refine ⟨accepted.reached.step written, fun k hk => ?_, fun k hk => ?_⟩
  · rcases Nat.lt_succ_iff_lt_or_eq.mp hk with before | rfl
    · rw [kept k before]
      exact accepted.units k before
    · rw [diagonal]
      exact IsUnit.of_mul_eq_one _
        (Block.toMatrix_invert pivot.size (Prod.ext success.symm rfl)).1
  · rcases Nat.lt_succ_iff_lt_or_eq.mp hk with before | rfl
    · obtain ⟨block, pivot, inverted⟩ := accepted.pivots k before
      exact ⟨block, pivot.congr fun m hm => kept m (hm.trans_lt before), inverted⟩
    · exact ⟨block, pivot, success.symm⟩

lemma accepted_of_forM (hk : k ≤ a.rowCount)
    (run : ((List.range k).forM (factorRow (R := R))).on a = (.ok (), s)) :
    Accepted (R := R) a k s := by
  refine Update.forM_range_spec (P := Accepted (R := R) a) ⟨.start a, ?_, ?_⟩ ?_ run
  · exact fun i hi => absurd hi (Nat.not_lt_zero i)
  · exact fun i hi => absurd hi (Nat.not_lt_zero i)
  · exact fun i s f hi accepted step => accepted.step valid has (hi.trans_le hk) step

end Pivots

/-! ## What is left -/

/-- A factorization that reports a singular pivot in row `r` has changed values only, and none
behind row `r`. In the first `r` rows and columns it leaves what the factorization of that leading
submatrix does, which succeeds. In a field, `r` is the first row whose updated pivot is rejected by
the inversion. -/
theorem factor_stops_at_singular_pivot :
    (∀ {T R : Type} [Zero T] [One T] [Add T] [Sub T] [Mul T] [Div T] [BEq T] [Zero R] [One R]
        [Neg R] [Mul R] [LT R] [DecidableLT R] [LE R] [DecidableLE R] [BEq R] [Magnitude R]
        [Scalar T R] {a f : BlockMatrix T} {r : ℕ}, a.Valid →
      (factor (R := R)).on a = (.error (.singularPivot r), f) →
      r < a.rowCount ∧ f = a.withValues f.values ∧
        (∀ i, r < i → ∀ j, f.block? i j = a.block? i j) ∧ (∃ t, IsLeading a r t) ∧
        ∀ t, IsLeading a r t → ∃ g, (factor (R := R)).on t = (.ok (), g) ∧
          ∀ i < r, ∀ j < r, f.block? i j = g.block? i j) ∧
    ∀ {T R : Type} [Field T] [DecidableEq T] [Field R] [LinearOrder R] [IsStrictOrderedRing R]
        [Magnitude R] [Scalar T R] [ExactScalar T R] {a f : BlockMatrix T} {r : ℕ}, a.Valid →
      (factor (R := R)).on a = (.error (.singularPivot r), f) →
      (∀ i < r, ∃ block, UpdatedPivot a f i block ∧
        ((Block.invert (R := R) a.blockSize i).on block).1 = .ok ()) ∧
      ∃ block, UpdatedPivot a f r block ∧
        ((Block.invert (R := R) a.blockSize r).on block).1 = .error (.singularPivot r) := by
  refine ⟨?_, ?_⟩
  · introv valid run
    obtain ⟨has, room, hr, s, before, step⟩ := exists_of_singularPivot valid run
    have reached := reached_of_forM valid has hr.le before
    have validS := reached.pattern.valid valid
    have hrS : r < s.rowCount := reached.pattern.rowCount_eq ▸ hr
    obtain ⟨left, right, block, g, -, -, -, step', written⟩ := factorRow_on (R := R) validS
      (reached.pattern.hasDiagonal has) hrS
    obtain rfl : f = g := congrArg Prod.snd (step.symm.trans step')
    have pattern : SamePattern a f := reached.pattern.trans written.pattern
    refine ⟨hr, ?_, fun i hi j => ?_, exists_leading valid hr.le, fun t leading => ?_⟩
    · obtain ⟨v, -, rfl⟩ := pattern
      rfl
    · refine block?_congr valid pattern (fun inside => ?_) j
      rw [written.rows i (reached.pattern.rowCount_eq ▸ inside), if_neg hi.ne',
        reached.rest i hi.le inside]
    · obtain ⟨g, run', leading'⟩ := leading.forM_factorRow valid has hr.le le_rfl before
      have hasT := leading.hasDiagonal valid hr.le has
      refine ⟨g, ?_, fun i hi j hj => ?_⟩
      · rw [factor_on hasT (by rw [leading.blockSize_eq]; exact room), leading.rowCount_eq, run']
      · -- the failing row is none of them
        have same : f.block? i j = s.block? i j := by
          refine block?_congr validS written.pattern (fun inside => ?_) j
          rw [written.rows i inside, if_neg hi.ne]
        rw [same, leading'.block?_eq i hi j hj]
  · introv arithmetic valid run
    obtain ⟨has, -, hr, s, before, step⟩ := exists_of_singularPivot valid run
    have accepted := accepted_of_forM valid has hr.le before
    obtain ⟨block, new, g, pivot, step', written, -⟩ := accepted.updatedPivot valid has hr
    obtain ⟨failure, rfl⟩ := Prod.mk.inj (step.symm.trans step')
    refine ⟨fun i hi => ?_, block, pivot, failure.symm⟩
    obtain ⟨block, pivot, inverted⟩ := accepted.pivots i hi
    have validS := accepted.reached.pattern.valid valid
    exact ⟨block, pivot.congr fun m hm j => written.coeff_eq validS _ (by omega) j, inverted⟩

/-- Four rows, of which the third one loses its pivot to the second one. -/
def stuck : BlockMatrix ℚ where
  blockSize := 1
  rowCount := 4
  columnCount := 4
  rowStart := #[0, 3, 6, 9, 11]
  columns := #[0, 1, 3, 0, 1, 2, 1, 2, 3, 0, 3]
  values := #[1, 1, 2, 1, 2, 1, 1, 1, 3, 5, 1]
  diagonal := #[0, 4, 7, 10]
  invertedDiagonal := #[]

/-- The rows before the third one are finished and the last one is as it was. -/
theorem stuck_stops_at_singular_pivot :
    ∃ f, (factor (R := ℚ)).on stuck = (.error (.singularPivot 2), f) ∧
      f = stuck.withValues f.values ∧ (∀ j, f.block? 3 j = stuck.block? 3 j) ∧
      (∃ t g, IsLeading stuck 2 t ∧ (factor (R := ℚ)).on t = (.ok (), g) ∧
        ∀ i < 2, ∀ j < 2, f.block? i j = g.block? i j) ∧
      ∃ block, UpdatedPivot stuck f 2 block ∧
        ((Block.invert (R := ℚ) 1 2).on block).1 = .error (.singularPivot 2) := by
  have valid : stuck.Valid := by decide +kernel
  have failure : ((factor (R := ℚ)).on stuck).1 = .error (.singularPivot 2) := by decide +kernel
  have run : (factor (R := ℚ)).on stuck =
      (.error (.singularPivot 2), ((factor (R := ℚ)).on stuck).2) := Prod.ext failure rfl
  obtain ⟨-, pattern, behind, ⟨t, leading⟩, before⟩ := factor_stops_at_singular_pivot.1 valid run
  obtain ⟨g, success, same⟩ := before t leading
  exact ⟨_, run, pattern, behind 3 (by decide), ⟨t, g, leading, success, same⟩,
    (factor_stops_at_singular_pivot.2 valid run).2⟩

end DomainDecomposition.BlockMatrix
