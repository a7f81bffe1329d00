import DomainDecomposition.Proofs.BlockMatrix.FactorRow

/-!
# The incomplete factors reproduce the stored positions

A factored matrix `f` holds two triangular factors on one pattern. `f.lower` reads the unit lower
factor from the entries left of the diagonal, and `f.upper` the upper factor from those right of it,
whose diagonal blocks are the inverses of the stored ones.

* `eliminate_spec`: eliminating a row against finished rows writes the old row as a combination of
  the finished rows, with the new entries left of the diagonal as coefficients,
* `factorRow_spec`: the equation of a row that has been finished,
* `Factoring.step`: what finishing one row keeps,
* `sum_lower_mul_upper`: after a successful factorization the product of the factors is the original
  matrix wherever that stores a block.
-/

namespace DomainDecomposition.BlockMatrix

open Outcome

variable {T R : Type} [Field T]

/-! ## The factors that are stored in a matrix -/

/-- The unit lower factor. -/
def lower (b : ℕ) (f : BlockMatrix T) (i j : ℕ) : Matrix (Fin b) (Fin b) T :=
  if j < i then f.coeff b i j else if j = i then 1 else 0

/-- The upper factor, whose diagonal blocks are stored inverted. -/
noncomputable def upper (b : ℕ) (f : BlockMatrix T) (i j : ℕ) : Matrix (Fin b) (Fin b) T :=
  if i < j then f.coeff b i j else if i = j then (f.coeff b i i)⁻¹ else 0

variable {b : ℕ} {f : BlockMatrix T}

lemma lower_of_lt {i j : ℕ} (h : j < i) : f.lower b i j = f.coeff b i j :=
  if_pos h

lemma lower_self (i : ℕ) : f.lower b i i = 1 := by
  rw [lower, if_neg (Nat.lt_irrefl i), if_pos rfl]

lemma lower_of_gt {i j : ℕ} (h : i < j) : f.lower b i j = 0 := by
  rw [lower, if_neg (by omega), if_neg (by omega)]

lemma upper_of_lt {i j : ℕ} (h : i < j) : f.upper b i j = f.coeff b i j :=
  if_pos h

lemma upper_self (i : ℕ) : f.upper b i i = (f.coeff b i i)⁻¹ := by
  rw [upper, if_neg (Nat.lt_irrefl i), if_pos rfl]

lemma upper_of_gt {i j : ℕ} (h : j < i) : f.upper b i j = 0 := by
  rw [upper, if_neg (by omega), if_neg (by omega)]

/-- A row of the product of both factors ends at the diagonal of the lower one. -/
lemma sum_lower_mul {n i : ℕ} (hi : i < n) (u : ℕ → Matrix (Fin b) (Fin b) T) :
    ∑ k ∈ Finset.range n, f.lower b i k * u k =
      ∑ k ∈ Finset.range i, f.coeff b i k * u k + u i := by
  obtain ⟨d, rfl⟩ : ∃ d, n = i + 1 + d := ⟨n - (i + 1), by omega⟩
  rw [Finset.sum_range_add, Finset.sum_range_succ, lower_self, one_mul]
  have hbelow : ∀ k ∈ Finset.range i, f.lower b i k * u k = f.coeff b i k * u k := by
    intro k hk
    rw [lower_of_lt (Finset.mem_range.mp hk)]
  have hbeyond : ∀ k ∈ Finset.range d, f.lower b i (i + 1 + k) * u (i + 1 + k) = 0 := by
    intro k _
    rw [lower_of_gt (by omega), zero_mul]
  rw [Finset.sum_congr rfl hbelow, Finset.sum_eq_zero hbeyond, add_zero]

/-! ## Eliminating one row -/

/-- A row behind column `j` does not meet that column of the upper factor. -/
lemma sum_coeff_mul_upper_eq_zero {row : Entries T} {j : ℕ} (behind : ∀ c ∈ row.columns, j < c)
    (i : ℕ) : ∑ k ∈ Finset.range i, row.coeff b k * f.upper b k j = 0 := by
  refine Finset.sum_eq_zero fun k _ => ?_
  rcases Nat.lt_or_ge j k with hk | hk
  · rw [upper_of_gt hk, mul_zero]
  · have hfresh : k ∉ row.columns := by
      intro h
      have := behind k h
      omega
    rw [Entries.coeff_eq_zero hfresh, zero_mul]

/-- The new entry in column `j` takes the pivot back to the old one. -/
lemma mul_diagonalBlock_mul_upper {j : ℕ} (valid : f.Valid) (has : f.HasDiagonal)
    (hj : j < f.rowCount) (unit : IsUnit (f.coeff f.blockSize j j)) (block : Array T) :
    Block.toMatrix f.blockSize (Block.mul f.blockSize block (f.diagonalBlock j)) *
      f.upper f.blockSize j j = Block.toMatrix f.blockSize block := by
  have hdet := (Matrix.isUnit_iff_isUnit_det _).mp unit
  rw [has.coeff_diagonal valid hj] at hdet
  rw [upper_self, has.coeff_diagonal valid hj, Block.toMatrix_mul, Matrix.mul_assoc,
    Matrix.mul_nonsing_inv _ hdet, mul_one]

/-- The invariant of the elimination: the old row is the combination of the finished rows with the
new entries left of column `i` as coefficients, plus what the new row holds from column `i` on. -/
lemma eliminate_spec {i : ℕ} (valid : f.Valid) (has : f.HasDiagonal) (hi : i ≤ f.rowCount)
    (units : ∀ j < i, IsUnit (f.coeff f.blockSize j j)) (count : ℕ) {row : Entries T}
    (regular : row.Regular f.blockSize) (hcount : row.columns.countP (· < i) = count) :
    ∃ new : Entries T, f.view.eliminate count row = .ok new ∧ new.columns = row.columns ∧
      new.Regular f.blockSize ∧ ∀ c ∈ row.columns, row.coeff f.blockSize c =
        ∑ k ∈ Finset.range i, new.coeff f.blockSize k * f.upper f.blockSize k c +
          if c < i then 0 else new.coeff f.blockSize c := by
  induction count generalizing row with
  | zero =>
    -- no column below `i` is left, so the finished rows do not contribute
    refine ⟨row, rfl, rfl, regular, ?_⟩
    have hbeyond := List.countP_eq_zero.mp hcount
    intro c hc
    have hci : ¬ c < i := by simpa using hbeyond c hc
    have hzero : ∀ k ∈ Finset.range i,
        row.coeff f.blockSize k * f.upper f.blockSize k c = 0 := by
      intro k hk
      have hk' : k ∉ row.columns := fun h => by
        have := hbeyond k h
        rw [Finset.mem_range] at hk
        simp [hk] at this
      rw [Entries.coeff_eq_zero hk', zero_mul]
    rw [Finset.sum_eq_zero hzero, if_neg hci, zero_add]
  | succ count ih =>
    cases row with
    | nil => simp at hcount
    | cons e rest =>
      obtain ⟨j, block⟩ := e
      obtain ⟨hji, hrest⟩ := head_lt_of_countP regular.ascending hcount
      have hj : j < f.rowCount := by omega
      obtain ⟨-, hascending, -, hright⟩ := has.ascending_pieces valid hj
      -- the row after the multiple of row `j` has been subtracted
      set m := Block.mul f.blockSize block (f.diagonalBlock j) with hm
      set rest' : Entries T := Entries.mergeRow
        (fun source old => Block.accumulate f.blockSize .minus m source old)
        (f.rightEntries j) rest with hrest'
      have hcolumns : Entries.columns rest' = Entries.columns rest := Entries.columns_mergeRow _ _ _
      have hregular : rest'.Regular f.blockSize :=
        regular.tail.mergeRow fun source old h => Block.size_accumulate _ _ _ _ h
      obtain ⟨new, hrun, hnew, hnewRegular, hcoeff⟩ :=
        ih hregular (by rw [hcolumns]; exact hrest)
      have hnewColumns : new.columns = Entries.columns rest := hnew.trans hcolumns
      have hfirst : ∀ c ∈ Entries.columns rest, j < c :=
        (Entries.ascending_cons.mp regular.ascending).1
      have hbehind : ∀ c ∈ new.columns, j < c := by
        rw [hnewColumns]
        exact hfirst
      refine ⟨(j, m) :: new, ?_, ?_, ⟨?_, ?_⟩, ?_⟩
      · rw [View.eliminate, has.view_diagonalBlock valid hj, ok_bind,
          has.view_rightOfDiagonal valid hj, ok_bind]
        show (f.view.eliminate count rest' >>= fun r => .ok ((j, m) :: r)) = _
        rw [hrun, ok_bind]
      · rw [Entries.columns_cons, Entries.columns_cons, hnewColumns]
      · exact Entries.ascending_cons.mpr ⟨hbehind, hnewRegular.ascending⟩
      · intro e member
        rcases List.mem_cons.mp member with rfl | h
        · exact Block.size_mul _ _ _
        · exact hnewRegular.full e h
      · intro c hc
        have hfresh : j ∉ new.columns := fun h => Nat.lt_irrefl j (hbehind j h)
        rw [Entries.sum_coeff_cons_mul hji hfresh]
        rcases List.mem_cons.mp hc with hcj | hc
        · -- the column of the pivot: only the pivot itself meets it
          obtain rfl : c = j := hcj
          rw [sum_coeff_mul_upper_eq_zero hbehind, if_pos hji, add_zero, add_zero, hm,
            mul_diagonalBlock_mul_upper valid has hj (units c hji), Entries.coeff_cons, if_pos rfl]
        · -- a later column: the merge has subtracted exactly the new term
          have hjc := hfirst c hc
          have hmerged := Entries.coeff_mergeRow_accumulate .minus m hascending regular.tail hc
          rw [← hrest', hcoeff c (by rw [hcolumns]; exact hc), Block.Scale.factor, neg_one_smul,
            ← sub_eq_add_neg] at hmerged
          rw [Entries.coeff_cons, if_neg (show ¬ c = j by omega), Entries.coeff_cons,
            if_neg (show ¬ c = j by omega), upper_of_lt hjc, has.coeff_right valid hj hjc,
            add_assoc, hmerged, add_sub_cancel]

/-! ## Finishing one row -/

section Row

variable [DecidableEq T] [Zero R] [One R] [Neg R] [Mul R] [LT R] [DecidableLT R] [LE R]
variable [DecidableLE R] [BEq R] [Magnitude R] [Scalar T R]

/-- The old row is the combination of the finished rows above with the new row, read as a row of the
lower factor up to the diagonal and as one of the upper factor from there on. On the diagonal itself
the upper factor has the block from which the inversion starts. -/
lemma factorRow_spec (valid : f.Valid) (has : f.HasDiagonal) {i : ℕ} (hi : i < f.rowCount)
    (units : ∀ j < i, IsUnit (f.coeff f.blockSize j j)) :
    ∃ (block : Array T) (new : Entries T) (f' : BlockMatrix T),
      block.size = f.blockSize * f.blockSize ∧
      (factorRow (R := R) i).on f = (((Block.invert (R := R) f.blockSize i).on block).1, f') ∧
      RowWritten f i new f' ∧ new.coeff f.blockSize i =
        Block.toMatrix f.blockSize ((Block.invert (R := R) f.blockSize i).on block).2 ∧
      ∀ c ∈ f.columnsOf i, (f.rowEntries i).coeff f.blockSize c =
        ∑ k ∈ Finset.range i, new.coeff f.blockSize k * f.upper f.blockSize k c +
          if c < i then 0 else if c = i then Block.toMatrix f.blockSize block
            else new.coeff f.blockSize c := by
  obtain ⟨left, right, block, f', eliminated, before, size, step, written⟩ :=
    factorRow_on (R := R) valid has hi
  obtain ⟨row, eliminated', -, -, combination⟩ := eliminate_spec valid has hi.le units _
    (valid.regular hi) (countP_rowEntries valid has hi)
  obtain rfl := Except.ok.inj (eliminated.symm.trans eliminated')
  rw [columns_rowEntries] at combination
  have fresh : i ∉ left.columns := fun member => Nat.lt_irrefl i (before i member)
  -- the inversion has exchanged the block of column `i`, and no other one
  have exchanged : ∀ c, Entries.coeff f.blockSize
      (left ++ (i, ((Block.invert (R := R) f.blockSize i).on block).2) :: right) c =
      if c = i then Block.toMatrix f.blockSize ((Block.invert (R := R) f.blockSize i).on block).2
        else Entries.coeff f.blockSize (left ++ (i, block) :: right) c :=
    Entries.coeff_exchange fresh block _
  refine ⟨block, _, f', size, step, written, by rw [exchanged, if_pos rfl], fun c hc => ?_⟩
  rw [combination c hc]
  congr 1
  · refine Finset.sum_congr rfl fun k hk => ?_
    rw [exchanged, if_neg (Finset.mem_range.mp hk).ne]
  · by_cases hci : c = i
    · rw [if_pos hci, hci, Entries.coeff_append_cons fresh, if_pos rfl]
    · rw [if_neg hci, exchanged, if_neg hci]

end Row

/-! ## All rows -/

variable [DecidableEq T] [Field R] [LinearOrder R] [IsStrictOrderedRing R] [Magnitude R]
variable [Scalar T R] [ExactScalar T R] {f' : BlockMatrix T}

omit [DecidableEq T] in
lemma RowWritten.upper_eq {i : ℕ} {row : Entries T} (written : RowWritten f i row f')
    (valid : f.Valid) (b : ℕ) {k : ℕ} (hk : k ≠ i) (j : ℕ) : f'.upper b k j = f.upper b k j := by
  rw [upper, upper, written.coeff_eq valid b hk, written.coeff_eq valid b hk]

/-- The rows before `i` hold the factors, and those from `i` on are the original ones. -/
structure Factoring (a : BlockMatrix T) (i : ℕ) (v : Array T) : Prop where
  size : v.size = a.values.size
  units : ∀ r < i, IsUnit ((a.withValues v).coeff a.blockSize r r)
  finished : ∀ r < i, ∀ c, a.Stores r c →
    ∑ k ∈ Finset.range r, (a.withValues v).coeff a.blockSize r k *
        (a.withValues v).upper a.blockSize k c + (a.withValues v).upper a.blockSize r c =
      a.coeff a.blockSize r c
  untouched : ∀ r, i ≤ r → r < a.rowCount → (a.withValues v).rowEntries r = a.rowEntries r

omit [DecidableEq T] in
lemma Factoring.start (a : BlockMatrix T) : Factoring a 0 a.values where
  size := rfl
  units := fun r hr => absurd hr (Nat.not_lt_zero r)
  finished := fun r hr => absurd hr (Nat.not_lt_zero r)
  untouched := fun _ _ _ => rfl

/-- Finishing row `i` leaves the finished rows alone and makes row `i` one of them. -/
lemma Factoring.step {a : BlockMatrix T} (valid : a.Valid) (has : a.HasDiagonal) {i : ℕ}
    (hi : i < a.rowCount) {v : Array T} (h : Factoring a i v)
    (run : (factorRow (R := R) i).on (a.withValues v) = (.ok (), f')) :
    ∃ v', f' = a.withValues v' ∧ Factoring a (i + 1) v' := by
  have hvalid := valid.withValues h.size
  obtain ⟨block, new, g, hblock, step, written, hinverse, hrow⟩ :=
    factorRow_spec (R := R) hvalid (has.withValues v) hi h.units
  obtain ⟨success, rfl⟩ := Prod.mk.inj (run.symm.trans step)
  obtain ⟨hleft, hright⟩ := Block.toMatrix_invert hblock (Prod.ext success.symm rfl)
  have hunit : IsUnit (new.coeff a.blockSize i) := hinverse ▸ IsUnit.of_mul_eq_one _ hleft
  have hpivot : Block.toMatrix a.blockSize block = (new.coeff a.blockSize i)⁻¹ :=
    (Matrix.inv_eq_left_inv (hinverse ▸ hright)).symm
  -- row `i` is the new one, all others are as they were
  have hnew := written.coeff_self hvalid a.blockSize hi
  have hcoeff := fun {r : ℕ} (hri : r ≠ i) => written.coeff_eq hvalid a.blockSize hri
  have hupper := fun {r : ℕ} (hri : r ≠ i) => written.upper_eq hvalid a.blockSize hri
  have hrows := written.rows
  obtain ⟨v', hv', rfl⟩ := written.pattern
  refine ⟨v', rfl, hv'.trans h.size, fun r hr => ?_, fun r hr c stored => ?_, fun r hri hr => ?_⟩
  · by_cases hri : r = i
    · rw [hri]
      exact (hnew i).symm ▸ hunit
    · exact (hcoeff hri r).symm ▸ h.units r (by omega)
  · by_cases hri : r = i
    · -- the new row, whose coefficients were those of the original matrix
      subst hri
      have hc : c ∈ (a.withValues v).columnsOf r := (valid.stores_iff.mp stored).2
      rw [valid.coeff_eq hi, ← h.untouched r (Nat.le_refl r) hi]
      refine Eq.trans ?_ (hrow c hc).symm
      congr 1
      · refine Finset.sum_congr rfl fun k hk => ?_
        exact congrArg₂ _ (hnew k) (hupper (Finset.mem_range.mp hk).ne c)
      · rcases Nat.lt_trichotomy c r with hcr | rfl | hcr
        · rw [upper_of_gt hcr, if_pos hcr]
          rfl
        · rw [upper_self, if_neg (Nat.lt_irrefl c), if_pos rfl]
          exact (congrArg (·⁻¹) (hnew c)).trans hpivot.symm
        · rw [upper_of_lt hcr, if_neg (by omega), if_neg (by omega)]
          exact hnew c
    · rw [← h.finished r (by omega) c stored]
      congr 1
      · refine Finset.sum_congr rfl fun k hk => ?_
        rw [Finset.mem_range] at hk
        exact congrArg₂ _ (hcoeff hri k) (hupper (by omega) c)
      · exact hupper hri c
  · refine Eq.trans ?_ (h.untouched r (by omega) hr)
    exact (hrows r hr).trans (if_neg (by omega))

/-- A successful factorization has finished all rows. -/
lemma factor_spec {a : BlockMatrix T} (valid : a.Valid)
    (run : (factor (R := R)).on a = (.ok (), f)) :
    a.HasDiagonal ∧ a.blockSize * a.blockSize < Capacity.limit ∧
      ∃ v, f = a.withValues v ∧ Factoring a a.rowCount v := by
  rcases factor_cases (R := R) valid with ⟨-, failed⟩ | ⟨-, -, failed⟩ | ⟨has, room, pass⟩
  · cases run.symm.trans failed
  · cases run.symm.trans failed
  rw [pass] at run
  refine ⟨has, room, ?_⟩
  refine Update.forM_range_spec
    (P := fun i f => ∃ v, f = a.withValues v ∧ Factoring a i v)
    ⟨a.values, rfl, Factoring.start a⟩ ?_ run
  rintro i _ t hi ⟨v, rfl, h⟩ step
  exact h.step valid has hi step

/-- The product of the factors is the original matrix at every position that it stores, whatever
the pattern drops elsewhere. The pattern itself stays, and so every diagonal block of the upper
factor is the inverse of the stored one. -/
theorem sum_lower_mul_upper {a : BlockMatrix T} (valid : a.Valid)
    (run : (factor (R := R)).on a = (.ok (), f)) :
    f = a.withValues f.values ∧
      (∀ i < a.rowCount, f.upper a.blockSize i i * f.coeff a.blockSize i i = 1 ∧
        f.coeff a.blockSize i i * f.upper a.blockSize i i = 1) ∧
      ∀ i j, a.Stores i j →
        ∑ k ∈ Finset.range a.rowCount, f.lower a.blockSize i k * f.upper a.blockSize k j =
          a.coeff a.blockSize i j := by
  obtain ⟨-, -, v, rfl, h⟩ := factor_spec valid run
  refine ⟨rfl, ?_, ?_⟩
  · intro i hi
    have hunit := (Matrix.isUnit_iff_isUnit_det _).mp (h.units i hi)
    rw [upper_self]
    exact ⟨Matrix.nonsing_inv_mul _ hunit, Matrix.mul_nonsing_inv _ hunit⟩
  · intro i j stored
    have hi := (valid.stores_iff.mp stored).1
    rw [sum_lower_mul hi]
    exact h.finished i hi j stored

/-- The elimination of row `0` would fill the position `(1, 2)`, which the pattern drops. -/
theorem arrow_sum_lower_mul_upper :
    arrow.Valid ∧ ((factor (R := ℚ)).on arrow).1 = .ok () ∧ ¬ arrow.Stores 1 2 ∧
      ∀ i j, arrow.Stores i j →
        ∑ k ∈ Finset.range 3, ((factor (R := ℚ)).on arrow).2.lower 2 i k *
            ((factor (R := ℚ)).on arrow).2.upper 2 k j = arrow.coeff 2 i j := by
  have valid : arrow.Valid := by decide +kernel
  have success : ((factor (R := ℚ)).on arrow).1 = .ok () := by decide +kernel
  exact ⟨valid, success, by decide +kernel,
    (sum_lower_mul_upper valid (Prod.ext success rfl)).2.2⟩

end DomainDecomposition.BlockMatrix
