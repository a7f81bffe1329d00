import DomainDecomposition.Proofs.BlockMatrix.Combination
import DomainDecomposition.Proofs.BlockMatrix.Product

/-!
# Products with the dense matrix

A matrix stands for a dense matrix of scalars, `dense`, whether or not there is room to write it
out: the scalar in row `i * b + r` and column `j * b + c` is the entry `(r, c)` of block `(i, j)`,
or zero where no block is stored. In exact arithmetic the three products are products with the dense
matrix. What was in the output of a product that replaces it does not matter.

* `sum_range_blocks`: a sum over the scalars of a vector is a sum over its blocks,
* `part_dense_mulVec`: a block of the product with the dense matrix,
* `products_dense`: the dense copy and the three products.
-/

namespace DomainDecomposition

open Outcome

variable {T : Type}

/-- A sum over the scalars of `n` blocks of `b` scalars, block by block. -/
lemma sum_range_blocks [AddCommMonoid T] (b : ℕ) (f : ℕ → T) (n : ℕ) :
    ∑ q ∈ Finset.range (n * b), f q = ∑ j ∈ Finset.range n, ∑ c : Fin b, f (j * b + c) := by
  induction n with
  | zero => rw [Nat.zero_mul, Finset.sum_range_zero, Finset.sum_range_zero]
  | succ n before =>
    rw [Finset.sum_range_succ, ← before, ← Finset.sum_range fun c => f (n * b + c),
      ← Finset.sum_range_add, Nat.succ_mul]

/-! ## Dense matrices -/

namespace DenseMatrix

lemma entry_ofEntries [Zero T] {height width : ℕ} (f : ℕ → ℕ → T) {p q : ℕ} (hp : p < height)
    (hq : q < width) : (ofEntries height width f).entry p q = f p q := by
  obtain ⟨row, column⟩ := Span.div_mod_place p hq
  simp [entry, ofEntries, Array.getD_eq_getD_getElem?, position_lt hp hq, row, column]

/-- The product with a vector. -/
def mulVec [NonUnitalNonAssocSemiring T] (d : DenseMatrix T) (x : Array T) : Array T :=
  Array.ofFn (n := d.rowCount) fun p =>
    ∑ q ∈ Finset.range d.columnCount, d.entry p q * x.getD q 0

end DenseMatrix

/-! ## The dense matrix of a block matrix -/

namespace BlockMatrix

variable {a : BlockMatrix T}

section Dense

variable [Zero T]

/-- The scalars of a matrix, zero where no block is stored. -/
def dense (a : BlockMatrix T) : DenseMatrix T :=
  .ofEntries (a.rowCount * a.blockSize) (a.columnCount * a.blockSize) a.scalarAt

/-- The scalar at a place of a block. -/
lemma entry_dense {i j r c : ℕ} (hi : i < a.rowCount) (hj : j < a.columnCount)
    (hr : r < a.blockSize) (hc : c < a.blockSize) :
    a.dense.entry (i * a.blockSize + r) (j * a.blockSize + c) =
      (a.block? i j).elim 0 fun block => Block.entry a.blockSize block r c := by
  obtain ⟨row, line⟩ := Span.div_mod_place i hr
  obtain ⟨column, place⟩ := Span.div_mod_place j hc
  rw [dense, DenseMatrix.entry_ofEntries _ (DenseMatrix.position_lt hi hr)
    (DenseMatrix.position_lt hj hc), scalarAt, row, line, column, place]

end Dense

variable [NonUnitalNonAssocSemiring T]

/-- A block of the product with the dense matrix is a row of blocks times the blocks of the vector.
-/
lemma part_dense_mulVec (x : Array T) {i : ℕ} (hi : i < a.rowCount) :
    Block.part a.blockSize (a.dense.mulVec x) i = ∑ j ∈ Finset.range a.columnCount,
      (a.coeff a.blockSize i j).mulVec (Block.part a.blockSize x j) := by
  funext r
  have inside : i * a.blockSize + r < a.rowCount * a.blockSize :=
    DenseMatrix.position_lt hi r.isLt
  calc Block.part a.blockSize (a.dense.mulVec x) i r
    _ = ∑ q ∈ Finset.range (a.columnCount * a.blockSize),
          a.dense.entry (i * a.blockSize + r) q * x.getD q 0 := by
      rw [Block.part_apply, DenseMatrix.mulVec, Array.getD_eq_getD_getElem?,
        Array.getElem?_ofFn, dif_pos (show _ < a.dense.rowCount from inside)]
      rfl
    _ = ∑ j ∈ Finset.range a.columnCount, ∑ c : Fin a.blockSize,
          a.dense.entry (i * a.blockSize + r) (j * a.blockSize + c) *
            x.getD (j * a.blockSize + c) 0 := sum_range_blocks ..
    _ = ∑ j ∈ Finset.range a.columnCount,
          (a.coeff a.blockSize i j).mulVec (Block.part a.blockSize x j) r := by
      refine Finset.sum_congr rfl fun j hj => ?_
      refine Finset.sum_congr rfl fun c _ => ?_
      rw [entry_dense hi (Finset.mem_range.mp hj) r.isLt c.isLt, Block.part_apply]
      congr 1
      rw [coeff]
      cases a.block? i j <;> rfl
    _ = _ := (Finset.sum_apply r _ _).symm

lemma size_dense_mulVec (x : Array T) :
    (a.dense.mulVec x).size = a.rowCount * a.blockSize :=
  Array.size_ofFn

section Products

variable (valid : a.Valid) {x y : Array T} (hx : x.size = a.columnCount * a.blockSize)
variable (hy : y.size = a.rowCount * a.blockSize)

include valid hx hy

lemma mult_dense : (a.mult x).on y = (.ok (), a.dense.mulVec x) := by
  obtain ⟨z, run, size, parts⟩ := mult_spec valid hx hy
  rw [run, Block.eq_of_part_eq size (size_dense_mulVec x) fun i hi => by
    rw [parts i hi, part_dense_mulVec x hi]]

lemma multAddInPlace_dense :
    (a.multAddInPlace x).on y = (.ok (), Array.zipWith (· + ·) (a.dense.mulVec x) y) := by
  obtain ⟨z, run, size, parts⟩ := multAddInPlace_spec valid hx hy
  have sizes : (Array.zipWith (· + ·) (a.dense.mulVec x) y).size = a.rowCount * a.blockSize := by
    rw [Array.size_zipWith, size_dense_mulVec, hy, Nat.min_self]
  rw [run, Block.eq_of_part_eq size sizes fun i hi => ?_]
  have inside := Span.succ_mul_le a.blockSize hi
  funext r
  rw [parts i hi, Block.part_zipWith _ (by rwa [size_dense_mulVec]) (by rwa [hy]),
    part_dense_mulVec x hi, add_comm, Pi.add_apply]

omit valid hx in
/-- The whole output is replaced by the second operand before the product is added to it. -/
lemma view_multAdd_eq {z : Array T} (hz : z.size = a.rowCount * a.blockSize) :
    a.view.multAdd x y z = a.view.multAddInPlace x y := by
  have whole : ∀ v : Array T, v.size = a.rowCount * a.blockSize →
      Span.run v 0 (a.rowCount * a.blockSize) = .ok v := by
    intro v hv
    rw [Span.run_eq_ok, Nat.zero_add, ← hv, Array.extract_size]
    exact ⟨Nat.le_refl _, rfl⟩
  have copied : Span.overwrite z 0 y = y := by
    refine Array.ext_getElem? fun k => ?_
    rw [Span.getElem?_overwrite, Nat.zero_add, Nat.sub_zero, hy, hz]
    by_cases inside : k < a.rowCount * a.blockSize
    · rw [if_pos ⟨Nat.zero_le k, inside, inside⟩]
    · rw [if_neg (by omega), Array.getElem?_eq_none (by omega), Array.getElem?_eq_none (by omega)]
  unfold View.multAdd
  change (Span.run y 0 (a.rowCount * a.blockSize) >>= fun head =>
    Span.run z 0 (a.rowCount * a.blockSize) >>= fun _ =>
      a.view.multAddInPlace x (Span.overwrite z 0 head)) = _
  rw [whole y hy, ok_bind, whole z hz, ok_bind, copied]

/-- The sum into another vector is the sum in place into the second operand. -/
lemma multAdd_dense {z : Array T} (hz : z.size = a.rowCount * a.blockSize) :
    (a.multAdd x y).on z = (.ok (), Array.zipWith (· + ·) (a.dense.mulVec x) y) := by
  have vectors := checkVectors_eq_ok hx hy
  have added := multAddInPlace_dense valid hx hy
  rw [multAddInPlace, Update.on_bind_of_ok (Update.on_get y), vectors,
    Update.on_bind_of_ok (Update.on_monadLift _ y), Update.on_replace] at added
  have lengths : checkLength y.size z.size = .ok () := checkLength_eq_ok.mpr (hy.trans hz.symm)
  rw [multAdd, vectors, Update.on_bind_of_ok (Update.on_monadLift _ z),
    Update.on_bind_of_ok (Update.on_get z), lengths, Update.on_bind_of_ok (Update.on_monadLift _ z),
    Update.on_replace, view_multAdd_eq hy hz]
  cases run : a.view.multAddInPlace x y with
  | error e =>
    rw [run] at added
    cases congrArg Prod.fst added
  | ok w =>
    rw [run] at added
    exact added

end Products

/-- A valid matrix stands for a dense one, and `toDense` writes that out unless one of its sides is
no machine word or it has more scalars than an array can hold. Its scalars are those of the stored
blocks, and zero elsewhere. The product, the sum of the product and a second vector, and the sum in
place are those of the dense matrix. -/
theorem products_dense (valid : a.Valid) :
    ∃ d : DenseMatrix T,
      (d.rowCount = a.rowCount * a.blockSize ∧ d.columnCount = a.columnCount * a.blockSize ∧
        d.values.size = d.rowCount * d.columnCount) ∧
      a.toDense = (if d.rowCount < Capacity.words ∧ d.columnCount < Capacity.words ∧
          d.values.size < Capacity.limit then .ok d else .error .tooLarge) ∧
      (∀ i < a.rowCount, ∀ j < a.columnCount, ∀ r < a.blockSize, ∀ c < a.blockSize,
        d.entry (i * a.blockSize + r) (j * a.blockSize + c) =
          (a.block? i j).elim 0 fun block => Block.entry a.blockSize block r c) ∧
      ∀ x y : Array T, x.size = a.columnCount * a.blockSize →
        y.size = a.rowCount * a.blockSize →
        (∀ z : Array T, z.size = a.rowCount * a.blockSize →
          (a.mult x).on z = (.ok (), d.mulVec x) ∧
          (a.multAdd x y).on z = (.ok (), Array.zipWith (· + ·) (d.mulVec x) y)) ∧
        (a.multAddInPlace x).on y = (.ok (), Array.zipWith (· + ·) (d.mulVec x) y) := by
  have size : a.dense.values.size = a.rowCount * a.blockSize * (a.columnCount * a.blockSize) :=
    Array.size_ofFn
  refine ⟨a.dense, ⟨rfl, rfl, size⟩, ?_, fun i hi j hj r hr c hc => entry_dense hi hj hr hc,
    fun x y hx hy => ⟨fun z hz => ⟨mult_dense valid hx hz, multAdd_dense valid hx hy hz⟩,
      multAddInPlace_dense valid hx hy⟩⟩
  rw [size]
  exact toDense_eq valid

/-- Two rows and three columns of `2 × 2` blocks, of which three are stored. -/
def oblong : BlockMatrix ℚ where
  blockSize := 2
  rowCount := 2
  columnCount := 3
  rowStart := #[0, 2, 3]
  columns := #[0, 2, 1]
  values := #[1, 2, 3, 4, 0, 1, 1, 0, 5, 0, 0, 6]
  diagonal := #[]
  invertedDiagonal := #[]

/-- The product of the oblong with a vector, into an output that holds something else. -/
theorem oblong_products_dense :
    oblong.Valid ∧ ∃ d, oblong.toDense = .ok d ∧ d.rowCount = 4 ∧ d.columnCount = 6 ∧
      d.entry 1 0 = 3 ∧ d.entry 1 2 = 0 ∧
      (oblong.mult #[1, 2, 3, 4, 5, 6]).on #[9, 9, 9, 9] =
        (.ok (), d.mulVec #[1, 2, 3, 4, 5, 6]) := by
  have valid : oblong.Valid := by decide +kernel
  obtain ⟨d, ⟨rows, columns, size⟩, copy, scalars, products⟩ := products_dense valid
  have room : d.rowCount < Capacity.words ∧ d.columnCount < Capacity.words ∧
      d.values.size < Capacity.limit := by
    rw [size, rows, columns]
    decide +kernel
  rw [if_pos room] at copy
  have first := scalars 0 (by decide) 0 (by decide) 1 (by decide) 0 (by decide)
  have second := scalars 0 (by decide) 1 (by decide) 1 (by decide) 0 (by decide)
  refine ⟨valid, d, copy, rows, columns, first.trans (by decide +kernel),
    second.trans (by decide +kernel), ?_⟩
  exact ((products #[1, 2, 3, 4, 5, 6] #[0, 0, 0, 0] rfl rfl).1 #[9, 9, 9, 9] rfl).1

/-- A matrix that stores nothing may be valid, although no array holds its scalars. -/
theorem exists_toDense_tooLarge :
    ¬∀ a : BlockMatrix ℚ, a.Valid → ∃ d, a.toDense = .ok d ∧
      ∀ i < a.rowCount, ∀ j < a.columnCount, ∀ r < a.blockSize, ∀ c < a.blockSize,
        d.entry (i * a.blockSize + r) (j * a.blockSize + c) =
          (a.block? i j).elim 0 fun block => Block.entry a.blockSize block r c := by
  intro copied
  let a : BlockMatrix ℚ :=
    { BlockMatrix.empty with rowCount := 1, columnCount := 2 ^ 60, rowStart := #[0, 0] }
  have valid : a.Valid := by decide +kernel
  have full : ¬a.HasDenseCopy := by decide +kernel
  obtain ⟨d, copy, -⟩ := copied a valid
  rw [toDense_eq valid, if_neg full] at copy
  cases copy

end BlockMatrix

end DomainDecomposition
