import DomainDecomposition.BlockMatrix.Operator
import DomainDecomposition.Proofs.BlockMatrix.WithValues

/-!
# The product with a vector

`Block.part b x j` is block `j` of a vector. The kernels walk over the rows and replace one block of
their output after the other; a row is summed entry by entry, as `Entries.addTimes` says.

* `Entries.sum_mulVec`: a row times a vector, as a sum over all columns,
* `mult_eq`, `multAddInPlace_eq`: the blocks of the products, in any arithmetic,
* `mult_spec`: block `i` of the product is `∑ j, A i j · x j`, whatever the output held before.
-/

namespace DomainDecomposition

open Outcome

variable {T : Type}

namespace Block

section Part

variable [Zero T] {b : ℕ}

/-- Block `j` of a vector. -/
def part (b : ℕ) (x : Array T) (j : ℕ) : Fin b → T :=
  toVec b (Span.chunk b x j)

/-- A scalar of a block of a vector. -/
lemma part_apply (x : Array T) (j : ℕ) (l : Fin b) : part b x j l = x.getD (j * b + l) 0 := by
  rw [part, toVec_apply, Array.getD_eq_getD_getElem?, Span.getElem?_chunk, if_pos l.isLt,
    Array.getD_eq_getD_getElem?]

/-- Vectors of whole blocks are equal when their blocks are. -/
lemma eq_of_part_eq {n : ℕ} {x y : Array T} (hx : x.size = n * b) (hy : y.size = n * b)
    (h : ∀ j < n, part b x j = part b y j) : x = y := by
  refine Span.eq_of_chunk_eq hx hy fun j hj => ?_
  have hle := Span.succ_mul_le b hj
  exact eq_of_toVec_eq (Span.size_chunk (by rwa [hx])) (Span.size_chunk (by rwa [hy])) (h j hj)

/-- Writing one block of a vector. -/
lemma part_overwrite {x new : Array T} {i : ℕ} (hnew : new.size = b) (hi : (i + 1) * b ≤ x.size)
    (j : ℕ) : part b (Span.overwrite x (i * b) new) j =
      if j = i then toVec b new else part b x j := by
  rw [part, Span.chunk_overwrite (m := 1) (by rw [hnew, Nat.one_mul]) hi]
  by_cases hj : j = i
  · rw [if_pos (by omega), if_pos hj, hj, Nat.sub_self, Span.chunk_zero hnew]
  · rw [if_neg (by omega), if_neg hj]
    rfl

/-- The blocks of a run of whole blocks. -/
lemma part_extract {first m k : ℕ} {x : Array T} (hk : first + k < m) :
    part b (x.extract (first * b) (m * b)) k = part b x (first + k) := by
  rw [part, Span.chunk_extract _ _ _ hk, part]

lemma part_zeros (b n k : ℕ) : part b (zeros n : Array T) k = 0 := by
  rw [part, Span.chunk, zeros, Array.extract_replicate]
  exact toVec_zeros b _

/-- A block of a combination of two vectors. -/
lemma part_zipWith (f : T → T → T) {x y : Array T} {i : ℕ} (hx : (i + 1) * b ≤ x.size)
    (hy : (i + 1) * b ≤ y.size) (l : Fin b) :
    part b (Array.zipWith f x y) i l = f (part b x i l) (part b y i l) := by
  have inside : i * b + l < (i + 1) * b := by
    rw [Nat.succ_mul]
    exact Nat.add_lt_add_left l.isLt _
  have hlx := inside.trans_le hx
  have hly := inside.trans_le hy
  simp [part_apply, Array.getD_eq_getD_getElem?, hlx, hly]

/-- Writing the blocks of a vector from block `first` on. -/
lemma part_overwrite_run {first m : ℕ} {x new : Array T} (hnew : new.size = m * b)
    (hx : (first + m) * b ≤ x.size) (k : ℕ) :
    part b (Span.overwrite x (first * b) new) k =
      if first ≤ k ∧ k < first + m then part b new (k - first) else part b x k := by
  rw [part, Span.chunk_overwrite hnew hx, apply_ite (toVec b)]
  rfl

end Part

end Block

namespace Entries

/-- A row times a vector, as a sum over all columns. -/
lemma sum_mulVec [NonUnitalNonAssocSemiring T] {b n : ℕ} {row : Entries T}
    (ascending : row.columns.Pairwise (· < ·)) (below : ∀ c ∈ row.columns, c < n)
    (x : ℕ → Fin b → T) :
    (row.map fun e => (Block.toMatrix b e.2).mulVec (x e.1)).sum =
      ∑ j ∈ Finset.range n, (row.coeff b j).mulVec (x j) :=
  (sum_coeff (fun m j => m.mulVec (x j)) (fun j => Matrix.zero_mulVec (x j)) ascending below).symm

/-! ### Summing a row -/

section Rows

variable [Zero T] [Add T] [Mul T] {b : ℕ}

/-- `sum` and then the blocks of a row times those of a vector, added one after the other. -/
def addTimes (b : ℕ) (x sum : Array T) (row : Entries T) : Array T :=
  row.foldl (fun sum e => Block.addMulVec b e.2 (Span.chunk b x e.1) sum) sum

lemma size_addTimes (x : Array T) (row : Entries T) {sum : Array T} (hsum : sum.size = b) :
    (addTimes b x sum row).size = b := by
  induction row generalizing sum with
  | nil => exact hsum
  | cons e row ih => exact ih (Block.size_addMulVec e.2 (Span.chunk b x e.1) hsum)

/-- A row whose columns the vector has is summed up. -/
lemma addRow_eq (x sum : Array T) (row : Entries T)
    (inside : ∀ c ∈ row.columns, (c + 1) * b ≤ x.size) :
    View.addRow b x sum row = .ok (addTimes b x sum row) := by
  induction row generalizing sum with
  | nil => rfl
  | cons e row ih =>
    obtain ⟨hfirst, hrest⟩ := List.forall_mem_cons.mp inside
    rw [View.addRow, List.foldlM_cons]
    simp only [Span.run_chunk hfirst, ok_bind, pure_eq]
    exact ih _ hrest

end Rows

lemma toVec_addTimes [NonUnitalNonAssocSemiring T] {b : ℕ} (x : Array T) (row : Entries T)
    {sum : Array T} (hsum : sum.size = b) :
    Block.toVec b (addTimes b x sum row) = Block.toVec b sum +
      (row.map fun e => (Block.toMatrix b e.2).mulVec (Block.part b x e.1)).sum := by
  induction row generalizing sum with
  | nil => rw [List.map_nil, List.sum_nil, add_zero, addTimes, List.foldl_nil]
  | cons e row ih =>
    have hrest := ih (Block.size_addMulVec e.2 (Span.chunk b x e.1) hsum)
    rw [Block.toVec_addMulVec e.2 _ hsum] at hrest
    rw [List.map_cons, List.sum_cons, ← add_assoc]
    exact hrest

end Entries

/-! ## The product -/

namespace BlockMatrix

variable {a : BlockMatrix T}

lemma checkVectors_eq_ok {x y : Array T} (hx : x.size = a.columnCount * a.blockSize)
    (hy : y.size = a.rowCount * a.blockSize) : a.checkVectors x y = .ok () := by
  rw [checkVectors, checkSize_eq_ok.mpr hx.symm, ok_bind, checkSize_eq_ok.mpr hy.symm]

section Rows

variable [Zero T] [Add T] [Mul T]

/-- Row `i` of the product, added to what is made of block `i` of the output. -/
lemma multiplyRow_eq (valid : a.Valid) (start : Array T → Array T) {x y : Array T}
    (hx : x.size = a.columnCount * a.blockSize) (hy : y.size = a.rowCount * a.blockSize) {i : ℕ}
    (hi : i < a.rowCount) :
    a.view.multiplyRow start x y i = .ok (Span.overwrite y (i * a.blockSize)
      (Entries.addTimes a.blockSize x (start (Span.chunk a.blockSize y i)) (a.rowEntries i))) := by
  have hle : (i + 1) * a.blockSize ≤ y.size := hy ▸ Span.succ_mul_le a.blockSize hi
  have hbelow : ∀ c ∈ (a.rowEntries i).columns, (c + 1) * a.blockSize ≤ x.size := by
    intro c hc
    rw [columns_rowEntries] at hc
    exact hx ▸ Span.succ_mul_le a.blockSize (valid.columns_lt i hi c hc)
  rw [View.multiplyRow]
  simp only [show a.view.blockSize = a.blockSize from rfl]
  rw [Span.run_chunk hle, ok_bind, valid.view_row hi, ok_bind, Entries.addRow_eq _ _ _ hbelow]
  rfl

/-- The rows before `i` of `z` are rows of the product, added to what is made of the blocks that
were there. The other rows have not been touched. -/
structure Multiplied (a : BlockMatrix T) (start : Array T → Array T) (x y : Array T) (i : ℕ)
    (z : Array T) : Prop where
  size : z.size = y.size
  done : ∀ k < i, Span.chunk a.blockSize z k =
    Entries.addTimes a.blockSize x (start (Span.chunk a.blockSize y k)) (a.rowEntries k)
  rest : ∀ k, i ≤ k → Span.chunk a.blockSize z k = Span.chunk a.blockSize y k

/-- One more row of the product. -/
lemma Multiplied.step (valid : a.Valid) {start : Array T → Array T}
    (full : ∀ old, old.size = a.blockSize → (start old).size = a.blockSize) {x y z : Array T}
    (hx : x.size = a.columnCount * a.blockSize) (hy : y.size = a.rowCount * a.blockSize) {i : ℕ}
    (hi : i < a.rowCount) (h : Multiplied a start x y i z) :
    ∃ z', a.view.multiplyRow start x z i = .ok z' ∧ Multiplied a start x y (i + 1) z' := by
  have hz := h.size.trans hy
  have hle : (i + 1) * a.blockSize ≤ z.size := hz ▸ Span.succ_mul_le a.blockSize hi
  have hnew := Entries.size_addTimes x (a.rowEntries i) (full _ (Span.size_chunk hle))
  have hchunks := fun k =>
    Span.chunk_overwrite (m := 1) (by rw [hnew, Nat.one_mul]) hle k
  refine ⟨_, multiplyRow_eq valid start hx hz hi, (Span.size_overwrite ..).trans h.size,
    fun k hk => ?_, fun k hk => ?_⟩
  · rw [hchunks]
    by_cases hki : k = i
    · rw [if_pos (by omega), hki, Nat.sub_self, Span.chunk_zero hnew, h.rest i (Nat.le_refl i)]
    · rw [if_neg (by omega)]
      exact h.done k (by omega)
  · rw [hchunks, if_neg (by omega)]
    exact h.rest k (by omega)

/-- All rows of the product, each added to what is made of the block that was there. -/
lemma multiplyRows_eq (valid : a.Valid) {start : Array T → Array T}
    (full : ∀ old, old.size = a.blockSize → (start old).size = a.blockSize) {x y : Array T}
    (hx : x.size = a.columnCount * a.blockSize) (hy : y.size = a.rowCount * a.blockSize) :
    ∃ z, Walk.up (a.view.multiplyRow start x) a.rowCount 0 y = .ok z ∧ z.size = y.size ∧
      ∀ i < a.rowCount, Span.chunk a.blockSize z i =
        Entries.addTimes a.blockSize x (start (Span.chunk a.blockSize y i)) (a.rowEntries i) := by
  have hfirst : Multiplied a start x y 0 y :=
    ⟨rfl, fun k hk => absurd hk (Nat.not_lt_zero k), fun _ _ => rfl⟩
  have hwalk : ∃ z, Walk.up (a.view.multiplyRow start x) a.rowCount 0 y = .ok z ∧
      Multiplied a start x y (0 + a.rowCount) z :=
    Walk.up_spec hfirst fun i z _ hi h => h.step valid full hx hy (by omega)
  obtain ⟨z, hrun, hz⟩ := hwalk
  exact ⟨z, hrun, hz.size, fun i hi => hz.done i (by omega)⟩

/-- The blocks of the product. -/
lemma mult_eq (valid : a.Valid) {x y : Array T} (hx : x.size = a.columnCount * a.blockSize)
    (hy : y.size = a.rowCount * a.blockSize) :
    ∃ z, (a.mult x).on y = (.ok (), z) ∧ z.size = a.rowCount * a.blockSize ∧
      ∀ i < a.rowCount, Span.chunk a.blockSize z i =
        Entries.addTimes a.blockSize x (Block.zeros a.blockSize) (a.rowEntries i) := by
  obtain ⟨z, hrun, hsize, hchunks⟩ :=
    multiplyRows_eq valid (fun _ _ => Block.size_zeros a.blockSize) hx hy
  refine ⟨z, ?_, hsize.trans hy, hchunks⟩
  have hview : a.view.mult x y = .ok z := hrun
  rw [mult, Update.on_bind_of_ok (Update.on_get y), checkVectors_eq_ok hx hy,
    Update.on_bind_of_ok (Update.on_monadLift _ y), Update.on_replace, hview]

/-- The blocks of the product, added to those of the output. -/
lemma multAddInPlace_eq (valid : a.Valid) {x y : Array T}
    (hx : x.size = a.columnCount * a.blockSize) (hy : y.size = a.rowCount * a.blockSize) :
    ∃ z, (a.multAddInPlace x).on y = (.ok (), z) ∧ z.size = a.rowCount * a.blockSize ∧
      ∀ i < a.rowCount, Span.chunk a.blockSize z i =
        Entries.addTimes a.blockSize x (Span.chunk a.blockSize y i) (a.rowEntries i) := by
  obtain ⟨z, hrun, hsize, hchunks⟩ := multiplyRows_eq valid (fun _ h => h) hx hy
  refine ⟨z, ?_, hsize.trans hy, hchunks⟩
  have hview : a.view.multAddInPlace x y = .ok z := hrun
  rw [multAddInPlace, Update.on_bind_of_ok (Update.on_get y), checkVectors_eq_ok hx hy,
    Update.on_bind_of_ok (Update.on_monadLift _ y), Update.on_replace, hview]

end Rows

/-! ### Sums of products -/

variable [NonUnitalNonAssocSemiring T]

/-- A row of the matrix times a vector, as a sum over all columns. -/
lemma toVec_addTimes_rowEntries (valid : a.Valid) (x : Array T) {sum : Array T}
    (hsum : sum.size = a.blockSize) {i : ℕ} (hi : i < a.rowCount) :
    Block.toVec a.blockSize (Entries.addTimes a.blockSize x sum (a.rowEntries i)) =
      Block.toVec a.blockSize sum + ∑ j ∈ Finset.range a.columnCount,
        (a.coeff a.blockSize i j).mulVec (Block.part a.blockSize x j) := by
  have hbelow : ∀ c ∈ (a.rowEntries i).columns, c < a.columnCount := by
    rw [columns_rowEntries]
    exact valid.columns_lt i hi
  rw [Entries.toVec_addTimes x _ hsum, Entries.sum_mulVec (valid.regular hi).ascending hbelow]
  simp only [valid.coeff_eq hi]

/-- Block `i` of the product is row `i` times the vector. -/
lemma mult_spec (valid : a.Valid) {x y : Array T} (hx : x.size = a.columnCount * a.blockSize)
    (hy : y.size = a.rowCount * a.blockSize) :
    ∃ z, (a.mult x).on y = (.ok (), z) ∧ z.size = a.rowCount * a.blockSize ∧
      ∀ i < a.rowCount, Block.part a.blockSize z i =
        ∑ j ∈ Finset.range a.columnCount,
          (a.coeff a.blockSize i j).mulVec (Block.part a.blockSize x j) := by
  obtain ⟨z, hrun, hsize, hchunks⟩ := mult_eq valid hx hy
  refine ⟨z, hrun, hsize, fun i hi => ?_⟩
  rw [Block.part, hchunks i hi, toVec_addTimes_rowEntries valid x (Block.size_zeros _) hi,
    Block.toVec_zeros, zero_add]

/-- The product, added to the output. -/
lemma multAddInPlace_spec (valid : a.Valid) {x y : Array T}
    (hx : x.size = a.columnCount * a.blockSize) (hy : y.size = a.rowCount * a.blockSize) :
    ∃ z, (a.multAddInPlace x).on y = (.ok (), z) ∧ z.size = a.rowCount * a.blockSize ∧
      ∀ i < a.rowCount, Block.part a.blockSize z i = Block.part a.blockSize y i +
        ∑ j ∈ Finset.range a.columnCount,
          (a.coeff a.blockSize i j).mulVec (Block.part a.blockSize x j) := by
  obtain ⟨z, hrun, hsize, hchunks⟩ := multAddInPlace_eq valid hx hy
  refine ⟨z, hrun, hsize, fun i hi => ?_⟩
  rw [Block.part, hchunks i hi, toVec_addTimes_rowEntries valid x
    (Span.size_chunk (hy ▸ Span.succ_mul_le _ hi)) hi, Block.part]

end BlockMatrix

end DomainDecomposition
