import DomainDecomposition.Distributed.Basic
import DomainDecomposition.Proofs.BlockMatrix.Kernels
import DomainDecomposition.Proofs.BlockMatrix.Operator
import DomainDecomposition.Proofs.BlockMatrix.Submatrix

/-!
# Partial solves do the work of full solves

A solve of the rows from an offset on does for these rows what the full solve does: it reads the
same blocks, in the same order, and computes the same sums. So the results are equal scalar by
scalar, for scalars of any kind, and none of the laws of arithmetic is used.

* `solveLowerRow_eq`, `solveUpperRow_eq`: what one row becomes, as an expression in the blocks that
  it reads,
* `solveUpper_split`: the full upper solve is the one from `o` on in the tail, and then the one
  before `o`,
* `solveLowerFrom_eq`: the lower solve from `o` on is the one with the trailing submatrix,
* `solveLower_zeros`: it is also the tail of a full solve whose head is zero, where multiples of
  zero and sums with zero are what they should be,
* `partialSolves_eq`: all of it for the checked operations.
-/

namespace DomainDecomposition

open Outcome DistributedMatrix

variable {T : Type}

/-! ## Operations on the trailing blocks of a vector -/

namespace Update

lemma outcome_onTail (start : ℕ) (u : Update (Array T) Unit) (y : Array T) :
    (onTail start u).outcome y =
      (u.outcome (y.extract start y.size)).map (y.extract 0 start ++ ·) := by
  rw [outcome, onTail, on_focus, outcome]
  cases (u.on (y.extract start y.size)).1 <;> rfl

end Update

/-! ## One row -/

section Rows

variable [Zero T] [Add T] [Sub T] [Mul T]

namespace View

/-- What is left of `sum` once the products of a row are subtracted, where `block j` is block `j` of
the vector. -/
def remainder (b : ℕ) (block : ℕ → Array T) (sum : Array T) (row : Entries T) : Array T :=
  row.foldl (fun sum e => Block.subMulVec b e.2 (block e.1) sum) sum

variable {b : ℕ} {block block' : ℕ → Array T} {row : Entries T} {sum : Array T}

lemma subtractRow_eq {read : ℕ → Except Error (Array T)}
    (reads : ∀ c ∈ row.columns, read c = .ok (block c)) :
    subtractRow b read sum row = .ok (remainder b block sum row) := by
  unfold subtractRow remainder
  induction row generalizing sum with
  | nil => rfl
  | cons e row ih =>
    obtain ⟨own, rest⟩ := List.forall_mem_cons.mp reads
    rw [List.foldlM_cons]
    simp only [own, ok_bind, pure_eq]
    exact ih rest

/-- Only the blocks at the columns of the row count. -/
lemma remainder_congr (same : ∀ c ∈ row.columns, block c = block' c) :
    remainder b block sum row = remainder b block' sum row := by
  refine List.foldl_ext _ _ _ fun sum e member => ?_
  rw [same e.1 (List.mem_map_of_mem member)]

lemma remainder_append (front tail : Entries T) :
    remainder b block sum (front ++ tail) =
      remainder b block (remainder b block sum front) tail :=
  List.foldl_append ..

lemma remainder_shift (o : ℕ) :
    remainder b block sum (row.shift o) = remainder b (fun j => block (o + j)) sum row :=
  List.foldl_map ..

end View

namespace BlockMatrix

variable {a : BlockMatrix T} {o i s : ℕ} {x : Array T} (valid : a.Valid) (has : a.HasDiagonal)

include valid has

/-- Row `i` of a lower solve, for a vector that starts at row `o`. -/
lemma solveLowerRow_eq (hoi : o ≤ i) (hi : i < a.rowCount) (first : FirstFrom a o i s)
    (hx : x.size = (a.rowCount - o) * a.blockSize) :
    a.view.solveLowerRow o s x i = .ok (Span.overwrite x ((i - o) * a.blockSize)
      (View.remainder a.blockSize (fun j => Span.chunk a.blockSize x (j - o))
        (Span.chunk a.blockSize x (i - o)) (a.tailEntries i s))) := by
  have own : (i - o + 1) * a.blockSize ≤ x.size := by
    rw [hx]
    exact Span.succ_mul_le a.blockSize (by omega)
  have reads : ∀ c ∈ (a.tailEntries i s).columns,
      (if o ≤ c then Span.runBefore x ((i - o) * a.blockSize) ((c - o) * a.blockSize) a.blockSize
        else .error .outOfRange) = .ok (Span.chunk a.blockSize x (c - o)) := by
    -- the columns of the entries lie between the offset and the own row
    intro c hc
    obtain ⟨block, member⟩ := Entries.mem_columns.mp hc
    obtain ⟨low, left⟩ := first.mem_tailEntries.mp member
    have high := ((has.mem_leftEntries valid hi).mp left).1
    have before := Span.succ_mul_le a.blockSize (show c - o < i - o by omega)
    rw [if_pos low, Span.runBefore, if_pos (by rwa [← Nat.succ_mul]), Span.run_chunk]
    rw [Nat.succ_mul (i - o)] at own
    omega
  unfold View.solveLowerRow
  change (Span.run x ((i - o) * a.blockSize) a.blockSize >>= fun _ => _) = _
  rw [Span.run_chunk own, ok_bind, show a.view.diagonal = a.diagonal from rfl,
    has.item_diagonal hi, ok_bind,
    valid.view_entries (Nat.le_of_lt (has.diagonalOf_lt valid hi)), ok_bind]
  simp only [show a.view.blockSize = a.blockSize from rfl]
  rw [← tailEntries, View.subtractRow_eq reads]
  rfl

/-- Row `i` of an upper solve, for a vector that starts at row `o`. -/
lemma solveUpperRow_eq (hoi : o ≤ i) (hi : i < a.rowCount)
    (hx : x.size = (a.rowCount - o) * a.blockSize) :
    a.view.solveUpperRow o x i = .ok (Span.overwrite x ((i - o) * a.blockSize)
      (Block.mulVec a.blockSize (a.diagonalBlock i)
        (View.remainder a.blockSize (fun j => Span.chunk a.blockSize x (j - o))
          (Span.chunk a.blockSize x (i - o)) (a.rightEntries i)))) := by
  have inside : ∀ k, o ≤ k → k < a.rowCount → (k - o + 1) * a.blockSize ≤ x.size := by
    intro k low high
    rw [hx]
    exact Span.succ_mul_le a.blockSize (by omega)
  have reads : ∀ c ∈ (a.rightEntries i).columns,
      (if i < c then Span.run x ((c - o) * a.blockSize) a.blockSize else .error .outOfRange) =
        .ok (Span.chunk a.blockSize x (c - o)) := by
    intro c hc
    obtain ⟨behind, below⟩ := rightEntries_columns valid has hi hc
    rw [if_pos behind]
    exact Span.run_chunk (inside c (by omega) below)
  unfold View.solveUpperRow
  change (Span.run x ((i - o) * a.blockSize) a.blockSize >>= fun _ => _) = _
  rw [Span.run_chunk (inside i hoi hi), ok_bind, has.view_rightOfDiagonal valid hi, ok_bind]
  simp only [show a.view.blockSize = a.blockSize from rfl]
  rw [View.subtractRow_eq reads, ok_bind, has.view_diagonalBlock valid hi]
  rfl

end BlockMatrix

end Rows

namespace BlockMatrix

variable {a t : BlockMatrix T} {o : ℕ} {x y : Array T}

lemma size_tail (hx : x.size = a.rowCount * a.blockSize) :
    (x.extract (o * a.blockSize) (a.rowCount * a.blockSize)).size =
      (a.rowCount - o) * a.blockSize := by
  rw [Array.size_extract, hx, Nat.min_self, Nat.sub_mul]

/-! ## Upper solves -/

section Upper

variable [Zero T] [Add T] [Sub T] [Mul T] (valid : a.Valid) (has : a.HasDiagonal)
variable (hx : x.size = a.rowCount * a.blockSize)

include valid has hx

/-- A row behind the offset is solved in the tail of a vector as it is in the whole. -/
lemma solveUpperRow_tail {i : ℕ} (hoi : o ≤ i) (hi : i < a.rowCount) :
    ∃ z, a.view.solveUpperRow 0 x i = .ok z ∧
      a.view.solveUpperRow o (x.extract (o * a.blockSize) (a.rowCount * a.blockSize)) i =
        .ok (z.extract (o * a.blockSize) (a.rowCount * a.blockSize)) ∧
      z.size = x.size ∧ z.extract 0 (o * a.blockSize) = x.extract 0 (o * a.blockSize) := by
  have tailChunk : ∀ k, o ≤ k → k < a.rowCount →
      Span.chunk a.blockSize (x.extract (o * a.blockSize) (a.rowCount * a.blockSize)) (k - o) =
        Span.chunk a.blockSize x (k - 0) := by
    intro k low high
    rw [Span.chunk_extract _ _ _ (by omega), Nat.add_sub_cancel' low, Nat.sub_zero]
  have ordered : o * a.blockSize ≤ i * a.blockSize := Nat.mul_le_mul_right _ hoi
  have same : ∀ c ∈ (a.rightEntries i).columns,
      Span.chunk a.blockSize (x.extract (o * a.blockSize) (a.rowCount * a.blockSize)) (c - o) =
        Span.chunk a.blockSize x (c - 0) := by
    intro c hc
    obtain ⟨behind, below⟩ := rightEntries_columns valid has hi hc
    exact tailChunk c (by omega) below
  refine ⟨_, solveUpperRow_eq valid has (Nat.zero_le i) hi hx, ?_, Span.size_overwrite ..,
    Span.extract_overwrite_of_le ordered⟩
  rw [solveUpperRow_eq valid has hoi hi (size_tail hx), tailChunk i hoi hi, View.remainder_congr same,
    Nat.sub_zero, Span.extract_overwrite _ _ _ ordered, Nat.sub_mul]

/-- The rows from the offset on, in a vector and in its tail. -/
lemma solveUpper_behind (ho : o ≤ a.rowCount) :
    ∃ z, Walk.down (a.view.solveUpperRow 0) (a.rowCount - o) o x = .ok z ∧
      Walk.down (a.view.solveUpperRow o) (a.rowCount - o) o
          (x.extract (o * a.blockSize) (a.rowCount * a.blockSize)) =
        .ok (z.extract (o * a.blockSize) (a.rowCount * a.blockSize)) ∧
      z.size = x.size ∧ z.extract 0 (o * a.blockSize) = x.extract 0 (o * a.blockSize) := by
  have walks : ∃ z u, Walk.down (a.view.solveUpperRow 0) (a.rowCount - o) o x = .ok z ∧
      Walk.down (a.view.solveUpperRow o) (a.rowCount - o) o
          (x.extract (o * a.blockSize) (a.rowCount * a.blockSize)) = .ok u ∧
        (u = z.extract (o * a.blockSize) (a.rowCount * a.blockSize) ∧ z.size = x.size ∧
          z.extract 0 (o * a.blockSize) = x.extract 0 (o * a.blockSize)) := by
    refine Walk.down_simulates ⟨rfl, rfl, rfl⟩ ?_
    rintro i z _ low high ⟨rfl, hz, head⟩
    obtain ⟨z', run, runTail, hz', head'⟩ :=
      solveUpperRow_tail valid has (hz.trans hx) low (by omega)
    exact ⟨z', _, run, runTail, rfl, hz'.trans hz, head'.trans head⟩
  obtain ⟨z, _, run, runTail, rfl, hz, head⟩ := walks
  exact ⟨z, run, runTail, hz, head⟩

/-- The rows before the offset leave those behind alone. -/
lemma solveUpper_before (ho : o ≤ a.rowCount) :
    ∃ z, Walk.down (a.view.solveUpperRow 0) o 0 x = .ok z ∧
      z.extract (o * a.blockSize) (a.rowCount * a.blockSize) =
        x.extract (o * a.blockSize) (a.rowCount * a.blockSize) := by
  have walk : ∃ z, Walk.down (a.view.solveUpperRow 0) o 0 x = .ok z ∧
      (z.size = x.size ∧ z.extract (o * a.blockSize) (a.rowCount * a.blockSize) =
        x.extract (o * a.blockSize) (a.rowCount * a.blockSize)) := by
    refine Walk.down_spec (P := fun _ (z : Array T) => z.size = x.size ∧ z.extract _ _ = _)
      ⟨rfl, rfl⟩ ?_
    rintro i z - high ⟨hz, tail⟩
    have row := solveUpperRow_eq valid has (Nat.zero_le i) (by omega) (hz.trans hx)
    refine ⟨_, row, (Span.size_overwrite ..).trans hz, Eq.trans ?_ tail⟩
    have before := Span.succ_mul_le a.blockSize (show i < o by omega)
    rw [Nat.succ_mul] at before
    apply Span.extract_overwrite_of_ge
    rwa [Nat.sub_zero, Block.size_mulVec]
  obtain ⟨z, run, -, tail⟩ := walk
  exact ⟨z, run, tail⟩

/-- The upper solve is that of the rows from `o` on, in the tail of the vector, and then that of the
rows before `o`. -/
lemma solveUpper_split (room : a.blockSize < Capacity.limit) (ho : o ≤ a.rowCount) :
    ∃ z w, a.view.solveUpperFrom o (x.extract (o * a.blockSize) (a.rowCount * a.blockSize)) =
        .ok (z.extract (o * a.blockSize) (a.rowCount * a.blockSize)) ∧
      z.size = x.size ∧ z.extract 0 (o * a.blockSize) = x.extract 0 (o * a.blockSize) ∧
      a.view.solveUpperBefore o z = .ok w ∧ a.view.solveUpper x = .ok w ∧
      w.extract (o * a.blockSize) (a.rowCount * a.blockSize) =
        z.extract (o * a.blockSize) (a.rowCount * a.blockSize) := by
  obtain ⟨z, run, runTail, hz, head⟩ := solveUpper_behind valid has hx ho
  obtain ⟨w, rest, tail⟩ := solveUpper_before valid has (hz.trans hx) ho
  have reserve : Capacity.reserve a.view.blockSize = .ok () := Capacity.reserve_eq_ok_iff.mpr room
  refine ⟨z, w, ?_, hz, head, ?_, ?_, tail⟩
  · rw [View.solveUpperFrom, View.solveUpperRows, reserve, ok_bind]
    exact runTail
  · rw [View.solveUpperBefore, View.solveUpperRows, reserve, ok_bind, Nat.sub_zero,
      show a.view.rowCount = a.rowCount from rfl, Nat.min_eq_left ho, rest]
  · rw [View.solveUpper, View.solveUpperRows, reserve, ok_bind, Nat.sub_zero,
      show a.view.rowCount = o + (a.rowCount - o) from (Nat.add_sub_cancel' ho).symm, Walk.down_add,
      Nat.zero_add, run, ok_bind, rest]

end Upper

/-! ## Lower solves -/

section Lower

variable [Zero T] [Add T] [Sub T] [Mul T]

/-- Row `i` of the full lower solve. -/
def lowerRow (a : BlockMatrix T) (x : Array T) (i : ℕ) : Except Error (Array T) := do
  a.view.solveLowerRow 0 (← Span.item a.rowStart i) x i

/-- Row `i` of the lower solve from `o` on. -/
def lowerRowFrom (a : BlockMatrix T) (o : ℕ) (x : Array T) (i : ℕ) : Except Error (Array T) := do
  a.view.solveLowerRow o (← a.view.firstFrom o i) x i

lemma solveLower_eq_up (a : BlockMatrix T) (x : Array T) :
    a.view.solveLower x = Walk.up a.lowerRow (a.rowCount - 1) 1 x :=
  rfl

lemma solveLowerFrom_eq_up (a : BlockMatrix T) (o : ℕ) (x : Array T) :
    a.view.solveLowerFrom o x = Walk.up (a.lowerRowFrom o) (a.rowCount - (o + 1)) (o + 1) x :=
  rfl

variable (valid : a.Valid) (has : a.HasDiagonal)

include valid has

lemma lowerRow_eq {i : ℕ} (hi : i < a.rowCount) (hx : x.size = a.rowCount * a.blockSize) :
    a.lowerRow x i =
      .ok (Span.overwrite x (i * a.blockSize) (View.remainder a.blockSize
        (Span.chunk a.blockSize x) (Span.chunk a.blockSize x i) (a.leftEntries i))) := by
  rw [lowerRow, valid.item_rowStart (Nat.le_of_lt hi), ok_bind]
  exact solveLowerRow_eq valid has (Nat.zero_le i) hi (.zero has hi) hx

lemma lowerRowFrom_eq {i : ℕ} (hoi : o ≤ i) (hi : i < a.rowCount)
    (hx : x.size = (a.rowCount - o) * a.blockSize) :
    ∃ s, FirstFrom a o i s ∧ a.lowerRowFrom o x i =
      .ok (Span.overwrite x ((i - o) * a.blockSize)
        (View.remainder a.blockSize (fun j => Span.chunk a.blockSize x (j - o))
          (Span.chunk a.blockSize x (i - o)) (a.tailEntries i s))) := by
  obtain ⟨s, found, first⟩ := firstFrom_spec valid has o hi
  exact ⟨s, first, by rw [lowerRowFrom, found, ok_bind, solveLowerRow_eq valid has hoi hi first hx]⟩

/-- The lower solve from `o` on is the lower solve with the trailing submatrix. -/
lemma solveLowerFrom_eq (trailing : IsTrailing a o t)
    (hx : x.size = (a.rowCount - o) * a.blockSize) :
    a.view.solveLowerFrom o x = t.view.solveLower x := by
  have hasT := trailing.hasDiagonal has valid
  have hrows := trailing.rowCount_eq
  have walks : ∃ y z, a.view.solveLowerFrom o x = .ok y ∧ t.view.solveLower x = .ok z ∧
      (y = z ∧ y.size = x.size) := by
    rw [solveLowerFrom_eq_up, solveLower_eq_up,
      show a.rowCount - (o + 1) = t.rowCount - 1 by omega, Walk.up_shift]
    refine Walk.up_simulates ⟨rfl, rfl⟩ ?_
    rintro i y _ low high ⟨rfl, hy⟩
    have hi : i < t.rowCount := by omega
    obtain ⟨s, first, row⟩ := lowerRowFrom_eq valid has (Nat.le_add_right o i) (by omega)
      (hy.trans hx)
    have rowT := lowerRow_eq trailing.valid hasT hi (x := y)
      (by rw [hy, hx, hrows, trailing.blockSize_eq])
    rw [trailing.tailEntries_eq valid has (by omega) first, View.remainder_shift] at row
    simp only [Nat.add_sub_cancel_left] at row
    rw [trailing.blockSize_eq] at rowT
    exact ⟨_, _, row, rowT, rfl, (Span.size_overwrite ..).trans hy⟩
  obtain ⟨y, _, run, runT, rfl, -⟩ := walks
  rw [run, runT]

end Lower

end BlockMatrix

/-! ## Vectors with a zero head -/

/-- Multiples of zero and sums with zero are what they should be. Exact scalars are like this. In
floating point a multiple of zero may be no number, and a difference with zero may change its sign
bit. -/
structure ExactZero (T : Type) [Zero T] [Add T] [Sub T] [Mul T] : Prop where
  mul_zero : ∀ c : T, c * 0 = 0
  zero_add_zero : (0 : T) + 0 = 0
  sub_zero : ∀ c : T, c - 0 = c

/-- Zero is exact in every ring. -/
lemma exactZero_of_ring (T : Type) [NonUnitalNonAssocRing T] : ExactZero T where
  mul_zero := mul_zero
  zero_add_zero := add_zero 0
  sub_zero := sub_zero

section Zeros

variable [Zero T] [Add T] [Sub T] [Mul T] (exact : ExactZero T) {b : ℕ}

include exact in
lemma Block.mulVec_zeros (block : Array T) : mulVec b block (zeros b) = zeros b := by
  have sum : ∀ (n r : ℕ), sumBelow n (fun l => entry b block r l * (zeros b : Array T).getD l 0) =
      0 := by
    intro n r
    induction n with
    | zero => rfl
    | succ n ih =>
      have entry : (zeros b : Array T).getD n 0 = 0 := by
        rw [zeros, Array.getD_eq_getD_getElem?, Array.getElem?_replicate]
        split <;> rfl
      rw [sumBelow, ih, entry, exact.mul_zero, exact.zero_add_zero]
  apply Array.ext (by rw [size_mulVec, size_zeros])
  intro r _ _
  simp only [mulVec, Array.getElem_ofFn, sum]
  exact (Array.getElem_replicate ..).symm

include exact in
lemma Block.subMulVec_zeros (block : Array T) {y : Array T} (hy : y.size = b) :
    subMulVec b block (zeros b) y = y := by
  rw [subMulVec, mulVec_zeros exact]
  apply Array.ext (by rw [Array.size_zipWith, hy, size_zeros, Nat.min_self])
  intro r _ _
  rw [Array.getElem_zipWith]
  exact (congrArg (y[r] - ·) (Array.getElem_replicate ..)).trans (exact.sub_zero _)

include exact in
/-- Zero blocks leave nothing to subtract. -/
lemma View.remainder_zeros {block : ℕ → Array T} {row : Entries T} {sum : Array T}
    (zero : ∀ c ∈ row.columns, block c = Block.zeros b) (hsum : sum.size = b) :
    remainder b block sum row = sum := by
  induction row with
  | nil => rfl
  | cons e row ih =>
    obtain ⟨own, rest⟩ := List.forall_mem_cons.mp zero
    rw [remainder, List.foldl_cons, own, Block.subMulVec_zeros exact e.2 hsum]
    exact ih rest

/-- The blocks of a vector with a zero head. -/
lemma Span.chunk_zeros_append {T : Type} [Zero T] {b o : ℕ} (x : Array T) (k : ℕ) :
    chunk b (Block.zeros (o * b) ++ x) k =
      if k < o then Block.zeros b else chunk b x (k - o) := by
  rw [chunk_append (Block.size_zeros _)]
  split
  case isTrue hk =>
    have inside := succ_mul_le b hk
    rw [Nat.succ_mul] at inside
    apply Array.ext_getElem?
    intro l
    rw [getElem?_chunk, Block.zeros, Block.zeros, Array.getElem?_replicate,
      Array.getElem?_replicate]
    by_cases hl : l < b
    · rw [if_pos hl, if_pos hl, if_pos (by omega)]
    · rw [if_neg hl, if_neg hl]
  case isFalse => rfl

namespace BlockMatrix

variable {a : BlockMatrix T} {o : ℕ} {x : Array T} (valid : a.Valid) (has : a.HasDiagonal)

omit [Add T] [Sub T] [Mul T] in
lemma size_zeros_append (ho : o ≤ a.rowCount) (hx : x.size = (a.rowCount - o) * a.blockSize) :
    (Block.zeros (o * a.blockSize) ++ x).size = a.rowCount * a.blockSize := by
  rw [Array.size_append, Block.size_zeros, hx, ← Nat.add_mul, Nat.add_sub_cancel' ho]

include exact valid has

/-- A row up to row `o` meets zeros only. -/
lemma lowerRow_head {i : ℕ} (hio : i ≤ o) (ho : o < a.rowCount)
    (hx : x.size = (a.rowCount - o) * a.blockSize) :
    a.lowerRow (Block.zeros (o * a.blockSize) ++ x) i =
      .ok (Block.zeros (o * a.blockSize) ++ x) := by
  have size := size_zeros_append (Nat.le_of_lt ho) hx
  have hi : i < a.rowCount := by omega
  have zero : ∀ c ∈ (a.leftEntries i).columns,
      Span.chunk a.blockSize (Block.zeros (o * a.blockSize) ++ x) c = Block.zeros a.blockSize := by
    intro c hc
    have := (has.ascending_pieces valid hi).2.2.1 c hc
    rw [Span.chunk_zeros_append, if_pos (by omega)]
  rw [lowerRow_eq valid has hi size, View.remainder_zeros exact zero, Span.overwrite_chunk]
  apply Span.size_chunk
  rw [size]
  exact Span.succ_mul_le a.blockSize hi

/-- A row from `o` on is solved behind a zero head as it is without the head. -/
lemma lowerRow_tail {i : ℕ} (hoi : o ≤ i) (hi : i < a.rowCount)
    (hx : x.size = (a.rowCount - o) * a.blockSize) :
    ∃ z, a.lowerRow (Block.zeros (o * a.blockSize) ++ x) i =
        .ok (Block.zeros (o * a.blockSize) ++ z) ∧
      a.lowerRowFrom o x i = .ok z ∧ z.size = x.size := by
  have size := size_zeros_append (by omega) hx
  have row := lowerRow_eq valid has hi size
  obtain ⟨s, first, rowFrom⟩ := lowerRowFrom_eq valid has hoi hi hx
  obtain ⟨front, split, low, high⟩ := first.leftEntries_eq
  -- the entries before column `o` meet zeros, and the others meet the blocks of the tail
  have zero : ∀ c ∈ front.columns,
      Span.chunk a.blockSize (Block.zeros (o * a.blockSize) ++ x) c = Block.zeros a.blockSize := by
    intro c hc
    rw [Span.chunk_zeros_append, if_pos (low c hc)]
  have same : ∀ c ∈ (a.tailEntries i s).columns,
      Span.chunk a.blockSize (Block.zeros (o * a.blockSize) ++ x) c =
        Span.chunk a.blockSize x (c - o) := by
    intro c hc
    rw [Span.chunk_zeros_append, if_neg (Nat.not_lt.mpr (high c hc))]
  have full : (Span.chunk a.blockSize (Block.zeros (o * a.blockSize) ++ x) i).size =
      a.blockSize := by
    apply Span.size_chunk
    rw [size]
    exact Span.succ_mul_le a.blockSize hi
  rw [split, View.remainder_append, View.remainder_zeros exact zero full,
    View.remainder_congr same, Span.chunk_zeros_append, if_neg (Nat.not_lt.mpr hoi)] at row
  refine ⟨_, ?_, rowFrom, Span.size_overwrite ..⟩
  rw [row, ← Span.append_overwrite, Block.size_zeros, ← Nat.add_mul, Nat.add_sub_cancel' hoi]

/-- The lower solve of a vector with a zero head is the solve from `o` on, behind the zeros. -/
lemma solveLower_zeros (ho : o < a.rowCount) (hx : x.size = (a.rowCount - o) * a.blockSize) :
    ∃ z, a.view.solveLowerFrom o x = .ok z ∧ z.size = x.size ∧
      a.view.solveLower (Block.zeros (o * a.blockSize) ++ x) =
        .ok (Block.zeros (o * a.blockSize) ++ z) := by
  have head : ∃ z, Walk.up a.lowerRow o 1 (Block.zeros (o * a.blockSize) ++ x) = .ok z ∧
      z = Block.zeros (o * a.blockSize) ++ x := by
    refine Walk.up_spec (P := fun _ z => z = Block.zeros (o * a.blockSize) ++ x) rfl ?_
    rintro i _ - high rfl
    exact ⟨_, lowerRow_head exact valid has (by omega) ho hx, rfl⟩
  have tail : ∃ y z, Walk.up a.lowerRow (a.rowCount - (o + 1)) (o + 1)
        (Block.zeros (o * a.blockSize) ++ x) = .ok y ∧
      Walk.up (a.lowerRowFrom o) (a.rowCount - (o + 1)) (o + 1) x = .ok z ∧
      (y = Block.zeros (o * a.blockSize) ++ z ∧ z.size = x.size) := by
    refine Walk.up_simulates ⟨rfl, rfl⟩ ?_
    rintro i _ z low high ⟨rfl, hz⟩
    obtain ⟨z', row, rowFrom, hz'⟩ :=
      lowerRow_tail exact valid has (show o ≤ i by omega) (by omega) (hz.trans hx)
    exact ⟨_, z', row, rowFrom, rfl, hz'.trans hz⟩
  obtain ⟨_, runHead, rfl⟩ := head
  obtain ⟨_, z, run, runFrom, rfl, hz⟩ := tail
  refine ⟨z, runFrom, hz, ?_⟩
  rw [solveLower_eq_up, show a.rowCount - 1 = o + (a.rowCount - (o + 1)) by omega, Walk.up_add,
    runHead, ok_bind, Nat.add_comm 1 o, run]

end BlockMatrix

end Zeros

/-! ## The checked operations -/

namespace BlockMatrix

variable [Zero T] [Add T] [Sub T] [Mul T] {a t : BlockMatrix T} {o : ℕ} {x y u v : Array T}

namespace HasDiagonal

variable (has : a.HasDiagonal)

include has

lemma outcome_applyLower (hx : x.size = a.rowCount * a.blockSize)
    (hy : y.size = a.rowCount * a.blockSize) :
    (a.applyLower x).outcome y = a.view.solveLower x := by
  rw [Update.outcome_congr (has.applyLower_on hx hy), Update.outcome_replace]

lemma outcome_applyUpper (hx : x.size = a.rowCount * a.blockSize)
    (hy : y.size = a.rowCount * a.blockSize) :
    (a.applyUpper x).outcome y = a.view.solveUpper x := by
  rw [Update.outcome_congr (has.applyUpper_on hx hy), Update.outcome_replace]

lemma outcome_applyFactor (hx : x.size = a.rowCount * a.blockSize)
    (hy : y.size = a.rowCount * a.blockSize) :
    (a.applyFactor x).outcome y = (do a.view.solveUpper (← a.view.solveLower x)) := by
  rw [Update.outcome_congr (has.applyFactor_on hx hy), Update.outcome_replace]

variable (ho : o ≤ a.rowCount) (hu : u.size = (a.rowCount - o) * a.blockSize)

include ho hu

lemma outcome_applyLowerFrom : (a.applyLowerFrom o).outcome u = a.view.solveLowerFrom o u := by
  rw [Update.outcome_congr (has.applyLowerFrom_on ho hu), Update.outcome_replace]

lemma outcome_applyUpperFrom : (a.applyUpperFrom o).outcome u = a.view.solveUpperFrom o u := by
  rw [Update.outcome_congr (has.applyUpperFrom_on ho hu), Update.outcome_replace]
  rfl

end HasDiagonal

section Equalities

variable (valid : a.Valid) (has : a.HasDiagonal) (ho : o ≤ a.rowCount)

include valid has ho

section Whole

variable (hx : x.size = a.rowCount * a.blockSize) (hy : y.size = a.rowCount * a.blockSize)

include hx hy

/-- The upper solve from `o` on, of the tail of a vector. -/
lemma outcome_upper_tail :
    (a.applyUpperFrom o).outcome (x.extract (o * a.blockSize) (a.rowCount * a.blockSize)) =
      ((a.applyUpper x).outcome y).map
        (·.extract (o * a.blockSize) (a.rowCount * a.blockSize)) := by
  rw [has.outcome_applyUpperFrom ho (size_tail hx), has.outcome_applyUpper hx hy]
  rcases Nat.lt_or_ge a.blockSize Capacity.limit with room | crowded
  · obtain ⟨z, w, runTail, -, -, -, run, tail⟩ := solveUpper_split valid has hx room ho
    rw [runTail, run, ← tail]
    rfl
  · rw [View.solveUpperFrom, View.solveUpper, solveUpperRows_crowded crowded,
      solveUpperRows_crowded crowded]
    rfl

/-- The lower solve, the upper one of the tail, and the upper one before it. -/
lemma outcome_stages :
    (do
      a.applyLower x
      onTail (o * a.blockSize) (a.applyUpperFrom o)
      a.applyUpperBefore o : Update (Array T) Unit).outcome y = (a.applyFactor x).outcome y := by
  obtain ⟨w, lower, hw⟩ := (gives_solveLower valid has hx).exists_eq_ok
  rw [has.outcome_applyFactor hx hy, Update.outcome_bind, has.outcome_applyLower hx hy, lower,
    ok_bind, ok_bind, Update.outcome_bind, Update.outcome_onTail, hw,
    has.outcome_applyUpperFrom ho (size_tail hw)]
  rcases Nat.lt_or_ge a.blockSize Capacity.limit with room | crowded
  · obtain ⟨z, s, tail, hz, head, before, run, -⟩ := solveUpper_split valid has hw room ho
    -- between the two upper solves the head is that of `w` and the tail that of `z`
    have joined : w.extract 0 (o * a.blockSize) ++
        z.extract (o * a.blockSize) (a.rowCount * a.blockSize) = z := by
      rw [← head, ← hw, ← hz, Array.extract_append_extract, Nat.min_eq_left (Nat.zero_le _),
        Nat.max_eq_right (by rw [hz, hw]; exact Nat.mul_le_mul_right _ ho), Array.extract_size]
    rw [tail, run]
    change (a.applyUpperBefore o).outcome (w.extract 0 (o * a.blockSize) ++ _) = _
    rw [joined, Update.outcome_congr (has.applyUpperBefore_on o (hz.trans hw)),
      Update.outcome_replace, before]
  · rw [View.solveUpperFrom, View.solveUpper, solveUpperRows_crowded crowded,
      solveUpperRows_crowded crowded]
    rfl

end Whole

variable (hu : u.size = (a.rowCount - o) * a.blockSize)

include hu

/-- The lower solve from `o` on, with the trailing submatrix. -/
lemma outcome_lower_trailing (trailing : IsTrailing a o t)
    (hv : v.size = (a.rowCount - o) * a.blockSize) :
    (a.applyLowerFrom o).outcome u = (t.applyLower u).outcome v := by
  have rows : t.rowCount * t.blockSize = (a.rowCount - o) * a.blockSize := by
    rw [trailing.rowCount_eq, trailing.blockSize_eq]
  rw [has.outcome_applyLowerFrom ho hu, (trailing.hasDiagonal has valid).outcome_applyLower
    (hu.trans rows.symm) (hv.trans rows.symm), solveLowerFrom_eq valid has trailing hu]

/-- The lower solve from `o` on, behind a zero head. -/
lemma outcome_lower_zeros (exact : ExactZero T) (hy : y.size = a.rowCount * a.blockSize) :
    (a.applyLowerFrom o).outcome u =
      ((a.applyLower (Block.zeros (o * a.blockSize) ++ u)).outcome y).map
        (·.extract (o * a.blockSize) (a.rowCount * a.blockSize)) := by
  have size := size_zeros_append ho hu
  rw [has.outcome_applyLowerFrom ho hu, has.outcome_applyLower size hy]
  rcases Nat.lt_or_ge o a.rowCount with behind | none
  · obtain ⟨z, runFrom, hz, run⟩ := solveLower_zeros exact valid has behind hu
    have whole : a.rowCount * a.blockSize = o * a.blockSize + z.size := by
      rw [hz, hu, ← Nat.add_mul, Nat.add_sub_cancel' ho]
    have tail : (Block.zeros (o * a.blockSize) ++ z).extract (o * a.blockSize)
        (a.rowCount * a.blockSize) = z := by
      have behindHead :=
        @Array.extract_append_right T z.size (Block.zeros (o * a.blockSize)) z
      rwa [Block.size_zeros, ← whole, Array.extract_size] at behindHead
    rw [runFrom, run]
    exact congrArg Except.ok tail.symm
  · -- no row is left, and no entry of the vector
    obtain rfl : o = a.rowCount := Nat.le_antisymm ho none
    obtain ⟨z, run, -⟩ := (gives_solveLower valid has size).exists_eq_ok
    rw [solveLowerFrom_eq_up, Nat.sub_eq_zero_of_le (Nat.le_succ _), run]
    refine congrArg Except.ok (Array.ext ?_ ?_)
    · rw [hu, Array.size_extract]
      simp
    · intro k hk
      rw [hu, Nat.sub_self, Nat.zero_mul] at hk
      exact absurd hk (Nat.not_lt_zero k)

end Equalities

/-- Partial solves do the work of full solves, whatever the arithmetic: for an offset up to the
number of rows, the upper solve from there on answers the tail of the full upper solve; the lower
solve, the upper solve of the tail and the upper solve before it answer what both full solves
answer; and the lower solve from the offset on answers what the trailing submatrix answers, and,
where zero is exact, the tail of the full lower solve of the vector with a zero head. The lower
solves succeed, and the upper ones do where one block of a vector fits into an array. -/
theorem partialSolves_eq (valid : a.Valid) (has : a.HasDiagonal) (ho : o ≤ a.rowCount)
    (hx : x.size = a.rowCount * a.blockSize) (hy : y.size = a.rowCount * a.blockSize) :
    (a.applyUpperFrom o).outcome (x.extract (o * a.blockSize) (a.rowCount * a.blockSize)) =
      ((a.applyUpper x).outcome y).map
        (·.extract (o * a.blockSize) (a.rowCount * a.blockSize)) ∧
    (do
      a.applyLower x
      onTail (o * a.blockSize) (a.applyUpperFrom o)
      a.applyUpperBefore o : Update (Array T) Unit).outcome y = (a.applyFactor x).outcome y ∧
    (∃ t, IsTrailing a o t) ∧
    (∀ u v : Array T, u.size = (a.rowCount - o) * a.blockSize →
      v.size = (a.rowCount - o) * a.blockSize →
      (∃ z, (a.applyLowerFrom o).outcome u = .ok z) ∧
      (∀ t, IsTrailing a o t → (a.applyLowerFrom o).outcome u = (t.applyLower u).outcome v) ∧
      (ExactZero T → (a.applyLowerFrom o).outcome u =
        ((a.applyLower (Block.zeros (o * a.blockSize) ++ u)).outcome y).map
          (·.extract (o * a.blockSize) (a.rowCount * a.blockSize)))) ∧
    (a.blockSize < Capacity.limit →
      (∃ z, (a.applyUpper x).outcome y = .ok z) ∧ ∃ z, (a.applyFactor x).outcome y = .ok z) := by
  refine ⟨outcome_upper_tail valid has ho hx hy, outcome_stages valid has ho hx hy,
    exists_trailing valid o, fun u v hu hv => ⟨?_, fun t trailing => ?_, fun exact => ?_⟩,
    fun room => ⟨?_, ?_⟩⟩
  · obtain ⟨z, run, -⟩ := (gives_solveLowerFrom valid has hu).exists_eq_ok
    exact ⟨z, by rw [has.outcome_applyLowerFrom ho hu, run]⟩
  · exact outcome_lower_trailing valid has ho hu trailing hv
  · exact outcome_lower_zeros valid has ho hu exact hy
  · obtain ⟨z, w, -, -, -, -, run, -⟩ := solveUpper_split valid has hx room ho
    exact ⟨w, by rw [has.outcome_applyUpper hx hy, run]⟩
  · obtain ⟨w, lower, hw⟩ := (gives_solveLower valid has hx).exists_eq_ok
    obtain ⟨z, s, -, -, -, -, run, -⟩ := solveUpper_split valid has hw room ho
    exact ⟨s, by rw [has.outcome_applyFactor hx hy, lower, ok_bind, run]⟩

/-- The arrow, and its rows from the second one on. -/
theorem arrow_partialSolves_eq :
    arrow.Valid ∧ arrow.HasDiagonal ∧ ExactZero ℚ ∧
    (arrow.applyUpperFrom 1).outcome #[3, 4, 5, 6] =
      ((arrow.applyUpper #[1, 2, 3, 4, 5, 6]).outcome (Block.zeros 6)).map (·.extract 2 6) ∧
    (∃ t, IsTrailing arrow 1 t ∧
      (arrow.applyLowerFrom 1).outcome #[3, 4, 5, 6] =
        (t.applyLower #[3, 4, 5, 6]).outcome (Block.zeros 4)) ∧
    (arrow.applyLowerFrom 1).outcome #[3, 4, 5, 6] =
      ((arrow.applyLower #[0, 0, 3, 4, 5, 6]).outcome (Block.zeros 6)).map (·.extract 2 6) ∧
    ∃ z, (arrow.applyFactor #[1, 2, 3, 4, 5, 6]).outcome (Block.zeros 6) = .ok z := by
  have valid : arrow.Valid := by decide +kernel
  have has : arrow.HasDiagonal := valid.hasDiagonal rfl (by decide +kernel)
  have exact := exactZero_of_ring ℚ
  have room : arrow.blockSize < Capacity.limit := by decide +kernel
  obtain ⟨upper, -, ⟨t, trailing⟩, lower, runs⟩ := partialSolves_eq valid has
    (o := 1) (x := #[1, 2, 3, 4, 5, 6]) (y := Block.zeros 6) (by decide) rfl rfl
  obtain ⟨-, same, zeros⟩ := lower #[3, 4, 5, 6] (Block.zeros 4) rfl rfl
  exact ⟨valid, has, exact, upper, ⟨t, trailing, same t trailing⟩, zeros exact, (runs room).2⟩

end BlockMatrix

end DomainDecomposition
