import DomainDecomposition.Proofs.BlockMatrix.ClearedRows
import DomainDecomposition.Proofs.BlockMatrix.Product

/-!
# Products with cleared rows

A scalar of a product depends on one scalar row of the matrix alone: it is the sum that
`Entries.line` writes out. So the rows that have not been cleared answer as before, in any
arithmetic, rounding included. Where zero and one are exact, a cleared row adds nothing to what is
in the output, and with a one on the diagonal it adds the scalar of the vector at its own place.

* `Entries.getD_addTimes`: a scalar of a product is the sum of a line,
* `Cleared.line_eq`, `Cleared.line_eq_of_not_unit`: the line after rows have been cleared.
-/

namespace DomainDecomposition

variable {T : Type}

/-- Zero and one are what they should be. Exact scalars are like this. In floating point a multiple
of zero may be no number, and a sum with zero may change its sign bit. -/
structure ExactUnit (T : Type) [Zero T] [One T] [Add T] [Mul T] : Prop where
  zero_mul : ∀ c : T, 0 * c = 0
  one_mul : ∀ c : T, 1 * c = c
  zero_add : ∀ c : T, 0 + c = c
  add_zero : ∀ c : T, c + 0 = c

/-- Zero and one are exact in every semiring. -/
lemma exactUnit_of_semiring (T : Type) [NonAssocSemiring T] : ExactUnit T :=
  ⟨zero_mul, one_mul, zero_add, add_zero⟩

/-! ## One line of a block -/

namespace Block

section Sums

variable [Zero T] [Add T]

lemma sumBelow_congr {n : ℕ} {f g : ℕ → T} (same : ∀ l < n, f l = g l) :
    sumBelow n f = sumBelow n g := by
  induction n with
  | zero => rfl
  | succ n ih => rw [sumBelow, sumBelow, ih fun l hl => same l (by omega), same n (by omega)]

variable [One T] [Mul T] (exact : ExactUnit T)

include exact

lemma sumBelow_zero_mul (n : ℕ) (f : ℕ → T) : sumBelow n (fun l => 0 * f l) = 0 := by
  induction n with
  | zero => rfl
  | succ n ih => rw [sumBelow, ih, exact.zero_mul, exact.add_zero]

lemma sumBelow_unit_mul {n r : ℕ} (hr : r < n) (f : ℕ → T) :
    sumBelow n (fun l => (if r = l then 1 else 0) * f l) = f r := by
  induction n with
  | zero => exact absurd hr (Nat.not_lt_zero r)
  | succ n ih =>
    rw [sumBelow]
    rcases Nat.lt_or_ge r n with before | last
    · rw [ih before, if_neg (by omega), exact.zero_mul, exact.add_zero]
    · obtain rfl : r = n := by omega
      have zeros : sumBelow r (fun l => (if r = l then 1 else 0) * f l) =
          sumBelow r (fun l => 0 * f l) :=
        sumBelow_congr fun l hl => by rw [if_neg (by omega)]
      rw [zeros, sumBelow_zero_mul exact, if_pos rfl, exact.one_mul, exact.zero_add]

end Sums

variable [Zero T] [Add T] [Mul T] {b : ℕ}

/-- Line `r` of a block times a vector. -/
def line (b : ℕ) (block x : Array T) (r : ℕ) : T :=
  sumBelow (min b x.size) fun l => entry b block r l * x.getD l 0

lemma getD_addMulVec {block x y : Array T} (hy : y.size = b) {r : ℕ} (hr : r < b) :
    (addMulVec b block x y).getD r 0 = y.getD r 0 + line b block x r := by
  have inside : r < y.size := by omega
  have inside' : r < (mulVec b block x).size := by rwa [size_mulVec]
  simp only [addMulVec, Array.getD_eq_getD_getElem?, Array.getElem?_zipWith,
    Array.getElem?_eq_getElem inside, Array.getElem?_eq_getElem inside', Option.getD_some]
  simp [mulVec, line]

variable [One T] {lines : Set ℕ} {own : Prop} {block x : Array T} {r : ℕ}

/-- A line that stays. -/
lemma line_clearLines_of_notMem (hr : r < b) (kept : r ∉ lines) :
    line b (clearLines b lines own block) x r = line b block x r :=
  sumBelow_congr fun l hl => by rw [entry_clearLines hr (by omega), if_neg kept]

section Exact

variable (exact : ExactUnit T) (hr : r < b) (cleared : r ∈ lines)

include exact hr cleared

/-- A line that is cleared outside its own diagonal block. -/
lemma line_clearLines_of_not_own (elsewhere : ¬own) :
    line b (clearLines b lines own block) x r = 0 := by
  refine (sumBelow_congr fun l hl => ?_).trans (sumBelow_zero_mul exact _ fun l => x.getD l 0)
  rw [entry_clearLines hr (by omega), if_pos cleared, if_neg (fun h => elsewhere h.1)]

/-- A line that is cleared in its own diagonal block. -/
lemma line_clearLines_of_own (here : own) (hx : x.size = b) :
    line b (clearLines b lines own block) x r = x.getD r 0 := by
  refine (sumBelow_congr fun l hl => ?_).trans
    (sumBelow_unit_mul exact (by omega) fun l => x.getD l 0)
  rw [entry_clearLines hr (by omega), if_pos cleared]
  congr 1
  simp only [here, true_and]

end Exact

end Block

/-! ## One line of a row -/

namespace Entries

variable [Zero T] [Add T] [Mul T] {b r : ℕ} {x : Array T}

/-- `sum` and then line `r` of each block of a row times a block of the vector, added one after the
other. -/
def line (b : ℕ) (x : Array T) (r : ℕ) (sum : T) (row : Entries T) : T :=
  row.foldl (fun sum e => sum + Block.line b e.2 (Span.chunk b x e.1) r) sum

lemma getD_addTimes (hr : r < b) (row : Entries T) {sum : Array T} (hsum : sum.size = b) :
    (addTimes b x sum row).getD r 0 = line b x r (sum.getD r 0) row := by
  induction row generalizing sum with
  | nil => rfl
  | cons e row ih =>
    have rest := ih (Block.size_addMulVec e.2 (Span.chunk b x e.1) hsum)
    rwa [Block.getD_addMulVec hsum hr] at rest

variable [One T] {lines : Set ℕ}

/-- A line that stays. -/
lemma line_cleared_of_notMem (hr : r < b) (kept : r ∉ lines) (own : ℕ → Prop) (sum : T)
    (row : Entries T) :
    line b x r sum (row.map fun e => (e.1, Block.clearLines b lines (own e.1) e.2)) =
      line b x r sum row := by
  rw [line, line, List.foldl_map]
  simp only [Block.line_clearLines_of_notMem hr kept]

section Exact

variable (exact : ExactUnit T) (hr : r < b) (cleared : r ∈ lines)

include exact hr cleared

/-- A line that is cleared in blocks of which none is its own diagonal block. -/
lemma line_cleared_of_not_own (own : ℕ → Prop) (sum : T) (row : Entries T)
    (elsewhere : ∀ c ∈ row.columns, ¬own c) :
    line b x r sum (row.map fun e => (e.1, Block.clearLines b lines (own e.1) e.2)) = sum := by
  induction row generalizing sum with
  | nil => rfl
  | cons e row ih =>
    obtain ⟨first, rest⟩ := List.forall_mem_cons.mp elsewhere
    rw [List.map_cons, line, List.foldl_cons,
      Block.line_clearLines_of_not_own exact hr cleared first, exact.add_zero]
    exact ih sum rest

/-- A line that is cleared in all blocks of a row. At the column of its own diagonal block, the
scalar of the vector is added. -/
lemma line_cleared_of_own {i : ℕ} (sum : T) (row : Entries T)
    (ascending : row.columns.Pairwise (· < ·)) (inside : ∀ c ∈ row.columns, (c + 1) * b ≤ x.size) :
    line b x r sum (row.map fun e => (e.1, Block.clearLines b lines (e.1 = i) e.2)) =
      if i ∈ row.columns then sum + (Span.chunk b x i).getD r 0 else sum := by
  induction row generalizing sum with
  | nil => exact (if_neg List.not_mem_nil).symm
  | cons e row ih =>
    obtain ⟨first, rest⟩ := List.forall_mem_cons.mp inside
    obtain ⟨later, ascending⟩ := List.pairwise_cons.mp ascending
    by_cases own : e.1 = i
    · -- all later columns are larger
      have others : ∀ c ∈ columns row, ¬c = i := fun c hc same =>
        Nat.ne_of_lt (later c hc) (own.trans same.symm)
      rw [List.map_cons, line, List.foldl_cons,
        Block.line_clearLines_of_own exact hr cleared own (Span.size_chunk first)]
      refine (line_cleared_of_not_own exact hr cleared (· = i) _ row others).trans ?_
      rw [own, if_pos (by rw [columns_cons, own]; exact List.mem_cons_self)]
    · rw [List.map_cons, line, List.foldl_cons,
        Block.line_clearLines_of_not_own exact hr cleared own, exact.add_zero]
      refine (ih sum ascending rest).trans (if_congr ?_ rfl rfl)
      rw [columns_cons, List.mem_cons, or_iff_right (fun same => own same.symm)]

end Exact

end Entries

/-! ## Products -/

namespace BlockMatrix.Cleared

variable [Zero T] [One T] [Add T] [Mul T] {a f : BlockMatrix T} {rows : Set (ℕ × ℕ)} {x : Array T}
variable (exact : ExactUnit T)

include exact

open Classical in
/-- Line `r` of row `i`, when cleared lines have a one on the diagonal. -/
lemma line_eq (valid : a.Valid) (cleared : Cleared rows true a f)
    (hx : x.size = a.columnCount * a.blockSize) {i r : ℕ} (hi : i < a.rowCount)
    (hr : r < a.blockSize) (sum : T) :
    Entries.line a.blockSize x r sum (f.rowEntries i) =
      if (i, r) ∈ rows then
        if a.Stores i i then sum + (Span.chunk a.blockSize x i).getD r 0 else sum
      else Entries.line a.blockSize x r sum (a.rowEntries i) := by
  have regular := valid.regular hi
  have inside : ∀ c ∈ (a.rowEntries i).columns, (c + 1) * a.blockSize ≤ x.size := by
    intro c hc
    rw [columns_rowEntries] at hc
    exact hx ▸ Span.succ_mul_le _ (valid.columns_lt i hi c hc)
  simp only [cleared.entries i hi, true_and]
  by_cases member : (i, r) ∈ rows
  · have listed : r ∈ {v | (i, v) ∈ rows} := member
    rw [if_pos member, Entries.line_cleared_of_own exact hr listed sum _ regular.ascending inside]
    refine if_congr ?_ rfl rfl
    rw [valid.stores_iff, columns_rowEntries, and_iff_right hi]
  · have kept : r ∉ {v | (i, v) ∈ rows} := member
    rw [if_neg member]
    exact Entries.line_cleared_of_notMem hr kept (· = i) sum _

open Classical in
/-- Line `r` of row `i`, when cleared lines are zero. -/
lemma line_eq_of_not_unit (cleared : Cleared rows false a f) {i r : ℕ} (hi : i < a.rowCount)
    (hr : r < a.blockSize) (sum : T) :
    Entries.line a.blockSize x r sum (f.rowEntries i) =
      if (i, r) ∈ rows then sum else Entries.line a.blockSize x r sum (a.rowEntries i) := by
  rw [cleared.entries i hi]
  by_cases member : (i, r) ∈ rows
  · have listed : r ∈ {v | (i, v) ∈ rows} := member
    rw [if_pos member]
    exact Entries.line_cleared_of_not_own exact hr listed (fun c => false = true ∧ c = i) sum _
      fun c _ own => Bool.false_ne_true own.1
  · have kept : r ∉ {v | (i, v) ∈ rows} := member
    rw [if_neg member]
    exact Entries.line_cleared_of_notMem hr kept (fun c => false = true ∧ c = i) sum _

end BlockMatrix.Cleared

end DomainDecomposition
