import DomainDecomposition.Proofs.BlockMatrix.Factor
import DomainDecomposition.Proofs.BlockMatrix.Product

/-!
# The triangular solves

A solve of the rows from `o` on works on a vector that starts at row `o`: block `r - o` of the
vector belongs to row `r`. Each row reads only rows that are solved already, so a solve in place
ends with a vector that satisfies every row equation at once:

* `solveLower_spec`, `solveLowerFrom_spec`: the unit lower factor of the rows from `o` on,
* `solveUpperRows_spec`: the rows `first, …, last - 1` of the upper factor, given the rows behind.

`sum_lower_mulVec` and `sum_upper_mulVec` say the same with the two factors that are stored.
-/

namespace DomainDecomposition

open Outcome

variable {T : Type} {b : ℕ}

lemma View.subtractRow_spec [NonUnitalNonAssocRing T] (read : ℕ → Except Error (Array T))
    (x : ℕ → Fin b → T) (row : Entries T) {sum : Array T} (hsum : sum.size = b)
    (reads : ∀ c ∈ row.columns, ∃ v, read c = .ok v ∧ Block.toVec b v = x c) :
    ∃ s, View.subtractRow b read sum row = .ok s ∧ s.size = b ∧
      Block.toVec b s = Block.toVec b sum -
        (row.map fun e => (Block.toMatrix b e.2).mulVec (x e.1)).sum := by
  induction row generalizing sum with
  | nil => exact ⟨sum, rfl, hsum, by rw [List.map_nil, List.sum_nil, sub_zero]⟩
  | cons e row ih =>
    obtain ⟨j, block⟩ := e
    obtain ⟨⟨v, hv, hvec⟩, hrest⟩ := List.forall_mem_cons.mp reads
    obtain ⟨s, hs, hsize, hsub⟩ := ih (Block.size_subMulVec block v hsum) hrest
    refine ⟨s, ?_, hsize, ?_⟩
    · rw [View.subtractRow, List.foldlM_cons]
      simp only [hv, ok_bind, pure_eq]
      exact hs
    · rw [hsub, Block.toVec_subMulVec block _ hsum, hvec, List.map_cons, List.sum_cons, sub_sub]

namespace BlockMatrix

variable {a : BlockMatrix T}

/-! ## Entries between an offset and the diagonal -/

/-- Entry `s` is the first one of row `i` whose column is at least `o`, or the diagonal entry. -/
structure FirstFrom (a : BlockMatrix T) (o i s : ℕ) : Prop where
  low : a.start i ≤ s
  high : s ≤ a.diagonalOf i
  before : ∀ k, a.start i ≤ k → k < s → a.columns.getD k 0 < o
  behind : ∀ k, s ≤ k → k < a.diagonalOf i → o ≤ a.columns.getD k 0

lemma FirstFrom.zero (has : a.HasDiagonal) {i : ℕ} (hi : i < a.rowCount) :
    FirstFrom a 0 i (a.start i) where
  low := Nat.le_refl _
  high := has.start_le i hi
  before := fun _ low high => absurd low (Nat.not_le.mpr high)
  behind := fun _ _ _ => Nat.zero_le _

/-- The entries of row `i` from entry `s` up to the diagonal. -/
def tailEntries (a : BlockMatrix T) (i s : ℕ) : Entries T :=
  (List.range' s (a.diagonalOf i - s)).map a.entryAt

/-- The entries left of the diagonal fall into those before entry `s` and those from there on. -/
lemma FirstFrom.leftEntries_eq {o i s : ℕ} (h : FirstFrom a o i s) :
    ∃ front : Entries T, a.leftEntries i = front ++ a.tailEntries i s ∧
      (∀ c ∈ front.columns, c < o) ∧ ∀ c ∈ (a.tailEntries i s).columns, o ≤ c := by
  have hlow := h.low
  have hhigh := h.high
  refine ⟨(List.range' (a.start i) (s - a.start i)).map a.entryAt, ?_, ?_, ?_⟩
  · rw [leftEntries, show a.diagonalOf i - a.start i =
        (s - a.start i) + (a.diagonalOf i - s) by omega, ← List.range'_append_1, List.map_append,
      show a.start i + (s - a.start i) = s by omega]
    rfl
  · intro c hc
    rw [Entries.columns, List.map_map, List.mem_map] at hc
    obtain ⟨k, hk, rfl⟩ := hc
    rw [List.mem_range'_1] at hk
    exact h.before k hk.1 (by omega)
  · intro c hc
    rw [tailEntries, Entries.columns, List.map_map, List.mem_map] at hc
    obtain ⟨k, hk, rfl⟩ := hc
    rw [List.mem_range'_1] at hk
    exact h.behind k hk.1 (by omega)

/-- Bisection finds the first entry from an offset on. -/
lemma firstFrom_spec (valid : a.Valid) (has : a.HasDiagonal) (o : ℕ) {i : ℕ}
    (hi : i < a.rowCount) : ∃ s, a.view.firstFrom o i = .ok s ∧ FirstFrom a o i s := by
  have hle := has.start_le i hi
  have hsize : a.diagonalOf i ≤ a.columns.size := Nat.le_of_lt (has.diagonalOf_lt valid hi)
  set left := a.columns.extract (a.start i) (a.diagonalOf i) with hleft
  have hleftSize : left.size = a.diagonalOf i - a.start i := by
    rw [hleft, Array.size_extract, Nat.min_eq_left hsize]
  have hget : ∀ k < left.size, left.getD k 0 = a.columns.getD (a.start i + k) 0 := by
    intro k hk
    rw [Array.getD_eq_getD_getElem?, Array.getD_eq_getD_getElem?, hleft,
      Array.getElem?_extract, if_pos (by omega)]
  have hrun : a.view.firstFrom o i =
      .ok (a.start i + Bisection.boundary (fun k => left.getD k 0 < o) left.size) := by
    rw [View.firstFrom, show a.view.rowStart = a.rowStart from rfl,
      show a.view.diagonal = a.diagonal from rfl, show a.view.columns = a.columns from rfl,
      valid.item_rowStart (Nat.le_of_lt hi), ok_bind, has.item_diagonal hi, ok_bind, Span.between,
      if_pos hle, Span.run, Nat.add_sub_cancel' hle, if_pos hsize, ok_bind, pure_eq]
  -- the columns ascend, so those below the offset come first
  have hascending := (has.ascending_pieces valid hi).1
  have hinitial : Bisection.IsInitial (fun k => decide (left.getD k 0 < o)) left.size := by
    intro k k' hk hk' htest
    rw [decide_eq_true_eq, hget _ hk'] at htest
    rw [decide_eq_true_eq, hget _ (hk.trans hk')]
    rw [leftEntries, Entries.columns, List.map_map, List.pairwise_map] at hascending
    have hpair := (List.pairwise_iff_getElem.mp hascending) k k'
      (by rw [List.length_range']; omega) (by rw [List.length_range']; omega) hk
    rw [List.getElem_range', List.getElem_range', Nat.one_mul, Nat.one_mul] at hpair
    exact hpair.trans htest
  have hboundary := Bisection.boundary_le hinitial
  refine ⟨_, hrun, Nat.le_add_right _ _, by omega, ?_, ?_⟩
  · intro k hlow hhigh
    have htest := (Bisection.lt_boundary_iff hinitial (i := k - a.start i) (by omega)).mp (by omega)
    rw [decide_eq_true_eq, hget _ (by omega), Nat.add_sub_cancel' hlow] at htest
    exact htest
  · -- an entry below the offset would lie before the boundary
    intro k hlow hhigh
    by_contra hlt
    have htest := (Bisection.lt_boundary_iff hinitial (i := k - a.start i) (by omega)).mpr (by
      rw [decide_eq_true_eq, hget _ (by omega), Nat.add_sub_cancel' (by omega)]
      exact Nat.not_le.mp hlt)
    omega

/-! ## One row -/

section Rows

variable [NonUnitalNonAssocRing T] (valid : a.Valid) (has : a.HasDiagonal)

include valid has

/-- The entries from an offset on, times a vector. -/
lemma sum_tailEntries {o i s : ℕ} (hi : i < a.rowCount) (first : FirstFrom a o i s)
    (x : ℕ → Fin b → T) :
    ((a.tailEntries i s).map fun e => (Block.toMatrix b e.2).mulVec (x e.1)).sum =
      ∑ j ∈ Finset.Ico o i, (a.coeff b i j).mulVec (x j) := by
  obtain ⟨front, hsplit, hfront, htail⟩ := first.leftEntries_eq
  obtain ⟨hascending, -, hbelow, -⟩ := has.ascending_pieces valid hi
  rw [hsplit, Entries.columns_append] at hascending hbelow
  have hsub : Finset.Ico o i ⊆ Finset.range i := by
    intro j hj
    exact Finset.mem_range.mpr (Finset.mem_Ico.mp hj).2
  rw [Entries.sum_mulVec (List.pairwise_append.mp hascending).2.1
    (fun c hc => hbelow c (List.mem_append_right _ hc)), ← Finset.sum_subset hsub]
  · refine Finset.sum_congr rfl fun j hj => ?_
    obtain ⟨hoj, hji⟩ := Finset.mem_Ico.mp hj
    have hnone : front.lookup j = none :=
      Entries.lookup_eq_none.mpr fun h => by have := hfront j h; omega
    rw [has.coeff_left valid hi hji, hsplit, Entries.coeff, Entries.coeff, List.lookup_append,
      hnone, Option.none_or]
  · intro j hj hout
    rw [Entries.coeff_eq_zero fun h => hout ?_, Matrix.zero_mulVec]
    exact Finset.mem_Ico.mpr ⟨htail j h, Finset.mem_range.mp hj⟩

omit [NonUnitalNonAssocRing T] in
/-- The columns right of the diagonal. -/
lemma rightEntries_columns {i c : ℕ} (hi : i < a.rowCount)
    (hc : c ∈ (a.rightEntries i).columns) : i < c ∧ c < a.rowCount := by
  have hmem : c ∈ a.columnsOf i := by
    rw [← columns_rowEntries, has.rowEntries_eq hi, Entries.columns_append]
    exact List.mem_append_right _ (List.mem_cons_of_mem _ hc)
  have hlt := valid.columns_lt i hi c hmem
  rw [← has.square] at hlt
  exact ⟨(has.ascending_pieces valid hi).2.2.2 c hc, hlt⟩

/-- The entries right of the diagonal, times a vector. -/
lemma sum_rightEntries {i : ℕ} (hi : i < a.rowCount) (x : ℕ → Fin b → T) :
    ((a.rightEntries i).map fun e => (Block.toMatrix b e.2).mulVec (x e.1)).sum =
      ∑ j ∈ Finset.Ico (i + 1) a.rowCount, (a.coeff b i j).mulVec (x j) := by
  have hascending := (has.ascending_pieces valid hi).2.1
  have hcolumns := fun c hc => rightEntries_columns valid has (c := c) hi hc
  have hsub : Finset.Ico (i + 1) a.rowCount ⊆ Finset.range a.rowCount := by
    intro j hj
    exact Finset.mem_range.mpr (Finset.mem_Ico.mp hj).2
  rw [Entries.sum_mulVec hascending fun c hc => (hcolumns c hc).2, ← Finset.sum_subset hsub]
  · refine Finset.sum_congr rfl fun j hj => ?_
    rw [has.coeff_right valid hi (Finset.mem_Ico.mp hj).1]
  · intro j hj hout
    rw [Entries.coeff_eq_zero fun h => hout ?_, Matrix.zero_mulVec]
    exact Finset.mem_Ico.mpr ⟨(hcolumns j h).1, Finset.mem_range.mp hj⟩

/-- Solving row `i` of the lower factor changes its block and no other. -/
lemma solveLowerRow_spec {o i s : ℕ} (hoi : o ≤ i) (hi : i < a.rowCount)
    (first : FirstFrom a o i s) {x : Array T} (hx : x.size = (a.rowCount - o) * a.blockSize) :
    ∃ x', a.view.solveLowerRow o s x i = .ok x' ∧ x'.size = x.size ∧
      ∀ k, Block.part a.blockSize x' k =
        if k = i - o then Block.part a.blockSize x (i - o) -
          ∑ j ∈ Finset.Ico o i,
            (a.coeff a.blockSize i j).mulVec (Block.part a.blockSize x (j - o))
        else Block.part a.blockSize x k := by
  have hown : (i - o + 1) * a.blockSize ≤ x.size := by
    rw [hx]
    exact Span.succ_mul_le a.blockSize (by omega)
  obtain ⟨front, hsplit, -, htail⟩ := first.leftEntries_eq
  have hcolumns : ∀ c ∈ (a.tailEntries i s).columns, o ≤ c ∧ c < i := by
    intro c hc
    refine ⟨htail c hc, (has.ascending_pieces valid hi).2.2.1 c ?_⟩
    rw [hsplit, Entries.columns_append]
    exact List.mem_append_right _ hc
  -- the entries of the row only read blocks that lie before the own one
  obtain ⟨new, hnew, hsize, hvec⟩ := View.subtractRow_spec
    (fun j => if o ≤ j then Span.runBefore x ((i - o) * a.blockSize)
      ((j - o) * a.blockSize) a.blockSize else .error .outOfRange)
    (fun j => Block.part a.blockSize x (j - o)) (a.tailEntries i s) (Span.size_chunk hown)
    fun c hc => by
      obtain ⟨hoc, hci⟩ := hcolumns c hc
      have hle := Span.succ_mul_le a.blockSize (k := c - o) (m := i - o) (by omega)
      refine ⟨Span.chunk a.blockSize x (c - o), ?_, rfl⟩
      rw [if_pos hoc, Span.runBefore, if_pos (by rwa [← Nat.succ_mul]), Span.run_chunk (by
        refine Nat.le_trans ?_ hown
        exact hle.trans (Nat.mul_le_mul_right _ (Nat.le_succ _)))]
  refine ⟨Span.overwrite x ((i - o) * a.blockSize) new, ?_, Span.size_overwrite _ _ _,
    fun k => ?_⟩
  · rw [View.solveLowerRow]
    show (Span.run x ((i - o) * a.blockSize) a.blockSize >>= fun _ => _) = _
    rw [Span.run_chunk hown, ok_bind, show a.view.diagonal = a.diagonal from rfl,
      has.item_diagonal hi, ok_bind,
      valid.view_entries (Nat.le_of_lt (has.diagonalOf_lt valid hi)), ok_bind]
    simp only [show a.view.blockSize = a.blockSize from rfl]
    rw [tailEntries] at hnew
    rw [hnew]
    rfl
  · rw [Block.part_overwrite hsize hown, hvec, sum_tailEntries valid has hi first
      fun j => Block.part a.blockSize x (j - o)]
    rfl

/-- Solving row `i` of the upper factor changes its block and no other. -/
lemma solveUpperRow_spec {o i : ℕ} (hoi : o ≤ i) (hi : i < a.rowCount) {x : Array T}
    (hx : x.size = (a.rowCount - o) * a.blockSize) :
    ∃ x', a.view.solveUpperRow o x i = .ok x' ∧ x'.size = x.size ∧
      ∀ k, Block.part a.blockSize x' k =
        if k = i - o then (a.coeff a.blockSize i i).mulVec
          (Block.part a.blockSize x (i - o) - ∑ j ∈ Finset.Ico (i + 1) a.rowCount,
            (a.coeff a.blockSize i j).mulVec (Block.part a.blockSize x (j - o)))
        else Block.part a.blockSize x k := by
  have hown : (i - o + 1) * a.blockSize ≤ x.size := by
    rw [hx]
    exact Span.succ_mul_le a.blockSize (by omega)
  -- the entries of the row only read blocks that lie behind the own one
  obtain ⟨new, hnew, hsize, hvec⟩ := View.subtractRow_spec
    (fun j => if i < j then Span.run x ((j - o) * a.blockSize) a.blockSize
      else .error .outOfRange)
    (fun j => Block.part a.blockSize x (j - o)) (a.rightEntries i) (Span.size_chunk hown)
    fun c hc => by
      obtain ⟨hic, hcn⟩ := rightEntries_columns valid has hi hc
      refine ⟨Span.chunk a.blockSize x (c - o), ?_, rfl⟩
      rw [if_pos hic, Span.run_chunk (by
        rw [hx]
        exact Span.succ_mul_le a.blockSize (by omega))]
  refine ⟨Span.overwrite x ((i - o) * a.blockSize)
    (Block.mulVec a.blockSize (a.diagonalBlock i) new), ?_, Span.size_overwrite _ _ _,
    fun k => ?_⟩
  · rw [View.solveUpperRow]
    show (Span.run x ((i - o) * a.blockSize) a.blockSize >>= fun _ => _) = _
    rw [Span.run_chunk hown, ok_bind, has.view_rightOfDiagonal valid hi, ok_bind]
    simp only [show a.view.blockSize = a.blockSize from rfl]
    rw [hnew, ok_bind, has.view_diagonalBlock valid hi]
    rfl
  · rw [Block.part_overwrite (Block.size_mulVec _ _ _) hown, Block.toVec_mulVec, hvec,
      sum_rightEntries valid has hi fun j => Block.part a.blockSize x (j - o),
      has.coeff_diagonal valid hi]
    rfl

end Rows

/-! ## All rows -/

section Factors

variable [Field T]

/-- A sum that is cut at one term. -/
lemma sum_Ico_split {M : Type} [AddCommMonoid M] {o i n : ℕ} (low : o ≤ i) (high : i < n)
    (g : ℕ → M) : ∑ j ∈ Finset.Ico o n, g j =
      ∑ j ∈ Finset.Ico o i, g j + (g i + ∑ j ∈ Finset.Ico (i + 1) n, g j) := by
  rw [← Finset.sum_eq_sum_Ico_succ_bot high, Finset.sum_Ico_consecutive g low (Nat.le_of_lt high)]

/-- Row `i` of the lower factor times a vector. -/
lemma sum_lower_mulVec {o i n : ℕ} (low : o ≤ i) (high : i < n) (w : ℕ → Fin b → T) :
    ∑ j ∈ Finset.Ico o n, (a.lower b i j).mulVec (w j) =
      w i + ∑ j ∈ Finset.Ico o i, (a.coeff b i j).mulVec (w j) := by
  have hbelow : ∀ j ∈ Finset.Ico o i, (a.lower b i j).mulVec (w j) =
      (a.coeff b i j).mulVec (w j) := by
    intro j hj
    rw [lower_of_lt (Finset.mem_Ico.mp hj).2]
  have hbeyond : ∀ j ∈ Finset.Ico (i + 1) n, (a.lower b i j).mulVec (w j) = 0 := by
    intro j hj
    rw [lower_of_gt (Finset.mem_Ico.mp hj).1, Matrix.zero_mulVec]
  rw [sum_Ico_split low high, Finset.sum_congr rfl hbelow, Finset.sum_eq_zero hbeyond, add_zero,
    lower_self, Matrix.one_mulVec, add_comm]

/-- Row `i` of the upper factor times a vector. -/
lemma sum_upper_mulVec {o i n : ℕ} (low : o ≤ i) (high : i < n) (w : ℕ → Fin b → T) :
    ∑ j ∈ Finset.Ico o n, (a.upper b i j).mulVec (w j) =
      (a.upper b i i).mulVec (w i) +
        ∑ j ∈ Finset.Ico (i + 1) n, (a.coeff b i j).mulVec (w j) := by
  have hbelow : ∀ j ∈ Finset.Ico o i, (a.upper b i j).mulVec (w j) = 0 := by
    intro j hj
    rw [upper_of_gt (Finset.mem_Ico.mp hj).2, Matrix.zero_mulVec]
  have hbeyond : ∀ j ∈ Finset.Ico (i + 1) n, (a.upper b i j).mulVec (w j) =
      (a.coeff b i j).mulVec (w j) := by
    intro j hj
    rw [upper_of_lt (Finset.mem_Ico.mp hj).1]
  rw [sum_Ico_split low high, Finset.sum_eq_zero hbelow, Finset.sum_congr rfl hbeyond, zero_add]

/-- The rows `o, …, i - 1` of the lower system are solved, and the others hold the right-hand side.
-/
structure SolvedBelow (a : BlockMatrix T) (o : ℕ) (x : Array T) (i : ℕ) (w : Array T) : Prop where
  size : w.size = x.size
  solved : ∀ r, o ≤ r → r < i → Block.part a.blockSize w (r - o) + ∑ j ∈ Finset.Ico o r,
    (a.coeff a.blockSize r j).mulVec (Block.part a.blockSize w (j - o)) =
      Block.part a.blockSize x (r - o)
  rest : ∀ k, i - o ≤ k → Block.part a.blockSize w k = Block.part a.blockSize x k

/-- The first row is solved, as the lower factor has a unit diagonal. -/
lemma SolvedBelow.start (a : BlockMatrix T) (o : ℕ) (x : Array T) :
    SolvedBelow a o x (o + 1) x where
  size := rfl
  solved := by
    intro r low high
    rw [show r = o by omega, Finset.Ico_self, Finset.sum_empty, add_zero]
  rest := fun _ _ => rfl

section Lower

variable (valid : a.Valid) (has : a.HasDiagonal)

include valid has

/-- One more row of the lower system. -/
lemma SolvedBelow.step {o i s : ℕ} {x w : Array T} (h : SolvedBelow a o x i w) (hoi : o ≤ i)
    (hi : i < a.rowCount) (first : FirstFrom a o i s)
    (hx : x.size = (a.rowCount - o) * a.blockSize) :
    ∃ w', a.view.solveLowerRow o s w i = .ok w' ∧ SolvedBelow a o x (i + 1) w' := by
  obtain ⟨w', hrun, hsize, hparts⟩ :=
    solveLowerRow_spec valid has hoi hi first (h.size.trans hx)
  have hold : ∀ k, k ≠ i - o → Block.part a.blockSize w' k = Block.part a.blockSize w k := by
    intro k hk
    rw [hparts, if_neg hk]
  refine ⟨w', hrun, hsize.trans h.size, fun r low high => ?_, fun k hk => ?_⟩
  · -- row `r` only meets blocks before row `i`
    have hsum : ∑ j ∈ Finset.Ico o r,
        (a.coeff a.blockSize r j).mulVec (Block.part a.blockSize w' (j - o)) =
        ∑ j ∈ Finset.Ico o r,
          (a.coeff a.blockSize r j).mulVec (Block.part a.blockSize w (j - o)) := by
      refine Finset.sum_congr rfl fun j hj => ?_
      rw [Finset.mem_Ico] at hj
      rw [hold (j - o) (by omega)]
    rw [hsum]
    by_cases hr : r = i
    · rw [hr, hparts, if_pos rfl, sub_add_cancel]
      exact h.rest _ (Nat.le_refl _)
    · rw [hold (r - o) (by omega)]
      exact h.solved r low (by omega)
  · rw [hold k (by omega)]
    exact h.rest k (by omega)

/-- Solving the rows behind `o` one after the other, wherever the entries of a row are read from. -/
lemma solveLowerRows_spec {o : ℕ} {read : ℕ → Except Error ℕ}
    (reads : ∀ i, o ≤ i → i < a.rowCount → ∃ s, read i = .ok s ∧ FirstFrom a o i s)
    {x : Array T} (hx : x.size = (a.rowCount - o) * a.blockSize) :
    ∃ w, Walk.up (fun y i => do a.view.solveLowerRow o (← read i) y i)
        (a.rowCount - (o + 1)) (o + 1) x = .ok w ∧ w.size = x.size ∧
      ∀ i, o ≤ i → i < a.rowCount →
        ∑ j ∈ Finset.Ico o a.rowCount, (a.lower a.blockSize i j).mulVec
          (Block.part a.blockSize w (j - o)) = Block.part a.blockSize x (i - o) := by
  have hwalk : ∃ w, Walk.up (fun y i => do a.view.solveLowerRow o (← read i) y i)
        (a.rowCount - (o + 1)) (o + 1) x = .ok w ∧
      SolvedBelow a o x (o + 1 + (a.rowCount - (o + 1))) w := by
    refine Walk.up_spec (SolvedBelow.start a o x) fun i w low high h => ?_
    obtain ⟨s, hread, hfirst⟩ := reads i (by omega) (by omega)
    obtain ⟨w', hrun, hw'⟩ := h.step valid has (by omega) (by omega) hfirst hx
    exact ⟨w', by rw [hread, ok_bind, hrun], hw'⟩
  obtain ⟨w, hrun, hw⟩ := hwalk
  refine ⟨w, hrun, hw.size, fun i low high => ?_⟩
  rw [sum_lower_mulVec low high fun j => Block.part a.blockSize w (j - o)]
  exact hw.solved i low (by omega)

/-- `w = L⁻¹ · x`. -/
lemma solveLower_spec {x : Array T} (hx : x.size = a.rowCount * a.blockSize) :
    ∃ w, a.view.solveLower x = .ok w ∧ w.size = x.size ∧ ∀ i < a.rowCount,
      ∑ j ∈ Finset.range a.rowCount, (a.lower a.blockSize i j).mulVec
        (Block.part a.blockSize w j) = Block.part a.blockSize x i := by
  obtain ⟨w, hrun, hsize, hsolved⟩ := solveLowerRows_spec valid has (o := 0)
    (fun i _ hi => ⟨a.start i, valid.item_rowStart (Nat.le_of_lt hi), FirstFrom.zero has hi⟩) hx
  refine ⟨w, hrun, hsize, fun i hi => ?_⟩
  rw [Finset.range_eq_Ico]
  exact hsolved i (Nat.zero_le i) hi

/-- `w = L⁻¹ · x` for the rows from `o` on. -/
lemma solveLowerFrom_spec (o : ℕ) {x : Array T} (hx : x.size = (a.rowCount - o) * a.blockSize) :
    ∃ w, a.view.solveLowerFrom o x = .ok w ∧ w.size = x.size ∧
      ∀ i, o ≤ i → i < a.rowCount →
        ∑ j ∈ Finset.Ico o a.rowCount, (a.lower a.blockSize i j).mulVec
          (Block.part a.blockSize w (j - o)) = Block.part a.blockSize x (i - o) :=
  solveLowerRows_spec valid has (fun _ _ hi => firstFrom_spec valid has o hi) hx

end Lower

/-- The rows `i, …, last - 1` of the upper system are solved. The rows before and the given ones
behind are as they were. -/
structure SolvedFrom (a : BlockMatrix T) (o last : ℕ) (x : Array T) (i : ℕ) (z : Array T) :
    Prop where
  size : z.size = x.size
  solved : ∀ r, i ≤ r → r < last → Block.part a.blockSize z (r - o) =
    (a.coeff a.blockSize r r).mulVec (Block.part a.blockSize x (r - o) -
      ∑ j ∈ Finset.Ico (r + 1) a.rowCount,
        (a.coeff a.blockSize r j).mulVec (Block.part a.blockSize z (j - o)))
  rest : ∀ k, o ≤ k → k < i ∨ last ≤ k →
    Block.part a.blockSize z (k - o) = Block.part a.blockSize x (k - o)

lemma SolvedFrom.start (a : BlockMatrix T) (o : ℕ) {last i : ℕ} (hi : last ≤ i) (x : Array T) :
    SolvedFrom a o last x i x where
  size := rfl
  solved := fun r low high => absurd low (by omega)
  rest := fun _ _ _ => rfl

section Upper

variable (valid : a.Valid) (has : a.HasDiagonal)

include valid has

/-- One more row of the upper system. -/
lemma SolvedFrom.step {o last i : ℕ} {x z : Array T} (h : SolvedFrom a o last x (i + 1) z)
    (hoi : o ≤ i) (hlast : i < last) (hi : i < a.rowCount)
    (hx : x.size = (a.rowCount - o) * a.blockSize) :
    ∃ z', a.view.solveUpperRow o z i = .ok z' ∧ SolvedFrom a o last x i z' := by
  obtain ⟨z', hrun, hsize, hparts⟩ := solveUpperRow_spec valid has hoi hi (h.size.trans hx)
  have hold : ∀ k, o ≤ k → k ≠ i →
      Block.part a.blockSize z' (k - o) = Block.part a.blockSize z (k - o) := by
    intro k hok hk
    rw [hparts, if_neg (by omega)]
  refine ⟨z', hrun, hsize.trans h.size, fun r low high => ?_, fun k hok hk => ?_⟩
  · -- row `r` only meets blocks behind row `i`
    have hsum : ∑ j ∈ Finset.Ico (r + 1) a.rowCount,
        (a.coeff a.blockSize r j).mulVec (Block.part a.blockSize z' (j - o)) =
        ∑ j ∈ Finset.Ico (r + 1) a.rowCount,
          (a.coeff a.blockSize r j).mulVec (Block.part a.blockSize z (j - o)) := by
      refine Finset.sum_congr rfl fun j hj => ?_
      rw [Finset.mem_Ico] at hj
      rw [hold j (by omega) (by omega)]
    rw [hsum]
    by_cases hr : r = i
    · rw [hr, hparts, if_pos rfl, h.rest i hoi (Or.inl (Nat.lt_succ_self i))]
    · rw [hold r (by omega) hr]
      exact h.solved r (by omega) high
  · rw [hold k hok (by omega)]
    exact h.rest k hok (by omega)

/-- The rows `first, …, last - 1` of the upper factor, where the rows behind are given. -/
lemma solveUpperRows_spec {o first last : ℕ} (hfirst : o ≤ first) (hlast : last ≤ a.rowCount)
    (room : a.blockSize < Capacity.limit)
    (inverse : ∀ i, first ≤ i → i < last →
      a.upper a.blockSize i i * a.coeff a.blockSize i i = 1)
    {x : Array T} (hx : x.size = (a.rowCount - o) * a.blockSize) :
    ∃ z, a.view.solveUpperRows o first last x = .ok z ∧ z.size = x.size ∧
      (∀ i, first ≤ i → i < last →
        ∑ j ∈ Finset.Ico o a.rowCount, (a.upper a.blockSize i j).mulVec
          (Block.part a.blockSize z (j - o)) = Block.part a.blockSize x (i - o)) ∧
      ∀ i, o ≤ i → i < first ∨ last ≤ i →
        Block.part a.blockSize z (i - o) = Block.part a.blockSize x (i - o) := by
  have hwalk : ∃ z, Walk.down (a.view.solveUpperRow o) (last - first) first x = .ok z ∧
      SolvedFrom a o last x first z := by
    refine Walk.down_spec (SolvedFrom.start a o (by omega) x) fun i z low high h => ?_
    exact h.step valid has (by omega) (by omega) (by omega) hx
  obtain ⟨z, hrun, hz⟩ := hwalk
  refine ⟨z, ?_, hz.size, fun i low high => ?_, hz.rest⟩
  · rw [View.solveUpperRows, show a.view.blockSize = a.blockSize from rfl,
      Capacity.reserve_eq_ok_iff.mpr room, ok_bind, hrun]
  · rw [sum_upper_mulVec (hfirst.trans low) (high.trans_le hlast)
      fun j => Block.part a.blockSize z (j - o)]
    rw [hz.solved i low high, Matrix.mulVec_mulVec, inverse i low high, Matrix.one_mulVec,
      sub_add_cancel]

end Upper

end Factors

end BlockMatrix

end DomainDecomposition
