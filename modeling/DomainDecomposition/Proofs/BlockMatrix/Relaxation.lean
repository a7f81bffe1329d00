import DomainDecomposition.Proofs.BlockMatrix.Kernels
import DomainDecomposition.Proofs.BlockMatrix.TriangularSystems

/-!
# What a relaxation sweep solves

Relaxing row `i` replaces its block of the vector such that the equation `RelaxedRow` holds: the
entries off the diagonal meet the blocks as they stand, so those of rows that were relaxed earlier
are new and the others are old (`mixed`). A sweep takes every row once, so a block is final once its
row has been relaxed, and all equations hold together at the end. The argument is the same for every
order of the rows (`relaxRows_spec`, `relaxRows_only`); forward and backward sweeps are two of them.

* `factorDiagonal_spec`: the cache holds the inverses of the diagonal blocks,
* `relaxRow_spec`: one row,
* `sweeps_of_balanced`: a solution of `A · y = rhs` stays as it is,
* `sweeps_satisfy_splitting`: one sweep leaves the only solution of its splitting.
-/

namespace DomainDecomposition.BlockMatrix

open Outcome

variable {T R : Type} [Field T] {a : BlockMatrix T}

/-! ## The cache of inverted blocks -/

/-- The cache holds an inverse of every diagonal block. -/
structure Inverted (a : BlockMatrix T) : Prop where
  size : a.invertedDiagonal.size = a.rowCount * (a.blockSize * a.blockSize)
  inverse : ∀ i < a.rowCount,
    Block.toMatrix a.blockSize
      (Span.chunk (a.blockSize * a.blockSize) a.invertedDiagonal i) *
        a.coeff a.blockSize i i = 1

section Cache

variable [DecidableEq T] [Field R] [LinearOrder R] [IsStrictOrderedRing R] [Scalar T R]
variable [Magnitude R] [ExactScalar T R]

/-- The cache after the first `count` blocks have been inverted and appended. -/
structure InvertedBelow (a : BlockMatrix T) (count : ℕ) (cache : Array T) : Prop where
  size : cache.size = count * (a.blockSize * a.blockSize)
  inverse : ∀ i < count, Block.toMatrix a.blockSize
    (Span.chunk (a.blockSize * a.blockSize) cache i) *
      Block.toMatrix a.blockSize (a.diagonalBlock i) = 1

omit [IsStrictOrderedRing R] [ExactScalar T R] in
/-- An inverted block is as large as the block was. -/
lemma size_inverse {i : ℕ} {block inverse : Array T}
    (size : block.size = a.blockSize * a.blockSize)
    (run : (Block.invert (R := R) a.blockSize i).on block = (.ok (), inverse)) :
    inverse.size = a.blockSize * a.blockSize := by
  have kept : ((Block.invert (R := R) a.blockSize i).on block).2.size =
      a.blockSize * a.blockSize := Block.size_invert size
  rwa [run] at kept

/-- One more block of the cache. -/
lemma InvertedBelow.append {count : ℕ} {cache inverse : Array T} (h : InvertedBelow a count cache)
    (size : (a.diagonalBlock count).size = a.blockSize * a.blockSize)
    (run : (Block.invert (R := R) a.blockSize count).on (a.diagonalBlock count) =
      (.ok (), inverse)) :
    InvertedBelow a (count + 1) (cache ++ inverse) where
  size := by
    rw [Array.size_append, h.size, size_inverse size run, Nat.succ_mul]
  inverse := by
    intro i hi
    rw [Span.chunk_append h.size]
    split
    · exact h.inverse i ‹_›
    · rw [show i = count by omega, Nat.sub_self, Span.chunk_zero (size_inverse size run)]
      exact Block.toMatrix_invert_mul size run

omit [IsStrictOrderedRing R] [ExactScalar T R] in
/-- The blocks of the diagonal are inverted in the order of the rows. -/
lemma invertDiagonal_eq_up (has : a.HasDiagonal) :
    a.invertDiagonal (R := R) a.diagonal.toList = Walk.up (fun cache i => do
      let (result, inverse) :=
        (Block.invert a.blockSize i).on (← a.view.block (a.diagonalOf i))
      result
      return cache ++ inverse) a.rowCount 0 #[] := by
  have places : a.diagonal.toList.zipIdx =
      (List.range' 0 a.rowCount).map fun i => (a.diagonalOf i, i) := by
    apply List.ext_getElem
    · simp [has.size_diagonal]
    · intro k hk _
      simp only [List.length_zipIdx, Array.length_toList] at hk
      simp [diagonalOf, Array.getD_eq_getD_getElem?, hk]
  rw [Walk.up_eq_foldlM, invertDiagonal, places, List.foldlM_map]

/-- Inverting the diagonal blocks fills the cache with their inverses. -/
lemma invertedBelow_of_invertDiagonal (valid : a.Valid) (has : a.HasDiagonal) {cache : Array T}
    (run : a.invertDiagonal (R := R) a.diagonal.toList = .ok cache) :
    InvertedBelow a a.rowCount cache := by
  rw [invertDiagonal_eq_up has] at run
  have first : InvertedBelow a 0 #[] :=
    ⟨(Nat.zero_mul _).symm, fun i hi => absurd hi (Nat.not_lt_zero i)⟩
  rw [← Nat.zero_add a.rowCount]
  refine Walk.up_keeps run first fun i cache cache' _ hi before step => ?_
  have hplace := has.diagonalOf_lt valid (i := i) (by omega)
  rw [valid.view_block hplace, ok_bind] at step
  obtain ⟨⟨⟩, success, appended⟩ := bind_eq_ok.mp step
  rw [← Except.ok.inj appended]
  exact before.append (valid.size_storedBlock hplace) (Prod.ext success rfl)

/-- A matrix whose diagonal has been inverted is the same matrix, with the inverses in its cache. -/
lemma factorDiagonal_spec {a₀ : BlockMatrix T} (valid : a₀.Valid)
    (run : (factorDiagonal (R := R)).on a₀ = (.ok (), a)) :
    a = { a₀ with invertedDiagonal := a.invertedDiagonal } ∧ a.Valid ∧ a.HasDiagonal ∧
      a.Inverted := by
  unfold factorDiagonal at run
  rw [Update.on_bind_of_ok (Update.on_get a₀)] at run
  obtain ⟨diagonal, t, required, run⟩ := Update.on_bind_eq_ok run
  rw [Update.on_monadLift] at required
  obtain ⟨found, rfl⟩ := Prod.ext_iff.mp required
  have has := valid.hasDiagonal_of_requireDiagonal found
  obtain ⟨-, -, rfl⟩ := requireDiagonal_eq_ok.mp found
  rw [Update.on_replace] at run
  cases inverted : a₀.invertDiagonal (R := R) a₀.diagonal.toList with
  | error e => simp [inverted] at run
  | ok cache =>
    rw [inverted] at run
    obtain rfl : { a₀ with invertedDiagonal := cache } = a := congrArg Prod.snd run
    have below := invertedBelow_of_invertDiagonal valid has inverted
    have has' : { a₀ with invertedDiagonal := cache }.HasDiagonal :=
      ⟨has.square, has.size_diagonal, has.start_le, has.lt_stop, has.column⟩
    refine ⟨rfl, valid.withCache cache, has', below.size, fun i hi => ?_⟩
    rw [has'.coeff_diagonal (valid.withCache cache) hi]
    exact below.inverse i hi

end Cache

/-! ## One row -/

/-- Row `i` after its relaxation: `new` is the own block, `old` was there before, and the row has
met the blocks `left` before the diagonal and `right` behind it. -/
def RelaxedRow (a : BlockMatrix T) (omega : T) (rhs old left right new : ℕ → Fin a.blockSize → T)
    (i : ℕ) : Prop :=
  (a.coeff a.blockSize i i).mulVec (new i) =
    (1 - omega) • (a.coeff a.blockSize i i).mulVec (old i) +
      omega • (rhs i - ∑ j ∈ Finset.range i, (a.coeff a.blockSize i j).mulVec (left j) -
        ∑ j ∈ Finset.Ico (i + 1) a.rowCount, (a.coeff a.blockSize i j).mulVec (right j))

/-- Only the own blocks, those before the diagonal on the left and those behind it on the right
matter. -/
lemma RelaxedRow.congr {omega : T} {rhs old left right new : ℕ → Fin a.blockSize → T} {i : ℕ}
    (h : a.RelaxedRow omega rhs old left right new i)
    {old' left' right' new' : ℕ → Fin a.blockSize → T}
    (hold : old i = old' i) (hleft : ∀ j < i, left j = left' j)
    (hright : ∀ j, i < j → j < a.rowCount → right j = right' j) (hnew : new i = new' i) :
    a.RelaxedRow omega rhs old' left' right' new' i := by
  have before : ∑ j ∈ Finset.range i, (a.coeff a.blockSize i j).mulVec (left' j) =
      ∑ j ∈ Finset.range i, (a.coeff a.blockSize i j).mulVec (left j) := by
    refine Finset.sum_congr rfl fun j hj => ?_
    rw [hleft j (Finset.mem_range.mp hj)]
  have behind : ∑ j ∈ Finset.Ico (i + 1) a.rowCount, (a.coeff a.blockSize i j).mulVec (right' j) =
      ∑ j ∈ Finset.Ico (i + 1) a.rowCount, (a.coeff a.blockSize i j).mulVec (right j) := by
    refine Finset.sum_congr rfl fun j hj => ?_
    rw [hright j (Finset.mem_Ico.mp hj).1 (Finset.mem_Ico.mp hj).2]
  rw [RelaxedRow, ← hold, ← hnew, before, behind]
  exact h

/-- Entries off the diagonal are not skipped. -/
lemma foldlM_skip_eq (y : Array T) (b : ℕ) {i : ℕ} {row : Entries T} (apart : i ∉ row.columns)
    (sum : Array T) :
    row.foldlM (fun sum (j, block) =>
      if j = i then (return sum : Except Error (Array T))
      else do return Block.subMulVec b block (← Span.run y (j * b) b) sum) sum =
      View.subtractRow b (fun j => Span.run y (j * b) b) sum row := by
  induction row generalizing sum with
  | nil => rfl
  | cons e row ih =>
    obtain ⟨j, block⟩ := e
    rw [Entries.columns_cons, List.mem_cons, not_or] at apart
    rw [List.foldlM_cons, View.subtractRow, List.foldlM_cons]
    simp only [if_neg (Ne.symm apart.1)]
    exact bind_congr fun next => ih apart.2 next

section Rows

variable (valid : a.Valid) (has : a.HasDiagonal) (inverted : a.Inverted)

include valid has

/-- The residual of a row: its right-hand side without what the entries off the diagonal add. -/
lemma residual_spec {i : ℕ} (hi : i < a.rowCount) {y right : Array T}
    (hy : y.size = a.rowCount * a.blockSize) (hright : right.size = a.blockSize) :
    ∃ s, (a.rowEntries i).foldlM (fun sum (j, block) =>
        if j = i then (return sum : Except Error (Array T))
        else do
          return Block.subMulVec a.blockSize block
            (← Span.run y (j * a.blockSize) a.blockSize) sum) right = .ok s ∧
      s.size = a.blockSize ∧ Block.toVec a.blockSize s = Block.toVec a.blockSize right -
        ∑ j ∈ Finset.range i, (a.coeff a.blockSize i j).mulVec (Block.part a.blockSize y j) -
        ∑ j ∈ Finset.Ico (i + 1) a.rowCount,
          (a.coeff a.blockSize i j).mulVec (Block.part a.blockSize y j) := by
  obtain ⟨-, -, hleft, hbehind⟩ := has.ascending_pieces valid hi
  have reads : ∀ c < a.rowCount, ∃ v, Span.run y (c * a.blockSize) a.blockSize = .ok v ∧
      Block.toVec a.blockSize v = Block.part a.blockSize y c := by
    intro c hc
    exact ⟨_, Span.run_chunk (hy ▸ Span.succ_mul_le a.blockSize hc), rfl⟩
  obtain ⟨s, run, hs, value⟩ := View.subtractRow_spec
    (fun j => Span.run y (j * a.blockSize) a.blockSize) (Block.part a.blockSize y)
    (a.leftEntries i) hright fun c hc => reads c ((hleft c hc).trans hi)
  obtain ⟨s', run', hs', value'⟩ := View.subtractRow_spec
    (fun j => Span.run y (j * a.blockSize) a.blockSize) (Block.part a.blockSize y)
    (a.rightEntries i) hs fun c hc => reads c (rightEntries_columns valid has hi hc).2
  have leftSum : ((a.leftEntries i).map fun e =>
      (Block.toMatrix a.blockSize e.2).mulVec (Block.part a.blockSize y e.1)).sum =
      ∑ j ∈ Finset.range i, (a.coeff a.blockSize i j).mulVec (Block.part a.blockSize y j) := by
    rw [Finset.range_eq_Ico]
    exact sum_tailEntries valid has hi (.zero has hi) _
  refine ⟨s', ?_, hs', ?_⟩
  · rw [has.rowEntries_eq hi, List.foldlM_append, foldlM_skip_eq y a.blockSize
      fun h => Nat.lt_irrefl i (hleft i h), run, ok_bind, List.foldlM_cons]
    simp only [if_pos, pure_eq, ok_bind]
    rw [← run']
    exact foldlM_skip_eq y a.blockSize (fun h => Nat.lt_irrefl i (hbehind i h)) s
  · rw [value', value, leftSum, sum_rightEntries valid has hi]

include inverted

/-- Relaxing row `i` solves the equation of the row for its own block and changes no other. -/
lemma relaxRow_spec (omega : T) {rhs y : Array T} (hrhs : rhs.size = a.rowCount * a.blockSize)
    (hy : y.size = a.rowCount * a.blockSize) {i : ℕ} (hi : i < a.rowCount) :
    ∃ z, a.relaxRow omega rhs y i = .ok z ∧ z.size = a.rowCount * a.blockSize ∧
      (∀ k, k ≠ i → Block.part a.blockSize z k = Block.part a.blockSize y k) ∧
      a.RelaxedRow omega (Block.part a.blockSize rhs) (Block.part a.blockSize y)
        (Block.part a.blockSize y) (Block.part a.blockSize y) (Block.part a.blockSize z) i := by
  have hown := Span.succ_mul_le a.blockSize hi
  have hcache : (i + 1) * (a.blockSize * a.blockSize) ≤ a.invertedDiagonal.size :=
    inverted.size ▸ Span.succ_mul_le _ hi
  obtain ⟨s, fold, hs, value⟩ := residual_spec valid has hi hy
    (Span.size_chunk (hrhs ▸ hown : (i + 1) * a.blockSize ≤ rhs.size))
  have hold : (Span.chunk a.blockSize y i).size = a.blockSize := Span.size_chunk (hy ▸ hown)
  have hinverse := Block.size_mulVec a.blockSize
    (Span.chunk (a.blockSize * a.blockSize) a.invertedDiagonal i) s
  set new := Array.zipWith (fun o u => (1 - omega) * o + omega * u) (Span.chunk a.blockSize y i)
    (Block.mulVec a.blockSize (Span.chunk (a.blockSize * a.blockSize) a.invertedDiagonal i) s)
    with hnew
  have hsize : new.size = a.blockSize := by
    rw [hnew, Array.size_zipWith, hold, hinverse, Nat.min_self]
  have hvec : Block.toVec a.blockSize new = (1 - omega) • Block.part a.blockSize y i +
      omega • (Block.toMatrix a.blockSize
        (Span.chunk (a.blockSize * a.blockSize) a.invertedDiagonal i)).mulVec
          (Block.toVec a.blockSize s) := by
    funext l
    rw [hnew, Block.toVec_zipWith _ hold hinverse, Block.toVec_mulVec]
    rfl
  have hparts := Block.part_overwrite hsize (hy ▸ hown : (i + 1) * a.blockSize ≤ y.size)
  refine ⟨Span.overwrite y (i * a.blockSize) new, ?_, (Span.size_overwrite ..).trans hy,
    fun k hk => by rw [hparts, if_neg hk], ?_⟩
  · rw [relaxRow, Span.run_chunk (hrhs ▸ hown), ok_bind, valid.view_row hi, ok_bind, fold, ok_bind,
      Span.run_chunk hcache, ok_bind, Span.run_chunk (hy ▸ hown), ok_bind]
    rfl
  · have own := mul_eq_one_comm.mp (inverted.inverse i hi)
    rw [RelaxedRow, hparts, if_pos rfl, hvec, Matrix.mulVec_add, Matrix.mulVec_smul,
      Matrix.mulVec_smul, Matrix.mulVec_mulVec, own, Matrix.one_mulVec, value]
    rfl

end Rows

/-! ## Rows in an order -/

/-- What row `i` meets in an order of the rows: the new blocks of the rows that come earlier and the
old ones of the others. -/
def mixed {b : ℕ} (earlier : ℕ → ℕ → Prop) [DecidableRel earlier] (old new : ℕ → Fin b → T)
    (i : ℕ) : ℕ → Fin b → T :=
  fun j => if earlier j i then new j else old j

/-- The rows of the list have been relaxed one after the other. -/
def RelaxedRows (a : BlockMatrix T) (earlier : ℕ → ℕ → Prop) [DecidableRel earlier] (omega : T)
    (order : List ℕ) (rhs old new : ℕ → Fin a.blockSize → T) : Prop :=
  ∀ i ∈ order, a.RelaxedRow omega rhs old (mixed earlier old new i) (mixed earlier old new i) new i

section Orders

variable {earlier : ℕ → ℕ → Prop} [DecidableRel earlier]
variable (asymm : ∀ i j, earlier i j → ¬earlier j i)

include asymm

/-- Two ways to relax the same rows agree in a row once they agree in the rows before it. -/
lemma RelaxedRows.unique (units : ∀ i < a.rowCount, IsUnit (a.coeff a.blockSize i i)) {omega : T}
    {rhs old v w : ℕ → Fin a.blockSize → T} {order : List ℕ} (ordered : order.Pairwise earlier)
    (inside : ∀ i ∈ order, i < a.rowCount) (known : ∀ j < a.rowCount, j ∉ order → v j = w j)
    (hv : a.RelaxedRows earlier omega order rhs old v)
    (hw : a.RelaxedRows earlier omega order rhs old w) : ∀ i ∈ order, v i = w i := by
  induction order with
  | nil => exact fun _ member => absurd member List.not_mem_nil
  | cons i order ih =>
    obtain ⟨first, rest⟩ := List.pairwise_cons.mp ordered
    obtain ⟨hi, inside⟩ := List.forall_mem_cons.mp inside
    obtain ⟨vRow, hv⟩ := List.forall_mem_cons.mp hv
    obtain ⟨wRow, hw⟩ := List.forall_mem_cons.mp hw
    -- what row `i` meets is known, as no later row is earlier
    have met : ∀ j < a.rowCount, mixed earlier old v i j = mixed earlier old w i j := by
      intro j hj
      rw [mixed, mixed]
      split_ifs with before
      · refine known j hj fun member => ?_
        rcases List.mem_cons.mp member with rfl | member
        · exact asymm j j before before
        · exact asymm j i before (first j member)
      · rfl
    have own : v i = w i := by
      have same := vRow.congr rfl (fun j hj => met j (hj.trans hi)) (fun j _ hj => met j hj) rfl
      have det := (Matrix.isUnit_iff_isUnit_det _).mp (units i hi)
      have cancel := congrArg (a.coeff a.blockSize i i)⁻¹.mulVec (same.trans wRow.symm)
      rwa [Matrix.mulVec_mulVec, Matrix.mulVec_mulVec, Matrix.nonsing_inv_mul _ det,
        Matrix.one_mulVec, Matrix.one_mulVec] at cancel
    refine List.forall_mem_cons.mpr ⟨own, ih rest inside (fun j hj absent => ?_) hv hw⟩
    by_cases hji : j = i
    · rw [hji, own]
    · exact known j hj (by rw [List.mem_cons, not_or]; exact ⟨hji, absent⟩)

variable (valid : a.Valid) (has : a.HasDiagonal) (inverted : a.Inverted)

include valid has inverted

/-- Relaxing rows one after the other: every row of the list is relaxed once, and keeps its block
from then on. -/
lemma relaxRows_spec (omega : T) {rhs : Array T} (hrhs : rhs.size = a.rowCount * a.blockSize)
    {order : List ℕ} (ordered : order.Pairwise earlier) (inside : ∀ i ∈ order, i < a.rowCount)
    {y : Array T} (hy : y.size = a.rowCount * a.blockSize) :
    ∃ z, order.foldlM (a.relaxRow omega rhs) y = .ok z ∧ z.size = a.rowCount * a.blockSize ∧
      (∀ k, k ∉ order → Block.part a.blockSize z k = Block.part a.blockSize y k) ∧
      a.RelaxedRows earlier omega order (Block.part a.blockSize rhs) (Block.part a.blockSize y)
        (Block.part a.blockSize z) := by
  induction order generalizing y with
  | nil => exact ⟨y, rfl, hy, fun _ _ => rfl, fun _ member => absurd member List.not_mem_nil⟩
  | cons i order ih =>
    obtain ⟨first, rest⟩ := List.pairwise_cons.mp ordered
    obtain ⟨hi, inside⟩ := List.forall_mem_cons.mp inside
    obtain ⟨t, run, ht, others, relaxed⟩ := relaxRow_spec valid has inverted omega hrhs hy hi
    obtain ⟨z, runs, hz, kept, later⟩ := ih rest inside ht
    have absent : i ∉ order := fun member => asymm i i (first i member) (first i member)
    refine ⟨z, by rw [List.foldlM_cons, run, ok_bind, runs], hz, fun k hk => ?_,
      List.forall_mem_cons.mpr ⟨?_, fun r member => ?_⟩⟩
    · rw [List.mem_cons, not_or] at hk
      rw [kept k hk.2, others k hk.1]
    · -- no block that row `i` meets has been changed before
      have old : ∀ j, Block.part a.blockSize y j =
          mixed earlier (Block.part a.blockSize y) (Block.part a.blockSize z) i j := by
        intro j
        rw [mixed]
        split_ifs with before
        · have hji : j ≠ i := fun e => asymm i i (e ▸ before) (e ▸ before)
          have hj : j ∉ order := fun member => asymm j i before (first j member)
          rw [kept j hj, others j hji]
        · rfl
      exact relaxed.congr rfl (fun j _ => old j) (fun j _ _ => old j) (kept i absent).symm
    · have hri : r ≠ i := fun e => absent (e ▸ member)
      -- row `r` comes after row `i`, whose block is the new one by then
      have met : ∀ j, mixed earlier (Block.part a.blockSize t) (Block.part a.blockSize z) r j =
          mixed earlier (Block.part a.blockSize y) (Block.part a.blockSize z) r j := by
        intro j
        rw [mixed, mixed]
        split_ifs with before
        · rfl
        · exact others j fun e => before (e ▸ first r member)
      exact (later r member).congr (others r hri) (fun j _ => met j) (fun j _ _ => met j) rfl

/-- Where the order has all rows, its equations have one solution, and this is what remains. -/
lemma relaxRows_only (omega : T) {rhs : Array T} (hrhs : rhs.size = a.rowCount * a.blockSize)
    {order : List ℕ} (ordered : order.Pairwise earlier) (all : ∀ i, i ∈ order ↔ i < a.rowCount)
    {y : Array T} (hy : y.size = a.rowCount * a.blockSize) :
    ∃ z, order.foldlM (a.relaxRow omega rhs) y = .ok z ∧
      OnlySolution (a.rowCount * a.blockSize) (fun z => a.RelaxedRows earlier omega order
        (Block.part a.blockSize rhs) (Block.part a.blockSize y) (Block.part a.blockSize z)) z := by
  obtain ⟨z, run, hz, -, relaxed⟩ :=
    relaxRows_spec asymm valid has inverted omega hrhs ordered (fun i => (all i).mp) hy
  have units : ∀ i < a.rowCount, IsUnit (a.coeff a.blockSize i i) := by
    intro i hi
    exact IsUnit.of_mul_eq_one _ (mul_eq_one_comm.mp (inverted.inverse i hi))
  refine ⟨z, run, hz, relaxed, fun w hw other => Block.eq_of_part_eq hw hz fun j hj => ?_⟩
  refine RelaxedRows.unique asymm units ordered (fun i => (all i).mp) (fun k hk absent => ?_) other
    relaxed j ((all j).mpr hj)
  exact absurd ((all k).mpr hk) absent

end Orders

/-! ## Sweeps -/

/-- The equations of a sweep that starts at `old` and ends at `new`. In row `i`,
`A i i · new i = (1 - omega) · A i i · old i + omega · (rhs i - before - behind)`
where `before` is `Σ A i j · left j` over the columns before the diagonal and `behind` is
`Σ A i j · right j` over those behind it. A forward sweep meets the new blocks on the left and the
old ones on the right, a backward sweep the other way round. -/
def SweepSystem (a : BlockMatrix T) (omega : T) (rhs old left right new : ℕ → Fin a.blockSize → T) :
    Prop :=
  ∀ i < a.rowCount, a.RelaxedRow omega rhs old left right new i

/-- `A · y = rhs`. -/
def Balanced (a : BlockMatrix T) (y rhs : ℕ → Fin a.blockSize → T) : Prop :=
  ∀ i < a.rowCount, ∑ j ∈ Finset.range a.rowCount, (a.coeff a.blockSize i j).mulVec (y j) = rhs i

/-- Relaxing the rows from the first to the last. -/
lemma relaxedRows_range_iff {omega : T} {rhs old new : ℕ → Fin a.blockSize → T} :
    a.RelaxedRows (· < ·) omega (List.range a.rowCount) rhs old new ↔
      a.SweepSystem omega rhs old new old new := by
  constructor
  · intro h i hi
    refine (h i (List.mem_range.mpr hi)).congr rfl (fun j hj => if_pos hj) (fun j hj _ => ?_) rfl
    exact if_neg (Nat.not_lt.mpr (Nat.le_of_lt hj))
  · intro h i member
    refine (h i (List.mem_range.mp member)).congr rfl (fun j hj => (if_pos hj).symm)
      (fun j hj _ => ?_) rfl
    exact (if_neg (Nat.not_lt.mpr (Nat.le_of_lt hj))).symm

/-- Relaxing the rows from the last to the first. -/
lemma relaxedRows_reverse_iff {omega : T} {rhs old new : ℕ → Fin a.blockSize → T} :
    a.RelaxedRows (· > ·) omega (List.range a.rowCount).reverse rhs old new ↔
      a.SweepSystem omega rhs old old new new := by
  constructor
  · intro h i hi
    refine (h i (List.mem_reverse.mpr (List.mem_range.mpr hi))).congr rfl (fun j hj => ?_)
      (fun j hj _ => if_pos hj) rfl
    exact if_neg (Nat.not_lt.mpr (Nat.le_of_lt hj))
  · intro h i member
    refine (h i (List.mem_range.mp (List.mem_reverse.mp member))).congr rfl (fun j hj => ?_)
      (fun j hj _ => (if_pos hj).symm) rfl
    exact (if_neg (Nat.not_lt.mpr (Nat.le_of_lt hj))).symm

/-- The off-diagonal part of a balanced row. -/
lemma sum_range_split (i : ℕ) (hi : i < a.rowCount) (y : ℕ → Fin a.blockSize → T) :
    ∑ j ∈ Finset.range a.rowCount, (a.coeff a.blockSize i j).mulVec (y j) =
      ∑ j ∈ Finset.range i, (a.coeff a.blockSize i j).mulVec (y j) +
        ((a.coeff a.blockSize i i).mulVec (y i) +
          ∑ j ∈ Finset.Ico (i + 1) a.rowCount, (a.coeff a.blockSize i j).mulVec (y j)) := by
  rw [Finset.range_eq_Ico, Finset.range_eq_Ico]
  exact sum_Ico_split (Nat.zero_le i) hi _

/-- A row that is balanced stays as it is, and only such a row does, unless it is not relaxed at
all. -/
lemma relaxedRow_self_iff {omega : T} {rhs y : ℕ → Fin a.blockSize → T} {i : ℕ}
    (hi : i < a.rowCount) :
    a.RelaxedRow omega rhs y y y y i ↔ omega = 0 ∨
      ∑ j ∈ Finset.range a.rowCount, (a.coeff a.blockSize i j).mulVec (y j) = rhs i := by
  rw [RelaxedRow, sum_range_split i hi]
  set before := ∑ j ∈ Finset.range i, (a.coeff a.blockSize i j).mulVec (y j)
  set own := (a.coeff a.blockSize i i).mulVec (y i)
  set behind := ∑ j ∈ Finset.Ico (i + 1) a.rowCount, (a.coeff a.blockSize i j).mulVec (y j)
  have change : (1 - omega) • own + omega • (rhs i - before - behind) =
      own + omega • (rhs i - (before + (own + behind))) := by
    rw [sub_smul, one_smul]
    simp only [smul_sub, smul_add]
    abel
  rw [change, eq_comm, add_eq_left, smul_eq_zero, sub_eq_zero, eq_comm (a := rhs i)]

section Sweeps

variable (valid : a.Valid) (has : a.HasDiagonal) (inverted : a.Inverted)

include valid has inverted

/-- A balanced vector is what every sweep leaves unchanged. -/
lemma foldlM_relaxRow_of_balanced (omega : T) {rhs y : Array T}
    (hrhs : rhs.size = a.rowCount * a.blockSize) (hy : y.size = a.rowCount * a.blockSize)
    (balanced : a.Balanced (Block.part a.blockSize y) (Block.part a.blockSize rhs))
    {order : List ℕ} (inside : ∀ i ∈ order, i < a.rowCount) :
    order.foldlM (a.relaxRow omega rhs) y = .ok y := by
  induction order with
  | nil => rfl
  | cons i order ih =>
    obtain ⟨hi, inside⟩ := List.forall_mem_cons.mp inside
    obtain ⟨z, run, hz, others, relaxed⟩ := relaxRow_spec valid has inverted omega hrhs hy hi
    have still : a.RelaxedRow omega _ _ _ _ _ i :=
      (relaxedRow_self_iff hi).mpr (.inr (balanced i hi))
    have cancel := congrArg (Block.toMatrix a.blockSize (Span.chunk (a.blockSize * a.blockSize)
      a.invertedDiagonal i)).mulVec (relaxed.trans still.symm)
    rw [Matrix.mulVec_mulVec, Matrix.mulVec_mulVec, inverted.inverse i hi, Matrix.one_mulVec,
      Matrix.one_mulVec] at cancel
    have same : z = y := by
      refine Block.eq_of_part_eq hz hy fun j _ => ?_
      by_cases hj : j = i
      · rw [hj, cancel]
      · exact others j hj
    rw [List.foldlM_cons, run, ok_bind, same]
    exact ih inside

/-- Any number of sweeps in any order leaves a balanced vector unchanged. -/
lemma sweeps_of_balanced (omega : T) {rhs y : Array T}
    (hrhs : rhs.size = a.rowCount * a.blockSize) (hy : y.size = a.rowCount * a.blockSize)
    (balanced : a.Balanced (Block.part a.blockSize y) (Block.part a.blockSize rhs))
    {order : List ℕ} (inside : ∀ i ∈ order, i < a.rowCount) (iterations : ℕ) :
    a.sweeps omega order rhs iterations y = .ok y := by
  induction iterations with
  | zero => rfl
  | succ iterations ih =>
    rw [sweeps, foldlM_relaxRow_of_balanced valid has inverted omega hrhs hy balanced inside,
      ok_bind, ih, ite_self]

/-- A forward sweep leaves the only solution of its equations. -/
lemma forward_only (omega : T) {rhs y : Array T} (hrhs : rhs.size = a.rowCount * a.blockSize)
    (hy : y.size = a.rowCount * a.blockSize) :
    ∃ z, (List.range a.rowCount).foldlM (a.relaxRow omega rhs) y = .ok z ∧
      OnlySolution (a.rowCount * a.blockSize) (fun z => a.SweepSystem omega
        (Block.part a.blockSize rhs) (Block.part a.blockSize y) (Block.part a.blockSize z)
        (Block.part a.blockSize y) (Block.part a.blockSize z)) z := by
  have asymm : ∀ i j : ℕ, i < j → ¬j < i := fun _ _ => Nat.lt_asymm
  obtain ⟨z, run, only⟩ := relaxRows_only asymm valid has inverted omega hrhs
    List.pairwise_lt_range (fun _ => List.mem_range) hy
  simp only [relaxedRows_range_iff] at only
  exact ⟨z, run, only⟩

/-- A backward sweep leaves the only solution of the mirrored equations. -/
lemma backward_only (omega : T) {rhs y : Array T} (hrhs : rhs.size = a.rowCount * a.blockSize)
    (hy : y.size = a.rowCount * a.blockSize) :
    ∃ z, (List.range a.rowCount).reverse.foldlM (a.relaxRow omega rhs) y = .ok z ∧
      OnlySolution (a.rowCount * a.blockSize) (fun z => a.SweepSystem omega
        (Block.part a.blockSize rhs) (Block.part a.blockSize y) (Block.part a.blockSize y)
        (Block.part a.blockSize z) (Block.part a.blockSize z)) z := by
  have asymm : ∀ i j : ℕ, i > j → ¬j > i := fun _ _ => Nat.lt_asymm
  obtain ⟨z, run, only⟩ := relaxRows_only asymm valid has inverted omega hrhs
    (List.pairwise_reverse.mpr List.pairwise_lt_range)
    (fun i => List.mem_reverse.trans List.mem_range) hy
  simp only [relaxedRows_reverse_iff] at only
  exact ⟨z, run, only⟩

end Sweeps

/-! ## The checked operations -/

section Checked

lemma sweeps_one (omega : T) (order : List ℕ) (rhs y : Array T) :
    a.sweeps omega order rhs 1 y = order.foldlM (a.relaxRow omega rhs) y := by
  cases order with
  | nil => rfl
  | cons i order => exact bind_pure _

/-- Vectors that fit pass the test, if there is room for the residual of a block. -/
lemma Inverted.checkSweep_eq (inverted : a.Inverted) {rhs y : Array T}
    (hrhs : rhs.size = a.rowCount * a.blockSize) (hy : y.size = a.rowCount * a.blockSize) :
    a.checkSweep rhs y = Capacity.reserve a.blockSize := by
  have cached : a.invertedDiagonal.size = a.rowCount * a.blockSize * a.blockSize := by
    rw [inverted.size, Nat.mul_assoc]
  rw [checkSweep, Capacity.compare_eq_ok_iff.mpr cached.symm, ok_bind,
    checkSize_eq_ok.mpr hrhs.symm, ok_bind, checkSize_eq_ok.mpr hy.symm, ok_bind]

variable [Scalar T R]

/-- Forward sweeps on vectors that fit. -/
lemma Inverted.applySor_on (inverted : a.Inverted) (room : a.blockSize < Capacity.limit)
    {rhs y : Array T} (hrhs : rhs.size = a.rowCount * a.blockSize)
    (hy : y.size = a.rowCount * a.blockSize) (omega : R) (iterations : ℕ) :
    (a.applySor rhs omega iterations).on y = (Update.replace
      (a.sweeps (Scalar.ofReal omega) (List.range a.rowCount) rhs iterations)).on y := by
  rw [applySor, Update.on_bind_of_ok (Update.on_get y), inverted.checkSweep_eq hrhs hy,
    Capacity.reserve_eq_ok_iff.mpr room, Update.on_bind_of_ok (Update.on_monadLift _ y)]

/-- Symmetric sweeps on vectors that fit. -/
lemma Inverted.applySsor_on (inverted : a.Inverted) (room : a.blockSize < Capacity.limit)
    {rhs y : Array T} (hrhs : rhs.size = a.rowCount * a.blockSize)
    (hy : y.size = a.rowCount * a.blockSize) (omega : R) (iterations : ℕ) :
    (a.applySsor rhs omega iterations).on y = (Update.replace
      (a.sweeps (Scalar.ofReal omega) (List.range a.rowCount ++ (List.range a.rowCount).reverse)
        rhs iterations)).on y := by
  rw [applySsor, Update.on_bind_of_ok (Update.on_get y), inverted.checkSweep_eq hrhs hy,
    Capacity.reserve_eq_ok_iff.mpr room, Update.on_bind_of_ok (Update.on_monadLift _ y)]

/-- Without that room both kinds of sweeps stop. -/
lemma Inverted.sweeps_crowded (inverted : a.Inverted) (crowded : Capacity.limit ≤ a.blockSize)
    {rhs y : Array T} (hrhs : rhs.size = a.rowCount * a.blockSize)
    (hy : y.size = a.rowCount * a.blockSize) (omega : R) (iterations : ℕ) :
    (a.applySor rhs omega iterations).on y = (.error .tooLarge, y) ∧
      (a.applySsor rhs omega iterations).on y = (.error .tooLarge, y) := by
  have stops : a.checkSweep rhs y = .error .tooLarge := by
    rw [inverted.checkSweep_eq hrhs hy]
    exact if_neg (Nat.not_lt.mpr crowded)
  constructor
  · rw [applySor, Update.on_bind_of_ok (Update.on_get y), stops, Update.on_bind, Update.on_monadLift]
  · rw [applySsor, Update.on_bind_of_ok (Update.on_get y), stops, Update.on_bind,
      Update.on_monadLift]

end Checked

section Splitting

variable [DecidableEq T] [Field R] [LinearOrder R] [IsStrictOrderedRing R] [Scalar T R]
variable [Magnitude R] [ExactScalar T R]

/-- Once the diagonal of a matrix has been inverted, one forward sweep leaves the only solution of
the splitting, and one symmetric sweep the only solution of the mirrored splitting that starts
there. So a solution of `A · y = rhs` stays as it is in any number of sweeps with any factor, and a
vector that one forward sweep with a factor other than zero leaves as it is solves `A · y = rhs`.
All of this takes room for one block of a vector; without it, both kinds of sweeps stop. -/
theorem sweeps_satisfy_splitting {a₀ : BlockMatrix T} (valid : a₀.Valid)
    (factored : (factorDiagonal (R := R)).on a₀ = (.ok (), a)) {rhs y : Array T}
    (hrhs : rhs.size = a.rowCount * a.blockSize) (hy : y.size = a.rowCount * a.blockSize) :
    (a.blockSize < Capacity.limit →
      (∀ omega : R, ∃ z, (a.applySor rhs omega 1).on y = (.ok (), z) ∧
        OnlySolution (a.rowCount * a.blockSize) (fun z => a.SweepSystem (Scalar.ofReal omega)
          (Block.part a.blockSize rhs) (Block.part a.blockSize y) (Block.part a.blockSize z)
          (Block.part a.blockSize y) (Block.part a.blockSize z)) z ∧
        ∃ w, (a.applySsor rhs omega 1).on y = (.ok (), w) ∧
          OnlySolution (a.rowCount * a.blockSize) (fun w => a.SweepSystem (Scalar.ofReal omega)
            (Block.part a.blockSize rhs) (Block.part a.blockSize z) (Block.part a.blockSize z)
            (Block.part a.blockSize w) (Block.part a.blockSize w)) w) ∧
      (a.Balanced (Block.part a.blockSize y) (Block.part a.blockSize rhs) →
        ∀ (omega : R) (iterations : ℕ), (a.applySor rhs omega iterations).on y = (.ok (), y) ∧
          (a.applySsor rhs omega iterations).on y = (.ok (), y)) ∧
      ∀ omega : R, (Scalar.ofReal omega : T) ≠ 0 → (a.applySor rhs omega 1).on y = (.ok (), y) →
        a.Balanced (Block.part a.blockSize y) (Block.part a.blockSize rhs)) ∧
    (Capacity.limit ≤ a.blockSize → ∀ (omega : R) (iterations : ℕ),
      (a.applySor rhs omega iterations).on y = (.error .tooLarge, y) ∧
        (a.applySsor rhs omega iterations).on y = (.error .tooLarge, y)) := by
  obtain ⟨-, valid, has, inverted⟩ := factorDiagonal_spec valid factored
  refine ⟨fun room => ?_, fun crowded => inverted.sweeps_crowded crowded hrhs hy⟩
  have forward := inverted.applySor_on (R := R) room hrhs hy
  have symmetric := inverted.applySsor_on (R := R) room hrhs hy
  have inside : ∀ i ∈ List.range a.rowCount, i < a.rowCount := fun _ => List.mem_range.mp
  refine ⟨fun omega => ?_, fun balanced omega iterations => ⟨?_, ?_⟩,
    fun omega nonzero still i hi => ?_⟩
  · obtain ⟨z, run, only⟩ :=
      forward_only valid has inverted (Scalar.ofReal omega : T) hrhs hy
    obtain ⟨w, back, onlyBack⟩ :=
      backward_only valid has inverted (Scalar.ofReal omega : T) hrhs only.full
    refine ⟨z, ?_, only, w, ?_, onlyBack⟩
    · rw [forward, Update.on_replace, sweeps_one, run]
    · rw [symmetric, Update.on_replace, sweeps_one, List.foldlM_append, run, ok_bind, back]
  · rw [forward, Update.on_replace, sweeps_of_balanced valid has inverted _ hrhs hy balanced inside]
  · rw [symmetric, Update.on_replace, sweeps_of_balanced valid has inverted _ hrhs hy balanced]
    intro i member
    rw [List.mem_append, List.mem_reverse, or_self] at member
    exact inside i member
  · obtain ⟨z, run, only⟩ :=
      forward_only valid has inverted (Scalar.ofReal omega : T) hrhs hy
    rw [forward, Update.on_replace, sweeps_one, run] at still
    obtain rfl : z = y := congrArg Prod.snd still
    exact ((relaxedRow_self_iff hi).mp (only.solves i hi)).resolve_left nonzero

end Splitting

/-- The arrow with its diagonal inverted. The right-hand side is what its rows make of a vector of
ones. -/
theorem arrow_sweeps_satisfy_splitting :
    ∃ a : BlockMatrix ℚ, (factorDiagonal (R := ℚ)).on arrow = (.ok (), a) ∧
      (∀ (omega : ℚ) (iterations : ℕ),
        (a.applySor #[5, 5, 9, 6, 9, 9] omega iterations).on #[1, 1, 1, 1, 1, 1] =
          (.ok (), #[1, 1, 1, 1, 1, 1])) ∧
      ∃ z, (a.applySor #[5, 5, 9, 6, 9, 9] (3 / 2 : ℚ) 1).on (Block.zeros 6) = (.ok (), z) ∧
        OnlySolution (a.rowCount * a.blockSize) (fun z => a.SweepSystem (3 / 2)
          (Block.part a.blockSize #[5, 5, 9, 6, 9, 9]) (Block.part a.blockSize (Block.zeros 6))
          (Block.part a.blockSize z) (Block.part a.blockSize (Block.zeros 6))
          (Block.part a.blockSize z)) z := by
  have valid : arrow.Valid := by decide +kernel
  have success : ((factorDiagonal (R := ℚ)).on arrow).1 = .ok () := by decide +kernel
  obtain ⟨a, run⟩ : ∃ a, (factorDiagonal (R := ℚ)).on arrow = (.ok (), a) :=
    ⟨_, Prod.ext success rfl⟩
  refine ⟨a, run, ?_⟩
  have same := (factorDiagonal_spec valid run).1
  generalize a.invertedDiagonal = cache at same
  subst same
  have balanced : { arrow with invertedDiagonal := cache }.Balanced
      (Block.part 2 #[1, 1, 1, 1, 1, 1]) (Block.part 2 #[5, 5, 9, 6, 9, 9]) := by
    have equal : ∀ i < 3, ∑ j ∈ Finset.range 3, (arrow.coeff 2 i j).mulVec
        (Block.part 2 #[1, 1, 1, 1, 1, 1] j) = Block.part 2 #[5, 5, 9, 6, 9, 9] i := by
      decide +kernel
    exact equal
  have room : 2 < Capacity.limit := by decide
  have rows : (#[5, 5, 9, 6, 9, 9] : Array ℚ).size = 3 * 2 := rfl
  have ones : (#[1, 1, 1, 1, 1, 1] : Array ℚ).size = 3 * 2 := rfl
  have start : (Block.zeros 6 : Array ℚ).size = 3 * 2 := rfl
  obtain ⟨-, stays, -⟩ := (sweeps_satisfy_splitting valid run rows ones).1 room
  obtain ⟨solves, -⟩ := (sweeps_satisfy_splitting valid run rows start).1 room
  obtain ⟨z, sweep, only, -⟩ := solves (3 / 2)
  exact ⟨fun omega iterations => (stays balanced omega iterations).1, z, sweep, only⟩

/-- A matrix without rows, whose diagonal has nothing to invert. There is no room for one of its
blocks, so a sweep that has nothing to do stops. -/
theorem exists_sweep_tooLarge :
    ¬∀ a₀ a : BlockMatrix ℚ, a₀.Valid → (factorDiagonal (R := ℚ)).on a₀ = (.ok (), a) →
      ∀ rhs y : Array ℚ, rhs.size = a.rowCount * a.blockSize → y.size = a.rowCount * a.blockSize →
        ((a.applySor rhs (1 : ℚ) 1).on y).1 = .ok () := by
  intro relaxes
  let a : BlockMatrix ℚ := { BlockMatrix.empty with blockSize := 2 ^ 60 }
  have valid : a.Valid := by decide +kernel
  have inverted : (factorDiagonal (R := ℚ)).on a = (.ok (), a) := by rfl
  have relaxed := relaxes a a valid inverted #[] #[] (Nat.zero_mul _).symm (Nat.zero_mul _).symm
  have stopped : ((a.applySor #[] (1 : ℚ) 1).on #[]).1 = .error .tooLarge := by decide +kernel
  rw [stopped] at relaxed
  cases relaxed

end DomainDecomposition.BlockMatrix
