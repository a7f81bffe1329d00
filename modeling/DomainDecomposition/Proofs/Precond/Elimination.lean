import DomainDecomposition.Precond.Schur
import DomainDecomposition.Proofs.Distributed.Interface

/-!
# Elimination and back substitution at one rank

An application of the approximate Schur complement works on the vector of a rank in two steps,
before and after the interface solve. Together they solve a system with the product of the factors,
whose right-hand side the remote blocks have changed in the interface rows.

* `sum_product_add_of_interface`: why the two steps and an interface solution solve the system,
* `eliminateInterior_spec`, `substitute_spec`: the two steps,
* `Eliminated.sum_product_add`: both of them around a solution of the interface problem.
-/

namespace DomainDecomposition

open Outcome

variable {T : Type} [Field T] {b : ℕ}

namespace BlockMatrix

variable {f : BlockMatrix T} {o n : ℕ}

/-- The factors of `f` have `n` rows, the last ones from `o` on are interface rows. Let `z` solve
the lower system, `g` the upper system of the interface rows, and let `w` differ from `g` by what
the interface systems make of `t`. Then the vector that is `w` on the interface rows, and solves the
upper system before them, solves the system of both factors with right-hand side `x - t`. -/
lemma sum_product_add_of_interface (ho : o ≤ n) {x t z g s w y : ℕ → Fin b → T}
    (hz : ∀ i < n, ∑ j ∈ Finset.range n, (f.lower b i j).mulVec (z j) = x i)
    (hg : ∀ i, o ≤ i → i < n → ∑ j ∈ Finset.Ico o n, (f.upper b i j).mulVec (g j) = z i)
    (hs : ∀ i, o ≤ i → i < n → ∑ j ∈ Finset.Ico o n, (f.lower b i j).mulVec (s j) = t i)
    (hw : ∀ i, o ≤ i → i < n →
      ∑ j ∈ Finset.Ico o n, (f.upper b i j).mulVec (g j - w j) = s i)
    (hy : ∀ i < o, ∑ j ∈ Finset.range n, (f.upper b i j).mulVec (y j) = z i)
    (hyw : ∀ i, o ≤ i → i < n → y i = w i) (ht : ∀ i < o, t i = 0) {i : ℕ} (hi : i < n) :
    ∑ j ∈ Finset.range n,
        (∑ k ∈ Finset.range n, f.lower b i k * f.upper b k j).mulVec (y j) + t i = x i := by
  -- the upper factor times `y` is `z`, less `s` on the interface rows
  have hupper : ∀ k < n, ∑ j ∈ Finset.range n, (f.upper b k j).mulVec (y j) =
      z k - if o ≤ k then s k else 0 := by
    intro k hk
    by_cases hok : o ≤ k
    · have hleft : ∑ j ∈ Finset.range o, (f.upper b k j).mulVec (y j) = 0 := by
        refine Finset.sum_eq_zero fun j hj => ?_
        rw [upper_of_gt (by rw [Finset.mem_range] at hj; omega), Matrix.zero_mulVec]
      have hright : ∑ j ∈ Finset.Ico o n, (f.upper b k j).mulVec (y j) = z k - s k := by
        rw [← hg k hok hk, ← hw k hok hk, ← Finset.sum_sub_distrib]
        refine Finset.sum_congr rfl fun j hj => ?_
        rw [Finset.mem_Ico] at hj
        rw [hyw j hj.1 hj.2, ← Matrix.mulVec_sub, sub_sub_cancel]
      rw [← Finset.sum_range_add_sum_Ico _ ho, hleft, hright, zero_add, if_pos hok]
    · rw [hy k (by omega), if_neg hok, sub_zero]
  -- the lower factor takes `s` to `t`
  have hlower : ∑ k ∈ Finset.range n, (f.lower b i k).mulVec (if o ≤ k then s k else 0) = t i := by
    have hleft : ∑ k ∈ Finset.range o, (f.lower b i k).mulVec (if o ≤ k then s k else 0) = 0 := by
      refine Finset.sum_eq_zero fun k hk => ?_
      rw [Finset.mem_range] at hk
      rw [if_neg (by omega), Matrix.mulVec_zero]
    have hright : ∑ k ∈ Finset.Ico o n, (f.lower b i k).mulVec (if o ≤ k then s k else 0) =
        ∑ k ∈ Finset.Ico o n, (f.lower b i k).mulVec (s k) := by
      refine Finset.sum_congr rfl fun k hk => ?_
      rw [if_pos (Finset.mem_Ico.mp hk).1]
    rw [← Finset.sum_range_add_sum_Ico _ ho, hleft, hright, zero_add]
    by_cases hoi : o ≤ i
    · exact hs i hoi hi
    · rw [ht i (by omega)]
      refine Finset.sum_eq_zero fun k hk => ?_
      rw [lower_of_gt (by rw [Finset.mem_Ico] at hk; omega), Matrix.zero_mulVec]
  calc ∑ j ∈ Finset.range n,
        (∑ k ∈ Finset.range n, f.lower b i k * f.upper b k j).mulVec (y j) + t i
      = ∑ k ∈ Finset.range n,
          (f.lower b i k).mulVec (z k - if o ≤ k then s k else 0) + t i := by
        rw [sum_product_mulVec]
        congr 1
        exact Finset.sum_congr rfl fun k hk => by rw [hupper k (Finset.mem_range.mp hk)]
    _ = x i - t i + t i := by
        simp only [Matrix.mulVec_sub, Finset.sum_sub_distrib]
        rw [hz i hi, hlower]
    _ = x i := sub_add_cancel _ _

end BlockMatrix

namespace ApproximateSchur

variable {f : BlockMatrix T} {l : Layout}

/-- The elimination has turned `x` into `y`: `z` solves the lower system, `y` is `z` in the interior
rows, and solves the upper system in the interface rows. -/
structure Eliminated (f : BlockMatrix T) (l : Layout) (x y : Array T) (z : ℕ → Fin b → T) :
    Prop where
  lower : ∀ i < l.owned, ∑ j ∈ Finset.range l.owned, (f.lower b i j).mulVec (z j) =
    Block.part b x i
  kept : ∀ i < l.interior, Block.part b y i = z i
  upper : ∀ i, l.interior ≤ i → i < l.owned → ∑ j ∈ Finset.Ico l.interior l.owned,
    (f.upper b i j).mulVec (Block.part b y j) = z i

/-- The interior is eliminated by a lower solve of all rows, and the interface rows go through the
upper solve as well. -/
lemma eliminateInterior_spec (h : f.Factored) (rows : f.rowCount = l.owned)
    (blockSize : f.blockSize = b) (same : l.blockSize = b) (ho : l.interior ≤ l.owned)
    {x y : Array T} (hx : x.size = l.owned * b) (hy : y.size = l.owned * b) :
    ∃ y', (eliminateInterior f l x).on y = (.ok (), y') ∧ y'.size = l.owned * b ∧
      ∃ z : ℕ → Fin b → T, Eliminated f l x y' z := by
  subst blockSize
  have hlower := h.applyLower_spec (x := x) (y := y) (by rw [hx, rows]) (by rw [hy, rows])
  rw [rows] at hlower
  obtain ⟨z, hz, hzsize, hsolved⟩ := hlower
  have htail : (z.extract (l.interior * f.blockSize) (l.owned * f.blockSize)).size =
      (l.owned - l.interior) * f.blockSize := by
    rw [Array.size_extract, hzsize, Nat.min_self, Nat.sub_mul]
  have hupper := h.applyUpperFrom_spec (o := l.interior)
    (x := z.extract (l.interior * f.blockSize) (l.owned * f.blockSize))
    (by rw [rows]; exact ho) (by rw [rows, htail])
  rw [rows] at hupper
  obtain ⟨t, ht, htsize, htsolved⟩ := hupper
  have hstart : l.interfaceStart = l.interior * f.blockSize := by
    rw [Layout.interfaceStart, same, Nat.mul_comm]
  -- the tail of `z` is replaced by the solution `t`
  obtain ⟨y', hy', hsize, hparts⟩ := DistributedMatrix.onTail_on hstart ho hzsize ht htsize
  refine ⟨y', ?_, hsize, Block.part f.blockSize z, hsolved, fun i hi => ?_,
    fun i low high => ?_⟩
  · rw [eliminateInterior, Update.on_bind_of_ok hz, hy']
  · rw [hparts, if_pos hi]
  · have hrow := htsolved i low high
    rw [Block.part_extract (by omega), Nat.add_sub_cancel' low] at hrow
    rw [← hrow]
    refine Finset.sum_congr rfl fun j hj => ?_
    rw [Finset.mem_Ico] at hj
    rw [hparts, if_neg (by omega)]

/-- The interface solution is put in place, and the interior rows are solved for behind it. -/
lemma substitute_spec (h : f.Factored) (rows : f.rowCount = l.owned) (blockSize : f.blockSize = b)
    (same : l.blockSize = b) (ho : l.interior ≤ l.owned) {y w : Array T}
    (hy : y.size = l.owned * b) (hw : w.size = (l.owned - l.interior) * b) :
    ∃ y', (f.applyUpperBefore l.interior).on (Span.overwrite y l.interfaceStart w) =
        (.ok (), y') ∧ y'.size = l.owned * b ∧
      (∀ i < l.interior, ∑ j ∈ Finset.range l.owned,
        (f.upper b i j).mulVec (Block.part b y' j) = Block.part b y i) ∧
      ∀ i, l.interior ≤ i → i < l.owned →
        Block.part b y' i = Block.part b w (i - l.interior) := by
  subst blockSize
  have hstart : l.interfaceStart = l.interior * f.blockSize := by
    rw [Layout.interfaceStart, same, Nat.mul_comm]
  -- the rows before the interface still hold their right-hand sides
  have hwritten : ∀ k, Block.part f.blockSize (Span.overwrite y l.interfaceStart w) k =
      if l.interior ≤ k ∧ k < l.interior + (l.owned - l.interior) then
        Block.part f.blockSize w (k - l.interior) else Block.part f.blockSize y k := by
    intro k
    rw [hstart]
    exact Block.part_overwrite_run hw (by rw [Nat.add_sub_cancel' ho, hy]) k
  have hspec := h.applyUpperBefore_spec (o := l.interior)
    (x := Span.overwrite y l.interfaceStart w) (by rw [rows]; exact ho)
    (by rw [Span.size_overwrite, rows, hy])
  rw [rows] at hspec
  obtain ⟨y', hy', hsize, hsolved, hkept⟩ := hspec
  refine ⟨y', hy', hsize, fun i hi => ?_, fun i low high => ?_⟩
  · rw [hsolved i hi, hwritten, if_neg (by omega)]
  · rw [hkept i low, hwritten, if_pos (by omega)]

/-- When the interface operator takes `w` to what the elimination has left in the interface rows,
the substitution of `w` solves the system of the factors, less what the remote blocks contribute. -/
lemma Eliminated.sum_product_add {store : Store T} {a : DistributedMatrix T}
    {x y g w y' : Array T} {z : ℕ → Fin b → T} {v : ℕ → ℕ → Fin b → T}
    (h : Eliminated f a.layout x y z) (ho : a.layout.interior ≤ a.layout.owned)
    (product : InterfaceOperator.IsProduct b store a f v w g)
    (right : ∀ i, a.layout.interior ≤ i → i < a.layout.owned →
      Block.part b g (i - a.layout.interior) = Block.part b y i)
    (solved : ∀ i < a.layout.interior, ∑ j ∈ Finset.range a.layout.owned,
      (f.upper b i j).mulVec (Block.part b y' j) = Block.part b y i)
    (put : ∀ i, a.layout.interior ≤ i → i < a.layout.owned →
      Block.part b y' i = Block.part b w (i - a.layout.interior)) {i : ℕ}
    (hi : i < a.layout.owned) :
    ∑ j ∈ Finset.range a.layout.owned, (∑ k ∈ Finset.range a.layout.owned,
        f.lower b i k * f.upper b k j).mulVec (Block.part b y' j) +
      DistributedMatrix.remoteSum b store a v i = Block.part b x i := by
  obtain ⟨s, hs, hw⟩ := product
  have hright : ∀ i, a.layout.interior ≤ i → i < a.layout.owned →
      ∑ j ∈ Finset.Ico a.layout.interior a.layout.owned, (f.upper b i j).mulVec
        (Block.part b y j - Block.part b w (j - a.layout.interior)) = s i := by
    intro i low high
    rw [← hw i low high]
    refine Finset.sum_congr rfl fun j hj => ?_
    rw [Finset.mem_Ico] at hj
    rw [right j hj.1 hj.2]
  have hback : ∀ i < a.layout.interior, ∑ j ∈ Finset.range a.layout.owned,
      (f.upper b i j).mulVec (Block.part b y' j) = z i := by
    intro i hi
    rw [solved i hi, h.kept i hi]
  exact BlockMatrix.sum_product_add_of_interface ho h.lower h.upper hs hright hback put
    (fun i hi => if_neg (Nat.not_le.mpr hi)) hi

end ApproximateSchur

end DomainDecomposition
