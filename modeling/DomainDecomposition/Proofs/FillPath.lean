import Mathlib.Data.List.Chain
import Mathlib.Data.List.NodupEquivFin
import Mathlib.Data.List.Range

/-!
# Walks through small vertices

`FillPath E m bound i j` says that the directed graph `E` has a walk from `i` to `j` with at most
`m` inner vertices, all of them smaller than `bound`. Eliminating the vertices one after the other,
from the smallest on, makes such walks into edges:

* `fillPath_succ`: a walk may pass through vertex `j` as well, or come from two walks that meet
  there,
* `FillPath.shorten`: inner vertices that occur twice are not needed, so no walk needs more than
  `bound` of them.
-/

namespace DomainDecomposition

/-- A walk from `i` to `j` with at most `m` inner vertices, all of them smaller than `bound`. -/
def FillPath (E : ℕ → ℕ → Prop) (m bound i j : ℕ) : Prop :=
  ∃ inner : List ℕ, inner.length ≤ m ∧ (∀ v ∈ inner, v < bound) ∧
    List.IsChain E (i :: (inner ++ [j]))

variable {E : ℕ → ℕ → Prop} {m bound i j : ℕ}

namespace FillPath

lemma mono {m' bound' : ℕ} (h : FillPath E m bound i j) (hm : m ≤ m') (hbound : bound ≤ bound') :
    FillPath E m' bound' i j := by
  obtain ⟨inner, length, below, chain⟩ := h
  exact ⟨inner, length.trans hm, fun v hv => (below v hv).trans_le hbound, chain⟩

/-- Without inner vertices there is only the edge. -/
lemma bound_zero : FillPath E m 0 i j ↔ E i j := by
  constructor
  · rintro ⟨inner, -, below, chain⟩
    have hinner : inner = [] := List.eq_nil_iff_forall_not_mem.mpr fun v hv =>
      Nat.not_lt_zero v (below v hv)
    subst hinner
    exact (List.isChain_cons_cons.mp chain).1
  · intro edge
    exact ⟨[], Nat.zero_le m, fun v hv => absurd hv List.not_mem_nil,
      List.isChain_cons_cons.mpr ⟨edge, List.isChain_singleton j⟩⟩

lemma length_zero : FillPath E 0 bound i j ↔ E i j := by
  constructor
  · rintro ⟨inner, length, -, chain⟩
    have hinner : inner = [] := List.length_eq_zero_iff.mp (Nat.le_zero.mp length)
    subst hinner
    exact (List.isChain_cons_cons.mp chain).1
  · intro edge
    exact (bound_zero.mpr edge).mono (Nat.le_refl 0) (Nat.zero_le bound)

/-- Two walks that meet at `j` make a walk through `j`. -/
lemma join {p q c : ℕ} (first : FillPath E p j i j) (second : FillPath E q j j c) :
    FillPath E (p + q + 1) (j + 1) i c := by
  obtain ⟨inner, length, below, chain⟩ := first
  obtain ⟨inner', length', below', chain'⟩ := second
  refine ⟨inner ++ j :: inner', ?_, ?_, ?_⟩
  · rw [List.length_append, List.length_cons]
    omega
  · intro v hv
    rcases List.mem_append.mp hv with h | h
    · exact Nat.lt_succ_of_lt (below v h)
    · rcases List.mem_cons.mp h with rfl | h
      · exact Nat.lt_succ_self v
      · exact Nat.lt_succ_of_lt (below' v h)
  · rw [List.append_assoc, List.cons_append, List.isChain_cons_split]
    exact ⟨chain, chain'⟩

/-- The part of a walk behind its last visit of `j`. -/
lemma after_last {c : ℕ} (inner : List ℕ) (below : ∀ v ∈ inner, v < j + 1)
    (chain : List.IsChain E (i :: (inner ++ [c]))) :
    (∀ v ∈ inner, v < j) ∨
      ∃ rest : List ℕ, rest.length < inner.length ∧ (∀ v ∈ rest, v < j) ∧
        List.IsChain E (j :: (rest ++ [c])) := by
  induction inner generalizing i with
  | nil => exact Or.inl fun v hv => absurd hv List.not_mem_nil
  | cons v inner ih =>
    obtain ⟨hv, hinner⟩ := List.forall_mem_cons.mp below
    rw [List.cons_append, List.isChain_cons_cons] at chain
    rcases ih hinner chain.2 with h | ⟨rest, length, hrest, chain'⟩
    · -- `j` does not come again, so a visit at `v` is the last one
      by_cases hvj : v = j
      · rw [hvj] at chain
        exact Or.inr ⟨inner, Nat.lt_succ_self _, h, chain.2⟩
      · exact Or.inl (List.forall_mem_cons.mpr ⟨by omega, h⟩)
    · refine Or.inr ⟨rest, ?_, hrest, chain'⟩
      rw [List.length_cons]
      omega

/-- A walk that passes through `j` reaches it for a first and leaves it for a last time. -/
lemma split {c : ℕ} (h : FillPath E m (j + 1) i c) :
    FillPath E m j i c ∨
      ∃ p q, p + q + 1 ≤ m ∧ FillPath E p j i j ∧ FillPath E q j j c := by
  obtain ⟨inner, length, below, chain⟩ := h
  by_cases hj : j ∈ inner
  · right
    -- cut at the first visit of `j`, and drop what lies between that and the last one
    obtain ⟨before, behind, rfl, fresh⟩ := List.eq_append_cons_of_mem hj
    rw [List.length_append, List.length_cons] at length
    rw [List.append_assoc, List.cons_append, List.isChain_cons_split] at chain
    have hbefore : ∀ v ∈ before, v < j := by
      intro v hv
      have hle := below v (List.mem_append_left _ hv)
      have hne : v ≠ j := fun e => fresh (e ▸ hv)
      omega
    have hbehind : ∀ v ∈ behind, v < j + 1 := fun v hv =>
      below v (List.mem_append_right _ (List.mem_cons_of_mem j hv))
    have hfirst : FillPath E before.length j i j :=
      ⟨before, Nat.le_refl _, hbefore, chain.1⟩
    rcases after_last behind hbehind chain.2 with h | ⟨rest, hlength, hrest, hchain⟩
    · exact ⟨before.length, behind.length, by omega, hfirst,
        behind, Nat.le_refl _, h, chain.2⟩
    · exact ⟨before.length, rest.length, by omega, hfirst,
        rest, Nat.le_refl _, hrest, hchain⟩
  · left
    refine ⟨inner, length, fun v hv => ?_, chain⟩
    have hle := below v hv
    have hne : v ≠ j := fun e => hj (e ▸ hv)
    omega

/-! ## Dropping loops -/

/-- A walk without its loops. -/
lemma exists_nodup (inner : List ℕ) (chain : List.IsChain E (i :: (inner ++ [j]))) :
    ∃ inner' : List ℕ, inner'.Nodup ∧ inner' ⊆ inner ∧
      List.IsChain E (i :: (inner' ++ [j])) := by
  induction inner generalizing i with
  | nil => exact ⟨[], List.nodup_nil, List.Subset.refl _, chain⟩
  | cons v inner ih =>
    rw [List.cons_append, List.isChain_cons_cons] at chain
    obtain ⟨inner', nodup, sub, chain'⟩ := ih chain.2
    by_cases hv : v ∈ inner'
    · -- the walk comes back to `v`: go on from the last visit
      obtain ⟨before, behind, rfl⟩ := List.append_of_mem hv
      rw [List.append_assoc, List.cons_append, List.isChain_cons_split] at chain'
      refine ⟨v :: behind, (List.nodup_append.mp nodup).2.1, ?_, ?_⟩
      · intro w hw
        exact List.mem_cons_of_mem v (sub (List.mem_append_right before hw))
      · rw [List.cons_append, List.isChain_cons_cons]
        exact ⟨chain.1, chain'.2⟩
    · refine ⟨v :: inner', List.nodup_cons.mpr ⟨hv, nodup⟩, ?_, ?_⟩
      · exact List.cons_subset_cons v sub
      · rw [List.cons_append, List.isChain_cons_cons]
        exact ⟨chain.1, chain'⟩

/-- No walk needs more inner vertices than there are. -/
lemma shorten (h : FillPath E m bound i j) : FillPath E bound bound i j := by
  obtain ⟨inner, -, below, chain⟩ := h
  obtain ⟨inner', nodup, sub, chain'⟩ := exists_nodup inner chain
  have below' : ∀ v ∈ inner', v < bound := fun v hv => below v (sub hv)
  -- without loops the inner vertices are distinct numbers below the bound
  have hrange : inner' ⊆ List.range bound := fun v hv => List.mem_range.mpr (below' v hv)
  have hlength := (List.subperm_of_subset nodup hrange).length_le
  rw [List.length_range] at hlength
  exact ⟨inner', hlength, below', chain'⟩

end FillPath

/-- Allowing one more inner vertex: the recurrence of the elimination. -/
lemma fillPath_succ {c : ℕ} :
    FillPath E m (j + 1) i c ↔ FillPath E m j i c ∨
      ∃ p q, p + q + 1 ≤ m ∧ FillPath E p j i j ∧ FillPath E q j j c := by
  constructor
  · exact FillPath.split
  · rintro (h | ⟨p, q, hm, first, second⟩)
    · exact h.mono (Nat.le_refl m) (Nat.le_succ j)
    · exact (first.join second).mono hm (Nat.le_refl _)

end DomainDecomposition
