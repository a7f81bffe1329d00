import DomainDecomposition.Halo.Link
import DomainDecomposition.Proofs.Offsets
import DomainDecomposition.Proofs.Outcome

/-!
# Owners of block rows

A rank owns the run of global blocks between two consecutive offsets. The owner of a block that is
smaller than the last offset is a rank, and the block lies in the run of this rank.

* `RowPartition.source_spec`, `Table.source_spec`: the owner of a block and the number of the block
  there.
-/

namespace DomainDecomposition

open Outcome

namespace RowPartition

/-- The owner of global block `g`, and the number of the block among those of its owner. -/
def source (p : RowPartition) (g : ℕ) : ℕ × ℕ :=
  (Offsets.runOf p.offsets g, g - p.offsets.getD (Offsets.runOf p.offsets g) 0)

lemma ofOffsets_eq_ok {communicator : Communicator} {offsets : Array ℕ} {p : RowPartition}
    (h : ofOffsets communicator offsets = .ok p) :
    p = ⟨communicator, offsets⟩ ∧ offsets.size = communicator.size + 1 ∧
      offsets[0]? = some 0 ∧ Offsets.ascending offsets.toList := by
  unfold ofOffsets at h
  split at h
  · simp at h
  · rename_i hsize
    split at h
    · rename_i hoffsets
      exact ⟨(Except.ok.inj h).symm, not_not.mp hsize, hoffsets⟩
    · simp at h

/-- Offsets that are accepted are those of runs that lie one behind the other. -/
lemma consecutive {communicator : Communicator} {offsets : Array ℕ} {p : RowPartition}
    (h : ofOffsets communicator offsets = .ok p) :
    Offsets.Consecutive communicator.size offsets := by
  obtain ⟨-, hsize, hfirst, hascending⟩ := ofOffsets_eq_ok h
  exact .of_ascending hsize hfirst hascending

/-- The rows of a rank lie between two consecutive offsets. -/
lemma localSize_eq_ok {p : RowPartition} {m : ℕ} (h : p.localSize = .ok m) :
    p.offsets.getD (p.rank + 1) 0 - p.offsets.getD p.rank 0 = m := by
  obtain ⟨⟨start, stop⟩, hrange, hm⟩ := bind_eq_ok.mp h
  obtain ⟨start', hstart, hrest⟩ := bind_eq_ok.mp hrange
  obtain ⟨stop', hstop, hpair⟩ := bind_eq_ok.mp hrest
  obtain ⟨rfl, rfl⟩ := Prod.mk.inj (Except.ok.inj hpair)
  rw [Span.item_eq_ok] at hstart hstop
  rw [Array.getD_eq_getD_getElem?, Array.getD_eq_getD_getElem?, hstart, hstop]
  exact Except.ok.inj hm

/-- A block that has an owner lies in the run of its owner. -/
lemma source_spec {p : RowPartition} {n q g : ℕ} (size : p.offsets.size = n + 1)
    (first : p.offsets[0]? = some 0) (owner : p.ownerOf g = some q) :
    q < n ∧ p.source g = (q, g - p.offsets.getD q 0) ∧
      p.offsets.getD q 0 ≤ g ∧ g < p.offsets.getD (q + 1) 0 := by
  unfold ownerOf at owner
  split at owner
  · simp at owner
  · rename_i hbelow
    obtain rfl := Option.some.inj owner
    obtain ⟨hrank, hlow, hhigh⟩ := Offsets.runOf_spec size first (Nat.not_le.mp hbelow)
    exact ⟨hrank, rfl, hlow, hhigh⟩

end RowPartition

namespace Table

variable {T : Type}

/-- Every block of the table of a member has an owner, and a link reads it there. -/
lemma ofPartition_eq_ok {p : RowPartition} {blocks : List ℕ} {t : Table T}
    (h : ofPartition p blocks = .ok t) :
    t.blocks = blocks ∧ (∀ g ∈ blocks, (p.ownerOf g).isSome) ∧ ∀ b, t.link b =
      .ok { blockSize := b, flight := .idle, supply := .remote (blocks.map p.source) } := by
  unfold ofPartition at h
  split at h
  · simp at h
  · rename_i hfind
    obtain rfl := Except.ok.inj h
    refine ⟨rfl, fun g hg => ?_, fun b => rfl⟩
    have hnone := List.find?_eq_none.mp hfind g hg
    cases howner : p.ownerOf g with
    | none => simp [howner] at hnone
    | some q => rfl

/-- In a world of `n` ranks, one of them owns the block. -/
lemma source_spec {n r : ℕ} {offsets : Array ℕ} {p : RowPartition} {blocks : List ℕ} {t : Table T}
    (partition : RowPartition.ofOffsets (.member r n) offsets = .ok p)
    (table : ofPartition p blocks = .ok t) {g : ℕ} (hg : g ∈ blocks) :
    ∃ q < n, p.ownerOf g = some q ∧ p.source g = (q, g - offsets.getD q 0) ∧
      offsets.getD q 0 ≤ g ∧ g < offsets.getD (q + 1) 0 := by
  obtain ⟨rfl, hsize, hfirst, -⟩ := RowPartition.ofOffsets_eq_ok partition
  obtain ⟨-, howned, -⟩ := ofPartition_eq_ok table
  obtain ⟨q, hq⟩ := Option.isSome_iff_exists.mp (howned g hg)
  obtain ⟨hqn, hsource, hlow, hhigh⟩ := RowPartition.source_spec hsize hfirst hq
  exact ⟨q, hqn, hq, hsource, hlow, hhigh⟩

end Table

end DomainDecomposition
