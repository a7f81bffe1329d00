import DomainDecomposition.Proofs.Partition
import DomainDecomposition.Proofs.Rank.Phases
import DomainDecomposition.Proofs.Rank.Program

/-!
# Who owns which block rows

The ranks divide the global blocks between them: every block below the global size lies in the run
of one rank and of no other. The look-ups of a partition agree on who that is. `ownerOf` finds the
rank, `isOwned` says whether it is the own one, and a table leads back to the block that it lists.
Ranks without rows may stand anywhere.

* `Partitions`: what the look-ups of a partition answer,
* `Partitions.of_consecutive`: they answer so whenever the runs lie one behind the other,
* `ownership_partitions`: partitions from offsets, and from the counts that all ranks ask for,
* `halves_unowned`: counts that are too large together.
-/

namespace DomainDecomposition.RowPartition

open Outcome

/-- Global block `g` lies in the run of rank `q`. -/
def Owns (p : RowPartition) (q g : ℕ) : Prop :=
  ∃ start stop, p.offsets[q]? = some start ∧ p.offsets[q + 1]? = some stop ∧ start ≤ g ∧ g < stop

/-- Number of blocks owned by rank `q`. -/
def runLength (p : RowPartition) (q : ℕ) : ℕ :=
  p.offsets.getD (q + 1) 0 - p.offsets.getD q 0

/-- Block `source.2` of rank `source.1` is the global block `g`. -/
def Leads (p : RowPartition) (g : ℕ) (source : ℕ × ℕ) : Prop :=
  source.1 < p.communicator.size ∧
    (∃ start, p.offsets[source.1]? = some start ∧ start + source.2 = g) ∧
    source.2 < p.runLength source.1

/-- The ranks divide the global blocks between them, and all look-ups agree on how. -/
structure Partitions (p : RowPartition) : Prop where
  /-- The look-up finds the rank whose run holds the block. -/
  ownerOf_iff : ∀ g q, p.ownerOf g = some q ↔ p.Owns q g
  /-- No block has two owners. -/
  one_owner : ∀ g q q', p.Owns q g → p.Owns q' g → q = q'
  /-- The blocks below the global size have an owner. -/
  owned_iff : ∀ g, (∃ q < p.communicator.size, p.Owns q g) ↔ g < p.globalSize
  /-- This rank owns the blocks that the look-up gives to it. -/
  isOwned_iff : ∀ g, p.isOwned g = .ok true ↔ p.ownerOf g = some p.rank
  isOwned_eq : p.rank < p.communicator.size →
    ∀ g, p.isOwned g = .ok (decide (p.ownerOf g = some p.rank))
  /-- Every rank counts the blocks of its run. -/
  localSize_eq : ∀ c : Communicator, c.rank < p.communicator.size →
    localSize ⟨c, p.offsets⟩ = .ok (p.runLength c.rank)
  /-- Together, the ranks own all blocks. -/
  sum_runLength : ∑ q ∈ Finset.range p.communicator.size, p.runLength q = p.globalSize
  /-- A link over the partition reads every listed block from where it lies. -/
  sources : ∀ (T : Type) (blocks : List ℕ) (t : Table T), Table.ofPartition p blocks = .ok t →
    ∀ b, ∃ sources, t.link b = .ok ⟨b, .idle, .remote sources⟩ ∧
      List.Forall₂ p.Leads blocks sources

/-! ## Consecutive runs -/

section Consecutive

variable {p : RowPartition} {g q : ℕ}

lemma owns_iff (h : Offsets.Consecutive p.communicator.size p.offsets) :
    p.Owns q g ↔
      q < p.communicator.size ∧ p.offsets.getD q 0 ≤ g ∧ g < p.offsets.getD (q + 1) 0 := by
  constructor
  · rintro ⟨start, stop, hstart, hstop, hlow, hhigh⟩
    obtain ⟨hinside, -⟩ := Array.getElem?_eq_some_iff.mp hstop
    rw [h.size] at hinside
    rw [Array.getD_eq_getD_getElem?, Array.getD_eq_getD_getElem?, hstart, hstop]
    exact ⟨Nat.lt_of_succ_lt_succ hinside, hlow, hhigh⟩
  · rintro ⟨hq, hlow, hhigh⟩
    exact ⟨_, _, h.getElem?_eq hq.le, h.getElem?_eq hq, hlow, hhigh⟩

/-- The last run ends where all blocks do. -/
lemma Owns.lt_globalSize (h : Offsets.Consecutive p.communicator.size p.offsets)
    (owns : p.Owns q g) : g < p.globalSize := by
  obtain ⟨hq, -, hhigh⟩ := (owns_iff h).mp owns
  have hlast := h.ordered (p := q + 1) hq le_rfl
  rw [globalSize, h.back_eq]
  exact hhigh.trans_le hlast

lemma owns_of_ownerOf (h : Offsets.Consecutive p.communicator.size p.offsets)
    (owner : p.ownerOf g = some q) : p.Owns q g := by
  obtain ⟨hq, -, hlow, hhigh⟩ := source_spec h.size h.first owner
  exact (owns_iff h).mpr ⟨hq, hlow, hhigh⟩

/-- A block below the global size has an owner. -/
lemma exists_ownerOf (below : g < p.globalSize) : ∃ q, p.ownerOf g = some q :=
  ⟨_, if_neg (Nat.not_le.mpr below)⟩

lemma ownerOf_eq_iff (h : Offsets.Consecutive p.communicator.size p.offsets) :
    p.ownerOf g = some q ↔ p.Owns q g := by
  refine ⟨owns_of_ownerOf h, fun owns => ?_⟩
  obtain ⟨q', howner⟩ := exists_ownerOf (owns.lt_globalSize h)
  obtain ⟨hq, hin⟩ := (owns_iff h).mp owns
  obtain ⟨hq', hin'⟩ := (owns_iff h).mp (owns_of_ownerOf h howner)
  rw [howner, h.unique hq' hq hin' hin]

/-- The run of this rank, if it is one of the ranks. -/
lemma range_eq {n : ℕ} (h : Offsets.Consecutive n p.offsets) (rank : p.rank < n) :
    p.range = .ok (p.offsets.getD p.rank 0, p.offsets.getD (p.rank + 1) 0) := by
  rw [range, Span.item_eq_ok.mpr (h.getElem?_eq rank.le), ok_bind,
    Span.item_eq_ok.mpr (h.getElem?_eq rank), ok_bind]
  rfl

/-- This rank owns the blocks of its run. -/
lemma isOwned_iff_owns : p.isOwned g = .ok true ↔ p.Owns p.rank g := by
  constructor
  · intro h
    obtain ⟨⟨start, stop⟩, hrange, hbetween⟩ := bind_eq_ok.mp h
    obtain ⟨start', hstart, hrest⟩ := bind_eq_ok.mp hrange
    obtain ⟨stop', hstop, hpair⟩ := bind_eq_ok.mp hrest
    obtain ⟨rfl, rfl⟩ := Prod.mk.inj (Except.ok.inj hpair)
    have hbetween : (decide (start' ≤ g) && decide (g < stop')) = true := Except.ok.inj hbetween
    rw [Bool.and_eq_true, decide_eq_true_eq, decide_eq_true_eq] at hbetween
    exact ⟨start', stop', Span.item_eq_ok.mp hstart, Span.item_eq_ok.mp hstop, hbetween⟩
  · rintro ⟨start, stop, hstart, hstop, hlow, hhigh⟩
    rw [isOwned, range, Span.item_eq_ok.mpr hstart, ok_bind, Span.item_eq_ok.mpr hstop, ok_bind]
    show Except.ok (decide (start ≤ g) && decide (g < stop)) = _
    rw [decide_eq_true hlow, decide_eq_true hhigh, Bool.and_true]

/-- One of the ranks always has an answer. -/
lemma isOwned_eq_decide (h : Offsets.Consecutive p.communicator.size p.offsets)
    (rank : p.rank < p.communicator.size) (g : ℕ) :
    p.isOwned g = .ok (decide (p.ownerOf g = some p.rank)) := by
  obtain ⟨answer, hanswer⟩ : ∃ answer, p.isOwned g = .ok answer := by
    rw [isOwned, range_eq h rank]
    exact ⟨_, rfl⟩
  have hiff : answer = true ↔ p.ownerOf g = some p.rank := by
    rw [ownerOf_eq_iff h, ← isOwned_iff_owns, hanswer, Except.ok.injEq]
  rw [hanswer, Except.ok.injEq]
  exact Bool.eq_iff_iff.mpr (hiff.trans decide_eq_true_iff.symm)

/-- A table leads to the blocks that it lists. -/
lemma leads_source (h : Offsets.Consecutive p.communicator.size p.offsets)
    (owner : p.ownerOf g = some q) : p.Leads g (p.source g) := by
  obtain ⟨hq, hsource, hlow, hhigh⟩ := source_spec h.size h.first owner
  rw [hsource]
  refine ⟨hq, ⟨_, h.getElem?_eq hq.le, Nat.add_sub_cancel' hlow⟩, ?_⟩
  exact Nat.sub_lt_sub_right hlow hhigh

theorem Partitions.of_consecutive (h : Offsets.Consecutive p.communicator.size p.offsets) :
    p.Partitions where
  ownerOf_iff _ _ := ownerOf_eq_iff h
  one_owner g q q' owns owns' := by
    rw [← ownerOf_eq_iff h] at owns owns'
    exact Option.some.inj (owns.symm.trans owns')
  owned_iff g := by
    refine ⟨fun ⟨q, _, owns⟩ => owns.lt_globalSize h, fun below => ?_⟩
    obtain ⟨q, howner⟩ := exists_ownerOf below
    have howns := owns_of_ownerOf h howner
    exact ⟨q, ((owns_iff h).mp howns).1, howns⟩
  isOwned_iff g := by rw [isOwned_iff_owns, ownerOf_eq_iff h]
  isOwned_eq rank g := isOwned_eq_decide h rank g
  localSize_eq c rank := by
    rw [localSize, range_eq (p := ⟨c, p.offsets⟩) h rank, ok_bind]
    rfl
  sum_runLength := by
    rw [globalSize, h.back_eq]
    exact h.sum_lengths le_rfl
  sources T blocks t table b := by
    obtain ⟨-, howned, hlink⟩ := Table.ofPartition_eq_ok table
    refine ⟨_, hlink b, List.forall₂_map_right_iff.mpr (List.forall₂_same.mpr fun g hg => ?_)⟩
    obtain ⟨q, howner⟩ := Option.isSome_iff_exists.mp (howned g hg)
    exact leads_source h howner

end Consecutive

/-! ## Where partitions come from -/

section Origins

variable {T R : Type}

lemma Partitions.of_ofOffsets {c : Communicator} {offsets : Array ℕ} {p : RowPartition}
    (h : ofOffsets c offsets = .ok p) : p.Partitions := by
  obtain ⟨rfl, -⟩ := ofOffsets_eq_ok h
  exact .of_consecutive (consecutive h)

/-- The partition that the machine makes of the counts of all ranks. -/
def ofSizes (c : Communicator) (sizes : List ℕ) : RowPartition :=
  ⟨c, ((Offsets.ofLengths sizes).toList.map (· % Capacity.words)).toArray⟩

/-- No sum of counts exceeds the last one. -/
lemma ofSizes_eq {sizes : List ℕ} (word : sizes.sum < Capacity.words) (c : Communicator) :
    ofSizes c sizes = ⟨c, Offsets.ofLengths sizes⟩ := by
  have words : ∀ o ∈ (Offsets.ofLengths sizes).toList, o % Capacity.words = o := by
    intro o member
    obtain ⟨i, hi, rfl⟩ := List.mem_iff_getElem.mp member
    rw [Array.length_toList, Offsets.size_ofLengths] at hi
    obtain ⟨_, hget⟩ := Array.getElem?_eq_some_iff.mp
      (Offsets.getElem?_ofLengths (Nat.le_of_lt_succ hi))
    -- the offset is the sum of the first counts, which is part of the whole sum
    have total := List.sum_take_add_sum_drop sizes i
    rw [Array.getElem_toList, hget, Nat.mod_eq_of_lt (by omega)]
  rw [ofSizes, List.map_congr_left words, List.map_id']

/-- Counts of all ranks, one of each. -/
lemma Partitions.of_sizes {c : Communicator} {sizes : List ℕ} (one_each : sizes.length = c.size)
    (word : sizes.sum < Capacity.words) :
    (ofSizes c sizes).Partitions ∧
      ∀ q < c.size, (ofSizes c sizes).runLength q = sizes.getD q 0 := by
  rw [ofSizes_eq word]
  refine ⟨.of_consecutive ?_, fun q hq => Offsets.length_ofLengths (one_each.symm ▸ hq)⟩
  show Offsets.Consecutive c.size (Offsets.ofLengths sizes)
  rw [← one_each]
  exact .ofLengths sizes

/-- When the ranks of a world gather their counts, all of them hold the same offsets. -/
lemma settles_ofLocalSize {n : ℕ} (counts : ℕ → ℕ) {world : World T R} (sized : world.Sized n) :
    World.Settles n (fun r => ofSizes (.member r n) ((List.range n).map counts))
      ⟨world, fun r => ofLocalSize (.member r n) (counts r)⟩ := by
  have hleads := World.leads_gather sized counts
    (P := fun r => ofLocalSize (.member r n) (counts r))
    (K := fun r sizes => .done (ofSizes (.member r n) sizes))
    fun _ _ => rfl
  exact (hleads.orderly (World.orderly_done n _ _)).settles

/-- The look-ups of a partition agree on who owns what, whether it was made from offsets or from the
counts of all ranks, which together must be a machine word. In a world of ranks, every interleaving
gives each rank the count that it asks for. -/
theorem ownership_partitions :
    (∀ c offsets p, ofOffsets c offsets = .ok p →
      p = ⟨c, offsets⟩ ∧ p.Partitions) ∧
    (∀ c count p, (ofLocalSize c count : Program T R RowPartition).Yields p →
      ∃ sizes, (c.gather count : Program T R (List ℕ)).Yields sizes ∧
        p = ofSizes c sizes ∧ (sizes.length = c.size → sizes.sum < Capacity.words →
          p.Partitions ∧ ∀ q < c.size, p.runLength q = sizes.getD q 0)) ∧
    ∀ n (counts : ℕ → ℕ) (world : World T R), world.Sized n →
      ((List.range n).map counts).sum < Capacity.words →
      ∃ p : ℕ → RowPartition,
        World.Settles n p ⟨world, fun r => ofLocalSize (.member r n) (counts r)⟩ ∧
        ∀ r < n, (p r).communicator = .member r n ∧ (p r).offsets = (p 0).offsets ∧
          (p r).Partitions ∧ (p r).localSize = .ok (counts r) := by
  refine ⟨fun c offsets p h => ?_, fun c count p yields => ?_, fun n counts world sized word => ?_⟩
  · exact ⟨(ofOffsets_eq_ok h).1, .of_ofOffsets h⟩
  · obtain ⟨sizes, hsizes, hp⟩ := yields.of_bind
    obtain rfl : ofSizes c sizes = p := hp
    exact ⟨sizes, hsizes, rfl, Partitions.of_sizes⟩
  · refine ⟨_, settles_ofLocalSize counts sized, fun r hr => ⟨rfl, rfl, ?_⟩⟩
    have one_each : ((List.range n).map counts).length = (Communicator.member r n).size := by
      rw [List.length_map, List.length_range]
      rfl
    obtain ⟨hpartitions, hlength⟩ := Partitions.of_sizes one_each word
    refine ⟨hpartitions, (hpartitions.localSize_eq (.member r n) hr).trans ?_⟩
    refine congrArg Except.ok ((hlength r hr).trans ?_)
    rw [List.getD_eq_getElem?_getD, List.getElem?_map, List.getElem?_range hr]
    rfl

/-- Rank 1 of three, which owns nothing. -/
def gappedPartition : RowPartition :=
  ⟨.claimed 1 3 [2, 0, 3], #[0, 2, 2, 5]⟩

/-- The look-up passes over the rank that owns nothing. -/
theorem gappedPartition_ownership :
    (ofOffsets (.claimed 1 3 [2, 0, 3]) #[0, 2, 2, 5] = .ok gappedPartition ∧
      gappedPartition.Partitions ∧ gappedPartition.ownerOf 1 = some 0 ∧
      gappedPartition.ownerOf 2 = some 2 ∧ gappedPartition.ownerOf 5 = none) ∧
    ((ofLocalSize (.claimed 1 3 [2, 0, 3]) 0 : Program ℕ ℕ RowPartition).Yields gappedPartition ∧
      [0, 1, 2].map gappedPartition.runLength = [2, 0, 3]) ∧
    ∃ p : ℕ → RowPartition,
      World.Settles 3 p ⟨(.initial 3 : World ℕ ℕ), fun r =>
        ofLocalSize (.member r 3) ([2, 0, 3].getD r 0)⟩ ∧
      (p 1).Partitions ∧ (p 1).localSize = .ok 0 := by
  obtain ⟨hoffsets, hsizes, hworld⟩ := ownership_partitions (T := ℕ) (R := ℕ)
  refine ⟨?_, ?_, ?_⟩
  · obtain ⟨-, h⟩ := hoffsets (.claimed 1 3 [2, 0, 3]) #[0, 2, 2, 5] gappedPartition rfl
    refine ⟨rfl, h, (h.ownerOf_iff 1 0).mpr ⟨0, 2, rfl, rfl, by decide, by decide⟩,
      (h.ownerOf_iff 2 2).mpr ⟨2, 5, rfl, rfl, by decide, by decide⟩, by decide⟩
  · obtain ⟨sizes, rfl, -, h⟩ := hsizes (.claimed 1 3 [2, 0, 3]) 0 gappedPartition rfl
    obtain ⟨-, hlength⟩ := h rfl (by decide)
    refine ⟨rfl, List.map_congr_left (g := fun q => [2, 0, 3].getD q 0) fun q hq => hlength q ?_⟩
    exact List.mem_range.mp hq
  · obtain ⟨p, settles, h⟩ := hworld 3 (fun r => [2, 0, 3].getD r 0) (.initial 3)
      (World.sized_initial 3) (by decide)
    obtain ⟨-, -, hpartitions, hlocal⟩ := h 1 (by decide)
    exact ⟨p, settles, hpartitions, hlocal⟩

/-- Half of the machine words. -/
def halfWords : ℕ :=
  Capacity.words / 2

/-- More blocks than machine words cannot be dealt out. When two ranks ask for one half each, the
last offset is zero, and the second rank gets nothing. -/
theorem halves_unowned :
    ∃ p, (ofLocalSize (.claimed 1 2 [halfWords, halfWords]) halfWords :
        Program ℕ ℕ RowPartition).Yields p ∧
      p.offsets = #[0, halfWords, 0] ∧ p.localSize = .ok 0 ∧ ¬ p.Partitions := by
  refine ⟨⟨_, #[0, halfWords, 0]⟩, rfl, rfl, rfl, fun partitions => ?_⟩
  -- the first rank still has a run, though no block is below the global size
  have below := (partitions.owned_iff 0).mp
    ⟨0, Nat.zero_lt_two, 0, halfWords, rfl, rfl, Nat.le_refl 0, by decide⟩
  exact absurd below (by decide)

end Origins

end DomainDecomposition.RowPartition
