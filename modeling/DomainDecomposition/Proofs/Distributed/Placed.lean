import DomainDecomposition.Distributed.Basic
import DomainDecomposition.Proofs.BlockMatrix.Product
import DomainDecomposition.Proofs.Halo.Exchange
import DomainDecomposition.Proofs.Partition

/-!
# The parts of one matrix

A matrix is `Placed` at rank `r` of `n` ranks when it is what `ofParts` has put together there and
its halo is between two exchanges. When the matrices of all ranks are placed with the same offsets,
they are the parts of one matrix: every block in a table belongs to some rank
(`Placed.source_spec`), so an exchange finds all of them.

* `Fits.of_ofParts`: the constructors check that the pieces of a matrix fit together,
* `Placed.of_ofParts`: they leave a matrix that is placed,
* `Placed.leads_delivery`: an exchange fails where a block that a table lists has not been
  published,
* `Placed.leads_exchange`: an exchange fills every receive buffer with the blocks that its table
  lists,
* `remoteSum`: what the blocks of other ranks contribute to a row,
* `onTail_on`: operations on the trailing blocks of a vector.
-/

namespace DomainDecomposition

/-! ## Vectors of the same length -/

namespace Collective

variable {T R σ α : Type} {n : ℕ} {x y : Array T}

lemma on_checkLengths (hx : x.size = n) (hy : y.size = n) (c : Collective T R σ α) (s : σ) :
    (do checkLength n x.size; checkLength n y.size; c : Collective T R σ α).on s = c.on s := by
  simp only [on_bind, on_monadLift, checkLength, if_pos hx.symm, if_pos hy.symm, Program.done_bind]

/-- The first vector of another length is reported, and nothing else happens. -/
lemma on_checkLengths_of_ne (h : ¬(x.size = n ∧ y.size = n)) (c : Collective T R σ α) (s : σ) :
    (do checkLength n x.size; checkLength n y.size; c : Collective T R σ α).on s =
      .done (.error (.dimensionMismatch n (if x.size = n then y.size else x.size)), s) := by
  by_cases hx : x.size = n
  · have hy : n ≠ y.size := fun hy => h ⟨hx, hy.symm⟩
    simp only [on_bind, on_monadLift, checkLength, if_pos hx.symm, if_neg hy, if_pos hx,
      Program.done_bind]
  · simp only [on_bind, on_monadLift, checkLength, if_neg (Ne.symm hx), if_neg hx,
      Program.done_bind]

lemma on_checkSizes (hx : x.size = n) (hy : y.size = n) (c : Collective T R σ α) (s : σ) :
    (do checkSize n x.size; checkSize n y.size; c : Collective T R σ α).on s = c.on s := by
  simp only [on_bind, on_monadLift, checkSize_eq_ok.mpr hx.symm, checkSize_eq_ok.mpr hy.symm,
    Program.done_bind]

/-- The failure of a vector whose length is not the computed one. -/
def misfit (n length : ℕ) : Error :=
  Capacity.refusal n (.dimensionMismatch n length)

lemma on_checkSizes_of_ne (h : ¬(x.size = n ∧ y.size = n)) (c : Collective T R σ α) (s : σ) :
    (do checkSize n x.size; checkSize n y.size; c : Collective T R σ α).on s =
      .done (.error (misfit n (if x.size = n then y.size else x.size)), s) := by
  by_cases hx : x.size = n
  · have hy : n ≠ y.size := fun hy => h ⟨hx, hy.symm⟩
    simp only [on_bind, on_monadLift, checkSize, Capacity.compare, if_pos hx.symm, if_neg hy,
      if_pos hx, Program.done_bind]
    rfl
  · simp only [on_bind, on_monadLift, checkSize, Capacity.compare, if_neg (Ne.symm hx), if_neg hx,
      Program.done_bind]
    rfl

end Collective

namespace DistributedMatrix

open Outcome World

variable {T R α : Type}

/-! ## Operations on the trailing blocks of a vector -/

/-- An operation on the blocks from block `first` on leaves those before it alone. -/
lemma onTail_on [Zero T] {α : Type} {b first m start : ℕ} (hstart : start = first * b)
    (hfirst : first ≤ m) {y t : Array T} (hy : y.size = m * b) {u : Update (Array T) α} {a : α}
    (run : u.on (y.extract (first * b) (m * b)) = (.ok a, t)) (ht : t.size = (m - first) * b) :
    ∃ z, (onTail start u).on y = (.ok a, z) ∧ z.size = m * b ∧
      ∀ k, Block.part b z k =
        if k < first then Block.part b y k else Block.part b t (k - first) := by
  have hle : first * b ≤ m * b := Nat.mul_le_mul_right b hfirst
  have hhead : (y.extract 0 (first * b)).size = first * b := by
    rw [Array.size_extract, hy]
    omega
  refine ⟨y.extract 0 (first * b) ++ t, ?_, ?_, fun k => ?_⟩
  · rw [onTail, Update.on_focus, hstart, hy, run]
  · rw [Array.size_append, hhead, ht, Nat.sub_mul]
    omega
  · rw [Block.part, Span.chunk_append hhead, apply_ite (Block.toVec b)]
    by_cases hk : k < first
    · have hextract : Block.part b (y.extract (0 * b) (first * b)) k = Block.part b y (0 + k) :=
        Block.part_extract (by omega)
      rw [Nat.zero_mul, Nat.zero_add, Block.part] at hextract
      rw [if_pos hk, if_pos hk, hextract]
    · rw [if_neg hk, if_neg hk]
      rfl

/-! ## Layouts -/

lemma layoutOf_eq_ok {partition : RowPartition} {diagonal offDiagonal : BlockMatrix T}
    {remote : ℕ} {l : Layout} (h : layoutOf partition diagonal offDiagonal remote = .ok l) :
    (diagonal.rowCount = diagonal.columnCount ∧ offDiagonal.columnCount = remote ∧
      diagonal.blockSize = offDiagonal.blockSize) ∧
      offDiagonal.rowCount ≤ diagonal.rowCount ∧ partition.localSize = .ok diagonal.rowCount ∧
      l = { blockSize := diagonal.blockSize
            owned := diagonal.rowCount
            interface := offDiagonal.rowCount
            interior := diagonal.rowCount - offDiagonal.rowCount
            remote } := by
  unfold layoutOf at h
  simp only [throw_eq, pure_eq, error_bind, ite_not, ite_error_eq_ok, error_ite_eq_ok,
    bind_eq_ok] at h
  obtain ⟨hsquare, hinterface, hremote, hblock, mapped, hmapped, hrows, hl⟩ := h
  rw [hrows] at hmapped
  exact ⟨⟨hsquare, hremote, hblock⟩, Nat.not_lt.mp hinterface, hmapped,
    (Except.ok.inj hl).symm⟩

/-! ## Pieces that fit together -/

/-- The pieces of a matrix are valid and have the dimensions that its layout says. -/
structure Fits (store : Store T) (a : DistributedMatrix T) : Prop where
  layout : layoutOf a.partition (store.get a.diagonal) (store.get a.offDiagonal) a.layout.remote =
    .ok a.layout
  held_diagonal : store.Holds a.diagonal
  held_offDiagonal : store.Holds a.offDiagonal
  diagonal : (store.get a.diagonal).Valid
  offDiagonal : (store.get a.offDiagonal).Valid

/-- The constructor checks that the pieces fit together. -/
lemma Fits.of_ofParts [Zero T] {store : Store T} {partition : RowPartition}
    {diagonal offDiagonal : Handle} {table : Table T} {constraints : Option (Constraints T)}
    {a : DistributedMatrix T} (held_diagonal : store.Holds diagonal)
    (held_offDiagonal : store.Holds offDiagonal) (hdiagonal : (store.get diagonal).Valid)
    (hoffDiagonal : (store.get offDiagonal).Valid)
    (h : ofParts store partition diagonal offDiagonal table constraints = .ok a) :
    a.Fits store ∧ a.diagonal = diagonal ∧ a.offDiagonal = offDiagonal ∧
      a.partition = partition ∧ a.constraints = constraints := by
  unfold ofParts at h
  simp only [throw_eq, pure_eq, error_bind, error_ite_eq_ok, bind_eq_ok] at h
  obtain ⟨layout, hlayout, link, -, -, halo, -, ha⟩ := h
  obtain rfl := Except.ok.inj ha
  obtain ⟨-, -, -, hl⟩ := layoutOf_eq_ok hlayout
  have hremote : layout.remote = table.slots := by rw [hl]
  refine ⟨⟨?_, held_diagonal, held_offDiagonal, hdiagonal, hoffDiagonal⟩, rfl, rfl, rfl, rfl⟩
  rw [hremote]
  exact hlayout

namespace Fits

variable {store : Store T} {a : DistributedMatrix T}

lemma rows_diagonal (h : a.Fits store) : (store.get a.diagonal).rowCount = a.layout.owned := by
  obtain ⟨-, -, -, hl⟩ := layoutOf_eq_ok h.layout
  rw [hl]

lemma columns_diagonal (h : a.Fits store) :
    (store.get a.diagonal).columnCount = a.layout.owned := by
  obtain ⟨⟨hsquare, -⟩, -, -, -⟩ := layoutOf_eq_ok h.layout
  rw [← hsquare, h.rows_diagonal]

lemma blockSize_diagonal (h : a.Fits store) :
    (store.get a.diagonal).blockSize = a.layout.blockSize := by
  obtain ⟨-, -, -, hl⟩ := layoutOf_eq_ok h.layout
  rw [hl]

lemma rows_offDiagonal (h : a.Fits store) :
    (store.get a.offDiagonal).rowCount = a.layout.owned - a.layout.interior := by
  obtain ⟨-, hle, -, hl⟩ := layoutOf_eq_ok h.layout
  rw [hl]
  exact (Nat.sub_sub_self hle).symm

lemma columns_offDiagonal (h : a.Fits store) :
    (store.get a.offDiagonal).columnCount = a.layout.remote := by
  obtain ⟨⟨-, hremote, -⟩, -⟩ := layoutOf_eq_ok h.layout
  exact hremote

lemma blockSize_offDiagonal (h : a.Fits store) :
    (store.get a.offDiagonal).blockSize = a.layout.blockSize := by
  obtain ⟨⟨-, -, hblock⟩, -⟩ := layoutOf_eq_ok h.layout
  rw [← hblock, h.blockSize_diagonal]

lemma interface_eq (h : a.Fits store) :
    a.layout.interface = a.layout.owned - a.layout.interior := by
  obtain ⟨-, hle, -, hl⟩ := layoutOf_eq_ok h.layout
  rw [hl]
  exact (Nat.sub_sub_self hle).symm

lemma interior_le (h : a.Fits store) : a.layout.interior ≤ a.layout.owned := by
  obtain ⟨-, -, -, hl⟩ := layoutOf_eq_ok h.layout
  rw [hl]
  exact Nat.sub_le _ _

lemma localSize_eq (h : a.Fits store) : a.partition.localSize = .ok a.layout.owned := by
  obtain ⟨-, -, hlocal, -⟩ := layoutOf_eq_ok h.layout
  rw [hlocal, h.rows_diagonal]

end Fits

/-! ## Matrices that are placed -/

/-- The matrix that `ofParts` has put together at rank `r` of `n`, between two exchanges. -/
structure Placed (offsets : Array ℕ) (n r : ℕ) (store : Store T) (a : DistributedMatrix T) :
    Prop where
  partition : RowPartition.ofOffsets (.member r n) offsets = .ok a.partition
  table : Table.ofPartition a.partition a.table.blocks = .ok a.table
  layout : layoutOf a.partition (store.get a.diagonal) (store.get a.offDiagonal) a.table.slots =
    .ok a.layout
  held_diagonal : store.Holds a.diagonal
  held_offDiagonal : store.Holds a.offDiagonal
  diagonal : (store.get a.diagonal).Valid
  offDiagonal : (store.get a.offDiagonal).Valid
  halo : a.halo.Ready a.layout.blockSize (a.table.blocks.map a.partition.source)

/-- The constructors leave a matrix that is placed. -/
theorem Placed.of_ofParts [Zero T] {offsets : Array ℕ} {n r : ℕ} {store : Store T}
    {partition : RowPartition} {diagonal offDiagonal : Handle} {blocks : List ℕ} {table : Table T}
    {constraints : Option (Constraints T)} {a : DistributedMatrix T}
    (held_diagonal : store.Holds diagonal) (held_offDiagonal : store.Holds offDiagonal)
    (hdiagonal : (store.get diagonal).Valid) (hoffDiagonal : (store.get offDiagonal).Valid)
    (hpartition : RowPartition.ofOffsets (.member r n) offsets = .ok partition)
    (htable : Table.ofPartition partition blocks = .ok table)
    (h : ofParts store partition diagonal offDiagonal table constraints = .ok a) :
    a.Placed offsets n r store := by
  obtain ⟨hblocks, -, hlink⟩ := Table.ofPartition_eq_ok htable
  unfold ofParts at h
  simp only [throw_eq, pure_eq, error_bind, error_ite_eq_ok, bind_eq_ok] at h
  obtain ⟨layout, hlayout, link, hlinked, -, halo, hhalo, ha⟩ := h
  obtain rfl := Except.ok.inj ha
  obtain rfl := Except.ok.inj ((hlink layout.blockSize).symm.trans hlinked)
  obtain ⟨⟨-, hremote, -⟩, -, -, hl⟩ := layoutOf_eq_ok hlayout
  refine ⟨hpartition, ?_, hlayout, held_diagonal, held_offDiagonal, hdiagonal, hoffDiagonal, ?_⟩
  · rw [hblocks]
    exact htable
  · rw [hblocks]
    refine Halo.Ready.of_ofLink ?_ hhalo
    rw [hl, List.length_map, ← hblocks]
    rfl

/-- Only the two pieces of the store matter. -/
lemma Placed.of_get_eq {offsets : Array ℕ} {n r : ℕ} {store store' : Store T}
    {a : DistributedMatrix T} (h : a.Placed offsets n r store)
    (size : store.matrices.size ≤ store'.matrices.size)
    (diagonal : store'.get a.diagonal = store.get a.diagonal)
    (offDiagonal : store'.get a.offDiagonal = store.get a.offDiagonal) :
    a.Placed offsets n r store' where
  partition := h.partition
  table := h.table
  layout := by rw [diagonal, offDiagonal, h.layout]
  held_diagonal := Nat.lt_of_lt_of_le h.held_diagonal size
  held_offDiagonal := Nat.lt_of_lt_of_le h.held_offDiagonal size
  diagonal := by rw [diagonal]; exact h.diagonal
  offDiagonal := by rw [offDiagonal]; exact h.offDiagonal
  halo := h.halo

namespace Placed

variable {offsets : Array ℕ} {n r : ℕ} {store : Store T} {a : DistributedMatrix T}

lemma fits (h : a.Placed offsets n r store) : a.Fits store := by
  obtain ⟨-, -, -, hl⟩ := layoutOf_eq_ok h.layout
  have hremote : a.layout.remote = a.table.slots := by rw [hl]
  refine ⟨?_, h.held_diagonal, h.held_offDiagonal, h.diagonal, h.offDiagonal⟩
  rw [hremote]
  exact h.layout

lemma rows_diagonal (h : a.Placed offsets n r store) :
    (store.get a.diagonal).rowCount = a.layout.owned :=
  h.fits.rows_diagonal

lemma rows_offDiagonal (h : a.Placed offsets n r store) :
    (store.get a.offDiagonal).rowCount = a.layout.owned - a.layout.interior :=
  h.fits.rows_offDiagonal

lemma columns_offDiagonal (h : a.Placed offsets n r store) :
    (store.get a.offDiagonal).columnCount = a.table.blocks.length := by
  obtain ⟨⟨-, hremote, -⟩, -⟩ := layoutOf_eq_ok h.layout
  exact hremote

lemma blockSize_offDiagonal (h : a.Placed offsets n r store) :
    (store.get a.offDiagonal).blockSize = a.layout.blockSize :=
  h.fits.blockSize_offDiagonal

lemma interface_eq (h : a.Placed offsets n r store) :
    a.layout.interface = a.layout.owned - a.layout.interior :=
  h.fits.interface_eq

lemma interior_le (h : a.Placed offsets n r store) : a.layout.interior ≤ a.layout.owned :=
  h.fits.interior_le

/-- The partition is the one with the common offsets, and the rank owns as many rows as its run is
long. -/
lemma partition_spec (h : a.Placed offsets n r store) :
    a.partition = ⟨.member r n, offsets⟩ ∧ offsets.size = n + 1 ∧ offsets[0]? = some 0 ∧
      a.layout.owned = offsets.getD (r + 1) 0 - offsets.getD r 0 := by
  obtain ⟨hpartition, hsize, hfirst, -⟩ := RowPartition.ofOffsets_eq_ok h.partition
  obtain ⟨-, -, hlocal, -⟩ := layoutOf_eq_ok h.layout
  refine ⟨hpartition, hsize, hfirst, ?_⟩
  rw [← h.rows_diagonal, ← RowPartition.localSize_eq_ok hlocal, hpartition]
  rfl

end Placed

section Family

variable {offsets : Array ℕ} {n : ℕ} {store : ℕ → Store T} {a : ℕ → DistributedMatrix T}

/-- Every slot of a table is filled with a block that some rank owns. -/
lemma Placed.source_spec (placed : ∀ r < n, (a r).Placed offsets n r (store r)) {r g : ℕ}
    (hr : r < n) (hg : g ∈ (a r).table.blocks) :
    ∃ q < n, (a r).partition.ownerOf g = some q ∧
      (a r).partition.source g = (q, g - offsets.getD q 0) ∧
      g - offsets.getD q 0 < (a q).layout.owned := by
  obtain ⟨q, hq, howner, hsource, hlow, hhigh⟩ :=
    Table.source_spec (placed r hr).partition (placed r hr).table hg
  obtain ⟨-, -, -, howns⟩ := (placed q hq).partition_spec
  exact ⟨q, hq, howner, hsource, by omega⟩

/-! ## Exchanges -/

/-- The slots of a receive buffer hold the blocks that the table lists, where block `l` of rank `q`
is `v q l`. -/
structure Received [Zero T] (b : ℕ) (a : DistributedMatrix T) (received : Array T)
    (v : ℕ → ℕ → Fin b → T) : Prop where
  size : received.size = b * (a.table.blocks.map a.partition.source).length
  slots : ∀ c < a.table.blocks.length, Block.part b received c =
    v (a.partition.source (a.table.blocks.getD c 0)).1
      (a.partition.source (a.table.blocks.getD c 0)).2

/-- The outcome of an exchange for `m` slots, when the owners publish the vectors `x` from their
blocks `first` on and slot `c` is for block `(source c).2` of rank `(source c).1`: it fails exactly
when one of these blocks lies before. -/
structure Exchanged [Zero T] (b m : ℕ) (source : ℕ → ℕ × ℕ) (x : ℕ → Array T) (first : ℕ → ℕ)
    (result : Except Error Unit) (received : Array T) : Prop where
  ok_iff : result = .ok () ↔ ∀ c < m, first (source c).1 ≤ (source c).2
  fault : ∀ e, result = .error e → ∃ fault, e = .exchange fault
  size : received.size = m * b
  slots : result = .ok () → ∀ c < m, Block.part b received c =
    Block.part b (x (source c).1) ((source c).2 - first (source c).1)

section Exchange

variable [Zero T] (placed : ∀ r < n, (a r).Placed offsets n r (store r)) {b : ℕ} {halo : ℕ → Halo T}
variable (ready : ∀ r < n, (halo r).Ready b ((a r).table.blocks.map (a r).partition.source))
variable {x : ℕ → Array T} {first : ℕ → ℕ}
variable (hx : ∀ r < n, (x r).size = ((a r).layout.owned - first r) * b)

include placed ready hx

/-- When all ranks publish their vectors from block `first` on, an exchange finds the blocks that
the tables list unless they lie before. -/
lemma Placed.leads_delivery {world : World T R} (sized : world.Sized n) {P : ℕ → Program T R α}
    {B : ℕ → Except Error Ticket × Halo T → Program T R α}
    {K : ℕ → Except Error Unit × Halo T → Program T R α}
    (hP : ∀ r < n, P r = (Halo.begin (x r) (first r)).on (halo r) >>= B r)
    (hB : ∀ r < n, B r (.ok (halo r).ticket, (halo r).begun) =
      (Halo.finish (halo r).ticket).on (halo r).begun >>= K r) :
    ∃ (result : ℕ → Except Error Unit) (received : ℕ → Array T),
      (∀ r < n, Exchanged b (a r).table.blocks.length
        (fun c => (a r).partition.source ((a r).table.blocks.getD c 0)) x first (result r)
        (received r)) ∧
      Leads n P world (fun r => K r (result r, (halo r).ended (received r)))
        (world.withPublished n fun r => { values := x r, offset := first r }) := by
  have hsupplied : ∀ r < n, ∀ s ∈ (a r).table.blocks.map (a r).partition.source,
      s.1 < n ∧ (Link.Supplied b (some ⟨x s.1, first s.1⟩) s.2 ↔ first s.1 ≤ s.2) := by
    intro r hr s hs
    obtain ⟨g, hg, rfl⟩ := List.mem_map.mp hs
    obtain ⟨q, hq, -, hsource, hlocal⟩ := Placed.source_spec placed hr hg
    rw [hsource]
    refine ⟨hq, fun ⟨v, hv, behind, _⟩ => ?_, fun behind => ⟨_, rfl, behind, ?_⟩⟩
    · obtain rfl := Option.some.inj hv
      exact behind
    · rw [hx q hq]
      exact Span.succ_mul_le b (by simp only at behind ⊢; omega)
  obtain ⟨result, received, hdelivered, hleads⟩ := Halo.leads_delivery sized halo _ x first ready
    (fun r hr s hs => (hsupplied r hr s hs).1) hP hB
  refine ⟨result, received, fun r hr => ?_, hleads⟩
  obtain ⟨delivered, failure⟩ := hdelivered r hr
  have hslot : ∀ c < (a r).table.blocks.length,
      ((a r).table.blocks.map (a r).partition.source)[c]? =
        some ((a r).partition.source ((a r).table.blocks.getD c 0)) := by
    intro c hc
    rw [List.getElem?_map, List.getD_eq_getElem?_getD, List.getElem?_eq_getElem hc]
    rfl
  refine ⟨?_, fun e he => ?_, ?_, fun hok c hc => ?_⟩
  · rw [delivered.ok_iff, and_iff_right (ready r hr).size]
    constructor
    · intro supplied c hc
      have hmem := List.mem_of_getElem? (hslot c hc)
      exact (hsupplied r hr _ hmem).2.mp (supplied _ hmem)
    · intro behind s hs
      obtain ⟨c, hc, rfl⟩ := List.mem_iff_getElem.mp hs
      rw [List.length_map] at hc
      have hget := (List.getElem?_eq_some_iff.mp (hslot c hc)).2
      rw [hget] at hs ⊢
      exact (hsupplied r hr _ hs).2.mpr (behind c hc)
  · obtain ⟨s, hs, missing⟩ := failure e he
    refine missing.exists_fault fun v hv behind unsupplied => ?_
    obtain rfl := Option.some.inj hv
    exact absurd ((hsupplied r hr s hs).2.mpr behind) unsupplied
  · rw [delivered.size, (ready r hr).size, List.length_map, Nat.mul_comm]
  · exact congrArg (Block.toVec b) (delivered.slots hok c _ (hslot c hc))

/-- Provided that none of them lies before, an exchange finds all blocks that the tables list. -/
lemma Placed.leads_exchange
    (names : ∀ r < n, ∀ g ∈ (a r).table.blocks, ∀ q, (a r).partition.ownerOf g = some q →
      first q ≤ g - offsets.getD q 0)
    {world : World T R} (sized : world.Sized n) {P : ℕ → Program T R α}
    {B : ℕ → Except Error Ticket × Halo T → Program T R α}
    {K : ℕ → Except Error Unit × Halo T → Program T R α}
    (hP : ∀ r < n, P r = (Halo.begin (x r) (first r)).on (halo r) >>= B r)
    (hB : ∀ r < n, B r (.ok (halo r).ticket, (halo r).begun) =
      (Halo.finish (halo r).ticket).on (halo r).begun >>= K r) :
    ∃ received : ℕ → Array T,
      (∀ r < n, Received b (a r) (received r) fun q l => Block.part b (x q) (l - first q)) ∧
      Leads n P world (fun r => K r (.ok (), (halo r).ended (received r)))
        (world.withPublished n fun r => { values := x r, offset := first r }) := by
  obtain ⟨result, received, hexchanged, hleads⟩ := Placed.leads_delivery placed ready hx sized hP hB
  have hok : ∀ r < n, result r = .ok () := by
    intro r hr
    refine (hexchanged r hr).ok_iff.mpr fun c hc => ?_
    have hg : (a r).table.blocks.getD c 0 ∈ (a r).table.blocks := by
      rw [List.getD_eq_getElem?_getD, List.getElem?_eq_getElem hc]
      exact List.getElem_mem hc
    obtain ⟨q, -, howner, hsource, -⟩ := Placed.source_spec placed hr hg
    rw [hsource]
    exact names r hr _ hg q howner
  refine ⟨received, fun r hr => ⟨?_, (hexchanged r hr).slots (hok r hr)⟩, ?_⟩
  · rw [(hexchanged r hr).size, List.length_map, Nat.mul_comm]
  · exact hleads.trans (.of_eq _ fun r hr => by rw [hok r hr])

end Exchange

end Family

section RemoteSum

variable [NonUnitalNonAssocSemiring T] {b : ℕ}

/-- What the blocks of other ranks contribute to row `i` of a product, where block `l` of rank `q`
is `v q l`. Interior rows have no such blocks. -/
def remoteSum (b : ℕ) (store : Store T) (a : DistributedMatrix T) (v : ℕ → ℕ → Fin b → T)
    (i : ℕ) : Fin b → T :=
  if a.layout.interior ≤ i then
    ∑ c ∈ Finset.range a.table.blocks.length,
      ((store.get a.offDiagonal).coeff b (i - a.layout.interior) c).mulVec
        (v (a.partition.source (a.table.blocks.getD c 0)).1
          (a.partition.source (a.table.blocks.getD c 0)).2)
  else 0

/-- What the blocks of a receive buffer contribute to row `i` of a product. -/
def coupling (b : ℕ) (store : Store T) (a : DistributedMatrix T) (received : Array T) (i : ℕ) :
    Fin b → T :=
  if a.layout.interior ≤ i then
    ∑ c ∈ Finset.range a.layout.remote,
      ((store.get a.offDiagonal).coeff b (i - a.layout.interior) c).mulVec
        (Block.part b received c)
  else 0

/-- Only the blocks of the buffer matter. -/
lemma coupling_congr (store : Store T) {a : DistributedMatrix T} {received received' : Array T}
    (same : ∀ c < a.layout.remote, Block.part b received c = Block.part b received' c) (i : ℕ) :
    coupling b store a received i = coupling b store a received' i := by
  unfold coupling
  split
  · refine Finset.sum_congr rfl fun c hc => ?_
    rw [same c (Finset.mem_range.mp hc)]
  · rfl

/-- Only the blocks that the table lists matter. -/
lemma remoteSum_congr (store : Store T) {a : DistributedMatrix T} {v v' : ℕ → ℕ → Fin b → T}
    (same : ∀ g ∈ a.table.blocks, v (a.partition.source g).1 (a.partition.source g).2 =
      v' (a.partition.source g).1 (a.partition.source g).2) (i : ℕ) :
    remoteSum b store a v i = remoteSum b store a v' i := by
  unfold remoteSum
  split
  · refine Finset.sum_congr rfl fun c hc => ?_
    rw [Finset.mem_range] at hc
    rw [same _ (by rw [List.getD_eq_getElem?_getD, List.getElem?_eq_getElem hc]; simp)]
  · rfl

/-- The product with a receive buffer is what the remote blocks contribute. -/
lemma Received.sum_mulVec {a : DistributedMatrix T} {received : Array T} {v : ℕ → ℕ → Fin b → T}
    (h : Received b a received v) (store : Store T) {i : ℕ} (low : a.layout.interior ≤ i) :
    ∑ c ∈ Finset.range a.table.blocks.length,
      ((store.get a.offDiagonal).coeff b (i - a.layout.interior) c).mulVec
        (Block.part b received c) = remoteSum b store a v i := by
  rw [remoteSum, if_pos low]
  refine Finset.sum_congr rfl fun c hc => ?_
  rw [h.slots c (Finset.mem_range.mp hc)]

/-- A receive buffer that an exchange has filled contributes what the remote blocks do. -/
lemma Received.coupling_eq {offsets : Array ℕ} {n r : ℕ} {store : Store T} {a : DistributedMatrix T}
    {received : Array T} {v : ℕ → ℕ → Fin b → T} (h : Received b a received v)
    (placed : a.Placed offsets n r store) (i : ℕ) :
    coupling b store a received i = remoteSum b store a v i := by
  have slots : a.layout.remote = a.table.blocks.length :=
    placed.fits.columns_offDiagonal.symm.trans placed.columns_offDiagonal
  rw [coupling, slots]
  split
  case isTrue low => exact h.sum_mulVec store low
  case isFalse high => rw [remoteSum, if_neg high]

end RemoteSum

end DistributedMatrix

end DomainDecomposition
