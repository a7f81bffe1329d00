import DomainDecomposition.Proofs.BlockMatrix.Validation
import DomainDecomposition.Proofs.Distributed.Product
import Mathlib.Data.Matrix.Basic

/-!
# The global matrix

The parts of a distributed matrix are read as one matrix in global numbering: rank `r` adds its
diagonal blocks behind the rows and columns of the ranks before it, and its off-diagonal blocks in
the columns that its table lists. `globalBlock` is this matrix, block by block.

When all ranks multiply their slices of a global vector, every rank gets its slice of the global
product (`mult_eq_global`). It does not matter in which order the ranks are served, which tickets
have been handed out before, or what the outputs and the receive buffers hold.

* `scatter`, `sum_scatter_mulVec`: blocks at global places, and the product with them,
* `Placed.globalRow_eq`: a row of the global product, from the pieces of its owner,
* `mult_eq_global`: the products of all ranks.
-/

namespace DomainDecomposition.DistributedMatrix

open World

variable {T R : Type} {b : ℕ}

/-! ## Blocks at global places -/

section Scatter

variable [NonUnitalNonAssocSemiring T]

/-- The blocks `M i j`, each added in row `row i` and column `column j`. -/
def scatter (rows columns : ℕ) (row column : ℕ → ℕ) (M : ℕ → ℕ → Matrix (Fin b) (Fin b) T)
    (I J : ℕ) : Matrix (Fin b) (Fin b) T :=
  ∑ i ∈ Finset.range rows, ∑ j ∈ Finset.range columns,
    if row i = I ∧ column j = J then M i j else 0

/-- Several blocks may share a column. Each of them meets the block of the vector there. -/
lemma sum_scatter_mulVec {rows columns N : ℕ} {row column : ℕ → ℕ}
    (inside : ∀ j < columns, column j < N) (M : ℕ → ℕ → Matrix (Fin b) (Fin b) T)
    (v : ℕ → Fin b → T) (I : ℕ) :
    ∑ J ∈ Finset.range N, (scatter rows columns row column M I J).mulVec (v J) =
      ∑ i ∈ Finset.range rows,
        if row i = I then ∑ j ∈ Finset.range columns, (M i j).mulVec (v (column j)) else 0 := by
  simp only [scatter, Matrix.sum_mulVec]
  rw [Finset.sum_comm]
  refine Finset.sum_congr rfl fun i _ => ?_
  rw [Finset.sum_comm]
  by_cases hrow : row i = I
  · rw [if_pos hrow]
    refine Finset.sum_congr rfl fun j hj => ?_
    have hcolumn := Finset.mem_range.mpr (inside j (Finset.mem_range.mp hj))
    have hsingle : ∀ J, (if row i = I ∧ column j = J then M i j else 0).mulVec (v J) =
        if column j = J then (M i j).mulVec (v J) else 0 := by
      intro J
      by_cases hJ : column j = J
      · rw [if_pos ⟨hrow, hJ⟩, if_pos hJ]
      · rw [if_neg (fun h => hJ h.2), if_neg hJ, Matrix.zero_mulVec]
    simp only [hsingle]
    rw [Finset.sum_ite_eq, if_pos hcolumn]
  · rw [if_neg hrow]
    refine Finset.sum_eq_zero fun j _ => Finset.sum_eq_zero fun J _ => ?_
    rw [if_neg (fun h => hrow h.1), Matrix.zero_mulVec]

/-- The rows of a run, numbered from `first` on, meet row `I` at most once. -/
lemma sum_ite_add_eq (m first I : ℕ) (f : ℕ → Fin b → T) :
    (∑ i ∈ Finset.range m, if first + i = I then f i else 0) =
      if first ≤ I ∧ I - first < m then f (I - first) else 0 := by
  by_cases hI : first ≤ I
  · have hiff : ∀ i, first + i = I ↔ I - first = i := by omega
    simp only [hiff, Finset.sum_ite_eq, Finset.mem_range, hI, true_and]
  · rw [if_neg (fun h => hI h.1)]
    exact Finset.sum_eq_zero fun i _ => if_neg (by omega)

/-- The blocks of one rank in global numbering, when `start` is its first row: the diagonal piece
behind its first row and column, and the off-diagonal piece behind its interior rows, in the columns
that its table lists. -/
def contribution (b start : ℕ) (store : Store T) (a : DistributedMatrix T) (I J : ℕ) :
    Matrix (Fin b) (Fin b) T :=
  scatter a.layout.owned a.layout.owned (start + ·) (start + ·)
      ((store.get a.diagonal).coeff b) I J +
    scatter a.layout.interface a.table.blocks.length (start + a.layout.interior + ·)
      (fun c => a.table.blocks.getD c 0) ((store.get a.offDiagonal).coeff b) I J

/-- Block `(I, J)` of the global matrix. -/
def globalBlock (b n : ℕ) (offsets : Array ℕ) (store : ℕ → Store T) (a : ℕ → DistributedMatrix T)
    (I J : ℕ) : Matrix (Fin b) (Fin b) T :=
  ∑ r ∈ Finset.range n, contribution b (offsets.getD r 0) (store r) (a r) I J

/-- Row `I` of the global product. -/
def globalRow (b n : ℕ) (offsets : Array ℕ) (store : ℕ → Store T) (a : ℕ → DistributedMatrix T)
    (x : Array T) (I : ℕ) : Fin b → T :=
  ∑ J ∈ Finset.range (offsets.back?.getD 0),
    (globalBlock b n offsets store a I J).mulVec (Block.part b x J)

end Scatter

/-! ## Places -/

/-- The part of a global vector that belongs to rank `r`. -/
def slice (b : ℕ) (offsets : Array ℕ) (x : Array T) (r : ℕ) : Array T :=
  x.extract (offsets.getD r 0 * b) (offsets.getD (r + 1) 0 * b)

section Places

variable {offsets : Array ℕ} {n : ℕ} {store : ℕ → Store T} {a : ℕ → DistributedMatrix T}

/-- The runs of the ranks lie one behind the other. -/
lemma Placed.start_le {r : ℕ} {store : Store T} {a : DistributedMatrix T}
    (h : a.Placed offsets n r store) {p q : ℕ} (hpq : p ≤ q) (hq : q ≤ n) :
    offsets.getD p 0 ≤ offsets.getD q 0 :=
  (RowPartition.consecutive h.partition).ordered hpq hq

/-- The rows of a rank end where those of the next one begin. -/
lemma Placed.start_add_owned {r : ℕ} {store : Store T} {a : DistributedMatrix T}
    (h : a.Placed offsets n r store) (hr : r < n) :
    offsets.getD r 0 + a.layout.owned = offsets.getD (r + 1) 0 := by
  obtain ⟨-, -, -, howned⟩ := h.partition_spec
  have hle := h.start_le (p := r) (q := r + 1) (Nat.le_succ r) hr
  omega

/-- The rows of all ranks end at the last offset. -/
lemma Placed.back_eq {r : ℕ} {store : Store T} {a : DistributedMatrix T}
    (h : a.Placed offsets n r store) : offsets.back?.getD 0 = offsets.getD n 0 :=
  (RowPartition.consecutive h.partition).back_eq

/-- A row has one owner. -/
lemma Placed.start_add_lt (placed : ∀ r < n, (a r).Placed offsets n r (store r)) {q r i : ℕ}
    (hq : q < n) (hr : r < n) (hi : i < (a r).layout.owned) (apart : q ≠ r) :
    ¬ (offsets.getD q 0 ≤ offsets.getD r 0 + i ∧
      offsets.getD r 0 + i < offsets.getD q 0 + (a q).layout.owned) := by
  have hr' := (placed r hr).start_add_owned hr
  have hq' := (placed q hq).start_add_owned hq
  rcases Nat.lt_or_gt_of_ne apart with hlt | hgt
  · have hle := (placed r hr).start_le (p := q + 1) hlt hr.le
    omega
  · have hle := (placed r hr).start_le (p := r + 1) hgt hq.le
    omega

/-- A block that a table lists comes from its place in the global numbering. -/
lemma Placed.source_add {r g : ℕ} {store : Store T} {a : DistributedMatrix T}
    (h : a.Placed offsets n r store) (hg : g ∈ a.table.blocks) :
    g < offsets.back?.getD 0 ∧
      offsets.getD (a.partition.source g).1 0 + (a.partition.source g).2 = g := by
  obtain ⟨q, hq, -, hsource, hlow, hhigh⟩ := Table.source_spec h.partition h.table hg
  have hlast := h.start_le (p := q + 1) hq le_rfl
  rw [h.back_eq, hsource]
  exact ⟨hhigh.trans_le hlast, Nat.add_sub_cancel' hlow⟩

lemma Placed.size_slice {r : ℕ} {store : Store T} {a : DistributedMatrix T}
    (h : a.Placed offsets n r store) (hr : r < n) {x : Array T}
    (hx : x.size = offsets.back?.getD 0 * b) :
    (slice b offsets x r).size = a.layout.owned * b := by
  have hend := h.start_add_owned hr
  have hle := Nat.mul_le_mul_right b (h.start_le (p := r + 1) hr le_rfl)
  rw [slice, Array.size_extract, hx, h.back_eq, Nat.min_eq_left hle, ← Nat.sub_mul]
  congr 1
  omega

lemma Placed.part_slice [Zero T] {r i : ℕ} {store : Store T} {a : DistributedMatrix T}
    (h : a.Placed offsets n r store) (hr : r < n) (hi : i < a.layout.owned) (x : Array T) :
    Block.part b (slice b offsets x r) i = Block.part b x (offsets.getD r 0 + i) := by
  have hend := h.start_add_owned hr
  exact Block.part_extract (by omega)

end Places

/-! ## Rows of the global product -/

section Rows

variable [NonUnitalNonAssocSemiring T] {offsets : Array ℕ} {n : ℕ}

/-- What a rank contributes to row `I`. -/
lemma Placed.sum_contribution_mulVec {r : ℕ} {store : Store T} {a : DistributedMatrix T}
    (h : a.Placed offsets n r store) (hr : r < n) (v : ℕ → Fin b → T) (I : ℕ) :
    ∑ J ∈ Finset.range (offsets.back?.getD 0),
      (contribution b (offsets.getD r 0) store a I J).mulVec (v J) =
    (if offsets.getD r 0 ≤ I ∧ I - offsets.getD r 0 < a.layout.owned then
      ∑ j ∈ Finset.range a.layout.owned, ((store.get a.diagonal).coeff b
        (I - offsets.getD r 0) j).mulVec (v (offsets.getD r 0 + j)) else 0) +
    if offsets.getD r 0 + a.layout.interior ≤ I ∧
        I - (offsets.getD r 0 + a.layout.interior) < a.layout.interface then
      ∑ c ∈ Finset.range a.table.blocks.length, ((store.get a.offDiagonal).coeff b
        (I - (offsets.getD r 0 + a.layout.interior)) c).mulVec (v (a.table.blocks.getD c 0))
      else 0 := by
  have hend := h.start_add_owned hr
  have hlast := h.start_le (p := r + 1) hr le_rfl
  have hcolumns : ∀ c < a.table.blocks.length, a.table.blocks.getD c 0 < offsets.back?.getD 0 := by
    intro c hc
    refine (h.source_add ?_).1
    rw [List.getD_eq_getElem?_getD, List.getElem?_eq_getElem hc]
    exact List.getElem_mem hc
  simp only [contribution, Matrix.add_mulVec, Finset.sum_add_distrib]
  rw [sum_scatter_mulVec (fun j hj => by rw [h.back_eq]; omega), sum_scatter_mulVec hcolumns,
    sum_ite_add_eq, sum_ite_add_eq]

/-- A row of the global product is made of the pieces of its owner. -/
lemma Placed.globalRow_eq {store : ℕ → Store T} {a : ℕ → DistributedMatrix T}
    (placed : ∀ r < n, (a r).Placed offsets n r (store r)) (x : Array T) {r i : ℕ} (hr : r < n)
    (hi : i < (a r).layout.owned) :
    globalRow b n offsets store a x (offsets.getD r 0 + i) =
      ∑ j ∈ Finset.range (a r).layout.owned, (((store r).get (a r).diagonal).coeff b i j).mulVec
        (Block.part b (slice b offsets x r) j) +
      remoteSum b (store r) (a r) (fun q => Block.part b (slice b offsets x q)) i := by
  have hinterface : ∀ q < n, (a q).layout.interior + (a q).layout.interface =
      (a q).layout.owned := by
    intro q hq
    rw [(placed q hq).interface_eq, Nat.add_sub_cancel' (placed q hq).interior_le]
  simp only [globalRow, globalBlock, Matrix.sum_mulVec]
  -- the row belongs to rank `r`, and no other rank contributes to it
  rw [Finset.sum_comm, Finset.sum_eq_single_of_mem r (Finset.mem_range.mpr hr)]
  · rw [(placed r hr).sum_contribution_mulVec hr, Nat.add_sub_cancel_left,
      if_pos ⟨Nat.le_add_right _ _, hi⟩]
    congr 1
    · refine Finset.sum_congr rfl fun j hj => ?_
      rw [(placed r hr).part_slice hr (Finset.mem_range.mp hj)]
    · -- the blocks that the table lists are those of their owners' slices
      have hremote : ∀ g ∈ (a r).table.blocks, Block.part b x g =
          Block.part b (slice b offsets x ((a r).partition.source g).1)
            ((a r).partition.source g).2 := by
        intro g hg
        obtain ⟨q, hq, -, hsource, hlocal⟩ := Placed.source_spec placed hr hg
        have hadd := ((placed r hr).source_add hg).2
        rw [hsource] at hadd ⊢
        rw [(placed q hq).part_slice hq hlocal, hadd]
      have hrow := hinterface r hr
      rw [remoteSum]
      refine (if_congr (by omega) ?_ rfl)
      refine Finset.sum_congr rfl fun c hc => ?_
      have hc' := Finset.mem_range.mp hc
      rw [Nat.add_sub_add_left, hremote _ (by
        rw [List.getD_eq_getElem?_getD, List.getElem?_eq_getElem hc']
        exact List.getElem_mem hc')]
  · intro q hq apart
    have hq' := Finset.mem_range.mp hq
    have hrow := hinterface q hq'
    have hother := Placed.start_add_lt placed hq' hr hi apart
    rw [(placed q hq').sum_contribution_mulVec hq', if_neg (by omega), if_neg (by omega), add_zero]

end Rows

/-! ## The product of all ranks -/

/-- The matrix after other exchanges: with other tickets handed out, and something else in the
receive buffer. -/
def reused (a : DistributedMatrix T) (number : ℕ) (received : Array T) : DistributedMatrix T :=
  { a with halo := {
      link := { a.halo.link with flight := { nextNumber := number, pending := none } }
      received } }

lemma Placed.reused {offsets : Array ℕ} {n r : ℕ} {store : Store T} {a : DistributedMatrix T}
    (h : a.Placed offsets n r store) (number : ℕ) {received : Array T}
    (hreceived : received.size = a.halo.received.size) :
    (a.reused number received).Placed offsets n r store :=
  { h with halo := ⟨h.halo.blockSize, rfl, h.halo.supply, hreceived.trans h.halo.size⟩ }

section Family

variable [NonUnitalNonAssocSemiring T] {offsets : Array ℕ} {n : ℕ}
variable {store : ℕ → Store T} {partition : ℕ → RowPartition} {diagonal offDiagonal : ℕ → Handle}
variable {blocks : ℕ → List ℕ} {table : ℕ → Table T} {constraints : ℕ → Option (Constraints T)}
variable {a : ℕ → DistributedMatrix T}

/-- When all ranks of a world multiply their slices of a global vector by matrices that were made
over one partition, every interleaving ends with each rank holding its slice of the global product.
-/
theorem mult_eq_global
    (held : ∀ r < n, (store r).Holds (diagonal r) ∧ (store r).Holds (offDiagonal r))
    (valid : ∀ r < n, ((store r).get (diagonal r)).Valid ∧ ((store r).get (offDiagonal r)).Valid)
    (shared : ∀ r < n, RowPartition.ofOffsets (.member r n) offsets = .ok (partition r))
    (tables : ∀ r < n, Table.ofPartition (partition r) (blocks r) = .ok (table r))
    (made : ∀ r < n, ofParts (store r) (partition r) (diagonal r) (offDiagonal r) (table r)
      (constraints r) = .ok (a r))
    (blockSize : ∀ r < n, (a r).layout.blockSize = b)
    {x : Array T} (hx : x.size = offsets.back?.getD 0 * b)
    {y received : ℕ → Array T} (hy : ∀ r < n, (y r).size = (a r).vectorLength)
    (hreceived : ∀ r < n, (received r).size = (a r).halo.received.size) (number : ℕ → ℕ)
    {world : World T R} (sized : world.Sized n) :
    ∃ (a' : ℕ → DistributedMatrix T) (z : ℕ → Array T),
      Settles n (fun r => (.ok (), a' r, z r)) ⟨world, fun r =>
        (mult (store r) (slice b offsets x r)).on ((a r).reused (number r) (received r), y r)⟩ ∧
      ∀ r < n, (z r).size = (a r).vectorLength ∧ ∀ i < (a r).layout.owned,
        Block.part b (z r) i = globalRow b n offsets store a x (offsets.getD r 0 + i) := by
  have hplaced : ∀ r < n, (a r).Placed offsets n r (store r) := fun r hr =>
    .of_ofParts (held r hr).1 (held r hr).2 (valid r hr).1 (valid r hr).2 (shared r hr)
      (tables r hr) (made r hr)
  have hlength : ∀ r < n, (a r).vectorLength = (a r).layout.owned * b := by
    intro r hr
    rw [vectorLength, blockSize r hr, Nat.mul_comm]
  -- the slices fit, so every rank gets the sums over its own blocks and those of its table
  obtain ⟨a', z, horderly, hz⟩ := orderly_mult
    (fun r hr => (hplaced r hr).reused (number r) (hreceived r hr)) blockSize
    (fun r hr => (hplaced r hr).size_slice hr hx) (fun r hr => by rw [hy r hr, hlength r hr]; rfl)
    sized
  refine ⟨a', z, horderly.settles, fun r hr => ?_⟩
  obtain ⟨-, hsize, hparts⟩ := hz r hr
  refine ⟨by rw [hsize, hlength r hr]; rfl, fun i hi => ?_⟩
  rw [hparts i hi, Placed.globalRow_eq hplaced x hr hi]
  rfl

end Family

/-! ### Three ranks, of which one owns nothing -/

/-- A matrix of scalars. -/
def scalarMatrix (rows columns : ℕ) (rowStart indices diagonal : Array ℕ) (values : Array ℚ) :
    BlockMatrix ℚ where
  blockSize := 1
  rowCount := rows
  columnCount := columns
  rowStart := rowStart
  columns := indices
  values := values
  diagonal := diagonal
  invertedDiagonal := #[]

/-- The pieces of rank `r`. Row 1 has entries for block 2 in two slots and for an own block. -/
def trioStore : ℕ → Store ℚ
  | 0 => ⟨#[scalarMatrix 2 2 #[0, 2, 3] #[0, 1, 1] #[0, 2] #[1, 1, 1],
      scalarMatrix 1 3 #[0, 3] #[0, 1, 2] #[] #[5, 3, 2]]⟩
  | 1 => ⟨#[scalarMatrix 0 0 #[0] #[] #[] #[], scalarMatrix 0 0 #[0] #[] #[] #[]]⟩
  | _ => ⟨#[scalarMatrix 1 1 #[0, 1] #[0] #[0] #[4], scalarMatrix 1 1 #[0, 1] #[0] #[0] #[11]]⟩

/-- The blocks that the table of rank `r` lists. -/
def trioBlocks : ℕ → List ℕ
  | 0 => [2, 0, 2]
  | 1 => []
  | _ => [1]

/-- Two rows, none and one. -/
def trioPartition (r : ℕ) : RowPartition :=
  ⟨.member r 3, #[0, 2, 2, 3]⟩

/-- The link of rank `r`. -/
def trioLink (r b : ℕ) : Link ℚ where
  blockSize := b
  flight := .idle
  supply := .remote ((trioBlocks r).map (trioPartition r).source)

/-- The matrix of rank `r`. -/
def trioMatrix (r : ℕ) : DistributedMatrix ℚ where
  partition := trioPartition r
  diagonal := ⟨0⟩
  offDiagonal := ⟨1⟩
  table := { blocks := trioBlocks r, link := fun b => .ok (trioLink r b) }
  constraints := none
  halo := { link := trioLink r 1, received := Array.replicate (trioBlocks r).length 0 }
  layout := [⟨1, 2, 1, 1, 3⟩, ⟨1, 0, 0, 0, 0⟩, ⟨1, 1, 1, 0, 1⟩].getD r ⟨1, 0, 0, 0, 0⟩

lemma trioStore_valid : ∀ r < 3, ((trioStore r).Holds ⟨0⟩ ∧ (trioStore r).Holds ⟨1⟩) ∧
    ((trioStore r).get ⟨0⟩).Valid ∧ ((trioStore r).get ⟨1⟩).Valid := by
  intro r hr
  obtain rfl | rfl | rfl : r = 0 ∨ r = 1 ∨ r = 2 := by omega
  all_goals exact ⟨⟨Nat.zero_lt_two, Nat.one_lt_two⟩, by decide +kernel, by decide +kernel⟩

lemma trioMatrix_made : ∀ r < 3,
    RowPartition.ofOffsets (.member r 3) #[0, 2, 2, 3] = .ok (trioPartition r) ∧
    Table.ofPartition (trioPartition r) (trioBlocks r) = .ok (trioMatrix r).table ∧
    ofParts (trioStore r) (trioPartition r) ⟨0⟩ ⟨1⟩ (trioMatrix r).table none =
      .ok (trioMatrix r) := by
  intro r hr
  obtain rfl | rfl | rfl : r = 0 ∨ r = 1 ∨ r = 2 := by omega
  all_goals exact ⟨rfl, rfl, rfl⟩

/-- Rank `r`'s part of the product with `(1, 10, 100)`. -/
def trioProduct : ℕ → Array ℚ
  | 0 => #[11, 713]
  | 1 => #[]
  | _ => #[510]

/-- The vector `(1, 10, 100)` times the matrix with rows `(1, 1, 0)`, `(3, 1, 7)` and `(0, 11, 4)`,
from outputs and receive buffers that are not zero. -/
theorem trio_mult_eq_global :
    ∃ (a' : ℕ → DistributedMatrix ℚ) (z : ℕ → Array ℚ),
      Settles 3 (fun r => (.ok (), a' r, z r)) ⟨(initial 3 : World ℚ ℚ), fun r =>
        (mult (trioStore r) (slice 1 #[0, 2, 2, 3] #[1, 10, 100] r)).on
          ((trioMatrix r).reused 7 (Array.replicate (trioBlocks r).length 9),
            Array.replicate (trioMatrix r).vectorLength 8)⟩ ∧
      ∀ r < 3, z r = trioProduct r := by
  obtain ⟨a', z, settles, hz⟩ := mult_eq_global (b := 1) (R := ℚ)
    (fun r hr => (trioStore_valid r hr).1) (fun r hr => (trioStore_valid r hr).2)
    (fun r hr => (trioMatrix_made r hr).1) (fun r hr => (trioMatrix_made r hr).2.1)
    (fun r hr => (trioMatrix_made r hr).2.2) (by decide)
    (show #[1, 10, 100].size = _ by decide) (fun _ _ => Array.size_replicate)
    (fun r _ => show (Array.replicate (trioBlocks r).length (9 : ℚ)).size = _ from
      Array.size_replicate.trans Array.size_replicate.symm) (fun _ => 7) (sized_initial 3)
  have hrows : ∀ r < 3, ∀ i < (trioMatrix r).layout.owned,
      globalRow 1 3 #[0, 2, 2, 3] trioStore trioMatrix #[1, 10, 100]
        (#[0, 2, 2, 3].getD r 0 + i) =
      Block.part 1 (trioProduct r) i := by
    decide +kernel
  have hsizes : ∀ r < 3, (trioMatrix r).vectorLength = (trioMatrix r).layout.owned * 1 ∧
      (trioProduct r).size = (trioMatrix r).layout.owned * 1 := by
    decide
  refine ⟨a', z, settles, fun r hr => ?_⟩
  obtain ⟨hsize, hparts⟩ := hz r hr
  obtain ⟨hlength, hexpected⟩ := hsizes r hr
  refine Block.eq_of_part_eq (hsize.trans hlength) hexpected fun i hi => ?_
  rw [hparts i hi, hrows r hr i hi]

end DomainDecomposition.DistributedMatrix
