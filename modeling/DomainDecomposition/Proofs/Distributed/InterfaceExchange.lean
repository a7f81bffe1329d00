import DomainDecomposition.Proofs.Distributed.Interface
import DomainDecomposition.Proofs.Distributed.Worlds

/-!
# Exchanges of the interface alone

The product with the interface operator exchanges interface vectors: every rank publishes its vector
from its own first interface block on. The product with the matrix exchanges vectors of all owned
blocks. Both read the blocks that the tables list, so on vectors that are zero inside they agree, as
long as no table lists an interior block. A rank whose table does is told so by the exchange, and no
other rank notices.

* `Exchanged`: the outcome of an exchange, and when it fails,
* `orderly_multRemote`: the remote part of the product, on all ranks,
* `multRemote_agrees_mult`: it is what the product with the matrix adds to that with the diagonal
  piece.
-/

namespace DomainDecomposition.InterfaceOperator

open World
open DistributedMatrix (Connected Exchanged Filled coupling)

variable {T R : Type}

/-! ## Vectors that are zero inside -/

/-- The vector of all owned blocks that is `w` on the interface and zero inside. -/
def extended [Zero T] (b : ℕ) (a : DistributedMatrix T) (w : Array T) : Array T :=
  Block.zeros (a.layout.interior * b) ++ w

section Extended

variable [Zero T] {b : ℕ} {store : Store T} {a : DistributedMatrix T}

lemma size_extended (fits : a.Fits store) {w : Array T} (hw : w.size = a.layout.interface * b) :
    (extended b a w).size = a.layout.owned * b := by
  rw [extended, Array.size_append, Block.size_zeros, hw, fits.interface_eq, ← Nat.add_mul,
    Nat.add_sub_cancel' fits.interior_le]

lemma part_extended (a : DistributedMatrix T) (w : Array T) {l : ℕ} (behind : a.layout.interior ≤ l) :
    Block.part b (extended b a w) l = Block.part b w (l - a.layout.interior) := by
  rw [Block.part, extended, Span.chunk_append (Block.size_zeros _),
    if_neg (Nat.not_lt.mpr behind)]
  rfl

end Extended

/-! ## The remote part of the product -/

/-- A new operator has a halo of its own, which is like the new one of the matrix. -/
lemma Made.halo_eq [Zero T] {store : Store T} {a : DistributedMatrix T} {factors : Handle}
    {op : InterfaceOperator T} (operator : op.Made store a factors) (made : a.Made store) :
    op.halo = a.halo := by
  obtain ⟨-, hhalo⟩ := DistributedMatrix.ofTable_of_ofParts made.made
  exact Except.ok.inj (operator.halo.symm.trans hhalo)

section Products

variable [NonUnitalNonAssocRing T] {n b : ℕ} {store : ℕ → Store T} {a : ℕ → DistributedMatrix T}
variable {source : ℕ → ℕ → ℕ × ℕ} (connected : Connected n a source)
variable (made : ∀ r < n, (a r).Made (store r)) (blockSize : ∀ r < n, (a r).layout.blockSize = b)
variable {factors : ℕ → Handle} {op : ℕ → InterfaceOperator T}
variable {halo : ℕ → Halo T} (rested : ∀ r < n, (a r).Rested (halo r)) {w y : ℕ → Array T}
variable (hw : ∀ r < n, (w r).size = (a r).layout.interface * b)
variable (hy : ∀ r < n, (y r).size = (a r).layout.interface * b)
variable {world : World T R} (sized : world.Sized n)

include connected made blockSize rested hw hy sized

/-- When all ranks multiply interface vectors, every rank has either received the blocks that its
table lists and multiplied them by its off-diagonal piece, or it fails. -/
theorem orderly_multRemote (operator : ∀ r < n, (op r).Made (store r) (a r) (factors r)) :
    ∃ (result : ℕ → Except Error Unit) (halo' : ℕ → Halo T) (z : ℕ → Array T),
      Orderly n (fun r => (result r, { op r with halo := halo' r }, z r))
        (fun r => (multRemote (store r) (w r)).on ({ op r with halo := halo r }, y r)) world ∧
      ∀ r < n, (a r).Rested (halo' r) ∧
        Exchanged b (a r).layout.remote (source r) w (fun q => (a q).layout.interior) (result r)
          (halo' r).received ∧
        (result r = .ok () → (z r).size = (a r).layout.interface * b ∧
          ∀ i < (a r).layout.interface, Block.part b (z r) i =
            coupling b (store r) (a r) (halo' r).received ((a r).layout.interior + i)) := by
  have hlength : ∀ r < n, (op r).vectorLength = (a r).layout.interface * b := by
    intro r hr
    rw [(operator r hr).vectorLength, blockSize r hr, Nat.mul_comm]
  -- every rank publishes from its own first interface block on
  have hfirst : ∀ r < n, (w r).size = ((a r).layout.owned - (a r).layout.interior) * b := by
    intro r hr
    rw [hw r hr, (made r hr).fits.interface_eq]
  obtain ⟨result, halo', Q, target, leads, outcome⟩ := connected.leads_delivery made blockSize rested
    sized hfirst
    (P := fun r => (multRemote (store r) (w r)).on ({ op r with halo := halo r }, y r))
    (B := fun r => afterBegin { op r with halo := halo r } ((store r).get (op r).offDiagonal).mult (y r))
    (K := fun r => afterFinish { op r with halo := halo r } ((store r).get (op r).offDiagonal).mult (y r))
    (fun r hr => (multRemote_on (store r) { op r with halo := halo r }
      ((hw r hr).trans (hlength r hr).symm) ((hy r hr).trans (hlength r hr).symm)).trans
        (congrArg (fun o => (Halo.begin (w r) o).on (halo r) >>= _) (operator r hr).interior))
    fun _ _ _ _ => rfl
  have hlocal : ∀ r < n, ∃ z, Q r = .done (result r, { op r with halo := halo' r }, z) ∧
      (result r = .ok () → z.size = (a r).layout.interface * b ∧
        ∀ i < (a r).layout.interface, Block.part b z i =
          coupling b (store r) (a r) (halo' r).received ((a r).layout.interior + i)) := by
    intro r hr
    obtain ⟨-, exchanged, next⟩ := outcome r hr
    cases hresult : result r with
    | ok _ =>
      obtain ⟨z, hz, hparts⟩ := (made r hr).fits.mult_offDiagonal_spec (blockSize r hr)
        exchanged.size (hy r hr)
      rw [← (operator r hr).offDiagonal] at hz
      rw [hresult] at next
      obtain next | ⟨e, failed, -⟩ := next
      · refine ⟨z, ?_, fun _ => hparts⟩
        rw [next]
        simp only [afterFinish, Update.on_onSnd, hz]
      · cases failed
    | error e =>
      rw [hresult] at next
      refine ⟨y r, ?_, fun ok => by cases ok⟩
      obtain next | ⟨e', failed, next⟩ := next
      · rw [next]
        rfl
      · cases failed
        rw [next]
        rfl
  choose! z hz hparts using hlocal
  refine ⟨result, halo', z, leads.orderly ((orderly_done n _ target).congr hz), fun r hr => ?_⟩
  obtain ⟨rested', exchanged, -⟩ := outcome r hr
  exact ⟨rested', exchanged, hparts r hr⟩

/-- The product of all ranks with the interface vectors, and the product with the matrix of the
vectors that are zero inside. On a rank whose table lists interface blocks only, the first is what
the second adds to the product with the diagonal piece. It fails on the ranks whose tables list an
interior block of its owner, and on no other. -/
theorem multRemote_agrees_mult
    (built : ∀ r < n, (ofMatrix (store r) (a r) (factors r) :
      Program T R (Except Error (InterfaceOperator T))).Yields (.ok (op r)))
    {matrixHalo : ℕ → Halo T} (rested' : ∀ r < n, (a r).Rested (matrixHalo r)) {u : ℕ → Array T}
    (hu : ∀ r < n, (u r).size = (a r).layout.owned * b) {world' : World T R}
    (sized' : world'.Sized n) :
    ∃ (result : ℕ → Except Error Unit) (halo' matrixHalo' : ℕ → Halo T) (z product v : ℕ → Array T),
      Settles n (fun r => (result r, { op r with halo := halo' r }, z r)) ⟨world, fun r =>
        (multRemote (store r) (w r)).on ({ op r with halo := halo r }, y r)⟩ ∧
      Settles n (fun r => (.ok (), { a r with halo := matrixHalo' r }, product r)) ⟨world', fun r =>
        (DistributedMatrix.mult (store r) (extended b (a r) (w r))).on
          ({ a r with halo := matrixHalo r }, u r)⟩ ∧
      ∀ r < n,
        (((store r).get (a r).diagonal).mult (extended b (a r) (w r))).on (u r) = (.ok (), v r) ∧
        ((∀ c < (a r).layout.remote, (a (source r c).1).layout.interior ≤ (source r c).2) →
          result r = .ok () ∧ (z r).size = (a r).layout.interface * b ∧
          ∀ i < (a r).layout.interface, Block.part b (z r) i =
            Block.part b (product r) ((a r).layout.interior + i) -
              Block.part b (v r) ((a r).layout.interior + i)) ∧
        ((∃ fault, result r = .error (.exchange fault)) ↔
          ∃ c < (a r).layout.remote, (source r c).2 < (a (source r c).1).layout.interior) ∧
        (a r).Rested (op r).halo ∧ (a r).Rested (halo' r) := by
  have operator : ∀ r < n, (op r).Made (store r) (a r) (factors r) := fun r hr =>
    (ofMatrix_ensures (store r) (a r) (factors r)).of_yields (built r hr) (op r) rfl
  have hx := fun r hr => size_extended (made r hr).fits (hw r hr)
  obtain ⟨result, halo', z, remote, outcome⟩ :=
    orderly_multRemote connected made blockSize rested hw hy sized operator
  obtain ⟨matrixHalo', product, whole, hproduct⟩ :=
    connected.orderly_mult made blockSize rested' sized' hx hu
  have hlocal := fun r hr =>
    (made r hr).fits.mult_diagonal_spec (blockSize r hr) (hx r hr) (hu r hr)
  choose! v hv _ hvparts using hlocal
  refine ⟨result, halo', matrixHalo', z, product, v, remote.settles, whole.settles, fun r hr => ?_⟩
  obtain ⟨resting, exchanged, hz⟩ := outcome r hr
  obtain ⟨-, filled, hparts⟩ := hproduct r hr
  refine ⟨hv r hr, fun behind => ?_, ?_, ?_, resting⟩
  · have hok := exchanged.ok_iff.mpr behind
    obtain ⟨hzsize, hzparts⟩ := hz hok
    refine ⟨hok, hzsize, fun i hi => ?_⟩
    -- both exchanges have read the same blocks of the interface vectors
    have same : ∀ c < (a r).layout.remote, Block.part b (halo' r).received c =
        Block.part b (matrixHalo' r).received c := by
      intro c hc
      rw [exchanged.slots hok c hc, filled.slots c hc, part_extended _ _ (behind c hc)]
    have howned : (a r).layout.interior + i < (a r).layout.owned := by
      have := (made r hr).fits.interface_eq
      omega
    rw [hzparts i hi, hparts _ howned, hvparts r hr _ howned, add_sub_cancel_left]
    exact DistributedMatrix.coupling_congr (store r) same _
  · constructor
    · rintro ⟨fault, hfault⟩
      by_contra none
      have hok := exchanged.ok_iff.mpr fun c hc => Nat.not_lt.mp fun inside => none ⟨c, hc, inside⟩
      cases hok.symm.trans hfault
    · rintro ⟨c, hc, inside⟩
      cases hresult : result r with
      | ok _ => exact absurd inside (Nat.not_lt.mpr (exchanged.ok_iff.mp hresult c hc))
      | error e =>
        obtain ⟨fault, rfl⟩ := exchanged.fault e hresult
        exact ⟨fault, rfl⟩
  · rw [(operator r hr).halo_eq (made r hr)]
    exact connected.rested made hr

end Products

/-! ### Three ranks, of which one lists an interior block -/

/-- The interface operator of rank `r`, with the diagonal piece in place of its factors. -/
def trioOperator (r : ℕ) : InterfaceOperator ℚ where
  partition := ⟨.member r 3, #[0, 1, 1, 2]⟩
  factors := ⟨0⟩
  offDiagonal := ⟨1⟩
  halo := (DistributedMatrix.trioMatrix r).halo
  interior := (DistributedMatrix.trioMatrix r).layout.interior
  vectorLength := (DistributedMatrix.trioMatrix r).layout.interface

/-- The interface vectors of the ranks. -/
def trioInterface : ℕ → Array ℚ
  | 0 => #[10]
  | 1 => #[]
  | _ => #[100]

open DistributedMatrix in
/-- The table of rank 0 lists its own block 0, which is interior. Only rank 0 fails, and rank 2
receives the interface block of rank 0. -/
theorem trio_multRemote_agrees_mult :
    ∃ (result : ℕ → Except Error Unit) (halo' matrixHalo' : ℕ → Halo ℚ)
      (z product v : ℕ → Array ℚ),
      Settles 3 (fun r => (result r, { trioOperator r with halo := halo' r }, z r))
        ⟨(initial 3 : World ℚ ℚ), fun r => (multRemote (trioStore r) (trioInterface r)).on
          (trioOperator r, Array.replicate (trioMatrix r).layout.interface 7)⟩ ∧
      Settles 3 (fun r => (.ok (), { trioMatrix r with halo := matrixHalo' r }, product r))
        ⟨(initial 3 : World ℚ ℚ), fun r =>
          (DistributedMatrix.mult (trioStore r) (extended 1 (trioMatrix r) (trioInterface r))).on
            (trioMatrix r, Array.replicate (trioMatrix r).layout.owned 8)⟩ ∧
      (∃ fault, result 0 = .error (.exchange fault)) ∧ result 1 = .ok () ∧ result 2 = .ok () ∧
      Block.part 1 (z 2) 0 = Block.part 1 (product 2) 0 - Block.part 1 (v 2) 0 ∧ v 2 = #[400] := by
  obtain ⟨made, connected⟩ := trioMatrix_connected
  have rested : ∀ r < 3, (trioMatrix r).Rested (trioMatrix r).halo :=
    fun r hr => connected.rested made hr
  have built : ∀ r < 3, (ofMatrix (trioStore r) (trioMatrix r) ⟨0⟩ :
      Program ℚ ℚ (Except Error (InterfaceOperator ℚ))).Yields (.ok (trioOperator r)) := by
    intro r hr
    obtain rfl | rfl | rfl : r = 0 ∨ r = 1 ∨ r = 2 := by omega
    all_goals exact ⟨(), (), 1, 0, 1, (), rfl⟩
  obtain ⟨result, halo', matrixHalo', z, product, v, remote, whole, outcome⟩ :=
    multRemote_agrees_mult (R := ℚ) (b := 1)
      connected made (by decide) rested (w := trioInterface)
      (y := fun r => Array.replicate (trioMatrix r).layout.interface 7) (by decide) (by decide)
      (sized_initial 3) built rested (u := fun r => Array.replicate (trioMatrix r).layout.owned 8)
      (by decide) (sized_initial 3)
  refine ⟨result, halo', matrixHalo', z, product, v, remote, whole, ?_, ?_, ?_, ?_, ?_⟩
  · exact (outcome 0 (by decide)).2.2.1.mpr ⟨1, by decide, by decide⟩
  · exact ((outcome 1 (by decide)).2.1 (by decide)).1
  · exact ((outcome 2 (by decide)).2.1 (by decide)).1
  · exact ((outcome 2 (by decide)).2.1 (by decide)).2.2 0 (by decide)
  · exact (congrArg Prod.snd (outcome 2 (by decide)).1).symm.trans (by decide +kernel)

end DomainDecomposition.InterfaceOperator
