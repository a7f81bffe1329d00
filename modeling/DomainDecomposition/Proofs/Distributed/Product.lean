import DomainDecomposition.Proofs.Distributed.Placed

/-!
# The product with a distributed vector

When all ranks multiply together, block `i` of the result at a rank is row `i` of its diagonal piece
times the own vector, and for an interface row also what the blocks of other ranks contribute.

* `mult_on`: the product as an exchange with local work in between,
* `orderly_mult`: the products of all ranks.
-/

namespace DomainDecomposition.DistributedMatrix

open Outcome World

variable {T R : Type}

section Steps

variable [Zero T] [Add T] [Mul T]

/-- The rest of the product, once the exchange has begun. -/
def finishMult (store : Store T) (a : DistributedMatrix T) (x : Array T) (ticket : Ticket) :
    Collective T R (DistributedMatrix T × Array T) Unit := do
  let multiplied ← Collective.attempt (.ofUpdate ((store.get a.diagonal).mult x).onSnd)
  let exchanged ← Collective.attempt (onHalo (Halo.finish ticket)).onFst
  multiplied
  exchanged
  let received := (← get).1.halo.received
  Collective.ofUpdate
    (onTail a.layout.interfaceStart ((store.get a.offDiagonal).multAddInPlace received)).onSnd

/-- What follows the first half of the exchange. -/
def afterBegin (store : Store T) (a : DistributedMatrix T) (x y : Array T) :
    Except Error Ticket × Halo T → Program T R (Except Error Unit × DistributedMatrix T × Array T)
  | (.ok ticket, halo) => (finishMult store a x ticket).on ({ a with halo }, y)
  | (.error e, halo) => .done (.error e, { a with halo }, y)

/-- What follows the second half of the exchange, when the local product has succeeded. -/
def afterFinish (store : Store T) (a : DistributedMatrix T) (y : Array T) :
    Except Error Unit × Halo T → Program T R (Except Error Unit × DistributedMatrix T × Array T)
  | (.ok (), halo) => .done (((onTail a.layout.interfaceStart
      ((store.get a.offDiagonal).multAddInPlace halo.received)).onSnd).on ({ a with halo }, y))
  | (.error e, halo) => .done (.error e, { a with halo }, y)

lemma mult_on (store : Store T) (a : DistributedMatrix T) {x y : Array T}
    (hx : x.size = a.vectorLength) (hy : y.size = a.vectorLength) :
    (mult store x : Collective T R (DistributedMatrix T × Array T) Unit).on (a, y) =
      (Halo.begin x 0).on a.halo >>= afterBegin store a x y := by
  rw [mult, Collective.on_bind, Collective.on_get, Program.done_bind]
  refine (Collective.on_checkSizes hx hy _ _).trans ?_
  simp only [Collective.on_bind, Collective.onFst, onHalo, Collective.on_focus, Program.bind_bind,
    Program.done_bind]
  refine bind_congr fun s => ?_
  obtain ⟨e | ticket, halo⟩ := s
  · rfl
  · simp only [afterBegin, finishMult, Collective.on_bind, Collective.onFst, onHalo]

/-- Vectors of a wrong length are refused before any request, whatever the pieces hold. -/
lemma mult_on_of_size_ne (a : DistributedMatrix T) {x y : Array T}
    (h : ¬(x.size = a.vectorLength ∧ y.size = a.vectorLength)) (store : Store T) :
    (mult store x : Collective T R (DistributedMatrix T × Array T) Unit).on (a, y) =
      .done (.error (Collective.misfit a.vectorLength
        (if x.size = a.vectorLength then y.size else x.size)), a, y) := by
  rw [mult, Collective.on_bind, Collective.on_get, Program.done_bind]
  exact Collective.on_checkSizes_of_ne h _ _

/-- A product writes and reads by turns. -/
lemma alternates_mult (store : Store T) (x : Array T) : Collective.Alternates .writing
    (mult store x : Collective T R (DistributedMatrix T × Array T) Unit) := by
  unfold mult
  refine .bind .get fun s => .bind (.lift _) fun _ => .bind (.lift _) fun _ => ?_
  refine .bind (.focus (.focus (.focus (Link.alternates_begin x 0)))) fun ticket => ?_
  refine .bind (.attempt (.ofUpdate _)) fun _ => ?_
  refine .bind (.attempt (.focus (.focus (.focus (Link.alternates_finish ticket))))) fun _ => ?_
  exact .bind (.lift _) fun _ => .bind (.lift _) fun _ => .bind .get fun _ => .ofUpdate _

lemma finishMult_on (store : Store T) (a : DistributedMatrix T) {x y z : Array T}
    (run : ((store.get a.diagonal).mult x).on y = (.ok (), z)) (ticket : Ticket) (halo : Halo T) :
    (finishMult store a x ticket : Collective T R (DistributedMatrix T × Array T) Unit).on
        ({ a with halo }, y) =
      (Halo.finish ticket).on halo >>= afterFinish store a z := by
  rw [finishMult, Collective.on_bind, Collective.on_attempt, Collective.on_ofUpdate,
    Update.on_onSnd, run]
  simp only [Program.done_bind, Collective.on_bind, Collective.on_attempt, Collective.onFst,
    onHalo, Collective.on_focus, Program.bind_bind, Collective.on_monadLift]
  refine bind_congr fun s => ?_
  obtain ⟨e | ⟨⟩, halo⟩ := s
  · simp only [afterFinish]
  · simp only [Program.done_bind, afterFinish, Collective.on_get, Collective.on_ofUpdate]

end Steps

variable [NonUnitalNonAssocSemiring T]

section Pieces

variable {b : ℕ} {store : Store T} {a : DistributedMatrix T}

/-- The product with the diagonal piece. -/
lemma Fits.mult_diagonal_spec (h : a.Fits store) (blockSize : a.layout.blockSize = b)
    {x y : Array T} (hx : x.size = a.layout.owned * b) (hy : y.size = a.layout.owned * b) :
    ∃ z, ((store.get a.diagonal).mult x).on y = (.ok (), z) ∧ z.size = a.layout.owned * b ∧
      ∀ i < a.layout.owned, Block.part b z i = ∑ j ∈ Finset.range a.layout.owned,
        ((store.get a.diagonal).coeff b i j).mulVec (Block.part b x j) := by
  have hb := h.blockSize_diagonal.trans blockSize
  have hspec := BlockMatrix.mult_spec h.diagonal (x := x) (y := y)
    (by rw [hx, h.columns_diagonal, hb]) (by rw [hy, h.rows_diagonal, hb])
  rwa [h.rows_diagonal, h.columns_diagonal, hb] at hspec

/-- The product with what was received for the interface rows. -/
lemma Fits.mult_offDiagonal_spec (h : a.Fits store) (blockSize : a.layout.blockSize = b)
    {received y : Array T} (hreceived : received.size = a.layout.remote * b)
    (hy : y.size = a.layout.interface * b) :
    ∃ z, ((store.get a.offDiagonal).mult received).on y = (.ok (), z) ∧
      z.size = a.layout.interface * b ∧ ∀ i < a.layout.interface,
        Block.part b z i = coupling b store a received (a.layout.interior + i) := by
  have hb := h.blockSize_offDiagonal.trans blockSize
  have hrows := h.rows_offDiagonal.trans h.interface_eq.symm
  obtain ⟨z, hz, hzsize, hzparts⟩ := BlockMatrix.mult_spec h.offDiagonal (x := received) (y := y)
    (by rw [hreceived, h.columns_offDiagonal, hb]) (by rw [hy, hrows, hb])
  rw [hrows, hb] at hzsize
  rw [hrows, h.columns_offDiagonal, hb] at hzparts
  refine ⟨z, hz, hzsize, fun i hi => ?_⟩
  rw [hzparts i hi, coupling, if_pos (Nat.le_add_right _ _), Nat.add_sub_cancel_left]

/-- The interface rows take up what was received for them. -/
lemma Fits.addReceived_spec (h : a.Fits store) (blockSize : a.layout.blockSize = b)
    {received y : Array T} (hy : y.size = a.layout.owned * b)
    (hreceived : received.size = a.layout.remote * b) :
    ∃ z, (onTail a.layout.interfaceStart
        ((store.get a.offDiagonal).multAddInPlace received)).on y = (.ok (), z) ∧
      z.size = a.layout.owned * b ∧ ∀ i < a.layout.owned,
        Block.part b z i = Block.part b y i + coupling b store a received i := by
  have hb := h.blockSize_offDiagonal.trans blockSize
  have hextract : (y.extract (a.layout.interior * b) (a.layout.owned * b)).size =
      (a.layout.owned - a.layout.interior) * b := by
    rw [Array.size_extract, hy, Nat.min_self, Nat.sub_mul]
  obtain ⟨t, ht, htsize, htparts⟩ := BlockMatrix.multAddInPlace_spec h.offDiagonal
    (x := received) (y := y.extract (a.layout.interior * b) (a.layout.owned * b))
    (by rw [hreceived, h.columns_offDiagonal, hb]) (by rw [hextract, h.rows_offDiagonal, hb])
  rw [h.rows_offDiagonal, hb] at htsize
  rw [h.rows_offDiagonal, h.columns_offDiagonal, hb] at htparts
  have hstart : a.layout.interfaceStart = a.layout.interior * b := by
    rw [Layout.interfaceStart, blockSize, Nat.mul_comm]
  obtain ⟨z, hz, hzsize, hzparts⟩ := onTail_on hstart h.interior_le hy ht htsize
  refine ⟨z, hz, hzsize, fun i hi => ?_⟩
  rw [hzparts, coupling]
  by_cases hinterior : i < a.layout.interior
  · rw [if_pos hinterior, if_neg (by omega), add_zero]
  · rw [if_neg hinterior, if_pos (by omega), htparts _ (by omega),
      Block.part_extract (by omega), Nat.add_sub_cancel' (by omega)]

end Pieces

section Family

variable {offsets : Array ℕ} {n b : ℕ} {store : ℕ → Store T} {a : ℕ → DistributedMatrix T}

/-- When all ranks multiply, every rank gets its rows of the product. -/
theorem orderly_mult (placed : ∀ r < n, (a r).Placed offsets n r (store r))
    (blockSize : ∀ r < n, (a r).layout.blockSize = b) {x y : ℕ → Array T}
    (hx : ∀ r < n, (x r).size = (a r).layout.owned * b)
    (hy : ∀ r < n, (y r).size = (a r).layout.owned * b) {world : World T R}
    (sized : world.Sized n) :
    ∃ (a' : ℕ → DistributedMatrix T) (z : ℕ → Array T),
      Orderly n (fun r => (.ok (), a' r, z r))
        (fun r => (mult (store r) (x r)).on (a r, y r)) world ∧
      ∀ r < n, (a' r).Placed offsets n r (store r) ∧ (z r).size = (a r).layout.owned * b ∧
        ∀ i < (a r).layout.owned, Block.part b (z r) i =
          ∑ j ∈ Finset.range (a r).layout.owned,
            (((store r).get (a r).diagonal).coeff b i j).mulVec (Block.part b (x r) j) +
          remoteSum b (store r) (a r) (fun q => Block.part b (x q)) i := by
  have hlength : ∀ r < n, (a r).vectorLength = (a r).layout.owned * b := by
    intro r hr
    rw [vectorLength, blockSize r hr, Nat.mul_comm]
  have hlocal := fun r hr =>
    (placed r hr).fits.mult_diagonal_spec (blockSize r hr) (hx r hr) (hy r hr)
  choose! z₀ hz₀ hz₀size hz₀parts using hlocal
  -- every rank receives the blocks that its table lists
  obtain ⟨received, hreceived, hleads⟩ := Placed.leads_exchange placed (b := b)
    (fun r hr => by rw [← blockSize r hr]; exact (placed r hr).halo) hx
    (fun _ _ _ _ _ _ => Nat.zero_le _) sized
    (P := fun r => (mult (store r) (x r)).on (a r, y r))
    (B := fun r => afterBegin (store r) (a r) (x r) (y r))
    (K := fun r => afterFinish (store r) (a r) (z₀ r))
    (fun r hr => mult_on _ _ (by rw [hx r hr, hlength r hr]) (by rw [hy r hr, hlength r hr]))
    (fun r hr => finishMult_on _ _ (hz₀ r hr) _ _)
  have hroom : ∀ r < n, (received r).size = (a r).layout.remote * b := by
    intro r hr
    rw [(hreceived r hr).size, List.length_map, ← (placed r hr).columns_offDiagonal,
      (placed r hr).fits.columns_offDiagonal, Nat.mul_comm]
  have htail := fun r hr => (placed r hr).fits.addReceived_spec (blockSize r hr) (hz₀size r hr)
    (hroom r hr)
  choose! z hz hzsize hzparts using htail
  refine ⟨fun r => { a r with halo := (a r).halo.ended (received r) }, z, ?_, fun r hr => ?_⟩
  · refine hleads.orderly ((orderly_done n _ _).congr fun r hr => ?_)
    simp only [afterFinish, Update.on_onSnd, show ((a r).halo.ended (received r)).received =
      received r from rfl, hz r hr]
  · have h := placed r hr
    have hended := h.halo.ended (by rw [(hreceived r hr).size, blockSize r hr])
    refine ⟨{ h with halo := hended }, hzsize r hr, fun i hi => ?_⟩
    rw [hzparts r hr i hi, hz₀parts r hr i hi, (hreceived r hr).coupling_eq h]
    rfl

end Family

end DomainDecomposition.DistributedMatrix
