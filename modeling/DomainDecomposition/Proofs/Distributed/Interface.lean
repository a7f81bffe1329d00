import DomainDecomposition.Distributed.Interface
import DomainDecomposition.Proofs.BlockMatrix.Operator
import DomainDecomposition.Proofs.Distributed.Placed

/-!
# The product with the interface operator

The vectors of the interface operator hold the interface blocks alone, and a rank publishes them
from its first interface row on. When the blocks that the tables list are all interface blocks of
their owners, the exchange finds them, and the product is described by two triangular systems on the
interface rows.

* `Made`, `ofMatrix_ensures`: what the constructor makes of a matrix,
* `Placed`: an operator that belongs to a placed matrix,
* `finishProduct_spec`: the local part of the product,
* `orderly_mult`: the products of all ranks.
-/

namespace DomainDecomposition

open Outcome World

variable {T R : Type}

/-- The blocks of a sum of two vectors. -/
lemma Block.part_add [AddZeroClass T] {b : ℕ} {x y : Array T} (same : x.size = y.size) (j : ℕ) :
    part b (Array.zipWith (· + ·) x y) j = part b x j + part b y j := by
  funext k
  simp only [part, Pi.add_apply, toVec_apply, Array.getD_eq_getD_getElem?, Span.getElem?_chunk,
    if_pos k.isLt, Array.getElem?_zipWith]
  by_cases hk : j * b + k.val < x.size
  · rw [Array.getElem?_eq_getElem hk, Array.getElem?_eq_getElem (same ▸ hk)]
    rfl
  · rw [Array.getElem?_eq_none (by omega), Array.getElem?_eq_none (by omega)]
    exact (add_zero 0).symm

namespace InterfaceOperator

/-- What `ofMatrix` has made of a matrix and the factors of its diagonal piece. -/
structure Made [Zero T] (store : Store T) (a : DistributedMatrix T) (factors : Handle)
    (op : InterfaceOperator T) : Prop where
  communicator : op.partition.communicator = a.partition.communicator
  factors : op.factors = factors
  offDiagonal : op.offDiagonal = a.offDiagonal
  interior : op.interior = a.layout.interior
  vectorLength : op.vectorLength = a.layout.blockSize * a.layout.interface
  rows : (store.get op.factors).rowCount = a.layout.owned
  blockSize : (store.get op.factors).blockSize = a.layout.blockSize
  halo : Halo.ofTable a.table a.layout.blockSize = .ok op.halo

/-- The constructor tests the shape of the factors and makes a new halo over the table. -/
lemma ofMatrix_ensures [Zero T] (store : Store T) (a : DistributedMatrix T) (factors : Handle) :
    (ofMatrix store a factors : Program T R (Except Error (InterfaceOperator T))).Ensures
      fun result => ∀ op, result = .ok op → op.Made store a factors := by
  unfold ofMatrix
  dsimp only
  split
  · exact nofun
  · rename_i hshape
    simp only [not_or, not_not] at hshape
    refine Program.Ensures.bind (Q := fun p => p.communicator = a.partition.communicator) ?_ ?_
    · exact Program.Ensures.bind (Program.ensures_true _) fun _ _ => rfl
    intro partition hcommunicator op hop
    cases hhalo : Halo.ofTable a.table a.layout.blockSize with
    | error e => simp [hhalo, Except.map] at hop
    | ok halo =>
      rw [hhalo] at hop
      obtain rfl := Except.ok.inj hop
      exact ⟨hcommunicator, rfl, rfl, rfl, rfl, hshape.1, hshape.2.2, hhalo⟩

/-- The operator that `ofMatrix` makes for a placed matrix, between two exchanges. -/
structure Placed (n r : ℕ) (store : Store T) (a : DistributedMatrix T)
    (op : InterfaceOperator T) : Prop where
  communicator : op.partition.communicator = .member r n
  offDiagonal : op.offDiagonal = a.offDiagonal
  interior : op.interior = a.layout.interior
  vectorLength : op.vectorLength = a.layout.blockSize * a.layout.interface
  rows : (store.get op.factors).rowCount = a.layout.owned
  blockSize : (store.get op.factors).blockSize = a.layout.blockSize
  halo : op.halo.Ready a.layout.blockSize (a.table.blocks.map a.partition.source)

/-- The constructor makes an operator that belongs to the matrix. -/
lemma Placed.of_ofMatrix [Zero T] {offsets : Array ℕ} {n r : ℕ} {store : Store T}
    {a : DistributedMatrix T} (placed : a.Placed offsets n r store) (factors : Handle) :
    (ofMatrix store a factors : Program T R (Except Error (InterfaceOperator T))).Ensures
      fun result => ∀ op, result = .ok op → op.Placed n r store a ∧ op.factors = factors := by
  refine (ofMatrix_ensures store a factors).mono fun result made op hop => ?_
  obtain ⟨hcommunicator, hfactors, hoffDiagonal, hinterior, hlength, hrows, hblock, hhalo⟩ :=
    made op hop
  obtain ⟨hpartition, -⟩ := placed.partition_spec
  obtain ⟨-, -, hlink⟩ := Table.ofPartition_eq_ok placed.table
  rw [hpartition] at hcommunicator
  unfold Halo.ofTable at hhalo
  rw [hlink, ok_bind] at hhalo
  have hready := Halo.Ready.of_ofLink (by rw [List.length_map]; rfl) hhalo
  exact ⟨⟨hcommunicator, hoffDiagonal, hinterior, hlength, hrows, hblock, hready⟩, hfactors⟩

/-! ## The local part -/

/-- What is added to `w` solves the two triangular systems of the interface rows. -/
lemma finishProduct_spec [Field T] {f : BlockMatrix T} (h : f.Factored) {o : ℕ}
    (ho : o ≤ f.rowCount) {w y : Array T} (hw : w.size = (f.rowCount - o) * f.blockSize)
    (hy : y.size = (f.rowCount - o) * f.blockSize) :
    ∃ z, (finishProduct f o w).on y = (.ok (), z) ∧
      z.size = (f.rowCount - o) * f.blockSize ∧ ∃ s : ℕ → Fin f.blockSize → T,
        (∀ i, o ≤ i → i < f.rowCount → ∑ j ∈ Finset.Ico o f.rowCount,
          (f.lower f.blockSize i j).mulVec (s j) = Block.part f.blockSize y (i - o)) ∧
        ∀ i, o ≤ i → i < f.rowCount → ∑ j ∈ Finset.Ico o f.rowCount,
          (f.upper f.blockSize i j).mulVec (Block.part f.blockSize z (j - o) -
            Block.part f.blockSize w (j - o)) = s i := by
  obtain ⟨s, hs, hssize, hlower⟩ := h.applyLowerFrom_spec ho hy
  obtain ⟨u, hu, husize, hupper⟩ := h.applyUpperFrom_spec ho hssize
  refine ⟨Array.zipWith (· + ·) u w, ?_, ?_, fun j => Block.part f.blockSize s (j - o), hlower,
    fun i low high => ?_⟩
  · rw [finishProduct, Update.on_bind_of_ok hs, Update.on_bind_of_ok hu, Update.on_modify]
  · rw [Array.size_zipWith, husize, hw, Nat.min_self]
  · refine (Finset.sum_congr rfl fun j _ => ?_).trans (hupper i low high)
    rw [Block.part_add (husize.trans hw.symm), add_sub_cancel_right]

/-! ## The product of all ranks -/

section Requests

/-- What follows the second half of the exchange, where `u` makes the output of what was received.
-/
def afterFinish (op : InterfaceOperator T) (u : Array T → Update (Array T) Unit) (y : Array T) :
    Except Error Unit × Halo T → Program T R (Except Error Unit × InterfaceOperator T × Array T)
  | (.ok (), halo) => .done ((u halo.received).onSnd.on ({ op with halo }, y))
  | (.error e, halo) => .done (.error e, { op with halo }, y)

/-- What follows the first half of the exchange. -/
def afterBegin (op : InterfaceOperator T) (u : Array T → Update (Array T) Unit) (y : Array T) :
    Except Error Ticket × Halo T → Program T R (Except Error Unit × InterfaceOperator T × Array T)
  | (.ok ticket, halo) => (Halo.finish ticket).on halo >>= afterFinish op u y
  | (.error e, halo) => .done (.error e, { op with halo }, y)

variable [Zero T] [Add T] [Mul T] (store : Store T) (op : InterfaceOperator T) {w y : Array T}

lemma multRemote_on (hw : w.size = op.vectorLength) (hy : y.size = op.vectorLength) :
    (multRemote store w : Collective T R (InterfaceOperator T × Array T) Unit).on (op, y) =
      (Halo.begin w op.interior).on op.halo >>=
        afterBegin op (store.get op.offDiagonal).mult y := by
  rw [multRemote, Collective.on_bind, Collective.on_get, Program.done_bind]
  refine (Collective.on_checkSizes hw hy _ _).trans ?_
  simp only [Collective.on_bind, Collective.onFst, onHalo, Collective.on_focus, Program.bind_bind,
    Program.done_bind]
  refine bind_congr fun s => ?_
  obtain ⟨e | ticket, halo⟩ := s
  · rfl
  · refine bind_congr fun s => ?_
    obtain ⟨e | ⟨⟩, halo⟩ := s
    · rfl
    · rfl

/-- Vectors of a wrong length are refused before any request. -/
lemma multRemote_on_of_size_ne (h : ¬(w.size = op.vectorLength ∧ y.size = op.vectorLength)) :
    (multRemote store w : Collective T R (InterfaceOperator T × Array T) Unit).on (op, y) =
      .done (.error (Collective.misfit op.vectorLength
        (if w.size = op.vectorLength then y.size else w.size)), op, y) := by
  rw [multRemote, Collective.on_bind, Collective.on_get, Program.done_bind]
  exact Collective.on_checkSizes_of_ne h _ _

variable [Sub T]

/-- The local part of the product, once the remote blocks are there. -/
def localProduct (store : Store T) (op : InterfaceOperator T) (w received : Array T) :
    Update (Array T) Unit := do
  (store.get op.offDiagonal).mult received
  finishProduct (store.get op.factors) op.interior w

lemma mult_on (hw : w.size = op.vectorLength) (hy : y.size = op.vectorLength) :
    (mult store w : Collective T R (InterfaceOperator T × Array T) Unit).on (op, y) =
      (Halo.begin w op.interior).on op.halo >>= afterBegin op (localProduct store op w) y := by
  rw [mult, Collective.on_bind, multRemote_on store op hw hy, Program.bind_bind]
  refine bind_congr fun s => ?_
  obtain ⟨e | ticket, halo⟩ := s
  · rfl
  · simp only [afterBegin, Program.bind_bind]
    refine bind_congr fun s => ?_
    obtain ⟨e | ⟨⟩, halo⟩ := s
    · rfl
    · simp only [afterFinish, Program.done_bind, Update.on_onSnd, localProduct, Update.on_bind]
      rcases ((store.get op.offDiagonal).mult halo.received).on y with ⟨e | ⟨⟩, y'⟩
      · rfl
      · rfl

lemma mult_on_of_size_ne (h : ¬(w.size = op.vectorLength ∧ y.size = op.vectorLength)) :
    (mult store w : Collective T R (InterfaceOperator T × Array T) Unit).on (op, y) =
      .done (.error (Collective.misfit op.vectorLength
        (if w.size = op.vectorLength then y.size else w.size)), op, y) := by
  rw [mult, Collective.on_bind, multRemote_on_of_size_ne store op h, Program.done_bind]

omit op in
/-- A product writes and reads by turns. -/
lemma alternates_mult (w : Array T) : Collective.Alternates .writing
    (mult store w : Collective T R (InterfaceOperator T × Array T) Unit) := by
  unfold mult multRemote
  refine .bind (.bind .get fun s => ?_) fun _ => .bind .get fun s => .ofUpdate _
  refine .bind (.lift _) fun _ => .bind (.lift _) fun _ => ?_
  refine .bind (.focus (.focus (.focus (Link.alternates_begin w _)))) fun ticket => ?_
  refine .bind (.focus (.focus (.focus (Link.alternates_finish ticket)))) fun _ => ?_
  exact .bind .get fun _ => .ofUpdate _

end Requests

section Products

variable [Field T] {offsets : Array ℕ} {n b : ℕ}

/-- `z` is the product with `w` at one rank: what is added to `w` comes from the remote blocks `v`
by the two triangular systems of the interface rows. -/
def IsProduct (b : ℕ) (store : Store T) (a : DistributedMatrix T) (factors : BlockMatrix T)
    (v : ℕ → ℕ → Fin b → T) (w z : Array T) : Prop :=
  ∃ s : ℕ → Fin b → T,
    (∀ i, a.layout.interior ≤ i → i < a.layout.owned →
      ∑ j ∈ Finset.Ico a.layout.interior a.layout.owned, (factors.lower b i j).mulVec (s j) =
        DistributedMatrix.remoteSum b store a v i) ∧
    ∀ i, a.layout.interior ≤ i → i < a.layout.owned →
      ∑ j ∈ Finset.Ico a.layout.interior a.layout.owned, (factors.upper b i j).mulVec
        (Block.part b z (j - a.layout.interior) - Block.part b w (j - a.layout.interior)) = s i

lemma localProduct_spec {r : ℕ} {store : Store T} {a : DistributedMatrix T}
    {op : InterfaceOperator T} (placed : a.Placed offsets n r store)
    (operator : op.Placed n r store a) (factored : (store.get op.factors).Factored)
    (blockSize : a.layout.blockSize = b) {received w y : Array T} {v : ℕ → ℕ → Fin b → T}
    (hw : w.size = (a.layout.owned - a.layout.interior) * b)
    (hy : y.size = (a.layout.owned - a.layout.interior) * b)
    (hreceived : DistributedMatrix.Received b a received v) :
    ∃ z, (localProduct store op w received).on y = (.ok (), z) ∧
      z.size = (a.layout.owned - a.layout.interior) * b ∧
      IsProduct b store a (store.get op.factors) v w z := by
  have hb := placed.blockSize_offDiagonal.trans blockSize
  obtain ⟨t, ht, htsize, htparts⟩ := BlockMatrix.mult_spec placed.offDiagonal
    (x := received) (y := y) (by
      rw [hreceived.size, List.length_map, placed.columns_offDiagonal, hb, Nat.mul_comm])
    (by rw [hy, placed.rows_offDiagonal, hb])
  rw [placed.rows_offDiagonal, hb] at htsize
  rw [placed.rows_offDiagonal, placed.columns_offDiagonal, hb] at htparts
  have hfb := operator.blockSize.trans blockSize
  have hspec := finishProduct_spec factored (o := a.layout.interior) (w := w) (y := t)
    (by rw [operator.rows]; exact placed.interior_le) (by rw [operator.rows, hfb, hw])
    (by rw [operator.rows, hfb, htsize])
  rw [operator.rows, hfb] at hspec
  obtain ⟨z, hz, hzsize, s, hlower, hupper⟩ := hspec
  refine ⟨z, ?_, hzsize, s, fun i low high => ?_, hupper⟩
  · rw [localProduct, operator.offDiagonal, Update.on_bind_of_ok ht, operator.interior, hz]
  · rw [hlower i low high, htparts _ (by omega), hreceived.sum_mulVec store low]

variable {store : ℕ → Store T} {a : ℕ → DistributedMatrix T} {op : ℕ → InterfaceOperator T}

/-- When all ranks multiply interface vectors, every rank gets its part of the product, provided
that the tables list interface blocks only. -/
theorem orderly_mult (placed : ∀ r < n, (a r).Placed offsets n r (store r))
    (blockSize : ∀ r < n, (a r).layout.blockSize = b)
    (names : ∀ r < n, ∀ g ∈ (a r).table.blocks, ∀ q, (a r).partition.ownerOf g = some q →
      (a q).layout.interior ≤ g - offsets.getD q 0)
    (operator : ∀ r < n, (op r).Placed n r (store r) (a r))
    (factored : ∀ r < n, ((store r).get (op r).factors).Factored) {w y : ℕ → Array T}
    (hw : ∀ r < n, (w r).size = (op r).vectorLength)
    (hy : ∀ r < n, (y r).size = (op r).vectorLength) {world : World T R}
    (sized : world.Sized n) :
    ∃ (op' : ℕ → InterfaceOperator T) (z : ℕ → Array T),
      Orderly n (fun r => (.ok (), op' r, z r))
        (fun r => (mult (store r) (w r)).on (op r, y r)) world ∧
      ∀ r < n, (op' r).Placed n r (store r) (a r) ∧ (z r).size = (op r).vectorLength ∧
        IsProduct b (store r) (a r) ((store r).get (op r).factors)
          (fun q l => Block.part b (w q) (l - (a q).layout.interior)) (w r) (z r) := by
  have hlength : ∀ r < n,
      (op r).vectorLength = ((a r).layout.owned - (a r).layout.interior) * b := by
    intro r hr
    rw [(operator r hr).vectorLength, blockSize r hr, (placed r hr).interface_eq, Nat.mul_comm]
  -- every rank receives the blocks that its table lists
  obtain ⟨received, hreceived, hleads⟩ := DistributedMatrix.Placed.leads_exchange placed (b := b)
    (fun r hr => by rw [← blockSize r hr]; exact (operator r hr).halo)
    (fun r hr => by rw [hw r hr, hlength r hr]) names sized
    (P := fun r => (mult (store r) (w r)).on (op r, y r))
    (B := fun r => afterBegin (op r) (localProduct (store r) (op r) (w r)) (y r))
    (K := fun r => afterFinish (op r) (localProduct (store r) (op r) (w r)) (y r))
    (fun r hr => by rw [mult_on _ _ (hw r hr) (hy r hr), (operator r hr).interior])
    (fun _ _ => rfl)
  have hlocal := fun r hr => localProduct_spec (placed r hr) (operator r hr) (factored r hr)
    (blockSize r hr) (by rw [hw r hr, hlength r hr]) (by rw [hy r hr, hlength r hr])
    (hreceived r hr)
  choose! z hz hzsize hproduct using hlocal
  refine ⟨fun r => { op r with halo := (op r).halo.ended (received r) }, z, ?_, fun r hr => ?_⟩
  · refine hleads.orderly ((orderly_done n _ _).congr fun r hr => ?_)
    simp only [afterFinish, Update.on_onSnd, show ((op r).halo.ended (received r)).received =
      received r from rfl, hz r hr]
  · have h := operator r hr
    have hended := h.halo.ended (by rw [(hreceived r hr).size, blockSize r hr])
    exact ⟨{ h with halo := hended }, by rw [hzsize r hr, hlength r hr], hproduct r hr⟩

/-- What all ranks have computed together is the product. -/
theorem isProduct_of_runs (placed : ∀ r < n, (a r).Placed offsets n r (store r))
    (blockSize : ∀ r < n, (a r).layout.blockSize = b)
    (names : ∀ r < n, ∀ g ∈ (a r).table.blocks, ∀ q, (a r).partition.ownerOf g = some q →
      (a q).layout.interior ≤ g - offsets.getD q 0)
    (operator : ∀ r < n, (op r).Placed n r (store r) (a r))
    (factored : ∀ r < n, ((store r).get (op r).factors).Factored) {w y g : ℕ → Array T}
    {world : World T R} (sized : world.Sized n) {op' : ℕ → InterfaceOperator T}
    (run : Runs n (fun r => (mult (store r) (w r)).on (op r, y r)) world
      fun r => (.ok (), op' r, g r)) :
    ∀ r < n, (w r).size = (op r).vectorLength ∧
      IsProduct b (store r) (a r) ((store r).get (op r).factors)
        (fun q l => Block.part b (w q) (l - (a q).layout.interior)) (w r) (g r) := by
  have hsizes : ∀ r < n, (w r).size = (op r).vectorLength ∧ (y r).size = (op r).vectorLength := by
    intro r hr
    by_contra h
    have refused := mult_on_of_size_ne (R := R) (store r) (op r) h
    exact absurd (congrArg Prod.fst (run.of_done hr refused)) (by simp)
  obtain ⟨op'', z, hmult, hz⟩ := orderly_mult placed blockSize names operator factored
    (fun r hr => (hsizes r hr).1) (fun r hr => (hsizes r hr).2) sized
  intro r hr
  have hsame : g r = z r := congrArg (·.2.2) (run.unique hmult.runs r hr)
  rw [hsame]
  exact ⟨(hsizes r hr).1, (hz r hr).2.2⟩

end Products

end InterfaceOperator

end DomainDecomposition
