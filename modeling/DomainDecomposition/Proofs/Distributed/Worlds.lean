import DomainDecomposition.Proofs.Distributed.Global
import DomainDecomposition.Proofs.Distributed.Reuse

/-!
# Worlds of ranks and single processes

A distributed matrix belongs to a member of a world of ranks, whose exchanges read the blocks of
other members, or to a single process, whose exchanges copy blocks of its own. For what all ranks
compute together this makes no difference: when the matrices of all ranks are `Connected`, an
exchange fills slot `c` of the receive buffer of rank `r` from one fixed place, whatever the halos
have been used for before. Two operations that exchange the same vectors receive the same blocks.

* `Made.revalued`: matrices whose pieces have got other values,
* `Connected.leads_delivery`: an exchange of all ranks that publish a part of their blocks,
* `Connected.leads_exchange`: an exchange of all ranks,
* `Connected.orderly_mult`, `Connected.mult_of_finishes`: what the ranks get when they multiply
  together.
-/

namespace DomainDecomposition

open Outcome World

variable {T R : Type}

/-! ## Halos that have been used -/

namespace Halo

/-- The halo after other exchanges: with other tickets handed out, and something else in its
buffers. -/
def reused (h : Halo T) (number : ℕ) (staging received : Array T) : Halo T where
  link := {
    blockSize := h.link.blockSize
    flight := { nextNumber := number, pending := none }
    supply := match h.link.supply with
      | .staged blocks _ => .staged blocks staging
      | .remote sources => .remote sources }
  received := received

variable {h : Halo T} {b number : ℕ} {staging received : Array T}

lemma Ready.reused {sources : List (ℕ × ℕ)} (ready : h.Ready b sources)
    (size : received.size = h.received.size) :
    (h.reused number staging received).Ready b sources where
  blockSize := ready.blockSize
  idle := rfl
  supply := by
    rw [Halo.reused, ready.supply]
  size := size.trans ready.size

lemma Single.reused {blocks : List ℕ} (single : h.Single b blocks)
    (staged : staging.size = h.received.size) (size : received.size = h.received.size) :
    (h.reused number staging received).Single b blocks where
  blockSize := single.blockSize
  idle := rfl
  supply := by
    obtain ⟨buffer, supply, -⟩ := single.supply
    refine ⟨staging, ?_, staged.trans single.size⟩
    rw [Halo.reused, supply]
  size := size.trans single.size

/-- Two halos over the same places differ by other exchanges. -/
lemma Ready.exists_eq_reused {h' : Halo T} {sources : List (ℕ × ℕ)} (ready : h.Ready b sources)
    (ready' : h'.Ready b sources) :
    ∃ (number : ℕ) (staging received : Array T), staging.size = h.received.size ∧
      received.size = h.received.size ∧ h' = h.reused number staging received := by
  obtain ⟨⟨_, ⟨next, _⟩, _⟩, received⟩ := h'
  obtain ⟨⟨_, _, _⟩, _⟩ := h
  obtain ⟨rfl, -, rfl, size⟩ := ready
  obtain ⟨rfl, rfl, rfl, size'⟩ := ready'
  exact ⟨next, received, received, size'.trans size.symm, size'.trans size.symm, rfl⟩

/-- Two halos over the same own blocks differ by other exchanges. -/
lemma Single.exists_eq_reused {h' : Halo T} {blocks : List ℕ} (single : h.Single b blocks)
    (single' : h'.Single b blocks) :
    ∃ (number : ℕ) (staging received : Array T), staging.size = h.received.size ∧
      received.size = h.received.size ∧ h' = h.reused number staging received := by
  obtain ⟨⟨_, ⟨next, _⟩, _⟩, received⟩ := h'
  obtain ⟨⟨_, _, _⟩, _⟩ := h
  obtain ⟨rfl, -, ⟨_, rfl, -⟩, size⟩ := single
  obtain ⟨rfl, rfl, ⟨staging, rfl, room⟩, size'⟩ := single'
  exact ⟨next, staging, received, room.trans size.symm, size'.trans size.symm, rfl⟩

end Halo

namespace DistributedMatrix

/-! ## Connected ranks -/

section Connected

variable [Zero T]

/-- The matrix has been composed of valid pieces in the store. -/
structure Made (store : Store T) (a : DistributedMatrix T) : Prop where
  held_diagonal : store.Holds a.diagonal
  held_offDiagonal : store.Holds a.offDiagonal
  diagonal : (store.get a.diagonal).Valid
  offDiagonal : (store.get a.offDiagonal).Valid
  made : ofParts store a.partition a.diagonal a.offDiagonal a.table a.constraints = .ok a

lemma Made.fits {store : Store T} {a : DistributedMatrix T} (made : a.Made store) : a.Fits store :=
  (Fits.of_ofParts made.held_diagonal made.held_offDiagonal made.diagonal made.offDiagonal
    made.made).1

/-- There is a slot for every block of the table. -/
lemma Made.remote_eq {store : Store T} {a : DistributedMatrix T} (made : a.Made store) :
    a.layout.remote = a.table.blocks.length := by
  have composed := made.made
  unfold ofParts at composed
  simp only [throw_eq, pure_eq, error_bind, error_ite_eq_ok, bind_eq_ok] at composed
  obtain ⟨layout, hlayout, link, -, -, halo, -, ha⟩ := composed
  obtain ⟨-, -, -, hl⟩ := layoutOf_eq_ok hlayout
  have hremote : layout.remote = a.table.slots := by rw [hl]
  exact (congrArg (·.layout.remote) (Except.ok.inj ha)).symm.trans hremote

/-- The pieces still fit together once their values have changed. -/
lemma Made.revalued {store store' : Store T} {a : DistributedMatrix T} (made : a.Made store)
    (held : ∀ h, store.Holds h → store'.Holds h)
    (diagonal : (store'.get a.diagonal).Valid)
    (offDiagonal : (store'.get a.offDiagonal).Valid)
    (first : BlockMatrix.Revalued (store.get a.diagonal) (store'.get a.diagonal))
    (second : BlockMatrix.Revalued (store.get a.offDiagonal) (store'.get a.offDiagonal)) :
    a.Made store' where
  held_diagonal := held _ made.held_diagonal
  held_offDiagonal := held _ made.held_offDiagonal
  diagonal := diagonal
  offDiagonal := offDiagonal
  made := by
    have same := made.made
    unfold ofParts at same ⊢
    rwa [layoutOf_revalued first second]

/-- The matrices of `n` ranks belong together: they are those of members of a world that share a
partition, or the matrix of a single process that owns every block in its table. Slot `c` of rank
`r` is for block `(source r c).2` of rank `(source r c).1`. -/
inductive Connected (n : ℕ) (a : ℕ → DistributedMatrix T) : (ℕ → ℕ → ℕ × ℕ) → Prop
  | members {offsets : Array ℕ}
      (shared : ∀ r < n, RowPartition.ofOffsets (.member r n) offsets = .ok (a r).partition)
      (tables : ∀ r < n,
        Table.ofPartition (a r).partition (a r).table.blocks = .ok (a r).table) :
      Connected n a fun r c => (a r).partition.source ((a r).table.blocks.getD c 0)
  | single (alone : n = 1) (table : (a 0).table = .single (a 0).table.blocks)
      (owned : ∀ g ∈ (a 0).table.blocks, g < (a 0).layout.owned) :
      Connected n a fun _ c => (0, (a 0).table.blocks.getD c 0)

/-- The halo over the table of a matrix, between two exchanges. -/
def Rested (a : DistributedMatrix T) (halo : Halo T) : Prop :=
  ∃ (number : ℕ) (staging received : Array T), staging.size = a.halo.received.size ∧
    received.size = a.halo.received.size ∧ halo = a.halo.reused number staging received

/-- A receive buffer after an exchange of the vectors `x`: slot `c` holds block `(source c).2` of
rank `(source c).1`. -/
structure Filled (b : ℕ) (a : DistributedMatrix T) (source : ℕ → ℕ × ℕ) (x : ℕ → Array T)
    (received : Array T) : Prop where
  size : received.size = a.layout.remote * b
  slots : ∀ c < a.layout.remote,
    Block.part b received c = Block.part b (x (source c).1) (source c).2

variable {n b : ℕ} {store : ℕ → Store T} {a : ℕ → DistributedMatrix T} {source : ℕ → ℕ → ℕ × ℕ}

/-- The matrices of members are placed, and their exchanges read from other members. -/
lemma Made.placed {offsets : Array ℕ} {r : ℕ} {store : Store T} {a : DistributedMatrix T}
    (made : a.Made store) (shared : RowPartition.ofOffsets (.member r n) offsets = .ok a.partition)
    (table : Table.ofPartition a.partition a.table.blocks = .ok a.table) :
    a.Placed offsets n r store :=
  .of_ofParts made.held_diagonal made.held_offDiagonal made.diagonal made.offDiagonal shared table
    made.made

/-- The matrix of a single process exchanges with itself. -/
lemma Made.single {store : Store T} {a : DistributedMatrix T} (made : a.Made store)
    (table : a.table = .single a.table.blocks) :
    a.halo.Single a.layout.blockSize a.table.blocks := by
  obtain ⟨-, new⟩ := ofTable_of_ofParts made.made
  rw [table] at new
  exact .of_ofTable new

omit [Zero T] in
/-- A halo that has been used is as ready as a new one. -/
lemma Rested.ready {a : DistributedMatrix T} {halo : Halo T} {sources : List (ℕ × ℕ)}
    (rested : a.Rested halo) (ready : a.halo.Ready b sources) : halo.Ready b sources := by
  obtain ⟨number, staging, received, -, size, rfl⟩ := rested
  exact ready.reused size

omit [Zero T] in
lemma Rested.single {a : DistributedMatrix T} {halo : Halo T} {blocks : List ℕ}
    (rested : a.Rested halo) (single : a.halo.Single b blocks) : halo.Single b blocks := by
  obtain ⟨number, staging, received, staged, size, rfl⟩ := rested
  exact single.reused staged size

/-- New matrices are between two exchanges. -/
lemma Connected.rested (connected : Connected n a source) (made : ∀ r < n, (a r).Made (store r))
    {r : ℕ} (hr : r < n) : (a r).Rested (a r).halo := by
  cases connected with
  | members shared tables =>
    have ready := ((made r hr).placed (shared r hr) (tables r hr)).halo
    exact ready.exists_eq_reused ready
  | single alone table owned =>
    subst alone
    obtain rfl : r = 0 := Nat.lt_one_iff.mp hr
    have single := (made 0 hr).single table
    exact single.exists_eq_reused single

section Exchange

variable {α : Type} (connected : Connected n a source) (made : ∀ r < n, (a r).Made (store r))
variable (blockSize : ∀ r < n, (a r).layout.blockSize = b)
variable {halo : ℕ → Halo T} (rested : ∀ r < n, (a r).Rested (halo r)) {x : ℕ → Array T}
variable {world : World T R} (sized : world.Sized n) {P : ℕ → Program T R α}
variable {B : ℕ → Except Error Ticket × Halo T → Program T R α}
variable {K : ℕ → Except Error Unit × Halo T → Program T R α}

include connected made blockSize rested sized

/-- An exchange of all ranks that publish their vectors from block `first` on, whatever the halos
have been used for before. A single process finds out at the beginning that a block is missing, a
member of a world in the end. What a rank does with its result is up to the rank. -/
theorem Connected.leads_delivery {first : ℕ → ℕ}
    (hx : ∀ r < n, (x r).size = ((a r).layout.owned - first r) * b)
    (hP : ∀ r < n, P r = (Halo.begin (x r) (first r)).on (halo r) >>= B r)
    (hB : ∀ r < n, ∀ ticket h, B r (.ok ticket, h) = (Halo.finish ticket).on h >>= K r) :
    ∃ (result : ℕ → Except Error Unit) (halo' : ℕ → Halo T) (Q : ℕ → Program T R α)
      (target : World T R), Leads n P world Q target ∧ ∀ r < n, (a r).Rested (halo' r) ∧
        Exchanged b (a r).layout.remote (source r) x first (result r) (halo' r).received ∧
        (Q r = K r (result r, halo' r) ∨ ∃ e, result r = .error e ∧ Q r = B r (.error e, halo' r)) := by
  cases connected with
  | @members offsets shared tables =>
    have placed : ∀ r < n, (a r).Placed offsets n r (store r) :=
      fun r hr => (made r hr).placed (shared r hr) (tables r hr)
    have own : ∀ r < n, (a r).halo.Ready b ((a r).table.blocks.map (a r).partition.source) :=
      fun r hr => blockSize r hr ▸ (placed r hr).halo
    have ready := fun r hr => (rested r hr).ready (own r hr)
    obtain ⟨result, received, exchanged, leads⟩ := Placed.leads_delivery placed ready hx sized hP
      fun r hr => hB r hr _ _
    refine ⟨result, fun r => (halo r).ended (received r), _, _, leads, fun r hr => ⟨?_, ?_, .inl rfl⟩⟩
    · refine (own r hr).exists_eq_reused ((ready r hr).ended ?_)
      rw [(exchanged r hr).size, List.length_map, Nat.mul_comm]
    · rw [(made r hr).remote_eq]
      exact exchanged r hr
  | single alone table owned =>
    subst alone
    have remote := (made 0 Nat.one_pos).remote_eq
    have own : (a 0).halo.Single b (a 0).table.blocks :=
      blockSize 0 Nat.one_pos ▸ (made 0 Nat.one_pos).single table
    have stored : (∀ c < (a 0).layout.remote, first 0 ≤ (a 0).table.blocks.getD c 0) →
        ∀ g ∈ (a 0).table.blocks, first 0 ≤ g ∧ (g - first 0 + 1) * b ≤ (x 0).size := by
      intro behind g member
      obtain ⟨c, hc, rfl⟩ := List.mem_iff_getElem.mp member
      have hbehind := behind c (remote ▸ hc)
      rw [List.getD_eq_getElem?_getD, List.getElem?_eq_getElem hc, Option.getD_some] at hbehind
      have below := owned _ member
      rw [hx 0 Nat.one_pos]
      exact ⟨hbehind, Span.succ_mul_le b (by omega)⟩
    have fault : ∀ e, ownBlocks b (first 0) (x 0) (a 0).table.blocks = .error e →
        ∃ fault, e = .exchange fault := by
      intro e failed
      refine exists_fault_of_ownBlocks failed fun g member behind => .inl ?_
      have below := owned g member
      rw [hx 0 Nat.one_pos]
      exact Span.succ_mul_le b (by omega)
    obtain ⟨halo', single, received, run⟩ := ((rested 0 Nat.one_pos).single own).exchange (x 0)
      (first 0) fault (hB 0 Nat.one_pos)
    have size : halo'.received.size = (a 0).layout.remote * b := by
      rw [single.size, remote, Nat.mul_comm]
    have outcome : ∃ result, Exchanged b (a 0).layout.remote
        (fun c => (0, (a 0).table.blocks.getD c 0)) x first result halo'.received ∧
        (P 0 = K 0 (result, halo') ∨ ∃ e, result = .error e ∧ P 0 = B 0 (.error e, halo')) := by
      rw [hP 0 Nat.one_pos, run]
      cases found : ownBlocks b (first 0) (x 0) (a 0).table.blocks with
      | ok own =>
        have behind := stored_of_ownBlocks found
        obtain ⟨own', found', -, slots⟩ := ownBlocks_spec behind
        obtain rfl := Except.ok.inj (found.symm.trans found')
        refine ⟨.ok (), ⟨iff_of_true rfl fun c hc => (behind _ ?_).1, nofun, size, ?_⟩, .inl rfl⟩
        · rw [List.getD_eq_getElem?_getD, List.getElem?_eq_getElem (remote ▸ hc)]
          exact List.getElem_mem _
        · intro _ c hc
          rw [received own found]
          exact congrArg (Block.toVec b) (slots c (remote ▸ hc))
      | error e =>
        refine ⟨.error e, ⟨iff_of_false nofun fun behind => ?_, ?_, size, nofun⟩, .inr ⟨e, rfl, rfl⟩⟩
        · obtain ⟨own', found', -⟩ := ownBlocks_spec (stored behind)
          cases found.symm.trans found'
        · rintro _ ⟨⟩
          exact fault _ found
    obtain ⟨result, exchanged, next⟩ := outcome
    refine ⟨fun _ => result, fun _ => halo', P, world, .of_eq world fun _ _ => rfl, fun r hr => ?_⟩
    obtain rfl : r = 0 := Nat.lt_one_iff.mp hr
    exact ⟨own.exists_eq_reused single, exchanged, next⟩

/-- An exchange of all ranks fills every receive buffer, whatever the halos have been used for
before. What a rank does with its result is up to the rank. -/
theorem Connected.leads_exchange (hx : ∀ r < n, (x r).size = (a r).layout.owned * b)
    (hP : ∀ r < n, P r = (Halo.begin (x r) 0).on (halo r) >>= B r)
    (hB : ∀ r < n, ∀ ticket h, B r (.ok ticket, h) = (Halo.finish ticket).on h >>= K r) :
    ∃ (halo' : ℕ → Halo T) (target : World T R),
      (∀ r < n, Filled b (a r) (source r) x (halo' r).received) ∧
      Leads n P world (fun r => K r (.ok (), halo' r)) target := by
  obtain ⟨result, halo', Q, target, leads, outcome⟩ :=
    connected.leads_delivery made blockSize rested sized
      (show ∀ r < n, (x r).size = ((a r).layout.owned - 0) * b from hx) hP hB
  have hok : ∀ r < n, result r = .ok () := fun r hr =>
    (outcome r hr).2.1.ok_iff.mpr fun _ _ => Nat.zero_le _
  refine ⟨halo', target, fun r hr => ?_, leads.trans (.of_eq _ fun r hr => ?_)⟩
  · obtain ⟨-, exchanged, -⟩ := outcome r hr
    exact ⟨exchanged.size, exchanged.slots (hok r hr)⟩
  · obtain ⟨-, -, h | ⟨e, failed, -⟩⟩ := outcome r hr
    · rw [h, hok r hr]
    · cases (hok r hr).symm.trans failed

end Exchange

end Connected

/-! ### Three ranks, of which one owns nothing -/

lemma trioMatrix_connected : (∀ r < 3, (trioMatrix r).Made (trioStore r)) ∧
    Connected 3 trioMatrix fun r c =>
      (trioMatrix r).partition.source ((trioMatrix r).table.blocks.getD c 0) := by
  refine ⟨fun r hr => ?_, .members (fun r hr => (trioMatrix_made r hr).1) fun r hr =>
    (trioMatrix_made r hr).2.1⟩
  obtain ⟨⟨held, held'⟩, valid, valid'⟩ := trioStore_valid r hr
  exact ⟨held, held', valid, valid', (trioMatrix_made r hr).2.2⟩

/-! ## Products -/

section Products

variable [NonUnitalNonAssocSemiring T] {n b : ℕ} {store : ℕ → Store T}
variable {a : ℕ → DistributedMatrix T} {source : ℕ → ℕ → ℕ × ℕ}

variable (connected : Connected n a source) (made : ∀ r < n, (a r).Made (store r))
variable (blockSize : ∀ r < n, (a r).layout.blockSize = b)
variable {halo : ℕ → Halo T} (rested : ∀ r < n, (a r).Rested (halo r)) {x y : ℕ → Array T}
variable {world : World T R} (sized : world.Sized n)

include connected made blockSize rested sized

/-- When all ranks multiply vectors that fit, row `i` of every rank is row `i` of the diagonal piece
times the own vector, and what the receive buffer contributes. -/
theorem Connected.orderly_mult (hx : ∀ r < n, (x r).size = (a r).layout.owned * b)
    (hy : ∀ r < n, (y r).size = (a r).layout.owned * b) :
    ∃ (halo' : ℕ → Halo T) (z : ℕ → Array T),
      Orderly n (fun r => (.ok (), { a r with halo := halo' r }, z r))
        (fun r => (mult (store r) (x r)).on ({ a r with halo := halo r }, y r)) world ∧
      ∀ r < n, (z r).size = (a r).layout.owned * b ∧
        Filled b (a r) (source r) x (halo' r).received ∧
        ∀ i < (a r).layout.owned, Block.part b (z r) i =
          ∑ j ∈ Finset.range (a r).layout.owned,
            (((store r).get (a r).diagonal).coeff b i j).mulVec (Block.part b (x r) j) +
          coupling b (store r) (a r) (halo' r).received i := by
  have hlength : ∀ r < n, (a r).vectorLength = (a r).layout.owned * b := by
    intro r hr
    rw [vectorLength, blockSize r hr, Nat.mul_comm]
  have hlocal := fun r hr =>
    (made r hr).fits.mult_diagonal_spec (blockSize r hr) (hx r hr) (hy r hr)
  choose! z₀ hz₀ hz₀size hz₀parts using hlocal
  obtain ⟨halo', target, filled, leads⟩ := connected.leads_exchange made blockSize rested sized hx
    (fun r hr => mult_on (store r) { a r with halo := halo r }
      ((hx r hr).trans (hlength r hr).symm) ((hy r hr).trans (hlength r hr).symm))
    fun r hr ticket h => finishMult_on (store r) { a r with halo := halo r } (hz₀ r hr) ticket h
  have htail := fun r hr => (made r hr).fits.addReceived_spec (blockSize r hr) (hz₀size r hr)
    (filled r hr).size
  choose! z hz hzsize hzparts using htail
  refine ⟨halo', z, ?_, fun r hr => ⟨hzsize r hr, filled r hr, fun i hi => ?_⟩⟩
  · refine leads.orderly ((orderly_done n _ _).congr fun r hr => ?_)
    simp only [afterFinish, Update.on_onSnd, hz r hr]
  · rw [hzparts r hr i hi, hz₀parts r hr i hi]

/-- What the ranks get when they multiply together. -/
theorem Connected.mult_of_finishes {z : ℕ → Array T} {a' : ℕ → DistributedMatrix T}
    (finishes : Finishes n (fun r => (.ok (), a' r, z r))
      ⟨world, fun r => (mult (store r) (x r)).on ({ a r with halo := halo r }, y r)⟩) :
    ∃ received : ℕ → Array T, ∀ r < n, (x r).size = (a r).layout.owned * b ∧
      (z r).size = (a r).layout.owned * b ∧ Filled b (a r) (source r) x (received r) ∧
      ∀ i < (a r).layout.owned, Block.part b (z r) i =
        ∑ j ∈ Finset.range (a r).layout.owned,
          (((store r).get (a r).diagonal).coeff b i j).mulVec (Block.part b (x r) j) +
        coupling b (store r) (a r) (received r) i := by
  have run := (finishes.orderly fun r _ => alternates_mult (store r) (x r) _).runs
  -- a rank whose vectors do not fit would have refused
  have lengths : ∀ r < n, (x r).size = (a r).layout.owned * b ∧
      (y r).size = (a r).layout.owned * b := by
    intro r hr
    have hlength : (a r).vectorLength = (a r).layout.owned * b := by
      rw [vectorLength, blockSize r hr, Nat.mul_comm]
    rw [← hlength]
    by_contra apart
    have refused := mult_on_of_size_ne (R := R) { a r with halo := halo r } apart (store r)
    exact absurd (congrArg Prod.fst (run.of_done hr refused)) (by simp)
  obtain ⟨halo', w, orderly, product⟩ := connected.orderly_mult (R := R) made blockSize rested sized
    (fun r hr => (lengths r hr).1) fun r hr => (lengths r hr).2
  refine ⟨fun r => (halo' r).received, fun r hr => ⟨(lengths r hr).1, ?_⟩⟩
  -- the ranks end in one way only
  have same : z r = w r := congrArg (·.2.2) (run.unique orderly.runs r hr)
  rw [same]
  exact product r hr

end Products

end DistributedMatrix

end DomainDecomposition
