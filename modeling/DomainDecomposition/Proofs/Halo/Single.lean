import DomainDecomposition.Proofs.Halo.Link
import DomainDecomposition.Proofs.Postcondition

/-!
# Exchange of a single process

A single process owns every block that its table lists: `begin` stages the blocks, and `finish`
hands them over. What is received depends on the own vector and on nothing that the buffers have
held before. Where a block is missing the exchange fails at its beginning, and no ticket stays out.

* `ownBlocks`, `ownBlocks_spec`: what a process receives from itself,
* `Link.stage_on`: the staging buffer, slot by slot,
* `Halo.Single`: no ticket is out and the buffers have the right lengths,
* `Halo.Single.exchange`: an exchange answers the own blocks and leaves the halo ready for the next
  one.
-/

namespace DomainDecomposition

open Outcome

variable {T R α : Type} {b offset : ℕ} {x : Array T}

/-! ## The own blocks -/

/-- The listed blocks, one behind the other, of a vector that starts at its block `offset`. -/
def ownBlocks (b offset : ℕ) (x : Array T) : List ℕ → Except Error (Array T)
  | [] => .ok #[]
  | g :: blocks => do
    let block ← readBlock b offset x g
    return block ++ (← ownBlocks b offset x blocks)

/-- A block is found, or it is missing. -/
lemma meets_readBlock (g : ℕ) :
    Meets (Link.Missing b (some ⟨x, offset⟩) g) (·.size = b) (readBlock b offset x g) := by
  by_cases stored : Link.Supplied b (some ⟨x, offset⟩) g
  · exact .of_eq_ok stored.readBlock_eq stored.size_blockOf
  · obtain ⟨e, unread, missing⟩ := Link.readBlock_of_not_supplied stored
    exact .of_eq_error unread missing

/-- All blocks are found, or one is missing. -/
lemma meets_ownBlocks (blocks : List ℕ) :
    Meets (fun e => ∃ g ∈ blocks, Link.Missing b (some ⟨x, offset⟩) g e)
      (·.size = b * blocks.length) (ownBlocks b offset x blocks) := by
  induction blocks with
  | nil => exact (Nat.mul_zero b).symm
  | cons g blocks ih =>
    have first : Meets (fun e => ∃ g' ∈ g :: blocks, Link.Missing b (some ⟨x, offset⟩) g' e)
        (·.size = b) (readBlock b offset x g) :=
      (meets_readBlock g).mono (fun e missing => ⟨g, List.mem_cons_self, missing⟩) fun _ => id
    refine first.bind fun block hblock => ?_
    refine (ih.mono (fun e failed => ?_) fun _ => id).bind fun own hown => ?_
    · obtain ⟨g', member, missing⟩ := failed
      exact ⟨g', List.mem_cons_of_mem g member, missing⟩
    · change (block ++ own).size = b * (blocks.length + 1)
      rw [Array.size_append, hblock, hown, Nat.mul_succ, Nat.add_comm]

/-- Where the vector holds all listed blocks, they are found one behind the other. -/
lemma ownBlocks_spec {blocks : List ℕ}
    (stored : ∀ g ∈ blocks, offset ≤ g ∧ (g - offset + 1) * b ≤ x.size) :
    ∃ own, ownBlocks b offset x blocks = .ok own ∧ own.size = blocks.length * b ∧
      ∀ c < blocks.length, Span.chunk b own c = Span.chunk b x (blocks.getD c 0 - offset) := by
  induction blocks with
  | nil => exact ⟨#[], rfl, (Nat.zero_mul b).symm, fun c hc => absurd hc (Nat.not_lt_zero c)⟩
  | cons g blocks ih =>
    obtain ⟨first, stored⟩ := List.forall_mem_cons.mp stored
    obtain ⟨own, found, size, slots⟩ := ih stored
    have read : readBlock b offset x g = .ok (Span.chunk b x (g - offset)) :=
      Link.Supplied.readBlock_eq (v := ⟨x, offset⟩) ⟨_, rfl, first⟩
    have hblock : (Span.chunk b x (g - offset)).size = b := Span.size_chunk first.2
    have hfirst : (Span.chunk b x (g - offset)).size = 1 * b := by rw [hblock, Nat.one_mul]
    refine ⟨Span.chunk b x (g - offset) ++ own, ?_, ?_, fun c hc => ?_⟩
    · rw [ownBlocks, read, ok_bind, found]
      rfl
    · rw [Array.size_append, hfirst, size, List.length_cons, ← Nat.add_mul, Nat.add_comm]
    · rw [Span.chunk_append hfirst]
      cases c with
      | zero => rw [if_pos Nat.one_pos, Span.chunk_zero hblock]; rfl
      | succ c =>
        rw [if_neg (by omega), Nat.add_sub_cancel, slots c (Nat.lt_of_succ_lt_succ hc)]
        rfl

/-- Otherwise one of them is missing. -/
lemma stored_of_ownBlocks {blocks : List ℕ} {own : Array T}
    (found : ownBlocks b offset x blocks = .ok own) :
    ∀ g ∈ blocks, offset ≤ g ∧ (g - offset + 1) * b ≤ x.size := by
  induction blocks generalizing own with
  | nil => exact fun g hg => absurd hg List.not_mem_nil
  | cons g blocks ih =>
    obtain ⟨block, read, rest⟩ := bind_eq_ok.mp found
    obtain ⟨own', found', -⟩ := bind_eq_ok.mp rest
    refine List.forall_mem_cons.mpr ⟨?_, ih found'⟩
    by_contra missing
    obtain ⟨e, unread, -⟩ := Link.readBlock_of_not_supplied (b := b) (v := ⟨x, offset⟩) (l := g) <| by
      rintro ⟨v, ⟨⟩, stored⟩
      exact missing stored
    cases read.symm.trans unread

/-- The listed blocks from `offset` on end at places that are machine words. -/
def Counted (b offset : ℕ) (blocks : List ℕ) : Prop :=
  ∀ g ∈ blocks, offset ≤ g → (g - offset + 1) * b < Capacity.words

/-- It is enough that the blocks do so when counted from the first one of all. -/
lemma Counted.of_zero {blocks : List ℕ} (counted : Counted b 0 blocks) :
    Counted b offset blocks := fun g member _ =>
  (Nat.mul_le_mul_right b (Nat.succ_le_succ (Nat.sub_le g offset))).trans_lt
    (counted g member (Nat.zero_le g))

/-- A block that is missing is the exchange's failure, provided that the blocks from `offset` on are
stored or end at places that are machine words. -/
lemma exists_fault_of_ownBlocks {blocks : List ℕ} {e : Error}
    (failed : ownBlocks b offset x blocks = .error e)
    (counted : ∀ g ∈ blocks, offset ≤ g →
      (g - offset + 1) * b ≤ x.size ∨ (g - offset + 1) * b < Capacity.words) :
    ∃ fault, e = .exchange fault := by
  have meets : Meets (fun e => ∃ g ∈ blocks, Link.Missing b (some ⟨x, offset⟩) g e)
      (·.size = b * blocks.length) (ownBlocks b offset x blocks) := meets_ownBlocks blocks
  rw [failed] at meets
  obtain ⟨g, member, missing⟩ := meets
  refine missing.exists_fault fun v hv behind unsupplied => ?_
  obtain rfl := Option.some.inj hv
  exact (counted g member behind).resolve_left fun inside => unsupplied ⟨_, rfl, behind, inside⟩

/-! ## Staging -/

namespace Link

/-- Copy one block of the own vector into a slot of a buffer. -/
def stageSlot (b offset : ℕ) (x : Array T) : ℕ × ℕ → Update (Array T) Unit
  | (g, slot) => do
    let block ← readBlock b offset x g
    modify fun buffer => Span.overwrite buffer (slot * b) block

/-- From slot `k` on a buffer holds the own blocks in the end, whatever it has held there. -/
lemma stage_on (offset : ℕ) (x : Array T) (blocks : List ℕ) {k : ℕ} {buffer : Array T}
    (room : buffer.size = (k + blocks.length) * b) :
    ∃ buffer', ((blocks.zipIdx k).forM (stageSlot b offset x)).on buffer =
        ((ownBlocks b offset x blocks).map fun _ => (), buffer') ∧
      buffer'.size = buffer.size ∧
      ∀ own, ownBlocks b offset x blocks = .ok own → buffer' = buffer.extract 0 (k * b) ++ own := by
  induction blocks generalizing k buffer with
  | nil =>
    refine ⟨buffer, rfl, rfl, ?_⟩
    rintro _ ⟨⟩
    rw [List.length_nil, Nat.add_zero] at room
    rw [Array.append_empty, ← room, Array.extract_size]
  | cons g blocks ih =>
    rw [List.length_cons] at room
    show ∃ buffer', ((stageSlot b offset x (g, k) >>= fun _ =>
      (blocks.zipIdx (k + 1)).forM (stageSlot b offset x)).on buffer = _) ∧ _
    have read : Meets (Missing b (some ⟨x, offset⟩) g) (·.size = b) (readBlock b offset x g) :=
      meets_readBlock g
    cases hread : readBlock b offset x g with
    | error e =>
      refine ⟨buffer, ?_, rfl, fun own hown => ?_⟩
      · rw [Update.on_bind, stageSlot, Update.on_bind, hread, ownBlocks, hread]
        rfl
      · rw [ownBlocks, hread] at hown
        cases hown
    | ok block =>
      rw [hread] at read
      have hblock : block.size = b := read
      have first : (stageSlot b offset x (g, k)).on buffer =
          (.ok (), Span.overwrite buffer (k * b) block) := by
        rw [stageSlot, Update.on_bind, hread]
        rfl
      have inside : k * b + block.size ≤ buffer.size := by
        rw [hblock, ← Nat.succ_mul, room]
        exact Nat.mul_le_mul_right b (by omega)
      have room' : (Span.overwrite buffer (k * b) block).size = (k + 1 + blocks.length) * b := by
        rw [Span.size_overwrite, room, Nat.add_right_comm, Nat.add_assoc]
      obtain ⟨buffer', rest, size, staged⟩ := ih room'
      refine ⟨buffer', ?_, size.trans (Span.size_overwrite ..), fun own hown => ?_⟩
      · rw [Update.on_bind_of_ok first, rest, ownBlocks, hread, ok_bind]
        cases ownBlocks b offset x blocks <;> rfl
      · rw [ownBlocks, hread, ok_bind] at hown
        obtain ⟨own', hown', happend⟩ := bind_eq_ok.mp hown
        obtain rfl := Except.ok.inj happend
        have last := Span.extract_overwrite_last inside
        rw [hblock, ← Nat.succ_mul] at last
        rw [staged own' hown', last, Array.append_assoc]

/-- A staging buffer holds the own blocks in the end. -/
lemma stage_spec (x : Array T) (offset : ℕ) (blocks : List ℕ) {buffer : Array T}
    (room : buffer.size = b * blocks.length) :
    ∃ buffer', (stage b offset x blocks).on buffer =
        ((ownBlocks b offset x blocks).map fun _ => (), buffer') ∧
      buffer'.size = b * blocks.length ∧
      ∀ own, ownBlocks b offset x blocks = .ok own → buffer' = own := by
  have slots : buffer.size = (0 + blocks.length) * b := by
    rw [room, Nat.zero_add, Nat.mul_comm]
  obtain ⟨buffer', run, size, staged⟩ := stage_on offset x blocks slots
  refine ⟨buffer', run, size.trans room, fun own found => ?_⟩
  rw [staged own found, Nat.zero_mul, Array.extract_zero, Array.empty_append]

/-! ## The two halves -/

variable {l : Link T} {blocks : List ℕ} {buffer buffer' : Array T}

/-- An exchange has begun when all blocks have been staged. -/
lemma begin_on_staged (idle : l.flight.pending = none) (supply : l.supply = .staged blocks buffer)
    (staged : (stage l.blockSize offset x blocks).on buffer = (.ok (), buffer')) :
    (begin x offset : Collective T R (Link T) Ticket).on l =
      .done (.ok l.ticket, { l.begun with supply := .staged blocks buffer' }) := by
  have hsupply : l.begun.supply = .staged blocks buffer := supply
  have hstaged : (stage l.begun.blockSize offset x blocks).on buffer = (.ok (), buffer') := staged
  rw [begin, Collective.on_bind, Collective.on_ofUpdate, onFlight_begin idle, Program.done_bind]
  simp only [Collective.on_bind, Collective.on_get, Program.done_bind, hsupply, hstaged]
  rfl

/-- A missing block takes the ticket back. -/
lemma begin_on_missing (idle : l.flight.pending = none) (supply : l.supply = .staged blocks buffer)
    {fault : ExchangeFault}
    (staged : (stage l.blockSize offset x blocks).on buffer = (.error (.exchange fault), buffer')) :
    (begin x offset : Collective T R (Link T) Ticket).on l =
      .done (.error (.exchange fault),
        { l.begun.landed with supply := .staged blocks buffer' }) := by
  have hsupply : l.begun.supply = .staged blocks buffer := supply
  have hstaged : (stage l.begun.blockSize offset x blocks).on buffer =
      (.error (.exchange fault), buffer') := staged
  have here : Error.exchange fault ≠ .tooLarge := fun h => by cases h
  rw [begin, Collective.on_bind, Collective.on_ofUpdate, onFlight_begin idle, Program.done_bind]
  simp only [Collective.on_bind, Collective.on_get, Program.done_bind, hsupply, hstaged,
    if_neg here]
  rfl

/-- Finishing hands over what has been staged. -/
lemma finish_on_staged {t : Ticket} (out : l.flight.pending = some t.number)
    (supply : l.supply = .staged blocks buffer) {received : Array T}
    (size : buffer.size = received.size) :
    (finish t : Collective T R (Link T × Array T) Unit).on (l, received) =
      .done (.ok (), l.landed, buffer) := by
  rw [finish, Collective.on_bind, Collective.on_get, Program.done_bind]
  simp only [supply, Collective.on_bind, Collective.on_ofUpdate, settle_on out, Program.done_bind,
    checkLength, if_pos size, Collective.on_modify]

/-- A receive buffer of a wrong length is left alone, and the exchange is over. -/
lemma finish_on_mismatch {t : Ticket} (out : l.flight.pending = some t.number)
    (supply : l.supply = .staged blocks buffer) {received : Array T}
    (size : buffer.size ≠ received.size) :
    (finish t : Collective T R (Link T × Array T) Unit).on (l, received) =
      .done (.error (.dimensionMismatch buffer.size received.size), l.landed, received) := by
  rw [finish, Collective.on_bind, Collective.on_get, Program.done_bind]
  simp only [supply, Collective.on_bind, Collective.on_ofUpdate, settle_on out, Program.done_bind,
    checkLength, if_neg size]

end Link

namespace Halo

/-- No ticket is out, and both buffers have room for the listed blocks of the own vector. -/
structure Single (b : ℕ) (blocks : List ℕ) (h : Halo T) : Prop where
  blockSize : h.link.blockSize = b
  idle : h.link.flight.pending = none
  supply : ∃ buffer, h.link.supply = .staged blocks buffer ∧ buffer.size = b * blocks.length
  size : h.received.size = b * blocks.length

variable {blocks : List ℕ} {h : Halo T}

/-- A new halo over the table of a single process. -/
lemma Single.of_ofTable [Zero T] (made : ofTable (Table.single blocks) b = .ok h) :
    h.Single b blocks := by
  unfold ofTable ofLink Table.single Table.slots Block.allocate at made
  simp only [pure_eq, bind_eq_ok] at made
  obtain ⟨link, ⟨buffer, ⟨-, -, hbuffer⟩, hlink⟩, received, ⟨-, -, hreceived⟩, hhalo⟩ := made
  obtain rfl := Except.ok.inj hhalo
  obtain rfl := Except.ok.inj hlink
  obtain rfl := Except.ok.inj hbuffer
  obtain rfl := Except.ok.inj hreceived
  exact ⟨rfl, rfl, ⟨_, rfl, Array.size_replicate⟩, Array.size_replicate⟩

/-- An exchange answers the own blocks, or why one of them is missing, and the next one may begin.
-/
lemma Single.exchange (single : h.Single b blocks) (x : Array T) (offset : ℕ)
    (fault : ∀ e, ownBlocks b offset x blocks = .error e → ∃ fault, e = .exchange fault)
    {B : Except Error Ticket × Halo T → Program T R α}
    {K : Except Error Unit × Halo T → Program T R α}
    (next : ∀ ticket h, B (.ok ticket, h) = (finish ticket).on h >>= K) :
    ∃ h' : Halo T, h'.Single b blocks ∧
      (∀ own, ownBlocks b offset x blocks = .ok own → h'.received = own) ∧
      (begin x offset).on h >>= B =
        match ownBlocks b offset x blocks with
        | .ok _ => K (.ok (), h')
        | .error e => B (.error e, h') := by
  obtain ⟨rfl, idle, ⟨buffer, supply, room⟩, size⟩ := single
  obtain ⟨buffer', run, room', staged⟩ := Link.stage_spec x offset blocks room
  cases hown : ownBlocks h.link.blockSize offset x blocks with
  | error e =>
    obtain ⟨fault, rfl⟩ := fault e hown
    rw [hown] at run
    refine ⟨⟨{ h.link.begun.landed with supply := .staged blocks buffer' }, h.received⟩,
      ⟨rfl, rfl, ⟨buffer', rfl, room'⟩, size⟩, nofun, ?_⟩
    rw [begin, Collective.on_focus, Link.begin_on_missing idle supply run]
    rfl
  | ok own =>
    rw [hown] at run
    have finished := Link.finish_on_staged (R := R) (t := h.link.ticket)
      (l := { h.link.begun with supply := .staged blocks buffer' }) rfl rfl
      (room'.trans size.symm)
    refine ⟨⟨{ h.link.begun.landed with supply := .staged blocks buffer' }, buffer'⟩,
      ⟨rfl, rfl, ⟨buffer', rfl, room'⟩, room'⟩, ?_, ?_⟩
    · rintro _ ⟨⟩
      exact staged own hown
    · rw [begin, Collective.on_focus, Link.begin_on_staged idle supply run]
      show B (.ok h.link.ticket, _) = _
      rw [next, finish, Collective.on_focus, finished]
      rfl

end Halo

end DomainDecomposition
