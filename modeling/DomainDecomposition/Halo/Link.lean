import DomainDecomposition.Block
import DomainDecomposition.Halo.Flight
import DomainDecomposition.Partition
import DomainDecomposition.Rank.Collective

/-!
# Exchange of remote blocks

A `Table` lists the global blocks that an off-diagonal part refers to, one per slot of a receive
buffer. Every user of the table drives a `Link` of its own: `begin` supplies the own vector and
`finish` fills the receive buffer, and local work may go on between the two.

* On a single process every listed block is an own one. `begin` copies the blocks into a staging
  buffer, and `finish` hands the buffer over.
* In a world of ranks `begin` publishes the whole vector, and `finish` reads the listed blocks from
  the vectors of their owners, between two barriers: the first one so that everyone has published,
  the second so that nobody publishes again before all have read.
-/

namespace DomainDecomposition

variable {T R : Type}

/-- Block `block` of an owner whose vector starts at its block `offset`. -/
def readBlock (blockSize offset : Nat) (x : Array T) (block : Nat) : Except Error (Array T) :=
  let missing := Error.exchange (.blockNotStored block offset x.size)
  let stop := (block - offset) * blockSize + blockSize
  if block < offset then .error missing
  else if stop ≤ x.size then Span.run x ((block - offset) * blockSize) blockSize
  else .error (Capacity.refusal stop missing)

/-- Where the blocks of the receive buffer come from. -/
inductive Supply (T : Type) where
  /-- Own blocks, staged when the exchange is begun. -/
  | staged (blocks : List Nat) (buffer : Array T)
  /-- Blocks of other ranks: the owner, and the number of the block among its own. -/
  | remote (sources : List (Nat × Nat))

/-- One user's end of an exchange. -/
structure Link (T : Type) where
  blockSize : Nat
  flight : Flight
  supply : Supply T

namespace Link

/-- Number of blocks in the receive buffer. -/
def slots (l : Link T) : Nat :=
  match l.supply with
  | .staged blocks _ => blocks.length
  | .remote sources => sources.length

/-- An operation on the books of a link. -/
def onFlight {α : Type} (u : Update Flight α) : Update (Link T) α :=
  u.focus (·.flight) fun flight l => { l with flight }

/-- Copy blocks of the own vector into consecutive slots of a buffer, up to the first one that the
vector does not hold. -/
def stage (blockSize offset : Nat) (x : Array T) (blocks : List Nat) : Update (Array T) Unit :=
  blocks.zipIdx.forM fun (g, slot) => do
    let block ← readBlock blockSize offset x g
    modify fun buffer => Span.overwrite buffer (slot * blockSize) block

/-- Begin an exchange of the vector `x`, which holds the own blocks from `offset` on. A vector that
lacks a block of its own process begins nothing. Where the place of a block is no machine word, the
program stops before the ticket is taken back. -/
def begin (x : Array T) (offset : Nat) : Collective T R (Link T) Ticket := do
  let ticket ← Collective.ofUpdate (onFlight Flight.begin)
  let l ← get
  match l.supply with
  | .staged blocks buffer =>
    let (result, buffer) := (stage l.blockSize offset x blocks).on buffer
    match result with
    | .ok () =>
      set { l with supply := .staged blocks buffer }
      return ticket
    | .error e =>
      let flight := if e = .tooLarge then l.flight else l.flight.abort
      set { l with supply := .staged blocks buffer, flight }
      throw e
  | .remote _ =>
    Collective.ofProgram (Program.ask (.publish { values := x, offset }))
    return ticket

/-- Fill consecutive slots of a buffer with blocks that other ranks have published, up to the first
one that is missing. -/
def collect (blockSize : Nat) (sources : List (Nat × Nat)) : Collective T R (Array T) Unit :=
  sources.zipIdx.forM fun ((owner, g), slot) => do
    match ← Collective.ofProgram (Program.ask (.published owner)) with
    | none => throw (.exchange (.notPublished owner))
    | some vector => do
      let block ← readBlock blockSize vector.offset vector.values g
      modify fun buffer => Span.overwrite buffer (slot * blockSize) block

/-- Take back the ticket and check the length of the receive buffer. -/
def settle (ticket : Ticket) (length : Nat) : Update (Link T × Array T) Unit := do
  (onFlight (Flight.finish ticket)).onFst
  checkLength length (← get).2.size

/-- Finish the exchange that handed out `ticket`, filling the receive buffer beside the link. In a
world of ranks both barriers are passed even when this rank has failed. -/
def finish (ticket : Ticket) : Collective T R (Link T × Array T) Unit := do
  let (l, _) ← get
  match l.supply with
  | .staged _ buffer =>
    Collective.ofUpdate (settle ticket buffer.size)
    modify fun (l, _) => (l, buffer)
  | .remote sources =>
    let settled ← Collective.attempt
      (Collective.ofUpdate (settle ticket (l.blockSize * sources.length)))
    Collective.ofProgram (Program.ask .barrier)
    let result ← Collective.attempt do
      settled
      (collect l.blockSize sources).onSnd
    Collective.ofProgram (Program.ask .barrier)
    result

end Link

/-- The global blocks that fill the slots of a receive buffer, and how to reach them. -/
structure Table (T : Type) where
  blocks : List Nat
  /-- A new link for vectors of the given block size. -/
  link : Nat → Except Error (Link T)

namespace Table

/-- Number of slots. -/
def slots (t : Table T) : Nat :=
  t.blocks.length

/-- The table of a single process, which owns every listed block. -/
def single [Zero T] (blocks : List Nat) : Table T where
  blocks
  link blockSize := do
    return { blockSize
             flight := .idle
             supply := .staged blocks (← Block.allocate (blockSize * blocks.length)) }

/-- The table of a member of a world. Every listed block must have an owner. -/
def ofPartition (p : RowPartition) (blocks : List Nat) : Except Error (Table T) :=
  match blocks.find? fun g => (p.ownerOf g).isNone with
  | some g => .error (.config (.remoteRange g p.globalSize))
  | none =>
    .ok {
      blocks
      link blockSize :=
        .ok {
          blockSize
          flight := .idle
          supply := .remote (blocks.map fun g =>
            let owner := Offsets.runOf p.offsets g
            (owner, g - p.offsets.getD owner 0)) } }

end Table

/-- A link together with its receive buffer. -/
structure Halo (T : Type) where
  link : Link T
  received : Array T

namespace Halo

/-- A halo over a link, with a receive buffer for the given number of blocks. -/
def ofLink [Zero T] (link : Link T) (blockSize slots : Nat) : Except Error (Halo T) := do
  return { link, received := ← Block.allocate (blockSize * slots) }

/-- A new halo over a table. -/
def ofTable [Zero T] (t : Table T) (blockSize : Nat) : Except Error (Halo T) := do
  ofLink (← t.link blockSize) blockSize t.slots

/-- Begin an exchange of the own vector, which starts at the own block `offset`. -/
def begin (x : Array T) (offset : Nat) : Collective T R (Halo T) Ticket :=
  (Link.begin x offset).focus (·.link) fun link h => { h with link }

/-- Finish the exchange and keep what was received. -/
def finish (ticket : Ticket) : Collective T R (Halo T) Unit :=
  (Link.finish ticket).focus (fun h => (h.link, h.received))
    fun (link, received) _ => { link, received }

end Halo

end DomainDecomposition
