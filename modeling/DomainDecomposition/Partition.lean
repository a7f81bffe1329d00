import DomainDecomposition.Capacity
import DomainDecomposition.Offsets
import DomainDecomposition.Rank.Communicator
import DomainDecomposition.Span

/-!
# Ownership of block rows

The block rows of a distributed matrix are dealt out to the ranks in consecutive runs. Every rank
holds the same offsets and knows its own number from its communicator. Ranks may own no rows.
-/

namespace DomainDecomposition

/-- Rank `p` owns the global blocks from `offsets[p]` up to `offsets[p + 1]`. -/
structure RowPartition where
  communicator : Communicator
  offsets : Array Nat

namespace RowPartition

variable {T R : Type}

/-- The partition with the given offsets: one more than there are ranks, starting at zero and never
descending. -/
def ofOffsets (communicator : Communicator) (offsets : Array Nat) : Except Error RowPartition :=
  if offsets.size ≠ communicator.size + 1 then
    .error (.config (.offsetCount offsets.size communicator.size))
  else if offsets[0]? = some 0 ∧ Offsets.ascending offsets.toList then
    .ok { communicator, offsets }
  else .error (.config .offsetOrder)

/-- The partition that gives every rank as many blocks as it asks for. All ranks take part. Nothing
is tested, so the offsets are what the machine makes of the sums: remainders, where there are more
blocks than machine words. -/
def ofLocalSize (communicator : Communicator) (blocks : Nat) : Program T R RowPartition := do
  let sizes ← communicator.gather blocks
  let offsets := (Offsets.ofLengths sizes).toList.map (· % Capacity.words)
  return { communicator, offsets := offsets.toArray }

/-- Number of this rank. -/
def rank (p : RowPartition) : Nat :=
  p.communicator.rank

/-- First global block owned by this rank, and the first one after its run. -/
def range (p : RowPartition) : Except Error (Nat × Nat) := do
  return (← Span.item p.offsets p.rank, ← Span.item p.offsets (p.rank + 1))

/-- Number of blocks owned by this rank. -/
def localSize (p : RowPartition) : Except Error Nat := do
  let (start, stop) ← p.range
  return stop - start

/-- Number of blocks owned by all ranks together. -/
def globalSize (p : RowPartition) : Nat :=
  p.offsets.back?.getD 0

/-- The rank that owns global block `g`. -/
def ownerOf (p : RowPartition) (g : Nat) : Option Nat :=
  if p.globalSize ≤ g then none else some (Offsets.runOf p.offsets g)

/-- Whether this rank owns global block `g`. -/
def isOwned (p : RowPartition) (g : Nat) : Except Error Bool := do
  let (start, stop) ← p.range
  return start ≤ g && g < stop

/-- The partition as it is spelled in reports. -/
def text (p : RowPartition) : String :=
  "RowMap \x7b rank: " ++ toString p.rank ++ ", owner_range: [" ++
    String.intercalate ", " (p.offsets.toList.map toString) ++ "] \x7d"

end RowPartition

end DomainDecomposition
