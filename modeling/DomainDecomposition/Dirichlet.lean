import DomainDecomposition.Partition
import DomainDecomposition.Update

/-!
# Essential boundary conditions

A constraint fixes some components of one global block to prescribed values. The constraints of a
problem are replicated: a rank acts on those whose blocks it owns, and leaves the others alone. A
constraint also states the local number of its block, which must agree with the partition when the
constraints are imposed on a matrix.
-/

namespace DomainDecomposition

/-- The listed components of a global block are fixed. -/
structure Constraint (T : Type) where
  block : Nat
  /-- Number of the block among those of its owner. -/
  localBlock : Nat
  components : List Nat
  /-- Prescribed value of each component. -/
  values : List T

/-- Constraints in the order in which they were added. -/
structure Constraints (T : Type) where
  entries : List (Constraint T)

namespace Constraints

variable {T : Type}

/-- No constraints. -/
def empty : Constraints T :=
  ⟨[]⟩

/-- Add a constraint. Without values its components are fixed to zero. -/
def add [Zero T] (block localBlock : Nat) (components : List Nat) (values : List T) :
    Update (Constraints T) Unit := do
  let values := if values.isEmpty then components.map fun _ => 0 else values
  checkLength components.length values.length
  modify fun c => ⟨c.entries ++ [⟨block, localBlock, components, values⟩]⟩

/-- The constraints on blocks of this rank, each with the local number of its block. -/
def owned (c : Constraints T) (p : RowPartition) : Except Error (List (Nat × Constraint T)) := do
  let (start, stop) ← p.range
  return (c.entries.filter fun e => start ≤ e.block && e.block < stop).map fun e =>
    (e.block - start, e)

/-- Write into the constrained scalars of one block, component by component, up to the first
component that the block does not have. -/
def writeBlock (blockSize row : Nat) : List (Nat × T) → Update (Array T) Unit
  | [] => pure ()
  | (v, value) :: rest => do
    if blockSize ≤ v then throw (.config (.variableRange v blockSize))
    let _ ← Span.item (← get) (row * blockSize + v)
    modify fun x => x.setIfInBounds (row * blockSize + v) value
    writeBlock blockSize row rest

/-- Write into the constrained scalars of the blocks owned by this rank. -/
def writeOwned (c : Constraints T) (p : RowPartition) (blockSize : Nat)
    (value : T → T) : Update (Array T) Unit := do
  checkLength ((← p.localSize) * blockSize) (← get).size
  (← c.owned p).forM fun (row, e) =>
    writeBlock blockSize row (e.components.zip (e.values.map value))

/-- Clear the constrained scalars of an owned vector. -/
def clear [Zero T] (c : Constraints T) (p : RowPartition) (blockSize : Nat) :
    Update (Array T) Unit :=
  c.writeOwned p blockSize fun _ => 0

/-- Write the prescribed values into an owned vector. -/
def prescribe (c : Constraints T) (p : RowPartition) (blockSize : Nat) :
    Update (Array T) Unit :=
  c.writeOwned p blockSize id

end Constraints

end DomainDecomposition
