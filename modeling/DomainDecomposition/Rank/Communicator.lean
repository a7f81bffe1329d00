import DomainDecomposition.Rank.Program

/-!
# Communicators and collectives

A `Communicator` says which rank of how many this is, and how its collectives work. In a world of
ranks they are built from the shared places and two barriers: the first makes sure that everyone
has contributed, the second that everyone has read. Every rank adds the contributions in the order
of the ranks, so all of them get the same sum, bit for bit.
-/

namespace DomainDecomposition

/-- One rank's end of the communication. -/
inductive Communicator where
  /-- A single process. -/
  | single
  /-- A member of a world of ranks. -/
  | member (rank size : Nat)
  /-- A rank on its own that claims a place among others. Every gathering answers `gathered`, and
  reductions leave their argument as it is. -/
  | claimed (rank size : Nat) (gathered : List Nat)

namespace Communicator

variable {T R : Type}

/-- Number of this rank. -/
def rank : Communicator → Nat
  | single => 0
  | member rank _ => rank
  | claimed rank _ _ => rank

/-- Number of ranks. -/
def size : Communicator → Nat
  | single => 1
  | member _ size => size
  | claimed _ size _ => size

/-- Wait for all ranks. -/
def barrier : Communicator → Program T R Unit
  | member _ _ => .ask .barrier
  | _ => pure ()

/-- Add the entries of `contribution` to those of `sum`. The length is that of `sum`. -/
def addContribution [Add R] (sum contribution : Array R) : Array R :=
  sum.mapIdx fun i v =>
    match contribution[i]? with
    | some c => v + c
    | none => v

/-- Entry by entry sum over all ranks, in the order of the ranks and starting at zero. -/
def reduceAll [Zero R] [Add R] (c : Communicator) (values : Array R) :
    Program T R (Array R) :=
  match c with
  | member _ size => do
    Program.ask (.offer values)
    Program.ask .barrier
    let sum ← (List.range size).foldlM (fun sum rank => do
      return addContribution sum (← Program.ask (.offered rank))) (values.map fun _ => 0)
    Program.ask .barrier
    return sum
  | _ => return values

/-- Sum of one number per rank. -/
def reduce [Zero R] [Add R] (c : Communicator) (value : R) : Program T R R := do
  return (← c.reduceAll #[value]).getD 0 0

/-- One count from every rank, in the order of the ranks. -/
def gather (c : Communicator) (count : Nat) : Program T R (List Nat) :=
  match c with
  | single => return [count]
  | claimed _ _ gathered => return gathered
  | member _ size => do
    Program.ask (.announce count)
    Program.ask .barrier
    let counts ← (List.range size).mapM fun rank => Program.ask (.announced rank)
    Program.ask .barrier
    return counts

end Communicator

end DomainDecomposition
