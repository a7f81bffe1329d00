import DomainDecomposition.Rank.Program

/-!
# Worlds of ranks

A `World` holds the shared places of all ranks. `World.run` carries out one program per rank: rank
after rank goes on until it waits at the barrier, and the barrier opens once all of them wait. A
world in which some ranks wait and others have finished is stuck.
-/

namespace DomainDecomposition

/-- The shared places, one of each kind per rank. -/
structure World (T R : Type) where
  offered : Array (Array R)
  announced : Array Nat
  published : Array (Option (Published T))

namespace World

variable {T R α : Type}

/-- A world of `size` ranks before anything is written. -/
def initial (size : Nat) : World T R where
  offered := Array.replicate size #[]
  announced := Array.replicate size 0
  published := Array.replicate size none

/-- Carry out one step of a rank. Passing the barrier is the business of all ranks together and
changes nothing here. -/
def serve (rank : Nat) (world : World T R) : (q : Request T R) → q.Reply × World T R
  | .offer values => ((), { world with offered := world.offered.setIfInBounds rank values })
  | .offered other => (world.offered.getD other #[], world)
  | .announce count => ((), { world with announced := world.announced.setIfInBounds rank count })
  | .announced other => (world.announced.getD other 0, world)
  | .publish vector =>
    ((), { world with published := world.published.setIfInBounds rank (some vector) })
  | .published other => (world.published.getD other none, world)
  | .barrier => ((), world)

/-- Where a rank comes to rest. -/
inductive Rest (T R α : Type) where
  | finished (result : α)
  | waiting (next : Program T R α)

/-- Let one rank go on until it rests. -/
def advance (rank : Nat) : Program T R α → World T R → Rest T R α × World T R
  | .done a, world => (.finished a, world)
  | .request .barrier next, world => (.waiting (next ()), world)
  | .request q next, world =>
    let (reply, world) := serve rank world q
    advance rank (next reply) world

/-- Let the ranks from number `rank` on go on, in turn. -/
def advanceAll (rank : Nat) : List (Program T R α) → World T R → List (Rest T R α) × World T R
  | [], world => ([], world)
  | p :: ps, world =>
    let (rest, world) := advance rank p world
    let (rests, world) := advanceAll (rank + 1) ps world
    (rest :: rests, world)

/-- The results, if all ranks have finished. -/
def Rest.results? (rests : List (Rest T R α)) : Option (List α) :=
  rests.mapM fun
    | finished a => some a
    | waiting _ => none

/-- What is left of the programs, if all ranks wait. -/
def Rest.waiting? (rests : List (Rest T R α)) : Option (List (Program T R α)) :=
  rests.mapM fun
    | finished _ => none
    | waiting next => some next

/-- Run rank 0 and the others from barrier to barrier. -/
def runWith : Program T R α → List (Program T R α) → World T R → Option (List α)
  | .done a, others, world => do
    return a :: (← Rest.results? (advanceAll 1 others world).1)
  | .request .barrier next, others, world =>
    let (rests, world) := advanceAll 1 others world
    match Rest.waiting? rests with
    | some others => runWith (next ()) others world
    | none => none
  | .request q next, others, world =>
    let (reply, world) := serve 0 world q
    runWith (next reply) others world

/-- The results of all ranks, or nothing if they get stuck. -/
def run : List (Program T R α) → Option (List α)
  | [] => some []
  | p :: ps => runWith p ps (initial (ps.length + 1))

end World

end DomainDecomposition
