/-!
# Offsets of consecutive runs

Consecutive runs of items are described by their offsets: run `p` is made of the items from offset
`p` up to but not including offset `p + 1`. Block rows of a matrix and the rows owned by the ranks
of a world are both given in this way. Runs may be empty.
-/

namespace DomainDecomposition.Offsets

/-- Offsets of runs of the given lengths. -/
def ofLengths (lengths : List Nat) : Array Nat :=
  lengths.foldl (fun offsets n => offsets.push (offsets.back?.getD 0 + n)) #[0]

/-- No offset is smaller than the one before it. -/
def ascending : List Nat → Bool
  | a :: b :: rest => a ≤ b && ascending (b :: rest)
  | _ => true

/-- The run that holds item `i`, among runs that reach beyond it: the last one that starts at or
before it. Empty runs are passed over. -/
def runOf (offsets : Array Nat) (i : Nat) : Nat :=
  (offsets.toList.takeWhile (· ≤ i)).length - 1

end DomainDecomposition.Offsets
