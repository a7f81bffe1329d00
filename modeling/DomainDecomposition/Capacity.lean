import DomainDecomposition.Error

/-!
# How much a machine can hold

Sizes are chosen freely by a caller, so what is computed from them may exceed what the machine can
hold: a sum or a product need not be a machine word, and no array has more than `limit` entries.
Both are the same failure, `tooLarge`, which stands for the stop of a program that checks its
arithmetic and its demands for memory.

* `reserve` is asked before an array of a computed size is made, also when the array is only room
  for later use, and comes before the errors that a later test would find.
* `checkWord` and `compare` are asked where a computed size is used. What is stored in arrays is
  counted in words, so a size that equals the size of an array needs no test of its own.

All other arithmetic is that of the natural numbers: a number on which nothing depends is not
tested. A build that does not check its arithmetic goes on with what is left of a number modulo
`words`. No statement of the library says what it does then, with one exception: the offsets of
gathered counts are such remainders (`RowPartition.ofLocalSize`). Memory that runs out before
`limit` is reached ends the program and is not described.
-/

namespace DomainDecomposition

namespace Capacity

/-- The machine words are the numbers below this one. -/
def words : Nat :=
  1 <<< 64

/-- No array has this many entries: sizes are counted in bytes below `2 ^ 63`, and an entry may take
32 of them. -/
def limit : Nat :=
  1 <<< 58

/-- Fail unless an array can hold `n` entries. -/
def reserve (n : Nat) : Except Error Unit :=
  if n < limit then .ok () else .error .tooLarge

/-- Fail unless the computed number `n` is a machine word. -/
def checkWord (n : Nat) : Except Error Unit :=
  if n < words then .ok () else .error .tooLarge

/-- The failure of a test that has computed `n`: the stated one, unless `n` is no machine word. -/
def refusal (n : Nat) (e : Error) : Error :=
  if n < words then e else .tooLarge

/-- Fail unless a computed size is that of a stored array. -/
def compare (computed stored : Nat) (mismatch : Error) : Except Error Unit :=
  if computed = stored then .ok () else .error (refusal computed mismatch)

theorem reserve_eq_ok_iff {n : Nat} : reserve n = .ok () ↔ n < limit := by
  simp [reserve]

theorem lt_words_of_lt_limit {n : Nat} (h : n < limit) : n < words :=
  Nat.lt_of_lt_of_le h (by decide)

theorem refusal_cases (n : Nat) (e : Error) :
    refusal n e = e ∨ words ≤ n ∧ refusal n e = .tooLarge := by
  unfold refusal
  split
  · exact .inl rfl
  · exact .inr ⟨by omega, rfl⟩

theorem compare_eq_ok_iff {computed stored : Nat} {mismatch : Error} :
    compare computed stored mismatch = .ok () ↔ computed = stored := by
  simp [compare]

end Capacity

/-- The length of a vector must be the one that is computed for it. -/
def checkSize (expected found : Nat) : Except Error Unit :=
  Capacity.compare expected found (.dimensionMismatch expected found)

theorem checkSize_eq_ok {expected found : Nat} :
    checkSize expected found = .ok () ↔ expected = found :=
  Capacity.compare_eq_ok_iff

end DomainDecomposition
