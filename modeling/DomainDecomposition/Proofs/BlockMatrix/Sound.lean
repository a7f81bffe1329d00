import DomainDecomposition.Proofs.BlockMatrix.Validation
import DomainDecomposition.Proofs.Postcondition

/-!
# Sound matrices

What a matrix has been checked for at its construction is never checked again, so all later
operations rely on it: the pattern is valid, the values fill the stored blocks exactly, and the
cache of the relaxation sweeps is empty, unless the matrix is square and the cache is full. A sound
matrix is one of which all this is true.

A call on sound matrices may fail, but not because a kernel has left its arrays, and for lack of
room only where there is none (`Error.Expected`). The lemmas below say so of the checks that the
operations share.
-/

namespace DomainDecomposition

open Outcome

variable {T : Type} {permitted : Error → Prop}

/-- A failure that a caller must reckon with: no access is out of range, and nothing is too large if
there is room. -/
def Error.Expected (room : Prop) (e : Error) : Prop :=
  e ≠ .outOfRange ∧ (e = .tooLarge → ¬room)

lemma Error.Expected.of_ne {room : Prop} {e : Error} (inside : e ≠ .outOfRange) (fits : e ≠ .tooLarge) :
    e.Expected room :=
  ⟨inside, fun h => absurd h fits⟩

lemma Error.Expected.tooLarge {room : Prop} (lack : ¬room) : Error.tooLarge.Expected room :=
  ⟨nofun, fun _ => lack⟩

lemma meets_checkLength {expected found : ℕ}
    (mismatch : permitted (.dimensionMismatch expected found)) :
    Meets permitted (fun _ => expected = found) (checkLength expected found) :=
  .check fun _ => mismatch

/-- A computed size either differs from the stored one, or it is no machine word. -/
lemma Capacity.meets_compare {computed stored : ℕ} {e : Error} (differs : permitted e)
    (vast : ¬computed < words → permitted .tooLarge) :
    Meets permitted (fun _ => computed = stored) (compare computed stored e) := by
  refine .check fun _ => ?_
  rcases refusal_cases computed e with same | ⟨large, stops⟩
  · rwa [same]
  · rw [stops]
    exact vast (Nat.not_lt.mpr large)

lemma meets_checkSize {expected found : ℕ} (mismatch : permitted (.dimensionMismatch expected found))
    (vast : ¬expected < Capacity.words → permitted .tooLarge) :
    Meets permitted (fun _ => expected = found) (checkSize expected found) :=
  Capacity.meets_compare mismatch vast

lemma Capacity.meets_reserve {n : ℕ} (crowded : ¬n < limit → permitted .tooLarge) :
    Meets permitted (fun _ => n < limit) (reserve n) :=
  .check crowded

/-- A block of a vector of whole blocks can be read. -/
lemma Span.gives_run {b n i : ℕ} {x : Array T} (hx : x.size = n * b) (hi : i < n) :
    Gives (·.size = b) (Span.run x (i * b) b) := by
  have inside : (i + 1) * b ≤ x.size := by
    rw [hx]
    exact Span.succ_mul_le b hi
  exact .of_eq_ok (Span.run_chunk inside) (Span.size_chunk inside)

namespace BlockMatrix

variable {a f : BlockMatrix T}

/-- Everything that the operations rely on. -/
structure Sound (a : BlockMatrix T) : Prop where
  valid : a.Valid
  cache : a.invertedDiagonal.size = 0 ∨ a.rowCount = a.columnCount ∧
    a.invertedDiagonal.size = a.rowCount * (a.blockSize * a.blockSize)

/-- The lengths of the vectors that go with a matrix are machine words. -/
def HasVectors (a : BlockMatrix T) : Prop :=
  a.columnCount * a.blockSize < Capacity.words ∧ a.rowCount * a.blockSize < Capacity.words

/-- The length of the cache is a machine word. -/
def HasCache (a : BlockMatrix T) : Prop :=
  a.rowCount * a.blockSize * a.blockSize < Capacity.words

/-- A matrix on the same pattern with equally many values, and with the same cache. -/
def SamePattern (a f : BlockMatrix T) : Prop :=
  ∃ v, v.size = a.values.size ∧ f = a.withValues v

lemma SamePattern.refl (a : BlockMatrix T) : SamePattern a a :=
  ⟨a.values, rfl, rfl⟩

lemma SamePattern.trans {g : BlockMatrix T} (first : SamePattern a f) (second : SamePattern f g) :
    SamePattern a g := by
  obtain ⟨v, hv, rfl⟩ := first
  obtain ⟨w, hw, rfl⟩ := second
  exact ⟨w, hw.trans hv, rfl⟩

lemma SamePattern.blockSize_eq (same : SamePattern a f) : f.blockSize = a.blockSize := by
  obtain ⟨v, -, rfl⟩ := same
  rfl

lemma SamePattern.rowCount_eq (same : SamePattern a f) : f.rowCount = a.rowCount := by
  obtain ⟨v, -, rfl⟩ := same
  rfl

lemma SamePattern.columnCount_eq (same : SamePattern a f) : f.columnCount = a.columnCount := by
  obtain ⟨v, -, rfl⟩ := same
  rfl

lemma SamePattern.stores_iff (same : SamePattern a f) {i j : ℕ} : f.Stores i j ↔ a.Stores i j := by
  obtain ⟨v, -, rfl⟩ := same
  rfl

lemma SamePattern.valid (same : SamePattern a f) (valid : a.Valid) : f.Valid := by
  obtain ⟨v, hv, rfl⟩ := same
  exact valid.withValues hv

lemma SamePattern.hasDiagonal (same : SamePattern a f) (has : a.HasDiagonal) : f.HasDiagonal := by
  obtain ⟨v, hv, rfl⟩ := same
  exact has.withValues v

lemma SamePattern.sound (same : SamePattern a f) (sound : a.Sound) : f.Sound := by
  obtain ⟨v, hv, rfl⟩ := same
  exact ⟨sound.valid.withValues hv, sound.cache⟩

/-- The cache is no part of the pattern. -/
lemma Valid.withCache (valid : a.Valid) (w : Array T) : { a with invertedDiagonal := w }.Valid where
  blockSize_pos := valid.blockSize_pos
  size_rowStart := valid.size_rowStart
  start_zero := valid.start_zero
  start_rowCount := valid.start_rowCount
  start_le := valid.start_le
  ascending := valid.ascending
  columns_lt := valid.columns_lt
  size_values := valid.size_values
  located := valid.located

/-- The diagonal entries are entries. -/
lemma HasDiagonal.lt_of_mem_diagonal (has : a.HasDiagonal) (valid : a.Valid) {k : ℕ}
    (member : k ∈ a.diagonal.toList) : k < a.columns.size := by
  obtain ⟨i, hi, rfl⟩ := List.getElem_of_mem member
  rw [Array.length_toList, has.size_diagonal] at hi
  have hlt := has.diagonalOf_lt valid hi
  rwa [diagonalOf, Array.getD_eq_getD_getElem?, Array.getElem?_eq_getElem (by
    rwa [has.size_diagonal])] at hlt

/-! ## Checks -/

lemma Valid.requireDiagonal_eq_error (valid : a.Valid) (lacking : ¬a.HasDiagonal) :
    a.requireDiagonal = .error (.config .diagonalMissing) := by
  cases h : a.requireDiagonal with
  | ok diagonal => exact absurd (valid.hasDiagonal_of_requireDiagonal h) lacking
  | error e =>
    unfold requireDiagonal at h
    split at h
    · cases h
    · exact h.symm

lemma Valid.meets_requireDiagonal (valid : a.Valid)
    (missing : ¬a.HasDiagonal → permitted (.config .diagonalMissing)) :
    Meets permitted (fun diagonal => diagonal = a.diagonal ∧ a.HasDiagonal) a.requireDiagonal := by
  by_cases has : a.HasDiagonal
  · exact .of_eq_ok (requireDiagonal_eq_ok.mpr ⟨has.size_diagonal, has.square, rfl⟩) ⟨rfl, has⟩
  · exact .of_eq_error (valid.requireDiagonal_eq_error has) (missing has)

end BlockMatrix

end DomainDecomposition
