import DomainDecomposition.Proofs.BlockMatrix.Assembly
import DomainDecomposition.Proofs.BlockMatrix.Fill

/-!
# Constructed matrices are sound

Whatever a caller hands to a constructor, the checks run in an order in which none of them leaves an
array, and what passes is sound: the row pointer is known to have the right length before its
entries are compared, and to be in order before the columns of a row are looked at.

* `meets_ofValues`, `meets_ofPattern`: matrices from arrays,
* `Assembled.fresh`: matrices from blocks with their positions,
* `meets_fillPattern`: level-of-fill patterns.
-/

namespace DomainDecomposition.BlockMatrix

open Outcome

variable {T : Type} {permitted : Error → Prop} {blockSize rowCount columnCount : ℕ}
variable {rowStart columns : Array ℕ}

/-- A matrix as it comes from a constructor. -/
structure Fresh (a : BlockMatrix T) : Prop where
  valid : a.Valid
  cache : a.invertedDiagonal = #[]

lemma Fresh.sound {a : BlockMatrix T} (fresh : a.Fresh) : a.Sound :=
  ⟨fresh.valid, .inl (by rw [fresh.cache]; rfl)⟩

/-! ## Matrices from arrays -/

section Arrays

variable (faults : ∀ fault, permitted (.config fault))

include faults

lemma meets_checkOrder (size : rowStart.size = rowCount + 1) :
    Meets permitted (fun _ => ∀ i < rowCount, rowStart.getD i 0 ≤ rowStart.getD (i + 1) 0 ∧
        rowStart.getD (i + 1) 0 ≤ columns.size)
      (checkOrder rowCount rowStart columns) := by
  unfold checkOrder
  refine (Meets.forM fun i member => ?_).mono (fun _ => id) fun _ ordered i hi =>
    ordered i (List.mem_range.mpr hi)
  have hi := List.mem_range.mp member
  rw [item_start size (Nat.le_of_lt hi), ok_bind, item_start size (i := i + 1) hi, ok_bind]
  exact .check fun _ => faults _

lemma meets_checkRow {i : ℕ} {row : List ℕ} (read : rowColumns rowStart columns i = .ok row) :
    Meets permitted (fun _ => True) (checkRow columnCount rowStart columns i) := by
  unfold checkRow
  rw [read, ok_bind]
  dsimp only
  split
  · exact faults _
  · split
    · exact faults _
    · trivial

variable (vast : ¬rowCount + 1 < Capacity.words → permitted .tooLarge)

include vast

/-- No check reads outside the arrays. -/
lemma meets_checkPattern :
    Meets permitted (fun _ => True)
      (checkPattern blockSize rowCount columnCount rowStart columns) := by
  unfold checkPattern
  dsimp only
  split
  · exact faults _
  have ends : Meets permitted (fun _ => rowStart.size = rowCount + 1)
      (checkEnds rowCount rowStart columns) := by
    unfold checkEnds
    apply (Capacity.meets_compare (faults _) vast).bind
    intro _ size
    exact (Meets.check fun _ => faults _).mono (fun _ => id) fun _ _ => size.symm
  apply ends.bind
  intro _ size
  apply (meets_checkOrder faults size).bind
  intro _ ordered
  refine (Meets.forM (Q := fun _ => True) fun i member => ?_).ignore
  have hi := List.mem_range.mp member
  exact meets_checkRow faults (rowColumns_of_le size hi (ordered i hi).1 (ordered i hi).2)

variable (mismatch : ∀ expected found, permitted (.dimensionMismatch expected found))

include mismatch

lemma meets_ofValues {values : Array T}
    (full : ¬columns.size * blockSize * blockSize < Capacity.words → permitted .tooLarge) :
    Meets permitted Fresh (ofValues blockSize rowCount columnCount rowStart columns values) := by
  cases h : ofValues blockSize rowCount columnCount rowStart columns values with
  | ok a =>
    obtain ⟨valid, fields⟩ := ofValues_eq_ok.mp h
    exact ⟨valid, by rw [fields]⟩
  | error e =>
    suffices Meets permitted (fun _ => True)
        (ofValues blockSize rowCount columnCount rowStart columns values) by rwa [h] at this
    unfold ofValues
    apply (meets_checkPattern faults vast).eq_ok.bind
    intro _ pattern
    obtain ⟨-, ends, order, -⟩ := checkPattern_eq_ok.mp pattern
    have size := (checkEnds_eq_ok.mp ends).1
    have ordered := (checkOrder_eq_ok size).mp order
    apply (meets_checkSize (mismatch _ _) full).bind
    intro _ _
    obtain ⟨diagonal, located⟩ := exists_locateDiagonal columnCount _ size
      fun i hi => rowColumns_of_le size hi (ordered i hi).1 (ordered i hi).2
    rw [located]
    trivial

/-- The values are made before the pattern is checked. -/
lemma meets_ofPattern [Zero T]
    (crowded : ¬columns.size * blockSize * blockSize < Capacity.limit → permitted .tooLarge) :
    Meets permitted Fresh (ofPattern blockSize rowCount columnCount rowStart columns :
      Except Error (BlockMatrix T)) := by
  unfold ofPattern
  have allocated : Meets permitted (fun _ => columns.size * blockSize * blockSize < Capacity.limit)
      (Block.allocate (columns.size * blockSize * blockSize) : Except Error (Array T)) :=
    (Capacity.meets_reserve crowded).bind fun _ fits => fits
  refine allocated.bind fun _ fits => meets_ofValues faults vast mismatch fun full => ?_
  exact absurd (Capacity.lt_words_of_lt_limit fits) full

end Arrays

/-! ## Matrices from triplets -/

lemma Assembled.fresh [Zero T] [Add T] {triplets : List (Triplet T)} {a : BlockMatrix T}
    (assembled : Assembled blockSize rowCount columnCount triplets a) : a.Fresh := by
  obtain ⟨valid, fields⟩ := ofValues_eq_ok.mp assembled.accepted
  exact ⟨valid, by rw [fields]⟩

/-! ## Level-of-fill patterns -/

section Fill

variable {R : Type} [Zero T] [One R] [Mul R] [LE R] [DecidableLE R] [Magnitude R]
variable {a : BlockMatrix T}

lemma cache_of_fillPattern {limit : ℕ} {growth : R} {f : BlockMatrix T}
    (found : a.fillPattern limit growth = .ok f) : f.invertedDiagonal = #[] := by
  unfold fillPattern at found
  split at found
  · cases found
  · obtain ⟨_, -, found⟩ := bind_eq_ok.mp found
    obtain ⟨rows, -, found⟩ := bind_eq_ok.mp found
    obtain ⟨values, -, found⟩ := bind_eq_ok.mp found
    rw [(ofValues_eq_ok.mp found).2]

lemma meets_fillPattern (valid : a.Valid) (faults : ∀ fault, permitted (.config fault))
    {limit : ℕ} {growth : R} (crowded : ¬a.HasRoom limit growth → permitted .tooLarge) :
    Meets permitted Fresh (a.fillPattern limit growth) := by
  by_cases square : a.rowCount = a.columnCount
  · rcases fillPattern_spec valid square limit growth with ⟨-, f, found, level⟩ | ⟨lack, failed⟩
    · exact .of_eq_ok found ⟨level.valid, cache_of_fillPattern found⟩
    · exact .of_eq_error failed (crowded lack)
  · unfold fillPattern
    rw [if_pos square]
    exact faults _

end Fill

end DomainDecomposition.BlockMatrix
