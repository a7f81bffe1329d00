import DomainDecomposition.BlockMatrix.Relaxation
import DomainDecomposition.Proofs.BlockMatrix.Solve
import DomainDecomposition.Proofs.BlockMatrix.Sound

/-!
# Kernels stay within their arrays

The kernels check nothing: they compute offsets from the row pointer, the columns and the diagonal,
and read whatever is there. On a valid matrix and vectors of the right lengths, every offset lies
inside. Only sizes count for this, so the scalars may be of any kind.

* `gives_mult`, `gives_multAdd`, `gives_multAddInPlace`: products,
* `gives_solveLower`, `gives_solveLowerFrom`, `meets_solveUpperRows`: triangular solves,
* `gives_sweeps`: relaxation.

All of them end with a vector of the length that they were given.
-/

namespace DomainDecomposition

open Outcome

variable {T : Type} {permitted : Error → Prop}

namespace View

variable [Zero T] [Add T] [Mul T] {b n : ℕ} {row : Entries T} {sum : Array T}

lemma gives_addRow {x : Array T} (hx : x.size = n * b) (hsum : sum.size = b)
    (below : ∀ c ∈ row.columns, c < n) : Gives (·.size = b) (addRow b x sum row) := by
  unfold addRow
  refine .foldlM hsum fun e member sum hsum => ?_
  have hc := below e.1 (List.mem_map_of_mem member)
  exact (Span.gives_run hx hc).bind fun _ _ => Block.size_addMulVec e.2 _ hsum

lemma gives_subtractRow [Sub T] {read : ℕ → Except Error (Array T)} (hsum : sum.size = b)
    (reads : ∀ c ∈ row.columns, Gives (fun _ => True) (read c)) :
    Gives (·.size = b) (subtractRow b read sum row) := by
  unfold subtractRow
  refine .foldlM hsum fun e member sum hsum => ?_
  have found := reads e.1 (List.mem_map_of_mem member)
  exact found.bind fun _ _ => Block.size_subMulVec e.2 _ hsum

end View

namespace BlockMatrix

variable {a : BlockMatrix T}

/-! ## Products -/

section Products

variable [Zero T] [Add T] [Mul T] {start : Array T → Array T} {x y z : Array T} {i : ℕ}
variable (valid : a.Valid) (hx : x.size = a.columnCount * a.blockSize)

include valid hx

lemma gives_multiplyRow (full : ∀ old, old.size = a.blockSize → (start old).size = a.blockSize)
    (hy : y.size = a.rowCount * a.blockSize) (hi : i < a.rowCount) :
    Gives (·.size = a.rowCount * a.blockSize) (a.view.multiplyRow start x y i) := by
  have below : ∀ c ∈ (a.rowEntries i).columns, c < a.columnCount := by
    rw [columns_rowEntries]
    exact valid.columns_lt i hi
  unfold View.multiplyRow
  apply (Span.gives_run hy hi).bind
  intro old hold
  rw [valid.view_row hi, ok_bind]
  apply (View.gives_addRow hx (full old hold) below).bind
  intro new _
  exact (Span.size_overwrite ..).trans hy

lemma gives_multiplyRows (full : ∀ old, old.size = a.blockSize → (start old).size = a.blockSize)
    (hy : y.size = a.rowCount * a.blockSize) :
    Gives (·.size = a.rowCount * a.blockSize)
      (Walk.up (a.view.multiplyRow start x) a.rowCount 0 y) :=
  .up hy fun _ _ _ high hy => gives_multiplyRow valid hx full hy (by omega)

lemma gives_mult (hy : y.size = a.rowCount * a.blockSize) :
    Gives (·.size = a.rowCount * a.blockSize) (a.view.mult x y) :=
  gives_multiplyRows valid hx (fun _ _ => Array.size_replicate) hy

lemma gives_multAddInPlace (hy : y.size = a.rowCount * a.blockSize) :
    Gives (·.size = a.rowCount * a.blockSize) (a.view.multAddInPlace x y) :=
  gives_multiplyRows valid hx (fun _ => id) hy

lemma gives_multAdd (hy : y.size = a.rowCount * a.blockSize)
    (hz : z.size = a.rowCount * a.blockSize) :
    Gives (·.size = a.rowCount * a.blockSize) (a.view.multAdd x y z) := by
  have whole : ∀ v : Array T, v.size = a.rowCount * a.blockSize →
      Gives (fun _ => True) (Span.run v 0 (a.rowCount * a.blockSize)) := by
    intro v hv
    exact .of_eq_ok (Span.run_eq_ok.mpr ⟨by omega, rfl⟩) trivial
  unfold View.multAdd
  apply (whole y hy).bind
  intro head _
  apply (whole z hz).bind
  intro _ _
  exact gives_multAddInPlace valid hx ((Span.size_overwrite ..).trans hz)

end Products

/-! ## Triangular solves -/

section Solves

variable [Zero T] [Add T] [Sub T] [Mul T] {x : Array T} {o i s : ℕ}
variable (valid : a.Valid) (has : a.HasDiagonal)

include valid has

/-- The blocks that a lower solve reads lie before the block that it writes. -/
lemma gives_solveLowerRow (hoi : o ≤ i) (hi : i < a.rowCount) (first : FirstFrom a o i s)
    (hx : x.size = (a.rowCount - o) * a.blockSize) :
    Gives (·.size = (a.rowCount - o) * a.blockSize) (a.view.solveLowerRow o s x i) := by
  obtain ⟨front, split, -, low⟩ := first.leftEntries_eq
  have high : ∀ c ∈ (a.tailEntries i s).columns, c < i := by
    intro c hc
    apply (has.ascending_pieces valid hi).2.2.1
    rw [split, Entries.columns_append]
    exact List.mem_append_right _ hc
  have own : i - o < a.rowCount - o := by omega
  unfold View.solveLowerRow
  apply (Span.gives_run hx own).bind
  intro old hold
  rw [show a.view.diagonal = a.diagonal from rfl, has.item_diagonal hi, ok_bind,
    valid.view_entries (Nat.le_of_lt (has.diagonalOf_lt valid hi)), ok_bind]
  refine (View.gives_subtractRow hold fun c hc => ?_).bind fun new _ =>
    (Span.size_overwrite ..).trans hx
  have hoc := low c hc
  have hci := high c hc
  have before := Span.succ_mul_le a.blockSize (show c - o < i - o by omega)
  rw [Nat.succ_mul] at before
  change (c - o) * a.view.blockSize + a.view.blockSize ≤ (i - o) * a.view.blockSize at before
  rw [if_pos hoc, Span.runBefore, if_pos before]
  exact (Span.gives_run hx (by omega)).ignore

lemma gives_solveLower (hx : x.size = a.rowCount * a.blockSize) :
    Gives (·.size = a.rowCount * a.blockSize) (a.view.solveLower x) := by
  refine .up hx fun i x _ high hx => ?_
  have hi : i < a.rowCount := by
    have : a.view.rowCount = a.rowCount := rfl
    omega
  rw [show a.view.rowStart = a.rowStart from rfl, valid.item_rowStart (Nat.le_of_lt hi), ok_bind]
  exact gives_solveLowerRow valid has (Nat.zero_le i) hi (.zero has hi) hx

lemma gives_solveLowerFrom (hx : x.size = (a.rowCount - o) * a.blockSize) :
    Gives (·.size = (a.rowCount - o) * a.blockSize) (a.view.solveLowerFrom o x) := by
  refine .up hx fun i x low high hx => ?_
  have hi : i < a.rowCount := by
    have : a.view.rowCount = a.rowCount := rfl
    omega
  obtain ⟨s, found, first⟩ := firstFrom_spec valid has o hi
  rw [found, ok_bind]
  exact gives_solveLowerRow valid has (by omega) hi first hx

/-- The blocks that an upper solve reads lie behind the block that it writes. -/
lemma gives_solveUpperRow (hoi : o ≤ i) (hi : i < a.rowCount)
    (hx : x.size = (a.rowCount - o) * a.blockSize) :
    Gives (·.size = (a.rowCount - o) * a.blockSize) (a.view.solveUpperRow o x i) := by
  have own : i - o < a.rowCount - o := by omega
  unfold View.solveUpperRow
  apply (Span.gives_run hx own).bind
  intro old hold
  rw [has.view_rightOfDiagonal valid hi, ok_bind, has.view_diagonalBlock valid hi]
  refine (View.gives_subtractRow hold fun c hc => ?_).bind fun new _ =>
    (Span.size_overwrite ..).trans hx
  obtain ⟨hic, hc⟩ := rightEntries_columns valid has hi hc
  rw [if_pos hic]
  exact (Span.gives_run hx (by omega)).ignore

/-- The sum of a row is kept aside, and this may fail for lack of room. -/
lemma meets_solveUpperRows {first last : ℕ} (hfirst : o ≤ first) (hlast : last ≤ a.rowCount)
    (crowded : ¬a.blockSize < Capacity.limit → permitted .tooLarge)
    (hx : x.size = (a.rowCount - o) * a.blockSize) :
    Meets permitted (·.size = (a.rowCount - o) * a.blockSize)
      (a.view.solveUpperRows o first last x) := by
  unfold View.solveUpperRows
  refine (Capacity.meets_reserve crowded).bind fun _ _ => .down hx fun i x low high hx => ?_
  exact .of_gives (gives_solveUpperRow valid has (by omega) (by omega) hx)

end Solves

/-! ## Relaxation -/

section Relaxation

variable [Zero T] [One T] [Add T] [Sub T] [Mul T] {omega : T} {rhs y : Array T} {order : List ℕ}
variable (valid : a.Valid) (square : a.rowCount = a.columnCount)
variable (cached : a.invertedDiagonal.size = a.rowCount * (a.blockSize * a.blockSize))
variable (hrhs : rhs.size = a.rowCount * a.blockSize)

include valid square cached hrhs

lemma gives_relaxRow {i : ℕ} (hi : i < a.rowCount) (hy : y.size = a.rowCount * a.blockSize) :
    Gives (·.size = a.rowCount * a.blockSize) (a.relaxRow omega rhs y i) := by
  have below : ∀ e ∈ a.rowEntries i, e.1 < a.rowCount := by
    intro e member
    rw [square]
    apply valid.columns_lt i hi
    rw [← columns_rowEntries]
    exact List.mem_map_of_mem member
  unfold relaxRow
  apply (Span.gives_run hrhs hi).bind
  intro right hright
  rw [valid.view_row hi, ok_bind]
  refine Meets.bind (Q := (·.size = a.blockSize)) (.foldlM hright ?_) fun residual _ => ?_
  · rintro ⟨j, block⟩ member sum hsum
    dsimp only
    split
    · exact hsum
    · apply (Span.gives_run hy (below _ member)).bind
      intro _ _
      exact Block.size_subMulVec block _ hsum
  · apply (Span.gives_run cached hi).bind
    intro inverse _
    apply (Span.gives_run hy hi).bind
    intro old _
    exact (Span.size_overwrite ..).trans hy

lemma gives_sweeps (inside : ∀ i ∈ order, i < a.rowCount) (iterations : ℕ)
    (hy : y.size = a.rowCount * a.blockSize) :
    Gives (·.size = a.rowCount * a.blockSize) (a.sweeps omega order rhs iterations y) := by
  induction iterations generalizing y with
  | zero => exact hy
  | succ iterations ih =>
    unfold sweeps
    split
    · exact hy
    · refine Meets.bind (Q := (·.size = a.rowCount * a.blockSize)) (.foldlM hy ?_)
        fun y hy => ih hy
      intro i member y hy
      exact gives_relaxRow valid square cached hrhs (inside i member) hy

end Relaxation

/-! ## Checked operations -/

section Checked

variable {x y : Array T}

lemma meets_checkVectors (mismatch : ∀ expected found, permitted (.dimensionMismatch expected found))
    (vast : ¬a.HasVectors → permitted .tooLarge) :
    Meets permitted
      (fun _ => x.size = a.columnCount * a.blockSize ∧ y.size = a.rowCount * a.blockSize)
      (a.checkVectors x y) := by
  unfold checkVectors
  apply (meets_checkSize (mismatch _ _) fun wide => vast fun fits => wide fits.1).bind
  intro _ hx
  exact (meets_checkSize (mismatch _ _) fun high => vast fun fits => high fits.2).mono
    (fun _ => id) fun _ hy => ⟨hx.symm, hy.symm⟩

/-- An operation that checks its output before it replaces it. -/
lemma meets_guarded {check : Array T → Except Error Unit} {f : Array T → Except Error (Array T)}
    {Q : Prop} (checked : Meets permitted (fun _ => Q) (check y))
    (kernel : Q → Meets permitted (·.size = y.size) (f y)) :
    (do check (← get); Update.replace f : Update (Array T) Unit).Meets permitted (·.size = y.size)
      (fun _ => True) y := by
  apply Update.Meets.get_bind
  refine Update.Meets.lift_bind (P := fun z : Array T => z.size = y.size) rfl checked fun _ hQ => ?_
  exact .replace rfl (kernel hQ)

variable (valid : a.Valid)
variable (mismatch : ∀ expected found, permitted (.dimensionMismatch expected found))
variable (vast : ¬a.HasVectors → permitted .tooLarge)

include valid mismatch vast

section Products

variable [Zero T] [Add T] [Mul T]

lemma meets_mult : (a.mult x).Meets permitted (·.size = y.size) (fun _ => True) y := by
  refine meets_guarded (meets_checkVectors mismatch vast) fun ⟨hx, hy⟩ => ?_
  rw [hy]
  exact .of_gives (gives_mult valid hx hy)

lemma meets_multAddInPlace :
    (a.multAddInPlace x).Meets permitted (·.size = y.size) (fun _ => True) y := by
  refine meets_guarded (meets_checkVectors mismatch vast) fun ⟨hx, hy⟩ => ?_
  rw [hy]
  exact .of_gives (gives_multAddInPlace valid hx hy)

lemma meets_multAdd {z : Array T} :
    (a.multAdd x y).Meets permitted (·.size = z.size) (fun _ => True) z := by
  unfold multAdd
  refine Update.Meets.lift_bind (P := fun w : Array T => w.size = z.size) rfl
    (meets_checkVectors mismatch vast) ?_
  rintro _ ⟨hx, hy⟩
  refine meets_guarded (meets_checkLength (mismatch _ _)) fun hz => ?_
  rw [← hz, hy]
  exact .of_gives (gives_multAdd valid hx hy (hz.symm.trans hy))

end Products

section Solves

variable [Zero T] [Add T] [Sub T] [Mul T] (faults : ∀ fault, permitted (.config fault))

include faults

lemma meets_applyLower : (a.applyLower x).Meets permitted (·.size = y.size) (fun _ => True) y := by
  unfold applyLower
  refine Update.Meets.lift_bind (P := fun w : Array T => w.size = y.size) rfl
    (valid.meets_requireDiagonal fun _ => faults _) ?_
  rintro _ ⟨-, has⟩
  refine meets_guarded (meets_checkVectors mismatch vast) fun ⟨hx, hy⟩ => ?_
  rw [← has.square] at hx
  rw [hy]
  exact .of_gives (gives_solveLower valid has hx)

omit [Zero T] [Add T] [Sub T] [Mul T] in
lemma meets_checkTrailing {offset : ℕ} :
    Meets permitted (fun _ => a.HasDiagonal ∧ x.size = (a.rowCount - offset) * a.blockSize)
      (a.checkTrailing offset x) := by
  unfold checkTrailing
  apply (valid.meets_requireDiagonal fun _ => faults _).bind
  rintro _ ⟨-, has⟩
  dsimp only
  split
  · exact faults _
  · refine (meets_checkSize (mismatch _ _) fun high => vast fun fits => high ?_).mono
      (fun _ => id) fun _ hx => ⟨has, hx.symm⟩
    exact (Nat.mul_le_mul_right a.blockSize (Nat.sub_le _ _)).trans_lt fits.2

lemma meets_applyLowerFrom {offset : ℕ} :
    (a.applyLowerFrom offset).Meets permitted (·.size = y.size) (fun _ => True) y := by
  refine meets_guarded (meets_checkTrailing valid mismatch vast faults) fun ⟨has, hy⟩ => ?_
  rw [hy]
  exact .of_gives (gives_solveLowerFrom valid has hy)

variable (crowded : ¬a.blockSize < Capacity.limit → permitted .tooLarge)

include crowded

lemma meets_applyUpper : (a.applyUpper x).Meets permitted (·.size = y.size) (fun _ => True) y := by
  unfold applyUpper
  refine Update.Meets.lift_bind (P := fun w : Array T => w.size = y.size) rfl
    (valid.meets_requireDiagonal fun _ => faults _) ?_
  rintro _ ⟨-, has⟩
  refine meets_guarded (meets_checkVectors mismatch vast) fun ⟨hx, hy⟩ => ?_
  rw [← has.square] at hx
  rw [hy]
  exact meets_solveUpperRows valid has (Nat.le_refl 0) (Nat.le_refl _) crowded hx

lemma meets_applyFactor : (a.applyFactor x).Meets permitted (·.size = y.size) (fun _ => True) y := by
  unfold applyFactor
  refine Update.Meets.lift_bind (P := fun w : Array T => w.size = y.size) rfl
    (valid.meets_requireDiagonal fun _ => faults _) ?_
  rintro _ ⟨-, has⟩
  refine meets_guarded (meets_checkVectors mismatch vast) fun ⟨hx, hy⟩ => ?_
  rw [← has.square] at hx
  rw [hy]
  apply Meets.bind (.of_gives (gives_solveLower valid has hx))
  intro w hw
  exact meets_solveUpperRows valid has (Nat.le_refl 0) (Nat.le_refl _) crowded hw

lemma meets_applyUpperFrom {offset : ℕ} :
    (a.applyUpperFrom offset).Meets permitted (·.size = y.size) (fun _ => True) y := by
  refine meets_guarded (meets_checkTrailing valid mismatch vast faults) fun ⟨has, hy⟩ => ?_
  rw [hy]
  exact meets_solveUpperRows valid has (Nat.le_refl offset) (Nat.le_refl _) crowded hy

lemma meets_applyUpperBefore {offset : ℕ} :
    (a.applyUpperBefore offset).Meets permitted (·.size = y.size) (fun _ => True) y := by
  unfold applyUpperBefore
  refine Update.Meets.lift_bind (P := fun w : Array T => w.size = y.size) rfl
    (valid.meets_requireDiagonal fun _ => faults _) ?_
  rintro _ ⟨-, has⟩
  have height : Meets permitted (fun _ => a.rowCount * a.blockSize = y.size)
      (checkSize (a.rowCount * a.blockSize) y.size) :=
    meets_checkSize (mismatch _ _) fun high => vast fun fits => high fits.2
  refine meets_guarded height fun hy => ?_
  rw [← hy]
  exact meets_solveUpperRows valid has (Nat.le_refl 0) (Nat.min_le_right ..) crowded hy.symm

end Solves

end Checked

/-! ### Sweeps -/

section Sweeps

variable {R : Type} [Zero T] [One T] [Add T] [Sub T] [Mul T] [Scalar T R] {rhs y : Array T}
variable {omega : R} {iterations : ℕ} (sound : a.Sound)
variable (mismatch : ∀ expected found, permitted (.dimensionMismatch expected found))
variable (vast : ¬(a.HasVectors ∧ a.HasCache) → permitted .tooLarge)
variable (unfactored : permitted (.notFactored .relaxationSweep))
variable (crowded : ¬a.blockSize < Capacity.limit → permitted .tooLarge)

include mismatch vast unfactored crowded in
omit [Zero T] [One T] [Add T] [Sub T] [Mul T] in
lemma meets_checkSweep :
    Meets permitted
      (fun _ => a.invertedDiagonal.size = a.rowCount * (a.blockSize * a.blockSize) ∧
        rhs.size = a.rowCount * a.blockSize ∧ y.size = a.rowCount * a.blockSize)
      (a.checkSweep rhs y) := by
  have high : ¬a.rowCount * a.blockSize < Capacity.words → permitted .tooLarge :=
    fun high => vast fun fits => high fits.1.2
  unfold checkSweep
  apply Meets.bind (Capacity.meets_compare unfactored fun full => vast fun fits => full fits.2)
  intro _ cached
  apply Meets.bind (meets_checkSize (mismatch _ _) high)
  intro _ hrhs
  apply Meets.bind (meets_checkSize (mismatch _ _) high)
  intro _ hy
  refine (Capacity.meets_reserve crowded).mono (fun _ => id) fun _ _ => ⟨?_, hrhs.symm, hy.symm⟩
  rw [← Nat.mul_assoc]
  exact cached.symm

include sound in
/-- Where the cache is full, the matrix is square, or there is no row to relax. -/
lemma gives_sweepsOver {scalar : T} {order : List ℕ} (inside : ∀ i ∈ order, i < a.rowCount)
    (cached : a.invertedDiagonal.size = a.rowCount * (a.blockSize * a.blockSize))
    (hrhs : rhs.size = a.rowCount * a.blockSize) (hy : y.size = a.rowCount * a.blockSize) :
    Gives (·.size = a.rowCount * a.blockSize) (a.sweeps scalar order rhs iterations y) := by
  rcases sound.cache with empty | ⟨square, -⟩
  · have none : a.rowCount = 0 := by
      have positive := sound.valid.blockSize_pos
      rw [empty] at cached
      exact (Nat.mul_eq_zero.mp cached.symm).resolve_right (Nat.mul_pos positive positive).ne'
    cases order with
    | nil => cases iterations <;> exact hy
    | cons i order =>
      have := inside i List.mem_cons_self
      omega
  · exact gives_sweeps sound.valid square cached hrhs inside iterations hy

include sound mismatch vast unfactored crowded

lemma meets_applySor :
    (a.applySor rhs omega iterations).Meets permitted (·.size = y.size) (fun _ => True) y := by
  refine meets_guarded (meets_checkSweep mismatch vast unfactored crowded) fun ⟨cached, hrhs, hy⟩ => ?_
  rw [hy]
  exact .of_gives (gives_sweepsOver sound (fun _ => List.mem_range.mp) cached hrhs hy)

lemma meets_applySsor :
    (a.applySsor rhs omega iterations).Meets permitted (·.size = y.size) (fun _ => True) y := by
  refine meets_guarded (meets_checkSweep mismatch vast unfactored crowded) fun ⟨cached, hrhs, hy⟩ => ?_
  rw [hy]
  refine .of_gives (gives_sweepsOver sound (fun i member => ?_) cached hrhs hy)
  rw [List.mem_append, List.mem_reverse, or_self] at member
  exact List.mem_range.mp member

end Sweeps

end BlockMatrix

end DomainDecomposition
