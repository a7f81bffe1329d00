import DomainDecomposition.BlockMatrix.Operator
import DomainDecomposition.Proofs.BlockMatrix.Dense
import DomainDecomposition.Proofs.BlockMatrix.Sound
import DomainDecomposition.Proofs.BlockMatrix.Values

/-!
# Operations on the values stay within their arrays

An operation on the values of a valid matrix finds every block that it reads or writes, and leaves
the pattern as it is. A second operand may have any other pattern: an operation accepts it when the
receiver stores its positions (`AddsAfter.accepts`), and otherwise it is refused before anything is
written.

* `meets_copyValues`, `meets_axpy`, `meets_axpby`: another matrix is added,
* `meets_addDiagonal`, `meets_zeroRow`: scalars at computed positions are changed,
* `meets_addProduct`: the product of two matrices is added,
* `gives_readBlock`, `meets_toDense`: reading.
-/

namespace DomainDecomposition

open Outcome

variable {T : Type} {permitted : Error → Prop}

namespace BlockMatrix

variable {a other : BlockMatrix T}

/-! ## A second operand -/

/-- Another matrix of the same shape, whose positions are all stored. -/
structure Covers (a other : BlockMatrix T) : Prop where
  shape : (a.blockSize, a.rowCount, a.columnCount) =
    (other.blockSize, other.rowCount, other.columnCount)
  stores : ∀ i j, other.Stores i j → a.Stores i j

/-- Other operands are refused before anything happens. -/
lemma Valid.meets_positionsOf (valid : a.Valid) (validOther : other.Valid)
    (refused : ¬a.Covers other → ∀ fault, permitted (.incompatibleOperand fault)) :
    Meets permitted (fun positions => ∀ p ∈ positions.zipIdx,
        p.1 < a.columns.size ∧ p.2 < other.columns.size)
      (a.positionsOf other) := by
  cases h : a.positionsOf other with
  | ok positions =>
    obtain ⟨-, contained, pairs⟩ := positionsOf_eq_ok validOther h
    change ∀ p ∈ positions.zipIdx, p.1 < a.columns.size ∧ p.2 < other.columns.size
    rw [pairs]
    exact placePairs_inside valid validOther contained
  | error e =>
    suffices Meets permitted (fun _ => True) (a.positionsOf other) by rwa [h] at this
    unfold positionsOf
    by_cases shape : (a.blockSize, a.rowCount, a.columnCount) =
        (other.blockSize, other.rowCount, other.columnCount)
    · have hrows : a.rowCount = other.rowCount := congrArg (·.2.1) shape
      rw [if_neg (not_not.mpr shape)]
      refine (Meets.mapM (Q := fun _ _ => True) fun i member => ?_).bind fun _ _ => trivial
      have hi : i < other.rowCount := by
        rw [← hrows]
        exact List.mem_range.mp member
      unfold positionsOfRow
      rw [validOther.rowColumns_eq hi, ok_bind]
      refine (Meets.mapM (Q := fun _ _ => True) fun c hc => ?_).ignore
      cases found : a.position? i c with
      | some k => trivial
      | none =>
        refine refused (fun covers => ?_) _
        have stored := covers.stores i c (validOther.stores_iff.mpr ⟨hi, hc⟩)
        rw [Stores, found] at stored
        exact absurd stored Bool.false_ne_true
    · rw [if_pos shape]
      exact refused (fun covers => shape covers.shape) _

lemma Covers.sizes (covers : a.Covers other) : a.blockSize = other.blockSize ∧
    a.rowCount = other.rowCount ∧ a.columnCount = other.columnCount := by
  simpa using covers.shape

/-- The positions are found exactly when the operand is covered. -/
lemma positionsOf_cases (valid : a.Valid) (validOther : other.Valid) :
    (a.Covers other ∧ ∃ positions, a.positionsOf other = .ok positions) ∨
      (¬a.Covers other ∧ ∃ fault, a.positionsOf other = .error (.incompatibleOperand fault)) := by
  have outcome : Meets (fun e => ¬a.Covers other ∧ ∃ fault, e = .incompatibleOperand fault) _
      (a.positionsOf other) :=
    valid.meets_positionsOf validOther fun misfit fault => ⟨misfit, fault, rfl⟩
  cases found : a.positionsOf other with
  | ok positions =>
    obtain ⟨⟨blockSize, rows, columns⟩, contained, -⟩ := positionsOf_eq_ok validOther found
    exact .inl ⟨⟨by rw [blockSize, rows, columns], contained⟩, positions, rfl⟩
  | error e =>
    rw [found] at outcome
    obtain ⟨misfit, fault, rfl⟩ := outcome
    exact .inr ⟨misfit, fault, rfl⟩

/-- An operand is accepted exactly when it is covered. -/
lemma checkOperand_eq_ok_iff (valid : a.Valid) (validOther : other.Valid) :
    a.checkOperand other = .ok () ↔ a.Covers other := by
  unfold checkOperand
  rcases positionsOf_cases valid validOther with ⟨covers, positions, found⟩ | ⟨misfit, fault, refused⟩
  · rw [found]
    exact iff_of_true rfl covers
  · rw [refused]
    exact iff_of_false nofun misfit

/-- An operation that succeeds on covered operands and refuses all others before it changes
anything. -/
structure Accepts (u : Update (BlockMatrix T) Unit) (a other : BlockMatrix T) : Prop where
  covered : a.Covers other → ∃ f, u.on a = (.ok (), f) ∧ SamePattern a f
  refused : ¬a.Covers other → ∃ fault, u.on a = (.error (.incompatibleOperand fault), a)

lemma Accepts.meets {u : Update (BlockMatrix T) Unit} (accepts : Accepts u a other)
    (refused : ¬a.Covers other → ∀ fault, permitted (.incompatibleOperand fault)) :
    u.Meets permitted (SamePattern a) (fun _ => True) a := by
  unfold Update.Meets
  by_cases covers : a.Covers other
  · obtain ⟨f, run, same⟩ := accepts.covered covers
    rw [run]
    exact ⟨same, trivial⟩
  · obtain ⟨fault, run⟩ := accepts.refused covers
    rw [run]
    exact ⟨.refl a, refused covers fault⟩

/-! ## Changing the receiver and adding the operand -/

section Addition

variable [Add T] [Mul T]

lemma gives_addBlocks {f : BlockMatrix T} (same : SamePattern a f) (valid : a.Valid)
    (validOther : other.Valid) (alpha : T) {positions : List ℕ}
    (inside : ∀ p ∈ positions.zipIdx, p.1 < a.columns.size ∧ p.2 < other.columns.size) :
    Gives (SamePattern a) (addBlocks alpha other positions f) := by
  obtain ⟨v, hv, rfl⟩ := same
  unfold addBlocks
  refine Meets.bind (Q := fun w => w.size = a.values.size) (.foldlM hv ?_) fun w hw => ⟨w, hw, rfl⟩
  rintro ⟨target, k⟩ member w hw
  obtain ⟨htarget, hk⟩ := inside _ member
  dsimp only at htarget hk ⊢
  rw [validOther.view_block hk, ok_bind]
  exact (Span.gives_run (hw.trans valid.size_values) htarget).bind fun _ _ =>
    (Span.size_overwrite ..).trans hw

/-- The operation finds the positions, changes every scalar of the receiver by `m` and adds `alpha`
times the operand. -/
structure AddsAfter (m : T → T) (alpha : T) (other : BlockMatrix T)
    (u : Update (BlockMatrix T) Unit) (a : BlockMatrix T) : Prop where
  found : ∀ positions, a.positionsOf other = .ok positions →
    u.on a = (Update.replace (addBlocks alpha other positions)).on (a.withValues (a.values.map m))
  missing : ∀ e, a.positionsOf other = .error e → u.on a = (.error e, a)

lemma addsAfter_axpy (alpha : T) (a other : BlockMatrix T) :
    AddsAfter id alpha other (axpy alpha other) a := by
  have unchanged : a.withValues (a.values.map id) = a := by
    rw [Array.map_id]
    rfl
  constructor
  · intro positions found
    rw [axpy, Update.on_bind_of_ok (Update.on_get a), found, unchanged]
    rfl
  · intro e missing
    rw [axpy, Update.on_bind_of_ok (Update.on_get a), missing]
    rfl

lemma addsAfter_axpby (alpha beta : T) (a other : BlockMatrix T) :
    AddsAfter (· * beta) alpha other (axpby alpha beta other) a := by
  constructor
  · intro positions found
    rw [axpby, Update.on_bind_of_ok (Update.on_get a), found]
    rfl
  · intro e missing
    rw [axpby, Update.on_bind_of_ok (Update.on_get a), missing]
    rfl

lemma addsAfter_copyValues [Zero T] [One T] (a other : BlockMatrix T) :
    AddsAfter (fun _ => 0) 1 other (copyValues other) a := by
  constructor
  · intro positions found
    rw [copyValues, Update.on_bind_of_ok (Update.on_get a), found]
    rfl
  · intro e missing
    rw [copyValues, Update.on_bind_of_ok (Update.on_get a), missing]
    rfl

variable {m : T → T} {alpha : T} {u : Update (BlockMatrix T) Unit}

/-- In any arithmetic, what is covered is accepted and nothing else. -/
lemma AddsAfter.accepts (adds : AddsAfter m alpha other u a) (valid : a.Valid)
    (validOther : other.Valid) : Accepts u a other := by
  rcases positionsOf_cases valid validOther with ⟨covers, positions, found⟩ | ⟨misfit, fault, refused⟩
  · have changed : SamePattern a (a.withValues (a.values.map m)) := ⟨_, Array.size_map, rfl⟩
    have inside : ∀ p ∈ positions.zipIdx, p.1 < a.columns.size ∧ p.2 < other.columns.size := by
      obtain ⟨-, contained, pairs⟩ := positionsOf_eq_ok validOther found
      rw [pairs]
      exact placePairs_inside valid validOther contained
    have added := gives_addBlocks changed valid validOther alpha inside
    constructor
    · intro _
      rw [adds.found positions found, Update.on_replace]
      cases result : addBlocks alpha other positions (a.withValues (a.values.map m)) with
      | ok f =>
        rw [result] at added
        exact ⟨f, rfl, added⟩
      | error e =>
        rw [result] at added
        exact added.elim
    · exact fun misfit => absurd covers misfit
  · constructor
    · exact fun covers => absurd covers misfit
    · exact fun _ => ⟨fault, adds.missing _ refused⟩

end Addition

section Operands

variable [Add T] [Mul T] (valid : a.Valid) (validOther : other.Valid)
variable (refused : ¬a.Covers other → ∀ fault, permitted (.incompatibleOperand fault))

include valid validOther refused

lemma meets_axpy (alpha : T) :
    (axpy alpha other).Meets permitted (SamePattern a) (fun _ => True) a :=
  ((addsAfter_axpy alpha a other).accepts valid validOther).meets refused

lemma meets_axpby (alpha beta : T) :
    (axpby alpha beta other).Meets permitted (SamePattern a) (fun _ => True) a :=
  ((addsAfter_axpby alpha beta a other).accepts valid validOther).meets refused

lemma meets_copyValues [Zero T] [One T] :
    (copyValues other).Meets permitted (SamePattern a) (fun _ => True) a :=
  ((addsAfter_copyValues a other).accepts valid validOther).meets refused

end Operands

/-! ## Scalars at computed positions -/

/-- Scalar `(v, w)` of block `k` lies inside. -/
lemma scalar_lt {b n k v w : ℕ} (hk : k < n) (hv : v < b) (hw : w < b) :
    (k * b + v) * b + w < n * (b * b) :=
  calc (k * b + v) * b + w = k * (b * b) + (v * b + w) := by ring
    _ < k * (b * b) + b * b := Nat.add_lt_add_left (Block.position_lt hv hw) _
    _ = (k + 1) * (b * b) := (Nat.succ_mul ..).symm
    _ ≤ n * (b * b) := Span.succ_mul_le _ hk

/-- Row `v` of block `k` lies inside. -/
lemma scalarRow_le {b n k v : ℕ} (hk : k < n) (hv : v < b) : (k * b + v) * b + b ≤ n * (b * b) := by
  have hlast := scalar_lt (w := b - 1) hk hv (by omega)
  omega

lemma meets_addDiagonal [Add T] (valid : a.Valid)
    (missing : ¬a.HasDiagonal → permitted (.config .diagonalMissing)) (alpha : T) :
    (addDiagonal alpha).Meets permitted (SamePattern a) (fun _ => True) a := by
  unfold addDiagonal
  apply Update.Meets.get_bind
  apply Update.Meets.lift_bind (.refl a) (valid.meets_requireDiagonal missing)
  rintro _ ⟨rfl, has⟩
  apply Update.Meets.replace (.refl a)
  refine Meets.bind (Q := fun w => w.size = a.values.size) (.foldlM rfl ?_) fun w hw => ⟨w, hw, rfl⟩
  intro k member values hvalues
  have hk := has.lt_of_mem_diagonal valid member
  refine .foldlM hvalues fun v member values hvalues => ?_
  have hv := List.mem_range.mp member
  have inside : (k * a.blockSize + v) * a.blockSize + v < values.size := by
    rw [hvalues, valid.size_values]
    exact scalar_lt hk hv hv
  have found : Span.item values ((k * a.blockSize + v) * a.blockSize + v) =
      .ok values[(k * a.blockSize + v) * a.blockSize + v] :=
    Span.item_eq_ok.mpr (Array.getElem?_eq_getElem inside)
  rw [found, ok_bind]
  exact (Array.size_setIfInBounds ..).trans hvalues

section Clearing

variable [Zero T] [One T]

lemma gives_clearEntryRows {b n k : ℕ} {components : List ℕ} {onDiagonal : Bool}
    {values : Array T} (hvalues : values.size = n * (b * b)) (hk : k < n)
    (inside : ∀ v ∈ components, v < b) :
    Gives (·.size = n * (b * b)) (clearEntryRows b k components onDiagonal values) := by
  unfold clearEntryRows
  refine .foldlM hvalues fun v member values hvalues => ?_
  have line : (k * b + v) * b + b ≤ values.size := by
    rw [hvalues]
    exact scalarRow_le hk (inside v member)
  dsimp only
  rw [Span.run_eq_ok.mpr ⟨line, rfl⟩, ok_bind]
  split
  · exact (Array.size_setIfInBounds ..).trans ((Span.size_overwrite ..).trans hvalues)
  · exact (Span.size_overwrite ..).trans hvalues

lemma meets_zeroRow (valid : a.Valid) (faults : ∀ fault, permitted (.config fault)) (row : ℕ)
    (components : List ℕ) (identity : Bool) :
    (zeroRow row components identity).Meets permitted (SamePattern a) (fun _ => True) a := by
  unfold zeroRow
  apply Update.Meets.get_bind
  dsimp only
  by_cases hrow : a.rowCount ≤ row
  · rw [if_pos hrow]
    exact .throw_bind (.refl a) (faults _)
  rw [if_neg hrow]
  cases hfind : components.find? (a.blockSize ≤ ·) with
  | some v => exact .throw_bind (.refl a) (faults _)
  | none =>
    have inside : ∀ v ∈ components, v < a.blockSize := by
      simpa using hfind
    have hrow' : row < a.rowCount := Nat.lt_of_not_le hrow
    have hstop := valid.start_le_size (i := row + 1) hrow'
    apply Update.Meets.replace (.refl a)
    rw [valid.item_rowStart (Nat.le_of_lt hrow'), ok_bind, valid.item_rowStart (i := row + 1) hrow',
      ok_bind]
    refine Meets.bind (Q := (·.size = a.columns.size * (a.blockSize * a.blockSize)))
      (.foldlM valid.size_values ?_) fun w hw => ⟨w, hw.trans valid.size_values.symm, rfl⟩
    intro k member values hvalues
    rw [List.mem_range'_1] at member
    exact .of_gives (gives_clearEntryRows hvalues (by omega) inside)

end Clearing

/-! ## Products of matrices -/

lemma Valid.view_rowSlice (valid : a.Valid) {i : ℕ} (hi : i < a.rowCount) :
    a.view.rowSlice i = .ok (a.rowEntries i) := by
  have hle := valid.start_le i hi
  have hstop := valid.start_le_size (i := i + 1) hi
  have hlow := Nat.mul_le_mul_right (a.blockSize * a.blockSize) hle
  have hhigh := Nat.mul_le_mul_right (a.blockSize * a.blockSize) hstop
  rw [← valid.size_values] at hhigh
  unfold View.rowSlice
  change (Span.item a.rowStart i >>= fun start => Span.item a.rowStart (i + 1) >>= fun stop =>
    Span.between a.columns start stop >>= fun _ => Span.between a.values
      (start * (a.blockSize * a.blockSize)) (stop * (a.blockSize * a.blockSize)) >>= fun _ => _) = _
  rw [valid.item_rowStart (Nat.le_of_lt hi), ok_bind, valid.item_rowStart (i := i + 1) hi, ok_bind,
    Span.between, if_pos hle, Span.run, if_pos (by omega), ok_bind, Span.between, if_pos hlow,
    Span.run, if_pos (by omega), ok_bind]
  exact valid.view_entries hstop

section Products

variable [Zero T] [Add T] [Sub T] [Mul T] {left right c : BlockMatrix T}
variable (validLeft : left.Valid) (validRight : right.Valid) (valid : c.Valid)
variable (sizeLeft : left.blockSize = c.blockSize) (sizeRight : right.blockSize = c.blockSize)
variable (inner : left.columnCount = right.rowCount)

include validLeft validRight valid sizeLeft sizeRight inner

omit validRight inner in
/-- A row is added on the entries that the target has in it. Where the row of the left factor is
empty, nothing is written. -/
lemma addProductRow_eq (scale : Block.Scale T) {i : ℕ} (hi : i < left.rowCount)
    (hi' : i < c.rowCount) {values : Array T} (hvalues : values.size = c.values.size) :
    View.addProductRow scale left.view right.view c.view values i =
      match left.rowEntries i with
      | [] => .ok values
      | row => do
        let new ← View.addRowProduct c.blockSize scale right.view row
          ((c.withValues values).rowEntries i)
        return Span.overwrite values (c.start i * (c.blockSize * c.blockSize)) new.scalars := by
  have target : View.rowSlice { c.view with blockSize := left.view.blockSize, values } i =
      (c.withValues values).view.rowSlice i := by
    change View.rowSlice { c.view with blockSize := left.blockSize, values } i = _
    rw [sizeLeft]
    rfl
  have factor : { right.view with blockSize := left.view.blockSize } = right.view := by
    change { right.view with blockSize := left.blockSize } = right.view
    rw [sizeLeft, ← sizeRight]
    rfl
  unfold View.addProductRow
  change (Span.item c.rowStart i >>= fun start => Span.item c.rowStart (i + 1) >>= fun _ => _) = _
  rw [valid.item_rowStart (Nat.le_of_lt hi'), ok_bind, valid.item_rowStart (i := i + 1) hi', ok_bind,
    validLeft.view_row hi, ok_bind]
  cases left.rowEntries i with
  | nil => rfl
  | cons e row =>
    dsimp only
    rw [target, factor, (valid.withValues hvalues).view_rowSlice hi', ok_bind,
      show left.view.blockSize = c.blockSize from sizeLeft]

/-- The columns of the left factor are rows of the right one. -/
lemma gives_addProductRow (scale : Block.Scale T) {i : ℕ} (hi : i < left.rowCount)
    (hi' : i < c.rowCount) {values : Array T} (hvalues : values.size = c.values.size) :
    Gives (·.size = c.values.size)
      (View.addProductRow scale left.view right.view c.view values i) := by
  rw [addProductRow_eq validLeft valid sizeLeft sizeRight scale hi hi' hvalues]
  split
  · exact hvalues
  · unfold View.addRowProduct
    refine Meets.bind (Q := fun _ => True) (.foldlM trivial ?_) fun _ _ =>
      (Span.size_overwrite ..).trans hvalues
    rintro ⟨j, block⟩ member _ _
    have hj : j < right.rowCount := by
      rw [← inner]
      apply validLeft.columns_lt i hi
      rw [← columns_rowEntries]
      exact List.mem_map_of_mem member
    dsimp only
    rw [validRight.view_rowSlice hj]
    trivial

lemma gives_addProduct [One T] [Neg T] [BEq T] (alpha : T) :
    Gives (·.size = c.values.size) (View.addProduct alpha left.view right.view c.view) := by
  refine .up rfl fun i values _ high hvalues => ?_
  have hi : i < min left.rowCount c.rowCount := by
    rwa [Nat.zero_add] at high
  exact gives_addProductRow validLeft validRight valid sizeLeft sizeRight inner _ (by omega)
    (by omega) hvalues

omit sizeLeft sizeRight inner in
lemma meets_addProduct [One T] [Neg T] [BEq T]
    (refused : ∀ fault, permitted (.incompatibleOperand fault)) (alpha : T) :
    (addProduct alpha left right).Meets permitted (SamePattern c) (fun _ => True) c := by
  unfold addProduct
  apply Update.Meets.get_bind
  dsimp only
  by_cases sizes : left.blockSize ≠ c.blockSize ∨ right.blockSize ≠ c.blockSize
  · rw [if_pos sizes]
    exact .throw_bind (.refl c) (refused _)
  rw [if_neg sizes]
  by_cases shapes : left.rowCount ≠ c.rowCount ∨ left.columnCount ≠ right.rowCount ∨
      right.columnCount ≠ c.columnCount
  · rw [if_pos shapes]
    exact .throw_bind (.refl c) (refused _)
  rw [if_neg shapes]
  simp only [not_or, not_not] at sizes shapes
  have added := gives_addProduct validLeft validRight valid sizes.1 sizes.2 shapes.2.1 alpha
  apply Update.Meets.replace (.refl c)
  exact Meets.bind (.of_gives added) fun w hw => ⟨w, hw, rfl⟩

end Products

/-! ## Blocks and dense copies -/

/-- Reading a block with every access checked: the two offsets of its row, the columns between them,
and the run of its values. -/
def readBlock (a : BlockMatrix T) (i j : ℕ) : Except Error (Option (Array T)) :=
  match a.rowStart[i]?, a.rowStart[i + 1]? with
  | some start, some stop => do
    let row ← Span.between a.columns start stop
    match Bisection.search row j with
    | some k =>
      return some (← Span.run a.values ((start + k) * (a.blockSize * a.blockSize))
        (a.blockSize * a.blockSize))
    | none => return none
  | _, _ => return none

/-- The checks of a read pass, and it answers what an unchecked one does. -/
lemma Valid.readBlock_eq (valid : a.Valid) (i j : ℕ) : a.readBlock i j = .ok (a.block? i j) := by
  unfold readBlock block?
  rcases Nat.lt_or_ge i a.rowCount with hi | hi
  · have hle := valid.start_le i hi
    have hstop := valid.start_le_size (i := i + 1) hi
    rw [valid.getElem?_rowStart (Nat.le_of_lt hi), valid.getElem?_rowStart (i := i + 1) hi,
      valid.position?_eq hi]
    dsimp only
    rw [Span.between, if_pos hle, Span.run, if_pos (by omega), ok_bind, Nat.add_sub_cancel' hle,
      valid.extract_columns hi, valid.search_columnsOf hi]
    cases found : (a.columnsOf i).findIdx? (· == j) with
    | none => rfl
    | some k =>
      obtain ⟨inside, -⟩ := List.findIdx?_eq_some_iff_getElem.mp found
      rw [columnsOf, List.length_map, List.length_range'] at inside
      dsimp only
      rw [Span.run_chunk (by
        rw [valid.size_values]
        exact Span.succ_mul_le _ (by omega))]
      rfl
  · have outside : a.rowStart[i + 1]? = none := Array.getElem?_eq_none (by
      rw [valid.size_rowStart]
      omega)
    rw [valid.position?_eq_none hi, outside]
    cases a.rowStart[i]? with
    | none => rfl
    | some start => rfl

lemma meets_setBlock (i j : ℕ) {block : Array T}
    (full : block.size = a.blockSize * a.blockSize) :
    (setBlock i j block).Meets permitted (SamePattern a) (fun _ => True) a := by
  unfold setBlock Update.Meets
  rw [Update.on_ofFunction]
  cases a.position? i j with
  | none => exact ⟨.refl a, trivial⟩
  | some k =>
    dsimp only
    rw [if_pos full]
    exact ⟨⟨_, Span.size_overwrite .., rfl⟩, trivial⟩

/-- A dense copy fails only for lack of room. -/
lemma meets_toDense [Zero T] (valid : a.Valid) (crowded : ¬a.HasDenseCopy → permitted .tooLarge) :
    Meets permitted (fun _ => True) a.toDense := by
  rw [toDense_eq valid]
  split
  case isTrue room => exact trivial
  case isFalse full => exact crowded full

end BlockMatrix

end DomainDecomposition
