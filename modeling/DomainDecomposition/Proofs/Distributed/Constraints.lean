import DomainDecomposition.Distributed.Values
import DomainDecomposition.Proofs.BlockMatrix.ClearedRows
import DomainDecomposition.Proofs.Distributed.Placed
import DomainDecomposition.Proofs.Store

/-!
# Imposing constraints

The constraints on the blocks of a rank name scalar rows. `Imposed rows` says that these rows are
rows of the identity in the diagonal piece, and zero in the off-diagonal piece, and that nothing
else in the store has changed. Constraints that are not `WellPlaced` are refused before anything
changes; all other ones are imposed, row after row, and no row can fail.

* `Imposed.trans`, `Imposed.unique`: rows are imposed in any order, and as often as one likes,
* `imposeConstraints_on`: well placed constraints are imposed,
* `imposeConstraints_refused`: all others leave the store as it is.
-/

namespace DomainDecomposition

open Outcome

variable {T : Type}

/-- Stores of one size whose handles name the same matrices are equal. -/
lemma Store.eq_of_get_eq {s s' : Store T} (size : s'.matrices.size = s.matrices.size)
    (same : ∀ h, s'.get h = s.get h) : s' = s := by
  have matrices : s'.matrices = s.matrices := by
    refine Array.ext size fun i hi hi' => ?_
    have read := same ⟨i⟩
    rwa [get, get, Array.getD_eq_getD_getElem?, Array.getD_eq_getD_getElem?,
      Array.getElem?_eq_getElem hi, Array.getElem?_eq_getElem hi'] at read
  cases s
  cases s'
  exact congrArg Store.mk matrices

/-! ## Constraints on a run of blocks -/

namespace Constraints

/-- The constrained scalars of the blocks from `first` up to `stop`. Each is named by the number of
its block in this run and its component. -/
def scalars (c : Constraints T) (first stop : ℕ) : Set (ℕ × ℕ) :=
  {p | ∃ e ∈ c.entries, (first ≤ e.block ∧ e.block < stop) ∧ p.1 = e.block - first ∧
    p.2 ∈ e.components}

/-- Every constraint on a block of the run knows the number of its block, and names only components
that a block has. -/
def WellPlaced (c : Constraints T) (first stop b : ℕ) : Prop :=
  ∀ e ∈ c.entries, first ≤ e.block ∧ e.block < stop →
    e.localBlock = e.block - first ∧ ∀ v ∈ e.components, v < b

/-- The constraints on the blocks of a run, each with the number of its block. -/
def within (c : Constraints T) (first stop : ℕ) : List (ℕ × Constraint T) :=
  (c.entries.filter fun e => first ≤ e.block && e.block < stop).map fun e => (e.block - first, e)

variable {c : Constraints T} {p : RowPartition} {first stop : ℕ}

lemma owned_eq (range : p.range = .ok (first, stop)) : c.owned p = .ok (c.within first stop) := by
  rw [owned, range]
  rfl

lemma mem_within {row : ℕ} {e : Constraint T} :
    (row, e) ∈ c.within first stop ↔
      e ∈ c.entries ∧ (first ≤ e.block ∧ e.block < stop) ∧ row = e.block - first := by
  simp only [within, List.mem_map, List.mem_filter, Bool.and_eq_true, decide_eq_true_eq]
  constructor
  · rintro ⟨e', ⟨member, inside⟩, same⟩
    obtain ⟨rfl, rfl⟩ := Prod.mk.inj same
    exact ⟨member, inside, rfl⟩
  · rintro ⟨member, inside, rfl⟩
    exact ⟨e, ⟨member, inside⟩, rfl⟩

lemma wellPlaced_iff {b : ℕ} : c.WellPlaced first stop b ↔
    ∀ p ∈ c.within first stop, p.2.localBlock = p.1 ∧ ∀ v ∈ p.2.components, v < b := by
  constructor
  · rintro placed ⟨row, e⟩ listed
    obtain ⟨member, inside, rfl⟩ := mem_within.mp listed
    exact placed e member inside
  · intro passes e member inside
    exact passes (e.block - first, e) (mem_within.mpr ⟨member, inside, rfl⟩)

end Constraints

namespace DistributedMatrix

variable {a : DistributedMatrix T}

/-! ## The test -/

lemma checkConstraints_passes {owned : List (ℕ × Constraint T)}
    (passes : ∀ p ∈ owned, p.2.localBlock = p.1 ∧ ∀ v ∈ p.2.components, v < a.layout.blockSize) :
    a.checkConstraints owned = .ok () := by
  rw [checkConstraints, List.find?_eq_none.mpr ?places]
  case places =>
    intro p member
    simpa using (passes p member).1
  dsimp only
  rw [List.find?_eq_none.mpr ?components]
  case components =>
    intro p member
    simpa using (passes p member).2
  rfl

lemma checkConstraints_fails {owned : List (ℕ × Constraint T)}
    (fails : ¬∀ p ∈ owned, p.2.localBlock = p.1 ∧ ∀ v ∈ p.2.components, v < a.layout.blockSize) :
    ∃ fault, a.checkConstraints owned = .error (.config fault) := by
  unfold checkConstraints
  split
  · exact ⟨_, rfl⟩
  · next places =>
    dsimp only
    split
    · exact ⟨_, rfl⟩
    · next components =>
      refine absurd (fun p member => ⟨?_, ?_⟩) fails
      · simpa using List.find?_eq_none.mp (Option.eq_none_iff_forall_ne_some.mpr
          fun p found => places p.1 p.2 found) p member
      · simpa using List.find?_eq_none.mp (Option.eq_none_iff_forall_ne_some.mpr
          fun p found => components p.1 p.2 found) p member

/-! ## Imposed rows -/

variable [Zero T] [One T]

/-- The listed scalar rows of a matrix are constrained: rows of the identity in the diagonal piece,
and zero in the off-diagonal piece. Nothing else in the store has changed. -/
structure Imposed (a : DistributedMatrix T) (rows : Set (ℕ × ℕ)) (s s' : Store T) : Prop where
  diagonal : BlockMatrix.Cleared rows true (s.get a.diagonal) (s'.get a.diagonal)
  offDiagonal : BlockMatrix.Cleared {p | (a.layout.interior + p.1, p.2) ∈ rows} false
    (s.get a.offDiagonal) (s'.get a.offDiagonal)
  others : ∀ h, h ≠ a.diagonal → h ≠ a.offDiagonal → s'.get h = s.get h
  size : s'.matrices.size = s.matrices.size

namespace Imposed

variable {rows rows' : Set (ℕ × ℕ)} {s s' s'' : Store T}

/-- The rows determine the store. -/
lemma unique (fits : a.Fits s) (h' : a.Imposed rows s s') (h'' : a.Imposed rows s s'') :
    s' = s'' := by
  refine Store.eq_of_get_eq (h'.size.trans h''.size.symm) fun h => ?_
  by_cases own : h = a.diagonal
  · rw [own]
    exact h'.diagonal.unique fits.diagonal h''.diagonal
  by_cases remote : h = a.offDiagonal
  · rw [remote]
    exact h'.offDiagonal.unique fits.offDiagonal h''.offDiagonal
  · rw [h'.others h own remote, h''.others h own remote]

/-- Without rows nothing changes. -/
lemma refl (fits : a.Fits s) : a.Imposed ∅ s s where
  diagonal := .refl fits.diagonal true
  offDiagonal := .refl fits.offDiagonal false
  others := fun _ _ _ => rfl
  size := rfl

/-- Some rows, and then others. -/
lemma trans (h : a.Imposed rows s s') (h' : a.Imposed rows' s' s'') :
    a.Imposed (rows ∪ rows') s s'' where
  diagonal := h.diagonal.trans h'.diagonal
  offDiagonal := h.offDiagonal.trans h'.offDiagonal
  others := fun k own remote => (h'.others k own remote).trans (h.others k own remote)
  size := h'.size.trans h.size

/-- Imposing the same rows again changes nothing. -/
lemma again (fits : a.Fits s) (h : a.Imposed rows s s') (h' : a.Imposed rows s' s'') : s'' = s' :=
  have twice := h.trans h'
  (Set.union_self rows ▸ twice).unique fits h

/-- The pieces still fit together. -/
lemma fits (h : a.Imposed rows s s') (fits : a.Fits s) : a.Fits s' where
  layout := by
    obtain ⟨v, -, own⟩ := h.diagonal.same
    obtain ⟨w, -, remote⟩ := h.offDiagonal.same
    rw [own, remote]
    exact fits.layout
  held_diagonal := Nat.lt_of_lt_of_eq fits.held_diagonal h.size.symm
  held_offDiagonal := Nat.lt_of_lt_of_eq fits.held_offDiagonal h.size.symm
  diagonal := h.diagonal.same.valid fits.diagonal
  offDiagonal := h.offDiagonal.same.valid fits.offDiagonal

end Imposed

/-! ## One constraint -/

variable {s : Store T}

/-- The rows of one constraint. -/
def imposeOne (a : DistributedMatrix T) (row : ℕ) (components : List ℕ) : Update (Store T) Unit := do
  Store.onMatrix a.diagonal (BlockMatrix.zeroRow row components true)
  if a.layout.interior ≤ row then
    Store.onMatrix a.offDiagonal (BlockMatrix.zeroRow (row - a.layout.interior) components false)

/-- The listed components of one block row. -/
def componentsOf (row : ℕ) (components : List ℕ) : Set (ℕ × ℕ) :=
  {p | p.1 = row ∧ p.2 ∈ components}

lemma imposeOne_spec (fits : a.Fits s) (distinct : a.diagonal ≠ a.offDiagonal) {row : ℕ}
    (hrow : row < a.layout.owned) {components : List ℕ}
    (inside : ∀ v ∈ components, v < a.layout.blockSize) :
    ∃ s', (a.imposeOne row components).on s = (.ok (), s') ∧
      a.Imposed (componentsOf row components) s s' := by
  have hrow' : row < (s.get a.diagonal).rowCount := by rwa [fits.rows_diagonal]
  obtain ⟨f, run, own⟩ :=
    BlockMatrix.zeroRow_spec fits.diagonal hrow' (by rwa [fits.blockSize_diagonal]) true
  have first : (Store.onMatrix a.diagonal (BlockMatrix.zeroRow row components true)).on s =
      (.ok (), s.set a.diagonal f) := by
    rw [Store.onMatrix, Update.on_focus, run]
  have remote : (s.set a.diagonal f).get a.offDiagonal = s.get a.offDiagonal :=
    Store.get_set_ne s f distinct
  rw [imposeOne, Update.on_bind_of_ok first]
  by_cases interface : a.layout.interior ≤ row
  · -- the row couples to other ranks
    have hrow'' : row - a.layout.interior < (s.get a.offDiagonal).rowCount := by
      rw [fits.rows_offDiagonal]
      omega
    obtain ⟨g, run', off⟩ :=
      BlockMatrix.zeroRow_spec fits.offDiagonal hrow'' (by rwa [fits.blockSize_offDiagonal]) false
    refine ⟨(s.set a.diagonal f).set a.offDiagonal g, ?_, ?_, ?_, fun h own remote => ?_, ?_⟩
    · rw [if_pos interface, Store.onMatrix, Update.on_focus, remote, run']
    · rwa [Store.get_set_ne _ g distinct.symm, Store.get_set_self s _ f fits.held_diagonal]
    · rw [Store.get_set_self _ _ g (Store.holds_set fits.held_offDiagonal f)]
      convert off using 1
      ext p
      simp only [componentsOf, Set.mem_ofPred_eq]
      exact and_congr_left' (by omega)
    · rw [Store.get_set_ne _ g (Ne.symm remote), Store.get_set_ne _ f (Ne.symm own)]
    · simp [Store.set]
  · -- an interior row has no remote blocks
    refine ⟨s.set a.diagonal f, ?_, ?_, ?_, fun h own _ => ?_, ?_⟩
    · rw [if_neg interface]
      rfl
    · rwa [Store.get_set_self s _ f fits.held_diagonal]
    · rw [remote]
      convert BlockMatrix.Cleared.refl fits.offDiagonal false using 1
      ext p
      simp only [componentsOf, Set.mem_ofPred_eq, Set.mem_empty_iff_false, iff_false]
      rintro ⟨same, -⟩
      omega
    · rw [Store.get_set_ne _ f (Ne.symm own)]
    · simp [Store.set]

/-! ## All constraints -/

/-- The rows of several constraints. -/
lemma imposeAll_spec (distinct : a.diagonal ≠ a.offDiagonal) {owned : List (ℕ × Constraint T)}
    (inside : ∀ p ∈ owned, p.1 < a.layout.owned ∧ ∀ v ∈ p.2.components, v < a.layout.blockSize)
    (fits : a.Fits s) :
    ∃ s', (owned.forM fun p => a.imposeOne p.1 p.2.components).on s = (.ok (), s') ∧
      a.Imposed {q | ∃ p ∈ owned, q ∈ componentsOf p.1 p.2.components} s s' := by
  induction owned generalizing s with
  | nil =>
    refine ⟨s, rfl, ?_⟩
    convert Imposed.refl fits
    simp
  | cons p owned ih =>
    obtain ⟨⟨hrow, components⟩, inside⟩ := List.forall_mem_cons.mp inside
    obtain ⟨s₁, first, imposed⟩ := imposeOne_spec fits distinct hrow components
    obtain ⟨s₂, rest, imposed'⟩ := ih inside (imposed.fits fits)
    refine ⟨s₂, ?_, ?_⟩
    · show (a.imposeOne p.1 p.2.components >>= fun _ =>
        owned.forM fun p => a.imposeOne p.1 p.2.components).on s = _
      rw [Update.on_bind_of_ok first, rest]
    · convert imposed.trans imposed'
      ext q
      simp

variable {first stop : ℕ}

lemma imposeConstraints_eq {c : Constraints T} (constraints : a.constraints = some c)
    (range : a.partition.range = .ok (first, stop)) :
    a.imposeConstraints.on s = ((monadLift (a.checkConstraints (c.within first stop)) :
      Update (Store T) Unit) >>= fun _ =>
        (c.within first stop).forM fun p => a.imposeOne p.1 p.2.components).on s := by
  rw [imposeConstraints, constraints]
  dsimp only
  rw [Constraints.owned_eq range]
  rfl

/-- Well placed constraints are imposed. -/
lemma imposeConstraints_on (fits : a.Fits s) (distinct : a.diagonal ≠ a.offDiagonal)
    (range : a.partition.range = .ok (first, stop))
    (placed : (a.constraints.getD .empty).WellPlaced first stop a.layout.blockSize) :
    ∃ s', a.imposeConstraints.on s = (.ok (), s') ∧
      a.Imposed ((a.constraints.getD .empty).scalars first stop) s s' := by
  cases constraints : a.constraints with
  | none =>
    refine ⟨s, by rw [imposeConstraints, constraints]; rfl, ?_⟩
    convert Imposed.refl fits
    simp [Constraints.scalars, Constraints.empty]
  | some c =>
    rw [constraints, Option.getD_some, Constraints.wellPlaced_iff] at placed
    have owned : a.layout.owned = stop - first := by
      have local' := fits.localSize_eq
      rw [RowPartition.localSize, range] at local'
      exact (Except.ok.inj local').symm
    have inside : ∀ p ∈ c.within first stop,
        p.1 < a.layout.owned ∧ ∀ v ∈ p.2.components, v < a.layout.blockSize := by
      rintro ⟨row, e⟩ listed
      obtain ⟨-, inside, rfl⟩ := Constraints.mem_within.mp listed
      exact ⟨by dsimp only; omega, (placed _ listed).2⟩
    obtain ⟨s', run, imposed⟩ := imposeAll_spec distinct inside fits
    refine ⟨s', ?_, ?_⟩
    · rw [imposeConstraints_eq constraints range, checkConstraints_passes placed]
      exact run
    · convert imposed
      ext q
      simp only [Constraints.scalars, componentsOf, Option.getD_some, Set.mem_ofPred_eq]
      constructor
      · rintro ⟨e, member, inside, same, listed⟩
        exact ⟨(q.1, e), Constraints.mem_within.mpr ⟨member, inside, same⟩, rfl, listed⟩
      · rintro ⟨⟨row, e⟩, listed, rfl, component⟩
        obtain ⟨member, inside, same⟩ := Constraints.mem_within.mp listed
        exact ⟨e, member, inside, same, component⟩

/-- All other constraints are refused. -/
lemma imposeConstraints_refused (range : a.partition.range = .ok (first, stop))
    (misplaced : ¬(a.constraints.getD .empty).WellPlaced first stop a.layout.blockSize) :
    ∃ fault, a.imposeConstraints.on s = (.error (.config fault), s) := by
  cases constraints : a.constraints with
  | none => simp [constraints, Constraints.WellPlaced, Constraints.empty] at misplaced
  | some c =>
    rw [constraints, Option.getD_some, Constraints.wellPlaced_iff] at misplaced
    obtain ⟨fault, refused⟩ := checkConstraints_fails misplaced
    refine ⟨fault, ?_⟩
    rw [imposeConstraints_eq constraints range, Update.on_bind, Update.on_monadLift, refused]

end DistributedMatrix

end DomainDecomposition
