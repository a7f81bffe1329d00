import DomainDecomposition.Distributed.Values
import DomainDecomposition.Proofs.BlockMatrix.Combination
import DomainDecomposition.Proofs.Distributed.BoundaryConditions
import DomainDecomposition.Proofs.Store

/-!
# Combining distributed matrices that share pieces

A second operand may share its diagonal piece with the receiver, its off-diagonal piece, both or
none. A shared piece is its own operand, and combining a matrix with itself is scaling it. So the
operations differ only in what they do to a piece that is shared and to one that is not
(`pieceStep`). The operand is checked before either piece changes, and what the check has accepted
of the second piece stays true while the first one changes, as the values of a matrix are no part of
its pattern.

* `checkOperand_cases`: what the check accepts,
* `Changed`: both pieces have been combined, and all other matrices of the store are as they were,
* `Treats.run`: one step for each piece, one after the other,
* `accepts_of_treats`: the check and the steps together.
-/

namespace DomainDecomposition.DistributedMatrix

open Outcome
open BlockMatrix (Combined Covers SamePattern)

variable {T : Type} {s : Store T} {a other : DistributedMatrix T}

/-! ## What the check accepts -/

/-- Both matrices have one layout, and the receiver stores every position that the operand does. -/
structure Contains (s : Store T) (a other : DistributedMatrix T) : Prop where
  layout : a.layout = other.layout
  diagonal : ∀ i j, (s.get other.diagonal).Stores i j → (s.get a.diagonal).Stores i j
  offDiagonal : ∀ i j, (s.get other.offDiagonal).Stores i j → (s.get a.offDiagonal).Stores i j

section Check

variable (fits : a.Fits s) (fitsOther : other.Fits s)

include fits fitsOther

/-- Where the layouts agree, so do the shapes of the pieces. -/
lemma Contains.covers (contains : Contains s a other) :
    (s.get a.diagonal).Covers (s.get other.diagonal) ∧
      (s.get a.offDiagonal).Covers (s.get other.offDiagonal) := by
  refine ⟨⟨?_, contains.diagonal⟩, ⟨?_, contains.offDiagonal⟩⟩
  · rw [fits.blockSize_diagonal, fits.rows_diagonal, fits.columns_diagonal,
      fitsOther.blockSize_diagonal, fitsOther.rows_diagonal, fitsOther.columns_diagonal,
      contains.layout]
  · rw [fits.blockSize_offDiagonal, fits.rows_offDiagonal, fits.columns_offDiagonal,
      fitsOther.blockSize_offDiagonal, fitsOther.rows_offDiagonal, fitsOther.columns_offDiagonal,
      contains.layout]

/-- An operand is accepted exactly when it is contained. -/
lemma checkOperand_cases :
    (Contains s a other ∧ checkOperand s a other = .ok ()) ∨
      (¬Contains s a other ∧
        ∃ fault, checkOperand s a other = .error (.incompatibleOperand fault)) := by
  by_cases layout : a.layout = other.layout
  case neg =>
    refine .inr ⟨fun contains => layout contains.layout, .layout other.layout a.layout, ?_⟩
    unfold checkOperand
    rw [if_pos layout]
    rfl
  -- a piece that is shared covers itself, and the others are scanned
  have outcome : Meets (fun e => ¬Contains s a other ∧ ∃ fault, e = .incompatibleOperand fault)
      (fun _ => ∀ p ∈ a.pairs other, (s.get p.1).Covers (s.get p.2)) (checkOperand s a other) := by
    unfold checkOperand
    rw [if_neg (not_not.mpr layout)]
    refine Meets.forM fun p member => ?_
    have valid : (s.get p.1).Valid ∧ (s.get p.2).Valid := by
      rcases List.mem_pair.mp member with rfl | rfl
      · exact ⟨fits.diagonal, fitsOther.diagonal⟩
      · exact ⟨fits.offDiagonal, fitsOther.offDiagonal⟩
    obtain ⟨target, source⟩ := p
    dsimp only
    split
    case isTrue same =>
      subst same
      exact ⟨rfl, fun _ _ => id⟩
    case isFalse distinct =>
      unfold BlockMatrix.checkOperand
      rcases BlockMatrix.positionsOf_cases valid.1 valid.2 with
        ⟨covers, positions, found⟩ | ⟨misfit, fault, refused⟩
      · rw [found]
        exact covers
      · rw [refused]
        refine ⟨fun contains => misfit ?_, fault, rfl⟩
        rcases List.mem_pair.mp member with same | same
        · obtain ⟨rfl, rfl⟩ := Prod.mk.inj same
          exact (contains.covers fits fitsOther).1
        · obtain ⟨rfl, rfl⟩ := Prod.mk.inj same
          exact (contains.covers fits fitsOther).2
  cases result : checkOperand s a other with
  | ok u =>
    rw [result] at outcome
    exact .inl ⟨⟨layout, (outcome _ List.mem_cons_self).stores,
      (outcome _ (List.mem_cons_of_mem _ List.mem_cons_self)).stores⟩, rfl⟩
  | error e =>
    rw [result] at outcome
    obtain ⟨misfit, fault, rfl⟩ := outcome
    exact .inr ⟨misfit, fault, rfl⟩

end Check

/-! ## Both pieces -/

/-- `P` relates each piece of the receiver as it was, the piece of the operand as it was, and what
the receiver has become. All other matrices are as they were. -/
structure Changed (P : BlockMatrix T → BlockMatrix T → BlockMatrix T → Prop)
    (a other : DistributedMatrix T) (s s' : Store T) : Prop where
  diagonal : P (s.get a.diagonal) (s.get other.diagonal) (s'.get a.diagonal)
  offDiagonal : P (s.get a.offDiagonal) (s.get other.offDiagonal) (s'.get a.offDiagonal)
  others : ∀ h, h ≠ a.diagonal → h ≠ a.offDiagonal → s'.get h = s.get h

/-- A step that replaces a piece by one that `P` relates to it and to the piece of the operand, when
the one covers the other. -/
def Treats (P : BlockMatrix T → BlockMatrix T → BlockMatrix T → Prop)
    (step : Handle × Handle → Update (Store T) Unit) : Prop :=
  ∀ (s : Store T) (target source : Handle), (s.get target).Valid → (s.get source).Valid →
    (s.get target).Covers (s.get source) →
    ∃ f, (step (target, source)).on s = (.ok (), s.set target f) ∧
      P (s.get target) (s.get source) f

section Pieces

variable {P : BlockMatrix T → BlockMatrix T → BlockMatrix T → Prop}

/-- The second step finds its pieces as they were before the first one. -/
lemma Treats.run {step : Handle × Handle → Update (Store T) Unit} (treats : Treats P step)
    (fits : a.Fits s) (fitsOther : other.Fits s) (own : a.diagonal ≠ a.offDiagonal)
    (crossed : a.diagonal ≠ other.offDiagonal) (contains : Contains s a other) :
    ∃ s', ((a.pairs other).forM step).on s = (.ok (), s') ∧ Changed P a other s s' := by
  obtain ⟨covers, coversOff⟩ := contains.covers fits fitsOther
  obtain ⟨f, first, hf⟩ := treats s _ _ fits.diagonal fitsOther.diagonal covers
  have target := s.get_set_ne f own
  have source := s.get_set_ne f crossed
  obtain ⟨g, second, hg⟩ := treats (s.set a.diagonal f) a.offDiagonal other.offDiagonal
    (by rw [target]; exact fits.offDiagonal) (by rw [source]; exact fitsOther.offDiagonal)
    (by rw [target, source]; exact coversOff)
  rw [target, source] at hg
  refine ⟨(s.set a.diagonal f).set a.offDiagonal g, ?_, ?_, ?_, fun h hd ho => ?_⟩
  · show (step (a.diagonal, other.diagonal) >>= fun _ =>
      step (a.offDiagonal, other.offDiagonal) >>= fun _ => pure PUnit.unit).on s = _
    rw [Update.on_bind_of_ok first, Update.on_bind_of_ok second]
    rfl
  · rw [Store.get_set_ne _ _ own.symm, Store.get_set_self _ _ _ fits.held_diagonal]
    exact hf
  · rw [Store.get_set_self _ _ _ (Store.holds_set fits.held_offDiagonal f)]
    exact hg
  · rw [Store.get_set_ne _ _ ho.symm, Store.get_set_ne _ _ hd.symm]

/-- A piece that is shared is changed by `shared`, and another one by an operation with the operand.
-/
def pieceStep (shared : BlockMatrix T → BlockMatrix T)
    (op : BlockMatrix T → Update (BlockMatrix T) Unit) (p : Handle × Handle) :
    Update (Store T) Unit := do
  if p.1 = p.2 then
    Store.onMatrix p.1 (modify shared)
  else
    let source := (← get).get p.2
    Store.onMatrix p.1 (op source)

lemma treats_pieceStep {shared : BlockMatrix T → BlockMatrix T}
    {op : BlockMatrix T → Update (BlockMatrix T) Unit}
    (own : ∀ x : BlockMatrix T, x.Valid → P x x (shared x))
    (apart : ∀ x y : BlockMatrix T, x.Valid → y.Valid → x.Covers y →
      ∃ f, (op y).on x = (.ok (), f) ∧ P x y f) : Treats P (pieceStep shared op) := by
  intro s target source valid validSource covers
  unfold pieceStep
  dsimp only
  split
  case isTrue same =>
    subst same
    exact ⟨shared (s.get target), rfl, own _ valid⟩
  case isFalse distinct =>
    obtain ⟨f, run, hf⟩ := apart _ _ valid validSource covers
    refine ⟨f, ?_, hf⟩
    rw [Update.on_bind_of_ok (Update.on_get s), Store.onMatrix, Update.on_focus, run]

/-- The check, and then a step for each piece. -/
def checkedSteps (step : Handle × Handle → Update (Store T) Unit) (a other : DistributedMatrix T) :
    Update (Store T) Unit := do
  checkOperand (← get) a other
  (a.pairs other).forM step

/-- An operation that changes the pieces where the check accepts, and nothing where it refuses. -/
structure Accepts (P : BlockMatrix T → BlockMatrix T → BlockMatrix T → Prop)
    (u : Update (Store T) Unit) (s : Store T) (a other : DistributedMatrix T) : Prop where
  contained : Contains s a other → ∃ s', u.on s = (.ok (), s') ∧ Changed P a other s s'
  refused : ¬Contains s a other → ∃ fault, u.on s = (.error (.incompatibleOperand fault), s)

lemma Treats.accepts {step : Handle × Handle → Update (Store T) Unit} (treats : Treats P step)
    (fits : a.Fits s) (fitsOther : other.Fits s) (own : a.diagonal ≠ a.offDiagonal)
    (crossed : a.diagonal ≠ other.offDiagonal) :
    Accepts P (checkedSteps step a other) s a other := by
  have start : (checkedSteps step a other).on s =
      (do checkOperand s a other; (a.pairs other).forM step : Update (Store T) Unit).on s :=
    Update.on_bind_of_ok (Update.on_get s)
  rcases checkOperand_cases fits fitsOther with ⟨contains, accepted⟩ | ⟨misfit, fault, refused⟩
  · refine ⟨fun _ => ?_, fun misfit => absurd contains misfit⟩
    obtain ⟨s', run, changed⟩ := treats.run fits fitsOther own crossed contains
    refine ⟨s', ?_, changed⟩
    rw [start, accepted]
    exact run
  · refine ⟨fun contains => absurd contains misfit, fun _ => ⟨fault, ?_⟩⟩
    rw [start, refused]
    rfl

end Pieces

/-! ## The operations -/

section Operations

variable [Add T] [Mul T]

/-- Copying leaves a shared piece as it is. -/
lemma copyValues_eq [Zero T] [One T] (a other : DistributedMatrix T) :
    copyValues a other = checkedSteps (pieceStep id BlockMatrix.copyValues) a other := by
  have step : (fun p : Handle × Handle => (do
      if p.1 ≠ p.2 then
        let source := (← get).get p.2
        Store.onMatrix p.1 (BlockMatrix.copyValues source) : Update (Store T) Unit)) =
      pieceStep id BlockMatrix.copyValues := by
    funext p
    unfold pieceStep
    by_cases same : p.1 = p.2
    · rw [if_neg (not_not.mpr same), if_pos same]
      funext s
      show (Except.ok (), s) = (Except.ok (), s.set p.1 (s.get p.1))
      rw [Store.set_get]
    · rw [if_pos same, if_neg same]
  rw [← step]
  rfl

/-- Mixing scales a shared piece by the sum of both multipliers. -/
lemma axpby_eq (alpha beta : T) (a other : DistributedMatrix T) :
    axpby alpha beta a other = checkedSteps
      (pieceStep (BlockMatrix.scale (alpha + beta)) (BlockMatrix.axpby alpha beta)) a other :=
  rfl

variable {shared : BlockMatrix T → BlockMatrix T}
variable {op : BlockMatrix T → Update (BlockMatrix T) Unit} {m : T → T} {alpha : T}

/-- In any arithmetic, the pieces keep their patterns. -/
lemma treats_samePattern (own : ∀ x : BlockMatrix T, SamePattern x (shared x))
    (adds : ∀ x y : BlockMatrix T, BlockMatrix.AddsAfter m alpha y (op y) x) :
    Treats (fun old _ new => SamePattern old new) (pieceStep shared op) :=
  treats_pieceStep (fun x _ => own x) fun x y valid validOther covers =>
    ((adds x y).accepts valid validOther).covered covers

end Operations

/-- In exact arithmetic, the pieces are combined. -/
lemma treats_combined [Semiring T] {shared : BlockMatrix T → BlockMatrix T}
    {op : BlockMatrix T → Update (BlockMatrix T) Unit} {m : T → T} {alpha : T} {g : T → T → T}
    (zero : m 0 = 0) (hg : ∀ old new, g old new = m old + alpha * new)
    (own : ∀ x : BlockMatrix T, shared x = x.withValues (x.values.map fun old => g old old))
    (adds : ∀ x y : BlockMatrix T, BlockMatrix.AddsAfter m alpha y (op y) x) :
    Treats (Combined g) (pieceStep shared op) := by
  obtain rfl : g = fun old new => m old + alpha * new := funext fun old => funext (hg old)
  refine treats_pieceStep (fun x _ => ?_) fun x y valid validOther covers => ?_
  · -- a shared piece is combined with itself
    rw [own]
    refine ⟨⟨rfl, fun _ _ => id⟩, ⟨_, Array.size_map, rfl⟩, fun i j => ?_⟩
    have zeros : m 0 + alpha * 0 = 0 := by rw [zero, mul_zero, zero_add]
    rw [BlockMatrix.coeff_map (m := fun old => m old + alpha * old) zeros]
    rfl
  · obtain ⟨f, run, -⟩ := ((adds x y).accepts valid validOther).covered covers
    exact ⟨f, run, (adds x y).combined zero valid validOther run⟩

/-- Copying, adding and mixing distributed matrices whose pieces may be shared, as long as the
diagonal piece of the receiver is neither its own off-diagonal piece nor that of the operand. Where
the layouts agree and the operand is contained, both pieces are combined with what the pieces of the
operand were before the call. Otherwise the call is refused and the store is as it was. No other
matrix of the store changes. -/
theorem combinations_of_shared_pieces :
    (∀ {T : Type} [Zero T] [One T] [Add T] [Mul T] {s : Store T} {a other : DistributedMatrix T},
      a.Fits s → other.Fits s → a.diagonal ≠ a.offDiagonal → a.diagonal ≠ other.offDiagonal →
      ∀ alpha beta : T,
      Accepts (fun old _ new => SamePattern old new) (copyValues a other) s a other ∧
      Accepts (fun old _ new => SamePattern old new) (axpy alpha a other) s a other ∧
      Accepts (fun old _ new => SamePattern old new) (axpby alpha beta a other) s a other) ∧
    ∀ {T : Type} [CommSemiring T] {s : Store T} {a other : DistributedMatrix T},
      a.Fits s → other.Fits s → a.diagonal ≠ a.offDiagonal → a.diagonal ≠ other.offDiagonal →
      ∀ alpha beta : T,
      Accepts (Combined fun _ new => new) (copyValues a other) s a other ∧
      Accepts (Combined fun old new => alpha * new + old) (axpy alpha a other) s a other ∧
      Accepts (Combined fun old new => alpha * new + beta * old) (axpby alpha beta a other) s a
        other := by
  constructor
  · intro T _ _ _ _ s a other fits fitsOther own crossed alpha beta
    have copy : Treats _ (pieceStep id BlockMatrix.copyValues) :=
      treats_samePattern (T := T) .refl BlockMatrix.addsAfter_copyValues
    have mix : ∀ beta : T, Treats _
        (pieceStep (BlockMatrix.scale (alpha + beta)) (BlockMatrix.axpby alpha beta)) := fun beta =>
      treats_samePattern (fun x => ⟨_, Array.size_map, rfl⟩) (BlockMatrix.addsAfter_axpby alpha beta)
    rw [copyValues_eq, axpy, axpby_eq, axpby_eq]
    exact ⟨copy.accepts fits fitsOther own crossed, (mix 1).accepts fits fitsOther own crossed,
      (mix beta).accepts fits fitsOther own crossed⟩
  · intro T _ s a other fits fitsOther own crossed alpha beta
    have copy : Treats (Combined fun _ new => new) (pieceStep id BlockMatrix.copyValues) :=
      treats_combined (T := T) rfl (fun old new => by rw [zero_add, one_mul])
        (fun x => by rw [Array.map_id']; rfl) BlockMatrix.addsAfter_copyValues
    have mix : ∀ beta : T, Treats (Combined fun old new => alpha * new + beta * old)
        (pieceStep (BlockMatrix.scale (alpha + beta)) (BlockMatrix.axpby alpha beta)) := fun beta =>
      treats_combined (zero_mul beta) (fun old new => by ring)
        (fun x => by simp only [← add_mul, mul_comm]; rfl) (BlockMatrix.addsAfter_axpby alpha beta)
    have add := mix 1
    simp only [one_mul] at add
    rw [copyValues_eq, axpy, axpby_eq, axpby_eq]
    exact ⟨copy.accepts fits fitsOther own crossed, add.accepts fits fitsOther own crossed,
      (mix beta).accepts fits fitsOther own crossed⟩

/-- The pieces of a rod, and the diagonal blocks of another one. -/
def twinStore : Store ℚ :=
  ⟨#[rodPiece 2 2 #[0, 2, 4] #[0, 1, 0, 1] #[0, 3] #[2, 1, 1, 3],
    rodPiece 1 1 #[0, 1] #[0] #[0] #[7],
    rodPiece 2 2 #[0, 1, 2] #[0, 1] #[0, 1] #[10, 20]]⟩

/-- A rod without coupling between its blocks, which shares the off-diagonal piece. -/
def looseTwin : DistributedMatrix ℚ :=
  { rodMatrix with diagonal := ⟨2⟩ }

lemma looseTwin_fits : looseTwin.Fits twinStore :=
  have made : ofParts twinStore rodMatrix.partition ⟨2⟩ ⟨1⟩ (Table.single [0])
      (some rodConstraints) = .ok looseTwin := rfl
  have held : twinStore.Holds ⟨2⟩ ∧ twinStore.Holds ⟨1⟩ :=
    ⟨Nat.lt_succ_self 2, Nat.one_lt_succ_succ 1⟩
  (Fits.of_ofParts held.1 held.2 (by decide +kernel) (by decide +kernel) made).1

/-- The loose rod is mixed into the other one: their common piece is combined with itself, and the
diagonal piece of the loose rod is as it was. The other way round the rods cannot be combined. -/
theorem looseTwin_combinations_of_shared_pieces :
    (∃ s', (axpby 2 3 rodMatrix looseTwin).on twinStore = (.ok (), s') ∧
      Changed (Combined fun old new => 2 * new + 3 * old) rodMatrix looseTwin twinStore s' ∧
      s'.get ⟨2⟩ = twinStore.get ⟨2⟩) ∧
    ∃ fault, (copyValues looseTwin rodMatrix).on twinStore =
      (.error (.incompatibleOperand fault), twinStore) := by
  have fits : rodMatrix.Fits twinStore :=
    have made : ofParts twinStore rodMatrix.partition ⟨0⟩ ⟨1⟩ (Table.single [0])
        (some rodConstraints) = .ok rodMatrix := rfl
    have held : twinStore.Holds ⟨0⟩ ∧ twinStore.Holds ⟨1⟩ :=
      ⟨Nat.zero_lt_succ 2, Nat.one_lt_succ_succ 1⟩
    (Fits.of_ofParts held.1 held.2 (by decide +kernel) (by decide +kernel) made).1
  have misfit : ¬Contains twinStore looseTwin rodMatrix := fun contains =>
    absurd (contains.diagonal 0 1 (by decide +kernel)) (by decide +kernel)
  have contains : Contains twinStore rodMatrix looseTwin := by
    rcases checkOperand_cases fits looseTwin_fits with ⟨contains, -⟩ | ⟨-, fault, refused⟩
    · exact contains
    · have accepted : checkOperand twinStore rodMatrix looseTwin = .ok () := by decide +kernel
      rw [accepted] at refused
      cases refused
  obtain ⟨-, -, mix⟩ := combinations_of_shared_pieces.2 fits looseTwin_fits (by decide) (by decide)
    (2 : ℚ) 3
  obtain ⟨s', run, changed⟩ := mix.contained contains
  exact ⟨⟨s', run, changed, changed.others ⟨2⟩ (by decide) (by decide)⟩,
    (combinations_of_shared_pieces.1 looseTwin_fits fits (by decide) (by decide)
      (2 : ℚ) 3).1.refused misfit⟩

end DomainDecomposition.DistributedMatrix
