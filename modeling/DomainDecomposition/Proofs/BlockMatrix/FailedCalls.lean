import DomainDecomposition.Proofs.BlockMatrix.Calls
import DomainDecomposition.Proofs.BlockMatrix.ClearedRows

/-!
# Calls that fail

The operations on matrices and vectors test their arguments before they write anything, and behind
the tests nothing can fail any more, except for lack of room. `Update.DecidedBy` says this of an
operation and its tests, and `Computation.tests` and `Change.tests` write the tests out, apart from
those of the factorization in place, which stops midway. The inversion of the diagonal blocks
belongs to the tests of `factorDiagonal`, since it goes into an array of its own.

* `decided_computation`, `decided_change`: every operation is decided by its tests,
* `failed_calls`: a failed call leaves all matrices, their caches and its output vector alone, so
  the sweeps go on with the cache that was computed last.
-/

namespace DomainDecomposition

open Outcome

/-! ## Operations that are decided by tests -/

namespace Update

variable {σ α : Type}

/-- The operation is refused where the tests fail, before it changes anything. Where they pass, it
succeeds, or there is no room. -/
structure DecidedBy (tests : Except Error Unit) (room : Prop) (u : Update σ Unit) (s : σ) :
    Prop where
  refused : ∀ e, tests = .error e → u.on s = (.error e, s)
  passed : tests = .ok () →
    Outcome.Meets (fun e => e = .tooLarge ∧ ¬room) (fun _ => True) (u.on s).1

namespace DecidedBy

variable {tests : Except Error Unit} {room : Prop} {u : Update σ Unit} {s : σ}

/-- The failures of the operation are those of the tests. -/
lemma error_iff (decided : DecidedBy tests room u s) {e : Error} (fits : e ≠ .tooLarge) :
    (u.on s).1 = .error e ↔ tests = .error e := by
  constructor
  · intro failed
    cases tested : tests with
    | error e' =>
      rw [decided.refused e' tested] at failed
      exact failed
    | ok _ =>
      have passed := decided.passed tested
      rw [failed] at passed
      exact absurd passed.1 fits
  · intro tested
    rw [decided.refused e tested]

/-- Only what the operation does from this state matters. -/
lemma of_on_eq {u' : Update σ Unit} (same : u'.on s = u.on s) (decided : DecidedBy tests room u s) :
    DecidedBy tests room u' s where
  refused := by
    rw [same]
    exact decided.refused
  passed := by
    rw [same]
    exact decided.passed

lemma get_bind {f : σ → Update σ Unit} (decided : DecidedBy tests room (f s) s) :
    DecidedBy tests room (get >>= f) s :=
  decided.of_on_eq (on_bind_of_ok (on_get s))

/-- The first test does not look at the state. -/
lemma lift_bind {r : Except Error α} {next : α → Except Error Unit} {f : α → Update σ Unit}
    (decided : ∀ a, r = .ok a → DecidedBy (next a) room (f a) s) :
    DecidedBy (r >>= next) room ((monadLift r : Update σ α) >>= f) s := by
  have run := on_bind (monadLift r : Update σ α) f s
  rw [on_monadLift] at run
  cases r with
  | ok a => exact (decided a rfl).of_on_eq run
  | error e =>
    constructor
    · intro e' tested
      rw [run]
      exact congrArg (·, s) tested
    · intro tested
      cases tested

/-- A test that fails is the end. -/
lemma throw_bind {e : Error} {f : α → Update σ Unit} :
    DecidedBy (.error e) room ((throw e : Update σ α) >>= f) s where
  refused := fun e' tested => by rw [on_bind, on_throw, Except.error.inj tested]
  passed := nofun

/-- Nothing can go wrong. -/
lemma of_gives (h : Outcome.Gives (fun _ => True) (u.on s).1) : DecidedBy (.ok ()) room u s where
  refused := nofun
  passed := fun _ => .of_gives h

/-- What is put into place has been computed aside, which is the only test. -/
lemma replace {β : Type} (compute : σ → Except Error β) (install : σ → β → σ) :
    DecidedBy (do let _ ← compute s) room
      (Update.replace fun s => do return install s (← compute s)) s := by
  have run := on_replace (fun s => do return install s (← compute s)) s
  cases computed : compute s with
  | ok t =>
    rw [computed] at run
    exact of_gives (by rw [run]; trivial)
  | error e =>
    rw [computed] at run
    refine ⟨fun e' tested => ?_, nofun⟩
    rw [run, ← Except.error.inj tested]
    rfl

/-- An operation that tests its output before it replaces it. -/
lemma guarded (check : σ → Except Error Unit) {f : σ → Except Error σ}
    (kernel : check s = .ok () →
      Outcome.Meets (fun e => e = .tooLarge ∧ ¬room) (fun _ => True) (f s)) :
    DecidedBy (check s) room (do check (← get); Update.replace f) s := by
  apply get_bind
  constructor
  · intro e tested
    rw [on_bind, on_monadLift, tested]
  · intro tested
    have result := kernel tested
    rw [tested, on_bind_of_ok (on_monadLift _ s), on_replace]
    cases computed : f s with
    | ok t => trivial
    | error e =>
      rw [computed] at result
      exact result

end DecidedBy

end Update

namespace BlockMatrix

variable {T R : Type}

/-! ## The tests of the computations -/

/-- What is tested before a vector is computed into `y`. -/
def Computation.tests (a : BlockMatrix T) (y : Array T) : Computation T R → Except Error Unit
  | mult x | multAddInPlace x => a.checkVectors x y
  | multAdd x z => do
    a.checkVectors x z
    checkLength z.size y.size
  | applyLower x | applyUpper x | applyFactor x => do
    let _ ← a.requireDiagonal
    a.checkVectors x y
  | applyLowerFrom offset | applyUpperFrom offset => a.checkTrailing offset y
  | applyUpperBefore _ => do
    let _ ← a.requireDiagonal
    checkSize (a.rowCount * a.blockSize) y.size
  | applySor rhs _ _ | applySsor rhs _ _ => a.checkSweep rhs y

section Computations

variable [Zero T] [One T] [Add T] [Sub T] [Mul T] [Scalar T R] {a : BlockMatrix T}

lemma decided_computation (sound : a.Sound) (c : Computation T R) (y : Array T) :
    (c.run a).DecidedBy (c.tests a y) (c.HasRoom a) y := by
  have valid := sound.valid
  have sizes : ∀ {x z : Array T}, a.checkVectors x z = .ok () →
      x.size = a.columnCount * a.blockSize ∧ z.size = a.rowCount * a.blockSize := fun ok =>
    (show Outcome.Meets (fun _ => True) _ _ from
      meets_checkVectors (fun _ _ => trivial) fun _ => trivial).result ok
  have trailing : ∀ {offset : ℕ}, a.checkTrailing offset y = .ok () →
      a.HasDiagonal ∧ y.size = (a.rowCount - offset) * a.blockSize := fun ok =>
    (show Outcome.Meets (fun _ => True) _ _ from
      meets_checkTrailing valid (fun _ _ => trivial) (fun _ => trivial) fun _ => trivial).result ok
  have swept : ∀ {rhs : Array T}, a.checkSweep rhs y = .ok () →
      a.invertedDiagonal.size = a.rowCount * (a.blockSize * a.blockSize) ∧
        rhs.size = a.rowCount * a.blockSize ∧ y.size = a.rowCount * a.blockSize := fun ok =>
    (show Outcome.Meets (fun _ => True) _ _ from
      meets_checkSweep (fun _ _ => trivial) (fun _ => trivial) trivial fun _ => trivial).result ok
  cases c with
  | mult x =>
    exact .guarded (a.checkVectors x) fun ok =>
      .of_gives (gives_mult valid (sizes ok).1 (sizes ok).2).ignore
  | multAddInPlace x =>
    exact .guarded (a.checkVectors x) fun ok =>
      .of_gives (gives_multAddInPlace valid (sizes ok).1 (sizes ok).2).ignore
  | multAdd x z =>
    refine .lift_bind fun _ vectors =>
      .guarded (fun w : Array T => checkLength z.size w.size) fun lengths => ?_
    have hy : z.size = y.size := checkLength_eq_ok.mp lengths
    obtain ⟨hx, hz⟩ := sizes vectors
    exact .of_gives (gives_multAdd valid hx hz (hy.symm.trans hz)).ignore
  | applyLower x =>
    refine .lift_bind fun diagonal found => .guarded (a.checkVectors x) fun ok => ?_
    have has := valid.hasDiagonal_of_requireDiagonal found
    exact .of_gives (gives_solveLower valid has (has.square ▸ (sizes ok).1)).ignore
  | applyUpper x =>
    refine .lift_bind fun diagonal found => .guarded (a.checkVectors x) fun ok => ?_
    have has := valid.hasDiagonal_of_requireDiagonal found
    exact (meets_solveUpperRows valid has (Nat.le_refl 0) (Nat.le_refl _)
      (fun lack => ⟨rfl, fun room => lack room.2⟩) (has.square ▸ (sizes ok).1)).ignore
  | applyFactor x =>
    refine .lift_bind fun diagonal found => .guarded (a.checkVectors x) fun ok => ?_
    have has := valid.hasDiagonal_of_requireDiagonal found
    have lower := gives_solveLower valid has (has.square ▸ (sizes ok).1)
    exact Meets.bind (.of_gives lower) fun w hw => (meets_solveUpperRows valid has (Nat.le_refl 0)
      (Nat.le_refl _) (fun lack => ⟨rfl, fun room => lack room.2⟩) hw).ignore
  | applyLowerFrom offset =>
    refine .guarded (a.checkTrailing offset) fun ok => ?_
    obtain ⟨has, hy⟩ := trailing ok
    exact .of_gives (gives_solveLowerFrom valid has hy).ignore
  | applyUpperFrom offset =>
    refine .guarded (a.checkTrailing offset) fun ok => ?_
    obtain ⟨has, hy⟩ := trailing ok
    exact (meets_solveUpperRows valid has (Nat.le_refl offset) (Nat.le_refl _)
      (fun lack => ⟨rfl, fun room => lack room.2⟩) hy).ignore
  | applyUpperBefore offset =>
    refine .lift_bind fun diagonal found =>
      .guarded (fun w : Array T => checkSize (a.rowCount * a.blockSize) w.size) fun ok => ?_
    have has := valid.hasDiagonal_of_requireDiagonal found
    exact (meets_solveUpperRows valid has (Nat.le_refl 0) (Nat.min_le_right ..)
      (fun lack => ⟨rfl, fun room => lack room.2⟩) (checkSize_eq_ok.mp ok).symm).ignore
  | applySor rhs omega iterations =>
    refine .guarded (a.checkSweep rhs) fun ok => ?_
    obtain ⟨cached, hrhs, hy⟩ := swept ok
    exact .of_gives (gives_sweepsOver sound (fun _ => List.mem_range.mp) cached hrhs hy).ignore
  | applySsor rhs omega iterations =>
    refine .guarded (a.checkSweep rhs) fun ok => ?_
    obtain ⟨cached, hrhs, hy⟩ := swept ok
    refine .of_gives (gives_sweepsOver sound (fun i member => ?_) cached hrhs hy).ignore
    rw [List.mem_append, List.mem_reverse, or_self] at member
    exact List.mem_range.mp member

end Computations

/-! ## The tests of the changes -/

/-- A row is there, and all components that are named in it. -/
def rowTests (a : BlockMatrix T) (row : ℕ) (components : List ℕ) : Except Error Unit :=
  if a.rowCount ≤ row then .error (.config (.rowRange row a.rowCount))
  else match components.find? (a.blockSize ≤ ·) with
    | some v => .error (.config (.variableRange v a.blockSize))
    | none => .ok ()

/-- A product of two matrices has the shape of a third. -/
def productTests (c left right : BlockMatrix T) : Except Error Unit :=
  if left.blockSize ≠ c.blockSize ∨ right.blockSize ≠ c.blockSize then
    .error (.incompatibleOperand .blockSizes)
  else if left.rowCount ≠ c.rowCount ∨ left.columnCount ≠ right.rowCount ∨
      right.columnCount ≠ c.columnCount then
    .error (.incompatibleOperand (.product left.rowCount left.columnCount right.rowCount
      right.columnCount c.rowCount c.columnCount))
  else .ok ()

/-- A matrix that cannot be made is not added. -/
lemma keep_error_iff {made : Except Error (BlockMatrix T)} {s : Store T} {e : Error} :
    (keep made s).1.result = .error e ↔ (do let _ ← made) = .error e := by
  cases made <;> rfl

lemma keep_of_error {made : Except Error (BlockMatrix T)} {s : Store T} {e : Error}
    (failed : (do let _ ← made) = .error e) : keep made s = (⟨.error e, #[]⟩, s) := by
  cases made with
  | ok a => cases failed
  | error e' =>
    rw [← Except.error.inj failed]
    rfl

section Changes

variable [Zero T] [One T] [Add T] [Sub T] [Neg T] [Mul T] [Div T] [BEq T]
variable [Zero R] [One R] [Neg R] [Mul R] [LT R] [DecidableLT R] [LE R] [DecidableLE R] [BEq R]
variable [Magnitude R] [Scalar T R]

/-- What is tested before the values or the cache of a matrix are changed. -/
def Change.tests (s : Store T) (a : BlockMatrix T) : Change T → Except Error Unit
  | zeroEntries | scale _ | writeBlock .. => .ok ()
  | copyValues x | axpy _ x | axpby _ _ x => a.checkOperand (s.get x)
  | addDiagonal _ => do
    let _ ← a.requireDiagonal
  | zeroRow row components _ => a.rowTests row components
  | addProduct _ left right => a.productTests (s.get left) (s.get right)
  | factor => do
    let _ ← a.requireDiagonal
    Capacity.reserve (a.blockSize * a.blockSize)
  | factorDiagonal => do
    let diagonal ← a.requireDiagonal
    let _ ← a.invertDiagonal (R := R) diagonal.toList

/-- What is tested before a call changes anything. A matrix that is made is no part of the store
before it is complete. -/
def Call.tests (s : Store T) : Call T R → Except Error Unit
  | ofPattern blockSize rowCount columnCount rowStart columns => do
    let _ ← (BlockMatrix.ofPattern blockSize rowCount columnCount rowStart columns :
      Except Error (BlockMatrix T))
  | ofValues blockSize rowCount columnCount rowStart columns values => do
    let _ ← BlockMatrix.ofValues blockSize rowCount columnCount rowStart columns values
  | ofTriplets blockSize rowCount columnCount triplets => do
    let _ ← BlockMatrix.ofTriplets blockSize rowCount columnCount triplets
  | fillPattern h limit growth => do
    let _ ← (s.get h).fillPattern limit growth
  | clone _ => .ok ()
  | change h c => c.tests (R := R) s (s.get h)
  | compute h c output => c.tests (s.get h) output
  | readBlock h i j => do
    let _ ← (s.get h).readBlock i j
  | toDense h => do
    let _ ← (s.get h).toDense
  | checkOperand h x => (s.get h).checkOperand (s.get x)

variable {s : Store T} {a : BlockMatrix T}

omit [Zero T] [One T] [Sub T] [Neg T] [Div T] [BEq T] in
/-- A second operand is looked at before the first one is changed. -/
lemma AddsAfter.decided {m : T → T} {alpha : T} {other : BlockMatrix T}
    {u : Update (BlockMatrix T) Unit} (adds : AddsAfter m alpha other u a) (valid : a.Valid)
    (validOther : other.Valid) {room : Prop} : u.DecidedBy (a.checkOperand other) room a := by
  constructor
  · intro e tested
    unfold checkOperand at tested
    cases found : a.positionsOf other with
    | ok positions =>
      rw [found] at tested
      cases tested
    | error e' =>
      rw [found] at tested
      rw [adds.missing e' found, Except.error.inj tested]
  · intro tested
    have covers := (checkOperand_eq_ok_iff valid validOther).mp tested
    obtain ⟨f, run, -⟩ := (adds.accepts valid validOther).covered covers
    rw [run]
    trivial

omit [Zero T] [One T] [Sub T] [Neg T] [Mul T] [Div T] [BEq T] in
lemma decided_addDiagonal (valid : a.Valid) (alpha : T) {room : Prop} :
    (addDiagonal alpha).DecidedBy (do let _ ← a.requireDiagonal) room a := by
  cases found : a.requireDiagonal with
  | error e =>
    refine ⟨fun e' tested => ?_, nofun⟩
    rw [addDiagonal, Update.on_bind_of_ok (Update.on_get a), Update.on_bind, Update.on_monadLift,
      found, Except.error.inj tested]
  | ok diagonal =>
    have has := valid.hasDiagonal_of_requireDiagonal found
    exact .of_gives (meets_addDiagonal valid (fun lacking => absurd has lacking) alpha).2

omit [Zero T] [One T] [Add T] [Sub T] [Neg T] [Mul T] [Div T] [BEq T] in
/-- A component behind the block size is found among any others. -/
lemma exists_rowTests_error {row v : ℕ} {components : List ℕ} (member : v ∈ components)
    (behind : a.blockSize ≤ v) : ∃ fault, a.rowTests row components = .error (.config fault) := by
  unfold rowTests
  split
  · exact ⟨_, rfl⟩
  · have found : (components.find? (a.blockSize ≤ ·)).isSome = true := by
      rw [List.find?_isSome]
      exact ⟨v, member, decide_eq_true behind⟩
    obtain ⟨u, bad⟩ := Option.isSome_iff_exists.mp found
    rw [bad]
    exact ⟨_, rfl⟩

omit [Add T] [Sub T] [Neg T] [Mul T] [Div T] [BEq T] in
/-- All components are looked at before the first row is cleared. -/
lemma decided_zeroRow (valid : a.Valid) (row : ℕ) (components : List ℕ) (identity : Bool)
    {room : Prop} :
    (zeroRow row components identity).DecidedBy (a.rowTests row components) room a := by
  unfold rowTests
  by_cases hrow : a.rowCount ≤ row
  · rw [if_pos hrow]
    apply Update.DecidedBy.get_bind
    rw [if_pos hrow]
    exact .throw_bind
  rw [if_neg hrow]
  cases bad : components.find? (a.blockSize ≤ ·) with
  | some v =>
    apply Update.DecidedBy.get_bind
    rw [if_neg hrow]
    simp only [bad]
    exact .throw_bind
  | none =>
    have inside : ∀ v ∈ components, v < a.blockSize := by
      simpa using bad
    obtain ⟨f, run, -⟩ := zeroRow_spec valid (Nat.lt_of_not_le hrow) inside identity
    exact .of_gives (by rw [run]; trivial)

omit [Div T] in
/-- The shapes are compared before anything is added. -/
lemma decided_addProduct {left right : BlockMatrix T} (validLeft : left.Valid)
    (validRight : right.Valid) (valid : a.Valid) (alpha : T) {room : Prop} :
    (addProduct alpha left right).DecidedBy (a.productTests left right) room a := by
  unfold productTests
  apply Update.DecidedBy.get_bind
  dsimp only
  by_cases sizes : left.blockSize ≠ a.blockSize ∨ right.blockSize ≠ a.blockSize
  · rw [if_pos sizes, if_pos sizes]
    exact .throw_bind
  rw [if_neg sizes, if_neg sizes]
  by_cases shapes : left.rowCount ≠ a.rowCount ∨ left.columnCount ≠ right.rowCount ∨
      right.columnCount ≠ a.columnCount
  · rw [if_pos shapes, if_pos shapes]
    exact .throw_bind
  rw [if_neg shapes, if_neg shapes]
  simp only [not_or, not_not] at sizes shapes
  obtain ⟨w, added, -⟩ := (gives_addProduct validLeft validRight valid sizes.1 sizes.2 shapes.2.1
    alpha).exists_eq_ok
  refine .of_gives ?_
  rw [Update.on_replace, added]
  trivial

omit [Add T] [Neg T] in
/-- The blocks are inverted aside, and then become the cache. -/
lemma decided_factorDiagonal {room : Prop} :
    (factorDiagonal (T := T) (R := R)).DecidedBy
      ((Change.factorDiagonal : Change T).tests (R := R) s a) room a := by
  unfold Change.tests
  apply Update.DecidedBy.get_bind
  refine .lift_bind fun diagonal _ => ?_
  exact .replace (fun a : BlockMatrix T => a.invertDiagonal (R := R) diagonal.toList)
    fun a inverted => { a with invertedDiagonal := inverted }

omit [Add T] [Neg T] in
lemma factorDiagonal_eq_ok (ok : ((factorDiagonal (T := T) (R := R)).on a).1 = .ok ()) :
    ∃ diagonal inverted, a.requireDiagonal = .ok diagonal ∧
      a.invertDiagonal (R := R) diagonal.toList = .ok inverted ∧
        (factorDiagonal (T := T) (R := R)).on a =
          (.ok (), { a with invertedDiagonal := inverted }) := by
  cases found : a.requireDiagonal with
  | error e =>
    rw [factorDiagonal, Update.on_bind_of_ok (Update.on_get a), Update.on_bind,
      Update.on_monadLift, found] at ok
    cases ok
  | ok diagonal =>
    rw [factorDiagonal, Update.on_bind_of_ok (Update.on_get a), found,
      Update.on_bind_of_ok (Update.on_monadLift _ a), Update.on_replace] at ok ⊢
    cases inverted : a.invertDiagonal (R := R) diagonal.toList with
    | error e =>
      rw [inverted] at ok
      cases ok
    | ok w => exact ⟨diagonal, w, rfl, inverted, rfl⟩

lemma decided_change (all : ∀ h, (s.get h).Sound) (valid : a.Valid) {c : Change T}
    (other : c ≠ .factor) :
    (c.run (R := R) s).DecidedBy (c.tests (R := R) s a) (c.HasRoom a) a := by
  cases c with
  | zeroEntries => exact .of_gives trivial
  | scale alpha => exact .of_gives trivial
  | copyValues x => exact (addsAfter_copyValues a (s.get x)).decided valid (all x).valid
  | axpy alpha x => exact (addsAfter_axpy alpha a (s.get x)).decided valid (all x).valid
  | axpby alpha beta x => exact (addsAfter_axpby alpha beta a (s.get x)).decided valid (all x).valid
  | addDiagonal alpha => exact decided_addDiagonal valid alpha
  | zeroRow row components identity => exact decided_zeroRow valid row components identity
  | addProduct alpha left right =>
    exact decided_addProduct (all left).valid (all right).valid valid alpha
  | factor => exact absurd rfl other
  | factorDiagonal => exact decided_factorDiagonal
  | writeBlock i j scalar => exact .of_gives (meets_writeBlock valid i j scalar).2

/-! ## Failed calls -/

lemma perform_change (s : Store T) (h : Handle) (c : Change T) :
    (Call.change h c : Call T R).perform s =
      (⟨((c.run (R := R) s).on (s.get h)).1, #[]⟩,
        s.set h ((c.run (R := R) s).on (s.get h)).2) := rfl

lemma perform_compute (s : Store T) (h : Handle) (c : Computation T R) (output : Array T) :
    (Call.compute h c output).perform s =
      (⟨((c.run (s.get h)).on output).1, ((c.run (s.get h)).on output).2⟩, s) := rfl

omit [Neg T] in
/-- The factorization looks for the diagonal and for room before it begins. -/
lemma refused_factor {e : Error}
    (tested : (Change.factor : Change T).tests (R := R) s a = .error e) :
    (factor (T := T) (R := R)).on a = (.error e, a) := by
  unfold Change.tests at tested
  rw [factor, Update.on_bind_of_ok (Update.on_get a)]
  cases found : a.requireDiagonal with
  | error e' =>
    rw [found] at tested
    rw [Update.on_bind, Update.on_monadLift, Except.error.inj tested]
  | ok diagonal =>
    rw [found] at tested
    change Capacity.reserve (a.blockSize * a.blockSize) = .error e at tested
    rw [Update.on_bind_of_ok (Update.on_monadLift _ a), Update.on_bind_of_ok (Update.on_get a),
      Update.on_bind_of_ok (Update.on_get a), Update.on_bind, Update.on_monadLift, tested]

variable (all : ∀ h, (s.get h).Sound)

include all

/-- A call whose tests fail changes nothing. -/
lemma perform_of_tests {c : Call T R} {e : Error} (tested : c.tests s = .error e) :
    c.perform s = (⟨.error e, c.output⟩, s) := by
  cases c with
  | ofPattern | ofValues | ofTriplets | fillPattern => exact keep_of_error tested
  | clone => cases tested
  | change h c =>
    have run : (c.run (R := R) s).on (s.get h) = (.error e, s.get h) := by
      by_cases factors : c = .factor
      · subst factors
        exact refused_factor (s := s) tested
      · exact (decided_change all (all h).valid factors).refused e tested
    rw [perform_change, run, Store.set_get]
    rfl
  | compute h c output =>
    have run := (decided_computation (all h) c output).refused e tested
    rw [perform_compute, run]
    rfl
  | readBlock | toDense | checkOperand =>
    exact congrArg (fun result => ((⟨result, #[]⟩, s) : Reply T × Store T)) tested

/-- Only the factorization in place can fail behind its tests, apart from lack of room. -/
lemma tests_of_failed {c : Call T R} (other : ∀ h, c ≠ .change h .factor) {e : Error}
    (fits : e ≠ .tooLarge) (failed : (c.perform s).1.result = .error e) : c.tests s = .error e := by
  cases c with
  | ofPattern | ofValues | ofTriplets | fillPattern => exact keep_error_iff.mp failed
  | clone => cases failed
  | change h c =>
    have factors : c ≠ .factor := fun same => other h (by rw [same])
    exact ((decided_change all (all h).valid factors).error_iff fits).mp failed
  | compute h c output => exact ((decided_computation (all h) c output).error_iff fits).mp failed
  | readBlock | toDense | checkOperand => exact failed

/-- Between two successful inversions of its diagonal blocks a matrix keeps its cache. -/
lemma perform_samePattern {k : Handle} (held : s.Holds k) {c : Call T R}
    (idle : c = .change k .factorDiagonal → (c.perform s).1.result ≠ .ok ()) :
    SamePattern (s.get k) ((c.perform s).2.get k) := by
  by_cases spared : c.Spares k
  · rw [get_perform held spared]
    exact .refl _
  cases c with
  | ofPattern | ofValues | ofTriplets | fillPattern | clone => exact absurd trivial spared
  | compute | readBlock | toDense | checkOperand => exact absurd trivial spared
  | change h c =>
    obtain rfl : h = k := not_not.mp spared
    by_cases cache : c = .factorDiagonal
    · subst cache
      cases tested : (Call.change h .factorDiagonal : Call T R).tests s with
      | error e =>
        rw [perform_of_tests all tested]
        exact .refl _
      | ok _ =>
        -- behind the tests only lack of room could stop it, and no room is asked for
        have decided : (factorDiagonal (T := T) (R := R)).DecidedBy
            ((Change.factorDiagonal : Change T).tests (R := R) s (s.get h)) True (s.get h) :=
          decided_factorDiagonal
        have passed := decided.passed tested
        cases result : ((Call.change h .factorDiagonal : Call T R).perform s).1.result with
        | ok _ => exact absurd result (idle rfl)
        | error e =>
          have failed : ((factorDiagonal (T := T) (R := R)).on (s.get h)).1 = .error e := result
          rw [failed] at passed
          exact absurd trivial passed.2
    · have kept := (meets_values (R := R) all (all h).valid cache).1
      rw [perform_change]
      rwa [Store.get_set_self s h _ held]

/-- The same for a sequence of calls. -/
lemma storeAfter_samePattern {k : Handle} (held : s.Holds k) (calls : List (Call T R))
    (idle : ∀ before after, calls = before ++ .change k .factorDiagonal :: after →
      ((Call.change k .factorDiagonal : Call T R).perform (storeAfter before s)).1.result ≠ .ok ()) :
    SamePattern (s.get k) ((storeAfter calls s).get k) := by
  induction calls generalizing s with
  | nil => exact .refl _
  | cons c calls ih =>
    have first := safe_perform all c
    have step := perform_samePattern all held (c := c) fun same => by
      subst same
      exact idle [] calls rfl
    refine step.trans (ih first.sound (first.patterns k held).1 fun before after split => ?_)
    exact idle (c :: before) after (by rw [split]; rfl)

omit all in
/-- After any sequence of calls, starting without matrices: a call whose tests fail is refused
before it changes anything; every call that fails, apart from the factorization in place and from
lack of room, fails in its tests, so all matrices with their caches and the output vector are as
before. One component behind the block size is enough to refuse the clearing of rows. And a matrix
has the cache of the last inversion of its diagonal blocks that succeeded, whatever has been called
and failed since. -/
theorem failed_calls (calls : List (Call T R)) :
    let s := storeAfter calls (.empty : Store T)
    (∀ (c : Call T R) (e : Error), c.tests s = .error e → c.perform s = (⟨.error e, c.output⟩, s)) ∧
      (∀ c : Call T R, (∀ h, c ≠ .change h .factor) → ∀ e, e ≠ .tooLarge →
        (c.perform s).1.result = .error e →
          c.tests s = .error e ∧ c.perform s = (⟨.error e, c.output⟩, s)) ∧
      (∀ h row components identity v, v ∈ components → (s.get h).blockSize ≤ v →
        ∃ fault, (Call.change h (.zeroRow row components identity) : Call T R).perform s =
          (⟨.error (.config fault), #[]⟩, s)) ∧
      ∀ k, s.Holds k → ∀ more : List (Call T R),
        let inverting : Call T R := .change k .factorDiagonal
        ((inverting.perform s).1.result = .ok () → ∃ diagonal,
          (s.get k).requireDiagonal = .ok diagonal ∧
            (s.get k).invertDiagonal (R := R) diagonal.toList =
              .ok ((inverting.perform s).2.get k).invertedDiagonal) ∧
        ((∀ before after, more = before ++ inverting :: after →
            (inverting.perform (storeAfter before s)).1.result ≠ .ok ()) →
          ((storeAfter more s).get k).invertedDiagonal = (s.get k).invertedDiagonal) := by
  intro s
  obtain ⟨all, -⟩ := storeAfter_safe (R := R) (s := (.empty : Store T))
    (fun _ => sound_empty) calls
  refine ⟨fun c e tested => perform_of_tests all tested, fun c other e fits failed => ?_, ?_,
    fun k held more => ⟨fun succeeded => ?_, fun idle => ?_⟩⟩
  · have tested := tests_of_failed all other fits failed
    exact ⟨tested, perform_of_tests all tested⟩
  · intro h row components identity v member behind
    have refused : ∃ fault, (s.get h).rowTests row components = .error (.config fault) :=
      exists_rowTests_error member behind
    obtain ⟨fault, tested⟩ := refused
    exact ⟨fault, perform_of_tests all tested⟩
  · obtain ⟨diagonal, inverted, found, computed, run⟩ := factorDiagonal_eq_ok (R := R) succeeded
    refine ⟨diagonal, found, computed.trans ?_⟩
    have installed : ((Change.factorDiagonal : Change T).run (R := R) s).on (s.get k) =
        (.ok (), { s.get k with invertedDiagonal := inverted }) := run
    rw [perform_change, installed, Store.get_set_self s k _ held]
  · obtain ⟨v, -, same⟩ := storeAfter_samePattern all held more idle
    rw [same]
    rfl

end Changes

/-- A scalar is inverted into the cache and then becomes zero. -/
def vanishing : List (Call ℚ ℚ) :=
  [.ofValues 1 1 1 #[0, 1] #[0] #[2], .change ⟨0⟩ .factorDiagonal, .change ⟨0⟩ .zeroEntries]

/-- It cannot be inverted again, and the cache keeps the inverse that it had. Of its components,
only the first one is there, so a list that begins with it is refused as well. -/
theorem vanishing_failed_calls :
    let s := storeAfter vanishing .empty
    (Call.change ⟨0⟩ .factorDiagonal : Call ℚ ℚ).perform s =
        (⟨.error (.singularPivot 0), #[]⟩, s) ∧
      (s.get ⟨0⟩).invertedDiagonal = #[1 / 2] ∧
      ∃ fault, (Call.change ⟨0⟩ (.zeroRow 0 [0, 1] false) : Call ℚ ℚ).perform s =
        (⟨.error (.config fault), #[]⟩, s) := by
  intro s
  obtain ⟨-, unchanged, refused, -⟩ := failed_calls vanishing
  have failed : ((Call.change ⟨0⟩ .factorDiagonal : Call ℚ ℚ).perform s).1.result =
      .error (.singularPivot 0) := by decide +kernel
  have other : ∀ h, (Call.change ⟨0⟩ .factorDiagonal : Call ℚ ℚ) ≠ .change h .factor := by
    intro h same
    cases same
  have fits : Error.singularPivot 0 ≠ .tooLarge := nofun
  refine ⟨(unchanged _ other _ fits failed).2, by decide +kernel, ?_⟩
  exact refused ⟨0⟩ 0 [0, 1] false 1 (by decide) (by decide +kernel)

end BlockMatrix

end DomainDecomposition
