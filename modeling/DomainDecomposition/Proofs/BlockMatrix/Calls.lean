import DomainDecomposition.Proofs.BlockMatrix.Creation
import DomainDecomposition.Proofs.BlockMatrix.FactorSafety
import DomainDecomposition.Proofs.BlockMatrix.Kernels
import DomainDecomposition.Proofs.BlockMatrix.ValueSafety
import DomainDecomposition.Proofs.Scalar.Rational
import DomainDecomposition.Proofs.Store

/-!
# Sequences of calls on matrices

Matrices are made, changed and used by a sequence of calls, each with arguments of any size, and any
of them may fail. After every sequence all matrices are sound, none has another pattern than it was
made with, and no call leaves its arrays (`calls_safe`). A call may only run out of room, and only
where it has to hold more entries at once than any array can, or where the length that it asks for
is no machine word (`Call.HasRoom`): a block of a vector may already be too large
(`exists_calls_tooLarge`).

* `Computation`: calls that compute a vector,
* `Change`: calls that change the values or the cache of a matrix,
* `Call`: these, and the calls that make matrices or read them.
-/

namespace DomainDecomposition.BlockMatrix

open Outcome

variable {T R : Type}

/-! ## Calls -/

section Calls

/-- A vector is computed from a matrix. The vectors may have any length. -/
inductive Computation (T R : Type) where
  | mult (x : Array T)
  | multAdd (x y : Array T)
  | multAddInPlace (x : Array T)
  | applyLower (x : Array T)
  | applyUpper (x : Array T)
  | applyFactor (x : Array T)
  | applyLowerFrom (offset : ℕ)
  | applyUpperFrom (offset : ℕ)
  | applyUpperBefore (offset : ℕ)
  | applySor (rhs : Array T) (omega : R) (iterations : ℕ)
  | applySsor (rhs : Array T) (omega : R) (iterations : ℕ)

/-- A matrix is changed, perhaps by means of others. -/
inductive Change (T : Type) where
  | zeroEntries
  | scale (alpha : T)
  | copyValues (x : Handle)
  | axpy (alpha : T) (x : Handle)
  | axpby (alpha beta : T) (x : Handle)
  | addDiagonal (alpha : T)
  | zeroRow (row : ℕ) (components : List ℕ) (identity : Bool)
  | addProduct (alpha : T) (left right : Handle)
  | factor
  | factorDiagonal
  /-- Find a stored block, and write any scalars over its own. -/
  | writeBlock (i j : ℕ) (scalar : ℕ → T)

/-- A call on the matrices of a store. -/
inductive Call (T R : Type) where
  | ofPattern (blockSize rowCount columnCount : ℕ) (rowStart columns : Array ℕ)
  | ofValues (blockSize rowCount columnCount : ℕ) (rowStart columns : Array ℕ) (values : Array T)
  | ofTriplets (blockSize rowCount columnCount : ℕ) (triplets : List (Triplet T))
  | fillPattern (h : Handle) (limit : ℕ) (growth : R)
  | clone (h : Handle)
  | change (h : Handle) (c : Change T)
  | compute (h : Handle) (c : Computation T R) (output : Array T)
  | readBlock (h : Handle) (i j : ℕ)
  | toDense (h : Handle)
  | checkOperand (h x : Handle)

/-- The call does not change the matrix. -/
def Call.Spares (k : Handle) : Call T R → Prop
  | change h _ => h ≠ k
  | _ => True

/-- How a call has ended, and what it has made of its output vector. -/
structure Reply (T : Type) where
  result : Except Error Unit
  output : Array T

variable [Zero T] [One T] [Add T] [Sub T] [Neg T] [Mul T] [Div T] [BEq T]
variable [Zero R] [One R] [Neg R] [Mul R] [LT R] [DecidableLT R] [LE R] [DecidableLE R] [BEq R]
variable [Magnitude R] [Scalar T R]

/-- The operation on the output vector. -/
def Computation.run (a : BlockMatrix T) : Computation T R → Update (Array T) Unit
  | mult x => a.mult x
  | multAdd x y => a.multAdd x y
  | multAddInPlace x => a.multAddInPlace x
  | applyLower x => a.applyLower x
  | applyUpper x => a.applyUpper x
  | applyFactor x => a.applyFactor x
  | applyLowerFrom offset => a.applyLowerFrom offset
  | applyUpperFrom offset => a.applyUpperFrom offset
  | applyUpperBefore offset => a.applyUpperBefore offset
  | applySor rhs omega iterations => a.applySor rhs omega iterations
  | applySsor rhs omega iterations => a.applySsor rhs omega iterations

/-- The operation on the matrix that is changed. -/
def Change.run (s : Store T) : Change T → Update (BlockMatrix T) Unit
  | zeroEntries => modify BlockMatrix.zeroEntries
  | scale alpha => modify (BlockMatrix.scale alpha)
  | copyValues x => BlockMatrix.copyValues (s.get x)
  | axpy alpha x => BlockMatrix.axpy alpha (s.get x)
  | axpby alpha beta x => BlockMatrix.axpby alpha beta (s.get x)
  | addDiagonal alpha => BlockMatrix.addDiagonal alpha
  | zeroRow row components identity => BlockMatrix.zeroRow row components identity
  | addProduct alpha left right => BlockMatrix.addProduct alpha (s.get left) (s.get right)
  | factor => BlockMatrix.factor (R := R)
  | factorDiagonal => BlockMatrix.factorDiagonal (R := R)
  | writeBlock i j scalar => do
    let a ← get
    let _ ← a.readBlock i j
    let _ ← setBlock i j (Array.ofFn fun k : Fin (a.blockSize * a.blockSize) => scalar k)

/-- A matrix that has been made is added to the store. -/
def keep (made : Except Error (BlockMatrix T)) (s : Store T) : Reply T × Store T :=
  match made with
  | .ok a => (⟨.ok (), #[]⟩, (s.add a).2)
  | .error e => (⟨.error e, #[]⟩, s)

/-- Perform a call. -/
def Call.perform (s : Store T) : Call T R → Reply T × Store T
  | ofPattern blockSize rowCount columnCount rowStart columns =>
    keep (BlockMatrix.ofPattern blockSize rowCount columnCount rowStart columns) s
  | ofValues blockSize rowCount columnCount rowStart columns values =>
    keep (BlockMatrix.ofValues blockSize rowCount columnCount rowStart columns values) s
  | ofTriplets blockSize rowCount columnCount triplets =>
    keep (BlockMatrix.ofTriplets blockSize rowCount columnCount triplets) s
  | fillPattern h limit growth => keep ((s.get h).fillPattern limit growth) s
  | clone h => keep (.ok (s.get h)) s
  | change h c =>
    let (result, s) := (Store.onMatrix h (c.run (R := R) s)).on s
    (⟨result, #[]⟩, s)
  | compute h c output =>
    let (result, output) := (c.run (s.get h)).on output
    (⟨result, output⟩, s)
  | readBlock h i j => (⟨do let _ ← (s.get h).readBlock i j, #[]⟩, s)
  | toDense h => (⟨do let _ ← (s.get h).toDense, #[]⟩, s)
  | checkOperand h x => (⟨(s.get h).checkOperand (s.get x), #[]⟩, s)

/-- The store after a sequence of calls, whatever became of them. -/
def storeAfter (calls : List (Call T R)) (s : Store T) : Store T :=
  calls.foldl (fun s c => (c.perform s).2) s

/-! ## Room -/

/-- The vectors have lengths that are machine words, and so has the cache where it is used. A block
of a vector is kept aside, unless the blocks are written in place. -/
def Computation.HasRoom (a : BlockMatrix T) : Computation T R → Prop
  | applyUpper _ | applyFactor _ | applyUpperFrom _ | applyUpperBefore _ =>
    a.HasVectors ∧ a.blockSize < Capacity.limit
  | applySor .. | applySsor .. => (a.HasVectors ∧ a.HasCache) ∧ a.blockSize < Capacity.limit
  | _ => a.HasVectors

/-- A factorization keeps one block aside. -/
def Change.HasRoom (a : BlockMatrix T) : Change T → Prop
  | factor => a.blockSize * a.blockSize < Capacity.limit
  | _ => True

/-- An array can hold what the call makes besides the arrays that it was given, and the lengths that
these must have are machine words. -/
def Call.HasRoom (s : Store T) : Call T R → Prop
  | ofPattern blockSize rowCount _ _ columns =>
    rowCount + 1 < Capacity.words ∧ columns.size * blockSize * blockSize < Capacity.limit
  | ofValues blockSize rowCount _ _ columns _ =>
    rowCount + 1 < Capacity.words ∧ columns.size * blockSize * blockSize < Capacity.words
  | ofTriplets blockSize rowCount _ _ =>
    rowCount < Capacity.limit ∧ blockSize * blockSize < Capacity.words
  | fillPattern h limit growth => (s.get h).HasRoom limit growth
  | change h c => c.HasRoom (s.get h)
  | compute h c _ => c.HasRoom (s.get h)
  | toDense h => (s.get h).HasDenseCopy
  | _ => True

/-- The vector that a call is given for its output. -/
def Call.output : Call T R → Array T
  | compute _ _ output => output
  | _ => #[]

end Calls

/-! ## One call -/

/-- The same matrix but for the values and the cache. -/
def Revalued (a f : BlockMatrix T) : Prop :=
  ∃ v w, f = { a with values := v, invertedDiagonal := w }

lemma Revalued.refl (a : BlockMatrix T) : Revalued a a :=
  ⟨a.values, a.invertedDiagonal, rfl⟩

lemma Revalued.trans {a f g : BlockMatrix T} (first : Revalued a f) (second : Revalued f g) :
    Revalued a g := by
  obtain ⟨v, w, rfl⟩ := first
  obtain ⟨v', w', rfl⟩ := second
  exact ⟨v', w', rfl⟩

lemma SamePattern.revalued {a f : BlockMatrix T} (same : SamePattern a f) : Revalued a f := by
  obtain ⟨v, -, rfl⟩ := same
  exact ⟨v, a.invertedDiagonal, rfl⟩

section Steps

variable [Zero T] [One T] [Add T] [Sub T] [Mul T] [Scalar T R] {a : BlockMatrix T}

/-- A computation ends with a vector of the length that it was given. -/
lemma meets_computation (sound : a.Sound) (c : Computation T R) {y : Array T} :
    (c.run a).Meets (Error.Expected (c.HasRoom a)) (·.size = y.size) (fun _ => True) y := by
  have mismatch : ∀ expected found,
      Error.Expected (c.HasRoom a) (.dimensionMismatch expected found) :=
    fun _ _ => .of_ne nofun nofun
  have faults : ∀ fault, Error.Expected (c.HasRoom a) (.config fault) :=
    fun _ => .of_ne nofun nofun
  have unfactored : Error.Expected (c.HasRoom a) (.notFactored .relaxationSweep) :=
    .of_ne nofun nofun
  have fits {aside : Prop} (lack : ¬a.HasVectors) :
      Error.Expected (a.HasVectors ∧ aside) .tooLarge := .tooLarge fun room => lack room.1
  have large {vectors : Prop} (lack : ¬a.blockSize < Capacity.limit) :
      Error.Expected (vectors ∧ a.blockSize < Capacity.limit) .tooLarge :=
    .tooLarge fun room => lack room.2
  cases c with
  | mult x => exact meets_mult sound.valid mismatch .tooLarge
  | multAdd x y => exact meets_multAdd sound.valid mismatch .tooLarge
  | multAddInPlace x => exact meets_multAddInPlace sound.valid mismatch .tooLarge
  | applyLower x => exact meets_applyLower sound.valid mismatch .tooLarge faults
  | applyLowerFrom offset => exact meets_applyLowerFrom sound.valid mismatch .tooLarge faults
  | applyUpper x => exact meets_applyUpper sound.valid mismatch fits faults large
  | applyFactor x => exact meets_applyFactor sound.valid mismatch fits faults large
  | applyUpperFrom offset => exact meets_applyUpperFrom sound.valid mismatch fits faults large
  | applyUpperBefore offset => exact meets_applyUpperBefore sound.valid mismatch fits faults large
  | applySor rhs omega iterations =>
    exact meets_applySor sound mismatch (fun lack => .tooLarge fun room => lack room.1) unfactored
      large
  | applySsor rhs omega iterations =>
    exact meets_applySsor sound mismatch (fun lack => .tooLarge fun room => lack room.1) unfactored
      large

variable [Neg T] [Div T] [BEq T] [Zero R] [One R] [Neg R] [Mul R] [LT R] [DecidableLT R] [LE R]
variable [DecidableLE R] [BEq R] [Magnitude R] {s : Store T}

/-- A block that is found is overwritten, and nothing can fail. -/
lemma meets_writeBlock {permitted : Error → Prop} (valid : a.Valid) (i j : ℕ) (scalar : ℕ → T) :
    ((Change.writeBlock i j scalar).run (R := R) s).Meets permitted (SamePattern a)
      (fun _ => True) a := by
  apply Update.Meets.get_bind
  apply Update.Meets.lift_bind_ok (valid.readBlock_eq i j)
  refine Update.Meets.bind (meets_setBlock i j Array.size_ofFn) ?_
  exact fun _ _ _ h => .pure h trivial

/-- All changes but that of the cache keep the pattern and the cache, also when they fail midway. -/
lemma meets_values (all : ∀ h, (s.get h).Sound) (valid : a.Valid) {c : Change T}
    (other : c ≠ .factorDiagonal) :
    (c.run (R := R) s).Meets (Error.Expected (c.HasRoom a)) (SamePattern a) (fun _ => True) a := by
  have faults : ∀ fault, Error.Expected (c.HasRoom a) (.config fault) :=
    fun _ => .of_ne nofun nofun
  have refused : ∀ fault, Error.Expected (c.HasRoom a) (.incompatibleOperand fault) :=
    fun _ => .of_ne nofun nofun
  cases c with
  | zeroEntries => exact ⟨⟨_, Array.size_map, rfl⟩, trivial⟩
  | scale alpha => exact ⟨⟨_, Array.size_map, rfl⟩, trivial⟩
  | copyValues x => exact meets_copyValues valid (all x).valid fun _ => refused
  | axpy alpha x => exact meets_axpy valid (all x).valid (fun _ => refused) alpha
  | axpby alpha beta x => exact meets_axpby valid (all x).valid (fun _ => refused) alpha beta
  | addDiagonal alpha => exact meets_addDiagonal valid (fun _ => faults _) alpha
  | zeroRow row components identity => exact meets_zeroRow valid faults row components identity
  | addProduct alpha left right =>
    exact meets_addProduct (all left).valid (all right).valid valid refused alpha
  | factor =>
    have factored := meets_factor (R := R) valid (fun _ => faults _)
      .tooLarge fun _ => Error.Expected.of_ne nofun nofun
    exact factored.imp fun _ _ => trivial
  | factorDiagonal => exact absurd rfl other
  | writeBlock i j scalar => exact meets_writeBlock valid i j scalar

/-- A changed matrix stays sound and keeps its pattern, also when the change fails midway. -/
lemma meets_change (all : ∀ h, (s.get h).Sound) (sound : a.Sound) (c : Change T) :
    (c.run (R := R) s).Meets (Error.Expected (c.HasRoom a)) (fun f => f.Sound ∧ Revalued a f)
      (fun _ => True) a := by
  have valid := sound.valid
  have kept : ∀ f, SamePattern a f → f.Sound ∧ Revalued a f :=
    fun f same => ⟨same.sound sound, same.revalued⟩
  by_cases cache : c = .factorDiagonal
  · subst cache
    refine (meets_factorDiagonal valid (fun _ => .of_ne nofun nofun)
      fun _ => .of_ne nofun nofun).weaken ?_
    rintro f (rfl | ⟨square, w, hw, rfl⟩)
    · exact kept f (.refl f)
    · exact ⟨⟨valid.withCache w, .inr ⟨square, hw⟩⟩, _, _, rfl⟩
  · exact (meets_values all valid cache).weaken kept

end Steps

/-! ## Sequences of calls -/

/-- All matrices are still there, with the patterns that they had. -/
def Extends (s t : Store T) : Prop :=
  ∀ h, s.Holds h → t.Holds h ∧ Revalued (s.get h) (t.get h)

lemma Extends.refl (s : Store T) : Extends s s :=
  fun _ held => ⟨held, .refl _⟩

lemma Extends.trans {s t u : Store T} (first : Extends s t) (second : Extends t u) :
    Extends s u := by
  intro h held
  obtain ⟨held, revalued⟩ := first h held
  exact ⟨(second h held).1, revalued.trans (second h held).2⟩

/-- A handle that names nothing reads the empty matrix. -/
lemma sound_empty : (empty : BlockMatrix T).Sound := by
  have made : ofValues 1 0 0 #[0] #[] #[] = .ok (empty : BlockMatrix T) := rfl
  exact ⟨(ofValues_eq_ok.mp made).1, .inl rfl⟩

lemma extends_add (s : Store T) (a : BlockMatrix T) : Extends s (s.add a).2 := by
  intro h held
  refine ⟨Store.holds_add held a, ?_⟩
  rw [Store.get_add_of_holds held]
  exact .refl _

lemma extends_set {s : Store T} {k : Handle} {a : BlockMatrix T}
    (revalued : Revalued (s.get k) a) : Extends s (s.set k a) := by
  intro h held
  refine ⟨Store.holds_set held a, ?_⟩
  rcases Store.get_set s k a h with same | ⟨rfl, new⟩
  · rw [same]
    exact .refl _
  · rw [new]
    exact revalued

/-- What a call on sound matrices leaves behind, if its output vector had `size` scalars. -/
structure Safe (room : Prop) (size : ℕ) (s : Store T) (r : Reply T × Store T) : Prop where
  sound : ∀ h, (r.2.get h).Sound
  patterns : Extends s r.2
  size_output : r.1.output.size = size
  result : Meets (Error.Expected room) (fun _ => True) r.1.result

lemma safe_keep {room : Prop} {s : Store T} (all : ∀ h, (s.get h).Sound)
    {made : Except Error (BlockMatrix T)} (meets : Meets (Error.Expected room) Sound made) :
    Safe room 0 s (keep made s) := by
  cases made with
  | error e => exact ⟨all, .refl s, rfl, meets⟩
  | ok a =>
    refine ⟨fun h => ?_, extends_add s a, rfl, trivial⟩
    change ((s.add a).2.get h).Sound
    rw [Store.get_add]
    split
    · exact meets
    · exact all h

/-- A call that only reads. -/
lemma safe_read {room : Prop} {s : Store T} (all : ∀ h, (s.get h).Sound)
    {result : Except Error Unit} (meets : Meets (Error.Expected room) (fun _ => True) result) :
    Safe room 0 s (⟨result, #[]⟩, s) :=
  ⟨all, .refl s, rfl, meets⟩

section Runs

variable [Zero T] [One T] [Add T] [Sub T] [Neg T] [Mul T] [Div T] [BEq T]
variable [Zero R] [One R] [Neg R] [Mul R] [LT R] [DecidableLT R] [LE R] [DecidableLE R] [BEq R]
variable [Magnitude R] [Scalar T R] {s : Store T}

lemma safe_perform (all : ∀ h, (s.get h).Sound) (c : Call T R) :
    Safe (c.HasRoom s) c.output.size s (c.perform s) := by
  have faults : ∀ fault, Error.Expected (c.HasRoom s) (.config fault) :=
    fun _ => .of_ne nofun nofun
  have mismatch : ∀ expected found,
      Error.Expected (c.HasRoom s) (.dimensionMismatch expected found) :=
    fun _ _ => .of_ne nofun nofun
  have sound : ∀ a : BlockMatrix T, a.Fresh → a.Sound := fun _ => Fresh.sound
  cases c with
  | ofPattern blockSize rowCount columnCount rowStart columns =>
    refine safe_keep all (Meets.mono ?_ (fun _ => id) sound)
    exact meets_ofPattern faults (fun vast => .tooLarge fun room => vast room.1) mismatch
      fun full => .tooLarge fun room => full room.2
  | ofValues blockSize rowCount columnCount rowStart columns values =>
    refine safe_keep all (Meets.mono ?_ (fun _ => id) sound)
    exact meets_ofValues faults (fun vast => .tooLarge fun room => vast room.1) mismatch
      fun full => .tooLarge fun room => full room.2
  | ofTriplets blockSize rowCount columnCount triplets =>
    have assembled : Meets (Error.Expected _) (Assembled blockSize rowCount columnCount triplets)
        (BlockMatrix.ofTriplets blockSize rowCount columnCount triplets) :=
      meets_ofTriplets faults mismatch .tooLarge triplets
    exact safe_keep all (assembled.mono (fun _ => id) fun _ made => made.fresh.sound)
  | fillPattern h limit growth =>
    refine safe_keep all (Meets.mono ?_ (fun _ => id) sound)
    exact meets_fillPattern (all h).valid faults .tooLarge
  | clone h =>
    have meets : Meets (Error.Expected True) Sound (.ok (s.get h)) := all h
    exact safe_keep all meets
  | change h c =>
    obtain ⟨⟨sound, revalued⟩, result⟩ := meets_change (R := R) all (all h) c
    refine ⟨fun k => ?_, extends_set revalued, rfl, result⟩
    change ((s.set h ((c.run (R := R) s).on (s.get h)).2).get k).Sound
    rcases Store.get_set s h ((c.run (R := R) s).on (s.get h)).2 k with same | ⟨-, new⟩
    · rw [same]
      exact all k
    · rw [new]
      exact sound
  | compute h c output =>
    obtain ⟨size, result⟩ := meets_computation (all h) c (y := output)
    exact ⟨all, .refl s, size, result⟩
  | readBlock h i j =>
    apply safe_read all
    rw [(all h).valid.readBlock_eq i j]
    trivial
  | toDense h =>
    apply safe_read all
    exact (meets_toDense (all h).valid .tooLarge).bind fun _ _ => trivial
  | checkOperand h x =>
    apply safe_read all
    exact ((all h).valid.meets_positionsOf (all x).valid fun _ _ => .of_ne nofun nofun).bind
      fun _ _ => trivial

/-- A call that changes one matrix leaves the others alone. -/
lemma get_perform {k : Handle} (held : s.Holds k) {c : Call T R} (spared : c.Spares k) :
    (c.perform s).2.get k = s.get k := by
  have kept : ∀ made : Except Error (BlockMatrix T), (keep made s).2.get k = s.get k := by
    rintro (e | a)
    · rfl
    · exact Store.get_add_of_holds held a
  cases c with
  | change h c => exact Store.get_set_ne s _ spared
  | ofPattern | ofValues | ofTriplets | fillPattern | clone => exact kept _
  | compute | readBlock | toDense | checkOperand => rfl

/-- Soundness and the patterns survive any sequence of calls. -/
lemma storeAfter_safe (all : ∀ h, (s.get h).Sound) (calls : List (Call T R)) :
    (∀ h, ((storeAfter calls s).get h).Sound) ∧ Extends s (storeAfter calls s) := by
  induction calls generalizing s with
  | nil => exact ⟨all, .refl s⟩
  | cons c calls ih =>
    have first := safe_perform all c
    obtain ⟨sound, rest⟩ := ih first.sound
    exact ⟨sound, first.patterns.trans rest⟩

/-- After any sequence of calls, starting without matrices: all matrices are sound; whatever is
called then, their patterns stay; and a further call neither leaves an array nor changes the length
of its output vector, and runs out of room only where there is none. -/
theorem calls_safe (calls more : List (Call T R)) (c : Call T R) :
    let s := storeAfter calls (.empty : Store T)
    let t := storeAfter more s
    (∀ h, (s.get h).Sound) ∧
      (∀ h, s.Holds h → t.Holds h ∧ Revalued (s.get h) (t.get h)) ∧
      (c.perform s).1.output.size = c.output.size ∧
      ∀ e, (c.perform s).1.result = .error e → e ≠ .outOfRange ∧ (e = .tooLarge → ¬c.HasRoom s) := by
  intro s t
  obtain ⟨sound, -⟩ := storeAfter_safe (R := R) (s := (.empty : Store T))
    (fun _ => sound_empty) calls
  obtain ⟨-, patterns⟩ := storeAfter_safe sound more
  have last := safe_perform sound c
  refine ⟨sound, patterns, last.size_output, fun e failed => ?_⟩
  have result := last.result
  rwa [failed] at result

end Runs

/-- A matrix without rows may still have blocks of a size for which no vector has room. -/
theorem exists_calls_tooLarge :
    ¬∀ (calls : List (Call ℚ ℚ)) (c : Call ℚ ℚ) (e : Error),
      (c.perform (storeAfter calls .empty)).1.result = .error e → e ≠ .tooLarge := by
  intro roomy
  have failed : ((Call.compute ⟨0⟩ (.applyUpper #[]) #[] : Call ℚ ℚ).perform
      (storeAfter [.ofPattern (2 ^ 60) 0 0 #[0] #[]] .empty)).1.result = .error .tooLarge := by
    decide +kernel
  exact roomy _ _ _ failed rfl

end DomainDecomposition.BlockMatrix
