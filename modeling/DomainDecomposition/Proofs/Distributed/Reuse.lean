import DomainDecomposition.Proofs.Distributed.BoundaryConditions
import DomainDecomposition.Proofs.Distributed.Interface
import DomainDecomposition.Proofs.History

/-!
# Using a matrix again

A distributed matrix and an interface operator of a single process keep a halo from one product to
the next, and nothing else. No product reads what the halo has received before, and no product
leaves a ticket out, whether it succeeds, its vectors have wrong lengths, or a block is missing. So
a product answers the same as one by a `Twin` with a new halo (`forgets_mult`,
`forgets_multRemote`), and that is what the constructors make of the same pieces at any later time
(`ofParts_later`, `ofMatrix_later`).
-/

namespace DomainDecomposition

open BlockMatrix Outcome

variable {T R : Type} {s s₀ : Store T}

lemma Error.notInFlight_misfit (expected found : ℕ) :
    (Collective.misfit expected found).NotInFlight := by
  unfold Collective.misfit
  rcases Capacity.refusal_cases expected (.dimensionMismatch expected found) with h | ⟨-, h⟩ <;>
    rw [h] <;> exact fun _ => nofun

namespace DistributedMatrix

/-! ## Matrices -/

/-- The layout does not depend on the values. -/
lemma layoutOf_revalued {diagonal diagonal' offDiagonal offDiagonal' : BlockMatrix T}
    (first : Revalued diagonal diagonal') (second : Revalued offDiagonal offDiagonal')
    (partition : RowPartition) (remote : ℕ) :
    layoutOf partition diagonal' offDiagonal' remote =
      layoutOf partition diagonal offDiagonal remote := by
  obtain ⟨_, _, rfl⟩ := first
  obtain ⟨_, _, rfl⟩ := second
  rfl

variable {a : DistributedMatrix T}

/-- Pieces that fit together go on to do so. -/
lemma Fits.later (fits : a.Fits s₀) (later : Later s₀ s) : a.Fits s where
  layout := by
    rw [layoutOf_revalued (later.patterns _ fits.held_diagonal).2
      (later.patterns _ fits.held_offDiagonal).2, fits.layout]
  held_diagonal := (later.patterns _ fits.held_diagonal).1
  held_offDiagonal := (later.patterns _ fits.held_offDiagonal).1
  diagonal := (later.sound _).valid
  offDiagonal := (later.sound _).valid

/-- The same pieces make the same matrix at any later time. -/
lemma ofParts_later [Zero T] {diagonal offDiagonal : Handle} (held : s₀.Holds diagonal)
    (held' : s₀.Holds offDiagonal) (later : Later s₀ s) (partition : RowPartition)
    (table : Table T) (constraints : Option (Constraints T)) :
    ofParts s partition diagonal offDiagonal table constraints =
      ofParts s₀ partition diagonal offDiagonal table constraints := by
  unfold ofParts
  rw [layoutOf_revalued (later.patterns _ held).2 (later.patterns _ held').2]

/-- The same matrix, with any halo of a single process between two exchanges. -/
def Twin (a a' : DistributedMatrix T) : Prop :=
  ∃ halo : Halo T, a' = { a with halo } ∧ halo.Single a.layout.blockSize a.table.blocks

/-- The constructor makes a new halo over the table. -/
lemma ofTable_of_ofParts [Zero T] {partition : RowPartition} {diagonal offDiagonal : Handle}
    {table : Table T} {constraints : Option (Constraints T)}
    (built : ofParts s partition diagonal offDiagonal table constraints = .ok a) :
    a.table = table ∧ Halo.ofTable table a.layout.blockSize = .ok a.halo := by
  unfold ofParts at built
  simp only [throw_eq, pure_eq, error_bind, error_ite_eq_ok, bind_eq_ok] at built
  obtain ⟨layout, hlayout, link, hlink, -, halo, hhalo, ha⟩ := built
  obtain rfl := Except.ok.inj ha
  obtain ⟨-, -, -, hl⟩ := layoutOf_eq_ok hlayout
  have hremote : layout.remote = table.slots := by rw [hl]
  rw [hremote] at hhalo
  exact ⟨rfl, by rw [Halo.ofTable, hlink, ok_bind, hhalo]⟩

lemma Twin.of_ofParts [Zero T] {partition : RowPartition} {diagonal offDiagonal : Handle}
    {blocks : List ℕ} {constraints : Option (Constraints T)}
    (built : ofParts s partition diagonal offDiagonal (.single blocks) constraints = .ok a) :
    a.Twin a := by
  obtain ⟨table, made⟩ := ofTable_of_ofParts built
  refine ⟨a.halo, rfl, ?_⟩
  rw [table]
  exact .of_ofTable made

/-- An operation on the end of a vector fails where the operation on that part alone does. -/
lemma meets_onTail {permitted : Error → Prop} {start : ℕ} {u : Update (Array T) Unit} {y : Array T}
    (meets : u.Meets permitted (·.size = (y.extract start y.size).size) (fun _ => True)
      (y.extract start y.size)) :
    (onTail start u).Meets permitted (·.size = y.size) (fun _ => True) y := by
  refine ⟨?_, meets.2⟩
  have size : (u.on (y.extract start y.size)).2.size = (y.extract start y.size).size := meets.1
  change (y.extract 0 start ++ (u.on (y.extract start y.size)).2).size = y.size
  rw [Array.size_append, size, Array.size_extract, Array.size_extract]
  omega

section Products

variable [Zero T] [Add T] [Mul T]

/-- A product answers what any twin would. -/
theorem forgets_mult (fits : a.Fits s) (counted : Counted a.layout.blockSize 0 a.table.blocks)
    (x : Array T) :
    Forgets a.Twin (mult s x : Collective T R (DistributedMatrix T × Array T) Unit) := by
  intro y
  by_cases lengths : x.size = a.vectorLength ∧ y.size = a.vectorLength
  · obtain ⟨hx, hy⟩ := lengths
    have length : a.vectorLength = a.layout.owned * a.layout.blockSize := Nat.mul_comm ..
    obtain ⟨z, run, -⟩ := fits.mult_eq (hx.trans length) (hy.trans length)
    refine .of_isExchange x 0 counted (fun received =>
      (onTail a.layout.interfaceStart ((s.get a.offDiagonal).multAddInPlace received)).on z)
      (fun received => (meets_onTail (meets_multAddInPlace fits.offDiagonal (fun _ _ => nofun)
        fun _ => nofun)).2) ?_
    rintro _ ⟨halo, rfl, single⟩
    refine ⟨halo, _, afterFinish s a z, single, mult_on s { a with halo } hx hy,
      fun ticket h => finishMult_on s { a with halo } run ticket h, fun h single' => ⟨fun e => ?_, ?_⟩⟩
    · exact ⟨{ a with halo := h }, rfl, h, rfl, single'⟩
    · exact ⟨{ a with halo := h }, rfl, h, rfl, single'⟩
  · refine .of_refused (Error.notInFlight_misfit a.vectorLength
      (if x.size = a.vectorLength then y.size else x.size)) ?_
    rintro _ ⟨halo, rfl, single⟩
    exact mult_on_of_size_ne { a with halo } lengths s

/-- A product as a use of the matrix. -/
def use (s : Store T) (a : DistributedMatrix T) (v : Array T × Array T) :
    Program T R (Reply T × Store T × DistributedMatrix T) :=
  replyOf s a (mult s v.1) v.2

lemma lasting_use (fits : a.Fits s₀) (counted : Counted a.layout.blockSize 0 a.table.blocks) :
    Lasting (R := R) s₀ a.Twin use := by
  intro s a' v later twin
  obtain ⟨reply, a'', run, meets, twin'⟩ :=
    (forgets_mult (R := R) (fits.later later) counted v.1).replyOf_eq s twin v.2
  exact ⟨reply, s, a'', run, meets, later, twin'⟩

end Products

end DistributedMatrix

namespace InterfaceOperator

/-! ## Interface operators -/

variable {a : DistributedMatrix T} {op : InterfaceOperator T} {factors : Handle} {b : ℕ}
variable {blocks : List ℕ}

/-- The same operator, with any halo of a single process between two exchanges. -/
def Twin (b : ℕ) (blocks : List ℕ) (op op' : InterfaceOperator T) : Prop :=
  ∃ halo : Halo T, op' = { op with halo } ∧ halo.Single b blocks

/-- The same pieces make the same operator at any later time. -/
lemma ofMatrix_later [Zero T] (held : s₀.Holds factors) (later : Later s₀ s) :
    (ofMatrix s a factors : Program T R (Except Error (InterfaceOperator T))) =
      ofMatrix s₀ a factors := by
  obtain ⟨_, _, revalued⟩ := (later.patterns _ held).2
  unfold ofMatrix
  rw [revalued]

lemma Twin.of_ofMatrix [Zero T] (table : a.table = .single blocks)
    (built : (ofMatrix s a factors : Program T R (Except Error (InterfaceOperator T))) =
      .done (.ok op)) :
    op.Twin a.layout.blockSize blocks op := by
  have ensures := ofMatrix_ensures (R := R) s a factors
  rw [built] at ensures
  have halo := (ensures op rfl).halo
  rw [table] at halo
  exact ⟨op.halo, rfl, .of_ofTable halo⟩

/-- Whatever is made of the received blocks, it is made of those of any twin. -/
lemma forgets_of_afterBegin (counted : Counted b 0 blocks)
    {c : Collective T R (InterfaceOperator T × Array T) Unit} {w : Array T}
    (u : Array T → Update (Array T) Unit)
    (meets : ∀ received y, Meets Error.NotInFlight (fun _ => True) ((u received).on y).1)
    (runs : ∀ (halo : Halo T) (y : Array T), w.size = op.vectorLength → y.size = op.vectorLength →
      c.on ({ op with halo }, y) =
        (Halo.begin w op.interior).on halo >>= afterBegin { op with halo } u y)
    (refused : ∀ (halo : Halo T) (y : Array T),
      ¬(w.size = op.vectorLength ∧ y.size = op.vectorLength) →
      c.on ({ op with halo }, y) = .done (.error (Collective.misfit op.vectorLength
        (if w.size = op.vectorLength then y.size else w.size)), { op with halo }, y)) :
    Forgets (op.Twin b blocks) c := by
  intro y
  by_cases lengths : w.size = op.vectorLength ∧ y.size = op.vectorLength
  · refine .of_isExchange w op.interior counted (fun received => (u received).on y)
      (fun received => meets received y) ?_
    rintro _ ⟨halo, rfl, single⟩
    refine ⟨halo, _, afterFinish op u y, single, runs halo y lengths.1 lengths.2,
      fun ticket h => rfl, fun h single' => ⟨fun e => ?_, ?_⟩⟩
    · exact ⟨{ op with halo := h }, rfl, h, rfl, single'⟩
    · exact ⟨{ op with halo := h }, rfl, h, rfl, single'⟩
  · refine .of_refused (Error.notInFlight_misfit op.vectorLength
      (if w.size = op.vectorLength then y.size else w.size)) ?_
    rintro _ ⟨halo, rfl, single⟩
    exact refused halo y lengths

section Products

variable [Zero T] [Add T] [Mul T]

theorem forgets_multRemote (offDiagonal : (s.get op.offDiagonal).Valid)
    (counted : Counted b 0 blocks) (w : Array T) :
    Forgets (op.Twin b blocks)
      (multRemote s w : Collective T R (InterfaceOperator T × Array T) Unit) :=
  forgets_of_afterBegin counted _
    (fun _ _ => (meets_mult offDiagonal (fun _ _ => nofun) fun _ => nofun).2)
    (fun halo _ => multRemote_on s { op with halo })
    fun halo _ => multRemote_on_of_size_ne s { op with halo }

variable [Sub T]

lemma meets_localProduct (sound : ∀ h, (s.get h).Sound) (w received y : Array T) :
    (localProduct s op w received).Meets Error.NotInFlight (fun _ => True) (fun _ => True) y := by
  have valid := (sound op.factors).valid
  refine Update.Meets.bind (Q := fun _ => True)
    ((meets_mult (sound _).valid (fun _ _ => nofun) fun _ => nofun).weaken fun _ _ => trivial)
    fun _ z _ _ => ?_
  refine Update.Meets.bind (Q := fun _ => True)
    ((meets_applyLowerFrom valid (fun _ _ => nofun) (fun _ => nofun) fun _ => nofun).weaken
      fun _ _ => trivial) fun _ z _ _ => ?_
  refine Update.Meets.bind (Q := fun _ => True) ((meets_applyUpperFrom valid (fun _ _ => nofun)
    (fun _ => nofun) (fun _ => nofun) fun _ => nofun).weaken fun _ _ => trivial) fun _ z _ _ => ?_
  exact ⟨trivial, trivial⟩

theorem forgets_mult (sound : ∀ h, (s.get h).Sound) (counted : Counted b 0 blocks) (w : Array T) :
    Forgets (op.Twin b blocks) (mult s w : Collective T R (InterfaceOperator T × Array T) Unit) :=
  forgets_of_afterBegin counted _ (fun received y => (meets_localProduct sound w received y).2)
    (fun halo _ => mult_on s { op with halo })
    fun halo _ => mult_on_of_size_ne s { op with halo }

/-- The two products of an interface operator. -/
inductive Use (T : Type) where
  | mult (w y : Array T)
  | multRemote (w y : Array T)

/-- A product as a use of the operator. -/
def use (s : Store T) (op : InterfaceOperator T) :
    Use T → Program T R (Reply T × Store T × InterfaceOperator T)
  | .mult w y => replyOf s op (mult s w) y
  | .multRemote w y => replyOf s op (multRemote s w) y

lemma lasting_use (counted : Counted b 0 blocks) :
    Lasting (R := R) s₀ (op.Twin b blocks) use := by
  intro s op' u later twin
  cases u with
  | mult w y =>
    obtain ⟨reply, op'', run, meets, twin'⟩ :=
      (forgets_mult (R := R) later.sound counted w).replyOf_eq s twin y
    exact ⟨reply, s, op'', run, meets, later, twin'⟩
  | multRemote w y =>
    obtain ⟨reply, op'', run, meets, twin'⟩ :=
      (forgets_multRemote (R := R) (later.sound _).valid counted w).replyOf_eq s twin y
    exact ⟨reply, s, op'', run, meets, later, twin'⟩

end Products

end InterfaceOperator

end DomainDecomposition
