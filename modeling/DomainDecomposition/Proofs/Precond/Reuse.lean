import DomainDecomposition.Precond.Relaxation
import DomainDecomposition.Proofs.Distributed.Reuse

/-!
# Using an operator again

A relaxation keeps a halo and a right-hand side from one application to the next. The right-hand
side is cleared before it is used, so an application answers what any `Twin` would
(`forgets_apply`). With the results on matrices and interface operators: whatever uses have been
made of an operator of a single process, and whatever has become of them and of the matrices
meanwhile, no use finds an exchange still in flight, and the next one answers what it would of an
operator built anew (`operators_forget`). This takes a table whose blocks end at places that are
machine words (`tip_products_hindered`).
-/

namespace DomainDecomposition

open BlockMatrix Outcome

variable {T R : Type} {s s₀ : Store T}

namespace PointRelaxation

variable {p : PointRelaxation T R} {b : ℕ} {blocks : List ℕ} {x y : Array T}

/-- The same relaxation, with any halo of a single process between two exchanges and any right-hand
side of the same length. -/
def Twin (b : ℕ) (blocks : List ℕ) (p q : PointRelaxation T R) : Prop :=
  ∃ (halo : Halo T) (right : Array T), q = { p with halo, right } ∧ halo.Single b blocks ∧
    right.size = p.right.size

/-- A relaxation of the same pieces, however it has been set up. -/
structure Kin (b : ℕ) (blocks : List ℕ) (p q : PointRelaxation T R) : Prop where
  diagonal : q.diagonal = p.diagonal
  offDiagonal : q.offDiagonal = p.offDiagonal
  interfaceStart : q.interfaceStart = p.interfaceStart
  halo : q.halo.Single b blocks
  right : q.right.size = p.right.size

lemma Kin.twin_self {q : PointRelaxation T R} (kin : p.Kin b blocks q) : q.Twin b blocks q :=
  ⟨q.halo, q.right, rfl, kin.halo, rfl⟩

lemma Kin.of_twin {q q' : PointRelaxation T R} (kin : p.Kin b blocks q)
    (twin : q.Twin b blocks q') : p.Kin b blocks q' := by
  obtain ⟨halo, right, rfl, single, size⟩ := twin
  exact ⟨kin.diagonal, kin.offDiagonal, kin.interfaceStart, single, size.trans kin.right⟩

/-- The constructor makes a relaxation with a new halo. -/
lemma Kin.of_ofMatrix [Zero T] {a : DistributedMatrix T} (table : a.table = .single blocks)
    {omega : R} {iterations : ℕ} {flags : RelaxFlags}
    (built : ofMatrix a omega iterations flags = .ok p) : p.Kin a.layout.blockSize blocks p := by
  unfold ofMatrix at built
  simp only [pure_eq, bind_eq_ok] at built
  obtain ⟨halo, made, right, -, hp⟩ := built
  obtain rfl := Except.ok.inj hp
  rw [table] at made
  exact ⟨rfl, rfl, rfl, .of_ofTable made, rfl⟩

/-- What the constructor makes with other settings is a twin, once it is marked as factored or not.
-/
lemma Kin.exists_ofMatrix [Zero T] {a : DistributedMatrix T} (table : a.table = .single blocks)
    {omega : R} {iterations : ℕ} {flags : RelaxFlags}
    (built : ofMatrix a omega iterations flags = .ok p) {q : PointRelaxation T R}
    (kin : p.Kin a.layout.blockSize blocks q) :
    ∃ new, ofMatrix a q.omega q.iterations q.flags = .ok new ∧
      q.Twin a.layout.blockSize blocks { new with factored := q.factored } := by
  have own := Kin.of_ofMatrix table built
  refine ⟨{ p with omega := q.omega, iterations := q.iterations, flags := q.flags }, ?_, p.halo,
    p.right, ?_, own.halo, kin.right.symm⟩
  · unfold ofMatrix at built ⊢
    simp only [pure_eq, bind_eq_ok] at built ⊢
    obtain ⟨halo, made, right, room, hp⟩ := built
    obtain rfl := Except.ok.inj hp
    exact ⟨halo, made, right, room, rfl⟩
  · rw [kin.diagonal, kin.offDiagonal, kin.interfaceStart]

section Apply

variable [Zero T] [One T] [Add T] [Sub T] [Mul T] [Scalar T R]

/-- What an application makes of the blocks that it has received. -/
def relaxed (s : Store T) (p : PointRelaxation T R) (x y received : Array T) :
    Except Error Unit × Array T :=
  let frozen := (freeze (s.get p.offDiagonal) p.interfaceStart received x).on (p.right.map fun _ => 0)
  match frozen.1 with
  | .ok () => (p.sweep s frozen.2).on y
  | .error e => (.error e, y)

/-- What follows the second half of the exchange. -/
def afterFinish (s : Store T) (p : PointRelaxation T R) (x y : Array T) :
    Except Error Unit × Halo T → Program T R (Except Error Unit × PointRelaxation T R × Array T)
  | (.ok (), halo) => .done ((p.relaxed s x y halo.received).1,
      { p with
        halo
        right := ((freeze (s.get p.offDiagonal) p.interfaceStart halo.received x).on
          (p.right.map fun _ => 0)).2 }, (p.relaxed s x y halo.received).2)
  | (.error e, halo) => .done (.error e, { p with halo, right := p.right.map fun _ => 0 }, y)

/-- What follows the first half of the exchange. -/
def afterBegin (s : Store T) (p : PointRelaxation T R) (x y : Array T) :
    Except Error Ticket × Halo T → Program T R (Except Error Unit × PointRelaxation T R × Array T)
  | (.ok ticket, halo) => (Halo.finish ticket).on halo >>= p.afterFinish s x y
  | (.error e, halo) => .done (.error e, { p with halo }, y)

/-- Vectors of a wrong length are refused before any request. -/
lemma apply_on_of_size_ne (factored : p.factored = true)
    (h : ¬(x.size = p.right.size ∧ y.size = p.right.size)) :
    (apply s x : Collective T R (PointRelaxation T R × Array T) Unit).on (p, y) =
      .done (.error (.dimensionMismatch p.right.size
        (if x.size = p.right.size then y.size else x.size)), p, y) := by
  rw [apply, Collective.on_bind, Collective.on_get, Program.done_bind]
  simp only [factored]
  exact Collective.on_checkLengths_of_ne h _ _

/-- Starting from zero needs no exchange. -/
lemma apply_on_of_zeroGuess (factored : p.factored = true) (hx : x.size = p.right.size)
    (hy : y.size = p.right.size) (zero : p.flags.contains .zeroGuess = true) :
    (apply s x : Collective T R (PointRelaxation T R × Array T) Unit).on (p, y) =
      .done (((p.sweep s x).on (y.map fun _ => 0)).1, p, ((p.sweep s x).on (y.map fun _ => 0)).2) := by
  rw [apply, Collective.on_bind, Collective.on_get, Program.done_bind]
  simp only [factored]
  refine (Collective.on_checkLengths hx hy _ _).trans ?_
  simp only [zero, if_true]
  rfl

lemma apply_on (factored : p.factored = true) (hx : x.size = p.right.size)
    (hy : y.size = p.right.size) (zero : p.flags.contains .zeroGuess = false) :
    (apply s x : Collective T R (PointRelaxation T R × Array T) Unit).on (p, y) =
      (Halo.begin y 0).on p.halo >>= p.afterBegin s x y := by
  rw [apply, Collective.on_bind, Collective.on_get, Program.done_bind]
  simp only [factored]
  refine (Collective.on_checkLengths hx hy _ _).trans ?_
  simp only [zero, Bool.false_eq_true, if_false, Collective.on_bind, Collective.onFst, onHalo,
    Collective.on_focus, Program.bind_bind, Program.done_bind]
  refine bind_congr fun begun => ?_
  obtain ⟨e | ticket, halo⟩ := begun
  · rfl
  · show (Halo.finish ticket).on halo >>= _ = (Halo.finish ticket).on halo >>= _
    refine bind_congr fun finished => ?_
    obtain ⟨e | ⟨⟩, halo'⟩ := finished
    · rfl
    · simp only [afterFinish, relaxed, Collective.on_get, Program.done_bind, Collective.on_ofUpdate,
        onRight, Update.on_onFst, Update.on_focus]
      rcases (freeze (s.get p.offDiagonal) p.interfaceStart halo'.received x).on
        (p.right.map fun _ => 0) with ⟨e | ⟨⟩, right⟩
      · rfl
      · rfl

omit [One T] [Add T] [Sub T] [Mul T] [Scalar T R] in
/-- Nothing is left of a right-hand side that has been cleared but its length. -/
lemma clear_eq {right right' : Array T} (size : right'.size = right.size) :
    (right'.map fun _ => (0 : T)) = right.map fun _ => 0 := by
  rw [Array.map_const', Array.map_const', size]

omit [One T] in
lemma meets_freeze {offDiagonal : BlockMatrix T} (valid : offDiagonal.Valid) (start : ℕ)
    (received : Array T) {right : Array T} (size : x.size = right.size) :
    (freeze offDiagonal start received x).Meets Error.NotInFlight (·.size = right.size)
      (fun _ => True) right := by
  refine Update.Meets.bind
    (DistributedMatrix.meets_onTail (meets_mult valid (fun _ _ => nofun) fun _ => nofun))
    fun _ t _ ht => ?_
  refine ⟨?_, trivial⟩
  change (Array.zipWith (fun r xv => xv - r) t x).size = right.size
  rw [Array.size_zipWith, ht, size, Nat.min_self]

lemma meets_sweep (sound : (s.get p.diagonal).Sound) (right y : Array T) :
    Meets Error.NotInFlight (fun _ => True) ((p.sweep s right).on y).1 := by
  unfold sweep
  split
  · exact (meets_applySsor sound (fun _ _ => nofun) (fun _ => nofun) (fun _ => nofun)
      fun _ _ => nofun).2
  · exact (meets_applySor sound (fun _ _ => nofun) (fun _ => nofun) (fun _ => nofun)
      fun _ _ => nofun).2

lemma meets_relaxed (sound : ∀ h, (s.get h).Sound) (hx : x.size = p.right.size)
    (y received : Array T) :
    Meets Error.NotInFlight (fun _ => True) (p.relaxed s x y received).1 := by
  have size : x.size = (p.right.map fun _ => (0 : T)).size := hx.trans Array.size_map.symm
  obtain ⟨-, meets⟩ := meets_freeze (sound p.offDiagonal).valid p.interfaceStart received size
  unfold relaxed
  rcases frozen : (freeze (s.get p.offDiagonal) p.interfaceStart received x).on
    (p.right.map fun _ => 0) with ⟨e | ⟨⟩, right⟩
  · rwa [frozen] at meets
  · exact meets_sweep (sound p.diagonal) right y

/-- An application answers what any twin would. -/
theorem forgets_apply (sound : ∀ h, (s.get h).Sound) (counted : Counted b 0 blocks)
    (x : Array T) :
    Forgets (p.Twin b blocks)
      (apply s x : Collective T R (PointRelaxation T R × Array T) Unit) := by
  intro y
  cases factored : p.factored with
  | false =>
    refine .of_refused (e := .notFactored .pointRelaxation) (fun _ => nofun) ?_
    rintro _ ⟨halo, right, rfl, -, -⟩
    rw [apply, Collective.on_bind, Collective.on_get, Program.done_bind]
    simp only [factored]
    rfl
  | true =>
    by_cases lengths : x.size = p.right.size ∧ y.size = p.right.size
    · obtain ⟨hx, hy⟩ := lengths
      cases zero : p.flags.contains .zeroGuess with
      | true =>
        refine ⟨_, ((p.sweep s x).on (y.map fun _ => 0)).2,
          meets_sweep (sound p.diagonal) x (y.map fun _ => 0), ?_⟩
        rintro _ ⟨halo, right, rfl, single, size⟩
        exact ⟨_, apply_on_of_zeroGuess (p := { p with halo, right }) factored (hx.trans size.symm)
          (hy.trans size.symm) zero, halo, right, rfl, single, size⟩
      | false =>
        refine .of_isExchange y 0 counted (p.relaxed s x y) (meets_relaxed sound hx y) ?_
        rintro _ ⟨halo, right, rfl, single, size⟩
        have hx' := hx.trans size.symm
        refine ⟨halo, _, _, single,
          apply_on (p := { p with halo, right }) factored hx' (hy.trans size.symm) zero,
          fun _ _ => rfl, fun h single' => ⟨fun e => ⟨_, rfl, h, right, rfl, single', size⟩, ?_⟩⟩
        have cleared : x.size = (right.map fun _ => (0 : T)).size := hx'.trans Array.size_map.symm
        obtain ⟨kept, -⟩ :=
          meets_freeze (sound p.offDiagonal).valid p.interfaceStart h.received cleared
        refine ⟨_, ?_, h, _, rfl, single', (kept.trans Array.size_map).trans size⟩
        simp only [afterFinish, relaxed, clear_eq size]
        rfl
    · refine .of_refused (e := .dimensionMismatch p.right.size
        (if x.size = p.right.size then y.size else x.size)) (fun _ => nofun) ?_
      rintro _ ⟨halo, right, rfl, -, size⟩
      rw [← size] at lengths ⊢
      exact apply_on_of_size_ne (p := { p with halo, right }) factored lengths

end Apply

section Uses

variable [Zero T] [One T] [Add T] [Sub T] [Neg T] [Mul T] [Div T] [BEq T]
variable [Zero R] [One R] [Neg R] [Mul R] [LT R] [DecidableLT R] [LE R] [DecidableLE R] [BEq R]
variable [Magnitude R] [Scalar T R]

omit [Add T] [Neg T] in
/-- A factorization changes the cache of the diagonal piece and the flag. -/
lemma factor_on {result : Except Error Unit} {s' : Store T}
    (run : (Store.onMatrix p.diagonal (BlockMatrix.factorDiagonal (R := R))).on s = (result, s')) :
    (factor : Update (Store T × PointRelaxation T R) Unit).on (s, p) =
      (result, s', { p with factored := result.isOk }) := by
  rw [factor, Update.on_bind_of_ok (Update.on_modify _ _), Update.on_bind_of_ok (Update.on_get _),
    Update.on_bind, Update.on_onFst, run]
  cases result with
  | error e => rfl
  | ok _ => rfl

/-- What is done with a relaxation: it is applied, factored, or set up differently. -/
inductive Use (T R : Type) where
  | apply (x y : Array T)
  | factor
  | set (omega : R) (iterations : ℕ) (flags : RelaxFlags)

/-- A use of the relaxation. -/
def use (s : Store T) (p : PointRelaxation T R) :
    Use T R → Program T R (Reply T × Store T × PointRelaxation T R)
  | .apply x y => replyOf s p (PointRelaxation.apply s x) y
  | .factor =>
    let (result, s, p) := PointRelaxation.factor.on (s, p)
    .done (⟨result, #[]⟩, s, p)
  | .set omega iterations flags => .done (⟨.ok (), #[]⟩, s, { p with omega, iterations, flags })

lemma lasting_use (counted : Counted b 0 blocks) : Lasting s₀ (p.Kin b blocks) use := by
  intro s q u later kin
  cases u with
  | apply x y =>
    obtain ⟨reply, q', run, meets, twin⟩ :=
      (forgets_apply later.sound counted x).replyOf_eq s kin.twin_self y
    exact ⟨reply, s, q', run, meets, later, kin.of_twin twin⟩
  | set omega iterations flags =>
    exact ⟨⟨.ok (), #[]⟩, s, { q with omega, iterations, flags }, rfl, trivial, later, { kin with }⟩
  | factor =>
    have later' := later.perform (.change q.diagonal .factorDiagonal : BlockMatrix.Call T R)
    have meets : Meets Error.NotInFlight (fun _ => True)
        ((BlockMatrix.factorDiagonal (R := R)).on (s.get q.diagonal)).1 :=
      (meets_factorDiagonal (later.sound q.diagonal).valid (fun _ _ => nofun) fun _ _ => nofun).2
    have run := factor_on (R := R) (p := q) (s := s) (Prod.eta _).symm
    refine ⟨⟨_, #[]⟩, _, { q with factored := ((Store.onMatrix q.diagonal
      (BlockMatrix.factorDiagonal (R := R))).on s).1.isOk }, ?_, meets, later', { kin with }⟩
    simp only [use, run]
    rfl

end Uses

end PointRelaxation

/-! ## Every history -/

section Histories

variable [Zero T] [One T] [Add T] [Sub T] [Neg T] [Mul T] [Div T] [BEq T]
variable [Zero R] [One R] [Neg R] [Mul R] [LT R] [DecidableLT R] [LE R] [DecidableLE R] [BEq R]
variable [Magnitude R] [Scalar T R]

/-- A matrix of a single process is composed, an interface operator and a relaxation may be made for
it, and then one of the three is used any number of times, with vectors of any lengths, while the
matrices of the store change. Whatever became of these uses, none was refused because an exchange
was still in flight. Nor is the next one, and it has the same result and leaves the same vector as
with an operator that is made anew of the present pieces, with the same settings and marked as
factored or not. The listed blocks must end at places that are machine words. -/
theorem operators_forget {partition : RowPartition} {diagonal offDiagonal : Handle}
    {blocks : List ℕ} {constraints : Option (Constraints T)} {a : DistributedMatrix T}
    (sound : ∀ h, (s₀.get h).Sound) (held : s₀.Holds diagonal) (held' : s₀.Holds offDiagonal)
    (built : DistributedMatrix.ofParts s₀ partition diagonal offDiagonal (.single blocks)
      constraints = .ok a) (counted : Counted a.layout.blockSize 0 blocks) :
    (∀ events : List (Event T R (Array T × Array T)), ∃ replies s a',
      runEvents DistributedMatrix.use s₀ a events = .done (replies, s, a') ∧ Unhindered replies ∧
      ∃ new, DistributedMatrix.ofParts s partition diagonal offDiagonal (.single blocks)
          constraints = .ok new ∧
        ∀ x, SameAnswers (R := R) (DistributedMatrix.mult s x) a' new) ∧
    (∀ (factors : Handle) (op : InterfaceOperator T), s₀.Holds factors →
      InterfaceOperator.ofMatrix (R := R) s₀ a factors = .done (.ok op) →
      ∀ events : List (Event T R (InterfaceOperator.Use T)), ∃ replies s op',
        runEvents InterfaceOperator.use s₀ op events = .done (replies, s, op') ∧
        Unhindered replies ∧
        ∃ matrix new, DistributedMatrix.ofParts s partition diagonal offDiagonal (.single blocks)
            constraints = .ok matrix ∧
          InterfaceOperator.ofMatrix (R := R) s matrix factors = .done (.ok new) ∧
          ∀ w, SameAnswers (R := R) (InterfaceOperator.multRemote s w) op' new ∧
            SameAnswers (R := R) (InterfaceOperator.mult s w) op' new) ∧
    ∀ (omega : R) (iterations : ℕ) (flags : RelaxFlags) (p : PointRelaxation T R),
      PointRelaxation.ofMatrix a omega iterations flags = .ok p →
      ∀ events : List (Event T R (PointRelaxation.Use T R)), ∃ replies s p',
        runEvents PointRelaxation.use s₀ p events = .done (replies, s, p') ∧
        Unhindered replies ∧
        ∃ matrix new, DistributedMatrix.ofParts s partition diagonal offDiagonal (.single blocks)
            constraints = .ok matrix ∧
          PointRelaxation.ofMatrix matrix p'.omega p'.iterations p'.flags = .ok new ∧
          ∀ x, SameAnswers (PointRelaxation.apply s x) p'
            { new with factored := p'.factored } := by
  have start : Later s₀ s₀ := ⟨sound, .refl s₀⟩
  obtain ⟨table, -⟩ := DistributedMatrix.ofTable_of_ofParts built
  have listed : Counted a.layout.blockSize 0 a.table.blocks := by rwa [table]
  obtain ⟨fits, -⟩ := DistributedMatrix.Fits.of_ofParts held held' (sound _).valid (sound _).valid
    built
  have again : ∀ s, Later s₀ s → DistributedMatrix.ofParts s partition diagonal offDiagonal
      (.single blocks) constraints = .ok a :=
    fun s later => (DistributedMatrix.ofParts_later held held' later ..).trans built
  refine ⟨fun events => ?_, fun factors op held made events => ?_,
    fun omega iterations flags p made events => ?_⟩
  · have own := DistributedMatrix.Twin.of_ofParts built
    obtain ⟨replies, s, a', run, unhindered, later, twin⟩ :=
      runEvents_spec (DistributedMatrix.lasting_use fits listed) events start own
    exact ⟨replies, s, a', run, unhindered, a, again s later, fun x =>
      (DistributedMatrix.forgets_mult (fits.later later) listed x).sameAnswers twin own⟩
  · have own := InterfaceOperator.Twin.of_ofMatrix table made
    obtain ⟨replies, s, op', run, unhindered, later, twin⟩ :=
      runEvents_spec (InterfaceOperator.lasting_use counted) events start own
    refine ⟨replies, s, op', run, unhindered, a, op, again s later,
      (InterfaceOperator.ofMatrix_later held later).trans made, fun w => ⟨?_, ?_⟩⟩
    · exact (InterfaceOperator.forgets_multRemote (later.sound _).valid counted w).sameAnswers twin own
    · exact (InterfaceOperator.forgets_mult later.sound counted w).sameAnswers twin own
  · obtain ⟨replies, s, p', run, unhindered, later, kin⟩ :=
      runEvents_spec (PointRelaxation.lasting_use counted) events start
        (PointRelaxation.Kin.of_ofMatrix table made)
    obtain ⟨new, made', twin⟩ := kin.exists_ofMatrix table made
    exact ⟨replies, s, p', run, unhindered, a, new, again s later, made', fun x =>
      (PointRelaxation.forgets_apply later.sound counted x).sameAnswers kin.twin_self twin⟩

end Histories

/-! ### The rod again -/

open DistributedMatrix

lemma rodStore_sound (h : Handle) : (rodStore.get h).Sound := by
  obtain ⟨i⟩ := h
  match i with
  | 0 => exact ⟨by decide +kernel, .inl rfl⟩
  | 1 => exact ⟨by decide +kernel, .inl rfl⟩
  | n + 2 => exact sound_empty

/-- Uses of the rod that fail leave nothing behind: a product with a vector that is too short, a
product of the interface operator, which finds no block 0 in interface vectors, and a relaxation
that has not been factored. -/
theorem rod_operators_forget : ∃ (op : InterfaceOperator ℚ) (p : PointRelaxation ℚ ℚ),
    InterfaceOperator.ofMatrix (R := ℚ) rodStore rodMatrix ⟨0⟩ = .done (.ok op) ∧
    PointRelaxation.ofMatrix rodMatrix 1 2 .symmetric = .ok p ∧
    (∃ replies s a', runEvents (R := ℚ) DistributedMatrix.use rodStore rodMatrix
        [.use (#[1], #[0, 0]), .call (.change ⟨0⟩ (.scale 2))] = .done (replies, s, a') ∧
      Unhindered replies ∧ ∃ new, ofParts s rodMatrix.partition ⟨0⟩ ⟨1⟩ (.single [0])
          (some rodConstraints) = .ok new ∧
        ∀ x, SameAnswers (R := ℚ) (DistributedMatrix.mult s x) a' new) ∧
    (∃ replies s op', runEvents (R := ℚ) InterfaceOperator.use rodStore op
        [.use (.mult #[1] #[0])] = .done (replies, s, op') ∧
      Unhindered replies ∧ ∃ matrix new, ofParts s rodMatrix.partition ⟨0⟩ ⟨1⟩ (.single [0])
          (some rodConstraints) = .ok matrix ∧
        InterfaceOperator.ofMatrix (R := ℚ) s matrix ⟨0⟩ = .done (.ok new) ∧
        ∀ w, SameAnswers (R := ℚ) (InterfaceOperator.multRemote s w) op' new ∧
          SameAnswers (R := ℚ) (InterfaceOperator.mult s w) op' new) ∧
    ∃ replies s p', runEvents (R := ℚ) PointRelaxation.use rodStore p
        [.use (.apply #[1, 1] #[0, 0]), .use .factor, .use (.apply #[1] #[0, 0])] =
          .done (replies, s, p') ∧
      Unhindered replies ∧ ∃ matrix new, ofParts s rodMatrix.partition ⟨0⟩ ⟨1⟩ (.single [0])
          (some rodConstraints) = .ok matrix ∧
        PointRelaxation.ofMatrix matrix p'.omega p'.iterations p'.flags = .ok new ∧
        ∀ x, SameAnswers (PointRelaxation.apply s x) p' { new with factored := p'.factored } := by
  have made : ofParts rodStore rodMatrix.partition ⟨0⟩ ⟨1⟩ (.single [0]) (some rodConstraints) =
      .ok rodMatrix := rfl
  have counted : Counted rodMatrix.layout.blockSize 0 [0] := fun g member _ => by
    have small : ∀ g ∈ [0], (g - 0 + 1) * rodMatrix.layout.blockSize < Capacity.words := by decide
    exact small g member
  obtain ⟨matrix, interface, relaxation⟩ := operators_forget (R := ℚ) rodStore_sound
    Nat.zero_lt_two Nat.one_lt_two made counted
  exact ⟨_, _, rfl, rfl, matrix _, interface ⟨0⟩ _ Nat.zero_lt_two rfl _,
    relaxation 1 2 .symmetric _ rfl _⟩

/-- A block that is coupled to what a table lists. -/
def tipStore : Store ℚ :=
  ⟨#[rodPiece 1 1 #[0, 1] #[0] #[0] #[1], rodPiece 1 1 #[0, 1] #[0] #[0] #[1]]⟩

/-- When the table lists the last machine word, the first product stops where the end of that block
is computed, and the second one finds the exchange in flight. -/
theorem tip_products_hindered : ∃ a replies s a',
    ofParts tipStore ⟨.single, #[0, 1]⟩ ⟨0⟩ ⟨1⟩ (.single [Capacity.words - 1]) none = .ok a ∧
    (∀ h, (tipStore.get h).Sound) ∧ tipStore.Holds ⟨0⟩ ∧ tipStore.Holds ⟨1⟩ ∧
    runEvents (R := ℚ) DistributedMatrix.use tipStore a [.use (#[1], #[0]), .use (#[1], #[0])] =
      .done (replies, s, a') ∧ ¬ Unhindered replies := by
  refine ⟨_, _, _, _, rfl, ?_, Nat.zero_lt_two, Nat.one_lt_two, rfl, fun unhindered => ?_⟩
  · rintro ⟨_ | _ | i⟩
    · exact ⟨by decide +kernel, .inl rfl⟩
    · exact ⟨by decide +kernel, .inl rfl⟩
    · exact sound_empty
  · exact unhindered _ (List.mem_cons_of_mem _ List.mem_cons_self) 0 rfl

end DomainDecomposition
