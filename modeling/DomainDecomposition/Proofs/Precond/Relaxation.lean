import DomainDecomposition.Proofs.BlockMatrix.Relaxation
import DomainDecomposition.Proofs.Distributed.Global
import DomainDecomposition.Proofs.Distributed.Worlds
import DomainDecomposition.Proofs.Precond.Reuse

/-!
# Relaxation of all ranks together

An application of a relaxation takes what the remote blocks of `y` contribute off the right-hand
side, and then sweeps over the own rows. Where `y` is zero, nothing is taken off, so the application
does what one does that starts at zero and exchanges nothing. Where `y` solves the global system,
what remains of the right-hand side balances the own rows, and sweeps leave a balanced vector as it
is.

* `Prepared`: a relaxation that has been factored, between two applications,
* `freeze_spec`: what is taken off the right-hand side,
* `Prepared.relaxed_of_zero`, `Prepared.relaxed_of_product`: one rank, once it has received its
  blocks,
* `settles_apply`: the applications of all ranks, from what each of them does with what it receives,
* `apply_from_zero_and_solution`: both cases, for every world.
-/

namespace DomainDecomposition.PointRelaxation

open BlockMatrix DistributedMatrix Outcome World

variable {T R : Type} {b : ℕ} {s s₀ : Store T} {a : DistributedMatrix T}
variable {p p₀ q : PointRelaxation T R}

/-! ## Relaxations that have been factored -/

/-- The relaxation once more. It may have been applied and set up differently meanwhile. -/
structure Resumed (a : DistributedMatrix T) (p q : PointRelaxation T R) : Prop where
  diagonal : q.diagonal = p.diagonal
  offDiagonal : q.offDiagonal = p.offDiagonal
  interfaceStart : q.interfaceStart = p.interfaceStart
  factored : q.factored = p.factored
  halo : a.Rested q.halo
  right : q.right.size = p.right.size

/-- The constructor takes over the pieces of a matrix. -/
lemma ofMatrix_eq_ok [Zero T] {omega : R} {iterations : ℕ} {flags : RelaxFlags}
    (built : ofMatrix a omega iterations flags = .ok p) :
    p.diagonal = a.diagonal ∧ p.offDiagonal = a.offDiagonal ∧
      p.interfaceStart = a.layout.interfaceStart ∧ p.right.size = a.vectorLength := by
  unfold ofMatrix Block.allocate at built
  simp only [pure_eq, bind_eq_ok] at built
  obtain ⟨halo, -, right, ⟨-, -, zeros⟩, hp⟩ := built
  obtain rfl := Except.ok.inj zeros
  rw [← Except.ok.inj hp]
  exact ⟨rfl, rfl, rfl, Array.size_replicate⟩

section Prepare

variable [Field T]

/-- A relaxation of a matrix whose diagonal blocks have been inverted. -/
structure Prepared (s : Store T) (a : DistributedMatrix T) (p : PointRelaxation T R) : Prop where
  made : a.Made s
  has : (s.get a.diagonal).HasDiagonal
  inverted : (s.get a.diagonal).Inverted
  diagonal : p.diagonal = a.diagonal
  offDiagonal : p.offDiagonal = a.offDiagonal
  interfaceStart : p.interfaceStart = a.layout.interfaceStart
  right : p.right.size = a.vectorLength
  factored : p.factored = true

lemma Prepared.resumed (prepared : p.Prepared s a) (resumed : p.Resumed a q) : q.Prepared s a where
  made := prepared.made
  has := prepared.has
  inverted := prepared.inverted
  diagonal := resumed.diagonal.trans prepared.diagonal
  offDiagonal := resumed.offDiagonal.trans prepared.offDiagonal
  interfaceStart := resumed.interfaceStart.trans prepared.interfaceStart
  right := resumed.right.trans prepared.right
  factored := resumed.factored.trans prepared.factored

variable [DecidableEq T] [Field R] [LinearOrder R] [IsStrictOrderedRing R] [Scalar T R]
variable [Magnitude R] [ExactScalar T R]

/-- Factoring prepares a relaxation. -/
lemma Prepared.of_factor (made : a.Made s₀) {omega : R} {iterations : ℕ} {flags : RelaxFlags}
    (built : ofMatrix a omega iterations flags = .ok p₀)
    (run : factor.on (s₀, p₀) = (.ok (), s, p)) : p.Prepared s a := by
  obtain ⟨diagonal, offDiagonal, interfaceStart, right⟩ := ofMatrix_eq_ok built
  rcases inverted : (factorDiagonal (R := R)).on (s₀.get a.diagonal) with ⟨result, d⟩
  have changed : (Store.onMatrix p₀.diagonal (factorDiagonal (R := R))).on s₀ =
      (result, s₀.set a.diagonal d) := by
    rw [diagonal, Store.onMatrix, Update.on_focus, inverted]
  rw [factor_on changed] at run
  obtain ⟨success, hs, hp⟩ : result = .ok () ∧ s₀.set a.diagonal d = s ∧
      { p₀ with factored := result.isOk } = p := by
    simpa only [Prod.mk.injEq] using run
  subst success hs hp
  obtain ⟨same, valid, has, inverse⟩ := factorDiagonal_spec made.diagonal inverted
  have own := Store.get_set_self s₀ a.diagonal d made.held_diagonal
  have revalued : Revalued (s₀.get a.diagonal) d := ⟨_, _, same⟩
  -- the other piece may be the same matrix
  have other : ((s₀.set a.diagonal d).get a.offDiagonal).Valid ∧
      Revalued (s₀.get a.offDiagonal) ((s₀.set a.diagonal d).get a.offDiagonal) := by
    rcases Store.get_set s₀ a.diagonal d a.offDiagonal with unchanged | ⟨shared, changed⟩
    · rw [unchanged]
      exact ⟨made.offDiagonal, .refl _⟩
    · rw [changed, shared]
      exact ⟨valid, revalued⟩
  have made' : a.Made (s₀.set a.diagonal d) :=
    made.revalued (fun _ held => Store.holds_set held d) (by rwa [own]) other.1 (by rwa [own])
      other.2
  exact ⟨made', by rwa [own], by rwa [own], diagonal, offDiagonal, interfaceStart, right, rfl⟩

end Prepare

/-! ## One rank -/

section Rank

variable [Field T]

/-- Zero where the receive buffer holds zeros. -/
lemma coupling_eq_zero (s : Store T) (a : DistributedMatrix T) {received : Array T}
    (zero : ∀ c < a.layout.remote, Block.part b received c = 0) (i : ℕ) :
    coupling b s a received i = 0 := by
  unfold coupling
  split
  · refine Finset.sum_eq_zero fun c hc => ?_
    rw [zero c (Finset.mem_range.mp hc), Matrix.mulVec_zero]
  · rfl

/-- The right-hand side without what the received blocks contribute. -/
lemma freeze_spec (fits : a.Fits s) (blockSize : a.layout.blockSize = b) {received x : Array T}
    (hreceived : received.size = a.layout.remote * b) (hx : x.size = a.layout.owned * b) :
    ∃ right, (freeze (s.get a.offDiagonal) a.layout.interfaceStart received x).on
        (Block.zeros (a.layout.owned * b)) = (.ok (), right) ∧ right.size = a.layout.owned * b ∧
      ∀ i < a.layout.owned,
        Block.part b right i = Block.part b x i - coupling b s a received i := by
  have hb := fits.blockSize_offDiagonal.trans blockSize
  have hzeros : (Block.zeros (a.layout.owned * b) : Array T).size = a.layout.owned * b :=
    Block.size_zeros _
  obtain ⟨t, product, ht, parts⟩ := mult_spec fits.offDiagonal (x := received)
    (y := (Block.zeros (a.layout.owned * b) : Array T).extract (a.layout.interior * b)
      (a.layout.owned * b))
    (by rw [hreceived, fits.columns_offDiagonal, hb])
    (by rw [Array.size_extract, hzeros, Nat.min_self, fits.rows_offDiagonal, hb, Nat.sub_mul])
  rw [fits.rows_offDiagonal, hb] at ht
  rw [fits.rows_offDiagonal, fits.columns_offDiagonal, hb] at parts
  have hstart : a.layout.interfaceStart = a.layout.interior * b := by
    rw [Layout.interfaceStart, blockSize, Nat.mul_comm]
  obtain ⟨z, run, hz, zparts⟩ := onTail_on hstart fits.interior_le hzeros product ht
  have taken : ∀ i < a.layout.owned, Block.part b z i = coupling b s a received i := by
    intro i hi
    rw [zparts, coupling]
    by_cases interior : i < a.layout.interior
    · rw [if_pos interior, if_neg (by omega), Block.part_zeros]
    · rw [if_neg interior, if_pos (by omega), parts _ (by omega)]
  refine ⟨Array.zipWith (fun r xv => xv - r) z x, ?_, ?_, fun i hi => ?_⟩
  · rw [freeze, Update.on_bind_of_ok run]
    rfl
  · rw [Array.size_zipWith, hz, hx, Nat.min_self]
  · have inside := Span.succ_mul_le b hi
    funext l
    rw [Block.part_zipWith _ (hz ▸ inside) (hx ▸ inside), taken i hi]
    rfl

variable [Scalar T R]

/-- The order in which the flags ask for the rows. -/
def order (p : PointRelaxation T R) (rows : ℕ) : List ℕ :=
  if p.flags.contains .symmetric then List.range rows ++ (List.range rows).reverse
  else List.range rows

omit [Field T] [Scalar T R] in
lemma lt_of_mem_order {p : PointRelaxation T R} {rows i : ℕ} (member : i ∈ p.order rows) :
    i < rows := by
  unfold order at member
  split at member
  · rw [List.mem_append, List.mem_reverse, or_self] at member
    exact List.mem_range.mp member
  · exact List.mem_range.mp member

section Sweep

variable (prepared : p.Prepared s a) (blockSize : a.layout.blockSize = b) (room : b < Capacity.limit)
variable {right x y received : Array T}

include prepared blockSize room

/-- The sweeps pass their checks on vectors that fit. -/
lemma Prepared.sweep_on (hright : right.size = a.layout.owned * b)
    (hy : y.size = a.layout.owned * b) :
    (p.sweep s right).on y = (Update.replace ((s.get a.diagonal).sweeps (Scalar.ofReal p.omega)
      (p.order a.layout.owned) right p.iterations)).on y := by
  have hb := prepared.made.fits.blockSize_diagonal.trans blockSize
  have rows := prepared.made.fits.rows_diagonal
  have room : (s.get a.diagonal).blockSize < Capacity.limit := hb ▸ room
  rw [← rows, ← hb] at hright hy
  rw [sweep, prepared.diagonal, order, ← rows]
  split
  · exact prepared.inverted.applySsor_on room hright hy p.omega p.iterations
  · exact prepared.inverted.applySor_on room hright hy p.omega p.iterations

/-- Sweeps go through. -/
lemma Prepared.exists_sweep (hright : right.size = a.layout.owned * b)
    (hy : y.size = a.layout.owned * b) : ∃ z, (p.sweep s right).on y = (.ok (), z) := by
  rw [prepared.sweep_on blockSize room hright hy]
  have hb := prepared.made.fits.blockSize_diagonal.trans blockSize
  have rows := prepared.made.fits.rows_diagonal
  rw [← rows, ← hb] at hright hy
  have swept : Gives _ ((s.get a.diagonal).sweeps (Scalar.ofReal p.omega) (p.order a.layout.owned)
      right p.iterations y) :=
    gives_sweeps prepared.made.diagonal prepared.has.square prepared.inverted.size hright
      (fun i member => rows ▸ lt_of_mem_order member) p.iterations hy
  obtain ⟨z, run, -⟩ := swept.exists_eq_ok
  exact ⟨z, by rw [Update.on_replace, run]⟩

/-- A vector that balances the own rows stays as it is. -/
lemma Prepared.sweep_of_balanced (hright : right.size = a.layout.owned * b)
    (hy : y.size = a.layout.owned * b)
    (balanced : ∀ i < a.layout.owned, ∑ j ∈ Finset.range a.layout.owned,
      ((s.get a.diagonal).coeff b i j).mulVec (Block.part b y j) = Block.part b right i) :
    (p.sweep s right).on y = (.ok (), y) := by
  rw [prepared.sweep_on blockSize room hright hy]
  have rows := prepared.made.fits.rows_diagonal
  obtain rfl : (s.get a.diagonal).blockSize = b :=
    prepared.made.fits.blockSize_diagonal.trans blockSize
  rw [← rows] at hright hy balanced ⊢
  rw [Update.on_replace, sweeps_of_balanced prepared.made.diagonal prepared.has prepared.inverted _
    hright hy balanced fun _ => lt_of_mem_order]

omit room in
/-- Without room for one block of a vector, sweeps stop. -/
lemma Prepared.sweep_crowded (crowded : Capacity.limit ≤ b)
    (hright : right.size = a.layout.owned * b) (hy : y.size = a.layout.owned * b) :
    (p.sweep s right).on y = (.error .tooLarge, y) := by
  have hb := prepared.made.fits.blockSize_diagonal.trans blockSize
  rw [← prepared.made.fits.rows_diagonal, ← hb] at hright hy
  obtain ⟨forward, symmetric⟩ := prepared.inverted.sweeps_crowded (hb ▸ crowded) hright hy p.omega
    p.iterations
  rw [sweep, prepared.diagonal]
  split
  · exact symmetric
  · exact forward

omit room in
/-- With what has been received, a relaxation sweeps towards the rest of its right-hand side. -/
lemma Prepared.relaxed_eq (hx : x.size = a.layout.owned * b) (y : Array T)
    (hreceived : received.size = a.layout.remote * b) :
    ∃ right, right.size = a.layout.owned * b ∧
      (∀ i < a.layout.owned,
        Block.part b right i = Block.part b x i - coupling b s a received i) ∧
      p.relaxed s x y received = (p.sweep s right).on y := by
  obtain ⟨right, run, size, parts⟩ := freeze_spec prepared.made.fits blockSize hreceived hx
  refine ⟨right, size, parts, ?_⟩
  have length : p.right.size = a.layout.owned * b := by
    rw [prepared.right, vectorLength, blockSize, Nat.mul_comm]
  -- what an earlier application has left in the scratch vector is cleared first
  have cleared : (p.right.map fun _ => (0 : T)) = Block.zeros (a.layout.owned * b) := by
    rw [Array.map_const', length]
    rfl
  rw [relaxed, prepared.offDiagonal, prepared.interfaceStart, cleared]
  simp only [run]

omit room in
/-- Where zeros have been received, a relaxation sweeps towards the right-hand side itself. -/
lemma Prepared.relaxed_of_zero (hx : x.size = a.layout.owned * b) (y : Array T)
    (hreceived : received.size = a.layout.remote * b)
    (zero : ∀ c < a.layout.remote, Block.part b received c = 0) :
    p.relaxed s x y received = (p.sweep s x).on y := by
  obtain ⟨right, size, parts, relaxed⟩ := prepared.relaxed_eq blockSize hx y hreceived
  have same : right = x := by
    refine Block.eq_of_part_eq size hx fun i hi => ?_
    rw [parts i hi, coupling_eq_zero s a zero, sub_zero]
  rw [relaxed, same]

/-- A relaxation leaves a vector as it is that has been multiplied to the right-hand side with what
has been received. -/
lemma Prepared.relaxed_of_product (hx : x.size = a.layout.owned * b)
    (hy : y.size = a.layout.owned * b) (hreceived : received.size = a.layout.remote * b)
    (product : ∀ i < a.layout.owned, Block.part b x i = ∑ j ∈ Finset.range a.layout.owned,
      ((s.get a.diagonal).coeff b i j).mulVec (Block.part b y j) + coupling b s a received i) :
    p.relaxed s x y received = (.ok (), y) := by
  obtain ⟨right, size, parts, relaxed⟩ := prepared.relaxed_eq blockSize hx y hreceived
  rw [relaxed]
  refine prepared.sweep_of_balanced blockSize room size hy fun i hi => ?_
  rw [parts i hi, product i hi, add_sub_cancel_right]

omit room blockSize in
/-- An application from zero is the same for all relaxations that sweep alike. -/
lemma Prepared.apply_of_zeroGuess (again : q.Prepared s a) (omega : q.omega = p.omega)
    (iterations : q.iterations = p.iterations)
    (symmetric : q.flags.contains .symmetric = p.flags.contains .symmetric)
    (zero : q.flags.contains .zeroGuess = true) (hx : x.size = a.vectorLength)
    (hy : y.size = a.vectorLength) {z : Array T}
    (swept : (p.sweep s x).on (Block.zeros a.vectorLength) = (.ok (), z)) :
    (apply s x : Collective T R _ _).on (q, y) = .done (.ok (), q, z) := by
  have cleared : (y.map fun _ => (0 : T)) = Block.zeros a.vectorLength := by
    rw [Array.map_const', hy]
    rfl
  have alike : q.sweep s x = p.sweep s x := by
    rw [sweep, sweep, again.diagonal, prepared.diagonal, omega, iterations, symmetric]
  rw [apply_on_of_zeroGuess again.factored (hx.trans again.right.symm) (hy.trans again.right.symm)
    zero, cleared, alike, swept]

end Sweep

end Rank

/-! ## All ranks -/

section Family

variable [Field T] [Scalar T R] {n : ℕ} {store : ℕ → Store T} {matrix : ℕ → DistributedMatrix T}
variable {source : ℕ → ℕ → ℕ × ℕ} {relaxation : ℕ → PointRelaxation T R}

/-- When all ranks apply their relaxations, each of them receives the blocks of its table, and ends
as it would with these blocks. -/
lemma settles_apply (connected : Connected n matrix source)
    (prepared : ∀ r < n, (relaxation r).Prepared (store r) (matrix r))
    (rested : ∀ r < n, (matrix r).Rested (relaxation r).halo)
    (blockSize : ∀ r < n, (matrix r).layout.blockSize = b)
    (exchanging : ∀ r < n, (relaxation r).flags.contains .zeroGuess = false) {x y z : ℕ → Array T}
    (hx : ∀ r < n, (x r).size = (matrix r).layout.owned * b)
    (hy : ∀ r < n, (y r).size = (matrix r).layout.owned * b) {result : ℕ → Except Error Unit}
    (relaxes : ∀ r < n, ∀ received, Filled b (matrix r) (source r) y received →
      (relaxation r).relaxed (store r) (x r) (y r) received = (result r, z r))
    {world : World T R} (sized : world.Sized n) :
    ∃ relaxation' : ℕ → PointRelaxation T R,
      Settles n (fun r => (result r, relaxation' r, z r))
        ⟨world, fun r => (apply (store r) (x r)).on (relaxation r, y r)⟩ := by
  have length : ∀ r < n, (relaxation r).right.size = (matrix r).layout.owned * b := by
    intro r hr
    rw [(prepared r hr).right, vectorLength, blockSize r hr, Nat.mul_comm]
  obtain ⟨halo', target, filled, leads⟩ := connected.leads_exchange
    (fun r hr => (prepared r hr).made) blockSize rested sized hy
    (fun r hr => apply_on (s := store r) (prepared r hr).factored
      ((hx r hr).trans (length r hr).symm) ((hy r hr).trans (length r hr).symm) (exchanging r hr))
    fun _ _ _ _ => rfl
  refine ⟨fun r => { relaxation r with
      halo := halo' r
      right := ((freeze ((store r).get (relaxation r).offDiagonal) (relaxation r).interfaceStart
        (halo' r).received (x r)).on ((relaxation r).right.map fun _ => 0)).2 },
    (leads.orderly ((orderly_done n _ target).congr fun r hr => ?_)).settles⟩
  simp only [afterFinish, relaxes r hr _ (filled r hr)]

/-- Without room for one block of a vector, all applications with an exchange stop. -/
lemma settles_apply_crowded (connected : Connected n matrix source)
    (prepared : ∀ r < n, (relaxation r).Prepared (store r) (matrix r))
    (rested : ∀ r < n, (matrix r).Rested (relaxation r).halo)
    (blockSize : ∀ r < n, (matrix r).layout.blockSize = b) (crowded : Capacity.limit ≤ b)
    (exchanging : ∀ r < n, (relaxation r).flags.contains .zeroGuess = false) {x y : ℕ → Array T}
    (hx : ∀ r < n, (x r).size = (matrix r).vectorLength)
    (hy : ∀ r < n, (y r).size = (matrix r).vectorLength) {world : World T R}
    (sized : world.Sized n) :
    ∃ relaxation' : ℕ → PointRelaxation T R,
      Settles n (fun r => (.error .tooLarge, relaxation' r, y r))
        ⟨world, fun r => (apply (store r) (x r)).on (relaxation r, y r)⟩ := by
  have length : ∀ r < n, (matrix r).vectorLength = (matrix r).layout.owned * b := by
    intro r hr
    rw [vectorLength, blockSize r hr, Nat.mul_comm]
  refine settles_apply connected prepared rested blockSize exchanging
    (fun r hr => (hx r hr).trans (length r hr)) (fun r hr => (hy r hr).trans (length r hr))
    (fun r hr received filled => ?_) sized
  obtain ⟨right, size, -, relaxed⟩ := (prepared r hr).relaxed_eq (blockSize r hr)
    ((hx r hr).trans (length r hr)) (y r) filled.size
  rw [relaxed]
  exact (prepared r hr).sweep_crowded (blockSize r hr) crowded size ((hy r hr).trans (length r hr))

variable [DecidableEq T] [Field R] [LinearOrder R] [IsStrictOrderedRing R] [Magnitude R]
variable [ExactScalar T R] {store₀ : ℕ → Store T} {new factored : ℕ → PointRelaxation T R}

/-- The relaxations of all ranks, with whatever factors, numbers of sweeps and directions. From
zero, all ranks get what each of them gets on its own when it starts at zero without an exchange.
And where the matrices have multiplied `y` to `x`, relaxing `y` towards `x` leaves it as it is. This
takes room for one block of a vector; without it, all ranks stop. -/
theorem apply_from_zero_and_solution (made : ∀ r < n, (matrix r).Made (store₀ r))
    (connected : Connected n matrix source)
    (blockSize : ∀ r < n, (matrix r).layout.blockSize = b) {omega : ℕ → R}
    {iterations : ℕ → ℕ} {flags : ℕ → RelaxFlags}
    (built : ∀ r < n, ofMatrix (matrix r) (omega r) (iterations r) (flags r) = .ok (new r))
    (run : ∀ r < n, factor.on (store₀ r, new r) = (.ok (), store r, factored r))
    (resumed : ∀ r < n, (factored r).Resumed (matrix r) (relaxation r))
    (exchanging : ∀ r < n, (relaxation r).flags.contains .zeroGuess = false) {x : ℕ → Array T}
    {world : World T R} (sized : world.Sized n) :
    (b < Capacity.limit →
      ((∀ r < n, (x r).size = (matrix r).vectorLength) →
        ∃ (relaxation' : ℕ → PointRelaxation T R) (z : ℕ → Array T),
          Settles n (fun r => (.ok (), relaxation' r, z r)) ⟨world, fun r =>
            (apply (store r) (x r)).on (relaxation r, Block.zeros (matrix r).vectorLength)⟩ ∧
          ∀ r < n, ∀ (q : PointRelaxation T R) (y : Array T), (factored r).Resumed (matrix r) q →
            q.omega = (relaxation r).omega → q.iterations = (relaxation r).iterations →
            q.flags.contains .symmetric = (relaxation r).flags.contains .symmetric →
            q.flags.contains .zeroGuess = true → y.size = (matrix r).vectorLength →
            (apply (store r) (x r) : Collective T R _ _).on (q, y) = .done (.ok (), q, z r)) ∧
      ∀ {halo : ℕ → Halo T} {y w : ℕ → Array T} {matrix' : ℕ → DistributedMatrix T}
        {earlier : World T R}, (∀ r < n, (matrix r).Rested (halo r)) → earlier.Sized n →
        Finishes n (fun r => (.ok (), matrix' r, x r))
          ⟨earlier, fun r => (mult (store r) (y r)).on ({ matrix r with halo := halo r }, w r)⟩ →
        ∃ relaxation' : ℕ → PointRelaxation T R,
          Settles n (fun r => (.ok (), relaxation' r, y r))
            ⟨world, fun r => (apply (store r) (x r)).on (relaxation r, y r)⟩) ∧
    (Capacity.limit ≤ b → ∀ {y : ℕ → Array T}, (∀ r < n, (x r).size = (matrix r).vectorLength) →
      (∀ r < n, (y r).size = (matrix r).vectorLength) →
      ∃ relaxation' : ℕ → PointRelaxation T R,
        Settles n (fun r => (.error .tooLarge, relaxation' r, y r))
          ⟨world, fun r => (apply (store r) (x r)).on (relaxation r, y r)⟩) := by
  have prepared : ∀ r < n, (relaxation r).Prepared (store r) (matrix r) := fun r hr =>
    (Prepared.of_factor (made r hr) (built r hr) (run r hr)).resumed (resumed r hr)
  have rested : ∀ r < n, (matrix r).Rested (relaxation r).halo := fun r hr => (resumed r hr).halo
  have length : ∀ r < n, (matrix r).vectorLength = (matrix r).layout.owned * b := by
    intro r hr
    rw [vectorLength, blockSize r hr, Nat.mul_comm]
  refine ⟨fun room => ⟨fun hx => ?_, fun {halo y w matrix' earlier} halos earlierSized multiplied =>
    ?_⟩, fun crowded {y} hx hy =>
    settles_apply_crowded connected prepared rested blockSize crowded exchanging hx hy sized⟩
  · have hx' : ∀ r < n, (x r).size = (matrix r).layout.owned * b :=
      fun r hr => (hx r hr).trans (length r hr)
    have zeros : ∀ r < n,
        (Block.zeros (matrix r).vectorLength : Array T).size = (matrix r).layout.owned * b :=
      fun r hr => (Block.size_zeros _).trans (length r hr)
    have swept := fun r hr => (prepared r hr).exists_sweep (blockSize r hr) room (hx' r hr)
      (zeros r hr)
    choose! z hz using swept
    have relaxes : ∀ r < n, ∀ received, Filled b (matrix r) (source r)
        (fun q => Block.zeros (matrix q).vectorLength) received →
        (relaxation r).relaxed (store r) (x r) (Block.zeros (matrix r).vectorLength) received =
          (.ok (), z r) := by
      intro r hr received filled
      rw [(prepared r hr).relaxed_of_zero (blockSize r hr) (hx' r hr) _ filled.size, hz r hr]
      intro c hc
      rw [filled.slots c hc, Block.part_zeros]
    -- zeros are exchanged, so all ranks receive zeros
    obtain ⟨relaxation', settles⟩ := settles_apply connected prepared rested blockSize exchanging
      hx' zeros relaxes sized
    -- alone and without an exchange, each rank makes the same sweeps from zero
    refine ⟨relaxation', z, settles, fun r hr q y again omega' iterations' symmetric zero hy => ?_⟩
    have own := (Prepared.of_factor (made r hr) (built r hr) (run r hr)).resumed again
    exact (prepared r hr).apply_of_zeroGuess own omega' iterations' symmetric zero (hx r hr) hy
      (hz r hr)
  · obtain ⟨received, product⟩ := connected.mult_of_finishes (fun r hr => (prepared r hr).made)
      blockSize halos earlierSized multiplied
    refine settles_apply connected prepared rested blockSize exchanging
      (fun r hr => (product r hr).2.1) (fun r hr => (product r hr).1)
      (fun r hr received' filled' => ?_) sized
    obtain ⟨hy, hx, filled, rows⟩ := product r hr
    refine (prepared r hr).relaxed_of_product (blockSize r hr) room hx hy filled'.size
      fun i hi => ?_
    -- both exchanges have delivered the same blocks
    rw [rows i hi, coupling_congr (store r) (fun c hc =>
      (filled.slots c hc).trans (filled'.slots c hc).symm) i]

end Family

/-! ### Three ranks, of which one owns nothing -/

/-- Two symmetric sweeps on the rows of rank `r`. -/
def trioRelaxation (r : ℕ) : PointRelaxation ℚ ℚ where
  diagonal := ⟨0⟩
  offDiagonal := ⟨1⟩
  halo := (trioMatrix r).halo
  right := Block.zeros (trioMatrix r).vectorLength
  interfaceStart := (trioMatrix r).layout.interfaceStart
  omega := 3 / 2
  iterations := 2
  flags := .symmetric
  factored := false

/-- The store of rank `r` after factoring. -/
def trioFactored (r : ℕ) : Store ℚ :=
  (factor.on (trioStore r, trioRelaxation r)).2.1

/-- Rank `r`'s part of `(1, 10, 100)`. -/
def trioVector (r : ℕ) : Array ℚ :=
  slice 1 #[0, 2, 2, 3] #[1, 10, 100] r

lemma factor_trio : ∀ r < 3, factor.on (trioStore r, trioRelaxation r) =
    (.ok (), trioFactored r, { trioRelaxation r with factored := true }) := by
  have succeeded : ∀ r < 3, (factor.on (trioStore r, trioRelaxation r)).1 = .ok () := by
    decide +kernel
  intro r hr
  have run := factor_on (p := trioRelaxation r) (s := trioStore r) (Prod.eta _).symm
  have success := succeeded r hr
  rw [run] at success
  rw [trioFactored, run, success]
  rfl

/-- The three ranks relax from zero as each of them does on its own, and they leave the vector as it
is that their matrices have multiplied to the right-hand side. -/
theorem trio_apply_from_zero_and_solution :
    (∃ (relaxation' : ℕ → PointRelaxation ℚ ℚ) (z : ℕ → Array ℚ),
      Settles 3 (fun r => (.ok (), relaxation' r, z r)) ⟨initial 3, fun r =>
        (apply (trioFactored r) (trioProduct r)).on
          ({ trioRelaxation r with factored := true }, Block.zeros (trioMatrix r).vectorLength)⟩ ∧
      ∀ r < 3, (apply (trioFactored r) (trioProduct r) : Collective ℚ ℚ _ _).on
          ({ trioRelaxation r with factored := true, flags := .ofSettings true true },
            trioVector r) =
        .done (.ok (), { trioRelaxation r with factored := true, flags := .ofSettings true true },
          z r)) ∧
    ∃ relaxation' : ℕ → PointRelaxation ℚ ℚ,
      Settles 3 (fun r => (.ok (), relaxation' r, trioVector r)) ⟨initial 3, fun r =>
        (apply (trioFactored r) (trioProduct r)).on
          ({ trioRelaxation r with factored := true }, trioVector r)⟩ := by
  obtain ⟨made, connected⟩ := trioMatrix_connected
  have built : ∀ r < 3, ofMatrix (trioMatrix r) (3 / 2 : ℚ) 2 .symmetric =
      .ok (trioRelaxation r) := by
    intro r hr
    obtain rfl | rfl | rfl : r = 0 ∨ r = 1 ∨ r = 2 := by omega
    all_goals rfl
  have lengths : ∀ r < 3, (trioProduct r).size = (trioMatrix r).vectorLength ∧
      (trioVector r).size = (trioMatrix r).vectorLength := by
    decide +kernel
  have rested : ∀ r < 3, (trioMatrix r).Rested (trioMatrix r).halo :=
    fun r hr => connected.rested made hr
  have multiplied : ∃ t, Runs 3 (fun r => (mult (trioFactored r) (trioVector r)).on
      ({ trioMatrix r with halo := (trioMatrix r).halo }, trioVector r))
      (initial 3 : World ℚ ℚ) t ∧ ∀ r < 3, ((t r).1, (t r).2.2) = (.ok (), trioProduct r) :=
    exists_runs_of_map (fun t => (t.1, t.2.2)) (.error (.peerFailure 0), trioMatrix 0, #[])
      (by decide +kernel)
  obtain ⟨t, multiplied, ht⟩ := multiplied
  have product : ∀ r < 3, t r = (.ok (), (t r).2.1, trioProduct r) := by
    intro r hr
    obtain ⟨success, vector⟩ := Prod.mk.inj (ht r hr)
    rw [← success, ← vector]
  have exchanging : RelaxFlags.symmetric.contains .zeroGuess = false := by decide
  have starting : (RelaxFlags.ofSettings true true).contains .zeroGuess = true := by decide
  have bothWays : (RelaxFlags.ofSettings true true).contains .symmetric =
      RelaxFlags.symmetric.contains .symmetric := by decide
  obtain ⟨fromZero, fromSolution⟩ := (apply_from_zero_and_solution made connected (b := 1)
    (by decide +kernel) built factor_trio (fun r hr => ⟨rfl, rfl, rfl, rfl, rested r hr, rfl⟩)
    (fun _ _ => exchanging) (sized_initial 3)).1 (by decide)
  obtain ⟨relaxation', z, settles, alone⟩ := fromZero fun r hr => (lengths r hr).1
  refine ⟨⟨relaxation', z, settles, fun r hr => ?_⟩, ?_⟩
  · exact alone r hr _ _ ⟨rfl, rfl, rfl, rfl, rested r hr, rfl⟩ rfl rfl bothWays starting
      (lengths r hr).2
  · have multiplied := (multiplied.congr_result product).settles
      fun r _ => alternates_mult (trioFactored r) (trioVector r) _
    exact fromSolution rested (sized_initial 3) multiplied.finishes

/-! ### A process without rows -/

/-- A block size for which there is no room. -/
def wideBlock : ℕ :=
  4 * Capacity.limit

/-- Two pieces without rows. -/
def wideStore : Store ℚ :=
  ⟨#[{ BlockMatrix.empty with blockSize := wideBlock }, { BlockMatrix.empty with blockSize := wideBlock }]⟩

/-- The matrix of a process without rows. -/
def wideMatrix : DistributedMatrix ℚ where
  partition := ⟨.single, #[0, 0]⟩
  diagonal := ⟨0⟩
  offDiagonal := ⟨1⟩
  table := .single []
  constraints := none
  halo := ⟨⟨wideBlock, .idle, .staged [] #[]⟩, #[]⟩
  layout := ⟨wideBlock, 0, 0, 0, 0⟩

/-- One sweep over no rows, from the vector at hand. -/
def wideRelaxation : PointRelaxation ℚ ℚ where
  diagonal := ⟨0⟩
  offDiagonal := ⟨1⟩
  halo := wideMatrix.halo
  right := #[]
  interfaceStart := 0
  omega := 1
  iterations := 1
  flags := .ofSettings false false
  factored := true

/-- The empty vector is what the matrix makes of itself. A relaxation of it does not leave it as it
is but stops, since there is no room for one block of a vector. -/
theorem wide_apply_tooLarge :
    (∃ a', (mult wideStore #[] : Collective ℚ ℚ _ _).on (wideMatrix, #[]) =
      .done (.ok (), a', #[])) ∧
    (∃ new, ofMatrix wideMatrix 1 1 (.ofSettings false false) = .ok new ∧
      (factor (T := ℚ) (R := ℚ)).on (wideStore, new) = (.ok (), wideStore, wideRelaxation)) ∧
    ∃ relaxation' : ℕ → PointRelaxation ℚ ℚ,
      Settles 1 (fun r => (.error .tooLarge, relaxation' r, #[])) ⟨(initial 1 : World ℚ ℚ), fun _ =>
        (apply wideStore #[]).on (wideRelaxation, #[])⟩ := by
  have factored :
      (factor (T := ℚ) (R := ℚ)).on (wideStore, { wideRelaxation with factored := false }) =
        (.ok (), wideStore, wideRelaxation) := rfl
  have made : wideMatrix.Made wideStore :=
    ⟨Nat.zero_lt_two, Nat.one_lt_two, by decide +kernel, by decide +kernel, rfl⟩
  have connected : Connected 1 (fun _ => wideMatrix) _ :=
    .single rfl rfl fun _ member => absurd member List.not_mem_nil
  have prepared : wideRelaxation.Prepared wideStore wideMatrix := .of_factor made rfl factored
  refine ⟨⟨_, rfl⟩, ⟨_, rfl, factored⟩, ?_⟩
  exact settles_apply_crowded connected (fun _ _ => prepared)
    (fun r hr => connected.rested (fun _ _ => made) hr) (fun _ _ => rfl) (by decide)
    (fun _ _ => by decide) (fun _ _ => rfl) (fun _ _ => rfl) (sized_initial 1)

end DomainDecomposition.PointRelaxation
