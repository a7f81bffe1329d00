import DomainDecomposition.Proofs.BlockMatrix.ClearedProducts
import DomainDecomposition.Proofs.Distributed.Constraints
import DomainDecomposition.Proofs.Distributed.Product

/-!
# Boundary conditions

Boundary conditions are imposed all or nothing, and it counts only which scalars they constrain. In
exact arithmetic a later product answers the scalars of the vector there, provided that the diagonal
blocks are stored, and otherwise what it would have answered before.

* `productVector`: the product of a rank, scalar by scalar, once the remote blocks have come,
* `product_eq`: whatever the exchange does, a product answers this vector or fails,
* `productVector_imposed`: the product after rows have been constrained,
* `imposeConstraints_sound`: the operation and the products behind it.
-/

namespace DomainDecomposition.DistributedMatrix

open Outcome

variable {T R : Type}

/-! ## The product, scalar by scalar -/

/-- A vector is known when its blocks are, line by line. -/
lemma eq_ofFn_of_part_eq [Zero T] {b m : ℕ} {z : Array T} (size : z.size = m * b)
    {f : ℕ → ℕ → T} (lines : ∀ k < m, ∀ r : Fin b, Block.part b z k r = f k r) :
    z = Array.ofFn (n := m * b) fun p => f (p / b) (p % b) := by
  refine Array.ext (by rw [size, Array.size_ofFn]) fun p hp hp' => ?_
  rw [size] at hp
  have pos : 0 < b := Nat.pos_of_mul_pos_left (Nat.zero_lt_of_lt hp)
  have line := lines (p / b) (Nat.div_lt_of_lt_mul (by rwa [Nat.mul_comm]))
    ⟨p % b, Nat.mod_lt p pos⟩
  rw [Block.part, Block.toVec_apply, Array.getD_eq_getD_getElem?, Span.getElem?_chunk,
    if_pos (Nat.mod_lt p pos), Nat.div_add_mod', Array.getElem?_eq_getElem (by omega)] at line
  rw [Array.getElem_ofFn]
  exact line

section Product

variable [Zero T] [Add T] [Mul T] {s : Store T} {a : DistributedMatrix T} {x y received : Array T}

/-- Line `r` of row `k` of the product, when the remote blocks are there. -/
def productLine (s : Store T) (a : DistributedMatrix T) (x received : Array T) (k r : ℕ) : T :=
  let own := Entries.line a.layout.blockSize x r 0 ((s.get a.diagonal).rowEntries k)
  if k < a.layout.interior then own
  else Entries.line a.layout.blockSize received r own
    ((s.get a.offDiagonal).rowEntries (k - a.layout.interior))

/-- The product, when the remote blocks are there. -/
def productVector (s : Store T) (a : DistributedMatrix T) (x received : Array T) : Array T :=
  Array.ofFn (n := a.layout.owned * a.layout.blockSize) fun p =>
    productLine s a x received (p / a.layout.blockSize) (p % a.layout.blockSize)

/-- What is made of the local product when the remote blocks are there. -/
lemma Fits.addReceived_eq (fits : a.Fits s) {z : Array T}
    (hz : z.size = a.layout.owned * a.layout.blockSize)
    (own : ∀ k < a.layout.owned, ∀ r : Fin a.layout.blockSize, Block.part a.layout.blockSize z k r =
      Entries.line a.layout.blockSize x r 0 ((s.get a.diagonal).rowEntries k))
    (hreceived : received.size = a.layout.remote * a.layout.blockSize) :
    (onTail a.layout.interfaceStart ((s.get a.offDiagonal).multAddInPlace received)).on z =
      (.ok (), productVector s a x received) := by
  have hb := fits.blockSize_offDiagonal
  have rows := fits.rows_offDiagonal
  have interior := fits.interior_le
  have htail : (z.extract (a.layout.interior * a.layout.blockSize)
      (a.layout.owned * a.layout.blockSize)).size =
        (a.layout.owned - a.layout.interior) * a.layout.blockSize := by
    rw [Array.size_extract, hz, Nat.min_self, Nat.sub_mul]
  obtain ⟨t, run, ht, blocks⟩ := BlockMatrix.multAddInPlace_eq fits.offDiagonal
    (x := received) (y := z.extract (a.layout.interior * a.layout.blockSize)
      (a.layout.owned * a.layout.blockSize))
    (by rw [hreceived, fits.columns_offDiagonal, hb]) (by rw [htail, rows, hb])
  rw [rows, hb] at ht blocks
  have start : a.layout.interfaceStart = a.layout.interior * a.layout.blockSize :=
    Nat.mul_comm ..
  obtain ⟨w, run', hw, parts⟩ := onTail_on start interior hz run ht
  rw [run', productVector, eq_ofFn_of_part_eq hw fun k hk r => ?_]
  rw [parts, productLine]
  by_cases before : k < a.layout.interior
  · rw [if_pos before, if_pos before, own k hk r]
  · have tail : Block.part a.layout.blockSize (z.extract (a.layout.interior * a.layout.blockSize)
        (a.layout.owned * a.layout.blockSize)) (k - a.layout.interior) r =
        Block.part a.layout.blockSize z k r := by
      rw [Block.part_extract (by omega), Nat.add_sub_cancel' (Nat.le_of_not_lt before)]
    rw [if_neg before, if_neg before, Block.part, blocks _ (by omega), Block.toVec_apply,
      Entries.getD_addTimes r.isLt]
    · exact congrArg (fun sum => Entries.line a.layout.blockSize received r sum
        ((s.get a.offDiagonal).rowEntries (k - a.layout.interior))) (tail.trans (own k hk r))
    · exact Span.size_chunk (htail ▸ Span.succ_mul_le _ (by omega))

/-- The local product, and what is made of it once remote blocks have come. -/
lemma Fits.mult_eq (fits : a.Fits s) (hx : x.size = a.layout.owned * a.layout.blockSize)
    (hy : y.size = a.layout.owned * a.layout.blockSize) :
    ∃ z, ((s.get a.diagonal).mult x).on y = (.ok (), z) ∧ ∀ received : Array T,
      (onTail a.layout.interfaceStart ((s.get a.offDiagonal).multAddInPlace received)).outcome z =
        if received.size = a.layout.remote * a.layout.blockSize then
          .ok (productVector s a x received)
        else .error (Collective.misfit (a.layout.remote * a.layout.blockSize) received.size) := by
  have hb := fits.blockSize_diagonal
  obtain ⟨z, run, hz, blocks⟩ := BlockMatrix.mult_eq fits.diagonal (x := x) (y := y)
    (by rw [hx, fits.columns_diagonal, hb]) (by rw [hy, fits.rows_diagonal, hb])
  rw [fits.rows_diagonal, hb] at hz blocks
  have own : ∀ k < a.layout.owned, ∀ r : Fin a.layout.blockSize,
      Block.part a.layout.blockSize z k r =
        Entries.line a.layout.blockSize x r 0 ((s.get a.diagonal).rowEntries k) := by
    intro k hk r
    have zero : (Block.zeros a.layout.blockSize : Array T).getD r 0 = 0 := by
      simp [Block.zeros, Array.getD_eq_getD_getElem?]
    rw [Block.part, blocks k hk, Block.toVec_apply,
      Entries.getD_addTimes r.isLt _ (Block.size_zeros _), zero]
  refine ⟨z, run, fun received => ?_⟩
  by_cases hreceived : received.size = a.layout.remote * a.layout.blockSize
  · rw [if_pos hreceived, Update.outcome, fits.addReceived_eq hz own hreceived]
    rfl
  · have refused : ∀ t : Array T, ((s.get a.offDiagonal).multAddInPlace received).on t =
        (.error (Collective.misfit (a.layout.remote * a.layout.blockSize) received.size), t) := by
      intro t
      rw [BlockMatrix.multAddInPlace, Update.on_bind_of_ok (Update.on_get t),
        BlockMatrix.checkVectors, fits.columns_offDiagonal, fits.blockSize_offDiagonal,
        checkSize, Capacity.compare, if_neg (Ne.symm hreceived)]
      rfl
    rw [if_neg hreceived, Update.outcome, onTail, Update.on_focus, refused]
    rfl

/-! ## Whatever the exchange does -/

/-- What a product answers: the result, or why there is none. The matrix that is left comes along.
-/
def product (s : Store T) (a : DistributedMatrix T) (x y : Array T) :
    Program T R (Except Error (Array T) × DistributedMatrix T) :=
  (mult s x).on (a, y) >>= fun out => .done (out.1.map fun _ => out.2.2, out.2.1)

/-- What is answered once the exchange is over. -/
def exchanged (s : Store T) (a : DistributedMatrix T) (x : Array T) :
    Except Error Unit × Halo T → Except Error (Array T) × DistributedMatrix T
  | (.ok (), halo) =>
    (if halo.received.size = a.layout.remote * a.layout.blockSize then
        .ok (productVector s a x halo.received)
      else .error (Collective.misfit (a.layout.remote * a.layout.blockSize) halo.received.size),
      { a with halo })
  | (.error e, halo) => (.error e, { a with halo })

/-- A product of vectors of the right lengths is an exchange. -/
lemma Fits.product_eq (fits : a.Fits s) (hx : x.size = a.layout.owned * a.layout.blockSize)
    (hy : y.size = a.layout.owned * a.layout.blockSize) :
    (product s a x y : Program T R _) = (Halo.begin x 0).on a.halo >>= fun
      | (.ok ticket, halo) =>
        (Halo.finish ticket).on halo >>= fun out => .done (exchanged s a x out)
      | (.error e, halo) => .done (.error e, { a with halo }) := by
  obtain ⟨z, run, added⟩ := fits.mult_eq hx hy
  have lengths : a.layout.owned * a.layout.blockSize = a.vectorLength := Nat.mul_comm ..
  rw [product, mult_on s a (hx.trans lengths) (hy.trans lengths), Program.bind_bind]
  refine bind_congr fun begun => ?_
  obtain ⟨e | ticket, halo⟩ := begun
  · rfl
  · rw [afterBegin, finishMult_on s a run, Program.bind_bind]
    refine bind_congr fun finished => ?_
    obtain ⟨e | ⟨⟩, halo'⟩ := finished
    · rfl
    · exact congrArg (fun answer => Program.done (answer, { a with halo := halo' }))
        (added halo'.received)

/-- Vectors of other lengths are refused, whatever the pieces hold. -/
lemma product_refused (other : ¬(x.size = a.vectorLength ∧ y.size = a.vectorLength)) (s : Store T) :
    (product s a x y : Program T R _) = .done (.error (Collective.misfit a.vectorLength
      (if x.size = a.vectorLength then y.size else x.size)), a) := by
  rw [product, mult_on_of_size_ne a other]
  rfl

end Product

/-! ## Constrained products -/

section Constrained

variable [Zero T] [One T] [Add T] [Mul T] {s s' : Store T} {a : DistributedMatrix T}
variable {rows : Set (ℕ × ℕ)} {x y received : Array T}

open Classical in
/-- The vector `z`, but at the listed scalars that of `x`, or zero where the diagonal block is not
stored. -/
noncomputable def constrainedTo (b : ℕ) (rows : Set (ℕ × ℕ)) (diagonal : BlockMatrix T)
    (x z : Array T) : Array T :=
  Array.ofFn (n := z.size) fun p =>
    if (p / b, p % b) ∈ rows then
      if diagonal.Stores (p / b) (p / b) then x.getD p 0 else 0
    else z.getD p 0

open Classical in
/-- Line `r` of row `k` of the product, after rows have been constrained. -/
lemma productLine_imposed (exact : ExactUnit T) (fits : a.Fits s) (imposed : a.Imposed rows s s')
    (hx : x.size = a.layout.owned * a.layout.blockSize) {k r : ℕ} (hk : k < a.layout.owned)
    (hr : r < a.layout.blockSize) :
    productLine s' a x received k r =
      if (k, r) ∈ rows then
        if (s.get a.diagonal).Stores k k then (Span.chunk a.layout.blockSize x k).getD r 0 else 0
      else productLine s a x received k r := by
  have hb := fits.blockSize_diagonal
  have hb' := fits.blockSize_offDiagonal
  have own := imposed.diagonal.line_eq exact fits.diagonal (x := x)
    (by rw [hx, fits.columns_diagonal, hb]) (i := k) (r := r) (by rwa [fits.rows_diagonal])
    (by rwa [hb]) 0
  rw [hb, exact.zero_add] at own
  rw [productLine, productLine, own]
  by_cases interior : k < a.layout.interior
  · rw [if_pos interior, if_pos interior]
  · have remote := fun sum => imposed.offDiagonal.line_eq_of_not_unit exact (x := received)
      (i := k - a.layout.interior) (r := r) (by rw [fits.rows_offDiagonal]; omega)
      (by rwa [hb']) sum
    simp only [hb', Set.mem_ofPred_eq, Nat.add_sub_cancel' (Nat.le_of_not_lt interior)] at remote
    rw [if_neg interior, if_neg interior, remote]
    by_cases member : (k, r) ∈ rows
    · simp only [if_pos member]
    · simp only [if_neg member]

/-- The product, after rows have been constrained. -/
lemma productVector_imposed (exact : ExactUnit T) (fits : a.Fits s) (imposed : a.Imposed rows s s')
    (hx : x.size = a.layout.owned * a.layout.blockSize) :
    productVector s' a x received =
      constrainedTo a.layout.blockSize rows (s.get a.diagonal) x (productVector s a x received) := by
  refine Array.ext (by simp [productVector, constrainedTo]) fun p hp hp' => ?_
  have inside : p < a.layout.owned * a.layout.blockSize := by
    rwa [productVector, Array.size_ofFn] at hp
  have pos : 0 < a.layout.blockSize := Nat.pos_of_mul_pos_left (Nat.zero_lt_of_lt inside)
  have hr := Nat.mod_lt p pos
  have hk : p / a.layout.blockSize < a.layout.owned :=
    Nat.div_lt_of_lt_mul (by rwa [Nat.mul_comm])
  have read : (Span.chunk a.layout.blockSize x (p / a.layout.blockSize)).getD
      (p % a.layout.blockSize) 0 = x.getD p 0 := by
    rw [Array.getD_eq_getD_getElem?, Span.getElem?_chunk, if_pos hr, Nat.div_add_mod',
      Array.getD_eq_getD_getElem?]
  have old : (productVector s a x received).getD p 0 =
      productLine s a x received (p / a.layout.blockSize) (p % a.layout.blockSize) := by
    simp [productVector, Array.getD_eq_getD_getElem?, inside]
  simp only [constrainedTo, Array.getElem_ofFn, old]
  rw [← read, ← productLine_imposed exact fits imposed hx hk hr]
  simp only [productVector, Array.getElem_ofFn]

/-- What a product answers, after rows have been constrained. -/
lemma product_imposed (exact : ExactUnit T) (fits : a.Fits s) (imposed : a.Imposed rows s s') :
    (product s' a x y : Program T R _) = product s a x y >>= fun out =>
      .done (out.1.map (constrainedTo a.layout.blockSize rows (s.get a.diagonal) x), out.2) := by
  by_cases lengths : x.size = a.vectorLength ∧ y.size = a.vectorLength
  · have length : a.vectorLength = a.layout.owned * a.layout.blockSize := Nat.mul_comm ..
    have hx := lengths.1.trans length
    have hy := lengths.2.trans length
    rw [(imposed.fits fits).product_eq hx hy, fits.product_eq hx hy, Program.bind_bind]
    refine bind_congr fun begun => ?_
    obtain ⟨e | ticket, halo⟩ := begun
    · rfl
    · rw [Program.bind_bind]
      refine bind_congr fun finished => ?_
      obtain ⟨e | ⟨⟩, halo'⟩ := finished
      · rfl
      · rw [Program.done_bind, exchanged, exchanged, productVector_imposed exact fits imposed hx]
        dsimp only
        split <;> rfl
  · rw [product_refused lengths, product_refused lengths]
    rfl

/-- Boundary conditions are imposed all or nothing. When every constraint on an owned block is well
placed, exactly the constrained scalar rows change, whatever the order of the constraints and
however often a scalar is named, and imposing them again changes nothing. In exact arithmetic, a
product behind them answers the scalars of the vector at the constrained places whose diagonal block
is stored, zero at the other constrained places, and everywhere else what it would have answered
before. Otherwise the constraints are refused, and nothing has changed. -/
theorem imposeConstraints_sound (fits : a.Fits s) (distinct : a.diagonal ≠ a.offDiagonal)
    {first stop : ℕ} (range : a.partition.range = .ok (first, stop)) :
    ((a.constraints.getD .empty).WellPlaced first stop a.layout.blockSize →
      ∃ s', a.imposeConstraints.on s = (.ok (), s') ∧
        a.Imposed ((a.constraints.getD .empty).scalars first stop) s s' ∧
        a.imposeConstraints.on s' = (.ok (), s') ∧
        (∀ c : Constraints T, c.WellPlaced first stop a.layout.blockSize →
          c.scalars first stop = (a.constraints.getD .empty).scalars first stop →
          ({ a with constraints := some c }).imposeConstraints.on s = (.ok (), s')) ∧
        (ExactUnit T → ∀ (halo : Halo T) (x y : Array T),
          (product s' { a with halo } x y : Program T R _) =
            product s { a with halo } x y >>= fun out =>
              .done (out.1.map (constrainedTo a.layout.blockSize
                ((a.constraints.getD .empty).scalars first stop) (s.get a.diagonal) x), out.2))) ∧
    (¬(a.constraints.getD .empty).WellPlaced first stop a.layout.blockSize →
      ∃ fault, a.imposeConstraints.on s = (.error (.config fault), s)) := by
  refine ⟨fun placed => ?_, imposeConstraints_refused range⟩
  obtain ⟨s', run, imposed⟩ := imposeConstraints_on fits distinct range placed
  refine ⟨s', run, imposed, ?_, fun c placed' same => ?_, fun exact halo x y => ?_⟩
  · obtain ⟨s'', twice, imposed'⟩ := imposeConstraints_on (imposed.fits fits) distinct range placed
    rw [twice, imposed.again fits imposed']
  · have fits' : ({ a with constraints := some c } : DistributedMatrix T).Fits s :=
      ⟨fits.layout, fits.held_diagonal, fits.held_offDiagonal, fits.diagonal, fits.offDiagonal⟩
    obtain ⟨s'', run', imposed'⟩ := imposeConstraints_on fits' distinct range placed'
    have imposed'' : a.Imposed (c.scalars first stop) s s'' :=
      ⟨imposed'.diagonal, imposed'.offDiagonal, imposed'.others, imposed'.size⟩
    rw [run', imposed.unique fits (same ▸ imposed'')]
  · have fits' : ({ a with halo } : DistributedMatrix T).Fits s :=
      ⟨fits.layout, fits.held_diagonal, fits.held_offDiagonal, fits.diagonal, fits.offDiagonal⟩
    exact product_imposed exact fits'
      ⟨imposed.diagonal, imposed.offDiagonal, imposed.others, imposed.size⟩

end Constrained

/-! ### A rod -/

/-- The block matrix of scalars with the given rows. -/
def rodPiece (rows columns : ℕ) (rowStart indices diagonal : Array ℕ) (values : Array ℚ) :
    BlockMatrix ℚ where
  blockSize := 1
  rowCount := rows
  columnCount := columns
  rowStart := rowStart
  columns := indices
  values := values
  diagonal := diagonal
  invertedDiagonal := #[]

/-- Two blocks that are coupled to each other, the second one also to what a table lists. -/
def rodStore : Store ℚ :=
  ⟨#[rodPiece 2 2 #[0, 2, 4] #[0, 1, 0, 1] #[0, 3] #[2, 1, 1, 3],
    rodPiece 1 1 #[0, 1] #[0] #[0] #[7]]⟩

/-- The end of the rod is held. The constraint is listed twice, and one on another rank does not
count. -/
def rodConstraints : Constraints ℚ :=
  ⟨[⟨1, 1, [0], [0]⟩, ⟨5, 9, [3], [0]⟩, ⟨1, 1, [0, 0], [0, 0]⟩]⟩

/-- The rod on a single process. -/
def rodMatrix : DistributedMatrix ℚ where
  partition := ⟨.single, #[0, 2]⟩
  diagonal := ⟨0⟩
  offDiagonal := ⟨1⟩
  table := Table.single [0]
  constraints := some rodConstraints
  halo := ⟨⟨1, .idle, .staged [0] #[0]⟩, #[0]⟩
  layout := ⟨1, 2, 1, 1, 1⟩

lemma rodMatrix_fits : rodMatrix.Fits rodStore :=
  have made : ofParts rodStore rodMatrix.partition ⟨0⟩ ⟨1⟩ (Table.single [0])
      (some rodConstraints) = .ok rodMatrix := rfl
  have held : rodStore.Holds ⟨0⟩ ∧ rodStore.Holds ⟨1⟩ := ⟨Nat.zero_lt_two, Nat.one_lt_two⟩
  (Fits.of_ofParts held.1 held.2 (by decide +kernel) (by decide +kernel) made).1

/-- The rod after its end has been held. -/
def rodHeld : Store ℚ :=
  ⟨#[rodPiece 2 2 #[0, 2, 4] #[0, 1, 0, 1] #[0, 3] #[2, 1, 0, 1],
    rodPiece 1 1 #[0, 1] #[0] #[0] #[0]]⟩

/-- The end of the rod is held: scalar row 1 is a row of the identity in the diagonal piece and zero
in the other one, and the second scalar of a product is that of the vector. -/
theorem rod_imposeConstraints_sound :
    rodMatrix.imposeConstraints.on rodStore = (.ok (), rodHeld) ∧
      rodMatrix.Imposed {(1, 0)} rodStore rodHeld ∧
      rodMatrix.imposeConstraints.on rodHeld = (.ok (), rodHeld) ∧
      ∀ (halo : Halo ℚ) (x y : Array ℚ),
        (product rodHeld { rodMatrix with halo } x y : Program ℚ ℚ _) =
          product rodStore { rodMatrix with halo } x y >>= fun out =>
            .done (out.1.map (constrainedTo 1 {(1, 0)} (rodStore.get ⟨0⟩) x), out.2) := by
  have scalars : (rodMatrix.constraints.getD .empty).scalars 0 2 = {(1, 0)} := by
    ext ⟨k, v⟩
    simp [rodMatrix, rodConstraints, Constraints.scalars]
  have placed : (rodMatrix.constraints.getD .empty).WellPlaced 0 2 rodMatrix.layout.blockSize := by
    simp [rodMatrix, rodConstraints, Constraints.WellPlaced]
  obtain ⟨s', run, imposed, again, -, products⟩ := (imposeConstraints_sound (R := ℚ)
    rodMatrix_fits (by decide) (show rodMatrix.partition.range = .ok (0, 2) from rfl)).1 placed
  have held : rodMatrix.imposeConstraints.on rodStore = (.ok (), rodHeld) := by
    with_unfolding_all rfl
  obtain rfl : s' = rodHeld := congrArg Prod.snd (run.symm.trans held)
  rw [scalars] at imposed products
  exact ⟨run, imposed, again, products (exactUnit_of_semiring ℚ)⟩

/-- A block that is coupled to nothing. -/
def looseStore : Store ℚ :=
  ⟨#[rodPiece 1 1 #[0, 0] #[] #[] #[], rodPiece 0 0 #[0] #[] #[] #[]]⟩

/-- Its scalar is held. -/
def looseMatrix : DistributedMatrix ℚ where
  partition := ⟨.single, #[0, 1]⟩
  diagonal := ⟨0⟩
  offDiagonal := ⟨1⟩
  table := Table.single []
  constraints := some ⟨[⟨0, 0, [0], [0]⟩]⟩
  halo := ⟨⟨1, .idle, .staged [] #[]⟩, #[]⟩
  layout := ⟨1, 1, 0, 1, 0⟩

/-- At a constrained place whose diagonal block is not stored, a product answers zero and not the
scalar of the vector. -/
theorem exists_constrained_zero :
    ¬∀ (s s' : Store ℚ) (a a' : DistributedMatrix ℚ) (first stop : ℕ) (x y z : Array ℚ),
      a.Fits s → a.diagonal ≠ a.offDiagonal → a.partition.range = .ok (first, stop) →
      (a.constraints.getD .empty).WellPlaced first stop a.layout.blockSize →
      a.imposeConstraints.on s = (.ok (), s') →
      (product s' a x y : Program ℚ ℚ _) = .done (.ok z, a') →
      ∀ p ∈ (a.constraints.getD .empty).scalars first stop,
        z[p.1 * a.layout.blockSize + p.2]? = x[p.1 * a.layout.blockSize + p.2]? := by
  intro prescribed
  have made : ofParts looseStore looseMatrix.partition ⟨0⟩ ⟨1⟩ (Table.single [])
      looseMatrix.constraints = .ok looseMatrix := rfl
  have held : looseStore.Holds ⟨0⟩ ∧ looseStore.Holds ⟨1⟩ := ⟨Nat.zero_lt_two, Nat.one_lt_two⟩
  have fits : looseMatrix.Fits looseStore :=
    (Fits.of_ofParts held.1 held.2 (by decide +kernel) (by decide +kernel) made).1
  have same := prescribed looseStore looseStore looseMatrix
    { looseMatrix with halo := ⟨⟨1, ⟨1, none⟩, .staged [] #[]⟩, #[]⟩ } 0 1 #[5] #[9] #[0] fits
    (by decide) rfl (by simp [looseMatrix, Constraints.WellPlaced]) rfl rfl (0, 0)
    (by simp [looseMatrix, Constraints.scalars])
  revert same
  decide +kernel

end DomainDecomposition.DistributedMatrix
