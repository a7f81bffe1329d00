import DomainDecomposition.Proofs.BlockMatrix.Combination
import DomainDecomposition.Proofs.BlockMatrix.Fill
import DomainDecomposition.Proofs.BlockMatrix.Operator

/-!
# Full fill gives an exact inverse

With enough levels of fill the pattern is closed under elimination: two stored entries `(i, k)` and
`(k, j)` with `k` before both `i` and `j` meet in a stored entry `(i, j)`. Then nothing is dropped,
the product of the factors is the matrix at every position, and the two triangular solves undo the
product with the matrix from both sides.

* `fillStores_closed`: `n ≤ limit + 2` levels are enough for `n` rows,
* `sum_lower_mul_upper_of_closed`: the product of the factors on a closed pattern,
* `applyFactor_inverts`: the solves and the product are inverse to each other.
-/

namespace DomainDecomposition.BlockMatrix

open Outcome

variable {T R : Type} [Field T] {b : ℕ}

/-! ## A closed pattern drops nothing -/

omit [Field T] in
/-- A walk between two different rows has at most `n - 2` other rows to pass through. -/
lemma fillStores_closed {a : BlockMatrix T} {limit i k j : ℕ} (full : a.rowCount ≤ limit + 2)
    (hki : k < i) (hkj : k < j) (first : a.FillStores limit i k)
    (second : a.FillStores limit k j) : a.FillStores limit i j := by
  obtain ⟨hi, hk, hfirst⟩ := first
  obtain ⟨-, hj, hsecond⟩ := second
  refine ⟨hi, hj, ?_⟩
  by_cases hij : i = j
  · exact Or.inl hij
  · right
    have hik := hfirst.resolve_left (by omega)
    have hkj' := hsecond.resolve_left (by omega)
    rw [Nat.min_eq_right (Nat.le_of_lt hki)] at hik
    rw [Nat.min_eq_left (Nat.le_of_lt hkj)] at hkj'
    have hjoined := (hik.join hkj').mono (Nat.le_refl _) (show k + 1 ≤ min i j by omega)
    exact hjoined.shorten.mono (by omega) (Nat.le_refl _)

/-- On a closed pattern the product of the factors is the original matrix at every position. -/
lemma sum_lower_mul_upper_of_closed {a : BlockMatrix T} (valid : a.Valid) (has : a.HasDiagonal)
    (closed : ∀ i k j, k < i → k < j → a.Stores i k → a.Stores k j → a.Stores i j)
    {v : Array T} (h : Factoring a a.rowCount v) {i : ℕ} (hi : i < a.rowCount) (j : ℕ) :
    ∑ k ∈ Finset.range a.rowCount,
      (a.withValues v).lower a.blockSize i k * (a.withValues v).upper a.blockSize k j =
        a.coeff a.blockSize i j := by
  have hvalid := valid.withValues h.size
  rw [sum_lower_mul hi]
  by_cases stored : a.Stores i j
  · exact h.finished i hi j stored
  · -- no entry of the pattern contributes to a position that is not stored
    have hij : i ≠ j := fun e => stored (e ▸ has.stores_diagonal valid hi)
    have hzero : ∀ r c, ¬ a.Stores r c → (a.withValues v).coeff a.blockSize r c = 0 :=
      fun r c hrc => hvalid.coeff_eq_zero hrc
    have hupper : (a.withValues v).upper a.blockSize i j = 0 := by
      rcases Nat.lt_or_gt_of_ne hij with hlt | hgt
      · rw [upper_of_lt hlt, hzero i j stored]
      · exact upper_of_gt hgt
    have hterms : ∀ k ∈ Finset.range i, (a.withValues v).coeff a.blockSize i k *
        (a.withValues v).upper a.blockSize k j = 0 := by
      intro k hk
      have hki := Finset.mem_range.mp hk
      by_cases hik : a.Stores i k
      · rcases Nat.lt_trichotomy k j with hlt | heq | hgt
        · have hkj : ¬ a.Stores k j := fun e => stored (closed i k j hki hlt hik e)
          rw [upper_of_lt hlt, hzero k j hkj, mul_zero]
        · exact absurd (heq ▸ hik) stored
        · rw [upper_of_gt hgt, mul_zero]
      · rw [hzero i k hik, zero_mul]
    rw [Finset.sum_eq_zero hterms, hupper, add_zero, valid.coeff_eq_zero stored]

/-! ## Both solves -/

variable {f : BlockMatrix T}

/-- The lower factor has no kernel. -/
lemma eq_zero_of_lower {n : ℕ} {w : ℕ → Fin b → T}
    (h : ∀ i < n, ∑ j ∈ Finset.range n, (f.lower b i j).mulVec (w j) = 0) :
    ∀ i < n, w i = 0 := by
  intro i
  induction i using Nat.strong_induction_on with
  | _ i ih =>
    intro hi
    have hrow := h i hi
    rw [Finset.range_eq_Ico, sum_lower_mulVec (Nat.zero_le i) hi] at hrow
    have hbelow : ∀ j ∈ Finset.Ico 0 i, (f.coeff b i j).mulVec (w j) = 0 := by
      intro j hj
      have hji := (Finset.mem_Ico.mp hj).2
      rw [ih j hji (hji.trans hi), Matrix.mulVec_zero]
    rwa [Finset.sum_eq_zero hbelow, add_zero] at hrow

/-- Where the stored diagonal blocks are inverses, the upper factor has no kernel. -/
lemma eq_zero_of_upper {n : ℕ} {w : ℕ → Fin b → T}
    (inverse : ∀ i < n, f.coeff b i i * f.upper b i i = 1)
    (h : ∀ i < n, ∑ j ∈ Finset.range n, (f.upper b i j).mulVec (w j) = 0) :
    ∀ i < n, w i = 0 := by
  -- from the last row up
  have hup : ∀ d i, i < n → n - i ≤ d → w i = 0 := by
    intro d
    induction d with
    | zero => intro i hi hd; omega
    | succ d ih =>
      intro i hi hd
      have hrow := h i hi
      rw [Finset.range_eq_Ico, sum_upper_mulVec (Nat.zero_le i) hi] at hrow
      have hbeyond : ∀ j ∈ Finset.Ico (i + 1) n, (f.coeff b i j).mulVec (w j) = 0 := by
        intro j hj
        obtain ⟨hij, hjn⟩ := Finset.mem_Ico.mp hj
        rw [ih j hjn (by omega), Matrix.mulVec_zero]
      rw [Finset.sum_eq_zero hbeyond, add_zero] at hrow
      rw [← Matrix.one_mulVec (w i), ← inverse i hi, ← Matrix.mulVec_mulVec, hrow,
        Matrix.mulVec_zero]
  exact fun i hi => hup (n - i) i hi (Nat.le_refl _)

/-! ## Full fill -/

variable [DecidableEq T] [Field R] [LinearOrder R] [IsStrictOrderedRing R] [Magnitude R]
variable [Scalar T R] [ExactScalar T R]

/-- What the pattern, the copied values and the factorization come to: two factors on the rows of
`a` whose product is `a` at every position. -/
lemma fullFill_spec {a f₀ f₁ : BlockMatrix T} (valid : a.Valid) {limit : ℕ} {growth : R}
    (full : a.rowCount ≤ limit + 2) (pattern : a.fillPattern limit growth = .ok f₀)
    (copied : (copyValues a).on f₀ = (.ok (), f₁))
    (factored : (factor (R := R)).on f₁ = (.ok (), f)) :
    f.Factored ∧ f.blockSize = a.blockSize ∧ f.rowCount = a.rowCount ∧
      a.rowCount = a.columnCount ∧
      ∀ i < f.rowCount, ∀ j, ∑ k ∈ Finset.range f.rowCount,
        f.lower f.blockSize i k * f.upper f.blockSize k j = a.coeff f.blockSize i j := by
  obtain ⟨square, level⟩ := levelOfFill_of_fillPattern valid pattern
  have copy := copyValues_combined level.valid valid copied
  obtain ⟨hblock, hrows, -⟩ := copy.covers.sizes
  have valid₁ : f₁.Valid := copy.pattern.valid level.valid
  have hblock₁ : f₁.blockSize = f₀.blockSize := copy.pattern.blockSize_eq
  have hrows₁ : f₁.rowCount = f₀.rowCount := copy.pattern.rowCount_eq
  have hstores : ∀ i j, f₁.Stores i j ↔ a.FillStores limit i j := by
    intro i j
    rw [← level.stores, copy.pattern.stores_iff]
  obtain ⟨hfactored, has, v, rfl, h⟩ := factored_of_factor valid₁ factored
  have closed : ∀ i k j, k < i → k < j → f₁.Stores i k → f₁.Stores k j → f₁.Stores i j := by
    intro i k j hki hkj hik hkj'
    rw [hstores] at hik hkj' ⊢
    exact fillStores_closed full hki hkj hik hkj'
  refine ⟨hfactored, hblock₁.trans hblock, hrows₁.trans hrows, square, fun i hi j => ?_⟩
  have hproduct := sum_lower_mul_upper_of_closed valid₁ has closed h hi j
  have hsame : f₁.coeff f₀.blockSize i j = a.coeff f₀.blockSize i j := copy.coeff i j
  rw [← hblock₁] at hsame
  exact hproduct.trans hsame

/-- With full fill, the solves undo the product with the matrix, and the product undoes the solves.
-/
theorem applyFactor_inverts {a f₀ f₁ : BlockMatrix T} (valid : a.Valid) {limit : ℕ} {growth : R}
    (full : a.rowCount ≤ limit + 2) (pattern : a.fillPattern limit growth = .ok f₀)
    (copied : (copyValues a).on f₀ = (.ok (), f₁))
    (factored : (factor (R := R)).on f₁ = (.ok (), f)) {x y z : Array T}
    (hx : x.size = a.rowCount * a.blockSize) (hy : y.size = a.rowCount * a.blockSize)
    (hz : z.size = a.rowCount * a.blockSize) :
    (∃ p, (a.mult x).on y = (.ok (), p) ∧ (f.applyFactor p).on z = (.ok (), x)) ∧
      ∃ s, (f.applyFactor x).on z = (.ok (), s) ∧ (a.mult s).on y = (.ok (), x) := by
  obtain ⟨hfactored, hblock, hrows, square, product⟩ :=
    fullFill_spec valid full pattern copied factored
  have hfz : z.size = f.rowCount * f.blockSize := by rw [hz, hrows, hblock]
  constructor
  · have hxc : x.size = a.columnCount * a.blockSize := by rw [hx, square]
    obtain ⟨p, hp, hpsize, hparts⟩ := mult_spec valid hxc hy
    obtain ⟨s, hs, hssize, w, hlower, hupper⟩ := hfactored.applyFactor_spec
      (x := p) (by rw [hpsize, hrows, hblock]) hfz
    refine ⟨p, hp, ?_⟩
    -- both `x` and the answer solve the upper system for the same right-hand side
    have hproduct : ∀ i < f.rowCount, ∑ k ∈ Finset.range f.rowCount,
        (f.lower f.blockSize i k).mulVec (∑ j ∈ Finset.range f.rowCount,
          (f.upper f.blockSize k j).mulVec (Block.part f.blockSize x j)) =
        Block.part f.blockSize p i := by
      intro i hi
      rw [← sum_product_mulVec (f.lower f.blockSize) (f.upper f.blockSize)]
      have hrow := hparts i (by rwa [← hrows])
      rw [← hblock, ← square, ← hrows] at hrow
      rw [hrow]
      exact Finset.sum_congr rfl fun j _ => by rw [product i hi j]
    have hw : ∀ i < f.rowCount, ∑ j ∈ Finset.range f.rowCount,
        (f.upper f.blockSize i j).mulVec (Block.part f.blockSize x j) - w i = 0 := by
      refine eq_zero_of_lower (f := f) fun i hi => ?_
      simp only [Matrix.mulVec_sub, Finset.sum_sub_distrib]
      rw [hproduct i hi, hlower i hi, sub_self]
    have hxs : ∀ j < f.rowCount,
        Block.part f.blockSize s j - Block.part f.blockSize x j = 0 := by
      refine eq_zero_of_upper (f := f) hfactored.inverse_right fun i hi => ?_
      simp only [Matrix.mulVec_sub, Finset.sum_sub_distrib]
      rw [hupper i hi, ← neg_sub, hw i hi, neg_zero]
    have hsx : s = x := Block.eq_of_part_eq hssize (by rw [hx, hrows, hblock])
      fun j hj => sub_eq_zero.mp (hxs j hj)
    rw [hs, hsx]
  · obtain ⟨s, hs, hssize, w, hlower, hupper⟩ := hfactored.applyFactor_spec
      (x := x) (by rw [hx, hrows, hblock]) hfz
    obtain ⟨p, hp, hpsize, hparts⟩ := mult_spec valid (x := s)
      (by rw [hssize, hrows, hblock, square]) hy
    refine ⟨s, hs, ?_⟩
    have hpx : p = x := by
      refine Block.eq_of_part_eq hpsize hx fun i hi => ?_
      have hi' : i < f.rowCount := by rwa [hrows]
      rw [hparts i hi, ← hblock, ← square, ← hrows, ← hlower i hi']
      have hcollect := sum_product_mulVec (n := f.rowCount) (f.lower f.blockSize)
        (f.upper f.blockSize) i (Block.part f.blockSize s)
      rw [Finset.sum_congr rfl fun j _ => by rw [product i hi' j]] at hcollect
      rw [hcollect]
      exact Finset.sum_congr rfl fun k hk => by rw [hupper k (Finset.mem_range.mp hk)]
    rw [hp, hpx]

/-- One level of fill is full fill for three rows. -/
theorem arrow_applyFactor_inverts :
    let f₀ := (arrow.fillPattern 1 (2 : ℚ)).toOption.getD .empty
    let f₁ := ((copyValues arrow).on f₀).2
    let f := ((factor (R := ℚ)).on f₁).2
    (∃ p, (arrow.mult #[1, 2, 3, 4, 5, 6]).on (Block.zeros 6) = (.ok (), p) ∧
        (f.applyFactor p).on (Block.zeros 6) = (.ok (), #[1, 2, 3, 4, 5, 6])) ∧
      ∃ s, (f.applyFactor #[1, 2, 3, 4, 5, 6]).on (Block.zeros 6) = (.ok (), s) ∧
        (arrow.mult s).on (Block.zeros 6) = (.ok (), #[1, 2, 3, 4, 5, 6]) := by
  intro f₀ f₁ f
  have pattern : arrow.fillPattern 1 (2 : ℚ) = .ok f₀ := eq_ok_getD (by decide +kernel) _
  have copied : ((copyValues arrow).on f₀).1 = .ok () := by decide +kernel
  have factored : ((factor (R := ℚ)).on f₁).1 = .ok () := by decide +kernel
  exact applyFactor_inverts (by decide +kernel) (by decide) pattern (Prod.ext copied rfl)
    (Prod.ext factored rfl) rfl rfl rfl

end DomainDecomposition.BlockMatrix
