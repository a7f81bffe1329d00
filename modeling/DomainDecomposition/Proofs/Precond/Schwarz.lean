import DomainDecomposition.Precond.Schwarz
import DomainDecomposition.Proofs.BlockMatrix.Combination
import DomainDecomposition.Proofs.BlockMatrix.Fill
import DomainDecomposition.Proofs.BlockMatrix.Operator
import DomainDecomposition.Proofs.Store

/-!
# The matrix of the factors

The factors live in a matrix of their own, which is added to the store on the level-of-fill pattern.
Factoring anew copies the values of the original matrix there, shifts the diagonal and eliminates.
Nothing else in the store changes, and the pattern of the factors stays.
-/

namespace DomainDecomposition

namespace AdditiveSchwarz

variable {T R : Type}

section Allocation

variable [Zero T] [One R] [Mul R] [LE R] [DecidableLE R] [Magnitude R] {store store' : Store T}
variable {diagonal factors : Handle} {level : ℕ} {growth : R}

/-- The new matrix is the level-of-fill pattern. -/
lemma fillPattern_of_allocateFactors
    (run : (allocateFactors diagonal level growth).on store = (.ok factors, store')) :
    ∃ f, (store.get diagonal).fillPattern level growth = .ok f ∧ factors = (store.add f).1 ∧
      store' = (store.add f).2 := by
  rw [allocateFactors, Update.on_bind_of_ok (Update.on_get store)] at run
  obtain ⟨f, t, hpattern, run⟩ := Update.on_bind_eq_ok run
  rw [Update.on_monadLift, Prod.mk.injEq] at hpattern
  obtain ⟨hpattern, rfl⟩ := hpattern
  obtain ⟨hhandle, hstore⟩ := Prod.mk.inj run
  exact ⟨f, hpattern, (Except.ok.inj hhandle).symm, hstore.symm⟩

end Allocation

section Factor

variable [Field T] [DecidableEq T] [Field R] [LinearOrder R] [IsStrictOrderedRing R]
variable [Magnitude R] [Scalar T R] [ExactScalar T R]

/-- A successful refactoring puts a factored matrix in the place of the factors. -/
lemma refactor_spec {store store' : Store T} {diagonal factors : Handle} {shift : T}
    (hdiagonal : (store.get diagonal).Valid) (hfactors : (store.get factors).Valid)
    (run : (refactor (R := R) diagonal factors shift).on store = (.ok (), store')) :
    ∃ f, store' = store.set factors f ∧ f.Factored ∧
      f.rowCount = (store.get factors).rowCount ∧ f.blockSize = (store.get factors).blockSize := by
  rw [refactor, Update.on_bind_of_ok (Update.on_get store), Store.onMatrix, Update.on_focus,
    Prod.mk.injEq] at run
  obtain ⟨hok, rfl⟩ := run
  obtain ⟨f, hf⟩ : ∃ f, (do
      BlockMatrix.copyValues (store.get diagonal)
      if !(shift == 0) then BlockMatrix.addDiagonal shift
      BlockMatrix.factor (R := R) : Update (BlockMatrix T) Unit).on (store.get factors) =
        (.ok (), f) := ⟨_, Prod.ext hok rfl⟩
  refine ⟨f, congrArg (store.set factors ·.2) hf, ?_⟩
  obtain ⟨_, f₁, hcopied, hrest⟩ := Update.on_bind_eq_ok hf
  have same := (BlockMatrix.copyValues_combined hfactors hdiagonal hcopied).pattern
  -- with or without a shift, what is factored has the pattern of the factors
  have hshifted : ∃ v f₂, f₂ = f₁.withValues v ∧ v.size = f₁.values.size ∧
      (BlockMatrix.factor (R := R)).on f₂ = (.ok (), f) := by
    by_cases hshift : shift = 0
    · have hunshifted : (BlockMatrix.factor (R := R)).on f₁ = (.ok (), f) := by
        simpa [hshift] using hrest
      exact ⟨f₁.values, f₁, rfl, rfl, hunshifted⟩
    · have hboth : (BlockMatrix.addDiagonal shift >>= fun _ =>
          BlockMatrix.factor (R := R)).on f₁ = (.ok (), f) := by
        simpa [hshift] using hrest
      obtain ⟨_, f₂, hadded, hfactor⟩ := Update.on_bind_eq_ok hboth
      obtain ⟨v, hf₂, hv⟩ := BlockMatrix.addDiagonal_spec hadded
      exact ⟨v, f₂, hf₂, hv, hfactor⟩
  obtain ⟨v, f₂, rfl, hv, hfactor⟩ := hshifted
  have hvalid : (f₁.withValues v).Valid := (same.valid hfactors).withValues hv
  obtain ⟨hfactored, -, v', rfl, -⟩ := BlockMatrix.factored_of_factor hvalid hfactor
  exact ⟨hfactored, same.rowCount_eq, same.blockSize_eq⟩

end Factor

end AdditiveSchwarz

end DomainDecomposition
