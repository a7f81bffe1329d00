import DomainDecomposition.Proofs.BlockMatrix.Factor
import DomainDecomposition.Proofs.BlockMatrix.Sound

/-!
# The factorization stays within its arrays

What may fail once a factorization has begun is the inversion of a pivot, and then the row is
written all the same.

* `meets_factorRow`: one row,
* `meets_factor`, `meets_factorDiagonal`: how a factorization may end, and that it changes nothing
  but the values, or nothing but the cache.
-/

namespace DomainDecomposition

open Outcome

variable {T R : Type} {permitted : Error → Prop}

namespace BlockMatrix

variable {a f : BlockMatrix T} {i : ℕ}

section Factor

variable [Zero T] [One T] [Add T] [Sub T] [Mul T] [Div T] [BEq T]
variable [Zero R] [One R] [Neg R] [Mul R] [LT R] [DecidableLT R] [LE R] [DecidableLE R] [BEq R]
variable [Magnitude R] [Scalar T R]

/-- A row is written whether its pivot can be inverted or not. -/
lemma meets_factorRow (valid : f.Valid) (has : f.HasDiagonal) (hi : i < f.rowCount)
    (singular : permitted (.singularPivot i)) (same : SamePattern a f) :
    (factorRow (R := R) i).Meets permitted (SamePattern a) (fun _ => True) f := by
  obtain ⟨left, right, block, f', -, -, size, step, written⟩ := factorRow_on (R := R) valid has hi
  unfold Update.Meets
  rw [step]
  refine ⟨same.trans written.pattern, ?_⟩
  rcases Block.invert_result (R := R) i size with h | h
  · exact .of_eq_ok h trivial
  · exact .of_eq_error h singular

/-- A factorization succeeds, meets a singular pivot, or was not possible in the first place. -/
lemma meets_factor (valid : a.Valid)
    (missing : ¬a.HasDiagonal → permitted (.config .diagonalMissing))
    (crowded : ¬a.blockSize * a.blockSize < Capacity.limit → permitted .tooLarge)
    (singular : ∀ i, permitted (.singularPivot i)) :
    (factor (R := R)).Meets permitted (SamePattern a)
      (fun _ => a.HasDiagonal ∧ a.blockSize * a.blockSize < Capacity.limit) a := by
  rcases factor_cases (R := R) valid with ⟨lacking, failed⟩ | ⟨-, full, failed⟩ | ⟨has, room, pass⟩
  · unfold Update.Meets
    rw [failed]
    exact ⟨.refl a, missing lacking⟩
  · unfold Update.Meets
    rw [failed]
    exact ⟨.refl a, crowded full⟩
  unfold Update.Meets
  rw [pass]
  refine (Update.Meets.forM (.refl a) ?_).imp fun _ _ => ⟨has, room⟩
  intro i member f same
  have hi : i < f.rowCount := by
    obtain ⟨v, hv, rfl⟩ := same
    exact List.mem_range.mp member
  exact meets_factorRow (same.valid valid) (same.hasDiagonal has) hi (singular i) same

omit [Add T] in
/-- Every inverted block is appended to those before. -/
lemma meets_invertDiagonal (valid : a.Valid) (singular : ∀ i, permitted (.singularPivot i))
    {diagonal : List ℕ} (inside : ∀ k ∈ diagonal, k < a.columns.size) :
    Meets permitted (fun w => w.size = diagonal.length * (a.blockSize * a.blockSize))
      (a.invertDiagonal (R := R) diagonal) := by
  unfold invertDiagonal
  rw [← List.length_zipIdx (l := diagonal) (i := 0), ← Nat.zero_add (List.length _)]
  refine .foldlM_count (P := fun n (w : Array T) => w.size = n * (a.blockSize * a.blockSize))
    (by simp) ?_
  rintro ⟨k, i⟩ member n inverted hsize
  have hk := inside k (List.fst_mem_of_mem_zipIdx member)
  dsimp only
  rw [valid.view_block hk, ok_bind]
  have hblock := valid.size_storedBlock hk
  refine Meets.bind (Q := fun _ => True) ?_ fun _ _ => ?_
  · rcases Block.invert_result (R := R) i hblock with h | h
    · exact .of_eq_ok h trivial
    · exact .of_eq_error h (singular i)
  · change (_ ++ _ : Array T).size = _
    rw [Array.size_append, hsize, Block.size_invert hblock, Nat.succ_mul]

omit [Add T] in
/-- Inverting the diagonal fills the cache, or changes nothing. -/
lemma meets_factorDiagonal (valid : a.Valid)
    (missing : ¬a.HasDiagonal → permitted (.config .diagonalMissing))
    (singular : ∀ i, permitted (.singularPivot i)) :
    (factorDiagonal (R := R)).Meets permitted (fun f => f = a ∨
      a.rowCount = a.columnCount ∧ ∃ w, w.size = a.rowCount * (a.blockSize * a.blockSize) ∧
        f = { a with invertedDiagonal := w })
      (fun _ => True) a := by
  unfold factorDiagonal
  apply Update.Meets.get_bind
  apply Update.Meets.lift_bind (.inl rfl) (valid.meets_requireDiagonal missing)
  rintro _ ⟨rfl, has⟩
  apply Update.Meets.replace (.inl rfl)
  apply (meets_invertDiagonal valid singular fun _ => has.lt_of_mem_diagonal valid).bind
  intro w hw
  refine .inr ⟨has.square, w, ?_, rfl⟩
  rw [hw, Array.length_toList, has.size_diagonal]

end Factor

end BlockMatrix

end DomainDecomposition
