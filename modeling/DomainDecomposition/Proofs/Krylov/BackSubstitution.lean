import DomainDecomposition.Krylov.Rotation
import DomainDecomposition.Proofs.Scalar.Rational
import Mathlib.Algebra.BigOperators.Intervals

/-!
# Back substitution

The unknowns of a triangular system are found from the last one to the first one, and each of them
is made of those behind it.

* `length_backSubstitution`, `getD_backSubstitution`: as many unknowns as rows, each from those
  behind,
* `backSubstitution_congr`: only the leading entries on and above the diagonal matter,
* `backSubstitution_row`: a row with a diagonal entry that is not zero holds,
* `backSubstitution_eq_zero`: the unknown of any other row is zero,
* `backSubstitution_guarded`: so the rows in front of a last one that is zero are solved exactly.
-/

namespace DomainDecomposition

variable {T R : Type}

section Unknowns

variable [Zero T] [Sub T] [Mul T] [Div T] [Zero R] [LT R] [DecidableLT R] [Scalar T R]
variable (h : ℕ → ℕ → T) (g : ℕ → T)

lemma length_solveUnknowns (i : ℕ) (known : List T) :
    (solveUnknowns h g i known).length = i + known.length := by
  induction i generalizing known with
  | zero => rw [solveUnknowns, Nat.zero_add]
  | succ i ih => rw [solveUnknowns, ih, List.length_cons, Nat.add_right_comm, Nat.add_assoc]

lemma drop_solveUnknowns (i : ℕ) (known : List T) :
    (solveUnknowns h g i known).drop i = known := by
  induction i generalizing known with
  | zero => rfl
  | succ i ih => rw [solveUnknowns, ← List.drop_drop, ih, List.drop_one, List.tail_cons]

/-- Each unknown is made of those behind it. -/
lemma getD_solveUnknowns {i j : ℕ} (hj : j < i) (known : List T) :
    (solveUnknowns h g i known).getD j 0 =
      solveUnknown h g j ((solveUnknowns h g i known).drop (j + 1)) := by
  induction i generalizing known with
  | zero => exact absurd hj (Nat.not_lt_zero j)
  | succ i ih =>
    rcases Nat.lt_succ_iff_lt_or_eq.mp hj with hlt | rfl
    · exact ih hlt _
    · rw [drop_solveUnknowns, solveUnknowns, List.getD_eq_getElem?_getD, ← List.head?_drop,
        drop_solveUnknowns, List.head?_cons, Option.getD_some]

@[simp]
lemma length_backSubstitution (m : ℕ) : (backSubstitution h g m).length = m :=
  length_solveUnknowns h g m []

lemma getD_backSubstitution {m i : ℕ} (hi : i < m) :
    (backSubstitution h g m).getD i 0 =
      solveUnknown h g i ((backSubstitution h g m).drop (i + 1)) :=
  getD_solveUnknowns h g hi []

variable {h g} {h' : ℕ → ℕ → T} {g' : ℕ → T}

/-- An unknown is made of its row from the diagonal on, as far as there are unknowns behind. -/
lemma solveUnknown_congr {i : ℕ} {behind : List T}
    (row : ∀ j, i ≤ j → j ≤ i + behind.length → h' i j = h i j) (right : g' i = g i) :
    solveUnknown h' g' i behind = solveUnknown h g i behind := by
  unfold solveUnknown
  rw [right, row i le_rfl (Nat.le_add_right _ _)]
  dsimp only
  congr 2
  refine List.foldl_ext _ _ _ ?_
  rintro s ⟨y, j⟩ hj
  obtain ⟨hlow, hhigh, -⟩ := List.mem_zipIdx hj
  show s - h' i j * y = s - h i j * y
  rw [row j (by omega) (by omega)]

lemma solveUnknowns_congr {i : ℕ} {known : List T}
    (rows : ∀ k < i, ∀ j, k ≤ j → j < i + known.length → h' k j = h k j)
    (right : ∀ k < i, g' k = g k) : solveUnknowns h' g' i known = solveUnknowns h g i known := by
  induction i generalizing known with
  | zero => rfl
  | succ i ih =>
    have hfirst : solveUnknown h' g' i known = solveUnknown h g i known :=
      solveUnknown_congr (fun j low high => rows i (Nat.lt_succ_self i) j low (by omega))
        (right i (Nat.lt_succ_self i))
    rw [solveUnknowns, solveUnknowns, hfirst]
    refine ih (fun k hk j low high => rows k (by omega) j low ?_) fun k hk => right k (by omega)
    rw [List.length_cons] at high
    omega

/-- Entries below the diagonal or outside the leading rows and columns do not matter. -/
lemma backSubstitution_congr {m : ℕ} (rows : ∀ i j, i ≤ j → j < m → h' i j = h i j)
    (right : ∀ i < m, g' i = g i) : backSubstitution h' g' m = backSubstitution h g m :=
  solveUnknowns_congr (fun k _ j low high => rows k j low high) right

end Unknowns

section Rows

/-- The products with the unknowns behind are subtracted one after the other. -/
lemma foldl_sub_zipIdx [Ring T] (h : ℕ → T) (behind : List T) (i : ℕ) (s : T) :
    (behind.zipIdx i).foldl (fun s (y, j) => s - h j * y) s =
      s - ∑ k ∈ Finset.range behind.length, h (i + k) * behind.getD k 0 := by
  induction behind generalizing i s with
  | nil => simp
  | cons y behind ih =>
    rw [List.zipIdx_cons, List.foldl_cons, ih, List.length_cons, Finset.sum_range_succ', sub_sub]
    congr 1
    simp [add_comm, add_left_comm]

variable [Field T] [Field R] [LinearOrder R] [IsStrictOrderedRing R] [Scalar T R] [ExactScalar T R]
variable (h : ℕ → ℕ → T) (g : ℕ → T) {m i : ℕ}

lemma backSubstitution_eq_zero (hi : i < m) (pivot : h i i = 0) :
    (backSubstitution h g m).getD i 0 = 0 := by
  have hzero : (Scalar.modulus (h i i) : R) = 0 := (ExactScalar.modulus_eq_zero _).mpr pivot
  rw [getD_backSubstitution h g hi, solveUnknown, hzero, if_neg (lt_irrefl _)]

/-- A row that can be divided by its diagonal entry holds. -/
theorem backSubstitution_row (hi : i < m) (pivot : h i i ≠ 0) :
    h i i * (backSubstitution h g m).getD i 0 +
      ∑ j ∈ Finset.Ico (i + 1) m, h i j * (backSubstitution h g m).getD j 0 = g i := by
  have hpos : (0 : R) < Scalar.modulus (h i i) :=
    (ExactScalar.modulus_nonneg _).lt_of_ne'
      fun hzero => pivot ((ExactScalar.modulus_eq_zero _).mp hzero)
  -- the unknowns behind are listed from zero on, and the columns from `i + 1` on
  have hsum : ∑ k ∈ Finset.range ((backSubstitution h g m).drop (i + 1)).length,
      h i (i + 1 + k) * ((backSubstitution h g m).drop (i + 1)).getD k 0 =
      ∑ j ∈ Finset.Ico (i + 1) m, h i j * (backSubstitution h g m).getD j 0 := by
    rw [Finset.sum_Ico_eq_sum_range, List.length_drop, length_backSubstitution]
    refine Finset.sum_congr rfl fun k _ => ?_
    rw [List.getD_eq_getElem?_getD, List.getElem?_drop, ← List.getD_eq_getElem?_getD]
  rw [getD_backSubstitution h g hi, solveUnknown, foldl_sub_zipIdx (h i), if_pos hpos, hsum,
    mul_div_cancel₀ _ pivot, sub_add_cancel]

/-- Every row with a pivot is solved, and the unknown of a row without one is zero. So when only the
last pivot of all is missing, the rows in front of it are solved without its unknown. Nothing but
the leading entries on and above the diagonal has any influence. -/
theorem backSubstitution_guarded (m : ℕ) :
    (backSubstitution h g m).length = m ∧
    (∀ i < m, h i i ≠ 0 → h i i * (backSubstitution h g m).getD i 0 +
      ∑ j ∈ Finset.Ico (i + 1) m, h i j * (backSubstitution h g m).getD j 0 = g i) ∧
    (∀ i < m, h i i = 0 → (backSubstitution h g m).getD i 0 = 0) ∧
    (∀ k, m = k + 1 → h k k = 0 → (∀ i < k, h i i ≠ 0) → ∀ i < k,
      ∑ j ∈ Finset.Ico i k, h i j * (backSubstitution h g m).getD j 0 = g i) ∧
    ∀ (h' : ℕ → ℕ → T) (g' : ℕ → T), (∀ i j, i ≤ j → j < m → h' i j = h i j) →
      (∀ i < m, g' i = g i) → backSubstitution h' g' m = backSubstitution h g m := by
  refine ⟨length_backSubstitution h g m, fun i hi => backSubstitution_row h g hi,
    fun i hi => backSubstitution_eq_zero h g hi, ?_,
    fun _ _ rows right => backSubstitution_congr rows right⟩
  rintro k rfl last pivots i hi
  have hlast := backSubstitution_eq_zero h g (Nat.lt_succ_self k) last
  have hrow := backSubstitution_row h g (Nat.lt_succ_of_lt hi) (pivots i hi)
  rw [Finset.sum_Ico_succ_top hi, hlast, mul_zero, add_zero] at hrow
  rw [Finset.sum_eq_sum_Ico_succ_bot hi, hrow]

end Rows

/-! ### A last pivot that is zero -/

/-- Rows `(2, 1, 7)`, `(0, 3, 5)` and `(0, 0, 0)`, with an entry below the diagonal and one outside.
-/
def pivotless (i j : ℕ) : ℚ :=
  ([[2, 1, 7, 0], [9, 3, 5, 8], [0, 0, 0, 0]].getD i []).getD j 0

/-- The unknowns `(1, 2, 0)` solve the first two rows, whatever the right-hand side of the last one,
and the entry below the diagonal might as well be zero. -/
theorem pivotless_backSubstitution :
    pivotless 2 2 = 0 ∧ (∀ i < 2, pivotless i i ≠ 0) ∧
    backSubstitution pivotless (fun i => [4, 6, 1].getD i 0) 3 = [1, 2, 0] ∧
    (∀ i < 2, ∑ j ∈ Finset.Ico i 2, pivotless i j * [1, 2, 0].getD j 0 =
      [4, 6, 1].getD i (0 : ℚ)) ∧
    backSubstitution (fun i j => if i ≤ j then pivotless i j else 0)
      (fun i => [4, 6, 1].getD i 0) 3 = [1, 2, 0] := by
  have hlast : pivotless 2 2 = 0 := rfl
  have hpivots : ∀ i < 2, pivotless i i ≠ 0 := by decide
  have hunknowns : backSubstitution pivotless (fun i => [4, 6, 1].getD i 0) 3 = [1, 2, 0] := by
    decide +kernel
  obtain ⟨-, -, -, solved, same⟩ :=
    backSubstitution_guarded pivotless (fun i => [4, 6, 1].getD i 0) 3
  refine ⟨hlast, hpivots, hunknowns, ?_, ?_⟩
  · rw [← hunknowns]
    exact solved 2 rfl hlast hpivots
  · rw [← hunknowns]
    exact same _ _ (fun i j low _ => if_pos low) fun _ _ => rfl

end DomainDecomposition
