import DomainDecomposition.Proofs.Krylov.Arnoldi
import DomainDecomposition.Proofs.Krylov.BackSubstitution

/-!
# The least squares problem of a cycle

After `k` steps there is an orthonormal family in which the images of the directions have the
columns of the cycle as coordinates, and the residual at the start has the right-hand side of the
cycle. So the coefficients that back substitution finds are the best ones.

* `Triangular`: what holds of a cycle whenever it ends,
* `Running`: what else holds between two steps,
* `Running.after`, `Running.grown`: a step,
* `Triangular.norm_sub_le`: no other combination of the directions has a smaller residual.
-/

namespace DomainDecomposition.Gmres

open scoped InnerProductSpace

variable {𝕜 : Type} [RCLike 𝕜] {n : ℕ}

section Push

variable {α : Type} {xs : Array α} {i : ℕ}

lemma getD_push_of_lt (hi : i < xs.size) (x default : α) :
    (xs.push x).getD i default = xs.getD i default := by
  rw [Array.getD_eq_getD_getElem?, Array.getElem?_push, if_neg hi.ne, Array.getD_eq_getD_getElem?]

lemma getD_push_of_eq (hi : i = xs.size) (x default : α) : (xs.push x).getD i default = x := by
  rw [Array.getD_eq_getD_getElem?, Array.getElem?_push, if_pos hi, Option.getD_some]

end Push

/-- Entry `(i, j)` of the triangular matrix. -/
def Cycle.entry (cycle : Cycle 𝕜 ℝ) (i j : ℕ) : 𝕜 :=
  (cycle.columns.getD j []).getD i 0

/-- Direction `j`. -/
def Cycle.direction (n : ℕ) (cycle : Cycle 𝕜 ℝ) (j : ℕ) : EuclideanSpace 𝕜 (Fin n) :=
  point n (cycle.directions.getD j #[])

section Invariants

variable (A : EuclideanSpace 𝕜 (Fin n) →ₗ[𝕜] EuclideanSpace 𝕜 (Fin n))
  (r : EuclideanSpace 𝕜 (Fin n)) (cycle : Cycle 𝕜 ℝ) (k : ℕ) (u : ℕ → EuclideanSpace 𝕜 (Fin n))

/-- After `k` steps, the images of the directions have triangular coordinates in an orthonormal
family. No diagonal entry vanishes, except perhaps the last one. -/
structure Triangular : Prop where
  directions : cycle.directions.size = k
  sizes : ∀ z ∈ cycle.directions, z.size = n
  columns : cycle.columns.size = k
  lengths : ∀ j < k, (cycle.columns.getD j []).length = j + 1
  frame : Frame 𝕜 k u
  images : ∀ j < k, A (cycle.direction n j) = ∑ i ∈ Finset.range k, cycle.entry i j • u i
  right : ∀ i < k, ⟪u i, r⟫_𝕜 = cycle.right.getD i 0
  pivots : ∀ i, i + 1 < k → cycle.entry i i ≠ 0

/-- A cycle that goes on after `k` steps. The basis and the family span the same space, and the
rotations lead from coordinates in the one to coordinates in the other. -/
structure Running : Prop extends Triangular A r cycle k u where
  basis : cycle.basis.size = k + 1
  basisSizes : ∀ v ∈ cycle.basis, v.size = n
  basisFrame : Frame 𝕜 (k + 1) (cycle.vector n)
  first : ∃ a : 𝕜, r = a • cycle.vector n 0
  rotations : cycle.rotations.size = k
  rightSize : cycle.right.size = k + 1
  wide : Frame 𝕜 (k + 1) u
  tail : ⟪u k, r⟫_𝕜 = cycle.right.getD k 0
  lastPivot : ∀ i < k, cycle.entry i i ≠ 0
  span : ∀ w, (∀ i < k + 1, ⟪cycle.vector n i, w⟫_𝕜 = 0) → ∀ i < k + 1, ⟪u i, w⟫_𝕜 = 0
  turned : ∀ es : List 𝕜, k + 1 ≤ es.length →
    ∑ i ∈ Finset.range (k + 1), es.getD i 0 • cycle.vector n i =
      ∑ i ∈ Finset.range (k + 1), (Rotation.applyAll cycle.rotations.toList es).getD i 0 • u i

end Invariants

variable {A : EuclideanSpace 𝕜 (Fin n) →ₗ[𝕜] EuclideanSpace 𝕜 (Fin n)}
  {r : EuclideanSpace 𝕜 (Fin n)} {cycle : Cycle 𝕜 ℝ} {k : ℕ} {u : ℕ → EuclideanSpace 𝕜 (Fin n)}

/-- Columns end with their diagonal entries. -/
lemma Triangular.entry_below (triangular : Triangular A r cycle k u) {i j : ℕ} (hj : j < k)
    (hij : j < i) : cycle.entry i j = 0 := by
  rw [Cycle.entry, List.getD_eq_getElem?_getD,
    List.getElem?_eq_none (by rw [triangular.lengths j hj]; omega), Option.getD_none]

/-! ## The start -/

lemma vector_start (x : Array 𝕜) (norm : ℝ) :
    (start x norm).vector n 0 = ((1 / norm : ℝ) : 𝕜) • point n x :=
  point_scaled _ x

/-- A cycle starts with the direction of its residual. -/
lemma running_start {x : Array 𝕜} (hx : x.size = n) (nonzero : point n x ≠ 0) :
    Running A (point n x) (start x ‖point n x‖) 0 ((start x ‖point n x‖).vector n) := by
  have hvector := vector_start (n := n) x ‖point n x‖
  have hresidual : (‖point n x‖ : 𝕜) • (start x ‖point n x‖).vector n 0 = point n x := by
    rw [hvector, norm_smul_normalized]
  have hframe : Frame 𝕜 1 ((start x ‖point n x‖).vector n) := by
    refine Frame.succ (fun i hi => absurd hi (Nat.not_lt_zero i))
      (fun i hi => absurd hi (Nat.not_lt_zero i)) ?_
    rw [hvector, inner_normalized nonzero]
  exact {
    directions := rfl
    sizes z hz := absurd hz (Array.not_mem_empty z)
    columns := rfl
    lengths j hj := absurd hj (Nat.not_lt_zero j)
    frame i hi := absurd hi (Nat.not_lt_zero i)
    images j hj := absurd hj (Nat.not_lt_zero j)
    right i hi := absurd hi (Nat.not_lt_zero i)
    pivots i hi := absurd hi (Nat.not_lt_zero _)
    basis := rfl
    basisSizes v hv := by
      obtain rfl : v = scaled (1 / ‖point n x‖) x := by simpa [start] using hv
      simpa [scaled] using hx
    basisFrame := hframe
    first := ⟨_, hresidual.symm⟩
    rotations := rfl
    rightSize := rfl
    wide := hframe
    tail := by
      have hone := hframe 0 Nat.one_pos 0 Nat.one_pos
      conv_lhs => rw [← hresidual]
      rw [inner_smul_right, hresidual, hone, if_pos rfl, mul_one]
      rfl
    lastPivot i hi := absurd hi (Nat.not_lt_zero i)
    span _ orthogonal := orthogonal
    turned es _ := by simp [start] }

/-! ## A step -/

section Step

variable {s : Stride 𝕜 ℝ}

/-- The direction of what is left, the next basis vector. It is zero if nothing is left. -/
noncomputable def Stride.normal (n : ℕ) (s : Stride 𝕜 ℝ) : EuclideanSpace 𝕜 (Fin n) :=
  ((1 / s.rest : ℝ) : 𝕜) • point n s.remainder

lemma Found.rest_smul_normal (found : Found A s) :
    (s.rest : 𝕜) • s.normal n = point n s.remainder := by
  rw [Stride.normal, found.rest, norm_smul_normalized]

lemma Found.inner_normal (found : Found A s) (nonzero : s.rest ≠ 0) :
    ⟪s.normal n, s.normal n⟫_𝕜 = 1 := by
  rw [Stride.normal, found.rest]
  exact inner_normalized (norm_ne_zero_iff.mp (found.rest ▸ nonzero))

namespace Running

/-- What is left is orthogonal to the whole family. -/
lemma across (running : Running A r s.cycle k u) (found : Found A s) :
    (∀ i < k + 1, ⟪s.cycle.vector n i, s.normal n⟫_𝕜 = 0) ∧
      ∀ i < k + 1, ⟪u i, s.normal n⟫_𝕜 = 0 := by
  have hbasis : ∀ i < k + 1, ⟪s.cycle.vector n i, s.normal n⟫_𝕜 = 0 := fun i hi => by
    rw [Stride.normal, inner_smul_right, found.orthogonal i (running.basis.symm ▸ hi), mul_zero]
  exact ⟨hbasis, running.span _ hbasis⟩

lemma inner_normal_residual (running : Running A r s.cycle k u) (found : Found A s) :
    ⟪s.normal n, r⟫_𝕜 = 0 := by
  obtain ⟨a, rfl⟩ := running.first
  have hzero := (running.across found).1 0 k.succ_pos
  rw [inner_smul_right, ← inner_conj_symm, hzero, map_zero, mul_zero]

lemma length_entries (running : Running A r s.cycle k u) (found : Found A s) :
    s.entries.length = k + 2 := by
  simp [Stride.entries, found.components, running.basis]

/-- The rotations so far do not reach the norm of what is left. -/
lemma entries_last (running : Running A r s.cycle k u) (found : Found A s) :
    s.entries.getD (k + 1) 0 = (s.rest : 𝕜) := by
  rw [Stride.entries, Rotation.getD_applyAll_of_lt _ _ (by simp [running.rotations])]
  simp [found.components, running.basis, Scalar.ofReal_exact]

lemma zeroed_eq (running : Running A r s.cycle k u) (found : Found A s) :
    s.zeroed = Rotation.zeroing (s.entries.getD k 0) (s.rest : 𝕜) := by
  rw [Stride.zeroed, Stride.pair, running.columns, running.entries_last found]

lemma unitary_zeroed : s.zeroed.1.Unitary :=
  Rotation.unitary_zeroing _ _

lemma apply_zeroed (running : Running A r s.cycle k u) (found : Found A s) :
    s.zeroed.1.apply (s.entries.getD k 0) (s.entries.getD (k + 1) 0) = (s.zeroed.2, 0) := by
  rw [running.entries_last found, running.zeroed_eq found, Rotation.apply_zeroing]

/-- If nothing is left, then the new rotation turns nothing. -/
lemma sine_zeroed (running : Running A r s.cycle k u) (found : Found A s) :
    s.zeroed.1.sine = 0 ∨ ⟪s.normal n, s.normal n⟫_𝕜 = 1 := by
  by_cases hrest : s.rest = 0
  · left
    rw [running.zeroed_eq found, hrest, RCLike.ofReal_zero, Rotation.zeroing_zero]
  · exact .inr (found.inner_normal hrest)

/-- The columns after a step. -/
lemma columns_after (running : Running A r s.cycle k u) :
    s.after.columns = s.cycle.columns.push (s.entries.take k ++ [s.zeroed.2]) := by
  rw [← running.columns]
  rfl

lemma column_after (running : Running A r s.cycle k u) :
    s.after.columns.getD k [] = s.entries.take k ++ [s.zeroed.2] := by
  rw [running.columns_after, getD_push_of_eq running.columns.symm]

lemma entry_after (running : Running A r s.cycle k u) (i : ℕ) {j : ℕ} (hj : j < k) :
    s.after.entry i j = s.cycle.entry i j := by
  rw [Cycle.entry, running.columns_after, getD_push_of_lt (hj.trans_eq running.columns.symm)]
  rfl

lemma entry_after_last (running : Running A r s.cycle k u) (found : Found A s) (i : ℕ) :
    s.after.entry i k =
      if i < k then s.entries.getD i 0 else if i = k then s.zeroed.2 else 0 := by
  have hlength := running.length_entries found
  have htake : (s.entries.take k).length = k := by simp [hlength]
  rw [Cycle.entry, running.column_after, List.getD_eq_getElem?_getD, List.getElem?_append, htake]
  by_cases hlt : i < k
  · simp [hlt, List.getD_eq_getElem?_getD]
  · by_cases heq : i = k
    · simp [heq]
    · simp [hlt, heq, show i - k ≠ 0 by omega]

/-- The right-hand side after a step. -/
lemma right_after (running : Running A r s.cycle k u) :
    s.after.right =
      (s.cycle.right.setIfInBounds k (s.zeroed.1.apply (s.cycle.right.getD k 0) 0).1).push
        (s.zeroed.1.apply (s.cycle.right.getD k 0) 0).2 := by
  rw [← running.columns]
  rfl

lemma getD_right_after (running : Running A r s.cycle k u) {i : ℕ} (hi : i ≤ k + 1) :
    s.after.right.getD i 0 =
      if i < k then s.cycle.right.getD i 0
      else if i = k then (s.zeroed.1.apply (s.cycle.right.getD k 0) 0).1
      else (s.zeroed.1.apply (s.cycle.right.getD k 0) 0).2 := by
  have hsize := running.rightSize
  rw [running.right_after, Array.getD_eq_getD_getElem?, Array.getElem?_push,
    Array.size_setIfInBounds, hsize, Array.getElem?_setIfInBounds]
  by_cases hlt : i < k
  · simp [hlt, hlt.ne', show i ≠ k + 1 by omega, Array.getD_eq_getD_getElem?]
  · by_cases heq : i = k
    · simp [heq, hsize]
    · obtain rfl : i = k + 1 := by omega
      simp

/-- The image of the new direction has the new column as coordinates. -/
lemma image_direction (running : Running A r s.cycle k u) (found : Found A s) :
    A (point n s.direction) =
      ∑ i ∈ Finset.range (k + 1), s.after.entry i k • s.zeroed.1.turnAt k (s.normal n) u i := by
  have hcomponents : A (point n s.direction) =
      ∑ i ∈ Finset.range (k + 1), (s.components ++ [(s.rest : 𝕜)]).getD i 0 • s.cycle.vector n i +
        point n s.remainder := by
    rw [found.image, running.basis]
    congr 1
    refine Finset.sum_congr rfl fun i hi => ?_
    have hlt : i < s.components.length := by
      rw [found.components, running.basis]
      exact Finset.mem_range.mp hi
    simp [List.getD_eq_getElem?_getD, List.getElem?_append_left hlt]
  have hlength : k + 1 ≤ (s.components ++ [(s.rest : 𝕜)]).length := by
    simp [found.components, running.basis]
  have hbelow : s.after.entry (k + 1) k = 0 := by simp [running.entry_after_last found]
  have hturn := Rotation.sum_turnAt (w := s.normal n) (u := u) (e := (s.entries.getD · 0))
    (f := (s.after.entry · k)) (unitary_zeroed (s := s))
    (fun i hi => by rw [running.entry_after_last found, if_pos hi])
    (by rw [running.entry_after_last found, if_neg (lt_irrefl k), if_pos rfl,
      running.apply_zeroed found])
    (by rw [running.apply_zeroed found, hbelow])
  rw [Finset.sum_range_succ, hbelow, zero_smul, add_zero, running.entries_last found] at hturn
  -- the old rotations do not touch the entry of the rest, and the new one turns it away
  rw [hcomponents, running.turned _ hlength, ← found.rest_smul_normal]
  exact hturn.symm

/-- The images of all directions, the new one included. An old column has no entry in the new row.
-/
lemma images_after (running : Running A r s.cycle k u) (found : Found A s) {j : ℕ}
    (hj : j < k + 1) :
    A (s.after.direction n j) =
      ∑ i ∈ Finset.range (k + 1), s.after.entry i j • s.zeroed.1.turnAt k (s.normal n) u i := by
  have hdirections : s.after.directions = s.cycle.directions.push s.direction := rfl
  rcases Nat.lt_succ_iff_lt_or_eq.mp hj with hlt | rfl
  · have hsame : s.after.direction n j = s.cycle.direction n j := by
      rw [Cycle.direction, hdirections, getD_push_of_lt (hlt.trans_eq running.directions.symm)]
      rfl
    have hzero : s.after.entry k j = 0 := by
      rw [running.entry_after k hlt, running.entry_below hlt hlt]
    rw [hsame, running.images j hlt, Finset.sum_range_succ, hzero, zero_smul, add_zero]
    refine Finset.sum_congr rfl fun i hi => ?_
    rw [running.entry_after i hlt, Rotation.turnAt_of_lt (Finset.mem_range.mp hi)]
  · have hlast : s.after.direction n j = point n s.direction := by
      rw [Cycle.direction, hdirections, getD_push_of_eq running.directions.symm]
    rw [hlast, running.image_direction found]

/-- When a cycle takes a step, its columns are triangular coordinates again. -/
lemma after (running : Running A r s.cycle k u) (found : Found A s) :
    Triangular A r s.after (k + 1) (s.zeroed.1.turnAt k (s.normal n) u) := by
  obtain ⟨hbasis, hfamily⟩ := running.across found
  have hdirections : s.after.directions = s.cycle.directions.push s.direction := rfl
  exact {
    directions := by simp [hdirections, running.directions]
    sizes z hz := by
      rcases Array.mem_push.mp (hdirections ▸ hz) with hold | rfl
      · exact running.sizes z hold
      · exact found.direction
    columns := by simp [running.columns_after, running.columns]
    lengths j hj := by
      rcases Nat.lt_succ_iff_lt_or_eq.mp hj with hlt | rfl
      · rw [running.columns_after, getD_push_of_lt (hlt.trans_eq running.columns.symm)]
        exact running.lengths j hlt
      · simp [running.column_after, running.length_entries found]
    frame := Rotation.frame_turnAt running.wide unitary_zeroed hfamily (running.sine_zeroed found)
    images _ hj := running.images_after found hj
    right i hi := by
      rw [running.getD_right_after (Nat.le_of_lt hi)]
      rcases Nat.lt_succ_iff_lt_or_eq.mp hi with hlt | rfl
      · rw [Rotation.turnAt_of_lt hlt, if_pos hlt, running.right i hlt]
      · rw [Rotation.turnAt_self, (Rotation.inner_turn r).1, running.tail,
          running.inner_normal_residual found, if_neg (lt_irrefl i), if_pos rfl]
    pivots i hi := by
      have hik := Nat.lt_of_succ_lt_succ hi
      rw [running.entry_after i hik]
      exact running.lastPivot i hik }

/-- The basis of the cycle that goes on. -/
lemma vector_grown (running : Running A r s.cycle k u) :
    (∀ i < k + 1, s.grown.vector n i = s.cycle.vector n i) ∧
      s.grown.vector n (k + 1) = s.normal n := by
  have hsize : s.cycle.basis.size = k + 1 := running.basis
  have hbasis : s.grown.basis = s.cycle.basis.push (scaled (1 / s.rest) s.remainder) := rfl
  constructor
  · intro i hi
    simp [Cycle.vector, hbasis, List.getD_eq_getElem?_getD, List.getElem?_append, hsize, hi]
  · rw [Stride.normal, ← point_scaled]
    simp [Cycle.vector, hbasis, List.getD_eq_getElem?_getD, hsize]

/-- What is orthogonal to the larger basis is orthogonal to the larger family. -/
lemma span_grown (running : Running A r s.cycle k u) {w : EuclideanSpace 𝕜 (Fin n)}
    (orthogonal : ∀ i < k + 2, ⟪s.grown.vector n i, w⟫_𝕜 = 0) {i : ℕ} (hi : i < k + 2) :
    ⟪s.zeroed.1.turnAt k (s.normal n) u i, w⟫_𝕜 = 0 := by
  obtain ⟨hold, hnew⟩ := running.vector_grown
  have hu : ∀ i < k + 1, ⟪u i, w⟫_𝕜 = 0 := running.span w fun i hi =>
    hold i hi ▸ orthogonal i (hi.trans (Nat.lt_succ_self _))
  have hw : ⟪s.normal n, w⟫_𝕜 = 0 := hnew ▸ orthogonal (k + 1) (Nat.lt_succ_self _)
  have hturned := Rotation.inner_turn (g := s.zeroed.1) (v := u k) (w := s.normal n) w
  simp only [hu k k.lt_succ_self, hw, Rotation.apply_exact, mul_zero, neg_zero,
    add_zero] at hturned
  rcases Nat.lt_succ_iff_lt_or_eq.mp hi with hlt | rfl
  · rcases Nat.lt_succ_iff_lt_or_eq.mp hlt with hik | rfl
    · rw [Rotation.turnAt_of_lt hik, hu i hlt]
    · rw [Rotation.turnAt_self, hturned.1]
  · rw [Rotation.turnAt_succ, hturned.2]

/-- The rotations lead from coordinates in the larger basis to coordinates in the larger family. -/
lemma turned_grown (running : Running A r s.cycle k u) {es : List 𝕜} (hes : k + 2 ≤ es.length) :
    ∑ i ∈ Finset.range (k + 2), es.getD i 0 • s.grown.vector n i =
      ∑ i ∈ Finset.range (k + 2), (Rotation.applyAll s.grown.rotations.toList es).getD i 0 •
        s.zeroed.1.turnAt k (s.normal n) u i := by
  obtain ⟨hold, hnew⟩ := running.vector_grown
  have hlength : s.cycle.rotations.toList.length = k := by simp [running.rotations]
  have hrotations : s.grown.rotations.toList = s.cycle.rotations.toList ++ [s.zeroed.1] :=
    Array.toList_push
  have happend := Rotation.getD_applyAll_append s.cycle.rotations.toList s.zeroed.1
    (hlength.symm ▸ hes)
  rw [hlength, ← hrotations] at happend
  have hnext : (Rotation.applyAll s.cycle.rotations.toList es).getD (k + 1) 0 = es.getD (k + 1) 0 :=
    Rotation.getD_applyAll_of_lt _ _ (hlength.trans_lt k.lt_succ_self)
  have hturn := Rotation.sum_turnAt (k := k) (w := s.normal n) (u := u)
    (e := ((Rotation.applyAll s.cycle.rotations.toList es).getD · 0))
    (f := ((Rotation.applyAll s.grown.rotations.toList es).getD · 0)) (unitary_zeroed (s := s))
    (fun i hi => by rw [happend, if_neg hi.ne, if_neg (by omega)])
    (by rw [happend, if_pos rfl])
    (by rw [happend, if_neg (Nat.succ_ne_self k), if_pos rfl])
  rw [hturn, Finset.sum_range_succ, hnew, ← running.turned es (by omega), hnext]
  congr 1
  exact Finset.sum_congr rfl fun i hi => by rw [hold i (Finset.mem_range.mp hi)]

/-- When something is left, the cycle goes on. -/
lemma grown (running : Running A r s.cycle k u) (found : Found A s) (nonzero : s.rest ≠ 0) :
    Running A r s.grown (k + 1) (s.zeroed.1.turnAt k (s.normal n) u) := by
  obtain ⟨hbasis, hfamily⟩ := running.across found
  obtain ⟨hold, hnew⟩ := running.vector_grown
  have hafter := running.after found
  have hunit := found.inner_normal nonzero
  have hcycleBasis : s.grown.basis = s.cycle.basis.push (scaled (1 / s.rest) s.remainder) := rfl
  have hrotations : s.grown.rotations = s.cycle.rotations.push s.zeroed.1 := rfl
  exact {
    directions := hafter.directions
    sizes := hafter.sizes
    columns := hafter.columns
    lengths := hafter.lengths
    frame := hafter.frame
    images := hafter.images
    right := hafter.right
    pivots := hafter.pivots
    basis := by simp [hcycleBasis, running.basis]
    basisSizes v hv := by
      rcases Array.mem_push.mp (hcycleBasis ▸ hv) with holds | rfl
      · exact running.basisSizes v holds
      · simp [scaled, found.remainder]
    basisFrame := by
      refine (running.basisFrame.congr hold).succ (fun i hi => ?_) ?_
      · rw [hold i hi, hnew, hbasis i hi]
      · rw [hnew, hunit]
    first := by
      obtain ⟨a, ha⟩ := running.first
      exact ⟨a, by rw [hold 0 k.succ_pos, ha]⟩
    rotations := by simp [hrotations, running.rotations]
    rightSize := by
      change s.after.right.size = k + 1 + 1
      simp [running.right_after, running.rightSize]
    wide := Rotation.frame_turnAt_succ running.wide unitary_zeroed hfamily hunit
    -- the new basis vector is orthogonal to the residual and adds nothing to the coordinate
    tail := by
      have hright := running.getD_right_after (Nat.le_refl (k + 1))
      rw [if_neg (by omega), if_neg (by omega)] at hright
      rw [Rotation.turnAt_succ, (Rotation.inner_turn r).2, running.tail,
        running.inner_normal_residual found]
      exact hright.symm
    -- the entry that the new rotation has zeroed is what is left, and that is not zero
    lastPivot i hi := by
      rcases Nat.lt_succ_iff_lt_or_eq.mp hi with hlt | rfl
      · exact hafter.pivots i (Nat.succ_lt_succ hlt)
      · change s.after.entry i i ≠ 0
        rw [running.entry_after_last found, if_neg (lt_irrefl i), if_pos rfl,
          running.zeroed_eq found]
        exact Rotation.corner_ne_zero _ (RCLike.ofReal_ne_zero.mpr nonzero)
    span _ orthogonal _ hi := running.span_grown orthogonal hi
    turned es hes := running.turned_grown hes }

end Running

end Step

/-! ## The end -/

namespace Triangular

/-- A row of the triangular system holds, or it has no entry at all: only the last diagonal entry
may vanish, and it is the only one of its row. -/
lemma rows (triangular : Triangular A r cycle k u) (i : ℕ) (hi : i < k) :
    ∑ j ∈ Finset.range k, cycle.entry i j * cycle.coefficients.getD j 0 = ⟪u i, r⟫_𝕜 ∨
      ∀ j < k, cycle.entry i j = 0 := by
  by_cases pivot : cycle.entry i i = 0
  · right
    intro j hj
    have hlast : ¬ i + 1 < k := fun hlt => triangular.pivots i hlt pivot
    rcases Nat.lt_or_eq_of_le (show j ≤ i by omega) with hlt | rfl
    · exact triangular.entry_below hj hlt
    · exact pivot
  · left
    have hrow := backSubstitution_row cycle.entry (cycle.right.getD · 0) hi pivot
    have hcoefficients : cycle.coefficients =
        backSubstitution cycle.entry (cycle.right.getD · 0) k := triangular.columns ▸ rfl
    have hbelow : ∑ j ∈ Finset.range i, cycle.entry i j * cycle.coefficients.getD j 0 = 0 :=
      Finset.sum_eq_zero fun j hj => by
        have hji := Finset.mem_range.mp hj
        rw [triangular.entry_below (hji.trans hi) hji, zero_mul]
    rw [triangular.right i hi, ← Finset.sum_range_add_sum_Ico _ hi.le, hbelow, zero_add,
      Finset.sum_eq_sum_Ico_succ_bot hi, hcoefficients]
    exact hrow

/-- No combination of the directions has a smaller residual than that of the cycle. -/
lemma norm_sub_le (triangular : Triangular A r cycle k u) (c : ℕ → 𝕜) :
    ‖r - ∑ j ∈ Finset.range k, cycle.coefficients.getD j 0 • A (cycle.direction n j)‖ ≤
      ‖r - ∑ j ∈ Finset.range k, c j • A (cycle.direction n j)‖ :=
  norm_sub_sum_le triangular.frame triangular.images triangular.rows c

/-- The solution is updated with all directions. -/
lemma point_update (triangular : Triangular A r cycle k u) {x : Array 𝕜} (hx : x.size = n) :
    (cycle.update x).size = n ∧
      point n (cycle.update x) = point n x +
        ∑ j ∈ Finset.range k, cycle.coefficients.getD j 0 • cycle.direction n j := by
  have hlength : cycle.coefficients.length = cycle.directions.toList.length := by
    have hsame : cycle.columns.size = cycle.directions.toList.length := by
      rw [triangular.columns, Array.length_toList, triangular.directions]
    exact (length_backSubstitution _ _ _).trans hsame
  have hsum := point_foldl_add_mul (fun z hz => triangular.sizes z (Array.mem_def.mpr hz)) hlength
    hx
  simpa [Cycle.direction, Cycle.update, triangular.directions, Array.getD_eq_getD_getElem?]
    using hsum

end Triangular

end DomainDecomposition.Gmres
