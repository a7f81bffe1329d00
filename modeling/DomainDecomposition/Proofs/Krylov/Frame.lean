import DomainDecomposition.Proofs.Krylov.Rotation
import Mathlib.Analysis.InnerProductSpace.Basic

/-!
# Orthonormal vectors and least squares

A cycle keeps two orthonormal families that span the same space: the vectors of its basis, and those
that the rotations make of them. In the second family the images of the directions have triangular
coordinates.

* `Frame`: the first `k` vectors of a sequence are orthonormal,
* `Rotation.turn`: a pair of vectors after a rotation, and `smul_add_smul_turn`: a combination of
  the pair has rotated coefficients,
* `norm_sub_sum_le`: a combination that solves the triangular rows is the best one.
-/

namespace DomainDecomposition

open scoped InnerProductSpace ComplexConjugate

variable {𝕜 V : Type} [RCLike 𝕜] [NormedAddCommGroup V] [InnerProductSpace 𝕜 V]

variable (𝕜) in
/-- The first `k` vectors are orthonormal. -/
def Frame (k : ℕ) (u : ℕ → V) : Prop :=
  ∀ i < k, ∀ j < k, ⟪u i, u j⟫_𝕜 = if i = j then 1 else 0

/-- A vector is its length times its direction, also if it is zero. -/
lemma norm_smul_normalized (x : V) : (‖x‖ : 𝕜) • ((1 / ‖x‖ : ℝ) : 𝕜) • x = x := by
  by_cases hx : x = 0
  · rw [hx, smul_zero, smul_zero]
  · rw [smul_smul, ← RCLike.ofReal_mul, mul_one_div_cancel (norm_ne_zero_iff.mpr hx),
      RCLike.ofReal_one, one_smul]

lemma inner_normalized {x : V} (hx : x ≠ 0) :
    ⟪((1 / ‖x‖ : ℝ) : 𝕜) • x, ((1 / ‖x‖ : ℝ) : 𝕜) • x⟫_𝕜 = 1 := by
  have hnorm : ‖((1 / ‖x‖ : ℝ) : 𝕜) • x‖ = 1 := by
    rw [norm_smul, RCLike.norm_ofReal, abs_of_nonneg (by positivity),
      one_div_mul_cancel (norm_ne_zero_iff.mpr hx)]
  rw [inner_self_eq_norm_sq_to_K, hnorm, RCLike.ofReal_one, one_pow]

namespace Frame

variable {k : ℕ} {u : ℕ → V}

lemma mono {l : ℕ} (frame : Frame 𝕜 k u) (hl : l ≤ k) : Frame 𝕜 l u :=
  fun i hi j hj => frame i (hi.trans_le hl) j (hj.trans_le hl)

lemma congr {u' : ℕ → V} (frame : Frame 𝕜 k u) (same : ∀ i < k, u' i = u i) : Frame 𝕜 k u' := by
  intro i hi j hj
  rw [same i hi, same j hj]
  exact frame i hi j hj

/-- One more vector. -/
lemma succ (frame : Frame 𝕜 k u) (across : ∀ i < k, ⟪u i, u k⟫_𝕜 = 0)
    (unit : ⟪u k, u k⟫_𝕜 = 1) : Frame 𝕜 (k + 1) u := by
  intro i hi j hj
  rcases Nat.lt_succ_iff_lt_or_eq.mp hi with hik | rfl <;>
    rcases Nat.lt_succ_iff_lt_or_eq.mp hj with hjk | rfl
  · exact frame i hik j hjk
  · rw [across i hik, if_neg hik.ne]
  · rw [if_neg hjk.ne', ← inner_conj_symm, across j hjk, map_zero]
  · rw [unit, if_pos rfl]

/-- The coordinates of a combination. -/
lemma inner_combination (frame : Frame 𝕜 k u) {i : ℕ} (hi : i < k) (c : ℕ → 𝕜) :
    ⟪u i, ∑ j ∈ Finset.range k, c j • u j⟫_𝕜 = c i := by
  rw [inner_sum, Finset.sum_eq_single i]
  · rw [inner_smul_right, frame i hi i hi, if_pos rfl, mul_one]
  · intro j hj hji
    rw [inner_smul_right, frame i hi j (Finset.mem_range.mp hj), if_neg hji.symm, mul_zero]
  · exact fun hni => absurd (Finset.mem_range.mpr hi) hni

end Frame

/-! ## Rotations of vectors -/

namespace Rotation

variable (g : Rotation 𝕜 ℝ) (v w : V)

/-- A pair of vectors after a rotation. -/
def turn : V × V :=
  ((g.cosine : 𝕜) • v + conj g.sine • w, -(g.sine • v) + (g.cosine : 𝕜) • w)

variable {g v w}

/-- A combination of two vectors, with rotated vectors and rotated coefficients. -/
lemma smul_add_smul_turn (unitary : g.Unitary) (x y : 𝕜) :
    x • v + y • w = (g.apply x y).1 • (g.turn v w).1 + (g.apply x y).2 • (g.turn v w).2 := by
  have hone : (g.cosine : 𝕜) * g.cosine + g.sine * conj g.sine = 1 := unitary
  have hv : x = (g.cosine * x + g.sine * y) * g.cosine
      - (-(conj g.sine * x) + g.cosine * y) * g.sine := by
    linear_combination (-x) * hone
  have hw : y = (g.cosine * x + g.sine * y) * conj g.sine
      + (-(conj g.sine * x) + g.cosine * y) * g.cosine := by
    linear_combination (-y) * hone
  rw [apply_exact, turn]
  refine Eq.trans (congrArg₂ (fun x y : 𝕜 => x • v + y • w) hv hw) ?_
  module

/-- What is orthogonal to the pair stays orthogonal to it. -/
lemma inner_turn_eq_zero {x : V} (hv : ⟪x, v⟫_𝕜 = 0) (hw : ⟪x, w⟫_𝕜 = 0) :
    ⟪x, (g.turn v w).1⟫_𝕜 = 0 ∧ ⟪x, (g.turn v w).2⟫_𝕜 = 0 := by
  simp [turn, inner_add_right, inner_smul_right, hv, hw]

/-- A rotated pair is measured by rotated coordinates. -/
lemma inner_turn (x : V) :
    ⟪(g.turn v w).1, x⟫_𝕜 = (g.apply ⟪v, x⟫_𝕜 ⟪w, x⟫_𝕜).1 ∧
      ⟪(g.turn v w).2, x⟫_𝕜 = (g.apply ⟪v, x⟫_𝕜 ⟪w, x⟫_𝕜).2 := by
  simp [turn, apply_exact, inner_add_left, inner_smul_left]

/-- Products of a rotated pair of orthogonal vectors. -/
lemma inner_turn_turn (hv : ⟪v, v⟫_𝕜 = 1) (hvw : ⟪v, w⟫_𝕜 = 0) :
    ⟪(g.turn v w).1, (g.turn v w).1⟫_𝕜 =
        g.cosine * g.cosine + g.sine * conj g.sine * ⟪w, w⟫_𝕜 ∧
      ⟪(g.turn v w).1, (g.turn v w).2⟫_𝕜 = g.cosine * g.sine * (⟪w, w⟫_𝕜 - 1) ∧
      ⟪(g.turn v w).2, (g.turn v w).2⟫_𝕜 =
        g.sine * conj g.sine + g.cosine * g.cosine * ⟪w, w⟫_𝕜 := by
  have hwv : ⟪w, v⟫_𝕜 = 0 := by rw [← inner_conj_symm, hvw, map_zero]
  refine ⟨?_, ?_, ?_⟩ <;>
    simp only [turn, inner_add_left, inner_add_right, inner_neg_left, inner_neg_right,
      inner_smul_left, inner_smul_right, hv, hvw, hwv, RCLike.conj_ofReal, RCLike.conj_conj] <;>
    ring

/-- A sequence with the pair `u k`, `w` rotated, behind the first `k` vectors. -/
def turnAt (g : Rotation 𝕜 ℝ) (k : ℕ) (w : V) (u : ℕ → V) (i : ℕ) : V :=
  if i < k then u i else if i = k then (g.turn (u k) w).1 else (g.turn (u k) w).2

variable {k : ℕ} {u : ℕ → V}

lemma turnAt_of_lt {i : ℕ} (hi : i < k) : g.turnAt k w u i = u i :=
  if_pos hi

lemma turnAt_self : g.turnAt k w u k = (g.turn (u k) w).1 := by
  rw [turnAt, if_neg (lt_irrefl k), if_pos rfl]

lemma turnAt_succ : g.turnAt k w u (k + 1) = (g.turn (u k) w).2 := by
  rw [turnAt, if_neg (Nat.not_lt.mpr (Nat.le_succ k)), if_neg (Nat.succ_ne_self k)]

/-- A combination of the sequence has rotated coefficients. -/
lemma sum_turnAt (unitary : g.Unitary) {e f : ℕ → 𝕜} (same : ∀ i < k, f i = e i)
    (last : f k = (g.apply (e k) (e (k + 1))).1)
    (next : f (k + 1) = (g.apply (e k) (e (k + 1))).2) :
    ∑ i ∈ Finset.range (k + 2), f i • g.turnAt k w u i =
      ∑ i ∈ Finset.range (k + 1), e i • u i + e (k + 1) • w := by
  have hfirst : ∑ i ∈ Finset.range k, f i • g.turnAt k w u i =
      ∑ i ∈ Finset.range k, e i • u i := by
    refine Finset.sum_congr rfl fun i hi => ?_
    rw [same i (Finset.mem_range.mp hi), turnAt_of_lt (Finset.mem_range.mp hi)]
  rw [Finset.sum_range_succ, Finset.sum_range_succ, hfirst, Finset.sum_range_succ, turnAt_self,
    turnAt_succ, last, next, add_assoc, add_assoc, ← smul_add_smul_turn unitary]

/-- The rotated sequence is orthonormal up to the first vector of the pair, also if the other one is
zero and nothing is turned. -/
lemma frame_turnAt (frame : Frame 𝕜 (k + 1) u) (unitary : g.Unitary)
    (across : ∀ i < k + 1, ⟪u i, w⟫_𝕜 = 0) (unit : g.sine = 0 ∨ ⟪w, w⟫_𝕜 = 1) :
    Frame 𝕜 (k + 1) (g.turnAt k w u) := by
  refine ((frame.mono k.le_succ).congr fun i hi => turnAt_of_lt hi).succ (fun i hi => ?_) ?_
  · rw [turnAt_of_lt hi, turnAt_self]
    have hik : ⟪u i, u k⟫_𝕜 = 0 := by
      rw [frame i (hi.trans k.lt_succ_self) k k.lt_succ_self, if_neg hi.ne]
    exact (inner_turn_eq_zero hik (across i (hi.trans k.lt_succ_self))).1
  · have hk : ⟪u k, u k⟫_𝕜 = 1 := by rw [frame k k.lt_succ_self k k.lt_succ_self, if_pos rfl]
    have hone : (g.cosine : 𝕜) * g.cosine + g.sine * conj g.sine = 1 := unitary
    rw [turnAt_self, (inner_turn_turn hk (across k k.lt_succ_self)).1, ← hone]
    rcases unit with hzero | hw
    · rw [hzero, zero_mul, zero_mul]
    · rw [hw, mul_one]

/-- The whole rotated sequence is orthonormal. -/
lemma frame_turnAt_succ (frame : Frame 𝕜 (k + 1) u) (unitary : g.Unitary)
    (across : ∀ i < k + 1, ⟪u i, w⟫_𝕜 = 0) (unit : ⟪w, w⟫_𝕜 = 1) :
    Frame 𝕜 (k + 2) (g.turnAt k w u) := by
  have hk : ⟪u k, u k⟫_𝕜 = 1 := by rw [frame k k.lt_succ_self k k.lt_succ_self, if_pos rfl]
  obtain ⟨-, hcross, hself⟩ := inner_turn_turn (g := g) hk (across k k.lt_succ_self)
  refine (frame_turnAt frame unitary across (.inr unit)).succ (fun i hi => ?_) ?_
  · rw [turnAt_succ]
    rcases Nat.lt_succ_iff_lt_or_eq.mp hi with hlt | rfl
    · have hik : ⟪u i, u k⟫_𝕜 = 0 := by
        rw [frame i hi k k.lt_succ_self, if_neg hlt.ne]
      rw [turnAt_of_lt hlt]
      exact (inner_turn_eq_zero hik (across i hi)).2
    · rw [turnAt_self, hcross, unit, sub_self, mul_zero]
  · have hone : (g.cosine : 𝕜) * g.cosine + g.sine * conj g.sine = 1 := unitary
    rw [turnAt_succ, hself, unit, mul_one, add_comm, hone]

end Rotation

/-! ## Least squares -/

/-- What is orthogonal to all directions cannot be made shorter along them. -/
lemma norm_le_norm_add_sum {k : ℕ} {ρ : V} {w : ℕ → V}
    (orthogonal : ∀ j < k, ⟪w j, ρ⟫_𝕜 = 0) (c : ℕ → 𝕜) :
    ‖ρ‖ ≤ ‖ρ + ∑ j ∈ Finset.range k, c j • w j‖ := by
  have hsum : ⟪ρ, ∑ j ∈ Finset.range k, c j • w j⟫_𝕜 = 0 := by
    rw [inner_sum]
    refine Finset.sum_eq_zero fun j hj => ?_
    rw [inner_smul_right, ← inner_conj_symm, orthogonal j (Finset.mem_range.mp hj), map_zero,
      mul_zero]
  rw [mul_self_le_mul_self_iff (norm_nonneg _) (norm_nonneg _),
    norm_add_sq_eq_norm_sq_add_norm_sq_of_inner_eq_zero _ _ hsum]
  exact le_add_of_nonneg_right (mul_self_nonneg _)

/-- Triangular least squares: the directions have coordinates `h` in a frame, and each row of the
system holds, or has no coordinate at all. Then no combination of the directions comes closer. -/
lemma norm_sub_sum_le {k : ℕ} {u w : ℕ → V} (frame : Frame 𝕜 k u) {h : ℕ → ℕ → 𝕜}
    (coordinates : ∀ j < k, w j = ∑ i ∈ Finset.range k, h i j • u i) {r : V} {y : ℕ → 𝕜}
    (rows : ∀ i < k, ∑ j ∈ Finset.range k, h i j * y j = ⟪u i, r⟫_𝕜 ∨ ∀ j < k, h i j = 0)
    (c : ℕ → 𝕜) :
    ‖r - ∑ j ∈ Finset.range k, y j • w j‖ ≤ ‖r - ∑ j ∈ Finset.range k, c j • w j‖ := by
  have hentry : ∀ i < k, ∀ j < k, ⟪u i, w j⟫_𝕜 = h i j := fun i hi j hj => by
    rw [coordinates j hj, frame.inner_combination hi]
  have hrow : ∀ i < k, ⟪u i, r - ∑ j ∈ Finset.range k, y j • w j⟫_𝕜 =
      ⟪u i, r⟫_𝕜 - ∑ j ∈ Finset.range k, h i j * y j := by
    intro i hi
    rw [inner_sub_right, inner_sum]
    congr 1
    refine Finset.sum_congr rfl fun j hj => ?_
    rw [inner_smul_right, hentry i hi j (Finset.mem_range.mp hj), mul_comm]
  have horthogonal : ∀ j < k, ⟪w j, r - ∑ j ∈ Finset.range k, y j • w j⟫_𝕜 = 0 := by
    intro j hj
    rw [coordinates j hj, sum_inner]
    refine Finset.sum_eq_zero fun i hi => ?_
    have hik := Finset.mem_range.mp hi
    rw [inner_smul_left, hrow i hik]
    -- where the row does not hold, the direction has no coordinate that would meet the rest
    rcases rows i hik with hsolved | hnone
    · rw [hsolved, sub_self, mul_zero]
    · rw [hnone j hj, map_zero, zero_mul]
  have hsplit : r - ∑ j ∈ Finset.range k, c j • w j =
      (r - ∑ j ∈ Finset.range k, y j • w j) + ∑ j ∈ Finset.range k, (y j - c j) • w j := by
    simp only [sub_smul, Finset.sum_sub_distrib]
    abel
  rw [hsplit]
  exact norm_le_norm_add_sum horthogonal _

end DomainDecomposition
