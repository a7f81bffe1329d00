import DomainDecomposition.Krylov.Rotation
import DomainDecomposition.Proofs.Scalar.RealComplex
import Mathlib.Tactic.FieldSimp
import Mathlib.Tactic.LinearCombination

/-!
# Plane rotations in exact arithmetic

A rotation is unitary when `c² + |s|² = 1`. The solver turns each new column by all rotations that
it has found so far, and then zeroes the entry below the diagonal with a new one.

* `unitary_zeroing`, `apply_zeroing`: the rotation that zeroes an entry, and where the pair goes,
* `getD_applyAll_append`: entries after one more rotation.
-/

namespace DomainDecomposition.Rotation

open scoped ComplexConjugate

section Exact

variable {𝕜 : Type} [RCLike 𝕜]

/-- A rotation keeps lengths and angles. -/
def Unitary (g : Rotation 𝕜 ℝ) : Prop :=
  (g.cosine : 𝕜) * g.cosine + g.sine * conj g.sine = 1

/-- A pair after a rotation. -/
lemma apply_exact (g : Rotation 𝕜 ℝ) (x y : 𝕜) :
    g.apply x y = (g.cosine * x + g.sine * y, -(conj g.sine * x) + g.cosine * y) :=
  rfl

/-- Nothing is turned if the entry is zero already. -/
lemma zeroing_zero (a : 𝕜) : zeroing a (0 : 𝕜) = (⟨1, 0⟩, a) :=
  if_pos (by simp [Scalar.modulus_exact])

lemma zero_zeroing {b : 𝕜} (hb : b ≠ 0) : zeroing (0 : 𝕜) b = (⟨0, 1⟩, b) := by
  simp [zeroing, Scalar.modulus_exact, hb]

/-- A pair of entries that are not zero is turned by its phase and its length. -/
lemma exists_zeroing_eq {a b : 𝕜} (ha : a ≠ 0) (hb : b ≠ 0) :
    ∃ r : ℝ, (r : 𝕜) ≠ 0 ∧ (r : 𝕜) * r = a * conj a + b * conj b ∧
      zeroing a b = (⟨‖a‖ / r, a * (1 / ‖a‖ : ℝ) * conj b * (1 / r : ℝ)⟩,
        a * (1 / ‖a‖ : ℝ) * (r : ℝ)) := by
  have hpos : 0 < ‖a‖ * ‖a‖ + ‖b‖ * ‖b‖ := by positivity
  refine ⟨√(‖a‖ * ‖a‖ + ‖b‖ * ‖b‖), ?_, ?_, ?_⟩
  · exact RCLike.ofReal_ne_zero.mpr (Real.sqrt_pos.mpr hpos).ne'
  · rw [← RCLike.ofReal_mul, Real.mul_self_sqrt hpos.le, RCLike.mul_conj, RCLike.mul_conj]
    push_cast
    ring
  · simp [zeroing, Scalar.modulus_exact, Scalar.ofReal_exact, Scalar.conj_exact,
      Magnitude.hypot_real, ha, hb]

lemma unitary_zeroing (a b : 𝕜) : (zeroing a b).1.Unitary := by
  by_cases hb : b = 0
  · simp [hb, zeroing_zero, Unitary]
  · by_cases ha : a = 0
    · simp [ha, zero_zeroing hb, Unitary]
    · obtain ⟨r, hr, hrr, heq⟩ := exists_zeroing_eq ha hb
      have hnorm : (‖a‖ : 𝕜) ≠ 0 := RCLike.ofReal_ne_zero.mpr (norm_ne_zero_iff.mpr ha)
      have hconj := RCLike.mul_conj a
      simp only [Unitary, heq, map_mul, RCLike.conj_ofReal, RCLike.conj_conj]
      push_cast
      field_simp
      -- without the fractions, all that is needed is `a * conj a = ‖a‖ ^ 2` and the square of `r`
      linear_combination (b * conj b - ‖a‖ ^ 2) * hconj - (‖a‖ : 𝕜) ^ 2 * hrr

lemma apply_zeroing (a b : 𝕜) : (zeroing a b).1.apply a b = ((zeroing a b).2, 0) := by
  by_cases hb : b = 0
  · simp [hb, zeroing_zero, apply_exact]
  · by_cases ha : a = 0
    · simp [ha, zero_zeroing hb, apply_exact]
    · obtain ⟨r, hr, hrr, heq⟩ := exists_zeroing_eq ha hb
      have hnorm : (‖a‖ : 𝕜) ≠ 0 := RCLike.ofReal_ne_zero.mpr (norm_ne_zero_iff.mpr ha)
      have hconj := RCLike.mul_conj a
      simp only [apply_exact, heq, map_mul, RCLike.conj_ofReal, RCLike.conj_conj]
      push_cast
      ext
      · field_simp
        linear_combination -hrr - hconj
      · field_simp
        linear_combination -b * hconj

lemma corner_ne_zero (a : 𝕜) {b : 𝕜} (hb : b ≠ 0) : (zeroing a b).2 ≠ 0 := by
  by_cases ha : a = 0
  · simp [ha, zero_zeroing hb, hb]
  · obtain ⟨r, hr, -, heq⟩ := exists_zeroing_eq ha hb
    simp [heq, ha, RCLike.ofReal_ne_zero.mp hr]

end Exact

/-! ## Columns -/

section Columns

variable {T R : Type} [Add T] [Mul T] [Neg T] [Scalar T R]

@[simp]
lemma applyAll_nil (es : List T) : applyAll ([] : List (Rotation T R)) es = es := by
  rw [applyAll]
  exact fun _ _ _ _ _ h _ => nomatch h

@[simp]
lemma applyAll_cons (g : Rotation T R) (gs : List (Rotation T R)) (x y : T) (rest : List T) :
    applyAll (g :: gs) (x :: y :: rest) =
      (g.apply x y).1 :: applyAll gs ((g.apply x y).2 :: rest) :=
  rfl

@[simp]
lemma length_applyAll (gs : List (Rotation T R)) (es : List T) :
    (applyAll gs es).length = es.length := by
  induction gs generalizing es with
  | nil => simp
  | cons g gs ih =>
    match es with
    | [] => rfl
    | [x] => rfl
    | x :: y :: rest => simp [ih]

variable [Zero T]

/-- Rotations leave the entries behind theirs alone. -/
lemma getD_applyAll_of_lt (gs : List (Rotation T R)) (es : List T) {i : ℕ} (hi : gs.length < i) :
    (applyAll gs es).getD i 0 = es.getD i 0 := by
  induction gs generalizing es i with
  | nil => simp
  | cons g gs ih =>
    match es with
    | [] => rfl
    | [x] => rfl
    | x :: y :: rest =>
      obtain ⟨k, rfl⟩ : ∃ k, i = k + 2 := ⟨i - 2, by simp at hi; omega⟩
      have hlt : gs.length < k + 1 := by simpa using hi
      exact (ih ((g.apply x y).2 :: rest) hlt)

/-- One more rotation turns the two entries behind those that the others have zeroed. -/
lemma getD_applyAll_append (gs : List (Rotation T R)) (g : Rotation T R) {es : List T}
    (hes : gs.length + 2 ≤ es.length) (i : ℕ) :
    (applyAll (gs ++ [g]) es).getD i 0 =
      if i = gs.length then
        (g.apply ((applyAll gs es).getD gs.length 0) ((applyAll gs es).getD (gs.length + 1) 0)).1
      else if i = gs.length + 1 then
        (g.apply ((applyAll gs es).getD gs.length 0) ((applyAll gs es).getD (gs.length + 1) 0)).2
      else (applyAll gs es).getD i 0 := by
  induction gs generalizing es i with
  | nil =>
    match es, i with
    | x :: y :: rest, 0 => rfl
    | x :: y :: rest, 1 => rfl
    | x :: y :: rest, i + 2 => simp
  | cons h gs ih =>
    match es, i with
    | x :: y :: rest, 0 => simp
    | x :: y :: rest, i + 1 =>
      have hrest : gs.length + 2 ≤ ((h.apply x y).2 :: rest).length := by simpa using hes
      simpa using ih hrest i

end Columns

end DomainDecomposition.Rotation
