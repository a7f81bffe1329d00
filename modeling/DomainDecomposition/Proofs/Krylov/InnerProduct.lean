import DomainDecomposition.Krylov.InnerProduct
import DomainDecomposition.Proofs.Scalar.RealComplex
import Mathlib.Analysis.InnerProductSpace.PiL2

/-!
# Inner products in exact arithmetic

An array of `n` scalars is a point of the Euclidean space, and the sums that one rank forms are the
inner product and the squared norm of the points.

* `InnerProduct.dot_eq`: what is reduced of a product, and what is made of the sums,
* `point`: the array as a point,
* `inner_point`, `norm_point`: the product and the norm of two points.
-/

namespace DomainDecomposition

open scoped InnerProductSpace

variable {T R : Type}

namespace InnerProduct

section Parts

variable [Zero R] [Scalar T R]

/-- The parts of a product that are added up. -/
def parts (own : T) : Array R :=
  if Scalar.isComplex T then #[Scalar.re own, Scalar.im own] else #[Scalar.re own]

/-- A product from the sums of its parts. -/
def ofSums (sums : Array R) : T :=
  if Scalar.isComplex T then Scalar.ofParts (sums.getD 0 0) (sums.getD 1 0)
  else Scalar.ofReal (sums.getD 0 0)

lemma dot_eq [Zero T] [Add T] [Mul T] {m : Type → Type} [Monad m] [LawfulMonad m]
    (reduce : Array R → m (Array R)) (x y : Array T) :
    dot reduce x y = reduce (parts (ownDot x y)) >>= fun sums => pure (ofSums sums) := by
  by_cases h : Scalar.isComplex T
  · simp [dot, parts, ofSums, h]
  · simp [dot, parts, ofSums, h]

end Parts

variable {𝕜 : Type} [RCLike 𝕜]

/-- A scalar is put together from its own parts. -/
lemma ite_parts (v : 𝕜) :
    (if Scalar.isComplex 𝕜 then Scalar.ofParts (Scalar.re v) (Scalar.im v)
      else Scalar.ofReal (Scalar.re v)) = v := by
  by_cases h : (RCLike.I : 𝕜) = 0
  · have hv := RCLike.re_add_im v
    rw [h, mul_zero, add_zero] at hv
    simpa [Scalar.isComplex, Scalar.re, Scalar.ofReal, h] using hv
  · simp [Scalar.isComplex, Scalar.re, Scalar.im, Scalar.ofParts, h]

lemma ofSums_parts (v : 𝕜) : ofSums (parts v) = v := by
  refine Eq.trans ?_ (ite_parts v)
  by_cases h : Scalar.isComplex 𝕜
  · simp [ofSums, parts, h]
  · simp [ofSums, parts, h]

lemma ownDot_eq_sum (x y : Array 𝕜) :
    ownDot x y = (List.zipWith (fun a b => starRingEnd 𝕜 a * b) x.toList y.toList).sum := by
  rw [ownDot, ← Array.foldl_toList, Array.toList_zip, List.sum_eq_foldl,
    ← List.map_uncurry_zip_eq_zipWith, List.foldl_map]
  rfl

lemma ownNormSq_eq_sum (x : Array 𝕜) : ownNormSq x = (x.toList.map fun a => ‖a‖ ^ 2).sum := by
  rw [ownNormSq, ← Array.foldl_toList, List.sum_eq_foldl, List.foldl_map]
  congr 1
  funext sum a
  rw [← RCLike.normSq_eq_def']
  rfl

section Single

variable {m : Type → Type} [Monad m] [LawfulMonad m]

/-- A single process forms the products on its own. -/
lemma dot_pure (x y : Array 𝕜) : dot pure x y = (pure (ownDot x y) : m 𝕜) := by
  rw [dot_eq, pure_bind, ofSums_parts]

lemma norm_pure (x : Array 𝕜) : norm pure x = (pure √(ownNormSq x) : m ℝ) := by
  rw [norm, pure_bind]
  rfl

end Single

end InnerProduct

/-! ## Points -/

variable {𝕜 : Type} [RCLike 𝕜] {n : ℕ}

/-- The point whose coordinates are the entries of an array. -/
def point (n : ℕ) (x : Array 𝕜) : EuclideanSpace 𝕜 (Fin n) :=
  WithLp.toLp _ fun i => x.getD i 0

lemma point_apply {x : Array 𝕜} (size : x.size = n) (i : Fin n) : point n x i = x[i] := by
  simp [point, Array.getD, size]

/-- A point as an array. -/
def coordinates (v : EuclideanSpace 𝕜 (Fin n)) : Array 𝕜 :=
  Array.ofFn v

omit [RCLike 𝕜] in
@[simp]
lemma size_coordinates (v : EuclideanSpace 𝕜 (Fin n)) : (coordinates v).size = n :=
  Array.size_ofFn

@[simp]
lemma point_coordinates (v : EuclideanSpace 𝕜 (Fin n)) : point n (coordinates v) = v := by
  ext i
  rw [point_apply (size_coordinates v)]
  simp [coordinates]

lemma inner_point {x y : Array 𝕜} (hx : x.size = n) (hy : y.size = n) :
    ⟪point n x, point n y⟫_𝕜 = InnerProduct.ownDot x y := by
  have hlist : List.zipWith (fun a b => starRingEnd 𝕜 a * b) x.toList y.toList =
      List.ofFn fun i : Fin n => starRingEnd 𝕜 (point n x i) * point n y i := by
    refine List.ext_getElem (by simp [hx, hy]) fun i hi _ => ?_
    simp only [List.getElem_zipWith, List.getElem_ofFn, Array.getElem_toList, point_apply hx,
      point_apply hy]
    rfl
  rw [InnerProduct.ownDot_eq_sum, hlist, List.sum_ofFn, PiLp.inner_apply]
  simp only [RCLike.inner_apply']

lemma norm_point {x : Array 𝕜} (size : x.size = n) :
    ‖point n x‖ = √(InnerProduct.ownNormSq x) := by
  have hlist : x.toList.map (fun a => ‖a‖ ^ 2) = List.ofFn fun i : Fin n => ‖point n x i‖ ^ 2 := by
    refine List.ext_getElem (by simp [size]) fun i hi _ => ?_
    simp only [List.getElem_map, List.getElem_ofFn, Array.getElem_toList, point_apply size]
    rfl
  rw [InnerProduct.ownNormSq_eq_sum, hlist, List.sum_ofFn, EuclideanSpace.norm_eq]

/-- Entries are combined in the same way as coordinates. -/
lemma point_zipWith_apply {x y : Array 𝕜} (hx : x.size = n) (hy : y.size = n) (f : 𝕜 → 𝕜 → 𝕜)
    (i : Fin n) : point n (Array.zipWith f x y) i = f (point n x i) (point n y i) := by
  rw [point_apply (by simp [hx, hy]), point_apply hx, point_apply hy]
  exact Array.getElem_zipWith _

end DomainDecomposition
