import DomainDecomposition.Block
import Mathlib.Algebra.BigOperators.Fin
import Mathlib.Data.Matrix.Mul

/-!
# Blocks as matrices

`Block.toMatrix b` reads an array as a `b × b` matrix and `Block.toVec b` as a vector of `b`
scalars. Over a ring the block kernels are the operations of Mathlib's matrices:

* `toMatrix_mul`, `toMatrix_accumulate`: products and updates of blocks,
* `toVec_mulVec`, `toVec_addMulVec`, `toVec_subMulVec`: products with vectors.

Nothing is assumed of the arrays that a product reads; an update needs a target of full size.
-/

namespace DomainDecomposition.Block

variable {T : Type}

/-! ## Reading -/

section Reading

variable [Zero T]

/-- The block as a matrix. -/
def toMatrix (b : ℕ) (a : Array T) : Matrix (Fin b) (Fin b) T :=
  fun r c => entry b a r c

/-- The array as a vector of `b` scalars. -/
def toVec (b : ℕ) (x : Array T) : Fin b → T :=
  fun l => x.getD l 0

lemma toMatrix_apply (b : ℕ) (a : Array T) (r c : Fin b) : toMatrix b a r c = entry b a r c :=
  rfl

lemma toVec_apply (b : ℕ) (x : Array T) (l : Fin b) : toVec b x l = x.getD l 0 :=
  rfl

/-- A position of a block stays below its size. -/
lemma position_lt {b r c : ℕ} (hr : r < b) (hc : c < b) : r * b + c < b * b :=
  calc r * b + c < (r + 1) * b := by rw [Nat.succ_mul]; omega
    _ ≤ b * b := Nat.mul_le_mul_right b hr

lemma toMatrix_ofEntries (b : ℕ) (f : ℕ → ℕ → T) :
    toMatrix b (ofEntries b f) = Matrix.of fun r c : Fin b => f r c := by
  ext r c
  exact entry_ofEntries f r.isLt c.isLt

lemma toMatrix_identity [One T] (b : ℕ) : toMatrix b (identity b : Array T) = 1 := by
  rw [identity, toMatrix_ofEntries]
  ext r c
  rw [Matrix.of_apply, Matrix.one_apply]
  simp only [Fin.ext_iff]

/-- An array of full size is determined by its vector. -/
lemma eq_of_toVec_eq {b : ℕ} {x y : Array T} (hx : x.size = b) (hy : y.size = b)
    (h : toVec b x = toVec b y) : x = y := by
  apply Array.ext (by rw [hx, hy])
  intro l hl hl'
  have hentry := congrFun h ⟨l, by omega⟩
  simpa [toVec_apply, Array.getD_eq_getD_getElem?, hl, hl'] using hentry

lemma size_zeros (n : ℕ) : (zeros n : Array T).size = n :=
  Array.size_replicate

@[simp]
lemma toVec_zeros (b n : ℕ) : toVec b (zeros n : Array T) = 0 := by
  funext l
  rw [toVec_apply, zeros, Array.getD_eq_getD_getElem?, Array.getElem?_replicate]
  split <;> rfl

end Reading

/-! ## Sums -/

lemma sumBelow_eq_sum [AddCommMonoid T] (n : ℕ) (f : ℕ → T) :
    sumBelow n f = ∑ i : Fin n, f i := by
  induction n with
  | zero => rfl
  | succ n ih =>
    rw [sumBelow, ih, Fin.sum_univ_castSucc]
    rfl

/-! ## Products with vectors -/

section Vectors

section Sizes

variable [Zero T] [Add T] [Mul T]

@[simp]
lemma size_mulVec (b : ℕ) (a x : Array T) : (mulVec b a x).size = b := by
  rw [mulVec, Array.size_ofFn]

lemma size_addMulVec {b : ℕ} (a x : Array T) {y : Array T} (hy : y.size = b) :
    (addMulVec b a x y).size = b := by
  rw [addMulVec, Array.size_zipWith, hy, size_mulVec, Nat.min_self]

lemma size_subMulVec [Sub T] {b : ℕ} (a x : Array T) {y : Array T} (hy : y.size = b) :
    (subMulVec b a x y).size = b := by
  rw [subMulVec, Array.size_zipWith, hy, size_mulVec, Nat.min_self]

end Sizes

variable [NonUnitalNonAssocSemiring T]

/-- A row that is cut because the vector is short loses only products with zero. -/
lemma sumBelow_min_size (b : ℕ) (x : Array T) (f : ℕ → T) :
    sumBelow (min b x.size) (fun l => f l * x.getD l 0) =
      sumBelow b fun l => f l * x.getD l 0 := by
  induction b with
  | zero => rw [Nat.zero_min]
  | succ b ih =>
    rcases Nat.lt_or_ge b x.size with h | h
    · rw [Nat.min_eq_left h]
    · have hshort : min (b + 1) x.size = min b x.size := by omega
      have hzero : x.getD b 0 = 0 := by
        rw [Array.getD_eq_getD_getElem?, Array.getElem?_eq_none h, Option.getD_none]
      rw [hshort, ih, sumBelow, hzero, mul_zero, add_zero]

lemma toVec_mulVec (b : ℕ) (a x : Array T) :
    toVec b (mulVec b a x) = (toMatrix b a).mulVec (toVec b x) := by
  funext r
  have hentry : toVec b (mulVec b a x) r =
      sumBelow (min b x.size) fun l => entry b a r l * x.getD l 0 := by
    simp [toVec_apply, mulVec, Array.getD_eq_getD_getElem?]
  rw [hentry, sumBelow_min_size, sumBelow_eq_sum]
  rfl

/-- Entries of a combination of two arrays of full size. -/
lemma toVec_zipWith (f : T → T → T) {b : ℕ} {x y : Array T} (hx : x.size = b) (hy : y.size = b)
    (l : Fin b) : toVec b (Array.zipWith f x y) l = f (toVec b x l) (toVec b y l) := by
  have hlx : l.val < x.size := by omega
  have hly : l.val < y.size := by omega
  simp [toVec_apply, Array.getD_eq_getD_getElem?, hlx, hly]

lemma toVec_addMulVec {b : ℕ} (a x : Array T) {y : Array T} (hy : y.size = b) :
    toVec b (addMulVec b a x y) = toVec b y + (toMatrix b a).mulVec (toVec b x) := by
  funext r
  rw [addMulVec, toVec_zipWith _ hy (size_mulVec b a x), toVec_mulVec]
  rfl

end Vectors

lemma toVec_subMulVec [NonUnitalNonAssocRing T] {b : ℕ} (a x : Array T) {y : Array T}
    (hy : y.size = b) :
    toVec b (subMulVec b a x y) = toVec b y - (toMatrix b a).mulVec (toVec b x) := by
  funext r
  rw [subMulVec, toVec_zipWith _ hy (size_mulVec b a x), toVec_mulVec]
  rfl

/-! ## Products of blocks -/

@[simp]
lemma size_mul [Zero T] [Add T] [Mul T] (b : ℕ) (a c : Array T) :
    (mul b a c).size = b * b := by
  rw [mul, size_ofEntries]

lemma toMatrix_mul [NonUnitalNonAssocSemiring T] (b : ℕ) (a c : Array T) :
    toMatrix b (mul b a c) = toMatrix b a * toMatrix b c := by
  rw [mul, toMatrix_ofEntries]
  ext r k
  rw [Matrix.of_apply, sumBelow_eq_sum, Matrix.mul_apply]
  rfl

lemma size_accumulate [Zero T] [Add T] [Sub T] [Mul T] (b : ℕ) (scale : Scale T) (a c : Array T)
    {d : Array T} (hd : d.size = b * b) : (accumulate b scale a c d).size = b * b := by
  rw [accumulate, Array.size_zipWith, hd, size_mul, Nat.min_self]

/-! ## Multipliers -/

namespace Scale

/-- The number that a multiplier stands for. -/
def factor [One T] [Neg T] : Scale T → T
  | plus => 1
  | minus => -1
  | times alpha => alpha

/-- The cheapest form of a multiplier stands for it. -/
lemma factor_of [One T] [Neg T] [BEq T] [LawfulBEq T] (alpha : T) : (of alpha).factor = alpha := by
  unfold of
  split
  case isTrue one => exact (eq_of_beq one).symm
  case isFalse =>
    split
    case isTrue minusOne => exact (eq_of_beq minusOne).symm
    case isFalse => rfl

/-- Every form of a multiplier adds the multiple of the increment. -/
lemma combine_eq [Ring T] (scale : Scale T) (old increment : T) :
    scale.combine old increment = old + scale.factor * increment := by
  cases scale with
  | plus => rw [combine, factor, one_mul]
  | minus => rw [combine, factor, neg_one_mul, sub_eq_add_neg]
  | times alpha => rfl

end Scale

lemma toMatrix_accumulate [Ring T] (b : ℕ) (scale : Scale T) (a c : Array T) {d : Array T}
    (hd : d.size = b * b) :
    toMatrix b (accumulate b scale a c d) =
      toMatrix b d + scale.factor • (toMatrix b a * toMatrix b c) := by
  rw [← toMatrix_mul]
  ext r k
  have hk := position_lt r.isLt k.isLt
  have hkd : r.val * b + k.val < d.size := by rw [hd]; exact hk
  have hkp : r.val * b + k.val < (mul b a c).size := by rw [size_mul]; exact hk
  rw [Matrix.add_apply, Matrix.smul_apply, smul_eq_mul, toMatrix_apply, toMatrix_apply,
    toMatrix_apply, ← scale.combine_eq]
  simp only [entry, accumulate, Array.getD_eq_getD_getElem?, Array.getElem?_zipWith,
    Array.getElem?_eq_getElem hkd, Array.getElem?_eq_getElem hkp]
  rfl

end DomainDecomposition.Block
