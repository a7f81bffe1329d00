import DomainDecomposition.Capacity
import DomainDecomposition.Scalar
import DomainDecomposition.Span
import DomainDecomposition.Update

/-!
# Dense square blocks

A block of size `b` is an array of `b * b` scalars, row by row. Sums run over the inner index from
zero on, starting at zero, and are never regrouped.

* `mulVec`, `addMulVec`, `subMulVec`: product with a vector of `b` scalars,
* `mul`, `accumulate`: product of two blocks, and its scaled sum onto a third,
* `invert`: inversion in place by Gauss–Jordan elimination with row pivoting.
-/

namespace DomainDecomposition.Block

variable {T R : Type}

/-! ## Entries and sums -/

/-- `0 + f 0 + ⋯ + f (n - 1)`, from the left. -/
def sumBelow [Zero T] [Add T] : Nat → (Nat → T) → T
  | 0, _ => 0
  | n + 1, f => sumBelow n f + f n

/-- Entry at row `r` and column `c`. -/
def entry [Zero T] (b : Nat) (a : Array T) (r c : Nat) : T :=
  a.getD (r * b + c) 0

/-- The block with the given entries. -/
def ofEntries (b : Nat) (f : Nat → Nat → T) : Array T :=
  Array.ofFn (n := b * b) fun k => f (k.val / b) (k.val % b)

@[simp]
theorem size_ofEntries (b : Nat) (f : Nat → Nat → T) : (ofEntries b f).size = b * b := by
  simp [ofEntries]

theorem entry_ofEntries [Zero T] {b r c : Nat} (f : Nat → Nat → T) (hr : r < b) (hc : c < b) :
    entry b (ofEntries b f) r c = f r c := by
  have inside : r * b + c < b * b :=
    calc r * b + c < (r + 1) * b := by rw [Nat.succ_mul]; omega
      _ ≤ b * b := Nat.mul_le_mul_right b hr
  have row : (r * b + c) / b = r := by
    rw [Nat.mul_comm, Nat.mul_add_div (by omega), Nat.div_eq_of_lt hc, Nat.add_zero]
  have column : (r * b + c) % b = c := by
    rw [Nat.mul_comm, Nat.mul_add_mod, Nat.mod_eq_of_lt hc]
  simp [entry, ofEntries, Array.getD_eq_getD_getElem?, inside, row, column]

/-- `n` zeros. -/
def zeros [Zero T] (n : Nat) : Array T :=
  Array.replicate n 0

/-- `n` zeros, unless no array holds that many. -/
def allocate [Zero T] (n : Nat) : Except Error (Array T) := do
  Capacity.reserve n
  return zeros n

/-- The unit block. -/
def identity [Zero T] [One T] (b : Nat) : Array T :=
  ofEntries b fun r c => if r = c then 1 else 0

/-! ## Products -/

section Products

variable [Zero T] [Add T] [Mul T]

/-- `a · x`. Where `x` is shorter than a row, the row is cut. -/
def mulVec (b : Nat) (a x : Array T) : Array T :=
  Array.ofFn (n := b) fun r => sumBelow (min b x.size) fun l => entry b a r l * x.getD l 0

/-- `y + a · x`. -/
def addMulVec (b : Nat) (a x y : Array T) : Array T :=
  Array.zipWith (· + ·) y (mulVec b a x)

/-- `y - a · x`. -/
def subMulVec [Sub T] (b : Nat) (a x y : Array T) : Array T :=
  Array.zipWith (· - ·) y (mulVec b a x)

/-- `a · c`. -/
def mul (b : Nat) (a c : Array T) : Array T :=
  ofEntries b fun r k => sumBelow b fun l => entry b a r l * entry b c l k

end Products

/-- Multiplier of an accumulated product. One and minus one need no multiplication. -/
inductive Scale (T : Type) where
  | plus
  | minus
  | times (alpha : T)

namespace Scale

/-- The cheapest form of the multiplier `alpha`. -/
def of [One T] [Neg T] [BEq T] (alpha : T) : Scale T :=
  if alpha == 1 then plus else if alpha == -1 then minus else times alpha

/-- `old` plus the multiple of `increment`. -/
def combine [Add T] [Sub T] [Mul T] (scale : Scale T) (old increment : T) : T :=
  match scale with
  | plus => old + increment
  | minus => old - increment
  | times alpha => old + alpha * increment

end Scale

/-- `d` plus the multiple of `a · c`. -/
def accumulate [Zero T] [Add T] [Sub T] [Mul T] (b : Nat) (scale : Scale T) (a c d : Array T) :
    Array T :=
  Array.zipWith scale.combine d (mul b a c)

/-! ## Inversion -/

section Inversion

variable [Zero T] [One T] [Sub T] [Mul T] [Div T] [BEq T]

/-- Rows `p` and `c` exchanged. -/
def swapRows (b : Nat) (m : Array T) (p c : Nat) : Array T :=
  ofEntries b fun r k => entry b m (if r = p then c else if r = c then p else r) k

/-- Row `c` times `factor`. -/
def scaleRow (b : Nat) (m : Array T) (c : Nat) (factor : T) : Array T :=
  ofEntries b fun r k => if r = c then entry b m r k * factor else entry b m r k

/-- `factor r` times row `c`, subtracted from every other row `r` whose factor is not zero. -/
def subtractRow (b : Nat) (m : Array T) (c : Nat) (factor : Nat → T) : Array T :=
  ofEntries b fun r k =>
    if r = c || factor r == 0 then entry b m r k else entry b m r k - factor r * entry b m c k

variable [Zero R] [One R] [Neg R] [Mul R] [LT R] [DecidableLT R] [LE R] [DecidableLE R] [BEq R]
variable [Magnitude R] [Scalar T R]

/-- First row from `c` on whose entry in column `c` has the largest modulus, and that modulus. -/
def pivot (b : Nat) (m : Array T) (c : Nat) : Nat × R :=
  (List.range' c (b - c)).foldl (fun best r =>
    let size := Scalar.modulus (entry b m r c)
    if best.2 < size then (r, size) else best) (c, -1)

/-- Clear the listed columns of `m`, doing the same row operations to `inverse`. A pivot of
modulus zero or at most `tolerance` stops the elimination. -/
def clearColumns (b row : Nat) (tolerance : R) :
    List Nat → Array T → Array T → Except Error Unit × Array T
  | [], _, inverse => (.ok (), inverse)
  | c :: cs, m, inverse =>
    let (p, size) := pivot b m c
    if size == 0 || size ≤ tolerance then (.error (.singularPivot row), inverse)
    else
      let m := swapRows b m p c
      let inverse := swapRows b inverse p c
      let reciprocal := 1 / entry b m c c
      let m := scaleRow b m c reciprocal
      let inverse := scaleRow b inverse c reciprocal
      let factor := fun r => entry b m r c
      clearColumns b row tolerance cs (subtractRow b m c factor) (subtractRow b inverse c factor)

/-- Pivots up to this size count as zero: the largest modulus in the block, relative to the block
size. -/
def pivotTolerance (b : Nat) (a : Array T) : R :=
  a.foldl (fun m v => Magnitude.larger m (Scalar.modulus v)) 0 * Magnitude.epsilon *
    Magnitude.ofNat b

/-- Invert the leading block of an array in place and clear the rest of the array. `row` only
labels the failure. An array with an entry that is not finite stays as it is; a vanishing pivot
leaves the half transformed unit block. -/
def invert (b row : Nat) : Update (Array T) Unit :=
  Update.ofFunction fun a =>
    if !a.all Scalar.isFinite then (.error (.singularPivot row), a)
    else if a.size < b * b then (.error .outOfRange, a)
    else
      let (result, inverse) :=
        clearColumns b row (pivotTolerance b a) (List.range b) a (identity b)
      (result, Span.overwrite (zeros a.size) 0 inverse)

end Inversion

end DomainDecomposition.Block
