import DomainDecomposition.Scalar

/-!
# Plane rotations and triangular systems

`Rotation.zeroing a b` is the rotation that turns the pair `(a, b)` into `(r, 0)`. Its cosine is a
magnitude and its sine a scalar, so that complex pairs are covered. `backSubstitution` solves the
triangular system that the rotations leave.
-/

namespace DomainDecomposition

variable {T R : Type}

/-- The rotation `(x, y) ↦ (c · x + s · y, -conj s · x + c · y)`. -/
structure Rotation (T R : Type) where
  cosine : R
  sine : T

namespace Rotation

section Zeroing

variable [Zero T] [One T] [Mul T] [Zero R] [One R] [Div R] [BEq R] [Magnitude R] [Scalar T R]

/-- The rotation that zeroes `b` against `a`, and the value that `a` becomes. -/
def zeroing (a b : T) : Rotation T R × T :=
  let sizeA : R := Scalar.modulus a
  let sizeB : R := Scalar.modulus b
  if sizeB == 0 then (⟨1, 0⟩, a)
  else if sizeA == 0 then (⟨0, 1⟩, b)
  else
    let r := Magnitude.hypot sizeA sizeB
    let phase := a * Scalar.ofReal (1 / sizeA)
    let sine := phase * Scalar.conj b * Scalar.ofReal (1 / r)
    (⟨sizeA / r, sine⟩, phase * Scalar.ofReal r)

end Zeroing

variable [Add T] [Mul T] [Neg T] [Scalar T R]

/-- Turn a pair. -/
def apply (g : Rotation T R) (x y : T) : T × T :=
  let c : T := Scalar.ofReal g.cosine
  (c * x + g.sine * y, -(Scalar.conj g.sine * x) + c * y)

/-- Turn entries 0 and 1 by the first rotation, then entries 1 and 2 by the second, and so on. -/
def applyAll : List (Rotation T R) → List T → List T
  | g :: gs, x :: y :: rest =>
    let (x, y) := g.apply x y
    x :: applyAll gs (y :: rest)
  | _, entries => entries

end Rotation

section BackSubstitution

variable [Zero T] [Sub T] [Mul T] [Div T] [Zero R] [LT R] [DecidableLT R] [Scalar T R]

/-- Unknown `i` of a triangular system, given those behind it. A row whose diagonal entry vanishes
gets zero. -/
def solveUnknown (h : Nat → Nat → T) (g : Nat → T) (i : Nat) (behind : List T) : T :=
  let right := (behind.zipIdx (i + 1)).foldl (fun s (y, j) => s - h i j * y) (g i)
  if (0 : R) < Scalar.modulus (h i i) then right / h i i else 0

/-- Unknowns `0, …, i - 1` in front of those that are known. -/
def solveUnknowns (h : Nat → Nat → T) (g : Nat → T) : Nat → List T → List T
  | 0, known => known
  | i + 1, known => solveUnknowns h g i (solveUnknown h g i known :: known)

/-- Solve the leading `m` rows of the upper triangular system `h · y = g`. -/
def backSubstitution (h : Nat → Nat → T) (g : Nat → T) (m : Nat) : List T :=
  solveUnknowns h g m []

end BackSubstitution

end DomainDecomposition
