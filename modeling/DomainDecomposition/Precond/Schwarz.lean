import DomainDecomposition.BlockMatrix.Factor
import DomainDecomposition.BlockMatrix.Fill
import DomainDecomposition.BlockMatrix.Values
import DomainDecomposition.Distributed.Basic

/-!
# Additive Schwarz

Every rank solves with an incomplete factorization of its own diagonal piece and ignores the rest.
The factors live in a matrix of their own, on a level-of-fill pattern; factoring copies the current
values there, adds a shift to the diagonal and eliminates.
-/

namespace DomainDecomposition

/-- Additive Schwarz on the diagonal piece of a distributed matrix. -/
structure AdditiveSchwarz (T : Type) where
  diagonal : Handle
  factors : Handle
  /-- Added to the diagonal before every factorization. -/
  shift : T
  factored : Bool

namespace AdditiveSchwarz

variable {T R : Type}

/-- A new zero matrix in the store, on the level-of-fill pattern of another one. -/
def allocateFactors [Zero T] [One R] [Mul R] [LE R] [DecidableLE R] [Magnitude R]
    (diagonal : Handle) (level : Nat) (growth : R) : Update (Store T) Handle := do
  let store ← get
  let factors ← (store.get diagonal).fillPattern level growth
  let (handle, store) := store.add factors
  set store
  return handle

/-- Additive Schwarz for a distributed matrix, not factored yet. -/
def ofMatrix [Zero T] [One R] [Mul R] [LE R] [DecidableLE R] [Magnitude R]
    (a : DistributedMatrix T) (level : Nat) (growth : R) :
    Update (Store T) (AdditiveSchwarz T) := do
  let factors ← allocateFactors a.diagonal level growth
  return { diagonal := a.diagonal, factors, shift := 0, factored := false }

section Factor

variable [Zero T] [One T] [Add T] [Sub T] [Mul T] [Div T] [BEq T]
variable [Zero R] [One R] [Neg R] [Mul R] [LT R] [DecidableLT R] [LE R] [DecidableLE R] [BEq R]
variable [Magnitude R] [Scalar T R]

/-- Copy the values of a matrix into its factors, shift the diagonal and eliminate. -/
def refactor (diagonal factors : Handle) (shift : T) : Update (Store T) Unit := do
  let source := (← get).get diagonal
  Store.onMatrix factors do
    BlockMatrix.copyValues source
    if !(shift == 0) then BlockMatrix.addDiagonal shift
    BlockMatrix.factor

/-- Factor the current values. -/
def factor : Update (Store T × AdditiveSchwarz T) Unit := do
  modify fun (store, p) => (store, { p with factored := false })
  let (_, p) ← get
  (refactor p.diagonal p.factors p.shift).onFst
  modify fun (store, p) => (store, { p with factored := true })

end Factor

/-- `y = U⁻¹ · L⁻¹ · x`. -/
def apply [Zero T] [Add T] [Sub T] [Mul T] (store : Store T) (p : AdditiveSchwarz T)
    (x : Array T) : Update (Array T) Unit := do
  if !p.factored then throw (.notFactored .additiveSchwarz)
  (store.get p.factors).applyFactor x

end AdditiveSchwarz

end DomainDecomposition
