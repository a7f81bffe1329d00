import DomainDecomposition.BlockMatrix.Basic

/-!
# Shared matrices

A block matrix may be used by several owners at once: a distributed matrix, the preconditioners
built on it, another distributed matrix. They hold handles into the `Store` of their rank, so a
change made through one handle is seen through all equal ones.
-/

namespace DomainDecomposition

/-- Names a matrix in a store. -/
structure Handle where
  index : Nat
  deriving DecidableEq

/-- The matrices of one rank. -/
structure Store (T : Type) where
  matrices : Array (BlockMatrix T)

namespace Store

variable {T α : Type}

/-- A store without matrices. -/
def empty : Store T :=
  ⟨#[]⟩

/-- The handle names a matrix of the store. -/
def Holds (s : Store T) (h : Handle) : Prop :=
  h.index < s.matrices.size

/-- The matrix that a handle names. -/
def get (s : Store T) (h : Handle) : BlockMatrix T :=
  s.matrices.getD h.index .empty

/-- Replace the matrix that a handle names. -/
def set (s : Store T) (h : Handle) (a : BlockMatrix T) : Store T :=
  ⟨s.matrices.setIfInBounds h.index a⟩

/-- Add a matrix under a new handle. -/
def add (s : Store T) (a : BlockMatrix T) : Handle × Store T :=
  (⟨s.matrices.size⟩, ⟨s.matrices.push a⟩)

/-- Run an operation on the matrix that a handle names. -/
def onMatrix (h : Handle) (u : Update (BlockMatrix T) α) : Update (Store T) α :=
  u.focus (fun s => s.get h) fun a s => s.set h a

@[simp]
theorem get_set_self (s : Store T) (h : Handle) (a : BlockMatrix T) (held : s.Holds h) :
    (s.set h a).get h = a := by
  have : h.index < s.matrices.size := held
  simp [get, set, Array.getD_eq_getD_getElem?, this]

theorem get_set_ne (s : Store T) {h k : Handle} (a : BlockMatrix T) (distinct : h ≠ k) :
    (s.set h a).get k = s.get k := by
  have : h.index ≠ k.index := fun e => distinct (by cases h; cases k; simp_all)
  simp [get, set, Array.getD_eq_getD_getElem?, this]

end Store

end DomainDecomposition
