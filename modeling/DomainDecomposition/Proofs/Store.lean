import DomainDecomposition.Store
import Mathlib.Tactic.Lemma

/-!
# Reading a store after it has changed

A new matrix takes a place that no handle has named before, and a replaced one keeps its place. So
every handle that named a matrix still names one, and all but one of them name the same as before.
-/

namespace DomainDecomposition.Store

variable {T : Type} {store : Store T} {h k : Handle}

/-! ## A new matrix -/

lemma get_add (store : Store T) (f : BlockMatrix T) (h : Handle) :
    (store.add f).2.get h = if h.index = store.matrices.size then f else store.get h := by
  unfold add get
  simp only [Array.getD_eq_getD_getElem?, Array.getElem?_push]
  split <;> rfl

lemma get_add_self (store : Store T) (f : BlockMatrix T) :
    (store.add f).2.get (store.add f).1 = f := by
  rw [get_add]
  exact if_pos rfl

/-- A new matrix changes no other one. -/
lemma get_add_of_holds (held : store.Holds h) (f : BlockMatrix T) :
    (store.add f).2.get h = store.get h := by
  rw [get_add, if_neg (Nat.ne_of_lt held)]

lemma ne_add_of_holds (held : store.Holds h) (f : BlockMatrix T) : h ≠ (store.add f).1 := by
  rintro rfl
  exact Nat.lt_irrefl _ held

lemma holds_add (held : store.Holds h) (f : BlockMatrix T) : (store.add f).2.Holds h := by
  change h.index < (store.matrices.push f).size
  rw [Array.size_push]
  exact Nat.lt_succ_of_lt held

lemma holds_add_self (store : Store T) (f : BlockMatrix T) :
    (store.add f).2.Holds (store.add f).1 := by
  change store.matrices.size < (store.matrices.push f).size
  rw [Array.size_push]
  exact Nat.lt_succ_self _

/-! ## A replaced matrix -/

lemma holds_set (held : store.Holds h) (f : BlockMatrix T) : (store.set k f).Holds h := by
  change h.index < (store.matrices.setIfInBounds k.index f).size
  rwa [Array.size_setIfInBounds]

/-- Putting a matrix where it is. -/
lemma set_get (store : Store T) (h : Handle) : store.set h (store.get h) = store := by
  unfold set get
  congr 1
  apply Array.ext_getElem?
  intro k
  rw [Array.getElem?_setIfInBounds]
  split
  case isTrue same =>
    subst same
    split
    case isTrue inside => simp [inside]
    case isFalse outside => rw [Array.getElem?_eq_none (Nat.not_lt.mp outside)]
  case isFalse => rfl

/-- Either the handle names what it named before, or it names the new matrix. -/
lemma get_set (store : Store T) (k : Handle) (f : BlockMatrix T) (h : Handle) :
    (store.set k f).get h = store.get h ∨ h = k ∧ (store.set k f).get h = f := by
  by_cases same : h = k
  · subst same
    by_cases held : store.Holds h
    · exact .inr ⟨rfl, get_set_self store h f held⟩
    · left
      unfold set
      rw [Array.setIfInBounds_eq_of_size_le (Nat.le_of_not_lt held)]
  · exact .inl (get_set_ne store f (Ne.symm same))

end DomainDecomposition.Store
