import DomainDecomposition.Error

/-!
# Checked spans of arrays

The kernels read and write runs of consecutive entries. A read that leaves the array answers
`Error.outOfRange`; `overwrite` keeps the size of the array that it writes to, and
`getElem?_overwrite` says what every entry is afterwards.
-/

namespace DomainDecomposition.Span

variable {α : Type}

/-- Entry `i`. -/
def item (xs : Array α) (i : Nat) : Except Error α :=
  match xs[i]? with
  | some x => .ok x
  | none => .error .outOfRange

/-- The entries `start, …, start + length - 1`. -/
def run (xs : Array α) (start length : Nat) : Except Error (Array α) :=
  if start + length ≤ xs.size then .ok (xs.extract start (start + length)) else .error .outOfRange

/-- A run that must end before position `limit`. -/
def runBefore (xs : Array α) (limit start length : Nat) : Except Error (Array α) :=
  if start + length ≤ limit then run xs start length else .error .outOfRange

/-- The entries from `start` up to but not including `stop`. -/
def between (xs : Array α) (start stop : Nat) : Except Error (Array α) :=
  if start ≤ stop then run xs start (stop - start) else .error .outOfRange

/-- Write the listed values at consecutive positions from `start` on. Positions outside the array
are skipped. -/
def overwriteList (xs : Array α) (start : Nat) : List α → Array α
  | [] => xs
  | y :: ys => overwriteList (xs.setIfInBounds start y) (start + 1) ys

/-- Write `ys` over the entries of `xs` from `start` on. -/
def overwrite (xs : Array α) (start : Nat) (ys : Array α) : Array α :=
  overwriteList xs start ys.toList

/-! ## Reading -/

theorem item_eq_ok {xs : Array α} {i : Nat} {x : α} : item xs i = .ok x ↔ xs[i]? = some x := by
  unfold item
  split <;> simp_all

theorem run_eq_ok {xs ys : Array α} {start length : Nat} :
    run xs start length = .ok ys ↔
      start + length ≤ xs.size ∧ xs.extract start (start + length) = ys := by
  by_cases inside : start + length ≤ xs.size <;> simp [run, inside]

/-! ## Writing -/

theorem size_overwriteList (xs : Array α) (start : Nat) (ys : List α) :
    (overwriteList xs start ys).size = xs.size := by
  induction ys generalizing xs start with
  | nil => rfl
  | cons y ys ih => simp [overwriteList, ih]

@[simp]
theorem size_overwrite (xs : Array α) (start : Nat) (ys : Array α) :
    (overwrite xs start ys).size = xs.size :=
  size_overwriteList xs start ys.toList

theorem getElem?_overwriteList (xs : Array α) (start : Nat) (ys : List α) (k : Nat) :
    (overwriteList xs start ys)[k]? =
      if start ≤ k ∧ k < start + ys.length ∧ k < xs.size then ys[k - start]? else xs[k]? := by
  induction ys generalizing xs start with
  | nil => simp [overwriteList]; omega
  | cons y ys ih =>
    rw [overwriteList, ih, Array.getElem?_setIfInBounds]
    grind

/-- The written entries are those of `ys`, and all others stay. -/
theorem getElem?_overwrite (xs : Array α) (start : Nat) (ys : Array α) (k : Nat) :
    (overwrite xs start ys)[k]? =
      if start ≤ k ∧ k < start + ys.size ∧ k < xs.size then ys[k - start]? else xs[k]? := by
  simp [overwrite, getElem?_overwriteList]

end DomainDecomposition.Span
