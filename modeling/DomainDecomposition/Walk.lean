import DomainDecomposition.Error

/-!
# Walks through consecutive numbers

The kernels visit rows and entries in the order of their numbers, up or down, and the first failure
ends the walk. The number of steps may be absurdly large when nobody has checked it; a walk never
looks further than where it fails. `up_eq_foldlM`, `down_eq_foldlM` and `collect_eq_mapM` say the
same in terms of lists.
-/

namespace DomainDecomposition.Walk

variable {σ α : Type}

/-- Do `step` for the numbers `start, …, start + count - 1`, in this order. -/
def up (step : σ → Nat → Except Error σ) : (count start : Nat) → σ → Except Error σ
  | 0, _, s => .ok s
  | count + 1, start, s => do up step count (start + 1) (← step s start)

/-- Do `step` for the numbers `start + count - 1, …, start`, in this order. -/
def down (step : σ → Nat → Except Error σ) : (count start : Nat) → σ → Except Error σ
  | 0, _, s => .ok s
  | count + 1, start, s => do down step count start (← step s (start + count))

/-- What `read` finds for the numbers `start, …, start + count - 1`. -/
def collect (read : Nat → Except Error α) : (count start : Nat) → Except Error (List α)
  | 0, _ => .ok []
  | count + 1, start => do
    let first ← read start
    return first :: (← collect read count (start + 1))

theorem up_eq_foldlM (step : σ → Nat → Except Error σ) (count start : Nat) (s : σ) :
    up step count start s = (List.range' start count).foldlM step s := by
  induction count generalizing start s with
  | zero => rfl
  | succ count ih => simp [up, List.range'_succ, ih]

theorem down_eq_foldlM (step : σ → Nat → Except Error σ) (count start : Nat) (s : σ) :
    down step count start s = (List.range' start count).reverse.foldlM step s := by
  induction count generalizing s with
  | zero => rfl
  | succ count ih => simp [down, List.range'_concat, ih]

theorem collect_eq_mapM (read : Nat → Except Error α) (count start : Nat) :
    collect read count start = (List.range' start count).mapM read := by
  induction count generalizing start with
  | zero => rfl
  | succ count ih => simp [collect, List.range'_succ, ih]

end DomainDecomposition.Walk
