import DomainDecomposition.Proofs.Rank.Collectives

/-!
# Counting failures

Before the ranks go on together, each of them reports whether its own part has gone wrong. A report
is a one or a zero, and a reduction adds them up, so all ranks learn how many have failed at the
same moment. The reports are magnitudes, of which counting needs that whole numbers are exact.

* `Magnitude.CountsTo`: whole numbers up to a bound are exact,
* `rankSum_ballot`: the sum of the reports is the number of failures,
* `arrives_vote`: all ranks learn it, in every interleaving,
* `recorded_reduceAll`: the requests that this takes.
-/

namespace DomainDecomposition

variable {T R α : Type}

/-- Whole numbers up to `n` are exact: one can be added, and they are recognized. -/
structure Magnitude.CountsTo (R : Type) [Zero R] [One R] [Add R] [LT R] [Magnitude R] (n : ℕ) :
    Prop where
  zero : (ofNat 0 : R) = 0
  add_zero : ∀ k < n, (ofNat k : R) + 0 = ofNat k
  add_one : ∀ k < n, (ofNat k : R) + 1 = ofNat (k + 1)
  pos_iff : ∀ k ≤ n, (0 : R) < ofNat k ↔ 0 < k
  toNat : ∀ k ≤ n, toNat (ofNat k : R) = k

/-- All whole numbers are rational numbers. -/
lemma Magnitude.countsTo_rat (n : ℕ) : CountsTo ℚ n where
  zero := Nat.cast_zero
  add_zero _ _ := add_zero _
  add_one k _ := (Nat.cast_succ k).symm
  pos_iff _ _ := Nat.cast_pos
  toNat k _ := by
    change ⌊(k : ℚ)⌋.toNat = k
    rw [Int.floor_natCast, Int.toNat_natCast]

/-! ## Failures -/

/-- The number of failures among the first `n` results. -/
def failures (n : ℕ) (results : ℕ → Except Error Unit) : ℕ :=
  (List.range n).countP fun r => !(results r).isOk

/-- What a rank reports. -/
def ballot [Zero R] [One R] : Except Error Unit → R
  | .ok () => 0
  | .error _ => 1

section Failures

variable {n : ℕ} {results : ℕ → Except Error Unit}

lemma failures_succ (n : ℕ) (results : ℕ → Except Error Unit) :
    failures (n + 1) results = failures n results + if (results n).isOk then 0 else 1 := by
  unfold failures
  rw [List.range_succ, List.countP_append, List.countP_singleton]
  cases (results n).isOk <;> rfl

lemma failures_le (n : ℕ) (results : ℕ → Except Error Unit) : failures n results ≤ n := by
  have h := List.countP_le_length (p := fun r => !(results r).isOk) (l := List.range n)
  rwa [List.length_range] at h

/-- Nobody has failed when every result is there. -/
lemma failures_eq_zero_iff : failures n results = 0 ↔ ∀ r < n, results r = .ok () := by
  unfold failures
  rw [List.countP_eq_zero]
  refine ⟨fun none r hr => ?_, fun all r hr => ?_⟩
  · have h := none r (List.mem_range.mpr hr)
    cases hresult : results r with
    | ok _ => rfl
    | error e => simp [hresult, Except.isOk, Except.toBool] at h
  · simp [all r (List.mem_range.mp hr), Except.isOk, Except.toBool]

variable [Zero R] [One R] [Add R] [LT R] [Magnitude R]

/-- The sum of the reports counts the failures. -/
lemma rankSum_ballot {N : ℕ} (exact : Magnitude.CountsTo R N) (h : n ≤ N) :
    rankSum n (fun q => ballot (results q)) = (Magnitude.ofNat (failures n results) : R) := by
  induction n with
  | zero => exact exact.zero.symm
  | succ n ih =>
    have below : failures n results < N := Nat.lt_of_le_of_lt (failures_le n results) h
    rw [rankSum_succ, ih (Nat.le_of_succ_le h), failures_succ]
    cases results n with
    | ok _ => exact exact.add_zero _ below
    | error e => exact exact.add_one _ below

/-! ## One reduction -/

open World

/-- All ranks learn the number of failures, at the moment when the second barrier opens. -/
lemma arrives_vote (exact : Magnitude.CountsTo R n) {world : World T R} (sized : world.Sized n)
    {P : ℕ → Program T R α} {K : ℕ → Array R → Program T R α}
    (hP : ∀ r < n, P r = (Communicator.member r n).reduceAll #[ballot (results r)] >>= K r) :
    Arrives n ⟨world.withOffered n fun r => #[ballot (results r)],
      fun r => K r #[Magnitude.ofNat (failures n results)]⟩ ⟨world, P⟩ := by
  refine (arrives_reduceAll sized _ hP).trans (.here ⟨rfl, fun r hr => ?_⟩)
  dsimp only
  rw [total_eq_ofFn (k := 1) (fun _ _ => rfl) hr, ← rankSum_ballot exact le_rfl]
  rfl

end Failures

/-! ## The requests of a reduction -/

/-- What a rank of `n` asks for in a reduction of its `values`. -/
def Communicator.reduction (n : ℕ) (values : Array R) : List (Request T R) :=
  .offer values :: .barrier :: ((List.range n).map .offered ++ [.barrier])

namespace World

variable [Add R]

lemma recorded_addOffered (past : List (Request T R)) (ranks : List ℕ) (start : Array R) :
    (addOffered ranks start : Program T R (Array R)).recorded past =
      addOffered ranks start >>= fun sum => .done (past ++ ranks.map .offered, sum) := by
  induction ranks generalizing past start with
  | nil =>
    rw [List.map_nil, List.append_nil]
    rfl
  | cons q ranks ih =>
    rw [List.map_cons, List.append_cons]
    exact congrArg (Program.request (.offered q)) (funext fun values => ih _ _)

/-- A reduction makes its requests, and what follows is recorded behind them. -/
lemma recorded_reduceAll [Zero R] (past : List (Request T R)) (r n : ℕ) (values : Array R)
    (K : Array R → Program T R α) :
    ((Communicator.member r n).reduceAll values >>= K).recorded past =
      (Communicator.member r n).reduceAll values >>= fun sum =>
        (K sum).recorded (past ++ Communicator.reduction n values) := by
  rw [reduceAll_bind, reduceAll_bind]
  refine congrArg (Program.request (.offer values)) (funext fun _ =>
    congrArg (Program.request .barrier) (funext fun _ => ?_))
  rw [Program.recorded_bind, recorded_addOffered, Program.bind_bind]
  refine bind_congr fun sum => congrArg (Program.request .barrier) (funext fun _ => ?_)
  rw [Communicator.reduction]
  simp

end World

end DomainDecomposition
