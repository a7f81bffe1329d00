/-!
# Bisection

`Bisection.boundary` looks for the place where a test on the numbers below `n` stops holding, by
halving. Where the test really holds up to some place and not behind it, that is the place that
is found (`lt_boundary_iff`). For any other test the answer depends on which numbers the halving
happens to look at.

`Bisection.search` looks for a number among ascending ones in the same way: the halving stops at the
last of them that is not greater, so a number that is there is found (`search_eq_some_iff`).
-/

namespace DomainDecomposition.Bisection

/-- Halve the range of `size` numbers from `base` on: the upper part is kept when the test holds at
its first number, the lower part otherwise. Answers the number that is left. -/
def narrow (test : Nat → Bool) (base size : Nat) : Nat :=
  if size ≤ 1 then base
  else
    let half := size / 2
    if test (base + half) then narrow test (base + half) (size - half)
    else narrow test base (size - half)
termination_by size
decreasing_by all_goals omega

/-- Where the test stops holding among the numbers below `n`. -/
def boundary (test : Nat → Bool) (n : Nat) : Nat :=
  if n = 0 then 0
  else
    let last := narrow test 0 n
    if test last then last + 1 else last

/-- The place of `target` among ascending numbers, if it is one of them. -/
def search (xs : Array Nat) (target : Nat) : Option Nat :=
  let last := narrow (fun k => xs.getD k 0 ≤ target) 0 xs.size
  if xs[last]? = some target then some last else none

/-- A test that holds of every number before one of which it holds. -/
def IsInitial (test : Nat → Bool) (n : Nat) : Prop :=
  ∀ i j, i < j → j < n → test j → test i

/-- The number that is left lies in the range, and the test holds of the numbers behind `base` up to
it alone. -/
theorem narrow_separates {test : Nat → Bool} {n : Nat} (initial : IsInitial test n)
    (base size : Nat) (inside : base + size ≤ n) (nonempty : 0 < size) :
    base ≤ narrow test base size ∧ narrow test base size < base + size ∧
      ∀ i, base < i → i < base + size → (test i ↔ i ≤ narrow test base size) := by
  fun_induction narrow test base size with
  | case1 base size small => exact ⟨Nat.le_refl _, by omega, fun i _ _ => by omega⟩
  | case2 base size big half holds ih =>
    obtain ⟨low, high, rest⟩ := ih (by omega) (by omega)
    refine ⟨by omega, by omega, fun i hi hi' => ?_⟩
    rcases Nat.lt_trichotomy i (base + half) with h | rfl | h
    · exact ⟨fun _ => by omega, fun _ => initial i _ h (by omega) holds⟩
    · exact ⟨fun _ => low, fun _ => holds⟩
    · exact rest i h (by omega)
  | case3 base size big half fails ih =>
    obtain ⟨low, high, rest⟩ := ih (by omega) (by omega)
    refine ⟨low, by omega, fun i hi hi' => ?_⟩
    by_cases h : i < base + (size - half)
    · exact rest i hi h
    · refine ⟨fun hold => absurd ?_ fails, fun _ => by omega⟩
      rcases Nat.eq_or_lt_of_le (show base + half ≤ i by omega) with rfl | h'
      · exact hold
      · exact initial _ i h' (by omega) hold

theorem boundary_le {test : Nat → Bool} {n : Nat} (initial : IsInitial test n) :
    boundary test n ≤ n := by
  unfold boundary
  split
  · omega
  · have := narrow_separates initial 0 n (by omega) (by omega)
    grind

/-- The test holds exactly of the numbers before the boundary. -/
theorem lt_boundary_iff {test : Nat → Bool} {n i : Nat} (initial : IsInitial test n) (hi : i < n) :
    i < boundary test n ↔ test i := by
  obtain ⟨_, high, rest⟩ := narrow_separates initial 0 n (by omega) (by omega)
  have first : test 0 ∨ narrow test 0 n = 0 := by
    rcases Nat.eq_zero_or_pos (narrow test 0 n) with h | h
    · exact .inr h
    · exact .inl (initial 0 _ h (by omega) ((rest _ h high).2 (Nat.le_refl _)))
  have last : 0 < narrow test 0 n → test (narrow test 0 n) := fun h =>
    (rest _ h high).2 (Nat.le_refl _)
  unfold boundary
  rcases Nat.eq_zero_or_pos i with rfl | h
  · grind
  · have := rest i h (by omega)
    grind

/-- The numbers that do not exceed the target come first. -/
theorem isInitial_le {xs : Array Nat} (ascending : xs.toList.Pairwise (· < ·)) (target : Nat) :
    IsInitial (fun k => xs.getD k 0 ≤ target) xs.size := by
  intro i j hij hj holds
  have hi : i < xs.size := Nat.lt_trans hij hj
  have less : xs[i] < xs[j] := List.pairwise_iff_getElem.1 ascending i j hi hj hij
  rw [decide_eq_true_iff, Array.getD, dif_pos hj] at holds
  rw [decide_eq_true_iff, Array.getD, dif_pos hi]
  exact Nat.le_trans (Nat.le_of_lt less) holds

/-- A search among ascending numbers finds the place of a number, and finds it whenever there is
one. -/
theorem search_eq_some_iff {xs : Array Nat} (ascending : xs.toList.Pairwise (· < ·))
    {target k : Nat} : search xs target = some k ↔ xs[k]? = some target := by
  unfold search
  dsimp only
  constructor
  · intro found
    split at found
    next stored => rwa [← Option.some.inj found]
    next => cases found
  · intro stored
    obtain ⟨hk, value⟩ := Array.getElem?_eq_some_iff.1 stored
    obtain ⟨_, high, rest⟩ :=
      narrow_separates (isInitial_le ascending target) 0 xs.size (by omega) (by omega)
    generalize narrow (fun k => decide (xs.getD k 0 ≤ target)) 0 xs.size = last at high rest
    have bounded : ∀ i (hi : i < xs.size), 0 < i → (xs[i] ≤ target ↔ i ≤ last) := by
      intro i hi positive
      have := rest i positive (by omega)
      rwa [decide_eq_true_iff, Array.getD, dif_pos hi] at this
    have strict := List.pairwise_iff_getElem.1 ascending
    -- `last` cannot lie before the target, whose test holds, nor behind it, where the test fails
    have same : last = k := by
      rcases Nat.lt_trichotomy last k with before | same | behind
      · have := (bounded k hk (by omega)).1 (Nat.le_of_eq value)
        omega
      · exact same
      · have greater : xs[k] < xs[last] := strict k last hk (by simpa using high) behind
        have := (bounded last (by omega) (by omega)).2 (Nat.le_refl _)
        omega
    rw [same, if_pos stored]

end DomainDecomposition.Bisection
