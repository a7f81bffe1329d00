import DomainDecomposition.Offsets
import Mathlib.Algebra.BigOperators.Group.Finset.Basic
import Mathlib.Algebra.BigOperators.Group.List.Lemmas
import Mathlib.Algebra.GroupWithZero.Nat
import Mathlib.Data.List.Chain
import Mathlib.Tactic.ByContra
import Mathlib.Tactic.Set

/-!
# Runs between offsets

Offsets are `Consecutive` when they start at zero and never descend. Those that a check of the order
lets through are, and so are the sums of the lengths before each run. Every item before the last
offset then lies in one run, `runOf` finds it, and the runs together are as long as the last offset
says.

* `runOf_spec`: the run that holds an item,
* `getElem?_ofLengths`, `length_ofLengths`: the offset of a run is the sum of the lengths before it,
* `Consecutive.of_ascending`, `Consecutive.ofLengths`: where consecutive offsets come from,
* `Consecutive.unique`: no item lies in two runs,
* `Consecutive.sum_lengths`: the lengths of all runs.
-/

namespace DomainDecomposition.Offsets

/-! ## Finding a run -/

/-- The prefix of items that satisfy `p` ends before the first item that does not. -/
lemma takeWhile_spec {α : Type} (p : α → Bool) (xs : List α) :
    (∀ i < (xs.takeWhile p).length, ∃ x, xs[i]? = some x ∧ p x) ∧
      ∀ x, xs[(xs.takeWhile p).length]? = some x → ¬ p x := by
  induction xs with
  | nil => exact ⟨fun i hi => absurd hi (by simp), fun x hx => by simp at hx⟩
  | cons y xs ih =>
    by_cases hy : p y
    · rw [List.takeWhile_cons_of_pos hy, List.length_cons]
      refine ⟨fun i hi => ?_, fun x hx => ih.2 x (by simpa using hx)⟩
      cases i with
      | zero => exact ⟨y, rfl, hy⟩
      | succ i => exact ih.1 i (by omega)
    · rw [List.takeWhile_cons_of_neg hy]
      refine ⟨fun i hi => absurd hi (by simp), fun x hx => ?_⟩
      obtain rfl : y = x := by simpa using hx
      exact hy

/-- No offset is smaller than any before it. -/
lemma pairwise_of_ascending {offsets : List ℕ} (h : ascending offsets) :
    offsets.Pairwise (· ≤ ·) := by
  induction offsets with
  | nil => exact .nil
  | cons o offsets ih =>
    cases offsets with
    | nil => exact List.pairwise_singleton _ _
    | cons o' offsets =>
      obtain ⟨hle, hrest⟩ : o ≤ o' ∧ ascending (o' :: offsets) := by
        simpa [ascending] using h
      have hpairwise := ih hrest
      refine List.pairwise_cons.mpr ⟨fun x hx => ?_, hpairwise⟩
      rcases List.mem_cons.mp hx with rfl | hx
      · exact hle
      · exact Nat.le_trans hle ((List.pairwise_cons.mp hpairwise).1 x hx)

lemma getD_le_getD {offsets : Array ℕ} (h : ascending offsets.toList) {p q : ℕ} (hpq : p ≤ q)
    (hq : q < offsets.size) : offsets.getD p 0 ≤ offsets.getD q 0 := by
  rcases Nat.eq_or_lt_of_le hpq with rfl | hlt
  · exact Nat.le_refl _
  · have hp := Nat.lt_trans hlt hq
    simp only [Array.getD_eq_getD_getElem?, Array.getElem?_eq_getElem hp,
      Array.getElem?_eq_getElem hq, Option.getD_some]
    exact List.pairwise_iff_getElem.mp (pairwise_of_ascending h) p q hp hq hlt

/-- An item before the last offset lies in its run. -/
lemma runOf_spec {offsets : Array ℕ} {n i : ℕ} (size : offsets.size = n + 1)
    (first : offsets[0]? = some 0) (below : i < offsets.back?.getD 0) :
    runOf offsets i < n ∧ offsets.getD (runOf offsets i) 0 ≤ i ∧
      i < offsets.getD (runOf offsets i + 1) 0 := by
  obtain ⟨hbefore, hat⟩ := takeWhile_spec (fun o => decide (o ≤ i)) offsets.toList
  set count := (offsets.toList.takeWhile fun o => decide (o ≤ i)).length with hcount
  have hget : ∀ k, offsets.toList[k]? = offsets[k]? := fun k => Array.getElem?_toList
  have hpos : 0 < count := by
    by_contra hzero
    obtain hzero : count = 0 := by omega
    have hnot := hat 0 (by rw [hzero, hget, first])
    simp at hnot
  have hle : count ≤ n := by
    by_contra hlarge
    have hback : offsets.back? = offsets[n]? := by
      rw [Array.back?_eq_getElem?, size, Nat.add_sub_cancel]
    obtain ⟨o, ho, hoi⟩ := hbefore n (by omega)
    rw [hback, ← hget, ho, Option.getD_some] at below
    simp only [decide_eq_true_eq] at hoi
    omega
  have hrun : runOf offsets i = count - 1 := rfl
  obtain ⟨o, ho, hoi⟩ := hbefore (count - 1) (by omega)
  have hlast : offsets[count]? = some offsets[count] := Array.getElem?_eq_getElem (by omega)
  have hnot := hat offsets[count] (by rw [hget, hlast])
  simp only [decide_eq_true_eq] at hoi hnot
  rw [hget] at ho
  rw [hrun, Nat.sub_add_cancel hpos, Array.getD_eq_getD_getElem?, Array.getD_eq_getD_getElem?,
    ho, hlast, Option.getD_some, Option.getD_some]
  exact ⟨by omega, hoi, by omega⟩

/-! ## Runs of given lengths -/

lemma ofLengths_append (lengths : List ℕ) (n : ℕ) :
    ofLengths (lengths ++ [n]) =
      (ofLengths lengths).push ((ofLengths lengths).back?.getD 0 + n) := by
  rw [ofLengths, List.foldl_append]
  rfl

lemma size_ofLengths (lengths : List ℕ) : (ofLengths lengths).size = lengths.length + 1 := by
  induction lengths using List.reverseRecOn with
  | nil => rfl
  | append_singleton lengths n ih =>
    rw [ofLengths_append, Array.size_push, ih, List.length_append]
    rfl

/-- The offset of a run is the sum of the lengths before it. -/
lemma getElem?_ofLengths {lengths : List ℕ} {i : ℕ} (hi : i ≤ lengths.length) :
    (ofLengths lengths)[i]? = some (lengths.take i).sum := by
  induction lengths using List.reverseRecOn generalizing i with
  | nil =>
    rw [List.length_nil, Nat.le_zero] at hi
    rw [hi]
    rfl
  | append_singleton lengths n ih =>
    have hsize := size_ofLengths lengths
    rw [ofLengths_append, Array.getElem?_push, hsize]
    rw [List.length_append, List.length_singleton] at hi
    by_cases hlast : i = lengths.length + 1
    · have hback : (ofLengths lengths).back? = some lengths.sum := by
        rw [Array.back?_eq_getElem?, hsize, Nat.add_sub_cancel, ih (Nat.le_refl _),
          List.take_length]
      rw [if_pos hlast, hback, hlast, List.take_of_length_le (by simp), List.sum_append]
      simp
    · rw [if_neg hlast, ih (by omega), List.take_append_of_le_length (by omega)]

lemma getD_ofLengths {lengths : List ℕ} {i : ℕ} (hi : i ≤ lengths.length) :
    (ofLengths lengths).getD i 0 = (lengths.take i).sum := by
  rw [Array.getD_eq_getD_getElem?, getElem?_ofLengths hi, Option.getD_some]

/-- A run is as long as it was asked to be. -/
lemma length_ofLengths {lengths : List ℕ} {i : ℕ} (hi : i < lengths.length) :
    (ofLengths lengths).getD (i + 1) 0 - (ofLengths lengths).getD i 0 = lengths.getD i 0 := by
  rw [getD_ofLengths hi, getD_ofLengths hi.le, List.sum_take_succ lengths i hi,
    Nat.add_sub_cancel_left, List.getD_eq_getElem?_getD, List.getElem?_eq_getElem hi,
    Option.getD_some]

/-! ## Consecutive runs -/

/-- The offsets of `n` runs that lie one behind the other. -/
structure Consecutive (n : ℕ) (offsets : Array ℕ) : Prop where
  size : offsets.size = n + 1
  first : offsets[0]? = some 0
  ordered {p q : ℕ} : p ≤ q → q ≤ n → offsets.getD p 0 ≤ offsets.getD q 0

namespace Consecutive

lemma of_ascending {n : ℕ} {offsets : Array ℕ} (size : offsets.size = n + 1)
    (first : offsets[0]? = some 0) (h : ascending offsets.toList) : Consecutive n offsets where
  size := size
  first := first
  ordered hpq hq := getD_le_getD h hpq (by omega)

lemma ofLengths (lengths : List ℕ) : Consecutive lengths.length (ofLengths lengths) where
  size := size_ofLengths lengths
  first := getElem?_ofLengths (Nat.zero_le _)
  ordered {p q} hpq hq := by
    rw [getD_ofLengths (hpq.trans hq), getD_ofLengths hq, ← Nat.add_sub_cancel' hpq, List.take_add,
      List.sum_append]
    exact Nat.le_add_right _ _

variable {n : ℕ} {offsets : Array ℕ}

lemma getElem?_eq (h : Consecutive n offsets) {q : ℕ} (hq : q ≤ n) :
    offsets[q]? = some (offsets.getD q 0) := by
  have hinside : q < offsets.size := by rw [h.size]; omega
  rw [Array.getD_eq_getD_getElem?, Array.getElem?_eq_getElem hinside, Option.getD_some]

lemma getD_zero (h : Consecutive n offsets) : offsets.getD 0 0 = 0 := by
  rw [Array.getD_eq_getD_getElem?, h.first, Option.getD_some]

/-- All runs end at the last offset. -/
lemma back_eq (h : Consecutive n offsets) : offsets.back?.getD 0 = offsets.getD n 0 := by
  rw [Array.back?_eq_getElem?, h.size, Nat.add_sub_cancel, Array.getD_eq_getD_getElem?]

/-- No item lies in two runs. -/
lemma unique (h : Consecutive n offsets) {p q i : ℕ} (hp : p < n) (hq : q < n)
    (inp : offsets.getD p 0 ≤ i ∧ i < offsets.getD (p + 1) 0)
    (inq : offsets.getD q 0 ≤ i ∧ i < offsets.getD (q + 1) 0) : p = q := by
  rcases Nat.lt_trichotomy p q with hlt | heq | hgt
  · have hle := h.ordered (p := p + 1) hlt hq.le
    omega
  · exact heq
  · have hle := h.ordered (p := q + 1) hgt hp.le
    omega

/-- The first runs end where their lengths add up to. -/
lemma sum_lengths (h : Consecutive n offsets) {k : ℕ} (hk : k ≤ n) :
    ∑ q ∈ Finset.range k, (offsets.getD (q + 1) 0 - offsets.getD q 0) = offsets.getD k 0 := by
  induction k with
  | zero => rw [Finset.sum_range_zero, h.getD_zero]
  | succ k ih =>
    have hle := h.ordered (Nat.le_succ k) hk
    rw [Finset.sum_range_succ, ih (Nat.le_of_succ_le hk), Nat.add_sub_cancel' hle]

end Consecutive

end DomainDecomposition.Offsets
