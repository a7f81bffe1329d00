import DomainDecomposition.BlockMatrix.Fill
import DomainDecomposition.Proofs.BlockMatrix.Validation
import DomainDecomposition.Proofs.FillPath
import DomainDecomposition.Proofs.Scalar.Rational
import Mathlib.Algebra.BigOperators.Group.Finset.Basic
import Mathlib.Data.Set.Card

/-!
# The level-of-fill pattern

Row `i` of the pattern is found by visiting the columns below `i` in ascending order. When column
`j` is visited, its level is final: it is the least number of inner vertices of a walk from `i` to
`j` through vertices below `j`. Visiting `j` admits `j` as an inner vertex of the walks to later
columns. Levels above the limit are dropped, which loses no walk within the limit, because both
parts of such a walk are within it as well.

* `Filling.start`, `Filling.visit`, `Filling.finish`: the invariant of one row,
* `filledRows_spec`: the levels of all rows,
* `fillPattern_eq_levelOfFill`: what the pattern is, and exactly when there is room for it.
-/

namespace DomainDecomposition.BlockMatrix

open Outcome

variable {T R : Type}

/-! ## Levels of a work row -/

namespace Levels

/-- The level of column `c`, if it is stored. -/
def level (levels : Levels) (c : ℕ) : Option ℕ :=
  levels[c]?.join

/-- Column `c` is stored with a level of at most `m`. -/
def Within (levels : Levels) (c m : ℕ) : Prop :=
  ∃ l, levels.level c = some l ∧ l ≤ m

variable {levels : Levels} {c k l m : ℕ}

lemma level_lower (levels : Levels) (c k l : ℕ) :
    (levels.lower k l).level c =
      if c = k ∧ k < levels.size then some ((levels.level c).elim l (min · l))
      else levels.level c := by
  rw [level, level, lower, Array.getElem?_modify]
  by_cases hck : k = c
  · subst hck
    by_cases hk : k < levels.size
    · rw [if_pos rfl, if_pos ⟨rfl, hk⟩, Array.getElem?_eq_getElem hk]
      cases levels[k] <;> rfl
    · rw [if_pos rfl, if_neg (fun h => hk h.2), Array.getElem?_eq_none (Nat.not_lt.mp hk)]
      rfl
  · rw [if_neg hck, if_neg (fun h => hck h.1.symm)]

@[simp]
lemma size_lower (levels : Levels) (k l : ℕ) : (levels.lower k l).size = levels.size :=
  Array.size_modify

lemma within_lower : (levels.lower k l).Within c m ↔
    levels.Within c m ∨ (c = k ∧ k < levels.size ∧ l ≤ m) := by
  rw [Within, level_lower]
  by_cases h : c = k ∧ k < levels.size
  · rw [if_pos h, Within]
    cases hold : levels.level c with
    | none => simp [h]
    | some old =>
      simp only [Option.elim_some, Option.some.injEq, exists_eq_left', h, true_and]
      omega
  · rw [if_neg h, Within]
    constructor
    · exact Or.inl
    · rintro (hold | ⟨hc, hk, -⟩)
      · exact hold
      · exact absurd ⟨hc, hk⟩ h

/-- No level is above the limit. -/
def Bounded (limit : ℕ) (levels : Levels) : Prop :=
  ∀ c l, levels.level c = some l → l ≤ limit

lemma Bounded.lower {limit : ℕ} (h : Bounded limit levels) (hl : l ≤ limit) :
    Bounded limit (levels.lower k l) := by
  intro c l' hl'
  rw [level_lower] at hl'
  split at hl'
  · cases hold : levels.level c with
    | none =>
      rw [hold, Option.elim_none, Option.some_inj] at hl'
      omega
    | some old =>
      rw [hold, Option.elim_some, Option.some_inj] at hl'
      omega
  · exact h c l' hl'

/-- A column of level zero keeps it. -/
lemma level_lower_zero (h : levels.level c = some 0) : (levels.lower k l).level c = some 0 := by
  rw [level_lower, h]
  split
  · rw [Option.elim_some, Nat.zero_min]
  · rfl

/-- Lowering columns to zero stores them with level zero, and changes no other level. -/
lemma foldl_lower_spec (columns : List ℕ) (h : Bounded 0 levels) :
    (columns.foldl (fun levels c => levels.lower c 0) levels).size = levels.size ∧
      Bounded 0 (columns.foldl (fun levels c => levels.lower c 0) levels) ∧
      ∀ c m, (columns.foldl (fun levels c => levels.lower c 0) levels).Within c m ↔
        levels.Within c m ∨ (c ∈ columns ∧ c < levels.size) := by
  induction columns generalizing levels with
  | nil => exact ⟨rfl, h, fun c m => by simp⟩
  | cons k columns ih =>
    obtain ⟨hsize, hbounded, hwithin⟩ := ih (h.lower (k := k) (Nat.le_refl 0))
    rw [size_lower] at hsize
    refine ⟨hsize, hbounded, fun c m => ?_⟩
    rw [List.foldl_cons, hwithin c m, within_lower, size_lower, List.mem_cons]
    constructor
    · rintro ((hold | ⟨rfl, hk, -⟩) | ⟨member, hc⟩)
      · exact Or.inl hold
      · exact Or.inr ⟨Or.inl rfl, hk⟩
      · exact Or.inr ⟨Or.inr member, hc⟩
    · rintro (hold | ⟨rfl | member, hc⟩)
      · exact Or.inl (Or.inl hold)
      · exact Or.inl (Or.inr ⟨rfl, hc, Nat.zero_le m⟩)
      · exact Or.inr ⟨member, hc⟩

lemma mem_entries : (c, l) ∈ levels.entries ↔ levels.level c = some l := by
  rw [entries, List.mem_filterMap]
  constructor
  · rintro ⟨c', -, h⟩
    obtain ⟨l', hl', hpair⟩ := Option.map_eq_some_iff.mp h
    obtain ⟨rfl, rfl⟩ := Prod.mk.inj hpair
    exact hl'
  · intro h
    refine ⟨c, ?_, ?_⟩
    · rw [List.mem_range]
      by_contra hc
      rw [level, Array.getElem?_eq_none (Nat.not_lt.mp hc)] at h
      simp at h
    · rw [level] at h
      rw [h]
      rfl

/-- The stored columns come out in ascending order. -/
lemma ascending_entries (levels : Levels) : (levels.entries.map Prod.fst).Pairwise (· < ·) := by
  have hsub : levels.entries.map Prod.fst =
      (List.range levels.size).filter fun c => (levels.level c).isSome := by
    rw [entries, List.map_filterMap, ← List.filterMap_eq_filter]
    refine List.filterMap_congr fun c _ => ?_
    show ((levels.level c).map fun l => (c, l)).map Prod.fst = _
    cases hlevel : levels.level c with
    | none => simp [Option.guard, hlevel]
    | some l => simp [Option.guard, hlevel]
  rw [hsub]
  exact List.pairwise_lt_range.filter _

end Levels

/-! ## Visiting one column -/

section Visit

variable {limit own j c m : ℕ} {levels : Levels} {upper : List (ℕ × ℕ)}

/-- Fill by the entries of a finished row, given the level of the eliminated column. -/
def lowerAll (limit own : ℕ) (upper : List (ℕ × ℕ)) (levels : Levels) : Levels :=
  upper.foldl (fun levels (k, level) =>
    if own + level + 1 ≤ limit then levels.lower k (own + level + 1) else levels) levels

lemma fillFrom_eq (limit j : ℕ) (upper : List (ℕ × ℕ)) (levels : Levels) :
    fillFrom limit j upper levels =
      (levels.level j).elim levels fun own => lowerAll limit own upper levels := by
  rw [fillFrom, Levels.level]
  cases levels[j]?.join <;> rfl

/-- What lowering one after the other keeps. -/
lemma lowerAll_induction {P : Levels → Prop} (start : P levels)
    (step : ∀ levels k l, l ≤ limit → P levels → P (levels.lower k l)) :
    P (lowerAll limit own upper levels) := by
  induction upper generalizing levels with
  | nil => exact start
  | cons e upper ih =>
    rw [lowerAll, List.foldl_cons]
    by_cases h : own + e.2 + 1 ≤ limit
    · exact ih (by simpa only [if_pos h] using step _ _ _ h start)
    · exact ih (by simpa only [if_neg h] using start)

/-- What every visit of a column keeps. -/
lemma fillFrom_induction {P : Levels → Prop} (start : P levels)
    (step : ∀ levels k l, l ≤ limit → P levels → P (levels.lower k l)) :
    P (fillFrom limit j upper levels) := by
  rw [fillFrom_eq]
  cases levels.level j with
  | none => exact start
  | some own => exact lowerAll_induction start step

lemma within_lowerAll (hm : m ≤ limit) : (lowerAll limit own upper levels).Within c m ↔
    levels.Within c m ∨ ∃ l, (c, l) ∈ upper ∧ c < levels.size ∧ own + l + 1 ≤ m := by
  induction upper generalizing levels with
  | nil => simp [lowerAll]
  | cons e upper ih =>
    obtain ⟨k, level⟩ := e
    rw [lowerAll, List.foldl_cons]
    simp only
    by_cases hlevel : own + level + 1 ≤ limit
    · -- column `k` is lowered now, the others by the rest of the list
      rw [if_pos hlevel]
      refine ih.trans ?_
      rw [Levels.within_lower, Levels.size_lower]
      constructor
      · rintro ((h | ⟨rfl, hk, hl⟩) | ⟨l, hl, hc, hsum⟩)
        · exact Or.inl h
        · exact Or.inr ⟨level, List.mem_cons_self, hk, hl⟩
        · exact Or.inr ⟨l, List.mem_cons_of_mem _ hl, hc, hsum⟩
      · rintro (h | ⟨l, hl, hc, hsum⟩)
        · exact Or.inl (Or.inl h)
        · rcases List.mem_cons.mp hl with heq | hl
          · obtain ⟨rfl, rfl⟩ := Prod.mk.inj heq
            exact Or.inl (Or.inr ⟨rfl, hc, hsum⟩)
          · exact Or.inr ⟨l, hl, hc, hsum⟩
    · -- a level beyond the limit is within no `m` either
      rw [if_neg hlevel]
      refine ih.trans ?_
      constructor
      · rintro (h | ⟨l, hl, hc, hsum⟩)
        · exact Or.inl h
        · exact Or.inr ⟨l, List.mem_cons_of_mem _ hl, hc, hsum⟩
      · rintro (h | ⟨l, hl, hc, hsum⟩)
        · exact Or.inl h
        · rcases List.mem_cons.mp hl with heq | hl
          · obtain ⟨rfl, rfl⟩ := Prod.mk.inj heq
            omega
          · exact Or.inr ⟨l, hl, hc, hsum⟩

lemma within_fillFrom (hm : m ≤ limit) : (fillFrom limit j upper levels).Within c m ↔
    levels.Within c m ∨ ∃ own l, levels.level j = some own ∧ (c, l) ∈ upper ∧
      c < levels.size ∧ own + l + 1 ≤ m := by
  rw [fillFrom_eq]
  cases hown : levels.level j with
  | none => simp
  | some own =>
    rw [Option.elim_some, within_lowerAll hm]
    simp

end Visit

/-! ## One row -/

/-- Row `i` while it is filled: the columns below `j` have been visited. -/
structure Filling (E : ℕ → ℕ → Prop) (limit n i j : ℕ) (levels : Levels) : Prop where
  size : levels.size = n
  diagonal : levels.level i = some 0
  bounded : levels.Bounded limit
  within : ∀ c < n, c ≠ i → ∀ m ≤ limit,
    levels.Within c m ↔ FillPath E m (min j c) i c

/-- A finished row: its stored columns with their levels. -/
structure Filled (E : ℕ → ℕ → Prop) (limit n i : ℕ) (row : List (ℕ × ℕ)) : Prop where
  ascending : (row.map Prod.fst).Pairwise (· < ·)
  below : ∀ c ∈ row.map Prod.fst, c < n
  diagonal : i ∈ row.map Prod.fst
  bounded : ∀ e ∈ row, e.2 ≤ limit
  within : ∀ c < n, c ≠ i → ∀ m ≤ limit,
    (∃ l, (c, l) ∈ row ∧ l ≤ m) ↔ FillPath E m (min i c) i c

/-- The stored columns are those that a walk within the limit reaches. -/
lemma Filled.mem_columns {E : ℕ → ℕ → Prop} {limit n i : ℕ} {row : List (ℕ × ℕ)}
    (h : Filled E limit n i row) {c : ℕ} (hc : c < n) :
    c ∈ row.map Prod.fst ↔ i = c ∨ FillPath E limit (min i c) i c := by
  by_cases hci : c = i
  · subst hci
    exact ⟨fun _ => Or.inl rfl, fun _ => h.diagonal⟩
  · rw [← h.within c hc hci limit (Nat.le_refl _), List.mem_map]
    constructor
    · rintro ⟨⟨c', l⟩, member, rfl⟩
      exact Or.inr ⟨l, member, h.bounded _ member⟩
    · rintro (rfl | ⟨l, member, -⟩)
      · exact absurd rfl hci
      · exact ⟨(c, l), member, rfl⟩

namespace Filling

variable {E : ℕ → ℕ → Prop} {limit n i j : ℕ} {levels : Levels}

/-- Before any visit, the levels are those of the pattern itself with the diagonal. -/
lemma start {columns : List ℕ} (hi : i < n) (edges : ∀ c, c ∈ columns ↔ E i c) :
    Filling E limit n i 0 ((columns ++ [i]).foldl (fun levels c => Levels.lower levels c 0)
      (Array.replicate n none)) := by
  have hempty : ∀ c, Levels.level (Array.replicate n none) c = none := by
    intro c
    rw [Levels.level, Array.getElem?_replicate]
    split <;> rfl
  have hbounded : Levels.Bounded 0 (Array.replicate n none) := by
    intro c l hl
    rw [hempty] at hl
    simp at hl
  have hnone : ∀ c m, ¬ Levels.Within (Array.replicate n none) c m := by
    rintro c m ⟨l, hl, -⟩
    rw [hempty] at hl
    simp at hl
  obtain ⟨hsize, hzero, hwithin⟩ := Levels.foldl_lower_spec (columns ++ [i]) hbounded
  rw [Array.size_replicate] at hsize
  refine ⟨hsize, ?_, fun c l hl => (hzero c l hl).trans (Nat.zero_le limit), ?_⟩
  · have hmember : i ∈ columns ++ [i] := List.mem_append_right _ List.mem_cons_self
    obtain ⟨l, hl, hle⟩ := (hwithin i 0).mpr (Or.inr ⟨hmember, by rwa [Array.size_replicate]⟩)
    rw [hl, Nat.le_zero.mp hle]
  · intro c hc hci m _
    rw [hwithin c m, Nat.zero_min, FillPath.bound_zero, ← edges c, Array.size_replicate]
    have := hnone c m
    simp [this, hci, hc]

/-- Visiting column `j`: it may now be an inner vertex. -/
lemma visit (h : Filling E limit n i j levels) (hj : j < i) (hi : i < n) {row : List (ℕ × ℕ)}
    (finished : Filled E limit n j row) :
    Filling E limit n i (j + 1) (fillFrom limit j (row.filter (j < ·.1)) levels) := by
  have hupper : ∀ c l, (c, l) ∈ row.filter (j < ·.1) ↔ (c, l) ∈ row ∧ j < c := by
    intro c l
    rw [List.mem_filter, decide_eq_true_iff]
  have hlevel : ∀ p ≤ limit, levels.Within j p ↔ FillPath E p j i j := by
    intro p hp
    have := h.within j (hj.trans hi) (by omega) p hp
    rwa [Nat.min_self] at this
  refine ⟨?_, ?_, ?_, ?_⟩
  · exact fillFrom_induction (P := fun new => new.size = n) h.size
      fun new k l _ keep => (Levels.size_lower new k l).trans keep
  · exact fillFrom_induction (P := fun new => new.level i = some 0) h.diagonal
      fun new k l _ keep => Levels.level_lower_zero keep
  · exact fillFrom_induction (P := Levels.Bounded limit) h.bounded
      fun new k l hl keep => keep.lower hl
  · -- column `c` gains exactly the walks that pass through `j`
    intro c hc hci m hm
    rw [within_fillFrom hm, h.within c hc hci m hm]
    rcases Nat.lt_or_ge j c with hjc | hcj
    · rw [Nat.min_eq_left (Nat.le_of_lt hjc), Nat.min_eq_left hjc, fillPath_succ]
      refine or_congr_right ?_
      constructor
      · -- stored levels are lengths of walks within the limit
        rintro ⟨own, l, hown, member, -, hsum⟩
        have hl := (hupper c l).mp member
        refine ⟨own, l, hsum, ?_, ?_⟩
        · exact (hlevel own (h.bounded j own hown)).mp ⟨own, hown, Nat.le_refl own⟩
        · have hpath := finished.within c hc (by omega) l (finished.bounded _ hl.1)
          rw [Nat.min_eq_left (Nat.le_of_lt hjc)] at hpath
          exact hpath.mp ⟨l, hl.1, Nat.le_refl l⟩
      · -- both halves are within the limit, so their levels are stored and at most as large
        rintro ⟨p, q, hsum, first, second⟩
        obtain ⟨own, hown, hle⟩ := (hlevel p (by omega)).mpr first
        have hpath := finished.within c hc (by omega) q (by omega)
        rw [Nat.min_eq_left (Nat.le_of_lt hjc)] at hpath
        obtain ⟨l, member, hle'⟩ := hpath.mpr second
        exact ⟨own, l, hown, (hupper c l).mpr ⟨member, hjc⟩, by rwa [h.size], by omega⟩
    · -- the finished row has nothing at or before its diagonal
      rw [Nat.min_eq_right hcj, Nat.min_eq_right (Nat.le_succ_of_le hcj)]
      constructor
      · rintro (hpath | ⟨own, l, -, member, -⟩)
        · exact hpath
        · have := ((hupper c l).mp member).2
          omega
      · exact Or.inl

/-- After all visits the stored columns are read off. -/
lemma finish (h : Filling E limit n i i levels) : Filled E limit n i levels.entries where
  ascending := levels.ascending_entries
  below := by
    intro c hc
    obtain ⟨⟨c', l⟩, member, rfl⟩ := List.mem_map.mp hc
    have hl := Levels.mem_entries.mp member
    by_contra hle
    rw [Levels.level, Array.getElem?_eq_none (by rw [h.size]; exact Nat.not_lt.mp hle)] at hl
    simp at hl
  diagonal := List.mem_map.mpr ⟨(i, 0), Levels.mem_entries.mpr h.diagonal, rfl⟩
  bounded := fun e member => h.bounded e.1 e.2 (Levels.mem_entries.mp member)
  within := by
    intro c hc hci m hm
    rw [← h.within c hc hci m hm]
    simp only [Levels.mem_entries]
    rfl

end Filling

/-! ## All rows -/

section Rows

variable {a : BlockMatrix T} {limit : ℕ}

/-- One row, given finished rows above it. -/
lemma filledRow_spec (valid : a.Valid) {i : ℕ}
    (hi : i < a.rowCount) {above : Array (List (ℕ × ℕ))}
    (finished : ∀ j < i, Filled a.Stores limit a.rowCount j (above.getD j [])) :
    ∃ row, filledRow limit a above i = .ok row ∧ Filled a.Stores limit a.rowCount i row := by
  have hcolumns := valid.rowColumns_eq hi
  have hstart : Filling a.Stores limit a.rowCount i 0
      ((a.columnsOf i ++ [i]).foldl (fun levels c => Levels.lower levels c 0)
        (Array.replicate a.rowCount none)) :=
    Filling.start hi fun c => by rw [valid.stores_iff]; simp [hi]
  -- the columns are visited in ascending order
  have hvisits : ∀ j ≤ i, Filling a.Stores limit a.rowCount i j
      ((List.range j).foldl (fun levels j =>
        fillFrom limit j ((above.getD j []).filter (j < ·.1)) levels)
        ((a.columnsOf i ++ [i]).foldl (fun levels c => Levels.lower levels c 0)
          (Array.replicate a.rowCount none))) := by
    intro j hj
    induction j with
    | zero => exact hstart
    | succ j ih =>
      rw [List.range_succ, List.foldl_append]
      exact (ih (by omega)).visit (by omega) hi (finished j (by omega))
  refine ⟨_, ?_, (hvisits i (Nat.le_refl i)).finish⟩
  rw [filledRow, initialLevels, hcolumns]
  rfl

/-- The rows before `i` are finished. -/
structure FilledAbove (a : BlockMatrix T) (limit i : ℕ) (above : Array (List (ℕ × ℕ))) : Prop where
  size : above.size = i
  filled : ∀ (j : ℕ) (hj : j < above.size), Filled a.Stores limit a.rowCount j above[j]

/-- The rows with their levels, from the first to the last. -/
lemma filledRows_spec (valid : a.Valid) (limit : ℕ) :
    ∃ rows, a.filledRows limit = .ok rows ∧ rows.length = a.rowCount ∧
      ∀ (i : ℕ) (hi : i < rows.length), Filled a.Stores limit a.rowCount i rows[i] := by
  have hwalk : ∃ rows : Array (List (ℕ × ℕ)),
      Walk.up (fun above i => do return above.push (← filledRow limit a above i))
        a.rowCount 0 #[] = .ok rows ∧ FilledAbove a limit (0 + a.rowCount) rows := by
    refine Walk.up_spec ⟨rfl, fun j hj => absurd hj (Nat.not_lt_zero j)⟩ ?_
    intro i above _ hi h
    have hfinished : ∀ j < i, Filled a.Stores limit a.rowCount j (above.getD j []) := by
      intro j hj
      have hj' : j < above.size := by rwa [h.size]
      rw [Array.getD_eq_getD_getElem?, Array.getElem?_eq_getElem hj', Option.getD_some]
      exact h.filled j hj'
    obtain ⟨row, hrow, hfilled⟩ := filledRow_spec valid (by omega) hfinished
    refine ⟨above.push row, ?_, ?_, ?_⟩
    · rw [hrow, ok_bind, pure_eq]
    · rw [Array.size_push, h.size]
    · intro j hj
      rw [Array.getElem_push]
      split
      · next hlt => exact h.filled j hlt
      · next hge =>
        rw [h.size] at hge
        rw [Array.size_push, h.size] at hj
        rw [show j = i by omega]
        exact hfilled
  obtain ⟨rows, hrun, hsize, hrows⟩ := hwalk
  rw [Nat.zero_add] at hsize
  refine ⟨rows.toList, ?_, ?_, fun i hi => ?_⟩
  · rw [Walk.up_eq_foldlM] at hrun
    rw [filledRows, List.range_eq_range', hrun]
    rfl
  · rw [Array.length_toList, hsize]
  · rw [Array.getElem_toList]
    exact hrows i _

end Rows

/-! ## The pattern -/

/-- Positions of the level-of-fill pattern: the diagonal, and the pairs that are joined by a walk
with at most `limit` inner vertices, all of them smaller than both ends. -/
def FillStores (a : BlockMatrix T) (limit i j : ℕ) : Prop :=
  i < a.rowCount ∧ j < a.rowCount ∧ (i = j ∨ FillPath a.Stores limit (min i j) i j)

/-- Number of positions of the pattern. -/
noncomputable def fillCount (a : BlockMatrix T) (limit : ℕ) : ℕ :=
  ∑ i ∈ Finset.range a.rowCount, {j | a.FillStores limit i j}.ncard

/-- Level zero is the pattern itself with the diagonal. -/
lemma fillStores_zero {a : BlockMatrix T} {i j : ℕ} : a.FillStores 0 i j ↔
    i < a.rowCount ∧ j < a.rowCount ∧ (i = j ∨ a.Stores i j) := by
  rw [FillStores, FillPath.length_zero]

/-- The patterns are nested. -/
lemma FillStores.mono {a : BlockMatrix T} {limit limit' i j : ℕ} (h : a.FillStores limit i j)
    (hle : limit ≤ limit') : a.FillStores limit' i j :=
  ⟨h.1, h.2.1, h.2.2.imp_right fun path => path.mono hle (Nat.le_refl _)⟩

/-- The zero matrix on the level-of-fill pattern. -/
structure LevelOfFill [Zero T] (a : BlockMatrix T) (limit : ℕ) (f : BlockMatrix T) : Prop where
  valid : f.Valid
  blockSize : f.blockSize = a.blockSize
  rowCount : f.rowCount = a.rowCount
  columnCount : f.columnCount = a.rowCount
  zero : ∀ x ∈ f.values, x = 0
  stores : ∀ i j, f.Stores i j ↔ a.FillStores limit i j

/-- There is room for as many columns as the growth announces, and for the blocks of the pattern. -/
def HasRoom [One R] [Mul R] [LE R] [DecidableLE R] [Magnitude R] (a : BlockMatrix T) (limit : ℕ)
    (growth : R) : Prop :=
  a.reserveGrowth growth = .ok () ∧
    a.fillCount limit * (a.blockSize * a.blockSize) < Capacity.limit

section Pattern

variable [Zero T] [One R] [Mul R] [LE R] [DecidableLE R] [Magnitude R] {a : BlockMatrix T}
variable {limit : ℕ}

omit [Zero T] in
/-- As many columns are listed as there are positions. -/
lemma size_columns_eq_fillCount {rows : List (List (ℕ × ℕ))} (length : rows.length = a.rowCount)
    (filled : ∀ (i : ℕ) (hi : i < rows.length), Filled a.Stores limit a.rowCount i rows[i]) :
    (rows.flatten.map Prod.fst).toArray.size = a.fillCount limit := by
  have hrow : ∀ (i : ℕ) (hi : i < rows.length),
      {j | a.FillStores limit i j}.ncard = rows[i].length := by
    intro i hi
    have h := filled i hi
    have hset : {j | a.FillStores limit i j} =
        ↑(rows[i].map Prod.fst).toFinset := by
      ext j
      rw [Set.mem_ofPred_eq, Finset.mem_coe, List.mem_toFinset, FillStores]
      constructor
      · rintro ⟨-, hj, hstores⟩
        exact (h.mem_columns hj).mpr hstores
      · intro member
        have hj := h.below j member
        exact ⟨by omega, hj, (h.mem_columns hj).mp member⟩
    rw [hset, Set.ncard_coe_finset, List.toFinset_card_of_nodup, List.length_map]
    exact h.ascending.imp Nat.ne_of_lt
  rw [List.size_toArray, List.length_map, List.length_flatten, fillCount, ← length,
    ← Fin.sum_univ_eq_sum_range, ← List.sum_ofFn]
  congr 1
  apply List.ext_getElem
  · rw [List.length_ofFn, List.length_map]
  · intro i _ hi
    rw [List.length_ofFn] at hi
    rw [List.getElem_ofFn, List.getElem_map, hrow i hi]

omit [One R] [Mul R] [LE R] [DecidableLE R] [Magnitude R] in
/-- The rows that were found make the level-of-fill pattern, if there is room for its blocks. -/
lemma ofPattern_rows (valid : a.Valid) {rows : List (List (ℕ × ℕ))}
    (length : rows.length = a.rowCount)
    (filled : ∀ (i : ℕ) (hi : i < rows.length), Filled a.Stores limit a.rowCount i rows[i])
    (room : a.fillCount limit * (a.blockSize * a.blockSize) < Capacity.limit) :
    ∃ f, ofPattern a.blockSize a.rowCount a.rowCount (Offsets.ofLengths (rows.map List.length))
      (rows.flatten.map Prod.fst).toArray = .ok f ∧ a.LevelOfFill limit f := by
  -- the columns of the pattern, row by row
  have hflatten : (rows.flatten.map Prod.fst).toArray =
      (rows.map fun row => row.map Prod.fst).flatten.toArray := by
    rw [List.map_flatten]
  have hoffsets : rows.map List.length =
      (rows.map fun row => row.map Prod.fst).map List.length := by
    rw [List.map_map]
    exact List.map_congr_left fun row _ => (List.length_map _).symm
  have hsize := size_columns_eq_fillCount length filled
  have hmember : ∀ row ∈ rows.map fun row => row.map Prod.fst,
      row.Pairwise (· < ·) ∧ ∀ c ∈ row, c < a.rowCount := by
    intro row member
    obtain ⟨row', hrow', rfl⟩ := List.mem_map.mp member
    obtain ⟨i, hi, rfl⟩ := List.getElem_of_mem hrow'
    exact ⟨(filled i hi).ascending, (filled i hi).below⟩
  have hzeros : (Block.zeros (a.fillCount limit * (a.blockSize * a.blockSize)) :
      Array T).size = (rows.map fun row => row.map Prod.fst).flatten.length *
        (a.blockSize * a.blockSize) := by
    rw [← List.size_toArray, ← hflatten, hsize]
    exact Array.size_replicate
  obtain ⟨f, hf, hvalid, hblock, hrow, hcolumn, hvalues, hread⟩ :=
    ofValues_ofRows valid.blockSize_pos (fun row member => (hmember row member).1)
      (fun row member => (hmember row member).2) hzeros
  rw [List.length_map, length] at hf hrow
  refine ⟨f, ?_, hvalid, hblock, hrow, hcolumn, ?_, fun i j => ?_⟩
  · rw [ofPattern, Block.allocate, hsize, Nat.mul_assoc, Capacity.reserve_eq_ok_iff.mpr room,
      ok_bind, pure_eq, ok_bind, hflatten, hoffsets, hf]
  · intro x hx
    rw [hvalues] at hx
    exact (Array.mem_replicate.mp hx).2
  · rw [hvalid.stores_iff, hrow, FillStores]
    refine and_congr_right fun hi => ?_
    have hi' : i < rows.length := by rwa [length]
    rw [hread i (by rwa [List.length_map]), List.getElem_map]
    constructor
    · intro member
      have hj := (filled i hi').below j member
      exact ⟨hj, ((filled i hi').mem_columns hj).mp member⟩
    · rintro ⟨hj, hstores⟩
      exact ((filled i hi').mem_columns hj).mpr hstores

/-- The pattern of a matrix is found, unless there is no room for it. -/
lemma fillPattern_spec (valid : a.Valid) (square : a.rowCount = a.columnCount) (limit : ℕ)
    (growth : R) :
    (a.HasRoom limit growth ∧
        ∃ f, a.fillPattern limit growth = .ok f ∧ a.LevelOfFill limit f) ∨
      (¬ a.HasRoom limit growth ∧ a.fillPattern limit growth = .error .tooLarge) := by
  obtain ⟨rows, hrows, hlength, hfilled⟩ := filledRows_spec valid limit
  rw [fillPattern, if_neg (not_not.mpr square), HasRoom]
  show (_ ∧ ∃ f, (a.reserveGrowth growth >>= fun _ => _) = _ ∧ _) ∨
    (_ ∧ (a.reserveGrowth growth >>= fun _ => _) = _)
  have hgrowth : a.reserveGrowth growth = .ok () ∨
      a.reserveGrowth growth = .error .tooLarge := by
    rw [reserveGrowth]
    split
    · exact Or.inr rfl
    · exact Or.inl rfl
  rcases hgrowth with hgrowth | hgrowth
  · rw [hgrowth, ok_bind, hrows, ok_bind]
    by_cases hroom : a.fillCount limit * (a.blockSize * a.blockSize) < Capacity.limit
    · exact Or.inl ⟨⟨rfl, hroom⟩, ofPattern_rows valid hlength hfilled hroom⟩
    · -- the values are allocated before the pattern is checked
      have hsize := size_columns_eq_fillCount hlength hfilled
      right
      refine ⟨fun h => hroom h.2, ?_⟩
      rw [ofPattern, Block.allocate, hsize, Nat.mul_assoc, Capacity.reserve, if_neg hroom]
      rfl
  · right
    rw [hgrowth]
    exact ⟨fun h => by simp at h, rfl⟩

/-- What it means that a pattern was found. -/
lemma levelOfFill_of_fillPattern (valid : a.Valid) {growth : R} {f : BlockMatrix T}
    (found : a.fillPattern limit growth = .ok f) :
    a.rowCount = a.columnCount ∧ a.LevelOfFill limit f := by
  have square : a.rowCount = a.columnCount := by
    by_contra hne
    rw [fillPattern, if_pos hne] at found
    exact absurd found (by simp)
  obtain ⟨-, f', hf', level⟩ :=
    (fillPattern_spec valid square limit growth).resolve_right fun h => by
      rw [found] at h
      simp at h
  obtain rfl : f = f' := Except.ok.inj (found.symm.trans hf')
  exact ⟨square, level⟩

/-- Where there is room, the pattern is found and is the level-of-fill pattern; otherwise the lack
of room is all that is reported. -/
theorem fillPattern_eq_levelOfFill (valid : a.Valid) (square : a.rowCount = a.columnCount)
    (limit : ℕ) (growth : R) :
    (a.HasRoom limit growth →
        ∃ f, a.fillPattern limit growth = .ok f ∧ a.LevelOfFill limit f) ∧
      (¬ a.HasRoom limit growth → a.fillPattern limit growth = .error .tooLarge) := by
  rcases fillPattern_spec valid square limit growth with ⟨room, h⟩ | ⟨room, h⟩
  · exact ⟨fun _ => h, fun lack => absurd room lack⟩
  · exact ⟨fun h' => absurd h' room, fun _ => h⟩

end Pattern

/-- One level of fill closes the arrow. -/
theorem arrow_fillPattern :
    arrow.Valid ∧ arrow.rowCount = arrow.columnCount ∧ arrow.HasRoom 1 (2 : ℚ) ∧
      ∃ f, arrow.fillPattern 1 (2 : ℚ) = .ok f ∧ arrow.LevelOfFill 1 f := by
  have valid : arrow.Valid := by decide +kernel
  have success : (arrow.fillPattern 1 (2 : ℚ)).toOption.isSome := by decide +kernel
  obtain ⟨found, lacking⟩ := fillPattern_eq_levelOfFill valid rfl 1 (2 : ℚ)
  have room : arrow.HasRoom 1 (2 : ℚ) := by
    by_contra lack
    rw [lacking lack] at success
    exact absurd success (by decide)
  exact ⟨valid, rfl, room, found room⟩

/-- A growth may announce more columns than any array holds, and then no pattern is returned. -/
theorem exists_fillPattern_fails :
    ¬ ∀ a : BlockMatrix ℚ, a.Valid → a.rowCount = a.columnCount → ∀ (limit : ℕ) (growth : ℚ),
      ∃ f, a.fillPattern limit growth = .ok f ∧ a.LevelOfFill limit f := by
  intro filled
  have valid : arrow.Valid := by decide +kernel
  obtain ⟨f, hf, -⟩ := filled arrow valid rfl 0 (10 ^ 300)
  have failure : ¬ (arrow.fillPattern 0 (10 ^ 300 : ℚ)).toOption.isSome := by decide +kernel
  rw [hf] at failure
  exact failure rfl

end DomainDecomposition.BlockMatrix
