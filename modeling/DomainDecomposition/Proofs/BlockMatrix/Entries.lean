import DomainDecomposition.BlockMatrix.View
import DomainDecomposition.Proofs.Block.Algebra
import Mathlib.Algebra.BigOperators.Group.Finset.Basic
import Mathlib.Data.List.TakeWhile

/-!
# Rows as sparse vectors of blocks

A row of entries stands for the blocks `coeff b row j`, one for every column `j`, which are zero
where the row stores nothing. A row is `Regular` when its columns ascend strictly and its blocks
have full size.

* `lookup_mergeRow`, `coeff_mergeRow_accumulate`: merging changes exactly the shared columns,
* `sum_coeff`: a sum over the stored entries is a sum over all columns.
-/

namespace DomainDecomposition.Entries

variable {T : Type}

/-- The columns of a row, in its order. -/
def columns (row : Entries T) : List ℕ :=
  row.map Prod.fst

/-- Columns ascend strictly, and every block has full size. -/
structure Regular (b : ℕ) (row : Entries T) : Prop where
  ascending : row.columns.Pairwise (· < ·)
  full : ∀ e ∈ row, e.2.size = b * b

/-! ## Columns -/

@[simp]
lemma columns_nil : columns ([] : Entries T) = [] :=
  rfl

@[simp]
lemma columns_cons (e : ℕ × Array T) (row : Entries T) : columns (e :: row) = e.1 :: columns row :=
  rfl

lemma columns_append (row row' : Entries T) :
    columns (row ++ row') = columns row ++ columns row' :=
  List.map_append

@[simp]
lemma length_columns (row : Entries T) : (columns row).length = row.length :=
  List.length_map Prod.fst

lemma mem_columns {row : Entries T} {j : ℕ} : j ∈ columns row ↔ ∃ block, (j, block) ∈ row := by
  rw [columns, List.mem_map]
  constructor
  · rintro ⟨⟨c, block⟩, member, rfl⟩
    exact ⟨block, member⟩
  · rintro ⟨block, member⟩
    exact ⟨(j, block), member, rfl⟩

lemma lookup_eq_none {row : Entries T} {j : ℕ} : row.lookup j = none ↔ j ∉ columns row := by
  rw [List.lookup_eq_none_iff, mem_columns]
  constructor
  · rintro h ⟨block, member⟩
    simpa using h _ member
  · rintro h ⟨c, block⟩ member
    refine bne_iff_ne.mpr fun e => h ⟨block, ?_⟩
    rwa [e]

lemma mem_of_lookup {row : Entries T} {j : ℕ} {block : Array T} (h : row.lookup j = some block) :
    (j, block) ∈ row := by
  obtain ⟨before, behind, rfl, -⟩ := List.lookup_eq_some_iff.mp h
  exact List.mem_append_right _ List.mem_cons_self

lemma lookup_cons_of_ne {c j : ℕ} (h : j ≠ c) (block : Array T) (row : Entries T) :
    ((c, block) :: row).lookup j = row.lookup j := by
  rw [List.lookup_cons, beq_eq_false_iff_ne.mpr h]

/-- The first entry of an ascending row has the smallest column. -/
lemma ascending_cons {e : ℕ × Array T} {row : Entries T} :
    (columns (e :: row)).Pairwise (· < ·) ↔
      (∀ c ∈ columns row, e.1 < c) ∧ (columns row).Pairwise (· < ·) :=
  List.pairwise_cons

/-- A column at or before the first one of an ascending row is not behind it. -/
lemma not_mem_of_ascending_cons {e : ℕ × Array T} {row : Entries T} {j : ℕ}
    (h : (columns (e :: row)).Pairwise (· < ·)) (hj : j ≤ e.1) : j ∉ columns row := by
  intro member
  have := (ascending_cons.mp h).1 j member
  omega

/-- A column before the first one of an ascending row is not stored. -/
lemma lookup_eq_none_of_lt {e : ℕ × Array T} {row : Entries T} {j : ℕ}
    (h : (columns (e :: row)).Pairwise (· < ·)) (hj : j < e.1) : (e :: row).lookup j = none := by
  obtain ⟨c, block⟩ := e
  rw [lookup_cons_of_ne (Nat.ne_of_lt hj), lookup_eq_none]
  exact not_mem_of_ascending_cons h (Nat.le_of_lt hj)

lemma Regular.tail {b : ℕ} {e : ℕ × Array T} {row : Entries T} (h : Regular b (e :: row)) :
    Regular b row where
  ascending := (ascending_cons.mp h.ascending).2
  full := fun e' member => h.full e' (List.mem_cons_of_mem e member)

lemma Regular.exchange {b c : ℕ} {old new : Array T} {left right : Entries T}
    (h : Regular b (left ++ (c, old) :: right)) (hnew : new.size = b * b) :
    Regular b (left ++ (c, new) :: right) where
  ascending := by
    have hcolumns := h.ascending
    rwa [columns_append, columns_cons] at hcolumns ⊢
  full := by
    intro e member
    rcases List.mem_append.mp member with hleft | hrest
    · exact h.full e (List.mem_append_left _ hleft)
    · rcases List.mem_cons.mp hrest with rfl | hright
      · exact hnew
      · exact h.full e (List.mem_append_right _ (List.mem_cons_of_mem _ hright))

lemma Regular.size_of_lookup {b : ℕ} {row : Entries T} {j : ℕ} {block : Array T}
    (h : Regular b row) (found : row.lookup j = some block) : block.size = b * b :=
  h.full _ (mem_of_lookup found)

/-! ## Merging -/

/-- Merging keeps the columns of the target. -/
lemma columns_mergeRow (update : Array T → Array T → Array T) (source target : Entries T) :
    columns (mergeRow update source target) = columns target := by
  fun_induction mergeRow update source target with
  | case1 target => rfl
  | case2 target => rfl
  | case3 k block source target c old rest found ih =>
    have hsplit : columns target =
        columns (target.takeWhile (·.1 < k)) ++ columns (target.dropWhile (·.1 < k)) := by
      rw [← columns_append, List.takeWhile_append_dropWhile]
    rw [columns_append, ih, hsplit, found]
    split <;> rfl

/-- Merging keeps the sizes of the blocks. -/
lemma full_mergeRow {b : ℕ} {update : Array T → Array T → Array T}
    (keep : ∀ x y, y.size = b * b → (update x y).size = b * b) {source target : Entries T}
    (full : ∀ e ∈ target, e.2.size = b * b) :
    ∀ e ∈ mergeRow update source target, e.2.size = b * b := by
  fun_induction mergeRow update source target with
  | case1 target => exact full
  | case2 target => exact full
  | case3 k block source target c old rest found ih =>
    have hsub : ∀ e ∈ (c, old) :: rest, e.2.size = b * b := by
      intro e member
      rw [← found] at member
      exact full e ((List.dropWhile_sublist _).subset member)
    intro e member
    rcases List.mem_append.mp member with h | h
    · exact full e ((List.takeWhile_sublist _).subset h)
    · refine ih ?_ e h
      split
      · rintro e' h'
        rcases List.mem_cons.mp h' with rfl | h'
        · exact keep block old (hsub _ List.mem_cons_self)
        · exact hsub e' (List.mem_cons_of_mem _ h')
      · exact hsub

/-- An entry of the target is updated where the source has its column, and stays otherwise. -/
lemma lookup_mergeRow (update : Array T → Array T → Array T) {source target : Entries T} (j : ℕ)
    (hsource : (columns source).Pairwise (· < ·)) (htarget : (columns target).Pairwise (· < ·)) :
    (mergeRow update source target).lookup j =
      (target.lookup j).map fun old => (source.lookup j).elim old fun new => update new old := by
  fun_induction mergeRow update source target with
  | case1 target =>
    rw [List.lookup_nil]
    cases target.lookup j <;> rfl
  | case2 k block source target found =>
    -- all columns of the target lie before the source
    cases hj : target.lookup j with
    | none => rfl
    | some old =>
      have hjk : j < k := by
        have h := (List.dropWhile_eq_nil_iff.mp found) _ (mem_of_lookup hj)
        simpa using h
      rw [lookup_eq_none_of_lt hsource hjk]
      rfl
  | case3 k block source target c old rest found ih =>
    -- the entries before column `k` are passed over, and entry `(c, old)` is the next one
    have hsplit : target.takeWhile (·.1 < k) ++ (c, old) :: rest = target := by
      rw [← found, List.takeWhile_append_dropWhile]
    have hkc : k ≤ c := by
      have h := List.head?_dropWhile_not (fun e : ℕ × Array T => decide (e.1 < k)) target
      rw [found] at h
      simpa using h
    have htail : (columns ((c, old) :: rest)).Pairwise (· < ·) := by
      rw [← hsplit, columns_append] at htarget
      exact (List.pairwise_append.mp htarget).2.1
    have hmerged := ih (ascending_cons.mp hsource).2
      (by split <;> exact ascending_cons.mpr (ascending_cons.mp htail))
    rw [List.lookup_append, hmerged]
    conv_rhs => rw [← hsplit, List.lookup_append]
    cases hj : (target.takeWhile (·.1 < k)).lookup j with
    | some before =>
      -- column `j` is among those passed over, so the source does not have it
      have hjk : j < k := by
        have h := List.mem_takeWhile_imp (mem_of_lookup hj)
        simpa using h
      rw [lookup_eq_none_of_lt hsource hjk]
      rfl
    | none =>
      rw [Option.none_or, Option.none_or]
      by_cases hck : c = k
      · subst hck
        rw [if_pos rfl]
        by_cases hjc : j = c
        · have hnone : source.lookup j = none :=
            lookup_eq_none.mpr (not_mem_of_ascending_cons hsource (by simp only; omega))
          rw [hnone, hjc, List.lookup_cons_self, List.lookup_cons_self, List.lookup_cons_self]
          rfl
        · rw [lookup_cons_of_ne hjc, lookup_cons_of_ne hjc, lookup_cons_of_ne hjc]
      · rw [if_neg hck]
        by_cases hjk : j = k
        · -- the source column `k` is missing in the target
          rw [lookup_eq_none_of_lt htail (by simp only; omega)]
          rfl
        · rw [lookup_cons_of_ne hjk]

lemma Regular.mergeRow {b : ℕ} {update : Array T → Array T → Array T}
    (keep : ∀ x y, y.size = b * b → (update x y).size = b * b) {source target : Entries T}
    (h : Regular b target) : Regular b (mergeRow update source target) where
  ascending := by rw [columns_mergeRow]; exact h.ascending
  full := full_mergeRow keep h.full

/-! ## Coefficients -/

/-- The block in column `j` as a matrix, zero where nothing is stored. -/
def coeff [Zero T] (b : ℕ) (row : Entries T) (j : ℕ) : Matrix (Fin b) (Fin b) T :=
  (row.lookup j).elim 0 (Block.toMatrix b)

section Coefficients

variable [Zero T] {b : ℕ}

lemma coeff_of_lookup {row : Entries T} {j : ℕ} {block : Array T}
    (found : row.lookup j = some block) : coeff b row j = Block.toMatrix b block := by
  rw [coeff, found]
  rfl

lemma coeff_eq_zero {row : Entries T} {j : ℕ} (h : j ∉ columns row) : coeff b row j = 0 := by
  rw [coeff, lookup_eq_none.mpr h]
  rfl

@[simp]
lemma coeff_nil (j : ℕ) : coeff b ([] : Entries T) j = 0 :=
  rfl

lemma coeff_cons (c : ℕ) (block : Array T) (row : Entries T) (j : ℕ) :
    coeff b ((c, block) :: row) j = if j = c then Block.toMatrix b block else coeff b row j := by
  by_cases hj : j = c
  · rw [if_pos hj, coeff, hj, List.lookup_cons_self]
    rfl
  · rw [if_neg hj, coeff, lookup_cons_of_ne hj]
    rfl

/-- The coefficients around one entry. -/
lemma coeff_append_cons {c : ℕ} {block : Array T} {left right : Entries T} (hc : c ∉ columns left)
    (j : ℕ) : coeff b (left ++ (c, block) :: right) j =
      if j = c then Block.toMatrix b block else coeff b (left ++ right) j := by
  rw [coeff, coeff, List.lookup_append, List.lookup_append]
  by_cases hj : j = c
  · rw [if_pos hj, hj, lookup_eq_none.mpr hc, Option.none_or, List.lookup_cons_self]
    rfl
  · rw [if_neg hj, lookup_cons_of_ne hj]

/-- Exchanging the block of one entry changes one coefficient. -/
lemma coeff_exchange {c : ℕ} {left right : Entries T} (hc : c ∉ columns left) (old new : Array T)
    (j : ℕ) : coeff b (left ++ (c, new) :: right) j =
      if j = c then Block.toMatrix b new else coeff b (left ++ (c, old) :: right) j := by
  rw [coeff_append_cons hc, coeff_append_cons hc]
  by_cases hj : j = c
  · rw [if_pos hj, if_pos hj]
  · rw [if_neg hj, if_neg hj, if_neg hj]

end Coefficients

/-- Merging with a multiple of the source: what the columns of the target become. -/
lemma coeff_mergeRow_accumulate [Ring T] {b : ℕ} (scale : Block.Scale T) (multiplier : Array T)
    {source target : Entries T} {j : ℕ} (hsource : (columns source).Pairwise (· < ·))
    (htarget : Regular b target) (hj : j ∈ columns target) :
    coeff b (mergeRow (fun new old => Block.accumulate b scale multiplier new old)
        source target) j =
      coeff b target j + scale.factor • (Block.toMatrix b multiplier * coeff b source j) := by
  have hlookup := lookup_mergeRow
    (fun new old => Block.accumulate b scale multiplier new old) j hsource htarget.ascending
  cases hold : target.lookup j with
  | none => exact absurd hj (lookup_eq_none.mp hold)
  | some old =>
    rw [hold, Option.map_some] at hlookup
    rw [coeff_of_lookup hlookup, coeff_of_lookup hold]
    cases hnew : source.lookup j with
    | none =>
      rw [coeff, hnew]
      simp
    | some new =>
      rw [coeff_of_lookup hnew]
      exact Block.toMatrix_accumulate b scale multiplier new (htarget.size_of_lookup hold)

/-- A sum over the entries of a row is a sum over all columns. -/
lemma sum_coeff [Zero T] {M : Type} [AddCommMonoid M] {b n : ℕ} {row : Entries T}
    (g : Matrix (Fin b) (Fin b) T → ℕ → M) (zero : ∀ j, g 0 j = 0)
    (ascending : (columns row).Pairwise (· < ·)) (below : ∀ c ∈ columns row, c < n) :
    ∑ j ∈ Finset.range n, g (coeff b row j) j =
      (row.map fun e => g (Block.toMatrix b e.2) e.1).sum := by
  induction row with
  | nil => simp [zero]
  | cons e row ih =>
    obtain ⟨c, block⟩ := e
    rw [ascending_cons] at ascending
    have hc : c ∉ columns row := fun h => Nat.lt_irrefl c (ascending.1 c h)
    have hterm : ∀ j ∈ Finset.range n, g (coeff b ((c, block) :: row) j) j =
        (if j = c then g (Block.toMatrix b block) c else 0) + g (coeff b row j) j := by
      intro j _
      rw [coeff_cons]
      by_cases hj : j = c
      · rw [if_pos hj, if_pos hj, hj, coeff_eq_zero hc, zero, add_zero]
      · rw [if_neg hj, if_neg hj, zero_add]
    rw [Finset.sum_congr rfl hterm, Finset.sum_add_distrib, Finset.sum_ite_eq',
      ih ascending.2 fun c' h => below c' (List.mem_cons_of_mem c h)]
    rw [if_pos (Finset.mem_range.mpr (below c List.mem_cons_self)), List.map_cons, List.sum_cons]

/-- An entry in a new column adds one term to a combination of blocks. -/
lemma sum_coeff_cons_mul [NonUnitalNonAssocSemiring T] {b n j : ℕ} {block : Array T}
    {row : Entries T} (hj : j < n) (fresh : j ∉ columns row) (g : ℕ → Matrix (Fin b) (Fin b) T) :
    ∑ k ∈ Finset.range n, coeff b ((j, block) :: row) k * g k =
      Block.toMatrix b block * g j + ∑ k ∈ Finset.range n, coeff b row k * g k := by
  have hterm : ∀ k ∈ Finset.range n, coeff b ((j, block) :: row) k * g k =
      (if k = j then Block.toMatrix b block * g j else 0) + coeff b row k * g k := by
    intro k _
    rw [coeff_cons]
    by_cases hk : k = j
    · rw [if_pos hk, if_pos hk, hk, coeff_eq_zero fresh, zero_mul, add_zero]
    · rw [if_neg hk, if_neg hk, zero_add]
  rw [Finset.sum_congr rfl hterm, Finset.sum_add_distrib, Finset.sum_ite_eq',
    if_pos (Finset.mem_range.mpr hj)]

end DomainDecomposition.Entries
