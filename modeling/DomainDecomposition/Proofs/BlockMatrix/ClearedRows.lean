import DomainDecomposition.Proofs.BlockMatrix.Values
import DomainDecomposition.Proofs.BlockMatrix.ValueSafety

/-!
# Cleared scalar rows

A scalar row of a matrix is named by its block row and a component. `Cleared rows unit a f` says
that `f` is the matrix `a` with the listed scalar rows cleared: their scalars are zero, and with
`unit` the one on the diagonal of the diagonal block is one, provided that this block is stored. All
other scalars, the pattern and the cache are those of `a`.

Clearing rows in two steps clears the rows of both (`Cleared.trans`), and the rows determine the
result (`Cleared.unique`). So neither the order of the steps counts nor how often a row is named.
`zeroRow_spec` says that one call clears the scalar rows that it names.
-/

namespace DomainDecomposition

open Outcome

variable {T : Type}

/-! ## Positions of scalars -/

/-- A position in the lines of length `b` that lies in line `m`. -/
lemma line_eq_iff {b m n l : ℕ} (hl : l < b) :
    m * b ≤ n * b + l ∧ n * b + l < m * b + b ↔ n = m := by
  constructor
  · rintro ⟨low, high⟩
    rcases Nat.lt_trichotomy n m with h | h | h
    · have := Span.succ_mul_le b h
      rw [Nat.succ_mul] at this
      omega
    · exact h
    · have := Span.succ_mul_le b h
      rw [Nat.succ_mul] at this
      omega
  · rintro rfl
    omega

/-- Component `v` of block `k` has a line of its own. -/
lemma component_eq_iff {b k k' v v' : ℕ} (hv : v < b) (hv' : v' < b) :
    k' * b + v' = k * b + v ↔ k' = k ∧ v' = v := by
  constructor
  · intro same
    have hk : k' = k := (line_eq_iff hv').mp (by omega)
    subst hk
    exact ⟨rfl, by omega⟩
  · rintro ⟨rfl, rfl⟩
    rfl

/-! ## One block -/

open Classical in
/-- A block with the listed lines cleared. A block that is its `own` diagonal block gets a one on
the diagonal of each. -/
noncomputable def Block.clearLines [Zero T] [One T] (b : ℕ) (lines : Set ℕ) (own : Prop)
    (block : Array T) : Array T :=
  ofEntries b fun r c => if r ∈ lines then if own ∧ r = c then 1 else 0 else entry b block r c

namespace Block

variable [Zero T] [One T] {b : ℕ} {lines lines' : Set ℕ} {own : Prop} {block : Array T}

open Classical in
lemma entry_clearLines {r c : ℕ} (hr : r < b) (hc : c < b) :
    entry b (clearLines b lines own block) r c =
      if r ∈ lines then if own ∧ r = c then 1 else 0 else entry b block r c :=
  entry_ofEntries _ hr hc

lemma size_clearLines : (clearLines b lines own block).size = b * b :=
  size_ofEntries ..

omit [One T] in
/-- Blocks of full size with the same entries are equal. -/
lemma eq_of_entry_eq {block' : Array T} (size : block.size = b * b) (size' : block'.size = b * b)
    (same : ∀ r < b, ∀ c < b, entry b block r c = entry b block' r c) : block = block' := by
  apply Array.ext (size.trans size'.symm)
  intro p hp hp'
  have pos : 0 < b := by
    by_contra h
    rw [size, Nat.eq_zero_of_not_pos h] at hp
    exact absurd hp (Nat.not_lt_zero p)
  have position : p / b * b + p % b = p := by
    rw [Nat.mul_comm]
    exact Nat.div_add_mod p b
  have read := same (p / b) (Nat.div_lt_of_lt_mul (by rwa [← size])) (p % b) (Nat.mod_lt p pos)
  rw [entry, entry, position, Array.getD_eq_getD_getElem?, Array.getD_eq_getD_getElem?,
    Array.getElem?_eq_getElem hp, Array.getElem?_eq_getElem hp'] at read
  exact read

/-- Without lines there is nothing to clear. -/
lemma clearLines_empty (size : block.size = b * b) : clearLines b ∅ own block = block := by
  refine eq_of_entry_eq size_clearLines size fun r hr c hc => ?_
  rw [entry_clearLines hr hc, if_neg (Set.notMem_empty r)]

/-- Clearing some lines and then others. -/
lemma clearLines_clearLines :
    clearLines b lines' own (clearLines b lines own block) =
      clearLines b (lines ∪ lines') own block := by
  refine eq_of_entry_eq size_clearLines size_clearLines fun r hr c hc => ?_
  rw [entry_clearLines hr hc, entry_clearLines hr hc, entry_clearLines hr hc]
  by_cases first : r ∈ lines
  · rw [if_pos first, if_pos (Set.mem_union_left _ first), ite_self]
  · by_cases second : r ∈ lines'
    · rw [if_pos second, if_pos (Set.mem_union_right _ second)]
    · rw [if_neg second, if_neg first, if_neg (by simp [first, second])]

end Block

namespace BlockMatrix

variable {a f g : BlockMatrix T}

/-! ## Rows of entries determine a matrix -/

/-- The position of a block is the one in its row that has its column. -/
lemma Valid.position?_eq_some_iff (valid : a.Valid) {i j k : ℕ} (hi : i < a.rowCount)
    (low : a.start i ≤ k) (high : k < a.start (i + 1)) :
    a.position? i j = some k ↔ a.columns.getD k 0 = j := by
  constructor
  · intro found
    exact (valid.place_of_position? found).2.2.2
  · rintro rfl
    have listed : ∀ t, a.start i ≤ t → t < a.start (i + 1) →
        (a.columnsOf i)[t - a.start i]? = some (a.columns.getD t 0) := by
      intro t low high
      rw [columnsOf, List.getElem?_map, List.getElem?_range' (by omega), Nat.one_mul,
        Nat.add_sub_cancel' low]
      rfl
    have stored : a.Stores i (a.columns.getD k 0) :=
      valid.stores_iff.mpr ⟨hi, List.mem_of_getElem? (listed k low high)⟩
    obtain ⟨t, found⟩ := Option.isSome_iff_exists.mp stored
    obtain ⟨-, low', high', same⟩ := valid.place_of_position? found
    have same' : t - a.start i = k - a.start i :=
      (List.getElem?_inj (List.getElem?_eq_some_iff.mp (listed t low' high')).1
        ((valid.ascending i hi).imp Nat.ne_of_lt)).mp
        ((listed t low' high').trans (same ▸ (listed k low high).symm))
    rw [found, show t = k by omega]

/-- Every entry lies in a row. -/
lemma Valid.exists_row (valid : a.Valid) {k : ℕ} (hk : k < a.columns.size) :
    ∃ i < a.rowCount, a.start i ≤ k ∧ k < a.start (i + 1) := by
  have reached : ∀ n ≤ a.rowCount, k < a.start n →
      ∃ i < a.rowCount, a.start i ≤ k ∧ k < a.start (i + 1) := by
    intro n hn before
    induction n with
    | zero =>
      rw [valid.start_zero] at before
      exact absurd before (Nat.not_lt_zero k)
    | succ n ih =>
      rcases Nat.lt_or_ge k (a.start n) with h | h
      · exact ih (by omega) h
      · exact ⟨n, hn, h, before⟩
  exact reached a.rowCount (Nat.le_refl _) (by rwa [valid.start_rowCount])

/-- On one pattern, the rows determine the values. -/
lemma eq_of_rowEntries_eq (valid : a.Valid) (same : SamePattern a f) (same' : SamePattern a g)
    (rows : ∀ i < a.rowCount, f.rowEntries i = g.rowEntries i) : f = g := by
  obtain ⟨v, hv, rfl⟩ := same
  obtain ⟨w, hw, rfl⟩ := same'
  refine congrArg a.withValues (Span.eq_of_chunk_eq (hv.trans valid.size_values)
    (hw.trans valid.size_values) fun k hk => ?_)
  obtain ⟨i, hi, low, high⟩ := valid.exists_row hk
  have entry := congrArg (·[k - a.start i]?) (rows i hi)
  simp only [rowEntries, List.getElem?_map] at entry
  rw [show (a.withValues v).start = a.start from rfl,
    show (a.withValues w).start = a.start from rfl,
    List.getElem?_range' (by omega)] at entry
  have blocks := congrArg Prod.snd (Option.some.inj entry)
  rwa [Nat.one_mul, Nat.add_sub_cancel' low] at blocks

/-! ## Clearing rows -/

variable [Zero T] [One T]

/-- The matrix `f` is `a` with the listed scalar rows cleared. -/
structure Cleared (rows : Set (ℕ × ℕ)) (unit : Bool) (a f : BlockMatrix T) : Prop where
  same : SamePattern a f
  entries : ∀ i < a.rowCount, f.rowEntries i = (a.rowEntries i).map fun e =>
    (e.1, Block.clearLines a.blockSize {v | (i, v) ∈ rows} (unit = true ∧ e.1 = i) e.2)

namespace Cleared

variable {rows rows' : Set (ℕ × ℕ)} {unit : Bool}

lemma rowCount_eq (cleared : Cleared rows unit a f) : f.rowCount = a.rowCount := by
  obtain ⟨v, -, rfl⟩ := cleared.same
  rfl

lemma blockSize_eq (cleared : Cleared rows unit a f) : f.blockSize = a.blockSize := by
  obtain ⟨v, -, rfl⟩ := cleared.same
  rfl

/-- The rows determine the result. -/
lemma unique (valid : a.Valid) (hf : Cleared rows unit a f) (hg : Cleared rows unit a g) :
    f = g :=
  eq_of_rowEntries_eq valid hf.same hg.same fun i hi => (hf.entries i hi).trans (hg.entries i hi).symm

/-- Without rows there is nothing to clear. -/
lemma refl (valid : a.Valid) (unit : Bool) : Cleared ∅ unit a a where
  same := .refl a
  entries := by
    intro i hi
    symm
    refine (List.map_congr_left fun e member => ?_).trans (List.map_id _)
    exact Prod.ext rfl (Block.clearLines_empty ((valid.regular hi).full e member))

/-- Clearing some rows and then others clears them all. -/
lemma trans (hf : Cleared rows unit a f) (hg : Cleared rows' unit f g) :
    Cleared (rows ∪ rows') unit a g where
  same := by
    obtain ⟨v, hv, rfl⟩ := hf.same
    obtain ⟨w, hw, rfl⟩ := hg.same
    exact ⟨w, hw.trans hv, rfl⟩
  entries := by
    intro i hi
    rw [hg.entries i (by rwa [hf.rowCount_eq]), hf.entries i hi, List.map_map, hf.blockSize_eq]
    refine List.map_congr_left fun e _ => Prod.ext rfl ?_
    exact Block.clearLines_clearLines

end Cleared

/-! ## One call -/

omit [One T] in
/-- A line of zeros, written at component `u` of block `k`. -/
lemma getElem?_overwrite_line {b n k u v l : ℕ} {values : Array T}
    (size : values.size = n * (b * b)) (hk : k < n) (hu : u < b) (k' : ℕ) (hv : v < b)
    (hl : l < b) :
    (Span.overwrite values ((k * b + u) * b) (Block.zeros b))[(k' * b + v) * b + l]? =
      if k' = k ∧ v = u then some 0 else values[(k' * b + v) * b + l]? := by
  have inside := scalarRow_le (n := n) hk hu
  rw [Span.getElem?_overwrite, Block.zeros, Array.size_replicate]
  by_cases here : k' = k ∧ v = u
  · obtain ⟨rfl, rfl⟩ := here
    rw [if_pos (by omega), if_pos ⟨rfl, rfl⟩, Nat.add_sub_cancel_left,
      Array.getElem?_replicate, if_pos hl]
  · have elsewhere : k' * b + v ≠ k * b + u := mt (component_eq_iff hu hv).mp here
    rw [if_neg here, if_neg]
    rintro ⟨low, high, -⟩
    exact elsewhere ((line_eq_iff hl).mp ⟨low, high⟩)

/-- A line that is cleared: its scalars are zero, and in a diagonal block the one on the diagonal is
one. -/
lemma getElem?_clearedLine {b n k u k' v l : ℕ} {onDiagonal : Bool} {values : Array T}
    (size : values.size = n * (b * b)) (hk : k < n) (hu : u < b) (hv : v < b) (hl : l < b) :
    (if onDiagonal = true then
        (Span.overwrite values ((k * b + u) * b) (Block.zeros b)).setIfInBounds
          ((k * b + u) * b + u) 1
      else Span.overwrite values ((k * b + u) * b) (Block.zeros b))[(k' * b + v) * b + l]? =
      if k' = k ∧ v = u then some (if onDiagonal = true ∧ v = l then 1 else 0)
      else values[(k' * b + v) * b + l]? := by
  have cleared := getElem?_overwrite_line size hk hu k' hv hl
  cases onDiagonal with
  | false => simpa using cleared
  | true =>
    have inside : (k * b + u) * b + u < values.size := size ▸ scalar_lt hk hu hu
    rw [if_pos rfl, Array.getElem?_setIfInBounds, cleared, Span.size_overwrite, if_pos inside]
    by_cases unit : (k * b + u) * b + u = (k' * b + v) * b + l
    · obtain ⟨line, rfl⟩ := (component_eq_iff hl hu).mp unit
      obtain ⟨rfl, rfl⟩ := (component_eq_iff hv hu).mp line
      simp
    · rw [if_neg unit]
      by_cases here : k' = k ∧ v = u
      · obtain ⟨rfl, rfl⟩ := here
        have apart : v ≠ l := fun same => unit (by rw [same])
        simp [apart]
      · rw [if_neg here, if_neg here]

/-- Scalar `(v, l)` of block `k'` after the listed lines of entry `k` have been cleared. -/
lemma clearEntryRows_spec {b n k : ℕ} {components : List ℕ} (onDiagonal : Bool) {values : Array T}
    (size : values.size = n * (b * b)) (hk : k < n) (inside : ∀ v ∈ components, v < b) :
    ∃ w, clearEntryRows b k components onDiagonal values = .ok w ∧ w.size = n * (b * b) ∧
      ∀ k' v l, v < b → l < b → w[(k' * b + v) * b + l]? =
        if k' = k ∧ v ∈ components then some (if onDiagonal = true ∧ v = l then 1 else 0)
        else values[(k' * b + v) * b + l]? := by
  induction components generalizing values with
  | nil => exact ⟨values, rfl, size, fun k' v l _ _ => (if_neg (by simp)).symm⟩
  | cons u components ih =>
    obtain ⟨hu, inside⟩ := List.forall_mem_cons.mp inside
    have line : (k * b + u) * b + b ≤ values.size := size ▸ scalarRow_le hk hu
    have size' : (if onDiagonal = true then
        (Span.overwrite values ((k * b + u) * b) (Block.zeros b)).setIfInBounds
          ((k * b + u) * b + u) 1
        else Span.overwrite values ((k * b + u) * b) (Block.zeros b)).size = n * (b * b) := by
      split
      · rw [Array.size_setIfInBounds, Span.size_overwrite, size]
      · rw [Span.size_overwrite, size]
    obtain ⟨w, run, hw, rest⟩ := ih size' inside
    refine ⟨w, ?_, hw, fun k' v l hv hl => ?_⟩
    · rw [clearEntryRows, List.foldlM_cons]
      dsimp only
      rw [Span.run_eq_ok.mpr ⟨line, rfl⟩]
      exact run
    · rw [rest k' v l hv hl, getElem?_clearedLine size hk hu hv hl, ← ite_or]
      refine if_congr ?_ rfl rfl
      rw [List.mem_cons, and_or_left, or_comm]

/-- The same for several entries, of which at most one is in a diagonal block. -/
lemma clearEntries_spec {b n : ℕ} {ks components : List ℕ} (diagonal : Option ℕ) {values : Array T}
    (size : values.size = n * (b * b)) (hks : ∀ k ∈ ks, k < n) (inside : ∀ v ∈ components, v < b) :
    ∃ w, ks.foldlM (fun values k => clearEntryRows b k components (diagonal == some k) values)
        values = .ok w ∧ w.size = n * (b * b) ∧
      ∀ k' v l, v < b → l < b → w[(k' * b + v) * b + l]? =
        if k' ∈ ks ∧ v ∈ components then some (if diagonal = some k' ∧ v = l then 1 else 0)
        else values[(k' * b + v) * b + l]? := by
  induction ks generalizing values with
  | nil => exact ⟨values, rfl, size, fun k' v l _ _ => (if_neg (by simp)).symm⟩
  | cons k ks ih =>
    obtain ⟨hk, hks⟩ := List.forall_mem_cons.mp hks
    obtain ⟨first, run, size', scalars⟩ :=
      clearEntryRows_spec (diagonal == some k) size hk inside
    obtain ⟨w, rest, hw, scalars'⟩ := ih size' hks
    refine ⟨w, by rw [List.foldlM_cons, run, ok_bind, rest], hw, fun k' v l hv hl => ?_⟩
    rw [scalars' k' v l hv hl, scalars k' v l hv hl]
    simp only [List.mem_cons]
    rcases eq_or_ne k' k with rfl | apart
    · simp only [beq_iff_eq, true_and, true_or]
      rw [← ite_or]
      exact if_congr (or_iff_right_of_imp And.right) rfl rfl
    · simp only [apart, false_and, false_or, if_false]

omit [One T] in
/-- Reading a scalar of a stored block. -/
lemma entry_chunk {b k r c : ℕ} {values : Array T} (hr : r < b) (hc : c < b) :
    Block.entry b (Span.chunk (b * b) values k) r c = (values[(k * b + r) * b + c]?).getD 0 := by
  rw [Block.entry, Array.getD_eq_getD_getElem?, Span.getElem?_chunk,
    if_pos (Block.position_lt hr hc), show k * (b * b) + (r * b + c) = (k * b + r) * b + c by ring]

/-- One call clears the scalar rows that it names. -/
lemma zeroRow_spec (valid : a.Valid) {row : ℕ} (hrow : row < a.rowCount) {components : List ℕ}
    (inside : ∀ v ∈ components, v < a.blockSize) (unit : Bool) :
    ∃ f, (zeroRow row components unit).on a = (.ok (), f) ∧
      Cleared {p | p.1 = row ∧ p.2 ∈ components} unit a f := by
  have hstop := valid.start_le_size (i := row + 1) hrow
  have within : ∀ k ∈ List.range' (a.start row) (a.start (row + 1) - a.start row),
      k < a.columns.size := by
    intro k member
    rw [List.mem_range'_1] at member
    omega
  obtain ⟨w, run, hw, scalars⟩ := clearEntries_spec
    (if unit = true then a.position? row row else none) valid.size_values within inside
  refine ⟨a.withValues w, ?_, ⟨w, hw.trans valid.size_values.symm, rfl⟩, fun i hi => ?_⟩
  · have found : components.find? (a.blockSize ≤ ·) = none := by
      simpa using inside
    rw [zeroRow, Update.on_bind_of_ok (Update.on_get a), if_neg (Nat.not_le.mpr hrow)]
    simp only [found]
    rw [Update.on_replace, valid.item_rowStart (Nat.le_of_lt hrow), ok_bind,
      valid.item_rowStart (i := row + 1) hrow, ok_bind, run, ok_bind]
    rfl
  · rw [rowEntries, rowEntries, List.map_map]
    refine List.map_congr_left fun k member => Prod.ext rfl ?_
    have place : a.start i ≤ k ∧ k < a.start (i + 1) := by
      have := List.mem_range'_1.mp member
      change a.start i ≤ k ∧ k < a.start i + (a.start (i + 1) - a.start i) at this
      omega
    have hk : k < a.columns.size := lt_of_lt_of_le place.2 (valid.start_le_size hi)
    have listed : k ∈ List.range' (a.start row) (a.start (row + 1) - a.start row) ↔ i = row := by
      rw [List.mem_range'_1]
      constructor
      · intro here
        exact valid.row_inj hi hrow place (by omega)
      · rintro rfl
        omega
    have size : (Span.chunk (a.blockSize * a.blockSize) w k).size = a.blockSize * a.blockSize :=
      Span.size_chunk (hw ▸ Span.succ_mul_le _ hk)
    refine Block.eq_of_entry_eq size Block.size_clearLines fun r hr c hc => ?_
    change Block.entry _ (Span.chunk (a.blockSize * a.blockSize) w k) r c = Block.entry _
      (Block.clearLines _ _ (_ ∧ a.columns.getD k 0 = i) (Span.chunk _ a.values k)) r c
    rw [entry_chunk hr hc, scalars k r c hr hc, Block.entry_clearLines hr hc, entry_chunk hr hc]
    simp only [listed]
    by_cases here : i = row ∧ r ∈ components
    · obtain ⟨rfl, member⟩ := here
      have own : (if unit = true then a.position? i i else none) = some k ↔
          unit = true ∧ a.columns.getD k 0 = i := by
        cases unit with
        | false => simp
        | true => simpa using valid.position?_eq_some_iff hi place.1 place.2
      rw [if_pos ⟨rfl, member⟩, Option.getD_some]
      refine Eq.trans ?_ (if_pos ⟨rfl, member⟩).symm
      simp only [own]
      congr
    · rw [if_neg here]
      exact (if_neg here).symm

end BlockMatrix

end DomainDecomposition
