import DomainDecomposition.BlockMatrix.Values
import DomainDecomposition.Proofs.BlockMatrix.WithValues

/-!
# Adding a multiple of another matrix

`positionsOf` finds for each entry of another matrix the place of the same row and column in the
receiver, and `addBlocks` adds the blocks there. No two entries share a place, so in the end every
coefficient has grown by the multiple of the other one.

* `addBlocks_pairs`: what adding at a list of places does to every block,
* `addBlocks_spec`: the coefficients afterwards.
-/

namespace DomainDecomposition.BlockMatrix

open Outcome

variable {T : Type} {a other : BlockMatrix T}

/-! ## Places -/

/-- A place lies in the row that it was looked up in, and holds the column. -/
lemma Valid.place_of_position? (valid : a.Valid) {i j t : ℕ} (h : a.position? i j = some t) :
    i < a.rowCount ∧ a.start i ≤ t ∧ t < a.start (i + 1) ∧ a.columns.getD t 0 = j := by
  have hi : i < a.rowCount := by
    by_contra hi
    rw [valid.position?_eq_none (Nat.not_lt.mp hi)] at h
    simp at h
  rw [valid.position?_eq hi, Option.map_eq_some_iff] at h
  obtain ⟨p, hp, rfl⟩ := h
  obtain ⟨hlt, hcolumn, -⟩ := List.findIdx?_eq_some_iff_getElem.mp hp
  simp only [columnsOf, List.length_map, List.length_range'] at hlt
  simp only [columnsOf, List.getElem_map, List.getElem_range', Nat.one_mul, beq_iff_eq] at hcolumn
  exact ⟨hi, Nat.le_add_right _ _, by omega, hcolumn⟩

/-- No entry belongs to two rows. -/
lemma Valid.row_inj (valid : a.Valid) {i i' t : ℕ} (hi : i < a.rowCount) (hi' : i' < a.rowCount)
    (h : a.start i ≤ t ∧ t < a.start (i + 1)) (h' : a.start i' ≤ t ∧ t < a.start (i' + 1)) :
    i = i' := by
  rcases Nat.lt_trichotomy i i' with hlt | heq | hgt
  · have := valid.start_mono (i := i + 1) hlt (Nat.le_of_lt hi')
    omega
  · exact heq
  · have := valid.start_mono (i := i' + 1) hgt (Nat.le_of_lt hi)
    omega

/-- No place belongs to two positions. -/
lemma Valid.position?_inj (valid : a.Valid) {i j i' j' t : ℕ} (h : a.position? i j = some t)
    (h' : a.position? i' j' = some t) : i = i' ∧ j = j' := by
  obtain ⟨hi, hlow, hhigh, hj⟩ := valid.place_of_position? h
  obtain ⟨hi', hlow', hhigh', hj'⟩ := valid.place_of_position? h'
  exact ⟨valid.row_inj hi hi' ⟨hlow, hhigh⟩ ⟨hlow', hhigh'⟩, hj.symm.trans hj'⟩

/-- The place of a position, for positions that are stored. -/
def placeOf (a : BlockMatrix T) (i j : ℕ) : ℕ :=
  (a.position? i j).getD 0

lemma position?_of_stores {i j : ℕ} (h : a.Stores i j) :
    a.position? i j = some (a.placeOf i j) := by
  rw [Stores, Option.isSome_iff_exists] at h
  obtain ⟨t, ht⟩ := h
  rw [placeOf, ht, Option.getD_some]

/-- The places that belong to the entries of another matrix, in its order, each with the number of
the entry. -/
def placePairs (a other : BlockMatrix T) (rows : ℕ) : List (ℕ × ℕ) :=
  (List.range rows).flatMap fun i =>
    (List.range' (other.start i) (other.start (i + 1) - other.start i)).map fun k =>
      (a.placeOf i (other.columns.getD k 0), k)

lemma placePairs_succ (a other : BlockMatrix T) (rows : ℕ) :
    placePairs a other (rows + 1) = placePairs a other rows ++
      (List.range' (other.start rows) (other.start (rows + 1) - other.start rows)).map fun k =>
        (a.placeOf rows (other.columns.getD k 0), k) := by
  rw [placePairs, placePairs, List.range_succ, List.flatMap_append, List.flatMap_singleton]

/-- Where the positions of one row are found, all of them are stored. -/
lemma positionsOfRow_eq_ok (valid : other.Valid) {i : ℕ} (hi : i < other.rowCount)
    {places : List ℕ} (h : a.positionsOfRow other i = .ok places) :
    places = (other.columnsOf i).map (a.placeOf i) ∧ ∀ c ∈ other.columnsOf i, a.Stores i c := by
  rw [positionsOfRow, valid.rowColumns_eq hi, ok_bind] at h
  obtain ⟨hmap, hread⟩ := eq_map_of_mapM (g := a.placeOf i) h fun c _ k hk => by
    cases hposition : a.position? i c with
    | none => rw [hposition] at hk; simp at hk
    | some k' =>
      rw [hposition] at hk
      rw [placeOf, hposition, Option.getD_some, Except.ok.inj hk]
  refine ⟨hmap, fun c hc => ?_⟩
  have hfound := hread c hc
  cases hposition : a.position? i c with
  | none => rw [hposition] at hfound; simp at hfound
  | some k' => rw [Stores, hposition]; rfl

/-- The places of the entries, row by row, with their numbers. The entries of the rows before row
`n` are as many as the start of that row says. -/
lemma zipIdx_places (valid : other.Valid) {n : ℕ} (hn : n ≤ other.rowCount) :
    ((List.range n).map fun i =>
        (other.columnsOf i).map (a.placeOf i)).flatten.zipIdx = placePairs a other n ∧
      ((List.range n).map fun i =>
        (other.columnsOf i).map (a.placeOf i)).flatten.length = other.start n := by
  induction n with
  | zero => exact ⟨rfl, valid.start_zero.symm⟩
  | succ n ih =>
    obtain ⟨hpairs, hlength⟩ := ih (by omega)
    have hle := valid.start_le n (by omega)
    rw [List.range_succ, List.map_append, List.flatten_append, List.zipIdx_append, hpairs,
      hlength, List.length_append, hlength, placePairs_succ]
    refine ⟨congrArg _ ?_, ?_⟩
    · apply List.ext_getElem
      · simp [columnsOf]
      · intro k hk hk'
        simp [columnsOf]
    · simp only [List.map_cons, List.map_nil, List.flatten_cons, List.flatten_nil,
        List.append_nil, List.length_map, columnsOf, List.length_range']
      omega

/-- Where the positions are found, all of them are stored. -/
lemma positionsOf_eq_ok (valid : other.Valid) {positions : List ℕ}
    (h : a.positionsOf other = .ok positions) :
    (a.blockSize = other.blockSize ∧ a.rowCount = other.rowCount ∧
        a.columnCount = other.columnCount) ∧
      (∀ i j, other.Stores i j → a.Stores i j) ∧
      positions.zipIdx = placePairs a other other.rowCount := by
  rw [positionsOf] at h
  by_cases hshape : (a.blockSize, a.rowCount, a.columnCount) =
      (other.blockSize, other.rowCount, other.columnCount)
  · rw [if_neg (not_not.mpr hshape)] at h
    obtain ⟨rows, hrows, hflatten⟩ := bind_eq_ok.mp h
    simp only [Prod.mk.injEq] at hshape
    rw [hshape.2.1] at hrows
    obtain ⟨rfl, hread⟩ := eq_map_of_mapM hrows fun i member places hplaces =>
      (positionsOfRow_eq_ok valid (List.mem_range.mp member) hplaces).1
    refine ⟨hshape, fun i j stored => ?_, ?_⟩
    · obtain ⟨hi, hj⟩ := valid.stores_iff.mp stored
      exact (positionsOfRow_eq_ok valid hi (hread i (List.mem_range.mpr hi))).2 j hj
    · rw [← Except.ok.inj hflatten]
      exact (zipIdx_places valid (Nat.le_refl _)).1
  · rw [if_pos hshape] at h
    simp at h

/-- The places lie in the receiver, and the entries in the other matrix. -/
lemma placePairs_inside (valid : a.Valid) (validOther : other.Valid)
    (contained : ∀ i j, other.Stores i j → a.Stores i j) :
    ∀ p ∈ placePairs a other other.rowCount,
      p.1 < a.columns.size ∧ p.2 < other.columns.size := by
  intro p hp
  rw [placePairs, List.mem_flatMap] at hp
  obtain ⟨i, hi, hp⟩ := hp
  obtain ⟨k, hk, rfl⟩ := List.mem_map.mp hp
  have hi' := List.mem_range.mp hi
  have hmem : other.columns.getD k 0 ∈ other.columnsOf i := List.mem_map_of_mem hk
  have hplace := position?_of_stores
    (contained i _ (validOther.stores_iff.mpr ⟨hi', hmem⟩))
  obtain ⟨hia, -, hhigh, -⟩ := valid.place_of_position? hplace
  have hstop := valid.start_le_size (i := i + 1) hia
  have hstopOther := validOther.start_le_size (i := i + 1) hi'
  rw [List.mem_range'_1] at hk
  exact ⟨by simp only; omega, by simp only; omega⟩

/-! ## Adding blocks -/

section Addition

variable [Semiring T] {b : ℕ}

lemma toMatrix_addScaled (alpha : T) {old source : Array T} (hold : old.size = b * b)
    (hsource : source.size = b * b) :
    Block.toMatrix b (Array.zipWith (fun d s => d + alpha * s) old source) =
      Block.toMatrix b old + alpha • Block.toMatrix b source := by
  ext r k
  have hk := Block.position_lt r.isLt k.isLt
  have hkd : r.val * b + k.val < old.size := by rw [hold]; exact hk
  have hks : r.val * b + k.val < source.size := by rw [hsource]; exact hk
  rw [Matrix.add_apply, Matrix.smul_apply]
  simp only [Block.toMatrix_apply, Block.entry, Array.getD_eq_getD_getElem?,
    Array.getElem?_zipWith, Array.getElem?_eq_getElem hkd, Array.getElem?_eq_getElem hks]
  rfl

/-- Adding at a list of places, one after the other. -/
lemma addBlocks_pairs (valid : other.Valid) (alpha : T) (size : ℕ)
    (hsize : size = other.blockSize * other.blockSize) (pairs : List (ℕ × ℕ)) {values : Array T}
    (inside : ∀ p ∈ pairs, (p.1 + 1) * size ≤ values.size ∧ p.2 < other.columns.size) :
    ∃ values', pairs.foldlM (fun values (target, k) => do
        let source ← other.view.block k
        let old ← Span.run values (target * size) size
        return Span.overwrite values (target * size)
          (Array.zipWith (fun d s => d + alpha * s) old source)) values = .ok values' ∧
      values'.size = values.size ∧ ∀ t, (t + 1) * size ≤ values.size →
        Block.toMatrix other.blockSize (Span.chunk size values' t) =
          Block.toMatrix other.blockSize (Span.chunk size values t) +
            (pairs.map fun p => if p.1 = t then
              alpha • Block.toMatrix other.blockSize (other.storedBlock p.2) else 0).sum := by
  induction pairs generalizing values with
  | nil => exact ⟨values, rfl, rfl, fun t _ => by rw [List.map_nil, List.sum_nil, add_zero]⟩
  | cons p pairs ih =>
    obtain ⟨target, k⟩ := p
    obtain ⟨⟨htarget, hk⟩, hrest⟩ := List.forall_mem_cons.mp inside
    have hsource := valid.size_storedBlock hk
    have hold := Span.size_chunk htarget
    set new := Array.zipWith (fun d s => d + alpha * s) (Span.chunk size values target)
      (other.storedBlock k) with hnew
    have hnewSize : new.size = 1 * size := by
      rw [hnew, Array.size_zipWith, hold, hsource, ← hsize, Nat.min_self, Nat.one_mul]
    -- the block at `target` grows, and the others stay
    have hwritten := fun t => Span.chunk_overwrite hnewSize htarget t
    obtain ⟨values', hrun, hsize', hchunks⟩ :=
      @ih (Span.overwrite values (target * size) new) fun p hp => by
        rw [Span.size_overwrite]
        exact hrest p hp
    rw [Span.size_overwrite] at hsize' hchunks
    refine ⟨values', ?_, hsize', fun t ht => ?_⟩
    · rw [List.foldlM_cons]
      simp only [valid.view_block hk, ok_bind, Span.run_chunk htarget, pure_eq]
      exact hrun
    · rw [hchunks t ht, hwritten, List.map_cons, List.sum_cons, ← add_assoc]
      congr 1
      by_cases htt : target = t
      · subst htt
        rw [if_pos ⟨Nat.le_refl _, Nat.lt_succ_self _⟩, if_pos rfl, Nat.sub_self,
          Span.chunk_zero (hnewSize.trans (Nat.one_mul _)), hnew,
          toMatrix_addScaled alpha (hold.trans hsize) hsource]
      · rw [if_neg (by omega), if_neg htt, add_zero]

omit [Semiring T] in
/-- A sum over all pairs, row by row. -/
lemma sum_placePairs {M : Type} [AddCommMonoid M] (g : ℕ × ℕ → M) (n : ℕ) :
    ((placePairs a other n).map g).sum = ∑ i ∈ Finset.range n,
      ((List.range' (other.start i) (other.start (i + 1) - other.start i)).map fun k =>
        g (a.placeOf i (other.columns.getD k 0), k)).sum := by
  induction n with
  | zero => rfl
  | succ n ih =>
    rw [placePairs_succ, List.map_append, List.sum_append, ih, Finset.sum_range_succ,
      List.map_map]
    rfl

omit [Semiring T] in
/-- An entry of the other matrix has the place of a position exactly when it lies there. -/
lemma placeOf_eq_iff (valid : a.Valid) (validOther : other.Valid)
    (contained : ∀ i j, other.Stores i j → a.Stores i j) {i j : ℕ} (stored : a.Stores i j)
    {i' k : ℕ} (hi' : i' < other.rowCount)
    (hk : k ∈ List.range' (other.start i') (other.start (i' + 1) - other.start i')) :
    a.placeOf i' (other.columns.getD k 0) = a.placeOf i j ↔
      i' = i ∧ other.columns.getD k 0 = j := by
  have hmem : other.columns.getD k 0 ∈ other.columnsOf i' := List.mem_map_of_mem hk
  have hplace := position?_of_stores stored
  have hplace' := position?_of_stores (contained i' _ (validOther.stores_iff.mpr ⟨hi', hmem⟩))
  constructor
  · intro heq
    rw [heq] at hplace'
    exact valid.position?_inj hplace' hplace
  · rintro ⟨rfl, rfl⟩
    rfl

/-- The entries of row `i` in column `j`: there is one of them, or the coefficient is zero. -/
lemma sum_row_ite (validOther : other.Valid) {i j : ℕ} (hi : i < other.rowCount)
    (hj : j < other.columnCount) (alpha : T) :
    ((List.range' (other.start i) (other.start (i + 1) - other.start i)).map fun k =>
      if other.columns.getD k 0 = j then alpha • Block.toMatrix b (other.storedBlock k)
        else 0).sum = alpha • other.coeff b i j := by
  have hbelow : ∀ c ∈ (other.rowEntries i).columns, c < other.columnCount := by
    rw [columns_rowEntries]
    exact validOther.columns_lt i hi
  have hsum := Entries.sum_coeff (b := b) (fun m c => if c = j then alpha • m else 0)
    (fun c => by rw [smul_zero, ite_self]) (validOther.regular hi).ascending hbelow
  rw [Finset.sum_ite_eq', if_pos (Finset.mem_range.mpr hj)] at hsum
  rw [validOther.coeff_eq hi, hsum, rowEntries, List.map_map]
  rfl

/-- Only one entry of the other matrix can have the place of a given position. -/
lemma sum_placePairs_place (valid : a.Valid) (validOther : other.Valid)
    (contained : ∀ i j, other.Stores i j → a.Stores i j) {i j : ℕ} (stored : a.Stores i j)
    (hrows : a.rowCount = other.rowCount) (hcolumns : a.columnCount = other.columnCount)
    (alpha : T) :
    ((placePairs a other other.rowCount).map fun p => if p.1 = a.placeOf i j then
        alpha • Block.toMatrix b (other.storedBlock p.2) else 0).sum =
      alpha • other.coeff b i j := by
  have hi : i < other.rowCount := by
    rw [← hrows]
    exact (valid.stores_iff.mp stored).1
  have hj : j < other.columnCount := by
    rw [← hcolumns]
    exact valid.stores_column_lt stored
  have hmatch : ∀ i' < other.rowCount, ∀ k ∈ List.range' (other.start i')
      (other.start (i' + 1) - other.start i'),
      a.placeOf i' (other.columns.getD k 0) = a.placeOf i j ↔
        i' = i ∧ other.columns.getD k 0 = j :=
    fun i' hi' k hk => placeOf_eq_iff valid validOther contained stored hi' hk
  -- of all rows, only row `i` contributes
  rw [sum_placePairs, Finset.sum_eq_single i]
  · rw [← sum_row_ite validOther hi hj alpha]
    refine congrArg List.sum (List.map_congr_left fun k hk => if_congr ?_ rfl rfl)
    rw [hmatch i hi k hk]
    exact and_iff_right rfl
  · intro i' member hne
    refine List.sum_eq_zero fun x hx => ?_
    obtain ⟨k, hk, rfl⟩ := List.mem_map.mp hx
    rw [if_neg]
    intro heq
    exact hne ((hmatch i' (Finset.mem_range.mp member) k hk).mp heq).1
  · intro hout
    exact absurd (Finset.mem_range.mpr hi) hout

/-- Every coefficient grows by the multiple of the other one. -/
lemma addBlocks_spec (valid : a.Valid) (validOther : other.Valid) (alpha : T)
    {positions : List ℕ} (found : a.positionsOf other = .ok positions) :
    ∃ v, addBlocks alpha other positions a = .ok (a.withValues v) ∧ v.size = a.values.size ∧
      ∀ i j, (a.withValues v).coeff a.blockSize i j =
        a.coeff a.blockSize i j + alpha • other.coeff a.blockSize i j := by
  obtain ⟨⟨hblock, hrows, hcolumns⟩, contained, hpairs⟩ := positionsOf_eq_ok validOther found
  have hinside : ∀ p ∈ placePairs a other other.rowCount,
      (p.1 + 1) * (a.blockSize * a.blockSize) ≤ a.values.size ∧ p.2 < other.columns.size := by
    intro p hp
    obtain ⟨hplace, hentry⟩ := placePairs_inside valid validOther contained p hp
    rw [valid.size_values]
    exact ⟨Span.succ_mul_le _ hplace, hentry⟩
  obtain ⟨v, hrun, hsize, hchunks⟩ := addBlocks_pairs validOther alpha
    (a.blockSize * a.blockSize) (by rw [hblock]) _ hinside
  refine ⟨v, ?_, hsize, fun i j => ?_⟩
  · rw [addBlocks, hpairs, hrun]
    rfl
  · by_cases stored : a.Stores i j
    · -- the chunk at the place of the position
      have hplace := position?_of_stores stored
      obtain ⟨hi, -, hhigh, -⟩ := valid.place_of_position? hplace
      have hstop := valid.start_le_size (i := i + 1) hi
      have hchunk := hchunks (a.placeOf i j) (by
        rw [valid.size_values]
        exact Nat.mul_le_mul_right _ (by omega))
      rw [← hblock, sum_placePairs_place valid validOther contained stored hrows hcolumns
        alpha] at hchunk
      rw [coeff, coeff, block?, block?, show (a.withValues v).position? i j = a.position? i j
        from rfl, hplace]
      exact hchunk
    · have hother : ¬ other.Stores i j := fun h => stored (contained i j h)
      have hnew : ¬ (a.withValues v).Stores i j := stored
      rw [(valid.withValues hsize).coeff_eq_zero hnew, valid.coeff_eq_zero stored,
        validOther.coeff_eq_zero hother, smul_zero, add_zero]

end Addition

/-! ## Copying -/

/-- Changing every stored scalar in the same way. -/
lemma coeff_map [Zero T] {b : ℕ} {m : T → T} (zero : m 0 = 0) (i j : ℕ) :
    (a.withValues (a.values.map m)).coeff b i j = (a.coeff b i j).map m := by
  unfold coeff block?
  rw [show (a.withValues (a.values.map m)).position? i j = a.position? i j from rfl]
  cases a.position? i j with
  | none =>
    ext r c
    exact zero.symm
  | some k =>
    ext r c
    -- a scalar behind the end of a block counts as zero
    simp only [Option.map_some, Option.elim_some, Matrix.map_apply, Block.toMatrix_apply,
      Block.entry, Array.getD_eq_getD_getElem?, withValues, ← Array.map_extract,
      Array.getElem?_map]
    cases (a.values.extract (k * (a.blockSize * a.blockSize))
      ((k + 1) * (a.blockSize * a.blockSize)))[r.val * b + c.val]? with
    | none => exact zero.symm
    | some x => rfl

/-- A diagonal shift changes values only. -/
lemma addDiagonal_spec [Zero T] [One T] [Add T] [Mul T] {alpha : T} {f : BlockMatrix T}
    (run : (addDiagonal alpha).on a = (.ok (), f)) :
    ∃ v, f = a.withValues v ∧ v.size = a.values.size := by
  rw [addDiagonal, Update.on_bind_of_ok (Update.on_get a)] at run
  obtain ⟨diagonal, t, hdiagonal, run⟩ := Update.on_bind_eq_ok run
  rw [Update.on_monadLift, Prod.mk.injEq] at hdiagonal
  obtain ⟨-, rfl⟩ := hdiagonal
  rw [Update.on_replace] at run
  split at run
  · rename_i f' hreplaced
    obtain rfl : f' = f := (Prod.mk.inj run).2
    obtain ⟨v, hv, hf⟩ := bind_eq_ok.mp hreplaced
    refine ⟨v, (Except.ok.inj hf).symm, ?_⟩
    -- both loops only set entries
    refine foldlM_keeps (P := fun v => v.size = a.values.size) hv rfl fun k _ s s' hs hrow => ?_
    refine foldlM_keeps (P := fun v => v.size = a.values.size) hrow hs fun c _ s s' hs hstep => ?_
    obtain ⟨old, -, hs'⟩ := bind_eq_ok.mp hstep
    rw [← Except.ok.inj hs', Array.size_setIfInBounds, hs]
  · exact absurd (Prod.mk.inj run).1 (by simp)

end DomainDecomposition.BlockMatrix
