import DomainDecomposition.BlockMatrix.Assembly
import DomainDecomposition.Proofs.BlockMatrix.Principal
import DomainDecomposition.Proofs.BlockMatrix.Sound

/-!
# Matrices from triplets

Assembly takes one triplet after the other and adds its block to the row that it names, where the
columns stay sorted. So after every triplet each row is regular, and a look-up in it finds the sum
of the blocks that the triplets so far give for the position, in the order in which they came. In
the end the rows are flattened, and a sorted row can be read back from the flattened arrays.

* `lookup_addAt`: what a block that is added to a row changes,
* `Collected`: what the rows hold after some of the triplets, with the step `Collected.add` and the
  run `Collected.run`,
* `sumAt_perm`: in exact arithmetic the order does not matter,
* `ofTriplets_spec`: the whole assembly.
-/

namespace DomainDecomposition

open Outcome

variable {T : Type}

/-! ## Adding a block to a row -/

namespace Entries

variable [Add T] {zero block : Array T} {column : ℕ} {row : Entries T}

/-- The new column is the only one that may not have been there. -/
lemma mem_columns_addAt {c : ℕ} :
    c ∈ (addAt zero column block row).columns ↔ c = column ∨ c ∈ row.columns := by
  induction row with
  | nil => simp [addAt]
  | cons e row ih =>
    obtain ⟨c', old⟩ := e
    unfold addAt
    split
    case isTrue before =>
      rw [columns_cons, columns_cons, List.mem_cons, List.mem_cons, ih]
      exact or_left_comm
    case isFalse =>
      split
      case isTrue same =>
        subst same
        simp
      case isFalse => rw [columns_cons, List.mem_cons]

/-- The row stays sorted. -/
lemma ascending_addAt (ascending : row.columns.Pairwise (· < ·)) :
    (addAt zero column block row).columns.Pairwise (· < ·) := by
  induction row with
  | nil => simp [addAt]
  | cons e row ih =>
    obtain ⟨c, old⟩ := e
    obtain ⟨behind, rest⟩ := ascending_cons.mp ascending
    unfold addAt
    split
    case isTrue before =>
      refine ascending_cons.mpr ⟨fun k member => ?_, ih rest⟩
      rcases mem_columns_addAt.mp member with rfl | member
      · exact before
      · exact behind k member
    case isFalse notBefore =>
      split
      case isTrue same => exact ascending_cons.mpr ⟨behind, rest⟩
      case isFalse distinct =>
        -- the new entry stands before all others
        have first : column < c := by omega
        refine ascending_cons.mpr ⟨fun k member => ?_, ascending⟩
        rw [columns_cons, List.mem_cons] at member
        rcases member with rfl | member
        · exact first
        · exact first.trans (behind k member)

lemma full_addAt {size : ℕ} (hzero : zero.size = size) (hblock : block.size = size)
    (full : ∀ e ∈ row, e.2.size = size) : ∀ e ∈ addAt zero column block row, e.2.size = size := by
  have sum : ∀ old : Array T, old.size = size → (Array.zipWith (· + ·) old block).size = size := by
    intro old hold
    rw [Array.size_zipWith, hold, hblock, Nat.min_self]
  induction row with
  | nil =>
    intro e member
    rw [List.mem_singleton.mp member]
    exact sum zero hzero
  | cons e row ih =>
    obtain ⟨c, old⟩ := e
    obtain ⟨hold, rest⟩ := List.forall_mem_cons.mp full
    unfold addAt
    split
    · exact List.forall_mem_cons.mpr ⟨hold, ih rest⟩
    · split
      · exact List.forall_mem_cons.mpr ⟨sum old hold, rest⟩
      · exact List.forall_mem_cons.mpr ⟨sum zero hzero, full⟩

/-- The block is added to what was there, or to zero. -/
lemma lookup_addAt_self (ascending : row.columns.Pairwise (· < ·)) :
    (addAt zero column block row).lookup column =
      some (Array.zipWith (· + ·) ((row.lookup column).getD zero) block) := by
  induction row with
  | nil => exact List.lookup_cons_self
  | cons e row ih =>
    obtain ⟨c, old⟩ := e
    unfold addAt
    split
    case isTrue before =>
      rw [lookup_cons_of_ne (Nat.ne_of_gt before), lookup_cons_of_ne (Nat.ne_of_gt before),
        ih (ascending_cons.mp ascending).2]
    case isFalse notBefore =>
      split
      case isTrue same =>
        subst same
        rw [List.lookup_cons_self, List.lookup_cons_self]
        rfl
      case isFalse distinct =>
        have missing : List.lookup column ((c, old) :: row) = none :=
          lookup_eq_none_of_lt ascending (show column < c by omega)
        rw [List.lookup_cons_self, missing]
        rfl

/-- The other columns keep what they hold. -/
lemma lookup_addAt_of_ne {j : ℕ} (hj : j ≠ column) :
    (addAt zero column block row).lookup j = row.lookup j := by
  induction row with
  | nil => exact lookup_cons_of_ne hj _ _
  | cons e row ih =>
    obtain ⟨c, old⟩ := e
    unfold addAt
    split
    · rw [List.lookup_cons, List.lookup_cons, ih]
    · split
      case isTrue same => rw [lookup_cons_of_ne (same ▸ hj), lookup_cons_of_ne (same ▸ hj)]
      case isFalse => rw [lookup_cons_of_ne hj]

end Entries

/-! ## What a list of triplets gives -/

/-- A triplet that a matrix of the given shape can take. -/
structure Triplet.Fits (blockSize rowCount columnCount : ℕ) (t : Triplet T) : Prop where
  row_lt : t.row < rowCount
  column_lt : t.column < columnCount
  full : t.block.size = blockSize * blockSize

/-- The blocks that the list gives for a position, in the order of the list. -/
def blocksAt (triplets : List (Triplet T)) (i j : ℕ) : List (Array T) :=
  (triplets.filter fun t => t.row = i ∧ t.column = j).map Triplet.block

/-- Their sum, in this order and starting at zero, where there is a block. -/
def sumAt [Zero T] [Add T] (size : ℕ) (triplets : List (Triplet T)) (i j : ℕ) : Option (Array T) :=
  if (blocksAt triplets i j).isEmpty then none
  else some ((blocksAt triplets i j).foldl (Array.zipWith (· + ·)) (Block.zeros size))

section Sums

variable {triplets : List (Triplet T)} {t : Triplet T} {i j : ℕ}

lemma blocksAt_append :
    blocksAt (triplets ++ [t]) i j =
      if t.row = i ∧ t.column = j then blocksAt triplets i j ++ [t.block]
      else blocksAt triplets i j := by
  unfold blocksAt
  rw [List.filter_append, List.map_append]
  split
  case isTrue here => simp [here]
  case isFalse elsewhere => simp [elsewhere]

variable [Zero T] [Add T] {size : ℕ}

/-- A triplet more. -/
lemma sumAt_append :
    sumAt size (triplets ++ [t]) i j =
      if t.row = i ∧ t.column = j then
        some (Array.zipWith (· + ·) ((sumAt size triplets i j).getD (Block.zeros size)) t.block)
      else sumAt size triplets i j := by
  unfold sumAt
  rw [blocksAt_append]
  split
  case isTrue here =>
    rw [List.foldl_append]
    cases blocksAt triplets i j <;> rfl
  case isFalse elsewhere => rfl

/-- There is a sum exactly where a triplet is. -/
lemma isSome_sumAt : (sumAt size triplets i j).isSome ↔ ∃ t ∈ triplets, t.row = i ∧ t.column = j := by
  have given : blocksAt triplets i j = [] ↔ ∀ t ∈ triplets, ¬(t.row = i ∧ t.column = j) := by
    rw [blocksAt, List.map_eq_nil_iff, List.filter_eq_nil_iff]
    simp
  unfold sumAt
  split
  case isTrue missing =>
    rw [List.isEmpty_iff, given] at missing
    simpa using missing
  case isFalse found =>
    rw [List.isEmpty_iff, given] at found
    simpa using found

end Sums

/-- In exact arithmetic, the order of the triplets does not matter. -/
lemma sumAt_perm [AddCommMonoid T] {triplets triplets' : List (Triplet T)}
    (perm : triplets.Perm triplets') (size i j : ℕ) :
    sumAt size triplets i j = sumAt size triplets' i j := by
  have blocks : (blocksAt triplets i j).Perm (blocksAt triplets' i j) := (perm.filter _).map _
  have swap : ∀ x y z : Array T, Array.zipWith (· + ·) (Array.zipWith (· + ·) z x) y =
      Array.zipWith (· + ·) (Array.zipWith (· + ·) z y) x := by
    intro x y z
    apply Array.ext_getElem?
    intro k
    simp only [Array.getElem?_zipWith]
    cases z[k]? <;> cases x[k]? <;> cases y[k]? <;> simp [add_right_comm]
  unfold sumAt
  rw [blocks.isEmpty_eq, blocks.foldl_eq' fun x _ y _ z => swap x y z]

namespace BlockMatrix

/-! ## One triplet after the other -/

section Rows

variable [Zero T] [Add T] {b n m : ℕ} {done triplets : List (Triplet T)} {t : Triplet T}
variable {rows : Array (Entries T)}

/-- The rows hold what the triplets so far have given. -/
structure Collected (b n m : ℕ) (done : List (Triplet T)) (rows : Array (Entries T)) : Prop where
  size : rows.size = n
  regular : ∀ (i : ℕ) (row : Entries T), rows[i]? = some row → row.Regular b
  below : ∀ (i : ℕ) (row : Entries T), rows[i]? = some row → ∀ c ∈ row.columns, c < m
  lookup : ∀ (i : ℕ) (row : Entries T), rows[i]? = some row →
    ∀ j, row.lookup j = sumAt (b * b) done i j

lemma Collected.start (b n m : ℕ) : Collected b n m ([] : List (Triplet T)) (Array.replicate n []) := by
  have empty : ∀ (i : ℕ) (row : Entries T), (Array.replicate n [])[i]? = some row → row = [] := by
    intro i row found
    rw [Array.getElem?_replicate] at found
    split at found
    · exact (Option.some.inj found).symm
    · cases found
  refine ⟨Array.size_replicate, fun i row found => ?_, fun i row found => ?_, fun i row found => ?_⟩
  · rw [empty i row found]
    exact ⟨.nil, fun _ member => absurd member List.not_mem_nil⟩
  · rw [empty i row found]
    exact fun _ member => absurd member List.not_mem_nil
  · rw [empty i row found]
    exact fun _ => rfl

/-- A triplet that fits is put into its row. -/
lemma Collected.add (collected : Collected b n m done rows) (fits : t.Fits b n m) :
    ∃ rows', addTriplet b n m rows t = .ok rows' ∧ Collected b n m (done ++ [t]) rows' := by
  refine ⟨rows.modify t.row (Entries.addAt (Block.zeros (b * b)) t.column t.block), ?_, ?_⟩
  · rw [addTriplet, checkSize_eq_ok.mpr fits.full.symm, ok_bind,
      if_pos ⟨fits.row_lt, fits.column_lt⟩]
    rfl
  -- a row is that of the triplet, or it is as it was
  have which : ∀ i row, (rows.modify t.row
      (Entries.addAt (Block.zeros (b * b)) t.column t.block))[i]? = some row →
      (t.row = i ∧ ∃ old, rows[i]? = some old ∧
        row = Entries.addAt (Block.zeros (b * b)) t.column t.block old) ∨
      (t.row ≠ i ∧ rows[i]? = some row) := by
    intro i row found
    rw [Array.getElem?_modify] at found
    split at found
    case isTrue own =>
      obtain ⟨old, hold, rfl⟩ := Option.map_eq_some_iff.mp found
      exact .inl ⟨own, old, hold, rfl⟩
    case isFalse other => exact .inr ⟨other, found⟩
  refine ⟨?_, fun i row found => ?_, fun i row found => ?_, fun i row found j => ?_⟩
  · rw [Array.size_modify, collected.size]
  · rcases which i row found with ⟨-, old, hold, rfl⟩ | ⟨-, hold⟩
    · have regular := collected.regular i old hold
      exact ⟨Entries.ascending_addAt regular.ascending,
        Entries.full_addAt Array.size_replicate fits.full regular.full⟩
    · exact collected.regular i row hold
  · rcases which i row found with ⟨-, old, hold, rfl⟩ | ⟨-, hold⟩
    · intro c member
      rcases Entries.mem_columns_addAt.mp member with rfl | member
      · exact fits.column_lt
      · exact collected.below i old hold c member
    · exact collected.below i row hold
  · rw [sumAt_append]
    rcases which i row found with ⟨own, old, hold, rfl⟩ | ⟨other, hold⟩
    · have before := collected.lookup i old hold
      by_cases hj : t.column = j
      · subst hj
        rw [if_pos ⟨own, rfl⟩, Entries.lookup_addAt_self (collected.regular i old hold).ascending,
          before]
      · rw [if_neg (fun both => hj both.2), Entries.lookup_addAt_of_ne (Ne.symm hj), before]
    · rw [if_neg (fun both => other both.1), collected.lookup i row hold]

/-- Triplets that fit are put into their rows, one after the other. -/
lemma Collected.run (collected : Collected b n m done rows) (fits : ∀ t ∈ triplets, t.Fits b n m) :
    ∃ rows', triplets.foldlM (addTriplet b n m) rows = .ok rows' ∧
      Collected b n m (done ++ triplets) rows' := by
  induction triplets generalizing done rows with
  | nil =>
    rw [List.append_nil]
    exact ⟨rows, rfl, collected⟩
  | cons t triplets ih =>
    obtain ⟨first, rest⟩ := List.forall_mem_cons.mp fits
    obtain ⟨next, step, collected⟩ := collected.add first
    obtain ⟨rows', run, collected⟩ := ih collected rest
    rw [List.append_assoc] at collected
    exact ⟨rows', by rw [List.foldlM_cons, step, ok_bind, run], collected⟩

/-- A triplet that does not fit stops the assembly. -/
lemma fits_of_addTriplets {rows' : Array (Entries T)}
    (run : triplets.foldlM (addTriplet b n m) rows = .ok rows') : ∀ t ∈ triplets, t.Fits b n m := by
  induction triplets generalizing rows with
  | nil => exact fun t member => absurd member List.not_mem_nil
  | cons t triplets ih =>
    rw [List.foldlM_cons] at run
    obtain ⟨next, step, rest⟩ := bind_eq_ok.mp run
    refine List.forall_mem_cons.mpr ⟨?_, ih rest⟩
    unfold addTriplet at step
    obtain ⟨⟨⟩, length, step⟩ := bind_eq_ok.mp step
    obtain ⟨inside, -⟩ := ite_error_eq_ok.mp step
    exact ⟨inside.1, inside.2, (checkSize_eq_ok.mp length).symm⟩

/-! ## The whole assembly -/

/-- The matrix of the given shape that stores the sums of the triplets, and nothing else. The
constructor accepts its arrays. -/
structure Assembled (b n m : ℕ) (triplets : List (Triplet T)) (a : BlockMatrix T) : Prop where
  blockSize_eq : a.blockSize = b
  rowCount_eq : a.rowCount = n
  columnCount_eq : a.columnCount = m
  accepted : ofValues b n m a.rowStart a.columns a.values = .ok a
  stores_iff : ∀ i j, a.Stores i j ↔ ∃ t ∈ triplets, t.row = i ∧ t.column = j
  block?_eq : ∀ i j, a.block? i j = sumAt (b * b) triplets i j

/-- Triplets that fit, over blocks that are not empty, make a matrix of the rows that they fill. -/
lemma Collected.assembled (collected : Collected b n m triplets rows) (pos : 0 < b)
    (fits : ∀ t ∈ triplets, t.Fits b n m) :
    ∃ a, ofValues b n m (Offsets.ofLengths (rows.toList.map List.length))
        (rows.toList.flatMap Entries.columns).toArray (Entries.scalars rows.toList.flatten) = .ok a ∧
      Assembled b n m triplets a := by
  have found : ∀ row ∈ rows.toList, ∃ i, rows[i]? = some row := fun row member => by
    obtain ⟨i, hi⟩ := List.mem_iff_getElem?.mp member
    exact ⟨i, by rwa [Array.getElem?_toList] at hi⟩
  have length : rows.toList.length = n := by rw [Array.length_toList, collected.size]
  have regular : ∀ row ∈ rows.toList, row.Regular b := fun row member => by
    obtain ⟨i, hi⟩ := found row member
    exact collected.regular i row hi
  have below : ∀ row ∈ rows.toList, ∀ c ∈ row.columns, c < m := fun row member => by
    obtain ⟨i, hi⟩ := found row member
    exact collected.below i row hi
  obtain ⟨a, made, valid, hb, hrows, hcolumns, entries⟩ := exists_ofEntries pos regular below
  rw [length] at made hrows
  have blocks : ∀ i j, a.block? i j = sumAt (b * b) triplets i j := by
    intro i j
    rcases Nat.lt_or_ge i n with hi | hi
    · have hrow : rows[i]? = some (a.rowEntries i) := by
        rw [entries i (by rwa [length]), Array.getElem_toList]
        exact Array.getElem?_eq_getElem _
      rw [valid.block?_eq_lookup (by rwa [hrows]), collected.lookup i _ hrow]
    · -- no triplet names a row behind the last one
      have missing : ¬(sumAt (b * b) triplets i j).isSome := by
        rw [isSome_sumAt]
        rintro ⟨t, member, rfl, -⟩
        exact Nat.not_lt.mpr hi (fits t member).row_lt
      rw [block?, valid.position?_eq_none (by rwa [hrows]), Option.not_isSome_iff_eq_none.mp missing]
      rfl
  refine ⟨a, made, hb, hrows, hcolumns, ?_, fun i j => ?_, blocks⟩
  · rw [← hb, ← hrows, ← hcolumns]
    exact ofValues_eq_ok.mpr ⟨valid, by rw [(ofValues_eq_ok.mp made).2]⟩
  · rw [← isSome_sumAt, ← blocks, block?, Option.isSome_map]
    rfl

/-- The rows are determined by the sums. -/
lemma Collected.unique {rows' : Array (Entries T)} (collected : Collected b n m done rows)
    (collected' : Collected b n m triplets rows')
    (same : ∀ i j, sumAt (b * b) done i j = sumAt (b * b) triplets i j) : rows = rows' := by
  apply Array.ext (by rw [collected.size, collected'.size])
  intro i hi hi'
  have found := Array.getElem?_eq_getElem hi
  have found' := Array.getElem?_eq_getElem hi'
  refine Entries.eq_of_lookup_eq (collected.regular i _ found).ascending
    (collected'.regular i _ found').ascending fun j => ?_
  rw [collected.lookup i _ found, collected'.lookup i _ found', same]

/-- Where there is room for the rows, the arrays are made of them. -/
lemma ofTriplets_of_run (room : n < Capacity.limit)
    (run : triplets.foldlM (addTriplet b n m) (Array.replicate n []) = .ok rows) :
    ofTriplets b n m triplets =
      ofValues b n m (Offsets.ofLengths (rows.toList.map List.length))
        (rows.toList.flatMap Entries.columns).toArray (Entries.scalars rows.toList.flatten) := by
  unfold ofTriplets
  rw [Capacity.reserve_eq_ok_iff.mpr room, ok_bind, run]
  rfl

/-- Where there is no room for the rows, no triplet is looked at. -/
lemma ofTriplets_crowded (crowded : Capacity.limit ≤ n) :
    ofTriplets b n m triplets = .error .tooLarge := by
  unfold ofTriplets Capacity.reserve
  rw [if_neg (Nat.not_lt.mpr crowded)]
  rfl

/-- What has been assembled had room, and triplets that fit. -/
lemma of_ofTriplets {a : BlockMatrix T} (made : ofTriplets b n m triplets = .ok a) :
    n < Capacity.limit ∧ 0 < b ∧ ∀ t ∈ triplets, t.Fits b n m := by
  unfold ofTriplets at made
  obtain ⟨⟨⟩, room, made⟩ := bind_eq_ok.mp made
  obtain ⟨rows, run, made⟩ := bind_eq_ok.mp made
  obtain ⟨valid, fields⟩ := ofValues_eq_ok.mp made
  have size : a.blockSize = b := by rw [fields]
  exact ⟨Capacity.reserve_eq_ok_iff.mp room, size ▸ valid.blockSize_pos, fits_of_addTriplets run⟩

/-- Assembly is refused for the fault of a triplet, or stops for lack of room. The arrays that it
makes are accepted. -/
lemma meets_ofTriplets {permitted : Error → Prop} (faults : ∀ fault, permitted (.config fault))
    (mismatch : ∀ expected found, permitted (.dimensionMismatch expected found))
    (crowded : ¬(n < Capacity.limit ∧ b * b < Capacity.words) → permitted .tooLarge)
    (triplets : List (Triplet T)) :
    Meets permitted (Assembled b n m triplets) (ofTriplets b n m triplets) := by
  unfold ofTriplets
  apply (Capacity.meets_reserve fun full => crowded fun room => full room.1).bind
  intro _ _
  have added : Meets permitted (fun _ => True)
      (triplets.foldlM (addTriplet b n m) (Array.replicate n [])) := by
    refine .foldlM trivial fun t _ rows _ => ?_
    unfold addTriplet
    apply (meets_checkSize (mismatch _ _) fun wide => crowded fun room => wide room.2).bind
    intro _ _
    split
    · trivial
    · exact faults _
  apply added.eq_ok.bind
  intro rows run
  rcases Nat.eq_zero_or_pos b with rfl | pos
  · exact .of_eq_error rfl (faults .zeroBlockSize)
  · have fits := fits_of_addTriplets run
    obtain ⟨rows', run', collected⟩ := (Collected.start b n m).run fits
    obtain rfl := Except.ok.inj (run'.symm.trans run)
    obtain ⟨a, made, assembled⟩ := collected.assembled pos fits
    exact .of_eq_ok made assembled

end Rows

/-- As long as there is room for the rows and the size of a block is a machine word, assembly
succeeds for blocks that are not empty and triplets that fit, and reports a fault otherwise. It
stores the named positions and no others, each with the sum of its blocks in the order of the list,
starting at zero. In exact arithmetic, the order of the list does not matter. Without room for the
rows, no triplet is looked at. -/
theorem ofTriplets_spec :
    (∀ {T : Type} [Zero T] [Add T] {b n m : ℕ} {triplets : List (Triplet T)},
      (n < Capacity.limit → b * b < Capacity.words →
        ((∃ a, ofTriplets b n m triplets = .ok a) ↔ 0 < b ∧ ∀ t ∈ triplets, t.Fits b n m) ∧
        (∀ e, ofTriplets b n m triplets = .error e →
          (∃ fault, e = .config fault) ∨ ∃ expected found, e = .dimensionMismatch expected found) ∧
        ∀ a, ofTriplets b n m triplets = .ok a → Assembled b n m triplets a) ∧
      (Capacity.limit ≤ n → ofTriplets b n m triplets = .error .tooLarge)) ∧
    ∀ {T : Type} [AddCommMonoid T] {b n m : ℕ} {triplets triplets' : List (Triplet T)},
      triplets.Perm triplets' → ∀ a, ofTriplets b n m triplets = .ok a →
      ofTriplets b n m triplets' = .ok a := by
  constructor
  · intro T _ _ b n m triplets
    have whole : n < Capacity.limit → 0 < b → (∀ t ∈ triplets, t.Fits b n m) →
        ∃ a, ofTriplets b n m triplets = .ok a ∧ Assembled b n m triplets a := by
      intro room pos fits
      obtain ⟨rows, run, collected⟩ := (Collected.start b n m).run fits
      rw [ofTriplets_of_run room run]
      exact collected.assembled pos fits
    refine ⟨fun room word => ⟨⟨?_, ?_⟩, fun e failed => ?_, fun a made => ?_⟩, ofTriplets_crowded⟩
    · rintro ⟨a, made⟩
      exact (of_ofTriplets made).2
    · rintro ⟨pos, fits⟩
      obtain ⟨a, made, -⟩ := whole room pos fits
      exact ⟨a, made⟩
    · have meets : Meets (fun e => (∃ fault, e = .config fault) ∨
            ∃ expected found, e = .dimensionMismatch expected found) (Assembled b n m triplets)
          (ofTriplets b n m triplets) :=
        meets_ofTriplets (fun fault => .inl ⟨fault, rfl⟩)
          (fun expected found => .inr ⟨expected, found, rfl⟩)
          (fun crowded => absurd ⟨room, word⟩ crowded) triplets
      rw [failed] at meets
      exact meets
    · obtain ⟨-, pos, fits⟩ := of_ofTriplets made
      obtain ⟨a', made', assembled⟩ := whole room pos fits
      obtain rfl : a' = a := Except.ok.inj (made'.symm.trans made)
      exact assembled
  · intro T _ b n m triplets triplets' perm a made
    obtain ⟨room, -, fits⟩ := of_ofTriplets made
    obtain ⟨rows, run, collected⟩ := (Collected.start b n m).run fits
    obtain ⟨rows', run', collected'⟩ :=
      (Collected.start b n m).run fun t member => fits t (perm.mem_iff.mpr member)
    -- both lists are collected into the same rows, so what follows is the same
    have same := collected.unique collected' fun i j => sumAt_perm perm (b * b) i j
    rw [ofTriplets_of_run room run] at made
    rw [ofTriplets_of_run room run', ← same, made]

/-- Rows that no array can hold are refused, although the list of triplets is empty. -/
theorem exists_ofTriplets_tooLarge :
    ¬((∃ a, ofTriplets 1 (2 ^ 60) 0 ([] : List (Triplet ℚ)) = .ok a) ↔
      0 < 1 ∧ ∀ t ∈ ([] : List (Triplet ℚ)), t.Fits 1 (2 ^ 60) 0) := by
  intro assembles
  obtain ⟨a, made⟩ := assembles.mpr ⟨Nat.one_pos, fun t member => absurd member List.not_mem_nil⟩
  have crowded : Capacity.limit ≤ 2 ^ 60 := by decide
  rw [ofTriplets_crowded crowded] at made
  cases made

/-- Three triplets in no order, two of them for one position. -/
def scattered : List (Triplet ℚ) :=
  [⟨1, 2, #[5]⟩, ⟨0, 1, #[7]⟩, ⟨1, 2, #[6]⟩]

/-- The blocks of one position are summed, in whatever order they come. -/
theorem scattered_ofTriplets_spec :
    ∃ a, ofTriplets 1 2 3 scattered = .ok a ∧ a.block? 1 2 = some #[11] ∧ a.block? 0 0 = none ∧
      ofTriplets 1 2 3 scattered.reverse = .ok a := by
  have fits : ∀ t ∈ scattered, t.Fits 1 2 3 := by
    intro t member
    fin_cases member <;> exact ⟨by decide, by decide, rfl⟩
  obtain ⟨succeeds, -, assembled⟩ : ((∃ a, ofTriplets 1 2 3 scattered = .ok a) ↔
      0 < 1 ∧ ∀ t ∈ scattered, t.Fits 1 2 3) ∧ _ ∧
      ∀ a, ofTriplets 1 2 3 scattered = .ok a → Assembled 1 2 3 scattered a :=
    ofTriplets_spec.1.1 (by decide) (by decide)
  obtain ⟨a, made⟩ := succeeds.mpr ⟨Nat.one_pos, fits⟩
  have blocks := (assembled a made).block?_eq
  refine ⟨a, made, ?_, ?_, ofTriplets_spec.2 scattered.reverse_perm.symm a made⟩
  · rw [blocks]
    decide +kernel
  · rw [blocks]
    decide +kernel

end BlockMatrix

end DomainDecomposition
