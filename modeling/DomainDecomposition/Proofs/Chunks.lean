import DomainDecomposition.BlockMatrix.View
import DomainDecomposition.Proofs.Outcome
import Mathlib.Algebra.Order.Ring.Nat

/-!
# Arrays as consecutive chunks

The values of a matrix are blocks of one size, one behind the other, and a vector is read in the
same way. `chunk size xs k` is the `k`-th of these pieces. Writing to an array changes the parts
that it reaches and no others (`extract_overwrite`), writing whole chunks replaces exactly those
(`chunk_overwrite`), and the scalars of a row of entries have the blocks of the row as their chunks
(`chunk_scalars`).
-/

namespace DomainDecomposition

variable {α : Type}

namespace Span

/-! ## Parts of an array that is written to -/

/-- A part of an array that lies before what is written. -/
lemma extract_overwrite_of_le {xs ys : Array α} {first last position : ℕ} (h : last ≤ position) :
    (overwrite xs position ys).extract first last = xs.extract first last := by
  apply Array.ext_getElem?
  intro k
  rw [Array.getElem?_extract, Array.getElem?_extract, size_overwrite, getElem?_overwrite]
  split
  · rw [if_neg (by omega)]
  · rfl

/-- A part of an array that lies behind what is written. -/
lemma extract_overwrite_of_ge {xs ys : Array α} {first last position : ℕ}
    (h : position + ys.size ≤ first) :
    (overwrite xs position ys).extract first last = xs.extract first last := by
  apply Array.ext_getElem?
  intro k
  rw [Array.getElem?_extract, Array.getElem?_extract, size_overwrite, getElem?_overwrite,
    if_neg (by omega : ¬(position ≤ first + k ∧ first + k < position + ys.size ∧
      first + k < xs.size))]

/-- Writing to a part of an array, and taking the part of an array that is written to. -/
lemma extract_overwrite (xs ys : Array α) {first position : ℕ} (last : ℕ)
    (h : first ≤ position) :
    (overwrite xs position ys).extract first last =
      overwrite (xs.extract first last) (position - first) ys := by
  apply Array.ext_getElem?
  intro k
  rw [Array.getElem?_extract, size_overwrite, getElem?_overwrite, getElem?_overwrite,
    Array.getElem?_extract, Array.size_extract]
  by_cases inside : k < min last xs.size - first
  · rw [if_pos inside, if_pos inside]
    by_cases written : position ≤ first + k ∧ first + k < position + ys.size
    · rw [if_pos (by omega), if_pos (by omega),
        show first + k - position = k - (position - first) by omega]
    · rw [if_neg (by omega), if_neg (by omega)]
  · rw [if_neg inside, if_neg inside, if_neg (by omega)]

/-- Writing behind the first of two arrays. -/
lemma append_overwrite (xs ys zs : Array α) (position : ℕ) :
    overwrite (xs ++ ys) (xs.size + position) zs = xs ++ overwrite ys position zs := by
  apply Array.ext_getElem?
  intro k
  rw [getElem?_overwrite, Array.size_append]
  rcases Nat.lt_or_ge k xs.size with hk | hk
  · rw [if_neg (by omega), Array.getElem?_append_left hk, Array.getElem?_append_left hk]
  · rw [Array.getElem?_append_right hk, Array.getElem?_append_right hk, getElem?_overwrite]
    by_cases written : xs.size + position ≤ k ∧ k < xs.size + position + zs.size ∧
        k < xs.size + ys.size
    · rw [if_pos written, if_pos (by omega), Nat.sub_add_eq]
    · rw [if_neg written, if_neg (by omega)]

/-- What has been written last is the end of the part that has been written. -/
lemma extract_overwrite_last {n : ℕ} {xs ys : Array α} (room : n + ys.size ≤ xs.size) :
    (overwrite xs n ys).extract 0 (n + ys.size) = xs.extract 0 n ++ ys := by
  have head : (xs.extract 0 n).size = n := by
    rw [Array.size_extract]
    omega
  apply Array.ext_getElem?
  intro k
  rw [Array.getElem?_extract, size_overwrite, getElem?_overwrite]
  rcases Nat.lt_or_ge k n with hk | hk
  · rw [Array.getElem?_append_left (by omega), Array.getElem?_extract]
    grind
  · rw [Array.getElem?_append_right (by omega), head]
    grind

/-! ## Chunks -/

/-- The `k`-th run of `size` entries. -/
def chunk (size : ℕ) (xs : Array α) (k : ℕ) : Array α :=
  xs.extract (k * size) ((k + 1) * size)

lemma size_chunk {size k : ℕ} {xs : Array α} (h : (k + 1) * size ≤ xs.size) :
    (chunk size xs k).size = size := by
  rw [chunk, Array.size_extract, Nat.min_eq_left h, Nat.succ_mul]
  omega

lemma getElem?_chunk (size : ℕ) (xs : Array α) (k l : ℕ) :
    (chunk size xs k)[l]? = if l < size then xs[k * size + l]? else none := by
  rw [chunk, Array.getElem?_extract, Nat.succ_mul]
  by_cases hl : l < size
  · rw [if_pos hl]
    by_cases hx : k * size + l < xs.size
    · rw [if_pos (by omega)]
    · rw [if_neg (by omega), Array.getElem?_eq_none (by omega)]
  · rw [if_neg hl, if_neg (by omega)]

/-- The chunk of a place, and the place within the chunk. -/
lemma div_mod_place {size l : ℕ} (k : ℕ) (hl : l < size) :
    (k * size + l) / size = k ∧ (k * size + l) % size = l := by
  rw [Nat.mul_comm, Nat.mul_add_div (Nat.zero_lt_of_lt hl), Nat.mul_add_mod, Nat.div_eq_of_lt hl,
    Nat.mod_eq_of_lt hl]
  exact ⟨rfl, rfl⟩

/-- Reading a chunk that lies inside. -/
lemma run_chunk {size k : ℕ} {xs : Array α} (h : (k + 1) * size ≤ xs.size) :
    run xs (k * size) size = .ok (chunk size xs k) := by
  rw [Nat.succ_mul] at h
  rw [run_eq_ok, chunk, Nat.succ_mul]
  exact ⟨h, rfl⟩

/-- An array that is one chunk. -/
lemma chunk_zero {size : ℕ} {xs : Array α} (h : xs.size = size) : chunk size xs 0 = xs := by
  rw [chunk, Nat.zero_mul, Nat.zero_add, Nat.one_mul, ← h, Array.extract_size]

/-- Chunks inside a prefix of whole chunks. -/
lemma succ_mul_le (size : ℕ) {k m : ℕ} (h : k < m) : (k + 1) * size ≤ m * size :=
  Nat.mul_le_mul_right size h

/-- Arrays of whole chunks are equal when their chunks are. -/
lemma eq_of_chunk_eq {size m : ℕ} {xs ys : Array α} (hxs : xs.size = m * size)
    (hys : ys.size = m * size) (h : ∀ k < m, chunk size xs k = chunk size ys k) : xs = ys := by
  apply Array.ext (by rw [hxs, hys])
  intro l hl hl'
  have hpos : 0 < size := Nat.pos_of_ne_zero fun e => by rw [hxs, e] at hl; simp at hl
  have hk : l / size < m := by
    rw [hxs] at hl
    exact Nat.div_lt_of_lt_mul (by rwa [Nat.mul_comm])
  -- entry `l` is entry `l % size` of chunk `l / size`
  have hchunk := congrArg (·[l % size]?) (h (l / size) hk)
  simp only [getElem?_chunk, if_pos (Nat.mod_lt l hpos)] at hchunk
  rw [Nat.mul_comm, Nat.div_add_mod] at hchunk
  rwa [Array.getElem?_eq_getElem hl, Array.getElem?_eq_getElem hl', Option.some_inj] at hchunk

/-- Writing whole chunks from chunk `first` on replaces those and no others. -/
lemma chunk_overwrite {size first m : ℕ} {xs ys : Array α} (hys : ys.size = m * size)
    (hxs : (first + m) * size ≤ xs.size) (k : ℕ) :
    chunk size (overwrite xs (first * size) ys) k =
      if first ≤ k ∧ k < first + m then chunk size ys (k - first) else chunk size xs k := by
  rw [Nat.add_mul] at hxs
  apply Array.ext_getElem?
  intro l
  rw [apply_ite (fun zs : Array α => zs[l]?), getElem?_chunk, getElem?_chunk, getElem?_chunk]
  by_cases hl : l < size
  · rw [if_pos hl, if_pos hl, if_pos hl, getElem?_overwrite, hys]
    rcases Nat.lt_or_ge k first with hk | hk
    · have hle := succ_mul_le size hk
      rw [Nat.succ_mul] at hle
      rw [if_neg (by omega), if_neg (by omega)]
    · -- chunk `first + d` is written over when `d < m`
      obtain ⟨d, rfl⟩ := Nat.exists_eq_add_of_le hk
      rw [Nat.add_mul, Nat.add_sub_cancel_left]
      by_cases hd : d < m
      · have hle := succ_mul_le size hd
        rw [Nat.succ_mul] at hle
        rw [if_pos (by omega), if_pos (by omega)]
        congr 1
        omega
      · have hle := Nat.mul_le_mul_right size (Nat.not_lt.mp hd)
        rw [if_neg (by omega), if_neg (by omega)]
  · rw [if_neg hl, if_neg hl, if_neg hl, ite_self]

/-- Writing a chunk where it stands. -/
lemma overwrite_chunk (size : ℕ) (xs : Array α) (k : ℕ) :
    overwrite xs (k * size) (chunk size xs k) = xs := by
  apply Array.ext_getElem?
  intro l
  rw [getElem?_overwrite, getElem?_chunk]
  split
  case isTrue written =>
    have inside : l - k * size < size := by
      have := written.2.1
      rw [chunk, Array.size_extract, Nat.succ_mul] at this
      omega
    rw [if_pos inside, Nat.add_sub_cancel' written.1]
  case isFalse => rfl

/-- The chunks of a run of whole chunks. -/
lemma chunk_extract (size first : ℕ) (xs : Array α) {m k : ℕ} (hk : first + k < m) :
    chunk size (xs.extract (first * size) (m * size)) k = chunk size xs (first + k) := by
  have hle := succ_mul_le size hk
  rw [Nat.succ_mul, Nat.add_mul] at hle
  apply Array.ext_getElem?
  intro l
  rw [getElem?_chunk, getElem?_chunk, Array.getElem?_extract, Nat.add_mul]
  by_cases hl : l < size
  · rw [if_pos hl, if_pos hl]
    by_cases hx : first * size + (k * size + l) < xs.size
    · rw [if_pos (by omega), Nat.add_assoc]
    · rw [if_neg (by omega), Array.getElem?_eq_none (by omega)]
  · rw [if_neg hl, if_neg hl]

/-- The chunks of two arrays, one behind the other. -/
lemma chunk_append {size first : ℕ} {xs ys : Array α} (hxs : xs.size = first * size) (k : ℕ) :
    chunk size (xs ++ ys) k = if k < first then chunk size xs k else chunk size ys (k - first) := by
  apply Array.ext_getElem?
  intro l
  rw [apply_ite (fun zs : Array α => zs[l]?), getElem?_chunk, getElem?_chunk, getElem?_chunk]
  by_cases hl : l < size
  · rw [if_pos hl, if_pos hl, if_pos hl]
    rcases Nat.lt_or_ge k first with hk | hk
    · have hle := succ_mul_le size hk
      rw [Nat.succ_mul] at hle
      rw [if_pos hk, Array.getElem?_append_left (by omega)]
    · obtain ⟨d, rfl⟩ := Nat.exists_eq_add_of_le hk
      rw [if_neg (by omega), Nat.add_sub_cancel_left, Nat.add_mul,
        Array.getElem?_append_right (by omega)]
      congr 1
      omega
  · rw [if_neg hl, if_neg hl, if_neg hl, ite_self]

end Span

namespace Entries

open DomainDecomposition.Span

variable {T : Type}

lemma scalars_eq_flatten (row : Entries T) :
    (scalars row).toList = row.flatMap fun e => e.2.toList := by
  have hfold : ∀ (row : Entries T) (acc : Array T),
      (row.foldl (fun acc e => acc ++ e.2) acc).toList =
        acc.toList ++ row.flatMap fun e => e.2.toList := by
    intro row
    induction row with
    | nil => intro acc; simp
    | cons e row ih => intro acc; rw [List.foldl_cons, ih]; simp
  rw [scalars, hfold]
  rfl

lemma size_scalars {size : ℕ} {row : Entries T} (full : ∀ e ∈ row, e.2.size = size) :
    (scalars row).size = row.length * size := by
  rw [← Array.length_toList, scalars_eq_flatten]
  induction row with
  | nil => simp
  | cons e row ih =>
    obtain ⟨he, hrow⟩ := List.forall_mem_cons.mp full
    rw [List.flatMap_cons, List.length_append, ih hrow, Array.length_toList, he,
      List.length_cons, Nat.succ_mul, Nat.add_comm]

/-- The blocks of a row are the chunks of its scalars. -/
lemma chunk_scalars {size : ℕ} {row : Entries T} (full : ∀ e ∈ row, e.2.size = size) {k : ℕ}
    (hk : k < row.length) : chunk size (scalars row) k = row[k].2 := by
  have hlist : ∀ (row : Entries T) (k : ℕ) (hk : k < row.length), (∀ e ∈ row, e.2.size = size) →
      ∀ l < size, (row.flatMap fun e => e.2.toList)[k * size + l]? = row[k].2[l]? := by
    intro row
    induction row with
    | nil => intro k hk; exact absurd hk (Nat.not_lt_zero k)
    | cons e row ih =>
      intro k hk full l hl
      obtain ⟨he, hrow⟩ := List.forall_mem_cons.mp full
      rw [List.flatMap_cons]
      cases k with
      | zero =>
        rw [Nat.zero_mul, Nat.zero_add,
          List.getElem?_append_left (by rw [Array.length_toList, he]; exact hl)]
        simp
      | succ k =>
        have hk' : k < row.length := by
          rw [List.length_cons] at hk
          omega
        rw [Nat.succ_mul, List.getElem?_append_right (by rw [Array.length_toList, he]; omega),
          Array.length_toList, he, show k * size + size + l - size = k * size + l by omega,
          ih k hk' hrow l hl]
        rfl
  have hfull : row[k].2.size = size := full _ (List.getElem_mem hk)
  apply Array.ext_getElem?
  intro l
  rw [getElem?_chunk]
  by_cases hl : l < size
  · rw [if_pos hl, ← hlist row k hk full l hl, ← scalars_eq_flatten, Array.getElem?_toList]
  · rw [if_neg hl, Array.getElem?_eq_none (by omega)]

/-- Writing over one block of a row. -/
lemma overwrite_scalars {size c : ℕ} {left right : Entries T} {old new : Array T}
    (full : ∀ e ∈ left ++ (c, old) :: right, e.2.size = size) (hnew : new.size = size) :
    overwrite (scalars (left ++ (c, old) :: right)) (left.length * size) new =
      scalars (left ++ (c, new) :: right) := by
  have full' : ∀ e ∈ left ++ (c, new) :: right, e.2.size = size := by
    intro e member
    rcases List.mem_append.mp member with h | h
    · exact full e (List.mem_append_left _ h)
    · rcases List.mem_cons.mp h with rfl | h
      · exact hnew
      · exact full e (List.mem_append_right _ (List.mem_cons_of_mem _ h))
  have hlength : (left ++ (c, new) :: right).length = (left ++ (c, old) :: right).length := by
    rw [List.length_append, List.length_append, List.length_cons, List.length_cons]
  have hinside : left.length + 1 ≤ (left ++ (c, old) :: right).length := by
    rw [List.length_append, List.length_cons]
    omega
  refine eq_of_chunk_eq (by rw [size_overwrite, size_scalars full])
    (by rw [size_scalars full', hlength]) fun k hk => ?_
  rw [chunk_overwrite (m := 1) (by rw [hnew, Nat.one_mul])
    (by rw [size_scalars full]; exact Nat.mul_le_mul_right size hinside),
    chunk_scalars full hk, chunk_scalars full' (by rw [hlength]; exact hk)]
  by_cases h : k = left.length
  · subst h
    rw [if_pos ⟨Nat.le_refl _, Nat.lt_succ_self _⟩, Nat.sub_self, chunk_zero hnew]
    simp
  · rw [if_neg (by omega)]
    rcases Nat.lt_or_ge k left.length with hlt | hge
    · rw [List.getElem_append_left hlt, List.getElem_append_left hlt]
    · obtain ⟨d, rfl⟩ : ∃ d, k = left.length + (d + 1) := ⟨k - left.length - 1, by omega⟩
      simp

end Entries

end DomainDecomposition
