import DomainDecomposition.Proofs.Distributed.Constraints

/-!
# Constraints on vectors

Clearing and prescribing write into the constrained scalars of an owned vector, constraint by
constraint and component by component, so that the last constraint of a scalar counts. The length of
the vector is tested first. A component that no block has is only found when its turn comes: what
stands before it in the list has been written by then, and stays (`exists_partial_prescription`). On
a matrix the same constraint is found before anything changes (`imposeConstraints_refused`).

* `writes`, `LastValue`: the scalars that are written, in their order, and the value that counts,
* `writeOwned_on`: the loop over constraints and components is one walk along the list,
* `Written`, `Assigned`: what a vector is after a list of writes, and after all of them,
* `clear_prescribe_spec`: both operations, whether they succeed or fail.
-/

namespace DomainDecomposition.Constraints

open Outcome

variable {T : Type}

/-! ## Constraints with all their values -/

/-- Every constraint has one value for each of its components. -/
def Complete (c : Constraints T) : Prop :=
  ∀ e ∈ c.entries, e.values.length = e.components.length

lemma complete_empty : (empty : Constraints T).Complete :=
  fun _ member => absurd member List.not_mem_nil

/-- Constraints that are added are completed first, or refused. -/
lemma Complete.add [Zero T] {c : Constraints T} (complete : c.Complete) (block localBlock : ℕ)
    (components : List ℕ) (values : List T) :
    ((Constraints.add block localBlock components values).on c).2.Complete := by
  unfold Constraints.add
  dsimp only
  generalize (if values.isEmpty = true then components.map fun _ => 0 else values) = given
  rw [Update.on_bind, Update.on_monadLift]
  cases fits : checkLength components.length given.length with
  | error e => exact complete
  | ok _ =>
    have lengths : components.length = given.length := BlockMatrix.checkLength_eq_ok.mp fits
    intro e member
    change e ∈ c.entries ++ [⟨block, localBlock, components, given⟩] at member
    rcases List.mem_append.mp member with old | new
    · exact complete e old
    · rw [List.mem_singleton.mp new]
      exact lengths.symm

/-! ## The list of writes -/

/-- The constrained scalars of a run of blocks with their values, in the order of the constraints
and of their components. -/
def writes (c : Constraints T) (first stop : ℕ) : List ((ℕ × ℕ) × T) :=
  (c.within first stop).flatMap fun (row, e) =>
    (e.components.zip e.values).map fun (v, t) => ((row, v), t)

/-- No later constraint or component gives the scalar another value. -/
def LastValue (c : Constraints T) (first stop : ℕ) (q : ℕ × ℕ) (t : T) : Prop :=
  ∃ before after, c.writes first stop = before ++ (q, t) :: after ∧ ∀ w ∈ after, w.1 ≠ q

/-- Write the listed scalars, up to the first one that its block does not have. -/
def writeAll (b : ℕ) : List ((ℕ × ℕ) × T) → Array T → Except Error Unit × Array T
  | [], x => (.ok (), x)
  | ((row, v), t) :: ws, x =>
    if b ≤ v then (.error (.config (.variableRange v b)), x)
    else writeAll b ws (x.setIfInBounds (row * b + v) t)

/-- The vector `y` is `x` after a list of writes, of which the last one to a scalar counts. -/
structure Written (b : ℕ) (ws : List ((ℕ × ℕ) × T)) (x y : Array T) : Prop where
  size : y.size = x.size
  last : ∀ before row v t after, ws = before ++ ((row, v), t) :: after →
    (∀ w ∈ after, w.1 ≠ (row, v)) → row * b + v < x.size → y[row * b + v]? = some t
  rest : ∀ row, ∀ v < b, (∀ w ∈ ws, w.1 ≠ (row, v)) → y[row * b + v]? = x[row * b + v]?

variable {c : Constraints T} {p : RowPartition} {first stop b n : ℕ} {x : Array T}

/-- Different scalars have different positions. -/
lemma position_ne {row row' v v' : ℕ} (hv : v < b) (hv' : v' < b) (apart : (row, v) ≠ (row', v')) :
    row * b + v ≠ row' * b + v' := by
  intro same
  obtain ⟨block, place⟩ := Span.div_mod_place row hv
  obtain ⟨block', place'⟩ := Span.div_mod_place row' hv'
  rw [same] at block place
  exact apart (Prod.ext (block.symm.trans block') (place.symm.trans place'))

lemma size_writeAll (ws : List ((ℕ × ℕ) × T)) (x : Array T) :
    (writeAll b ws x).2.size = x.size := by
  fun_induction writeAll b ws x with
  | case1 => rfl
  | case2 => rfl
  | case3 x row v t ws _ ih => exact ih.trans Array.size_setIfInBounds

lemma writeAll_append (ws ws' : List ((ℕ × ℕ) × T)) (x : Array T) :
    writeAll b (ws ++ ws') x =
      match writeAll b ws x with
      | (.ok _, y) => writeAll b ws' y
      | (.error e, y) => (.error e, y) := by
  fun_induction writeAll b ws x with
  | case1 x => rfl
  | case2 x row v t ws bad => rw [List.cons_append, writeAll, if_pos bad]
  | case3 x row v t ws good ih => rw [List.cons_append, writeAll, if_neg good, ih]

/-- Where all components are there, everything is written. -/
lemma writeAll_of_good {ws : List ((ℕ × ℕ) × T)} (good : ∀ w ∈ ws, w.1.2 < b) :
    ∃ y, writeAll b ws x = (.ok (), y) ∧ Written b ws x y := by
  induction ws generalizing x with
  | nil =>
    refine ⟨x, rfl, rfl, fun before row v t after split => ?_, fun _ _ _ _ => rfl⟩
    exact absurd split (by simp)
  | cons w ws ih =>
    obtain ⟨⟨row, v⟩, t⟩ := w
    obtain ⟨hv, good⟩ := List.forall_mem_cons.mp good
    obtain ⟨y, run, written⟩ := ih (x := x.setIfInBounds (row * b + v) t) good
    refine ⟨y, ?_, written.size.trans Array.size_setIfInBounds, ?_, ?_⟩
    · rw [writeAll, if_neg (Nat.not_le.mpr hv), run]
    · intro before row' v' t' after split later inside
      cases before with
      | nil =>
        -- the first write is the last one to its scalar, so the others leave it alone
        obtain ⟨head, rfl⟩ := List.cons.inj split
        obtain ⟨⟨rfl, rfl⟩, rfl⟩ : (row = row' ∧ v = v') ∧ t = t' := by
          simpa using head
        rw [written.rest row v hv later, Array.getElem?_setIfInBounds_self_of_lt inside]
      | cons w before =>
        obtain ⟨-, rfl⟩ := List.cons.inj split
        exact written.last before row' v' t' after rfl later (by
          rwa [Array.size_setIfInBounds])
    · intro row' v' hv' other
      obtain ⟨apart, other⟩ := List.forall_mem_cons.mp other
      rw [written.rest row' v' hv' other,
        Array.getElem?_setIfInBounds_ne (position_ne hv hv' apart)]

/-- The first component that is not there ends the walk. -/
lemma writeAll_of_bad {ws before after : List ((ℕ × ℕ) × T)} {row v : ℕ} {t : T}
    (split : ws = before ++ ((row, v), t) :: after) (good : ∀ w ∈ before, w.1.2 < b) (bad : b ≤ v) :
    ∃ y, writeAll b ws x = (.error (.config (.variableRange v b)), y) ∧ Written b before x y := by
  obtain ⟨y, run, written⟩ := writeAll_of_good (x := x) good
  refine ⟨y, ?_, written⟩
  rw [split, writeAll_append, run]
  dsimp only
  rw [writeAll, if_pos bad]

/-- The first component that is not there. -/
lemma exists_first_bad {ws : List ((ℕ × ℕ) × T)} (bad : ∃ w ∈ ws, b ≤ w.1.2) :
    ∃ before row v t after, ws = before ++ ((row, v), t) :: after ∧ (∀ w ∈ before, w.1.2 < b) ∧
      b ≤ v := by
  induction ws with
  | nil => simp at bad
  | cons w ws ih =>
    obtain ⟨⟨row, v⟩, t⟩ := w
    by_cases here : b ≤ v
    · exact ⟨[], row, v, t, ws, rfl, fun _ member => absurd member List.not_mem_nil, here⟩
    · obtain ⟨w, member, behind⟩ := bad
      have later : w ∈ ws := by
        rcases List.mem_cons.mp member with rfl | later
        · exact absurd behind here
        · exact later
      obtain ⟨before, row', v', t', after, rfl, good, bad⟩ := ih ⟨w, later, behind⟩
      exact ⟨((row, v), t) :: before, row', v', t', after, rfl,
        List.forall_mem_cons.mpr ⟨Nat.lt_of_not_le here, good⟩, bad⟩

/-! ## The loops -/

/-- The components of one block. -/
lemma writeBlock_on {row : ℕ} (hrow : row < n) (size : x.size = n * b) (ws : List (ℕ × T)) :
    (writeBlock b row ws).on x = writeAll b (ws.map fun (v, t) => ((row, v), t)) x := by
  induction ws generalizing x with
  | nil => rfl
  | cons w ws ih =>
    obtain ⟨v, t⟩ := w
    rw [List.map_cons, writeBlock, writeAll]
    by_cases bad : b ≤ v
    · rw [if_pos bad, if_pos bad, Update.on_bind]
      rfl
    · have inside : row * b + v < x.size := by
        rw [size]
        exact DenseMatrix.position_lt hrow (Nat.lt_of_not_le bad)
      have stored : Span.item x (row * b + v) = .ok x[row * b + v] :=
        Span.item_eq_ok.mpr (Array.getElem?_eq_getElem inside)
      rw [if_neg bad, if_neg bad, Update.on_bind_of_ok (Update.on_get x), stored,
        Update.on_bind_of_ok (Update.on_monadLift _ x), Update.on_bind_of_ok (Update.on_modify _ x)]
      exact ih (Array.size_setIfInBounds.trans size)

/-- The constraints on a list of blocks, with values that depend on the prescribed ones. -/
lemma forM_writeBlock_on (value : T → T) {blocks : List (ℕ × Constraint T)}
    (inside : ∀ q ∈ blocks, q.1 < n) (size : x.size = n * b) :
    (blocks.forM fun (row, e) =>
        writeBlock b row (e.components.zip (e.values.map value)) : Update (Array T) Unit).on x =
      writeAll b ((blocks.flatMap fun (row, e) =>
        (e.components.zip e.values).map fun (v, t) => ((row, v), t)).map
          fun w => (w.1, value w.2)) x := by
  induction blocks generalizing x with
  | nil => rfl
  | cons q blocks ih =>
    obtain ⟨row, e⟩ := q
    obtain ⟨hrow, inside⟩ := List.forall_mem_cons.mp inside
    have first := writeBlock_on hrow size (e.components.zip (e.values.map value))
    have same : (e.components.zip (e.values.map value)).map (fun (v, t) => ((row, v), t)) =
        ((e.components.zip e.values).map fun (v, t) => ((row, v), t)).map
          fun w => (w.1, value w.2) := by
      rw [List.zip_map_right, List.map_map, List.map_map]
      rfl
    rw [same] at first
    change (writeBlock b row (e.components.zip (e.values.map value)) >>= fun _ =>
      blocks.forM fun (row, e) => writeBlock b row (e.components.zip (e.values.map value))).on x = _
    rw [Update.on_bind, first, List.flatMap_cons, List.map_append, writeAll_append]
    have kept := size_writeAll (b := b) (((e.components.zip e.values).map
      fun (v, t) => ((row, v), t)).map fun w => (w.1, value w.2)) x
    split
    case h_1 y run =>
      rw [run] at kept ⊢
      exact ih inside (kept.trans size)
    case h_2 e y run =>
      rw [run]

/-- Both operations test the length and walk along the list of writes. -/
lemma writeOwned_on (range : p.range = .ok (first, stop)) (value : T → T) :
    (c.writeOwned p b value).on x =
      if (stop - first) * b = x.size then
        writeAll b ((c.writes first stop).map fun w => (w.1, value w.2)) x
      else (.error (.dimensionMismatch ((stop - first) * b) x.size), x) := by
  have owned : p.localSize = .ok (stop - first) := by
    rw [RowPartition.localSize, range]
    rfl
  rw [writeOwned, owned, owned_eq range, Update.on_bind_of_ok (Update.on_monadLift _ x),
    Update.on_bind_of_ok (Update.on_get x), Update.on_bind, Update.on_monadLift, checkLength]
  by_cases size : (stop - first) * b = x.size
  · rw [if_pos size, if_pos size]
    refine (Update.on_bind_of_ok (Update.on_monadLift _ x)).trans ?_
    refine forM_writeBlock_on value (fun q listed => ?_) size.symm
    obtain ⟨-, inside, same⟩ := mem_within.mp listed
    omega
  · rw [if_neg size, if_neg size]

/-! ## What is written -/

/-- The scalars that are written are the constrained ones. -/
lemma exists_mem_writes_iff (complete : c.Complete) {q : ℕ × ℕ} :
    (∃ t, (q, t) ∈ c.writes first stop) ↔ q ∈ c.scalars first stop := by
  obtain ⟨row, v⟩ := q
  constructor
  · rintro ⟨t, listed⟩
    obtain ⟨⟨row', e⟩, own, component⟩ := List.mem_flatMap.mp listed
    obtain ⟨⟨v', t'⟩, paired, same⟩ := List.mem_map.mp component
    obtain ⟨⟨rfl, rfl⟩, rfl⟩ : (row' = row ∧ v' = v) ∧ t' = t := by simpa using same
    obtain ⟨member, inside, place⟩ := mem_within.mp own
    exact ⟨e, member, inside, place, (List.of_mem_zip paired).1⟩
  · rintro ⟨e, member, inside, place, component⟩
    obtain ⟨k, hk, rfl⟩ := List.mem_iff_getElem.mp component
    have hk' : k < e.values.length := by rwa [complete e member]
    have paired : (e.components[k], e.values[k]) ∈ e.components.zip e.values :=
      List.mem_iff_getElem.mpr ⟨k, by rw [List.length_zip]; omega, List.getElem_zip⟩
    exact ⟨e.values[k], List.mem_flatMap.mpr
      ⟨(row, e), mem_within.mpr ⟨member, inside, place⟩, List.mem_map.mpr ⟨_, paired, rfl⟩⟩⟩

/-- A scalar that is written is written a last time. -/
lemma exists_last {ws : List ((ℕ × ℕ) × T)} {q : ℕ × ℕ} (listed : ∃ t, (q, t) ∈ ws) :
    ∃ t before after, ws = before ++ (q, t) :: after ∧ ∀ w ∈ after, w.1 ≠ q := by
  induction ws with
  | nil =>
    obtain ⟨t, listed⟩ := listed
    exact absurd listed List.not_mem_nil
  | cons w ws ih =>
    by_cases later : ∃ t, (q, t) ∈ ws
    · obtain ⟨t, before, after, rfl, last⟩ := ih later
      exact ⟨t, w :: before, after, rfl, last⟩
    · obtain ⟨t, listed⟩ := listed
      rcases List.mem_cons.mp listed with rfl | again
      · exact ⟨t, [], ws, rfl, fun w member same => later ⟨w.2, same ▸ member⟩⟩
      · exact absurd ⟨t, again⟩ later

/-- What is written may depend on the listed values. -/
lemma Written.last_map {ws : List ((ℕ × ℕ) × T)} {value : T → T} {y : Array T}
    (written : Written b (ws.map fun w => (w.1, value w.2)) x y)
    {before after : List ((ℕ × ℕ) × T)} {row v : ℕ} {t : T}
    (split : ws = before ++ ((row, v), t) :: after) (last : ∀ w ∈ after, w.1 ≠ (row, v))
    (inside : row * b + v < x.size) : y[row * b + v]? = some (value t) := by
  refine written.last (before.map fun w => (w.1, value w.2)) row v (value t)
    (after.map fun w => (w.1, value w.2)) ?_ (List.forall_mem_map.mpr last) inside
  rw [split, List.map_append, List.map_cons]

/-- The constrained scalars of a run of blocks hold what `value` makes of the last value that is
prescribed for them, and the other scalars are those of `x`. -/
structure Assigned (c : Constraints T) (first stop b : ℕ) (value : T → T) (x y : Array T) :
    Prop where
  size : y.size = x.size
  prescribed : ∀ row v, (row, v) ∈ c.scalars first stop → ∃ t, c.LastValue first stop (row, v) t
  constrained : ∀ row v t, c.LastValue first stop (row, v) t → y[row * b + v]? = some (value t)
  free : ∀ row, ∀ v < b, (row, v) ∉ c.scalars first stop → y[row * b + v]? = x[row * b + v]?

/-- Where the length fits and all components are there, the operation succeeds. -/
lemma writeOwned_of_good (complete : c.Complete) (range : p.range = .ok (first, stop))
    (value : T → T) (size : (stop - first) * b = x.size)
    (good : ∀ q ∈ c.scalars first stop, q.2 < b) :
    ∃ y, (c.writeOwned p b value).on x = (.ok (), y) ∧ c.Assigned first stop b value x y := by
  have listed : ∀ w ∈ c.writes first stop, w.1 ∈ c.scalars first stop :=
    fun w member => (exists_mem_writes_iff complete).mp ⟨w.2, member⟩
  have good' : ∀ w ∈ (c.writes first stop).map fun w => (w.1, value w.2), w.1.2 < b :=
    List.forall_mem_map.mpr fun w member => good w.1 (listed w member)
  obtain ⟨y, run, written⟩ := writeAll_of_good (x := x) good'
  refine ⟨y, by rw [writeOwned_on range, if_pos size, run], written.size, ?_, ?_, ?_⟩
  · intro row v constrained
    exact exists_last ((exists_mem_writes_iff complete).mpr constrained)
  · rintro row v t ⟨before, after, split, last⟩
    have constrained : (row, v) ∈ c.scalars first stop :=
      listed ((row, v), t) (split ▸ List.mem_append_right _ List.mem_cons_self)
    obtain ⟨e, -, inside, place, -⟩ := id constrained
    refine written.last_map split last ?_
    rw [← size]
    exact DenseMatrix.position_lt (by dsimp only at place; omega) (good _ constrained)
  · intro row v hv other
    refine written.rest row v hv (List.forall_mem_map.mpr fun w member same => ?_)
    exact other (same ▸ listed w member)

/-- A component that is not there ends the operation, with what stands before it written. -/
lemma writeOwned_of_bad (range : p.range = .ok (first, stop)) (value : T → T)
    (size : (stop - first) * b = x.size) {before after : List ((ℕ × ℕ) × T)} {row v : ℕ} {t : T}
    (split : c.writes first stop = before ++ ((row, v), t) :: after)
    (good : ∀ w ∈ before, w.1.2 < b) (bad : b ≤ v) :
    ∃ y, (c.writeOwned p b value).on x = (.error (.config (.variableRange v b)), y) ∧
      Written b (before.map fun w => (w.1, value w.2)) x y := by
  have split' : ((c.writes first stop).map fun w => (w.1, value w.2)) =
      (before.map fun w => (w.1, value w.2)) ++
        ((row, v), value t) :: after.map fun w => (w.1, value w.2) := by
    rw [split, List.map_append, List.map_cons]
  have good' : ∀ w ∈ before.map fun w => (w.1, value w.2), w.1.2 < b :=
    List.forall_mem_map.mpr good
  obtain ⟨y, run, written⟩ := writeAll_of_bad (x := x) split' good' bad
  exact ⟨y, by rw [writeOwned_on range, if_pos size, run], written⟩

/-- What clearing and prescribing do to a vector, and what they leave where they fail. A matrix with
the same constraints refuses them before anything changes. -/
theorem clear_prescribe_spec [Zero T] [One T] (complete : c.Complete)
    (range : p.range = .ok (first, stop)) (b : ℕ) (x : Array T) :
    ((stop - first) * b ≠ x.size →
      (c.clear p b).on x = (.error (.dimensionMismatch ((stop - first) * b) x.size), x) ∧
      (c.prescribe p b).on x = (.error (.dimensionMismatch ((stop - first) * b) x.size), x)) ∧
    ((stop - first) * b = x.size → (∀ q ∈ c.scalars first stop, q.2 < b) →
      (∃ y, (c.clear p b).on x = (.ok (), y) ∧ c.Assigned first stop b (fun _ => 0) x y) ∧
      ∃ y, (c.prescribe p b).on x = (.ok (), y) ∧ c.Assigned first stop b id x y) ∧
    ((stop - first) * b = x.size → (¬∀ q ∈ c.scalars first stop, q.2 < b) →
      (∃ before row v t after, c.writes first stop = before ++ ((row, v), t) :: after ∧
        (∀ w ∈ before, w.1.2 < b) ∧ b ≤ v ∧
        (∃ y, (c.clear p b).on x = (.error (.config (.variableRange v b)), y) ∧
          Written b (before.map fun w => (w.1, 0)) x y) ∧
        ∃ y, (c.prescribe p b).on x = (.error (.config (.variableRange v b)), y) ∧
          Written b before x y) ∧
      ∀ (a : DistributedMatrix T) (s : Store T), a.constraints = some c → a.partition = p →
        a.layout.blockSize = b →
        ∃ fault, a.imposeConstraints.on s = (.error (.config fault), s)) := by
  refine ⟨fun size => ?_, fun size good => ?_, fun size bad => ⟨?_, ?_⟩⟩
  · exact ⟨by rw [clear, writeOwned_on range, if_neg size],
      by rw [prescribe, writeOwned_on range, if_neg size]⟩
  · exact ⟨writeOwned_of_good complete range _ size good,
      writeOwned_of_good complete range id size good⟩
  · have listed : ∃ w ∈ c.writes first stop, b ≤ w.1.2 := by
      push Not at bad
      obtain ⟨q, constrained, bad⟩ := bad
      obtain ⟨t, member⟩ := (exists_mem_writes_iff complete).mpr constrained
      exact ⟨(q, t), member, bad⟩
    obtain ⟨before, row, v, t, after, split, good, bad⟩ := exists_first_bad listed
    obtain ⟨y, prescribed, written⟩ := writeOwned_of_bad (x := x) range id size split good bad
    have unmapped : (before.map fun w => (w.1, id w.2)) = before := List.map_id before
    rw [unmapped] at written
    exact ⟨before, row, v, t, after, split, good, bad,
      writeOwned_of_bad range _ size split good bad, y, prescribed, written⟩
  · rintro a s constraints rfl rfl
    refine DistributedMatrix.imposeConstraints_refused range fun placed => ?_
    refine bad fun q constrained => ?_
    rw [constraints] at placed
    obtain ⟨e, member, inside, -, component⟩ := constrained
    exact (placed e member inside).2 q.2 component

/-- The second component of the first of two blocks is fixed twice. -/
def corner : Constraints ℚ :=
  ⟨[⟨0, 0, [1], [7]⟩, ⟨2, 2, [0], [1]⟩, ⟨0, 0, [0, 1], [3, 8]⟩]⟩

/-- The value of the later constraint counts. The third block, on which there is a constraint too,
is not owned. With a block size of one the first constraint is refused. -/
theorem corner_clear_prescribe :
    corner.Complete ∧ (⟨.single, #[0, 2]⟩ : RowPartition).range = .ok (0, 2) ∧
      (∃ y, (corner.prescribe ⟨.single, #[0, 2]⟩ 2).on #[1, 2, 4, 5] = (.ok (), y) ∧
        y[0]? = some 3 ∧ y[1]? = some 8 ∧ y[2]? = some 4) ∧
      ∃ y, (corner.prescribe ⟨.single, #[0, 2]⟩ 1).on #[1, 2] =
        (.error (.config (.variableRange 1 1)), y) := by
  have complete : corner.Complete := by simp [corner, Complete]
  have range : (⟨.single, #[0, 2]⟩ : RowPartition).range = .ok (0, 2) := rfl
  have writes : corner.writes 0 2 = [((0, 1), 7), ((0, 0), 3), ((0, 1), 8)] := rfl
  have constrained : ∀ q ∈ corner.scalars 0 2, q = (0, 0) ∨ q = (0, 1) := by
    intro q member
    obtain ⟨t, listed⟩ := (exists_mem_writes_iff complete).mpr member
    simp only [writes, List.mem_cons, List.not_mem_nil, or_false, Prod.mk.injEq] at listed
    tauto
  refine ⟨complete, range, ?_, ?_⟩
  · have good : ∀ q ∈ corner.scalars 0 2, q.2 < 2 := by
      intro q member
      rcases constrained q member with rfl | rfl <;> decide
    obtain ⟨y, run, assigned⟩ :=
      ((clear_prescribe_spec complete range 2 #[1, 2, 4, 5]).2.1 rfl good).2
    refine ⟨y, run, assigned.constrained 0 0 3 ⟨[((0, 1), 7)], [((0, 1), 8)], writes, by simp⟩,
      assigned.constrained 0 1 8 ⟨[((0, 1), 7), ((0, 0), 3)], [], writes, by simp⟩, ?_⟩
    refine assigned.free 1 0 (by decide) fun member => ?_
    rcases constrained _ member with same | same <;> cases same
  · have bad : ¬∀ q ∈ corner.scalars 0 2, q.2 < 1 :=
      fun good => absurd (good (0, 1) ((exists_mem_writes_iff complete).mp ⟨7, by simp [writes]⟩))
        (Nat.lt_irrefl 1)
    obtain ⟨⟨before, row, v, t, after, split, -, behind, -, y, run, -⟩, -⟩ :=
      (clear_prescribe_spec complete range 1 #[1, 2]).2.2 rfl bad
    have member : ((row, v), t) ∈ corner.writes 0 2 :=
      split ▸ List.mem_append_right _ List.mem_cons_self
    obtain rfl : v = 1 := by
      rcases constrained _ ((exists_mem_writes_iff complete).mp ⟨t, member⟩) with same | same
      · cases same
        exact absurd behind (by decide)
      · exact congrArg Prod.snd same
    exact ⟨y, run⟩

/-- A component that is not there is found too late: the one before it has been written. -/
theorem exists_partial_prescription :
    ¬∀ (c : Constraints ℚ) (p : RowPartition) (b : ℕ) (x : Array ℚ) (e : Error), c.Complete →
      ((c.prescribe p b).on x).1 = .error e → ((c.prescribe p b).on x).2 = x := by
  intro unchanged
  have same := unchanged ⟨[⟨0, 0, [0, 1], [7, 8]⟩]⟩ ⟨.single, #[0, 1]⟩ 1 #[5]
    (.config (.variableRange 1 1)) (by simp [Complete]) rfl
  revert same
  decide +kernel

end DomainDecomposition.Constraints
