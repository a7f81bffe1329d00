import DomainDecomposition.Proofs.Halo.Session
import Mathlib.Data.Finset.Option

/-!
# Exchanges that overlap and exchanges that do not

Where every exchange is finished before the next one is begun, on whichever link, the rounds stay
apart: the exchange that a rank finishes as its `k`-th delivers the vectors that the owners have
begun their `k`-th with (`finish_delivers_own_round`), also when the receive buffers of some ranks
have a wrong length. Where another exchange is begun meanwhile, its vector takes the place of the
first one (`overlapping_begin_replaces`).

* `Desk.Made`: all links of a rank are made by tables,
* `Separate`: at most one exchange of the rank is in flight,
* `begun`: the vectors that a rank has begun its exchanges with.
-/

namespace DomainDecomposition

open World

variable {T R : Type}

/-! ## Links that tables have made -/

/-- The links of rank `r` of `n` are new, and tables have made them. -/
structure Desk.Made (n r : ℕ) (partition : ℕ → RowPartition) (blocks : ℕ → List ℕ) (b : ℕ → ℕ)
    (d : Desk T) : Prop where
  shared : ∀ k, ∃ offsets, RowPartition.ofOffsets (.member r n) offsets = .ok (partition k)
  link : ∀ k, ∃ table, Table.ofPartition (partition k) (blocks k) = .ok table ∧
    table.link (b k) = .ok (d.links k)

namespace Desk.Made

variable {n r : ℕ} {partition : ℕ → RowPartition} {blocks : ℕ → List ℕ} {b : ℕ → ℕ} {d : Desk T}

/-- Nothing is in flight yet. -/
lemma keeps (h : d.Made n r partition blocks b) :
    d.Keeps b (fun k => (blocks k).map (partition k).source) ∅ := by
  have hlink : ∀ k, d.links k =
      ⟨b k, .idle, .remote ((blocks k).map (partition k).source)⟩ := by
    intro k
    obtain ⟨table, htable, hlink⟩ := h.link k
    obtain ⟨-, -, hmade⟩ := Table.ofPartition_eq_ok htable
    exact Except.ok.inj (hlink.symm.trans (hmade (b k)))
  exact ⟨fun k => by rw [hlink], fun k => by rw [hlink],
    fun k hk => absurd hk (Finset.notMem_empty k), fun k _ => by rw [hlink]; rfl⟩

/-- The owners are ranks of the world. -/
lemma owner_lt (h : d.Made n r partition blocks b) (k : ℕ) :
    ∀ s ∈ (blocks k).map (partition k).source, s.1 < n := by
  intro s hs
  obtain ⟨g, hg, rfl⟩ := List.mem_map.mp hs
  obtain ⟨offsets, hoffsets⟩ := h.shared k
  obtain ⟨table, htable, -⟩ := h.link k
  obtain ⟨q, hq, -, hsource, -⟩ := Table.source_spec hoffsets htable hg
  rw [hsource]
  exact hq

end Desk.Made

/-! ## Exchanges that do not overlap -/

/-- At most one exchange of the rank is in flight, on the link `out` if there is one: it is finished
before the next one is begun. Other calls may come anywhere. -/
def Separate : Option ℕ → List (Call T R) → Prop
  | _, [] => True
  | out, .begin k _ _ :: calls => out = none ∧ Separate (some k) calls
  | out, .finish k _ :: calls => out = some k ∧ Separate none calls
  | out, _ :: calls => Separate out calls

/-- The vectors that a rank begins its exchanges with, in order. -/
def begun (calls : List (Call T R)) : List (Published T) :=
  calls.filterMap fun
    | .begin _ x offset => some { values := x, offset }
    | _ => none

lemma Separate.proper {out : Option ℕ} {calls : List (Call T R)} (h : Separate out calls) :
    Proper out.toFinset calls := by
  induction calls generalizing out with
  | nil => trivial
  | cons call calls ih =>
    cases call with
    | begin k x offset =>
      obtain ⟨rfl, hrest⟩ := h
      exact ⟨Finset.notMem_empty k, ih hrest⟩
    | finish k buffer =>
      obtain ⟨rfl, hrest⟩ := h
      have herase : (some k).toFinset.erase k = (none : Option ℕ).toFinset :=
        Finset.erase_singleton k
      refine ⟨Finset.mem_singleton_self k, ?_⟩
      rw [Call.after, herase]
      exact ih hrest
    | reduce _ | gather _ | barrier => exact ⟨trivial, ih h⟩

/-- When an exchange is finished, the vector that was published last is the one of the same round.
-/
lemma Separate.latest_eq {out : Option ℕ} {calls : List (Call T R)} (h : Separate out calls)
    {m k : ℕ} {buffer : Array T} (here : calls[m]? = some (.finish k buffer)) :
    (out = none → ∀ past, latest past (calls.take m) =
      (begun calls)[((calls.take m).map Call.kind).count .finish]?) ∧
    (out.isSome → ∀ v, latest (some v) (calls.take m) =
      (v :: begun calls)[((calls.take m).map Call.kind).count .finish]?) := by
  -- while an exchange is in flight its vector counts as the first one: beginning an exchange leads
  -- from the first half to the second, and finishing it leads back
  induction calls generalizing out m with
  | nil => simp at here
  | cons call calls ih =>
    cases call with
    | begin j x offset =>
      obtain ⟨rfl, hrest⟩ := h
      cases m with
      | zero => simp at here
      | succ m =>
        refine ⟨fun _ past => ?_, fun hout => absurd hout (by simp)⟩
        exact (ih hrest (by simpa using here)).2 rfl { values := x, offset }
    | finish j buffer' =>
      obtain ⟨rfl, hrest⟩ := h
      refine ⟨fun hout => absurd hout (by simp), fun _ v => ?_⟩
      cases m with
      | zero => rfl
      | succ m =>
        have hcount : (Call.kind (.finish j buffer' : Call T R) ::
            (calls.take m).map Call.kind).count .finish =
              ((calls.take m).map Call.kind).count .finish + 1 := List.count_cons_self
        rw [List.take_succ_cons, List.map_cons, hcount]
        exact (ih hrest (by simpa using here)).1 rfl (some v)
    | reduce _ | gather _ | barrier =>
      cases m with
      | zero => simp at here
      | succ m => exact ih h (by simpa using here)

/-- In a session in which no two exchanges of a rank overlap, every interleaving ends with all ranks
having made all their calls. The exchange that a rank finishes after `k` others then delivers, if it
succeeds, the vectors that the owners have begun their exchanges with after beginning `k` others. It
succeeds when the receive buffer has the right length and the owners' vectors hold the blocks. -/
theorem finish_delivers_own_round [Zero R] [Add R] {n : ℕ} {partition : ℕ → ℕ → RowPartition}
    {blocks : ℕ → ℕ → List ℕ} {b : ℕ → ℕ → ℕ} {d : ℕ → Desk T}
    (made : ∀ r < n, (d r).Made n r (partition r) (blocks r) (b r)) {kinds : List Call.Kind}
    {calls : ℕ → List (Call T R)} (common : ∀ r < n, (calls r).map Call.kind = kinds)
    (separate : ∀ r < n, Separate none (calls r)) {world : World T R} (sized : world.Sized n) :
    ∃ (answers : ℕ → List (Answer T R)) (d' : ℕ → Desk T),
      Settles n (fun r => (answers r, d' r))
        ⟨world, fun r => session (.member r n) (calls r) (d r)⟩ ∧
      ∀ r < n, ∀ m k buffer, (calls r)[m]? = some (.finish k buffer) →
        ∃ result buffer', (answers r)[m]? = some (.finished result buffer') ∧
          Link.Delivered (b r k) (fun q => (begun (calls q))[(kinds.take m).count .finish]?)
            ((blocks r k).map (partition r k).source) buffer result buffer' := by
  have proper : ∀ r < n, Proper ∅ (calls r) := fun r hr => (separate r hr).proper
  obtain ⟨answers, d', horderly, hanswers⟩ := orderly_session
    (fun r hr => (made r hr).owner_lt) common proper (fun r hr => (made r hr).keeps) sized
  refine ⟨answers, d', horderly.settles, fun r hr m k buffer hm => ?_⟩
  obtain ⟨answer, hanswer, result, buffer', rfl, hdelivered⟩ := hanswers r hr m _ hm
  refine ⟨result, buffer', hanswer, hdelivered.congr fun s hs => ?_⟩
  -- the owner finishes an exchange by the same call
  have howner := (made r hr).owner_lt k s hs
  have hkind : kinds[m]? = some .finish := by
    rw [← common r hr, List.getElem?_map, hm]
    rfl
  obtain ⟨call, hcall, hfinish⟩ : ∃ call, (calls s.1)[m]? = some call ∧ call.kind = .finish := by
    rw [← common s.1 howner, List.getElem?_map] at hkind
    exact Option.map_eq_some_iff.mp hkind
  obtain ⟨j, buffer'', rfl⟩ := Call.kind_eq_finish hfinish
  rw [((separate s.1 howner).latest_eq hcall).1 rfl, ← common s.1 howner, List.map_take]

/-! ### Two ranks with one block each -/

/-- Both links of rank `r` ask for the block of the other rank. -/
def pairDesk (r : ℕ) : Desk ℕ where
  links _ := ⟨1, .idle, .remote [(1 - r, 0)]⟩
  tickets _ := ⟨0⟩

/-- One block for each rank. -/
def pairRows (r : ℕ) : RowPartition :=
  ⟨.member r 2, #[0, 1, 2]⟩

lemma pairDesk_made : ∀ r < 2,
    (pairDesk r).Made 2 r (fun _ => pairRows r) (fun _ => [1 - r]) fun _ => 1 := by
  intro r hr
  obtain rfl | rfl : r = 0 ∨ r = 1 := by omega
  all_goals exact ⟨fun _ => ⟨#[0, 1, 2], rfl⟩, fun _ => ⟨_, rfl, rfl⟩⟩

/-- A receive buffer for one scalar. -/
lemma Link.Delivered.of_scalar {vectors : ℕ → Option (Published ℕ)} {q v w : ℕ}
    {result : Except Error Unit} {buffer' : Array ℕ}
    (h : Delivered 1 vectors [(q, 0)] #[w] result buffer')
    (published : vectors q = some { values := #[v], offset := 0 }) :
    result = .ok () ∧ buffer' = #[v] := by
  have hok : result = .ok () := by
    refine h.ok_iff.mpr ⟨rfl, fun s hs => ?_⟩
    obtain rfl := List.mem_singleton.mp hs
    exact ⟨_, published, le_rfl, le_rfl⟩
  refine ⟨hok, ?_⟩
  have hslot := h.slots hok 0 (q, 0) rfl
  have hsize : buffer'.size = 1 := h.size
  rw [Span.chunk_zero hsize] at hslot
  rw [hslot, published]
  rfl

/-- Two exchanges on one link, with a reduction in between. Rank 1 finishes the first one with a
receive buffer that is too short. -/
def pairCalls (r : ℕ) : List (Call ℕ ℕ) :=
  [.begin 0 #[10 + r] 0, .reduce #[r], .finish 0 (if r = 0 then #[0] else #[]),
    .begin 0 #[20 + r] 0, .finish 0 #[0]]

/-- Rank 0 gets the vectors of both rounds. Rank 1 fails in the first round, and gets the vector of
the second one. -/
theorem pair_finish_delivers_own_round :
    ∃ (answers : ℕ → List (Answer ℕ ℕ)) (d' : ℕ → Desk ℕ),
      Settles 2 (fun r => (answers r, d' r))
        ⟨initial 2, fun r => session (.member r 2) (pairCalls r) (pairDesk r)⟩ ∧
      (answers 0)[2]? = some (.finished (.ok ()) #[11]) ∧
      (answers 1)[2]? = some (.finished (.error (.dimensionMismatch 1 0)) #[]) ∧
      (answers 0)[4]? = some (.finished (.ok ()) #[21]) ∧
      (answers 1)[4]? = some (.finished (.ok ()) #[20]) := by
  have common : ∀ r < 2,
      (pairCalls r).map Call.kind = [.begin, .reduce, .finish, .begin, .finish] := fun _ _ => rfl
  obtain ⟨answers, d', settles, h⟩ := finish_delivers_own_round pairDesk_made common
    (fun _ _ => ⟨rfl, rfl, rfl, rfl, trivial⟩) (sized_initial 2)
  refine ⟨answers, d', settles, ?_, ?_, ?_, ?_⟩
  · obtain ⟨result, buffer', hanswer, hdelivered⟩ := h 0 (by decide) 2 0 #[0] rfl
    obtain ⟨rfl, rfl⟩ := hdelivered.of_scalar (q := 1) (v := 11) rfl
    exact hanswer
  · obtain ⟨result, buffer', hanswer, hdelivered⟩ := h 1 (by decide) 2 0 #[] rfl
    obtain ⟨rfl, rfl⟩ := hdelivered.mismatch (by decide)
    exact hanswer
  · obtain ⟨result, buffer', hanswer, hdelivered⟩ := h 0 (by decide) 4 0 #[0] rfl
    obtain ⟨rfl, rfl⟩ := hdelivered.of_scalar (q := 1) (v := 21) rfl
    exact hanswer
  · obtain ⟨result, buffer', hanswer, hdelivered⟩ := h 1 (by decide) 4 0 #[0] rfl
    obtain ⟨rfl, rfl⟩ := hdelivered.of_scalar (q := 0) (v := 20) rfl
    exact hanswer

/-! ## Exchanges that overlap -/

/-- Only one vector of a rank is published at a time. When all ranks begin a second exchange on
another link before they finish the first one, the first one delivers the vectors of the second. -/
theorem overlapping_begin_replaces [Zero R] [Add R] {n : ℕ} {b : ℕ → ℕ → ℕ}
    {sources : ℕ → ℕ → List (ℕ × ℕ)} (owners : ∀ r < n, ∀ k, ∀ s ∈ sources r k, s.1 < n)
    {out : ℕ → Finset ℕ} {d : ℕ → Desk T}
    (keeps : ∀ r < n, (d r).Keeps (b r) (sources r) (out r)) (k k' : ℕ → ℕ)
    (idle : ∀ r < n, k r ∉ out r ∧ k' r ∉ out r) (apart : ∀ r < n, k' r ≠ k r)
    (x x' buffer : ℕ → Array T) (offset offset' : ℕ → ℕ) {world : World T R}
    (sized : world.Sized n) :
    (∃ (answers : ℕ → List (Answer T R)) (d' : ℕ → Desk T),
      Settles n (fun r => (answers r, d' r)) ⟨world, fun r => session (.member r n)
        [.begin (k r) (x r) (offset r), .finish (k r) (buffer r)] (d r)⟩ ∧
      ∀ r < n, ∃ result buffer', (answers r)[1]? = some (.finished result buffer') ∧
        Link.Delivered (b r (k r)) (fun q => some { values := x q, offset := offset q })
          (sources r (k r)) (buffer r) result buffer') ∧
    ∃ (answers : ℕ → List (Answer T R)) (d' : ℕ → Desk T),
      Settles n (fun r => (answers r, d' r)) ⟨world, fun r => session (.member r n)
        [.begin (k r) (x r) (offset r), .begin (k' r) (x' r) (offset' r),
          .finish (k r) (buffer r)] (d r)⟩ ∧
      ∀ r < n, ∃ result buffer', (answers r)[2]? = some (.finished result buffer') ∧
        Link.Delivered (b r (k r)) (fun q => some { values := x' q, offset := offset' q })
          (sources r (k r)) (buffer r) result buffer' := by
  constructor
  · have common : ∀ r < n, [.begin (k r) (x r) (offset r), .finish (k r) (buffer r)].map
        (Call.kind : Call T R → _) = [.begin, .finish] := fun _ _ => rfl
    obtain ⟨answers, d', horderly, h⟩ := orderly_session owners common
      (fun r hr => ⟨(idle r hr).1, Finset.mem_insert_self _ _, trivial⟩) keeps sized
    refine ⟨answers, d', horderly.settles, fun r hr => ?_⟩
    obtain ⟨answer, hanswer, result, buffer', rfl, hdelivered⟩ := h r hr 1 _ rfl
    exact ⟨result, buffer', hanswer, hdelivered⟩
  · -- the second vector is published in the place of the first
    have common : ∀ r < n, [.begin (k r) (x r) (offset r), .begin (k' r) (x' r) (offset' r),
        .finish (k r) (buffer r)].map (Call.kind : Call T R → _) =
          [.begin, .begin, .finish] := fun _ _ => rfl
    obtain ⟨answers, d', horderly, h⟩ := orderly_session owners common
      (fun r hr => ⟨(idle r hr).1,
        fun hin => (Finset.mem_insert.mp hin).elim (apart r hr) (idle r hr).2,
        Finset.mem_insert_of_mem (Finset.mem_insert_self _ _), trivial⟩) keeps sized
    refine ⟨answers, d', horderly.settles, fun r hr => ?_⟩
    obtain ⟨answer, hanswer, result, buffer', rfl, hdelivered⟩ := h r hr 2 _ rfl
    exact ⟨result, buffer', hanswer, hdelivered⟩

/-- Rank 0 is handed the block that rank 1 has published for its other link. -/
theorem pair_overlapping_begin_replaces :
    (∃ (answers : ℕ → List (Answer ℕ ℕ)) (d' : ℕ → Desk ℕ),
      Settles 2 (fun r => (answers r, d' r)) ⟨initial 2, fun r => session (.member r 2)
        [.begin 0 #[10 + r] 0, .finish 0 #[0]] (pairDesk r)⟩ ∧
      (answers 0)[1]? = some (.finished (.ok ()) #[11])) ∧
    ∃ (answers : ℕ → List (Answer ℕ ℕ)) (d' : ℕ → Desk ℕ),
      Settles 2 (fun r => (answers r, d' r)) ⟨initial 2, fun r => session (.member r 2)
        [.begin 0 #[10 + r] 0, .begin 1 #[20 + r] 0, .finish 0 #[0]] (pairDesk r)⟩ ∧
      (answers 0)[2]? = some (.finished (.ok ()) #[21]) := by
  obtain ⟨⟨answers, d₁, settles, h⟩, answers', d₂, settles', h'⟩ :=
    overlapping_begin_replaces (R := ℕ) (fun r hr => (pairDesk_made r hr).owner_lt)
      (fun r hr => (pairDesk_made r hr).keeps) (fun _ => 0) (fun _ => 1)
      (fun _ _ => ⟨Finset.notMem_empty _, Finset.notMem_empty _⟩) (fun _ _ => Nat.one_ne_zero)
      (fun r => #[10 + r]) (fun r => #[20 + r]) (fun _ => #[0]) (fun _ => 0) (fun _ => 0)
      (sized_initial 2)
  constructor
  · obtain ⟨result, buffer', hanswer, hdelivered⟩ := h 0 (by decide)
    obtain ⟨rfl, rfl⟩ := hdelivered.of_scalar (q := 1) (v := 11) rfl
    exact ⟨answers, d₁, settles, hanswer⟩
  · obtain ⟨result, buffer', hanswer, hdelivered⟩ := h' 0 (by decide)
    obtain ⟨rfl, rfl⟩ := hdelivered.of_scalar (q := 1) (v := 21) rfl
    exact ⟨answers', d₂, settles', hanswer⟩

/-- What the successful exchanges of a session have delivered. -/
def received (answers : List (Answer T R)) : List (Array T) :=
  answers.filterMap fun
    | .finished (.ok ()) buffer => some buffer
    | _ => none

/-- The exchange on link 0 does not deliver the same when another one is begun on link 1 meanwhile.
-/
theorem pair_exchange_depends_on_other_link :
    (run ((List.range 2).map fun r => session (.member r 2)
        [.begin 0 #[10 + r] 0, .finish 0 #[0]] (pairDesk r) :
          List (Program ℕ ℕ (List (Answer ℕ ℕ) × Desk ℕ)))).map (List.map fun s => received s.1) =
      some [[#[11]], [#[10]]] ∧
    (run ((List.range 2).map fun r => session (.member r 2)
        [.begin 0 #[10 + r] 0, .begin 1 #[20 + r] 0, .finish 0 #[0]] (pairDesk r) :
          List (Program ℕ ℕ (List (Answer ℕ ℕ) × Desk ℕ)))).map (List.map fun s => received s.1) =
      some [[#[21]], [#[20]]] :=
  ⟨rfl, rfl⟩

end DomainDecomposition
