import DomainDecomposition.Rank.World
import DomainDecomposition.Proofs.Outcome
import DomainDecomposition.Proofs.Rank.Program
import Mathlib.Tactic.Choose

/-!
# Runs of a world of ranks

A run falls into phases: in each of them every rank goes on, in turn, until it waits at the barrier,
and in the last one until it has finished. `turn P world r` is the world that rank `r` finds when
its turn comes, and `restOf P world r` is where it comes to rest.

* `Runs n P world f`: the programs `P 0, …, P (n - 1)` finish with the results `f 0, …, f (n - 1)`,
* `runs_of_finished`, `runs_iff_of_waiting`: the last phase and a phase before it,
* `Runs.induct`: induction on the phases,
* `Runs.of_done`, `Runs.unique`, `Runs.congr_result`: what follows about the results.
-/

namespace DomainDecomposition.World

open Outcome

variable {T R α β : Type}

/-- Run the programs from a world in which something may have been written already. -/
def runFrom : List (Program T R α) → World T R → Option (List α)
  | [], _ => some []
  | p :: ps, world => runWith p ps world

/-- A run from the start is one from a world in which nothing has been written. -/
theorem run_eq_runFrom (ps : List (Program T R α)) : run ps = runFrom ps (initial ps.length) := by
  cases ps <;> rfl

/-- Ranks `0, …, n - 1` run their programs from `world` and finish with the results `f`. -/
def Runs (n : ℕ) (P : ℕ → Program T R α) (world : World T R) (f : ℕ → α) : Prop :=
  runFrom ((List.range n).map P) world = some ((List.range n).map f)

/-! ## One phase -/

/-- The world when the turn of rank `r` comes. -/
def turn (P : ℕ → Program T R α) (world : World T R) : ℕ → World T R
  | 0 => world
  | r + 1 => (advance r (P r) (turn P world r)).2

/-- Where rank `r` comes to rest. -/
def restOf (P : ℕ → Program T R α) (world : World T R) (r : ℕ) : Rest T R α :=
  (advance r (P r) (turn P world r)).1

lemma advanceAll_turn (P : ℕ → Program T R α) (world : World T R) (k m : ℕ) :
    advanceAll k ((List.range' k m).map P) (turn P world k) =
      ((List.range' k m).map (restOf P world), turn P world (k + m)) := by
  induction m generalizing k with
  | zero => rfl
  | succ m ih =>
    rw [List.range'_succ, List.map_cons, advanceAll]
    have hturn : (advance k (P k) (turn P world k)).2 = turn P world (k + 1) := rfl
    simp only [hturn, ih (k + 1), List.map_cons]
    rw [show k + 1 + m = k + (m + 1) by omega]
    rfl

lemma results?_eq_some {rests : List (Rest T R α)} {as : List α} :
    Rest.results? rests = some as ↔ rests = as.map .finished := by
  rw [Rest.results?, mapM_eq_some]
  induction rests generalizing as with
  | nil => cases as <;> simp
  | cons rest rests ih => cases as <;> cases rest <;> simp [ih]

lemma waiting?_eq_some {rests : List (Rest T R α)} {ps : List (Program T R α)} :
    Rest.waiting? rests = some ps ↔ rests = ps.map .waiting := by
  rw [Rest.waiting?, mapM_eq_some]
  induction rests generalizing ps with
  | nil => cases ps <;> simp
  | cons rest rests ih => cases ps <;> cases rest <;> simp [ih]

/-- What follows the phase in which rank 0 comes to rest. -/
def proceed (first : Rest T R α × World T R) (others : List (Program T R α)) :
    Option (List α) :=
  match first with
  | (.finished a, world) => do
    return a :: (← Rest.results? (advanceAll 1 others world).1)
  | (.waiting next, world) =>
    match Rest.waiting? (advanceAll 1 others world).1 with
    | some others' => runWith next others' (advanceAll 1 others world).2
    | none => none

lemma runWith_eq_proceed (p : Program T R α) (others : List (Program T R α))
    (world : World T R) : runWith p others world = proceed (advance 0 p world) others := by
  induction p generalizing world with
  | done a => rfl
  | request q next ih =>
    cases q with
    | barrier => rfl
    | _ => exact ih _ _

lemma runFrom_range_succ (n : ℕ) (P : ℕ → Program T R α) (world : World T R) :
    runFrom ((List.range (n + 1)).map P) world =
      proceed (advance 0 (P 0) world) ((List.range' 1 n).map P) := by
  rw [List.range_eq_range', List.range'_succ, List.map_cons]
  exact runWith_eq_proceed _ _ _

section Phases

variable {n : ℕ} {P K : ℕ → Program T R α} {world : World T R} {f : ℕ → α}

/-- The last phase. -/
lemma runs_of_finished (h : ∀ r < n, restOf P world r = .finished (f r)) : Runs n P world f := by
  cases n with
  | zero => rfl
  | succ n =>
    have hfirst : advance 0 (P 0) world = (.finished (f 0), turn P world 1) :=
      Prod.ext (h 0 (Nat.zero_lt_succ n)) rfl
    have hrests : (List.range' 1 n).map (restOf P world) =
        ((List.range' 1 n).map f).map .finished := by
      rw [List.map_map]
      refine List.map_congr_left fun r hr => h r ?_
      rw [List.mem_range'_1] at hr
      omega
    rw [Runs, runFrom_range_succ, hfirst]
    simp only [proceed, advanceAll_turn, results?_eq_some.mpr hrests]
    rw [List.range_eq_range', List.range'_succ, List.map_cons]
    rfl

/-- A phase that ends at the barrier. -/
lemma runs_iff_of_waiting (h : ∀ r < n, restOf P world r = .waiting (K r)) :
    Runs n P world f ↔ Runs n K (turn P world n) f := by
  cases n with
  | zero => exact Iff.rfl
  | succ n =>
    have hfirst : advance 0 (P 0) world = (.waiting (K 0), turn P world 1) :=
      Prod.ext (h 0 (Nat.zero_lt_succ n)) rfl
    have hrests : (List.range' 1 n).map (restOf P world) =
        ((List.range' 1 n).map K).map .waiting := by
      rw [List.map_map]
      refine List.map_congr_left fun r hr => h r ?_
      rw [List.mem_range'_1] at hr
      omega
    rw [Runs, Runs, runFrom_range_succ, hfirst]
    simp only [proceed, advanceAll_turn, waiting?_eq_some.mpr hrests]
    rw [Nat.add_comm 1 n, runFrom_range_succ, ← runWith_eq_proceed]

/-- In a run that goes through, all ranks finish together or wait together. -/
lemma Runs.cases (run : Runs n P world f) :
    (∀ r < n, restOf P world r = .finished (f r)) ∨
      ∃ K, (∀ r < n, restOf P world r = .waiting (K r)) ∧ Runs n K (turn P world n) f := by
  cases n with
  | zero => exact Or.inl fun r hr => absurd hr (Nat.not_lt_zero r)
  | succ n =>
    have hrun := run
    rw [Runs, runFrom_range_succ] at hrun
    have hsplit : (List.range (n + 1)).map f = f 0 :: (List.range' 1 n).map f := by
      rw [List.range_eq_range', List.range'_succ, List.map_cons]
    rcases hfirst : advance 0 (P 0) world with ⟨rest, world'⟩
    have hrest : restOf P world 0 = rest := congrArg Prod.fst hfirst
    obtain rfl : turn P world 1 = world' := congrArg Prod.snd hfirst
    rw [hfirst, hsplit] at hrun
    cases rest with
    | finished a =>
      -- the others must have finished with the rest of the results
      left
      simp only [proceed, advanceAll_turn] at hrun
      obtain ⟨as, has, hcons⟩ := Option.bind_eq_some_iff.mp hrun
      obtain ⟨rfl, rfl⟩ := List.cons.inj (Option.some.inj hcons)
      rw [results?_eq_some, List.map_map, List.map_inj_left] at has
      intro r hr
      rcases Nat.eq_zero_or_pos r with rfl | hpos
      · exact hrest
      · exact has r (List.mem_range'_1.mpr (by omega))
    | waiting next =>
      -- the others must all be waiting
      right
      simp only [proceed, advanceAll_turn] at hrun
      cases hwaiting : Rest.waiting? ((List.range' 1 n).map (restOf P world)) with
      | none =>
        rw [hwaiting] at hrun
        simp at hrun
      | some others =>
        rw [waiting?_eq_some] at hwaiting
        have hall : ∀ r, ∃ k, r < n + 1 → restOf P world r = .waiting k := by
          intro r
          rcases Nat.eq_zero_or_pos r with rfl | hpos
          · exact ⟨next, fun _ => hrest⟩
          · by_cases hr : r < n + 1
            · have hmem : restOf P world r ∈ others.map .waiting := by
                rw [← hwaiting]
                exact List.mem_map_of_mem (List.mem_range'_1.mpr (by omega))
              obtain ⟨k, -, hk⟩ := List.mem_map.mp hmem
              exact ⟨k, fun _ => hk.symm⟩
            · exact ⟨next, fun h => absurd h hr⟩
        choose K hK using hall
        exact ⟨K, hK, (runs_iff_of_waiting hK).mp run⟩

/-- Induction on the phases of a run. -/
theorem Runs.induct {motive : (ℕ → Program T R α) → World T R → Prop}
    (finished : ∀ P world, (∀ r < n, restOf P world r = .finished (f r)) → motive P world)
    (waiting : ∀ P world K, (∀ r < n, restOf P world r = .waiting (K r)) →
      Runs n K (turn P world n) f → motive K (turn P world n) → motive P world)
    (run : Runs n P world f) : motive P world := by
  -- rank 0 waits with a part of the program that it came with
  have hmain : ∀ (p : Program T R α) (w : World T R) (P : ℕ → Program T R α) (world : World T R),
      advance 0 (P 0) world = advance 0 p w → Runs n P world f → motive P world := by
    intro p
    induction p with
    | done a =>
      intro w P world hfirst run
      rcases run.cases with h | ⟨K, h, -⟩
      · exact finished P world h
      · -- a program that is done does not wait
        refine finished P world fun r hr => ?_
        have hzero := h 0 (Nat.zero_lt_of_lt hr)
        rw [restOf, turn, hfirst] at hzero
        exact absurd hzero (by simp [advance])
    | request q next ih =>
      intro w P world hfirst run
      cases q with
      | barrier =>
        rcases run.cases with h | ⟨K, h, hrun⟩
        · exact finished P world h
        · refine waiting P world K h hrun ?_
          rcases Nat.eq_zero_or_pos n with rfl | hpos
          · exact finished _ _ fun r hr => absurd hr (Nat.not_lt_zero r)
          · have hzero := h 0 hpos
            rw [restOf, turn, hfirst] at hzero
            have hK : K 0 = next () := by
              simpa [advance] using hzero.symm
            exact ih () (turn P world n) K _ (by rw [hK]) hrun
      | _ => exact ih _ _ P world hfirst run
  exact hmain (P 0) world P world rfl run

end Phases

/-! ## Results -/

section Results

variable {n : ℕ} {P P' : ℕ → Program T R α} {world : World T R} {f f' : ℕ → α}

/-- A run has one outcome. -/
theorem Runs.unique (run : Runs n P world f) (run' : Runs n P world f') :
    ∀ r < n, f r = f' r := by
  rw [Runs] at run run'
  have hmap := Option.some.inj (run.symm.trans run')
  rw [List.map_inj_left] at hmap
  exact fun r hr => hmap r (List.mem_range.mpr hr)

lemma Runs.congr (run : Runs n P' world f) (same : ∀ r < n, P r = P' r) : Runs n P world f := by
  have hmap : (List.range n).map P = (List.range n).map P' :=
    List.map_congr_left fun r hr => same r (List.mem_range.mp hr)
  rwa [Runs, hmap]

lemma Runs.congr_result (run : Runs n P world f) (same : ∀ r < n, f r = f' r) :
    Runs n P world f' := by
  have hmap : (List.range n).map f' = (List.range n).map f :=
    List.map_congr_left fun r hr => (same r (List.mem_range.mp hr)).symm
  rwa [Runs, hmap]

/-- A run that has been evaluated as far as a projection of the results goes. -/
lemma exists_runs_of_map (proj : α → β) {g : ℕ → β} (default : α)
    (evaluated : (runFrom ((List.range n).map P) world).map (List.map proj) =
      some ((List.range n).map g)) :
    ∃ f, Runs n P world f ∧ ∀ r < n, proj (f r) = g r := by
  obtain ⟨as, has, hproj⟩ := Option.map_eq_some_iff.mp evaluated
  have hlength : as.length = n := by
    simpa using congrArg List.length hproj
  have hget : ∀ r, ∀ hr : r < as.length, as.getD r default = as[r] := by
    intro r hr
    rw [List.getD_eq_getElem?_getD, List.getElem?_eq_getElem hr, Option.getD_some]
  refine ⟨fun r => as.getD r default, ?_, fun r hr => ?_⟩
  · rw [Runs, has]
    refine congrArg some (List.ext_getElem (by simpa using hlength) fun r hr _ => ?_)
    rw [List.getElem_map, List.getElem_range, hget r hr]
  · have hat := congrArg (·[r]?) hproj
    simp only [List.getElem?_map, List.getElem?_eq_getElem (hlength ▸ hr),
      List.getElem?_range hr, Option.map_some, Option.some.injEq] at hat
    exact (congrArg proj (hget r (hlength ▸ hr))).trans hat

/-- In a run that goes through, a program that is done answers its result. -/
lemma Runs.of_done (run : Runs n P world f) {r : ℕ} (hr : r < n) {a : α} (done : P r = .done a) :
    f r = a := by
  have hrest : restOf P world r = .finished a := by
    rw [restOf, done, advance]
  rcases run.cases with h | ⟨K, h, -⟩
  · rw [h r hr] at hrest
    exact Rest.finished.inj hrest
  · rw [h r hr] at hrest
    exact absurd hrest (by simp)

/-- Where a rank comes to rest when its result is changed at the end. -/
def Rest.map (h : α → β) : Rest T R α → Rest T R β
  | finished a => finished (h a)
  | waiting next => waiting (next >>= fun a => .done (h a))

lemma advance_map (h : α → β) (r : ℕ) (p : Program T R α) (world : World T R) :
    advance r (p >>= fun a => .done (h a)) world =
      ((advance r p world).1.map h, (advance r p world).2) := by
  induction p generalizing world with
  | done a => rfl
  | request q next ih =>
    cases q with
    | barrier => rfl
    | _ => exact ih _ _

lemma turn_map (h : ℕ → α → β) (P : ℕ → Program T R α) (world : World T R) (r : ℕ) :
    turn (fun r => P r >>= fun a => .done (h r a)) world r = turn P world r := by
  induction r with
  | zero => rfl
  | succ r ih => rw [turn, turn, ih, advance_map]

lemma restOf_map (h : ℕ → α → β) (P : ℕ → Program T R α) (world : World T R) (r : ℕ) :
    restOf (fun r => P r >>= fun a => .done (h r a)) world r = (restOf P world r).map (h r) := by
  rw [restOf, turn_map, advance_map]
  rfl

end Results

end DomainDecomposition.World
