import DomainDecomposition.Proofs.Rank.World
import Mathlib.Algebra.BigOperators.Group.Finset.Basic
import Mathlib.Data.Finset.Range
import Mathlib.Logic.Function.Basic
import Mathlib.Logic.Relation

/-!
# Runs in any interleaving

`World.run` lets the ranks go on in turn, from barrier to barrier. Here any rank may be the next. A
`Moment` holds the shared places and what is left of every program, and a `Step` serves the next
request of one rank, or opens the barrier once all ranks wait there.

Between two barriers the ranks of a world either write their own places or read those of all. Such
runs are `Orderly`: requests that are served between two barriers may change places, so the outcome
does not depend on the order.

* `Settles`, `Settles.outcome`: every interleaving comes to an end, with the given results,
* `Arrives`, `Arrives.settles_iff`: every interleaving comes to one moment, and goes on from there,
* `same_serve`: a request that is served early makes no difference to what the ranks do in turn,
* `Orderly.settles`, `Orderly.runs`: any interleaving, and the ranks in turn.
-/

namespace DomainDecomposition

variable {T R α β : Type}

/-! ## Requests that write and requests that read -/

namespace Request

/-- The request changes a place of the rank that makes it. -/
def IsWrite : Request T R → Prop
  | offer _ | announce _ | publish _ => True
  | offered _ | announced _ | published _ | barrier => False

/-- The request asks for what a rank has written. -/
def IsRead : Request T R → Prop
  | offered _ | announced _ | published _ => True
  | offer _ | announce _ | publish _ | barrier => False

lemma IsWrite.ne_barrier {q : Request T R} (write : q.IsWrite) : q ≠ barrier := by
  rintro rfl
  exact write

lemma IsRead.ne_barrier {q : Request T R} (read : q.IsRead) : q ≠ barrier := by
  rintro rfl
  exact read

end Request

namespace World

/-- A request that reads leaves the world alone. -/
lemma serve_read {q : Request T R} (read : q.IsRead) (r : ℕ) (world : World T R) :
    (serve r world q).2 = world := by
  cases q with
  | offered _ | announced _ | published _ => rfl
  | offer _ | announce _ | publish _ | barrier => exact read.elim

/-- What is read does not depend on who reads it. -/
lemma reply_read {q : Request T R} (read : q.IsRead) (r s : ℕ) (world : World T R) :
    (serve r world q).1 = (serve s world q).1 := by
  cases q with
  | offered _ | announced _ | published _ => rfl
  | offer _ | announce _ | publish _ | barrier => exact read.elim

/-- A request that writes has one answer. -/
lemma reply_write {q : Request T R} (write : q.IsWrite) (r s : ℕ) (world world' : World T R) :
    (serve r world q).1 = (serve s world' q).1 := by
  cases q with
  | offer _ | announce _ | publish _ => rfl
  | offered _ | announced _ | published _ | barrier => exact write.elim

/-- Two ranks write different places. -/
lemma serve_comm {q q' : Request T R} (write : q.IsWrite) (write' : q'.IsWrite) {r s : ℕ}
    (apart : s ≠ r) (world : World T R) :
    (serve s (serve r world q).2 q').2 = (serve r (serve s world q').2 q).2 := by
  cases q with
  | offer _ | announce _ | publish _ =>
    cases q' with
    | offer _ | announce _ | publish _ =>
      simp only [serve, Array.setIfInBounds_comm _ _ apart]
    | offered _ | announced _ | published _ | barrier => exact write'.elim
  | offered _ | announced _ | published _ | barrier => exact write.elim

/-! ## Programs that write and programs that read -/

/-- Up to the next barrier, the program only writes. -/
def Writes : Program T R α → Prop
  | .done _ => True
  | .request .barrier _ => True
  | .request q next => q.IsWrite ∧ ∀ reply, Writes (next reply)

/-- Up to the next barrier, the program only reads. -/
def Reads (world : World T R) : Program T R α → Prop
  | .done _ => True
  | .request .barrier _ => True
  | .request q next => q.IsRead ∧ Reads world (next (serve 0 world q).1)

lemma writes_request {q : Request T R} (apart : q ≠ .barrier) {next : q.Reply → Program T R α} :
    Writes (.request q next) ↔ q.IsWrite ∧ ∀ reply, Writes (next reply) := by
  cases q with
  | barrier => exact absurd rfl apart
  | _ => rfl

lemma reads_request {world : World T R} {q : Request T R} (apart : q ≠ .barrier)
    {next : q.Reply → Program T R α} :
    Reads world (.request q next) ↔ q.IsRead ∧ Reads world (next (serve 0 world q).1) := by
  cases q with
  | barrier => exact absurd rfl apart
  | _ => rfl

/-- Going on with a program that writes. -/
lemma Writes.bind {p : Program T R α} (writes : Writes p) {f : α → Program T R β}
    (next : ∀ a, Writes (f a)) : Writes (p >>= f) := by
  induction p with
  | done a => exact next a
  | request q _ ih =>
    cases q with
    | barrier => trivial
    | _ => exact ⟨writes.1, fun reply => ih reply (writes.2 reply)⟩

lemma Reads.map {world : World T R} {p : Program T R α} (reads : Reads world p) (h : α → β) :
    Reads world (p >>= fun a => .done (h a)) := by
  induction p with
  | done a => trivial
  | request q next ih =>
    cases q with
    | barrier => trivial
    | _ => exact ⟨reads.1, ih _ reads.2⟩

lemma advance_request {q : Request T R} (apart : q ≠ .barrier) (r : ℕ)
    (next : q.Reply → Program T R α) (world : World T R) :
    advance r (.request q next) world =
      advance r (next (serve r world q).1) (serve r world q).2 := by
  cases q with
  | barrier => exact absurd rfl apart
  | _ => rfl

/-- A rank that reads leaves the world alone. -/
lemma advance_of_reads {world : World T R} {p : Program T R α} (reads : Reads world p) (r : ℕ) :
    (advance r p world).2 = world := by
  induction p with
  | done a => rfl
  | request q next ih =>
    by_cases hq : q = .barrier
    · subst hq
      rfl
    · obtain ⟨hread, hnext⟩ := (reads_request hq).mp reads
      rw [advance_request hq, serve_read hread, reply_read hread r 0]
      exact ih _ hnext

/-- A rank that writes does the same whether another rank has written before or writes afterwards.
-/
lemma advance_serve_of_writes {p : Program T R α} (writes : Writes p) {q : Request T R}
    (write : q.IsWrite) {r s : ℕ} (apart : s ≠ r) (world : World T R) :
    advance s p (serve r world q).2 =
      ((advance s p world).1, (serve r (advance s p world).2 q).2) := by
  induction p generalizing world with
  | done a => rfl
  | request q' next ih =>
    by_cases hq : q' = .barrier
    · subst hq
      rfl
    · obtain ⟨hwrite, hnext⟩ := (writes_request hq).mp writes
      rw [advance_request hq, advance_request hq, serve_comm write hwrite apart,
        ih _ (hnext _), reply_write hwrite s s (serve r world q).2 world]

/-! ## Requests that are served early -/

/-- Between two barriers, no rank reads or no rank writes. -/
def Calm (n : ℕ) (P : ℕ → Program T R α) (world : World T R) : Prop :=
  (∀ r < n, Writes (P r)) ∨ ∀ r < n, Reads world (P r)

/-- In turn, the ranks come to rest in the same way. -/
structure Same (n : ℕ) (P : ℕ → Program T R α) (world : World T R) (P' : ℕ → Program T R α)
    (world' : World T R) : Prop where
  rest : ∀ r < n, restOf P world r = restOf P' world' r
  turn : turn P world n = World.turn P' world' n

lemma Same.symm {n : ℕ} {P P' : ℕ → Program T R α} {world world' : World T R}
    (same : Same n P world P' world') : Same n P' world' P world :=
  ⟨fun r hr => (same.rest r hr).symm, same.turn.symm⟩

/-- The programs after the next request of one rank has been served. -/
def served (P : ℕ → Program T R α) (world : World T R) (r : ℕ) (q : Request T R)
    (next : q.Reply → Program T R α) : ℕ → Program T R α :=
  Function.update P r (next (serve r world q).1)

section Served

variable {n : ℕ} {P : ℕ → Program T R α} {world : World T R}
variable {r : ℕ} {q : Request T R} {next : q.Reply → Program T R α}

@[simp]
lemma served_self : served P world r q next r = next (serve r world q).1 :=
  Function.update_self _ _ _

lemma served_of_ne {s : ℕ} (apart : s ≠ r) : served P world r q next s = P s :=
  Function.update_of_ne apart _ _

lemma turn_of_reads (reads : ∀ r < n, Reads world (P r)) {s : ℕ} (hs : s ≤ n) :
    turn P world s = world := by
  induction s with
  | zero => rfl
  | succ s ih =>
    rw [turn, ih (by omega)]
    exact advance_of_reads (reads s (by omega)) s

/-- A write that is served early comes before those of the ranks with smaller numbers. -/
lemma turn_served_of_writes (writes : ∀ s < n, Writes (P s)) (rank : r < n)
    (here : P r = .request q next) (apart : q ≠ .barrier) {s : ℕ} (hs : s ≤ n) :
    turn (served P world r q next) (serve r world q).2 s =
      if s ≤ r then (serve r (turn P world s) q).2 else turn P world s := by
  have hwrite := ((writes_request apart).mp (here ▸ writes r rank)).1
  induction s with
  | zero => rw [if_pos (Nat.zero_le r)]; rfl
  | succ s ih =>
    rw [turn, turn, ih (by omega)]
    -- the early write commutes with those below `r`, is the first of `r`, and is there above `r`
    rcases Nat.lt_trichotomy s r with hsr | rfl | hsr
    · rw [served_of_ne hsr.ne, if_pos hsr.le, if_pos (Nat.succ_le_of_lt hsr),
        advance_serve_of_writes (writes s (by omega)) hwrite hsr.ne]
    · rw [served_self, if_pos le_rfl, if_neg (by omega), here, advance_request apart,
        reply_write hwrite s s world (turn P world s)]
    · rw [served_of_ne hsr.ne', if_neg (by omega), if_neg (by omega)]

lemma same_serve_of_writes (writes : ∀ s < n, Writes (P s)) (rank : r < n)
    (here : P r = .request q next) (apart : q ≠ .barrier) :
    Same n (served P world r q next) (serve r world q).2 P world := by
  have hwrite := ((writes_request apart).mp (here ▸ writes r rank)).1
  constructor
  · intro s hs
    rw [restOf, restOf, turn_served_of_writes writes rank here apart hs.le]
    rcases Nat.lt_trichotomy s r with hsr | rfl | hsr
    · rw [served_of_ne hsr.ne, if_pos hsr.le,
        advance_serve_of_writes (writes s hs) hwrite hsr.ne]
    · rw [served_self, if_pos le_rfl, here, advance_request apart,
        reply_write hwrite s s world (turn P world s)]
    · rw [served_of_ne hsr.ne', if_neg (by omega)]
  · rw [turn_served_of_writes writes rank here apart le_rfl, if_neg (by omega)]

lemma same_serve_of_reads (reads : ∀ s < n, Reads world (P s))
    (reads' : ∀ s < n, Reads world (served P world r q next s))
    (here : P r = .request q next) (read : q.IsRead) :
    Same n (served P world r q next) world P world := by
  constructor
  · intro s hs
    rw [restOf, restOf, turn_of_reads reads' hs.le, turn_of_reads reads hs.le]
    by_cases hsr : s = r
    · rw [hsr, served_self, here, advance_request read.ne_barrier, serve_read read]
    · rw [served_of_ne hsr]
  · rw [turn_of_reads reads' le_rfl, turn_of_reads reads le_rfl]

/-- In turn, the ranks do the same when one request has been served early. -/
lemma same_serve (calm : Calm n P world) (rank : r < n) (here : P r = .request q next)
    (apart : q ≠ .barrier) :
    Calm n (served P world r q next) (serve r world q).2 ∧
      Same n (served P world r q next) (serve r world q).2 P world := by
  rcases calm with writes | reads
  · have hnext := ((writes_request apart).mp (here ▸ writes r rank)).2
    refine ⟨Or.inl fun s hs => ?_, same_serve_of_writes writes rank here apart⟩
    by_cases hsr : s = r
    · rw [hsr, served_self]
      exact hnext _
    · rw [served_of_ne hsr]
      exact writes s hs
  · obtain ⟨hread, hnext⟩ := (reads_request apart).mp (here ▸ reads r rank)
    have hserved : ∀ s < n, Reads world (served P world r q next s) := by
      intro s hs
      by_cases hsr : s = r
      · rw [hsr, served_self, reply_read hread r 0]
        exact hnext
      · rw [served_of_ne hsr]
        exact reads s hs
    rw [serve_read hread]
    exact ⟨Or.inr hserved, same_serve_of_reads reads hserved here hread⟩

end Served

/-! ## Requests that are still to come -/

/-- Number of requests of a rank up to the next barrier. -/
def remaining (r : ℕ) : Program T R α → World T R → ℕ
  | .done _, _ => 0
  | .request .barrier _, _ => 0
  | .request q next, world => remaining r (next (serve r world q).1) (serve r world q).2 + 1

lemma remaining_request {q : Request T R} (apart : q ≠ .barrier) (r : ℕ)
    (next : q.Reply → Program T R α) (world : World T R) :
    remaining r (.request q next) world =
      remaining r (next (serve r world q).1) (serve r world q).2 + 1 := by
  cases q with
  | barrier => exact absurd rfl apart
  | _ => rfl

lemma remaining_serve_of_writes {p : Program T R α} (writes : Writes p) {q : Request T R}
    (write : q.IsWrite) {r s : ℕ} (apart : s ≠ r) (world : World T R) :
    remaining s p (serve r world q).2 = remaining s p world := by
  induction p generalizing world with
  | done a => rfl
  | request q' next ih =>
    by_cases hq : q' = .barrier
    · subst hq
      rfl
    · obtain ⟨hwrite, hnext⟩ := (writes_request hq).mp writes
      rw [remaining_request hq, remaining_request hq, serve_comm write hwrite apart, ih _ (hnext _),
        reply_write hwrite s s (serve r world q).2 world]

/-- Each request that is served is one less to come. -/
lemma sum_remaining_served {n : ℕ} {P : ℕ → Program T R α} {world : World T R} {r : ℕ}
    {q : Request T R} {next : q.Reply → Program T R α} (calm : Calm n P world) (rank : r < n)
    (here : P r = .request q next) (apart : q ≠ .barrier) :
    ∑ s ∈ Finset.range n, remaining s (P s) world =
      ∑ s ∈ Finset.range n, remaining s (served P world r q next s) (serve r world q).2 + 1 := by
  have hrank := Finset.mem_range.mpr rank
  rw [← Finset.add_sum_erase _ _ hrank, ← Finset.add_sum_erase _ _ hrank, here,
    remaining_request apart, served_self, Nat.add_right_comm]
  congr 2
  refine Finset.sum_congr rfl fun s hs => ?_
  obtain ⟨hsr, hs⟩ := Finset.mem_erase.mp hs
  rw [served_of_ne hsr]
  rcases calm with writes | reads
  · have hwrite := ((writes_request apart).mp (here ▸ writes r rank)).1
    exact (remaining_serve_of_writes (writes s (Finset.mem_range.mp hs)) hwrite hsr world).symm
  · rw [serve_read ((reads_request apart).mp (here ▸ reads r rank)).1]

/-! ## Steps -/

end World

/-- A world in the middle of a run, and what is left of the program of every rank. -/
structure Moment (T R α : Type) where
  world : World T R
  left : ℕ → Program T R α

namespace World

/-- One step of `n` ranks. -/
inductive Step (n : ℕ) : Moment T R α → Moment T R α → Prop
  /-- Any rank may be the next that is served. -/
  | serve {m : Moment T R α} {r : ℕ} {q : Request T R} {next : q.Reply → Program T R α}
      (rank : r < n) (here : m.left r = .request q next) (apart : q ≠ .barrier) :
      Step n m ⟨(World.serve r m.world q).2, served m.left m.world r q next⟩
  /-- The barrier opens once all ranks wait there. -/
  | pass {m : Moment T R α} {K : ℕ → Unit → Program T R α} (ranks : 0 < n)
      (here : ∀ r < n, m.left r = .request .barrier (K r)) :
      Step n m ⟨m.world, fun r => K r ()⟩

/-- In every interleaving all of `n` ranks finish, with the results `f`: a rank that has finished
has its result, some step is possible unless all have finished, and it is the same after every step.
Since this is an inductive definition, no interleaving goes on forever. -/
inductive Settles (n : ℕ) (f : ℕ → α) : Moment T R α → Prop
  | intro {m : Moment T R α} (results : ∀ r < n, ∀ a, m.left r = .done a → a = f r)
      (progress : (∀ r < n, ∃ a, m.left r = .done a) ∨ ∃ m', Step n m m')
      (steps : ∀ m', Step n m m' → Settles n f m') : Settles n f m

/-- What a run settles on is kept by every step. -/
lemma Settles.of_steps {n : ℕ} {f : ℕ → α} {m m' : Moment T R α} (settles : Settles n f m)
    (steps : Relation.ReflTransGen (Step n) m m') : Settles n f m' := by
  induction steps with
  | refl => exact settles
  | tail _ step ih =>
    obtain ⟨-, -, hsteps⟩ := ih
    exact hsteps _ step

/-- A run that settles comes to an end in every interleaving, and where no step is left all ranks
have finished with their results. -/
theorem Settles.outcome {n : ℕ} {f : ℕ → α} {m : Moment T R α} (settles : Settles n f m) :
    Acc (fun next now => Step n now next) m ∧ ∀ m', Relation.ReflTransGen (Step n) m m' →
      (∀ next, ¬ Step n m' next) → ∀ r < n, m'.left r = .done (f r) := by
  constructor
  · induction settles with
    | intro _ _ _ ih => exact .intro _ ih
  · intro m' steps rest r hr
    obtain ⟨hresults, hprogress, -⟩ := settles.of_steps steps
    rcases hprogress with hdone | ⟨next, step⟩
    · obtain ⟨a, ha⟩ := hdone r hr
      rw [ha, hresults r hr a ha]
    · exact absurd step (rest next)

/-! ## Arrivals -/

/-- The same world, and the same programs of `n` ranks. -/
structure Agree (n : ℕ) (m m' : Moment T R α) : Prop where
  world : m.world = m'.world
  left : ∀ r < n, m.left r = m'.left r

/-- In every interleaving, `n` ranks come to the moment `goal`. -/
inductive Arrives (n : ℕ) (goal : Moment T R α) : Moment T R α → Prop
  | here {m : Moment T R α} (agree : Agree n m goal) : Arrives n goal m
  | step {m : Moment T R α} (progress : ∃ m', Step n m m')
      (steps : ∀ m', Step n m m' → Arrives n goal m') : Arrives n goal m

section Arrivals

variable {n : ℕ} {f : ℕ → α} {m m' m₁ goal goal' : Moment T R α}

lemma Agree.symm (agree : Agree n m m') : Agree n m' m :=
  ⟨agree.world.symm, fun r hr => (agree.left r hr).symm⟩

lemma Agree.trans (first : Agree n m m₁) (second : Agree n m₁ m') : Agree n m m' :=
  ⟨first.world.trans second.world, fun r hr => (first.left r hr).trans (second.left r hr)⟩

/-- Where one moment goes on, so does another one that agrees with it. -/
lemma Step.congr (step : Step n m m₁) (agree : Agree n m m') :
    ∃ m₁', Step n m' m₁' ∧ Agree n m₁ m₁' := by
  cases step with
  | @serve r q next rank here apart =>
    refine ⟨_, .serve rank ((agree.left r rank).symm.trans here) apart, ?_, fun s hs => ?_⟩
    · rw [agree.world]
    · dsimp only
      by_cases hsr : s = r
      · rw [hsr, served_self, served_self, agree.world]
      · rw [served_of_ne hsr, served_of_ne hsr, agree.left s hs]
  | @pass K ranks here =>
    exact ⟨_, .pass ranks fun r hr => (agree.left r hr).symm.trans (here r hr), agree.world,
      fun _ _ => rfl⟩

/-- A rank that has finished stays as it is. -/
lemma Step.left_of_done (step : Step n m m') {r : ℕ} (hr : r < n) {a : α}
    (done : m.left r = .done a) : m'.left r = .done a := by
  cases step with
  | @serve s q next rank here apart =>
    dsimp only
    by_cases hrs : r = s
    · subst hrs
      rw [done] at here
      cases here
    · rw [served_of_ne hrs, done]
  | pass ranks here =>
    rw [here r hr] at done
    cases done

lemma Settles.congr (settles : Settles n f m) (agree : Agree n m m') : Settles n f m' := by
  induction settles generalizing m' with
  | intro results progress steps ih =>
    refine .intro (fun r hr a done => results r hr a ((agree.left r hr).trans done)) ?_ ?_
    · refine progress.imp (fun finished r hr => ?_) fun ⟨m₁, step⟩ => ?_
      · obtain ⟨a, done⟩ := finished r hr
        exact ⟨a, (agree.left r hr).symm.trans done⟩
      · obtain ⟨m₁', step', -⟩ := step.congr agree
        exact ⟨m₁', step'⟩
    · intro m₁' step'
      obtain ⟨m₁, step, agree₁⟩ := step'.congr agree.symm
      exact ih m₁ step agree₁.symm

lemma Settles.congr_result {f' : ℕ → α} (settles : Settles n f m) (same : ∀ r < n, f r = f' r) :
    Settles n f' m := by
  induction settles with
  | intro results progress _ ih =>
    exact .intro (fun r hr a done => (results r hr a done).trans (same r hr)) progress ih

lemma Arrives.congr (arrives : Arrives n goal m) (agree : Agree n m m') : Arrives n goal m' := by
  induction arrives generalizing m' with
  | here reached => exact .here (agree.symm.trans reached)
  | step progress steps ih =>
    obtain ⟨m₁, step⟩ := progress
    obtain ⟨m₁', step', -⟩ := step.congr agree
    refine .step ⟨m₁', step'⟩ fun m₁' step' => ?_
    obtain ⟨m₁, step, agree₁⟩ := step'.congr agree.symm
    exact ih m₁ step agree₁.symm

lemma Arrives.trans (first : Arrives n goal m) (second : Arrives n goal' goal) :
    Arrives n goal' m := by
  induction first with
  | here agree => exact second.congr agree.symm
  | step progress _ ih => exact .step progress ih

/-- Whatever comes of the ranks comes of them after the arrival. -/
theorem Arrives.settles_iff (arrives : Arrives n goal m) :
    Settles n f m ↔ Settles n f goal := by
  induction arrives with
  | here agree => exact ⟨fun settles => settles.congr agree, fun settles => settles.congr agree.symm⟩
  | step progress _ ih =>
    obtain ⟨m₁, step⟩ := progress
    constructor
    · rintro ⟨-, -, steps⟩
      exact (ih m₁ step).mp (steps m₁ step)
    · intro settles
      refine .intro (fun r hr a done => ?_) (.inr ⟨m₁, step⟩) fun m' step' =>
        (ih m' step').mpr settles
      -- a rank that has finished is still there after the step
      obtain ⟨results, -, -⟩ := (ih m₁ step).mpr settles
      exact results r hr a (step.left_of_done hr done)

end Arrivals

/-! ## Orderly runs -/

/-- In turn, the ranks finish with the results `f`, and between two barriers no rank reads or no
rank writes. -/
inductive Orderly (n : ℕ) (f : ℕ → α) : (ℕ → Program T R α) → World T R → Prop
  | finished {P : ℕ → Program T R α} {world : World T R} (calm : Calm n P world)
      (rest : ∀ r < n, restOf P world r = .finished (f r)) : Orderly n f P world
  | waiting {P K : ℕ → Program T R α} {world : World T R} (calm : Calm n P world)
      (rest : ∀ r < n, restOf P world r = .waiting (K r))
      (next : Orderly n f K (turn P world n)) : Orderly n f P world

section Orderly

variable {n : ℕ} {P : ℕ → Program T R α} {world : World T R} {f : ℕ → α}

/-- The ranks in turn are one of the interleavings. -/
theorem Orderly.runs (orderly : Orderly n f P world) : Runs n P world f := by
  induction orderly with
  | finished _ rest => exact runs_of_finished rest
  | waiting _ rest _ ih => exact (runs_iff_of_waiting rest).mpr ih

lemma restOf_of_done {r : ℕ} {a : α} (here : P r = .done a) : restOf P world r = .finished a := by
  rw [restOf, here, advance]

lemma restOf_of_barrier {r : ℕ} {next : Unit → Program T R α}
    (here : P r = .request .barrier next) : restOf P world r = .waiting (next ()) := by
  rw [restOf, here, advance]

lemma turn_of_barrier {K : ℕ → Unit → Program T R α}
    (here : ∀ r < n, P r = .request .barrier (K r)) : turn P world n = world := by
  refine turn_of_reads (fun r hr => ?_) le_rfl
  rw [here r hr]
  trivial

/-- A rank that has no request to be served has finished or waits. -/
lemma done_or_barrier {p : Program T R α}
    (idle : ∀ q next, p = .request q next → q = .barrier) :
    (∃ a, p = .done a) ∨ ∃ next, p = .request .barrier next := by
  cases p with
  | done a => exact Or.inl ⟨a, rfl⟩
  | request q next =>
    obtain rfl := idle q next rfl
    exact Or.inr ⟨next, rfl⟩

/-- Only the programs of the `n` ranks matter. -/
lemma Same.of_eq {P' : ℕ → Program T R α} (world : World T R) (same : ∀ r < n, P' r = P r) :
    Same n P' world P world := by
  have hturn : ∀ s ≤ n, World.turn P' world s = World.turn P world s := by
    intro s hs
    induction s with
    | zero => rfl
    | succ s ih => rw [World.turn, World.turn, same s (by omega), ih (by omega)]
  exact ⟨fun r hr => by rw [restOf, restOf, same r hr, hturn r hr.le], hturn n le_rfl⟩

lemma Calm.congr {P' : ℕ → Program T R α} (calm : Calm n P world)
    (same : ∀ r < n, P' r = P r) : Calm n P' world := by
  rcases calm with writes | reads
  · exact Or.inl fun r hr => same r hr ▸ writes r hr
  · exact Or.inr fun r hr => same r hr ▸ reads r hr

/-- What is left of a program once the barrier has opened. -/
def Rest.left : Rest T R α → Program T R α
  | finished a => .done a
  | waiting next => next

/-- Some step is possible unless all ranks have finished. -/
lemma exists_step {rest : ℕ → Rest T R α} (hrest : ∀ r < n, restOf P world r = rest r)
    (together : (∀ r < n, ∃ a, rest r = .finished a) ∨ ∀ r < n, ∃ next, rest r = .waiting next) :
    (∀ r < n, ∃ a, P r = .done a) ∨ ∃ m', Step n ⟨world, P⟩ m' := by
  by_cases hrequest : ∃ r < n, ∃ q next, P r = .request q next ∧ q ≠ .barrier
  · obtain ⟨r, hr, q, next, here, apart⟩ := hrequest
    exact Or.inr ⟨_, .serve (m := ⟨world, P⟩) hr here apart⟩
  · have hidle : ∀ r < n, (∃ a, P r = .done a) ∨ ∃ next, P r = .request .barrier next := by
      intro r hr
      refine done_or_barrier fun q next here => ?_
      by_contra apart
      exact hrequest ⟨r, hr, q, next, here, apart⟩
    -- the ranks are where they come to rest, so they have finished or wait together
    rcases together with finish | wait
    · refine Or.inl fun r hr => (hidle r hr).resolve_right fun ⟨next, here⟩ => ?_
      obtain ⟨a, ha⟩ := finish r hr
      have hwaiting := (hrest r hr).symm.trans (restOf_of_barrier here)
      exact absurd (ha.symm.trans hwaiting) (by simp)
    · rcases Nat.eq_zero_or_pos n with rfl | hpos
      · exact Or.inl fun r hr => absurd hr (Nat.not_lt_zero r)
      have hbarrier : ∀ r, ∃ next, r < n → P r = .request .barrier next := by
        intro r
        by_cases hr : r < n
        · rcases hidle r hr with ⟨a, here⟩ | ⟨next, here⟩
          · obtain ⟨next, hnext⟩ := wait r hr
            have hfinished := (hrest r hr).symm.trans (restOf_of_done here)
            exact absurd (hnext.symm.trans hfinished) (by simp)
          · exact ⟨next, fun _ => here⟩
        · exact ⟨fun _ => P r, fun h => absurd h hr⟩
      choose next here using hbarrier
      exact Or.inr ⟨_, .pass (m := ⟨world, P⟩) hpos here⟩

/-- Up to the next barrier, any interleaving comes to where the ranks come to rest in turn. -/
lemma arrives_of_rest {rest : ℕ → Rest T R α} {target : World T R} (calm : Calm n P world)
    (hrest : ∀ r < n, restOf P world r = rest r) (hturn : turn P world n = target)
    (together : (∀ r < n, ∃ a, rest r = .finished a) ∨ ∀ r < n, ∃ next, rest r = .waiting next) :
    Arrives n ⟨target, fun r => (rest r).left⟩ ⟨world, P⟩ := by
  -- the number of requests up to the barrier goes down with every one that is served
  induction hcount : ∑ s ∈ Finset.range n, remaining s (P s) world
    using Nat.strong_induction_on generalizing P world with
  | _ count ih =>
  rcases exists_step hrest together with finish | progress
  · refine .here ⟨?_, fun r hr => ?_⟩
    · rw [← hturn]
      refine (turn_of_reads (fun r hr => ?_) le_rfl).symm
      obtain ⟨a, ha⟩ := finish r hr
      rw [ha]
      trivial
    · obtain ⟨a, ha⟩ := finish r hr
      dsimp only
      rw [← hrest r hr, restOf_of_done ha, ha, Rest.left]
  · refine .step progress fun m' step => ?_
    cases step with
    | serve rank here apart =>
      obtain ⟨hcalm, hsame⟩ := same_serve calm rank here apart
      have hless := sum_remaining_served calm rank here apart
      exact ih _ (Nat.lt_of_lt_of_eq (Nat.lt_succ_self _) (hless.symm.trans hcount)) hcalm
        (fun s hs => (hsame.rest s hs).trans (hrest s hs)) (hsame.turn.trans hturn) rfl
    | @pass K ranks here =>
      refine .here ⟨(turn_of_barrier here).symm.trans hturn, fun r hr => ?_⟩
      dsimp only
      rw [← hrest r hr, restOf_of_barrier (here r hr), Rest.left]

/-- A phase that ends at the barrier. -/
lemma Arrives.of_waiting {Q : ℕ → Program T R α} (calm : Calm n P world)
    (rest : ∀ r < n, restOf P world r = .waiting (Q r)) :
    Arrives n ⟨turn P world n, Q⟩ ⟨world, P⟩ := by
  apply arrives_of_rest calm rest rfl
  exact .inr fun r _ => ⟨Q r, rfl⟩

/-- Ranks that have finished have their results. -/
lemma settles_done (n : ℕ) (f : ℕ → α) (world : World T R) :
    Settles n f ⟨world, fun r => .done (f r)⟩ := by
  refine .intro (fun r _ a done => (Program.done.inj done).symm) (.inl fun r _ => ⟨f r, rfl⟩) ?_
  intro m' step
  cases step with
  | serve rank here apart => cases here
  | pass ranks here => cases here 0 ranks

/-- Where between two barriers no rank reads or no rank writes, every interleaving ends as the ranks
in turn do. -/
theorem Orderly.settles (orderly : Orderly n f P world) : Settles n f ⟨world, P⟩ := by
  induction orderly with
  | finished calm rest =>
    exact (arrives_of_rest calm rest rfl (.inl fun r _ => ⟨f r, rfl⟩)).settles_iff.mpr
      (settles_done n f _)
  | waiting calm rest _ ih => exact (Arrives.of_waiting calm rest).settles_iff.mpr ih

/-- Ranks that come to rest in the same way go on in the same way. -/
lemma Orderly.of_same {P' : ℕ → Program T R α} {world' : World T R}
    (orderly : Orderly n f P' world') (calm : Calm n P world) (same : Same n P world P' world') :
    Orderly n f P world := by
  cases orderly with
  | finished _ rest => exact .finished calm fun r hr => (same.rest r hr).trans (rest r hr)
  | waiting _ rest next =>
    exact .waiting calm (fun r hr => (same.rest r hr).trans (rest r hr)) (same.turn ▸ next)

lemma Orderly.congr {P' : ℕ → Program T R α} (orderly : Orderly n f P world)
    (same : ∀ r < n, P' r = P r) : Orderly n f P' world := by
  have hcalm : Calm n P world := by
    cases orderly with
    | finished calm _ => exact calm
    | waiting calm _ _ => exact calm
  exact orderly.of_same (hcalm.congr same) (.of_eq world same)

/-- Programs that are done answer their results. -/
lemma orderly_done (n : ℕ) (f : ℕ → α) (world : World T R) :
    Orderly n f (fun r => .done (f r)) world :=
  .finished (Or.inl fun _ _ => trivial) fun _ _ => rfl

/-- What is done to the results at the end needs no other rank. -/
lemma Orderly.map (orderly : Orderly n f P world) (h : ℕ → α → β) :
    Orderly n (fun r => h r (f r)) (fun r => P r >>= fun a => .done (h r a)) world := by
  have hcalm : ∀ {P : ℕ → Program T R α} {world : World T R}, Calm n P world →
      Calm n (fun r => P r >>= fun a => .done (h r a)) world := by
    intro P world calm
    rcases calm with writes | reads
    · exact Or.inl fun r hr => (writes r hr).bind fun _ => trivial
    · exact Or.inr fun r hr => (reads r hr).map (h r)
  induction orderly with
  | finished calm rest =>
    refine .finished (hcalm calm) fun r hr => ?_
    rw [restOf_map, rest r hr, Rest.map]
  | waiting calm rest next ih =>
    refine .waiting (hcalm calm) (fun r hr => ?_) (by rwa [turn_map])
    rw [restOf_map, rest r hr, Rest.map]

end Orderly

end World

end DomainDecomposition
