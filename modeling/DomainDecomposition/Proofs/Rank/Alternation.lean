import DomainDecomposition.Proofs.Rank.Phases
import DomainDecomposition.Rank.Collective

/-!
# Programs that write and read by turns

A rank writes its own places in one phase and reads those of all ranks in the next one, from barrier
to barrier. A program that does so whatever is answered to its requests `Alternates`. Ranks with
such programs need no order among them: one interleaving that comes to an end stands for all.

* `Program.Alternates`: writing and reading by turns,
* `Finishes.orderly`, `Finishes.settles`: what the ranks finish with in one interleaving, they
  finish with in every interleaving,
* `Runs.settles`: the same for the ranks in turn,
* `Collective.Alternates`: operations of this kind, with a rule for every way to put them together,
* `alternates_reduceAll`: reductions are of this kind.
-/

namespace DomainDecomposition

variable {T R σ τ α β : Type}

/-! ## Programs -/

namespace Program

/-- What a rank does up to the next barrier. -/
inductive Phase where
  | writing
  | reading

namespace Phase

/-- What it does after the barrier. -/
def other : Phase → Phase
  | writing => reading
  | reading => writing

/-- The requests that are made in a phase. -/
def Allows : Phase → Request T R → Prop
  | writing => Request.IsWrite
  | reading => Request.IsRead

lemma Allows.ne_barrier {now : Phase} {q : Request T R} (allowed : now.Allows q) :
    q ≠ .barrier := by
  cases now with
  | writing => exact Request.IsWrite.ne_barrier allowed
  | reading => exact Request.IsRead.ne_barrier allowed

end Phase

/-- The program writes and reads by turns, from the phase `now` on, and ends in the phase `last`. -/
inductive Alternates (last : Phase) : Phase → Program T R α → Prop
  | done (a : α) : Alternates last last (.done a)
  | barrier {now : Phase} {next : Unit → Program T R α}
      (later : Alternates last now.other (next ())) :
      Alternates last now (.request .barrier next)
  | request {now : Phase} {q : Request T R} {next : q.Reply → Program T R α}
      (allowed : now.Allows q) (later : ∀ reply, Alternates last now (next reply)) :
      Alternates last now (.request q next)

namespace Alternates

variable {last middle now : Phase} {p : Program T R α}

/-- The second program goes on in the phase in which the first one has ended. -/
lemma bind (first : Alternates middle now p) {f : α → Program T R β}
    (second : ∀ a, Alternates last middle (f a)) : Alternates last now (p >>= f) := by
  induction first with
  | done a => exact second a
  | barrier _ ih => exact .barrier ih
  | request allowed _ ih => exact .request allowed ih

/-- Going on after a request that is not the barrier. -/
lemma of_request {q : Request T R} {next : q.Reply → Program T R α}
    (alternates : Alternates last now (.request q next)) (apart : q ≠ .barrier)
    (reply : q.Reply) : Alternates last now (next reply) := by
  cases alternates with
  | barrier _ => exact absurd rfl apart
  | request _ later => exact later reply

lemma of_barrier {next : Unit → Program T R α}
    (alternates : Alternates last now (.request .barrier next)) :
    Alternates last now.other (next ()) := by
  cases alternates with
  | barrier later => exact later
  | request allowed _ => exact absurd rfl allowed.ne_barrier

lemma writes (alternates : Alternates last .writing p) : World.Writes p := by
  generalize hnow : Phase.writing = now at alternates
  induction alternates with
  | done a => trivial
  | barrier _ _ => trivial
  | request allowed _ ih =>
    subst hnow
    exact (World.writes_request allowed.ne_barrier).mpr ⟨allowed, fun reply => ih reply rfl⟩

lemma reads (alternates : Alternates last .reading p) (world : World T R) :
    World.Reads world p := by
  generalize hnow : Phase.reading = now at alternates
  induction alternates with
  | done a => trivial
  | barrier _ _ => trivial
  | request allowed _ ih =>
    subst hnow
    exact (World.reads_request allowed.ne_barrier).mpr ⟨allowed, ih _ rfl⟩

end Alternates

lemma alternates_of_write {q : Request T R} (write : q.IsWrite) :
    (ask q).Alternates .writing .writing :=
  .request write .done

lemma alternates_of_read {q : Request T R} (read : q.IsRead) :
    (ask q).Alternates .reading .reading :=
  .request read .done

/-- Requests that are made one after the other in one phase. -/
lemma alternates_foldlM {now : Phase} {step : β → α → Program T R β}
    (steps : ∀ b a, Alternates now now (step b a)) (start : β) (as : List α) :
    Alternates now now (as.foldlM step start) := by
  induction as generalizing start with
  | nil => exact .done start
  | cons a as ih =>
    rw [List.foldlM_cons]
    exact (steps start a).bind ih

end Program

/-! ## All ranks together -/

namespace World

open Program

variable {n : ℕ} {P : ℕ → Program T R α} {world : World T R} {f : ℕ → α} {last now : Phase}

/-- Ranks in one phase are calm. -/
lemma calm_of_alternates (alternates : ∀ r < n, (P r).Alternates last now) : Calm n P world := by
  cases now with
  | writing => exact .inl fun r hr => (alternates r hr).writes
  | reading => exact .inr fun r hr => (alternates r hr).reads world

/-- In some interleaving, all of `n` ranks finish with the results `f`. -/
def Finishes (n : ℕ) (f : ℕ → α) (m : Moment T R α) : Prop :=
  ∃ m', Relation.ReflTransGen (Step n) m m' ∧ ∀ r < n, m'.left r = .done (f r)

/-- What the ranks finish with in every interleaving, they finish with in some interleaving. -/
lemma Settles.finishes {m : Moment T R α} (settles : Settles n f m) : Finishes n f m := by
  induction settles with
  | @intro m results progress _ ih =>
    rcases progress with hdone | ⟨m', step⟩
    · refine ⟨m, .refl, fun r hr => ?_⟩
      obtain ⟨a, ha⟩ := hdone r hr
      rw [ha, results r hr a ha]
    · obtain ⟨goal, steps, hgoal⟩ := ih m' step
      exact ⟨goal, steps.head step, hgoal⟩

/-- Ranks that write and read by turns do so in turn as well, with the same results. -/
theorem Finishes.orderly (finishes : Finishes n f ⟨world, P⟩)
    (alternates : ∀ r < n, (P r).Alternates last now) : Orderly n f P world := by
  obtain ⟨goal, steps, hgoal⟩ := finishes
  -- from the end of the interleaving back to its beginning
  have horderly : ∀ m : Moment T R α, Relation.ReflTransGen (Step n) m goal → ∀ now : Phase,
      (∀ r < n, (m.left r).Alternates last now) → Orderly n f m.left m.world := by
    intro m steps
    induction steps using Relation.ReflTransGen.head_induction_on with
    | refl =>
      intro now alternates
      exact .finished (calm_of_alternates alternates) fun r hr => restOf_of_done (hgoal r hr)
    | @head m m' step _ ih =>
      intro now alternates
      have hcalm : Calm n m.left m.world := calm_of_alternates alternates
      cases step with
      | @serve r q next rank here apart =>
        obtain ⟨-, hsame⟩ := same_serve hcalm rank here apart
        refine (ih now fun s hs => ?_).of_same hcalm hsame.symm
        dsimp only
        by_cases hsr : s = r
        · rw [hsr, served_self]
          exact (here ▸ alternates r rank).of_request apart _
        · rw [served_of_ne hsr]
          exact alternates s hs
      | @pass K ranks here =>
        refine .waiting hcalm (fun r hr => restOf_of_barrier (here r hr)) ?_
        rw [turn_of_barrier here]
        exact ih now.other fun r hr => (here r hr ▸ alternates r hr).of_barrier
  exact horderly _ steps now alternates

/-- What ranks that write and read by turns finish with in one interleaving, they finish with in
every interleaving. -/
theorem Finishes.settles (finishes : Finishes n f ⟨world, P⟩)
    (alternates : ∀ r < n, (P r).Alternates last now) : Settles n f ⟨world, P⟩ :=
  (finishes.orderly alternates).settles

/-- A rank that waits goes on in the other phase. -/
lemma alternates_of_waiting {r : ℕ} (alternates : (P r).Alternates last now)
    {k : Program T R α} (rest : restOf P world r = .waiting k) : k.Alternates last now.other := by
  have hadvance : ∀ (p : Program T R α) (w : World T R), p.Alternates last now →
      (advance r p w).1 = .waiting k → k.Alternates last now.other := by
    intro p
    induction p with
    | done a => exact fun w _ h => by cases h
    | request q next ih =>
      intro w h hrest
      by_cases hq : q = .barrier
      · subst hq
        obtain rfl := Rest.waiting.inj hrest
        exact h.of_barrier
      · rw [advance_request hq] at hrest
        exact ih _ _ (h.of_request hq _) hrest
  exact hadvance (P r) _ alternates rest

/-- Where the ranks in turn go through, so does every interleaving. -/
theorem Runs.settles (run : Runs n P world f) (alternates : ∀ r < n, (P r).Alternates last now) :
    Settles n f ⟨world, P⟩ := by
  have horderly : ∀ now : Phase, (∀ r < n, (P r).Alternates last now) → Orderly n f P world := by
    refine Runs.induct (n := n) (f := f) (motive := fun P world => ∀ now : Phase,
      (∀ r < n, (P r).Alternates last now) → Orderly n f P world) ?_ ?_ run
    · intro P world hfinished now alternates
      exact .finished (calm_of_alternates alternates) hfinished
    · intro P world K hwaiting _ ih now alternates
      refine .waiting (calm_of_alternates alternates) hwaiting (ih now.other fun r hr => ?_)
      exact alternates_of_waiting (alternates r hr) (hwaiting r hr)
  exact (horderly now alternates).settles

end World

/-! ## Operations -/

namespace Collective

/-- A property of operations that stays when they are put together. -/
structure Compositional (Q : ∀ {α : Type}, Collective T R σ α → Prop) : Prop where
  lift : ∀ {α : Type} (r : Except Error α), Q (monadLift r : Collective T R σ α)
  bind : ∀ {α β : Type} {c : Collective T R σ α} {f : α → Collective T R σ β},
    Q c → (∀ a, Q (f a)) → Q (c >>= f)

/-- From every state, the operation writes and reads by turns, and starts and ends in the phase
`now`. -/
def Alternates (now : Program.Phase) (c : Collective T R σ α) : Prop :=
  ∀ s, Program.Alternates now now (c.on s)

namespace Alternates

variable {now : Program.Phase} {c : Collective T R σ α}

lemma get : Alternates now (get : Collective T R σ σ) :=
  fun _ => .done _

lemma lift (r : Except Error α) : Alternates now (monadLift r : Collective T R σ α) := by
  intro s
  rw [on_monadLift]
  exact .done _

lemma ofUpdate (u : Update σ α) : Alternates now (ofUpdate u : Collective T R σ α) :=
  fun _ => .done _

lemma ofProgram {p : Program T R α} (alternates : p.Alternates now now) :
    Alternates now (ofProgram p : Collective T R σ α) :=
  fun _ => alternates.bind fun _ => .done _

lemma bind (first : Alternates now c) {f : α → Collective T R σ β}
    (next : ∀ a, Alternates now (f a)) : Alternates now (c >>= f) := by
  intro s
  rw [on_bind]
  refine (first s).bind ?_
  rintro ⟨e | a, t⟩
  · exact .done _
  · exact next a t

lemma focus {part : σ → τ} {restore : τ → σ → σ} {c : Collective T R τ α}
    (inner : Alternates now c) : Alternates now (c.focus part restore) := by
  intro s
  rw [on_focus]
  exact (inner (part s)).bind fun _ => .done _

lemma attempt (inner : Alternates now c) : Alternates now c.attempt := by
  intro s
  rw [on_attempt]
  exact (inner s).bind fun _ => .done _

lemma compositional (now : Program.Phase) :
    Compositional (T := T) (R := R) (σ := σ) (Alternates now) :=
  ⟨lift, fun first => first.bind⟩

end Alternates

end Collective

/-! ## Reductions -/

/-- A reduction writes up to its first barrier, and reads up to the second one. -/
lemma alternates_reduceAll [Zero R] [Add R] (c : Communicator) (values : Array R) :
    (c.reduceAll values : Program T R (Array R)).Alternates .writing .writing := by
  cases c with
  | single | claimed _ _ _ => exact .done _
  | member r n =>
    have reads : (World.addOffered (List.range n) (values.map fun _ => 0) :
        Program T R (Array R)).Alternates .reading .reading := by
      refine Program.alternates_foldlM (fun sum q => ?_) _ _
      exact (Program.alternates_of_read (q := .offered q) trivial).bind fun _ => .done _
    rw [← Program.bind_done (Communicator.reduceAll _ _), World.reduceAll_bind]
    exact .request trivial fun _ => .barrier (reads.bind fun sum => .barrier (.done sum))

end DomainDecomposition
