import DomainDecomposition.Proofs.Rank.Interleaving
import DomainDecomposition.Rank.Communicator
import Mathlib.Algebra.Group.Defs

/-!
# The phases of collective operations

What all ranks do together is described one request of each or one barrier at a time: `Leads` takes
a family of programs in a world to what is left of them in the world they leave, for the ranks in
turn and for every interleaving.

* `leads_publish`, `leads_offer`, `leads_announce`: every rank writes,
* `leads_pass`: every rank waits at the barrier,
* `leads_read`: every rank reads and waits, where `reading` evaluates a program that only reads,
* `leads_reduceAll`, `arrives_reduceAll`: the sum of what all ranks contribute, the same on every
  rank,
* `leads_gather`: what all ranks announce.
-/

namespace DomainDecomposition.World

variable {T R α β : Type}

/-! ## Going on together -/

/-- Together, the ranks get from `P` in `world` to `Q` in `target`, in turn and in any interleaving.
-/
structure Leads (n : ℕ) (P : ℕ → Program T R α) (world : World T R) (Q : ℕ → Program T R α)
    (target : World T R) : Prop where
  runs : ∀ {f}, Runs n Q target f → Runs n P world f
  orderly : ∀ {f}, Orderly n f Q target → Orderly n f P world

section Leads

variable {n : ℕ} {P P' Q : ℕ → Program T R α} {world world' target : World T R}

/-- Only the programs of the `n` ranks matter. -/
lemma Leads.of_eq (world : World T R) (same : ∀ r < n, P r = Q r) : Leads n P world Q world :=
  ⟨fun run => run.congr same, fun orderly => orderly.congr same⟩

lemma Leads.trans (first : Leads n P world P' world') (second : Leads n P' world' Q target) :
    Leads n P world Q target :=
  ⟨first.runs ∘ second.runs, first.orderly ∘ second.orderly⟩

/-- Where the ranks come to rest in the same way, the runs are the same. -/
lemma Leads.of_same (calm : Calm n P world) (same : Same n P world Q target) :
    Leads n P world Q target where
  runs run := by
    rcases run.cases with rest | ⟨K, rest, next⟩
    · exact runs_of_finished fun r hr => (same.rest r hr).trans (rest r hr)
    · exact (runs_iff_of_waiting fun r hr => (same.rest r hr).trans (rest r hr)).mpr
        (same.turn ▸ next)
  orderly orderly := orderly.of_same calm same

/-- A phase that ends at the barrier. -/
lemma Leads.of_waiting (calm : Calm n P world) (rest : ∀ r < n, restOf P world r = .waiting (Q r)) :
    Leads n P world Q (turn P world n) :=
  ⟨(runs_iff_of_waiting rest).mpr, .waiting calm rest⟩

/-- All ranks wait at the barrier, and go on. -/
lemma leads_pass {K : ℕ → Unit → Program T R α} (hP : ∀ r < n, P r = .request .barrier (K r)) :
    Leads n P world (fun r => K r ()) world := by
  have hcalm : Calm n P world := Or.inl fun r hr => by rw [hP r hr]; trivial
  have hleads := Leads.of_waiting (Q := fun r => K r ()) hcalm
    fun r hr => restOf_of_barrier (hP r hr)
  rwa [turn_of_barrier hP] at hleads

end Leads

/-! ## Writing -/

/-- The programs after the ranks below `s` have each been served one request. -/
def servedBelow (P : ℕ → Program T R α) (world : World T R) (q : ℕ → Request T R)
    (next : (r : ℕ) → (q r).Reply → Program T R α) (s r : ℕ) : Program T R α :=
  if r < s then next r (serve r world (q r)).1 else P r

/-- The world after the ranks below `s` have each been served one request. -/
def written (q : ℕ → Request T R) (world : World T R) : ℕ → World T R
  | 0 => world
  | s + 1 => (serve s (written q world s) (q s)).2

section Write

variable {n : ℕ} {P : ℕ → Program T R α} {q : ℕ → Request T R}
variable {next : (r : ℕ) → (q r).Reply → Program T R α} {world : World T R}

lemma servedBelow_succ {s : ℕ} (write : (q s).IsWrite) :
    servedBelow P world q next (s + 1) =
      served (servedBelow P world q next s) (written q world s) s (q s) (next s) := by
  funext r
  by_cases hrs : r = s
  · rw [hrs, served_self, servedBelow, if_pos (Nat.lt_succ_self s),
      reply_write write s s world (written q world s)]
  · rw [served_of_ne hrs, servedBelow, servedBelow]
    exact if_congr (by omega) rfl rfl

/-- Every rank writes and goes on writing. -/
lemma leads_write (hP : ∀ r < n, P r = .request (q r) (next r)) (write : ∀ r < n, (q r).IsWrite)
    (writes : ∀ r < n, ∀ reply, Writes (next r reply)) :
    Leads n P world (fun r => next r (serve r world (q r)).1) (written q world n) := by
  -- one rank after the other; a rank that has written only writes on, so the ranks stay calm
  have hserved : ∀ s ≤ n, Leads n P world (servedBelow P world q next s) (written q world s) := by
    intro s hs
    induction s with
    | zero => exact Leads.of_eq world fun _ _ => rfl
    | succ s ih =>
      have hcalm : Calm n (servedBelow P world q next s) (written q world s) := by
        refine Or.inl fun r hr => ?_
        rw [servedBelow]
        by_cases hrs : r < s
        · rw [if_pos hrs]
          exact writes r hr _
        · rw [if_neg hrs, hP r hr]
          exact (writes_request (write r hr).ne_barrier).mpr ⟨write r hr, writes r hr⟩
      have here : servedBelow P world q next s s = .request (q s) (next s) := by
        rw [servedBelow, if_neg (lt_irrefl s), hP s hs]
      obtain ⟨-, hsame⟩ := same_serve hcalm hs here (write s hs).ne_barrier
      rw [← servedBelow_succ (write s hs)] at hsame
      exact (ih (Nat.le_of_lt hs)).trans (.of_same hcalm hsame.symm)
  exact (hserved n le_rfl).trans (.of_eq _ fun r hr => if_pos hr)

end Write

/-- The places after the ranks below `s` have each written theirs. -/
def filled (values : ℕ → α) (places : Array α) : ℕ → Array α
  | 0 => places
  | s + 1 => (filled values places s).setIfInBounds s (values s)

lemma filled_eq_ofFn {n : ℕ} (values : ℕ → α) {places : Array α} (size : places.size = n) :
    filled values places n = Array.ofFn fun r : Fin n => values r := by
  have hfilled : ∀ s, (filled values places s).size = n ∧
      ∀ i < n, (filled values places s)[i]? = if i < s then some (values i) else places[i]? := by
    intro s
    induction s with
    | zero => exact ⟨size, fun i _ => rfl⟩
    | succ s ih =>
      refine ⟨by rw [filled, Array.size_setIfInBounds, ih.1], fun i hi => ?_⟩
      rw [filled, Array.getElem?_setIfInBounds, ih.1, ih.2 i hi]
      by_cases his : s = i
      · rw [if_pos his, if_pos (by omega), if_pos (by omega), his]
      · rw [if_neg his]
        exact if_congr (by omega) rfl rfl
  apply Array.ext_getElem?
  intro i
  by_cases hi : i < n
  · rw [(hfilled n).2 i hi, if_pos hi, Array.getElem?_ofFn, dif_pos hi]
  · rw [Array.getElem?_eq_none (by rw [(hfilled n).1]; omega), Array.getElem?_ofFn, dif_neg hi]

/-- A world with the places of `n` ranks. -/
structure Sized (n : ℕ) (world : World T R) : Prop where
  offered : world.offered.size = n
  announced : world.announced.size = n
  published : world.published.size = n

lemma sized_initial (n : ℕ) : (initial n : World T R).Sized n where
  offered := Array.size_replicate
  announced := Array.size_replicate
  published := Array.size_replicate

/-- The world after all of `n` ranks have published. -/
def withPublished (n : ℕ) (vectors : ℕ → Published T) (world : World T R) : World T R :=
  { world with published := Array.ofFn fun r : Fin n => some (vectors r) }

/-- The world after all of `n` ranks have offered numbers. -/
def withOffered (n : ℕ) (values : ℕ → Array R) (world : World T R) : World T R :=
  { world with offered := Array.ofFn fun r : Fin n => values r }

/-- The world after all of `n` ranks have announced counts. -/
def withAnnounced (n : ℕ) (counts : ℕ → ℕ) (world : World T R) : World T R :=
  { world with announced := Array.ofFn fun r : Fin n => counts r }

section Writing

variable {n : ℕ} {world : World T R}

lemma Sized.withPublished (sized : world.Sized n) (vectors : ℕ → Published T) :
    (world.withPublished n vectors).Sized n where
  offered := sized.offered
  announced := sized.announced
  published := Array.size_ofFn

lemma Sized.withOffered (sized : world.Sized n) (values : ℕ → Array R) :
    (world.withOffered n values).Sized n where
  offered := Array.size_ofFn
  announced := sized.announced
  published := sized.published

lemma Sized.withAnnounced (sized : world.Sized n) (counts : ℕ → ℕ) :
    (world.withAnnounced n counts).Sized n where
  offered := sized.offered
  announced := Array.size_ofFn
  published := sized.published

lemma written_publish (sized : world.Sized n) (vectors : ℕ → Published T) :
    written (fun r => .publish (vectors r)) world n = world.withPublished n vectors := by
  have hwritten : ∀ s, written (fun r => .publish (vectors r)) world s =
      { world with published := filled (fun r => some (vectors r)) world.published s } := by
    intro s
    induction s with
    | zero => rfl
    | succ s ih => rw [written, ih]; rfl
  rw [hwritten, filled_eq_ofFn _ sized.published]
  rfl

lemma written_offer (sized : world.Sized n) (values : ℕ → Array R) :
    written (fun r => .offer (values r)) world n = world.withOffered n values := by
  have hwritten : ∀ s, written (fun r => .offer (values r)) world s =
      { world with offered := filled values world.offered s } := by
    intro s
    induction s with
    | zero => rfl
    | succ s ih => rw [written, ih]; rfl
  rw [hwritten, filled_eq_ofFn _ sized.offered]
  rfl

lemma written_announce (sized : world.Sized n) (counts : ℕ → ℕ) :
    written (fun r => .announce (counts r)) world n = world.withAnnounced n counts := by
  have hwritten : ∀ s, written (fun r => .announce (counts r)) world s =
      { world with announced := filled counts world.announced s } := by
    intro s
    induction s with
    | zero => rfl
    | succ s ih => rw [written, ih]; rfl
  rw [hwritten, filled_eq_ofFn _ sized.announced]
  rfl

lemma getD_ofFn_of_lt {q : ℕ} (f : Fin n → α) (missing : α) (hq : q < n) :
    (Array.ofFn f).getD q missing = f ⟨q, hq⟩ := by
  rw [Array.getD_eq_getD_getElem?, Array.getElem?_ofFn, dif_pos hq, Option.getD_some]

lemma getD_withPublished {q : ℕ} (hq : q < n) (world : World T R) (vectors : ℕ → Published T) :
    (world.withPublished n vectors).published.getD q none = some (vectors q) :=
  getD_ofFn_of_lt _ none hq

lemma getD_withOffered {q : ℕ} (hq : q < n) (world : World T R) (values : ℕ → Array R) :
    (world.withOffered n values).offered.getD q #[] = values q :=
  getD_ofFn_of_lt _ #[] hq

lemma getD_withAnnounced {q : ℕ} (hq : q < n) (world : World T R) (counts : ℕ → ℕ) :
    (world.withAnnounced n counts).announced.getD q 0 = counts q :=
  getD_ofFn_of_lt _ 0 hq

variable {P : ℕ → Program T R α} {K : ℕ → Unit → Program T R α}

/-- Every rank publishes a vector. -/
lemma leads_publish (sized : world.Sized n) (vectors : ℕ → Published T)
    (hP : ∀ r < n, P r = .request (.publish (vectors r)) (K r))
    (writes : ∀ r < n, Writes (K r ())) :
    Leads n P world (fun r => K r ()) (world.withPublished n vectors) := by
  rw [← written_publish sized]
  exact leads_write hP (fun _ _ => trivial) fun r hr _ => writes r hr

/-- Every rank offers numbers. -/
lemma leads_offer (sized : world.Sized n) (values : ℕ → Array R)
    (hP : ∀ r < n, P r = .request (.offer (values r)) (K r))
    (writes : ∀ r < n, Writes (K r ())) :
    Leads n P world (fun r => K r ()) (world.withOffered n values) := by
  rw [← written_offer sized]
  exact leads_write hP (fun _ _ => trivial) fun r hr _ => writes r hr

/-- Every rank offers numbers and waits. -/
lemma arrives_offer {K : ℕ → Program T R α} (sized : world.Sized n) (values : ℕ → Array R)
    (hP : ∀ r < n, P r = .request (.offer (values r)) fun _ => .request .barrier fun _ => K r) :
    Arrives n ⟨world.withOffered n values, K⟩ ⟨world, P⟩ := by
  have hturn : ∀ s ≤ n, turn P world s = written (fun r => .offer (values r)) world s := by
    intro s hs
    induction s with
    | zero => rfl
    | succ s ih =>
      rw [turn, written, ih (by omega), hP s hs]
      rfl
  have hcalm : Calm n P world := Or.inl fun r hr => by
    rw [hP r hr]
    exact ⟨trivial, fun _ => trivial⟩
  have harrives := Arrives.of_waiting (Q := K) hcalm fun r hr => by
    rw [restOf, hP r hr]
    rfl
  rwa [hturn n le_rfl, written_offer sized] at harrives

/-- Every rank announces a count. -/
lemma leads_announce (sized : world.Sized n) (counts : ℕ → ℕ)
    (hP : ∀ r < n, P r = .request (.announce (counts r)) (K r))
    (writes : ∀ r < n, Writes (K r ())) :
    Leads n P world (fun r => K r ()) (world.withAnnounced n counts) := by
  rw [← written_announce sized]
  exact leads_write hP (fun _ _ => trivial) fun r hr _ => writes r hr

end Writing

/-! ## Reading -/

/-- The result of a program that only reads. -/
def reading (world : World T R) : Program T R α → Option α
  | .done a => some a
  | .request (.offered r) next => reading world (next (world.offered.getD r #[]))
  | .request (.announced r) next => reading world (next (world.announced.getD r 0))
  | .request (.published r) next => reading world (next (world.published.getD r none))
  | .request _ _ => none

lemma reading_bind (world : World T R) (p : Program T R α) (f : α → Program T R β) :
    reading world (p >>= f) = (reading world p).bind fun a => reading world (f a) := by
  induction p with
  | done a => rfl
  | request q next ih =>
    cases q with
    | offered r => exact ih _
    | announced r => exact ih _
    | published r => exact ih _
    | _ => rfl

/-- A program that only reads goes on to what follows it. -/
lemma advance_reading {world : World T R} {p : Program T R α} {a : α}
    (h : reading world p = some a) (r : ℕ) (f : α → Program T R β) :
    advance r (p >>= f) world = advance r (f a) world := by
  induction p with
  | done b =>
    obtain rfl : b = a := Option.some.inj h
    rfl
  | request q next ih =>
    cases q with
    | offered r => exact ih _ h
    | announced r => exact ih _ h
    | published r => exact ih _ h
    | _ => simp [reading] at h

lemma reads_of_reading {world : World T R} {p : Program T R α} {a : α}
    (h : reading world p = some a) {f : α → Program T R β} (reads : Reads world (f a)) :
    Reads world (p >>= f) := by
  induction p with
  | done b =>
    obtain rfl : b = a := Option.some.inj h
    exact reads
  | request q next ih =>
    cases q with
    | offered r => exact ⟨trivial, ih _ h⟩
    | announced r => exact ⟨trivial, ih _ h⟩
    | published r => exact ⟨trivial, ih _ h⟩
    | _ => simp [reading] at h

section Read

variable {n : ℕ} {P : ℕ → Program T R β} {p : ℕ → Program T R α} {a : ℕ → α}
variable {K : ℕ → α → Unit → Program T R β} {world : World T R}

/-- Ranks that read and wait leave the world alone. -/
lemma rest_of_reading (hP : ∀ r < n, P r = p r >>= fun a => .request .barrier (K r a))
    (reads : ∀ r < n, reading world (p r) = some (a r)) :
    Calm n P world ∧ turn P world n = world ∧
      ∀ r < n, restOf P world r = .waiting (K r (a r) ()) := by
  have hreads : ∀ r < n, Reads world (P r) := by
    intro r hr
    rw [hP r hr]
    exact reads_of_reading (reads r hr) trivial
  refine ⟨Or.inr hreads, turn_of_reads hreads le_rfl, fun r hr => ?_⟩
  rw [restOf, hP r hr, advance_reading (by rw [turn_of_reads hreads hr.le]; exact reads r hr),
    advance]

/-- Every rank reads and waits. -/
lemma leads_read (hP : ∀ r < n, P r = p r >>= fun a => .request .barrier (K r a))
    (reads : ∀ r < n, reading world (p r) = some (a r)) :
    Leads n P world (fun r => K r (a r) ()) world := by
  obtain ⟨hcalm, hturn, hrest⟩ := rest_of_reading hP reads
  have hleads := Leads.of_waiting hcalm hrest
  rwa [hturn] at hleads

lemma arrives_read (hP : ∀ r < n, P r = p r >>= fun a => .request .barrier (K r a))
    (reads : ∀ r < n, reading world (p r) = some (a r)) :
    Arrives n ⟨world, fun r => K r (a r) ()⟩ ⟨world, P⟩ := by
  obtain ⟨hcalm, hturn, hrest⟩ := rest_of_reading hP reads
  have harrives := Arrives.of_waiting hcalm hrest
  rwa [hturn] at harrives

end Read

/-- Going on after a request, a barrier, a program and another barrier. -/
lemma collective_bind {γ : Type} (q : Request T R) (p : Program T R α) (K : α → Program T R γ) :
    ((Program.request q fun _ => .request .barrier fun _ => p >>= fun a =>
      .request .barrier fun _ => .done a) >>= K) =
    .request q fun _ => .request .barrier fun _ => p >>= fun a => .request .barrier fun _ => K a :=
  congrArg (Program.request q) (funext fun _ => congrArg (Program.request .barrier)
    (funext fun _ => Program.bind_bind p _ K))

/-! ## Reductions -/

/-- Reading the places of several ranks, one after the other. -/
lemma reading_foldlM (world : World T R) (step : β → ℕ → Program T R β) (value : β → ℕ → β)
    (ranks : List ℕ) (start : β)
    (reads : ∀ r ∈ ranks, ∀ s, reading world (step s r) = some (value s r)) :
    reading world (ranks.foldlM step start) = some (ranks.foldl value start) := by
  induction ranks generalizing start with
  | nil => rfl
  | cons r ranks ih =>
    obtain ⟨hfirst, hrest⟩ := List.forall_mem_cons.mp reads
    rw [List.foldlM_cons, reading_bind, hfirst start, Option.bind_some, ih _ hrest,
      List.foldl_cons]

/-- Read what the ranks have offered and add it up. -/
def addOffered [Add R] (ranks : List ℕ) (start : Array R) : Program T R (Array R) :=
  ranks.foldlM (fun sum rank => do
    return Communicator.addContribution sum (← Program.ask (.offered rank))) start

/-- The sum of all contributions, in the order of the ranks. -/
def total [Zero R] [Add R] (n : ℕ) (values : ℕ → Array R) (r : ℕ) : Array R :=
  (List.range n).foldl (fun sum q => Communicator.addContribution sum (values q))
    ((values r).map fun _ => 0)

section ReduceAll

variable [Zero R] [Add R] {n : ℕ} {world : World T R}

/-- A reduction is one write, a barrier, a program that reads the sum, and a barrier. -/
lemma reduceAll_bind (r n : ℕ) (values : Array R) (K : Array R → Program T R α) :
    ((Communicator.member r n).reduceAll values >>= K) =
      .request (.offer values) fun _ => .request .barrier fun _ =>
        addOffered (List.range n) (values.map fun _ => 0) >>= fun sum =>
          .request .barrier fun _ => K sum :=
  collective_bind _ _ K

lemma reading_addOffered (world : World T R) (values : ℕ → Array R) (r : ℕ) :
    reading (world.withOffered n values)
        (addOffered (List.range n) ((values r).map fun _ => 0)) = some (total n values r) := by
  refine reading_foldlM _ _ (fun s q => Communicator.addContribution s (values q)) _ _ ?_
  intro q hq s
  show some (Communicator.addContribution s _) = _
  rw [getD_withOffered (List.mem_range.mp hq)]

variable (sized : world.Sized n) (values : ℕ → Array R)
variable {P : ℕ → Program T R α} {K : ℕ → Array R → Program T R α}

include sized

/-- Every rank contributes to a reduction and goes on with the sum. -/
lemma leads_reduceAll
    (hP : ∀ r < n, P r = (Communicator.member r n).reduceAll (values r) >>= K r) :
    Leads n P world (fun r => K r (total n values r)) (world.withOffered n values) := by
  refine ((leads_offer sized values (fun r hr => (hP r hr).trans (reduceAll_bind ..))
    fun _ _ => trivial).trans (leads_pass fun _ _ => rfl)).trans ?_
  exact leads_read (fun _ _ => rfl) fun r _ => reading_addOffered world values r

/-- All ranks have the sum at the same moment, when the second barrier opens. -/
lemma arrives_reduceAll
    (hP : ∀ r < n, P r = (Communicator.member r n).reduceAll (values r) >>= K r) :
    Arrives n ⟨world.withOffered n values, fun r => K r (total n values r)⟩ ⟨world, P⟩ := by
  refine (arrives_offer sized values fun r hr => (hP r hr).trans (reduceAll_bind ..)).trans ?_
  exact arrives_read (K := fun r s _ => K r s) (fun _ _ => rfl) fun r _ =>
    reading_addOffered world values r

end ReduceAll

/-- Zeros add up to zero. -/
lemma total_zero [AddMonoid R] (n r : ℕ) : total n (fun _ => #[(0 : R)]) r = #[0] := by
  have hadd : Communicator.addContribution #[(0 : R)] #[0] = #[0] := by
    simp [Communicator.addContribution]
  have hfold : ∀ ranks : List ℕ, ranks.foldl
      (fun sum _ => Communicator.addContribution sum #[(0 : R)]) #[0] = #[0] := by
    intro ranks
    induction ranks with
    | nil => rfl
    | cons q ranks ih => rw [List.foldl_cons, hadd, ih]
  rw [total, List.map_toArray]
  exact hfold _

/-! ## Gathering -/

/-- Reading the places of several ranks into a list. -/
lemma reading_mapM (world : World T R) (read : ℕ → Program T R β) (value : ℕ → β)
    (ranks : List ℕ) (reads : ∀ r ∈ ranks, reading world (read r) = some (value r)) :
    reading world (ranks.mapM read) = some (ranks.map value) := by
  induction ranks with
  | nil => rfl
  | cons r ranks ih =>
    obtain ⟨hfirst, hrest⟩ := List.forall_mem_cons.mp reads
    rw [List.mapM_cons, reading_bind, hfirst, Option.bind_some, reading_bind, ih hrest]
    rfl

/-- Every rank announces a count and goes on with the counts of all. -/
lemma leads_gather {n : ℕ} {world : World T R} (sized : world.Sized n) (counts : ℕ → ℕ)
    {P : ℕ → Program T R α} {K : ℕ → List ℕ → Program T R α}
    (hP : ∀ r < n, P r = (Communicator.member r n).gather (counts r) >>= K r) :
    Leads n P world (fun r => K r ((List.range n).map counts)) (world.withAnnounced n counts) := by
  let all : Program T R (List ℕ) := (List.range n).mapM fun rank => Program.ask (.announced rank)
  have hshape : ∀ r < n, P r = .request (.announce (counts r)) fun _ =>
      .request .barrier fun _ => all >>= fun s => .request .barrier fun _ => K r s :=
    fun r hr => (hP r hr).trans (collective_bind _ all (K r))
  refine ((leads_announce sized counts hshape fun _ _ => trivial).trans
    (leads_pass fun _ _ => rfl)).trans ?_
  refine leads_read (p := fun _ => all) (fun _ _ => rfl) fun r hr => ?_
  exact reading_mapM _ _ counts _ fun q hq =>
    congrArg some (getD_withAnnounced (List.mem_range.mp hq) world counts)

end DomainDecomposition.World
