import DomainDecomposition.Proofs.Halo.Link
import DomainDecomposition.Proofs.Partition

/-!
# Sessions of ranks

A rank of a world makes calls, one after the other: it begins and finishes exchanges on its links,
and it takes part in reductions, gatherings and barriers. In a session all ranks make the same kinds
of calls in the same order, each with its own links, vectors, buffers and numbers.

All exchanges of a rank go through one place of the world. So what a finished exchange delivers is
what the owners have published last, on whichever link. One round of calls keeps the books of all
links (`leads_perform`), and by induction a session answers every call (`orderly_session`), in turn
and in any interleaving.

* `Call`, `Answer`, `Desk`: what a rank asks for, what it is told, and what it keeps,
* `perform`, `session`: one call, and all of them,
* `Proper`: at most one exchange is in flight on every link,
* `latest`: what a rank has published last.
-/

namespace DomainDecomposition

open World

variable {T R α : Type}

/-! ## Calls -/

/-- What a rank asks for. Its links are numbered. -/
inductive Call (T R : Type) where
  /-- Begin an exchange of a vector that holds the own blocks from `offset` on. -/
  | begin (link : ℕ) (x : Array T) (offset : ℕ)
  /-- Finish the exchange that was begun last on the link. -/
  | finish (link : ℕ) (buffer : Array T)
  /-- Add up numbers of all ranks. -/
  | reduce (values : Array R)
  /-- Collect a count from every rank. -/
  | gather (count : ℕ)
  /-- Wait for all ranks. -/
  | barrier
  deriving Inhabited

namespace Call

/-- A call without its arguments. -/
inductive Kind where
  | begin
  | finish
  | reduce
  | gather
  | barrier
  deriving DecidableEq

def kind : Call T R → Kind
  | begin .. => .begin
  | finish .. => .finish
  | reduce _ => .reduce
  | gather _ => .gather
  | barrier => .barrier

lemma kind_eq_begin {call : Call T R} (h : call.kind = .begin) :
    ∃ k x offset, call = .begin k x offset := by
  cases call <;> cases h
  exact ⟨_, _, _, rfl⟩

lemma kind_eq_finish {call : Call T R} (h : call.kind = .finish) :
    ∃ k buffer, call = .finish k buffer := by
  cases call <;> cases h
  exact ⟨_, _, rfl⟩

lemma kind_eq_reduce {call : Call T R} (h : call.kind = .reduce) :
    ∃ values, call = .reduce values := by
  cases call <;> cases h
  exact ⟨_, rfl⟩

lemma kind_eq_gather {call : Call T R} (h : call.kind = .gather) :
    ∃ count, call = .gather count := by
  cases call <;> cases h
  exact ⟨_, rfl⟩

lemma kind_eq_barrier {call : Call T R} (h : call.kind = .barrier) : call = .barrier := by
  cases call <;> cases h
  rfl

/-- When exchanges are in flight on the links `out`, the call begins none on these and finishes one
of them, if any. -/
def Allowed (out : Finset ℕ) : Call T R → Prop
  | begin k _ _ => k ∉ out
  | finish k _ => k ∈ out
  | _ => True

/-- The links with an exchange in flight after the call. -/
def after (out : Finset ℕ) : Call T R → Finset ℕ
  | begin k _ _ => insert k out
  | finish k _ => out.erase k
  | _ => out

/-- What the rank has published last after the call. -/
def publish (past : Option (Published T)) : Call T R → Option (Published T)
  | begin _ x offset => some { values := x, offset }
  | _ => past

end Call

/-- What a rank is told. -/
inductive Answer (T R : Type) where
  | begun (result : Except Error Ticket)
  | finished (result : Except Error Unit) (buffer : Array T)
  | reduced (sum : Array R)
  | gathered (counts : List ℕ)
  | passed

/-- The links of a rank, and the ticket that each of them has handed out last. -/
structure Desk (T : Type) where
  links : ℕ → Link T
  tickets : ℕ → Ticket

namespace Desk

/-- Replace a link. -/
def withLink (d : Desk T) (k : ℕ) (link : Link T) : Desk T :=
  { d with links := Function.update d.links k link }

/-- Keep the ticket that a link has handed out, if it has. -/
def withTicket (d : Desk T) (k : ℕ) : Except Error Ticket → Desk T
  | .ok ticket => { d with tickets := Function.update d.tickets k ticket }
  | .error _ => d

/-- The links reach blocks of other ranks, and exchanges are in flight on `out` only. -/
structure Keeps (b : ℕ → ℕ) (sources : ℕ → List (ℕ × ℕ)) (out : Finset ℕ) (d : Desk T) : Prop where
  blockSize : ∀ k, (d.links k).blockSize = b k
  supply : ∀ k, (d.links k).supply = .remote (sources k)
  inFlight : ∀ k ∈ out, (d.links k).flight.pending = some (d.tickets k).number
  idle : ∀ k ∉ out, (d.links k).flight.pending = none

end Desk

section Calls

variable [Zero R] [Add R]

/-- Make one call. -/
def perform (c : Communicator) (d : Desk T) : Call T R → Program T R (Answer T R × Desk T)
  | .begin k x offset => do
    let (result, link) ← (Link.begin x offset).on (d.links k)
    return (.begun result, (d.withLink k link).withTicket k result)
  | .finish k buffer => do
    let (result, link, buffer) ← (Link.finish (d.tickets k)).on (d.links k, buffer)
    return (.finished result buffer, d.withLink k link)
  | .reduce values => do
    return (.reduced (← c.reduceAll values), d)
  | .gather count => do
    return (.gathered (← c.gather count), d)
  | .barrier => do
    c.barrier
    return (.passed, d)

/-- Make one call after the other. -/
def session (c : Communicator) : List (Call T R) → Desk T →
    Program T R (List (Answer T R) × Desk T)
  | [], d => return ([], d)
  | call :: calls, d => do
    let (answer, d) ← perform c d call
    let (answers, d) ← session c calls d
    return (answer :: answers, d)

/-- Up to the next barrier, no call reads. -/
lemma writes_perform (c : Communicator) (d : Desk T) (call : Call T R) :
    Writes (perform c d call) := by
  cases call with
  | begin k x offset => exact (Link.alternates_begin x offset _).writes.bind fun _ => trivial
  | finish k buffer => exact (Link.alternates_finish _ (_, buffer)).writes.bind fun _ => trivial
  | reduce values =>
    cases c with
    | member _ _ => exact ⟨trivial, fun _ => trivial⟩
    | _ => trivial
  | gather count =>
    cases c with
    | member _ _ => exact ⟨trivial, fun _ => trivial⟩
    | _ => trivial
  | barrier => cases c <;> trivial

lemma writes_session (c : Communicator) (calls : List (Call T R)) (d : Desk T) :
    Writes (session c calls d) := by
  induction calls generalizing d with
  | nil => trivial
  | cons call calls ih =>
    exact (writes_perform c d call).bind fun s => (ih s.2).bind fun _ => trivial

end Calls

/-! ## One round of calls -/

/-- The answer to a call when the ranks have published the given vectors last. -/
def Call.Answered (b : ℕ → ℕ) (sources : ℕ → List (ℕ × ℕ)) (vectors : ℕ → Option (Published T)) :
    Call T R → Answer T R → Prop
  | .begin .., answer => ∃ ticket, answer = .begun (.ok ticket)
  | .finish k buffer, answer => ∃ result buffer', answer = .finished result buffer' ∧
    Link.Delivered (b k) vectors (sources k) buffer result buffer'
  | _, _ => True

namespace Desk

variable {b : ℕ → ℕ} {sources : ℕ → List (ℕ × ℕ)} {out : Finset ℕ} {d : Desk T} {k : ℕ}

/-- The desk with a new exchange in flight. -/
def begun (d : Desk T) (k : ℕ) : Desk T :=
  (d.withLink k (d.links k).begun).withTicket k (.ok (d.links k).ticket)

/-- The desk with one exchange less in flight. -/
def landed (d : Desk T) (k : ℕ) : Desk T :=
  d.withLink k (d.links k).landed

/-- Replacing one link, and the ticket that it has handed out. -/
lemma Keeps.update (h : d.Keeps b sources out) (link : Link T) (ticket : Ticket)
    {out' : Finset ℕ} (blockSize : link.blockSize = b k) (supply : link.supply = .remote (sources k))
    (others : ∀ j, j ≠ k → (j ∈ out' ↔ j ∈ out))
    (flight : link.flight.pending = if k ∈ out' then some ticket.number else none) :
    Keeps b sources out'
      ⟨Function.update d.links k link, Function.update d.tickets k ticket⟩ where
  blockSize j := by
    by_cases hj : j = k
    · simp only [hj, Function.update_self, blockSize]
    · simp only [Function.update_of_ne hj, h.blockSize]
  supply j := by
    by_cases hj : j = k
    · simp only [hj, Function.update_self, supply]
    · simp only [Function.update_of_ne hj, h.supply]
  inFlight j hout := by
    by_cases hj : j = k
    · simp only [hj, Function.update_self, flight, if_pos (hj ▸ hout)]
    · simp only [Function.update_of_ne hj, h.inFlight j ((others j hj).mp hout)]
  idle j hout := by
    by_cases hj : j = k
    · simp only [hj, Function.update_self, flight, if_neg (hj ▸ hout)]
    · simp only [Function.update_of_ne hj, h.idle j fun hin => hout ((others j hj).mpr hin)]

lemma Keeps.begun (h : d.Keeps b sources out) : (d.begun k).Keeps b sources (insert k out) := by
  refine h.update _ _ (h.blockSize k) (h.supply k) (fun j hj => ?_) ?_
  · rw [Finset.mem_insert, or_iff_right hj]
  · rw [if_pos (Finset.mem_insert_self k out)]
    rfl

lemma Keeps.landed (h : d.Keeps b sources out) : (d.landed k).Keeps b sources (out.erase k) := by
  have hkeeps := h.update (d.links k).landed (d.tickets k) (h.blockSize k) (h.supply k)
    (fun j hj => by rw [Finset.mem_erase, and_iff_right hj])
    (if_neg (Finset.notMem_erase k out)).symm
  rwa [Function.update_eq_self] at hkeeps

end Desk

section Round

variable {n : ℕ} {world : World T R} {d : ℕ → Desk T} {call : ℕ → Call T R}
variable {b : ℕ → ℕ → ℕ} {sources : ℕ → ℕ → List (ℕ × ℕ)} {out : ℕ → Finset ℕ}

/-- What all ranks together get from calls of one kind. -/
structure Round (b : ℕ → ℕ → ℕ) (sources : ℕ → ℕ → List (ℕ × ℕ)) (out : ℕ → Finset ℕ) (n : ℕ)
    (world : World T R) (call : ℕ → Call T R) (answer : ℕ → Answer T R) (d' : ℕ → Desk T)
    (world' : World T R) : Prop where
  sized : world'.Sized n
  published : ∀ q < n, world'.published.getD q none =
    (call q).publish (world.published.getD q none)
  keeps : ∀ r < n, (d' r).Keeps (b r) (sources r) ((call r).after (out r))
  answered : ∀ r < n, (call r).Answered (b r) (sources r)
    (fun q => world.published.getD q none) (answer r)

/-- Calls that have nothing to do with exchanges leave the desks and the published vectors alone. -/
lemma Round.of_apart (apart : ∀ r < n, (call r).kind ≠ .begin ∧ (call r).kind ≠ .finish)
    (keeps : ∀ r < n, (d r).Keeps (b r) (sources r) (out r)) (answer : ℕ → Answer T R)
    {world' : World T R} (sized : world'.Sized n) (same : world'.published = world.published) :
    Round b sources out n world call answer d world' := by
  have hcall : ∀ r < n, ((call r).after (out r) = out r) ∧
      (∀ past, (call r).publish past = past) ∧
      ∀ vectors, (call r).Answered (b r) (sources r) vectors (answer r) := by
    intro r hr
    obtain ⟨hbegin, hfinish⟩ := apart r hr
    cases hcall : call r with
    | begin => exact absurd (by rw [hcall]; rfl) hbegin
    | finish => exact absurd (by rw [hcall]; rfl) hfinish
    | _ => exact ⟨rfl, fun _ => rfl, fun _ => trivial⟩
  exact ⟨sized, fun q hq => by rw [(hcall q hq).2.1, same],
    fun r hr => by rw [(hcall r hr).1]; exact keeps r hr, fun r hr => (hcall r hr).2.2 _⟩

variable [Zero R] [Add R] {K : ℕ → Answer T R × Desk T → Program T R α}

lemma leads_perform_begin (sized : world.Sized n)
    (keeps : ∀ r < n, (d r).Keeps (b r) (sources r) (out r))
    (allowed : ∀ r < n, (call r).Allowed (out r)) (common : ∀ r < n, (call r).kind = .begin)
    (writes : ∀ r < n, ∀ s, Writes (K r s)) :
    ∃ answer d' world', Round b sources out n world call answer d' world' ∧
      Leads n (fun r => perform (.member r n) (d r) (call r) >>= K r) world
        (fun r => K r (answer r, d' r)) world' := by
  have hcall := fun r hr => Call.kind_eq_begin (common r hr)
  choose! k x offset hcall using hcall
  refine ⟨fun r => .begun (.ok ((d r).links (k r)).ticket), fun r => (d r).begun (k r),
    world.withPublished n fun r => { values := x r, offset := offset r }, ⟨?_, ?_, ?_, ?_⟩,
    leads_publish (K := fun r _ => K r (_, _)) sized _ (fun r hr => ?_) fun r hr => writes r hr _⟩
  · exact sized.withPublished _
  · intro q hq
    rw [getD_withPublished hq, hcall q hq]
    rfl
  · intro r hr
    rw [hcall r hr]
    exact (keeps r hr).begun
  · intro r hr
    rw [hcall r hr]
    exact ⟨_, rfl⟩
  · -- the link has nothing in flight, so it does publish
    have hidle := (keeps r hr).idle (k r) (by simpa [hcall r hr, Call.Allowed] using allowed r hr)
    rw [hcall r hr, perform, Link.begin_on hidle ((keeps r hr).supply (k r))]
    rfl

lemma leads_perform_finish (sized : world.Sized n)
    (keeps : ∀ r < n, (d r).Keeps (b r) (sources r) (out r))
    (allowed : ∀ r < n, (call r).Allowed (out r)) (common : ∀ r < n, (call r).kind = .finish) :
    ∃ answer d' world', Round b sources out n world call answer d' world' ∧
      Leads n (fun r => perform (.member r n) (d r) (call r) >>= K r) world
        (fun r => K r (answer r, d' r)) world' := by
  have hcall := fun r hr => Call.kind_eq_finish (common r hr)
  choose! k buffer hcall using hcall
  have hcollected := fun r => Link.reading_collected (b := b r (k r)) world (sources r (k r))
    (buffer r)
  choose result buffer' hreading hdelivered _ using hcollected
  refine ⟨fun r => .finished (result r) (buffer' r), fun r => (d r).landed (k r), world,
    ⟨sized, ?_, ?_, ?_⟩, ?_⟩
  · intro q hq
    rw [hcall q hq]
    rfl
  · intro r hr
    rw [hcall r hr]
    exact (keeps r hr).landed
  · intro r hr
    rw [hcall r hr]
    exact ⟨result r, buffer' r, rfl, hdelivered r⟩
  · -- nobody reads before the first barrier, and nobody writes before the second one
    have hshape : ∀ r < n, perform (.member r n) (d r) (call r) >>= K r =
        .request .barrier fun _ => Link.collected (b r (k r)) (sources r (k r)) (buffer r) >>=
          fun s => .request .barrier fun _ => K r (.finished s.1 s.2, (d r).landed (k r)) := by
      intro r hr
      have hout := (keeps r hr).inFlight (k r)
        (by simpa [hcall r hr, Call.Allowed] using allowed r hr)
      rw [hcall r hr, perform, Link.finish_on hout ((keeps r hr).supply (k r)),
        (keeps r hr).blockSize]
      simp only [Program.request_bind, Program.bind_bind]
      rfl
    refine (leads_pass hshape).trans ?_
    exact leads_read (a := fun r => (result r, buffer' r)) (fun _ _ => rfl) fun r _ => hreading r

/-- A round of calls of one kind. -/
lemma leads_perform (sized : world.Sized n)
    (keeps : ∀ r < n, (d r).Keeps (b r) (sources r) (out r))
    (allowed : ∀ r < n, (call r).Allowed (out r)) {kind : Call.Kind}
    (common : ∀ r < n, (call r).kind = kind) (writes : ∀ r < n, ∀ s, Writes (K r s)) :
    ∃ answer d' world', Round b sources out n world call answer d' world' ∧
      Leads n (fun r => perform (.member r n) (d r) (call r) >>= K r) world
        (fun r => K r (answer r, d' r)) world' := by
  cases kind with
  | begin => exact leads_perform_begin sized keeps allowed common writes
  | finish => exact leads_perform_finish sized keeps allowed common
  | reduce =>
    have hcall := fun r hr => Call.kind_eq_reduce (common r hr)
    choose! values hcall using hcall
    refine ⟨_, d, _, .of_apart (fun r hr => ?_) keeps (fun r => .reduced (total n values r))
      (sized.withOffered values) rfl, leads_reduceAll (K := fun r s => K r (.reduced s, d r)) sized
      values fun r hr => ?_⟩
    · rw [common r hr]
      decide
    · rw [hcall r hr]
      exact Program.bind_bind _ _ _
  | gather =>
    have hcall := fun r hr => Call.kind_eq_gather (common r hr)
    choose! count hcall using hcall
    refine ⟨_, d, _, .of_apart (fun r hr => ?_) keeps
      (fun _ => .gathered ((List.range n).map count)) (sized.withAnnounced count) rfl,
      leads_gather (K := fun r s => K r (.gathered s, d r)) sized count fun r hr => ?_⟩
    · rw [common r hr]
      decide
    · rw [hcall r hr]
      exact Program.bind_bind _ _ _
  | barrier =>
    have hcall := fun r hr => Call.kind_eq_barrier (common r hr)
    refine ⟨_, d, world, .of_apart (fun r hr => ?_) keeps (fun _ => .passed) sized rfl,
      leads_pass (K := fun r _ => K r (.passed, d r)) fun r hr => ?_⟩
    · rw [common r hr]
      decide
    · rw [hcall r hr]
      rfl

end Round

/-! ## Sessions -/

/-- Every call is allowed when its turn comes. -/
def Proper : Finset ℕ → List (Call T R) → Prop
  | _, [] => True
  | out, call :: calls => call.Allowed out ∧ Proper (call.after out) calls

/-- What a rank has published last after some calls. -/
def latest (past : Option (Published T)) (calls : List (Call T R)) : Option (Published T) :=
  calls.foldl Call.publish past

lemma Call.Answered.congr {n : ℕ} {b : ℕ → ℕ} {sources : ℕ → List (ℕ × ℕ)}
    {vectors vectors' : ℕ → Option (Published T)} {call : Call T R} {answer : Answer T R}
    (h : call.Answered b sources vectors answer) (owners : ∀ k, ∀ s ∈ sources k, s.1 < n)
    (same : ∀ q < n, vectors' q = vectors q) : call.Answered b sources vectors' answer := by
  cases call with
  | finish k buffer =>
    obtain ⟨result, buffer', hanswer, hdelivered⟩ := h
    exact ⟨result, buffer', hanswer, hdelivered.congr fun s hs => same s.1 (owners k s hs)⟩
  | _ => exact h

/-- Every call is answered with what the ranks have published last before it. -/
theorem orderly_session [Zero R] [Add R] {n : ℕ} {b : ℕ → ℕ → ℕ}
    {sources : ℕ → ℕ → List (ℕ × ℕ)} (owners : ∀ r < n, ∀ k, ∀ s ∈ sources r k, s.1 < n)
    {calls : ℕ → List (Call T R)} {kinds : List Call.Kind}
    (common : ∀ r < n, (calls r).map Call.kind = kinds) {out : ℕ → Finset ℕ}
    (proper : ∀ r < n, Proper (out r) (calls r)) {d : ℕ → Desk T}
    (keeps : ∀ r < n, (d r).Keeps (b r) (sources r) (out r)) {world : World T R}
    (sized : world.Sized n) :
    ∃ (answers : ℕ → List (Answer T R)) (d' : ℕ → Desk T),
      Orderly n (fun r => (answers r, d' r)) (fun r => session (.member r n) (calls r) (d r)) world ∧
      ∀ r < n, ∀ (m : ℕ) (call : Call T R), (calls r)[m]? = some call →
        ∃ answer, (answers r)[m]? = some answer ∧ call.Answered (b r) (sources r)
          (fun q => latest (world.published.getD q none) ((calls q).take m)) answer := by
  induction kinds generalizing calls out d world with
  | nil =>
    have hnil : ∀ r < n, calls r = [] := fun r hr => List.map_eq_nil_iff.mp (common r hr)
    refine ⟨fun _ => [], d, (orderly_done n _ world).congr fun r hr => ?_, fun r hr m call hm => ?_⟩
    · rw [hnil r hr]
      rfl
    · simp [hnil r hr] at hm
  | cons kind kinds ih =>
    have hcons := fun r hr => List.map_eq_cons_iff.mp (common r hr)
    choose! call rest hcalls hkind hrest using hcons
    have hproper : ∀ r < n, (call r).Allowed (out r) ∧
        Proper ((call r).after (out r)) (rest r) := by
      intro r hr
      have h := proper r hr
      rwa [hcalls r hr] at h
    -- one round of the first calls, and from there the session that is left
    obtain ⟨answer, d₁, world₁, round, hleads⟩ := leads_perform
      (K := fun r s => session (.member r n) (rest r) s.2 >>= fun t => .done (s.1 :: t.1, t.2))
      sized keeps (fun r hr => (hproper r hr).1) hkind
      fun r _ s => (writes_session _ (rest r) s.2).bind fun _ => trivial
    obtain ⟨answers, d', horderly, hanswers⟩ :=
      ih hrest (fun r hr => (hproper r hr).2) round.keeps round.sized
    refine ⟨fun r => answer r :: answers r, d', ?_, fun r hr m call' hm => ?_⟩
    · refine (hleads.orderly (horderly.map fun r t => (answer r :: t.1, t.2))).congr fun r hr => ?_
      rw [hcalls r hr]
      rfl
    · rw [hcalls r hr] at hm
      cases m with
      | zero =>
        obtain rfl : call r = call' := by simpa using hm
        exact ⟨answer r, rfl, round.answered r hr⟩
      | succ m =>
        obtain ⟨answer', hanswer', h⟩ := hanswers r hr m call' (by simpa using hm)
        refine ⟨answer', by simpa using hanswer', h.congr (owners r hr) fun q hq => ?_⟩
        -- what an owner published in the first round is the past of the session that is left
        rw [hcalls q hq, List.take_succ_cons, latest, List.foldl_cons, round.published q hq]
        rfl

end DomainDecomposition
