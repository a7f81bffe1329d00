import DomainDecomposition.Proofs.Halo.Link

/-!
# Exchange among the ranks of a world

A halo is `Ready` for an exchange when no ticket is out and it knows where its blocks come from. An
exchange of all ranks then goes through: every rank publishes its vector, and between the two
barriers of `finish` it reads its blocks from the owners. Whatever a rank does on its own between
`begin` and `finish` makes no difference.

* `Halo.begin_on`, `Halo.finish_on`: the requests of the two halves,
* `Halo.leads_delivery`: the exchange of all ranks together.
-/

namespace DomainDecomposition

open World

variable {T R α : Type}

/-! ## The two halves -/

namespace Halo

/-- No ticket is out, and the blocks come from the given places of other ranks. -/
structure Ready (b : ℕ) (sources : List (ℕ × ℕ)) (h : Halo T) : Prop where
  blockSize : h.link.blockSize = b
  idle : h.link.flight.pending = none
  supply : h.link.supply = .remote sources
  size : h.received.size = b * sources.length

/-- A new halo over a new link is ready. -/
lemma Ready.of_ofLink [Zero T] {b : ℕ} {sources : List (ℕ × ℕ)} {slots : ℕ} {h : Halo T}
    (hslots : slots = sources.length)
    (made : ofLink { blockSize := b, flight := .idle, supply := .remote sources } b slots =
      .ok h) : h.Ready b sources := by
  unfold ofLink Block.allocate at made
  simp only [Outcome.pure_eq, Outcome.bind_eq_ok] at made
  obtain ⟨received, ⟨-, -, hzeros⟩, hhalo⟩ := made
  obtain rfl := Except.ok.inj hhalo
  obtain rfl := Except.ok.inj hzeros
  exact ⟨rfl, rfl, rfl, Array.size_replicate.trans (by rw [hslots])⟩

/-- The next ticket. -/
def ticket (h : Halo T) : Ticket :=
  h.link.ticket

/-- The halo with the next ticket out. -/
def begun (h : Halo T) : Halo T :=
  { h with link := h.link.begun }

/-- The halo after an exchange that has filled the receive buffer. -/
def ended (h : Halo T) (received : Array T) : Halo T where
  link := h.link.begun.landed
  received := received

lemma Ready.ended {b : ℕ} {sources : List (ℕ × ℕ)} {h : Halo T} (ready : h.Ready b sources)
    {received : Array T} (size : received.size = b * sources.length) :
    (h.ended received).Ready b sources where
  blockSize := ready.blockSize
  idle := rfl
  supply := ready.supply
  size := size

variable {b : ℕ} {sources : List (ℕ × ℕ)} {h : Halo T}

/-- Beginning an exchange publishes the vector. -/
lemma begin_on (ready : h.Ready b sources) (x : Array T) (offset : ℕ) :
    (begin x offset : Collective T R (Halo T) Ticket).on h =
      .request (.publish { values := x, offset }) fun _ => .done (.ok h.ticket, h.begun) := by
  rw [begin, Collective.on_focus, Link.begin_on ready.idle ready.supply]
  rfl

/-- Finishing an exchange reads the blocks between two barriers. -/
lemma finish_on (ready : h.Ready b sources) :
    (finish h.ticket : Collective T R (Halo T) Unit).on h.begun =
      .request .barrier fun _ => Link.collected b sources h.received >>= fun s =>
        .request .barrier fun _ => .done (s.1, h.ended s.2) := by
  have hout : h.begun.link.flight.pending = some h.ticket.number := rfl
  have hblock : h.begun.link.blockSize = b := ready.blockSize
  have hsupply : h.begun.link.supply = .remote sources := ready.supply
  rw [finish, Collective.on_focus, Link.finish_on hout hsupply, hblock]
  simp only [Program.request_bind, Program.bind_bind]
  rfl

/-! ## All ranks together -/

/-- An exchange of all ranks ends for every rank, for some perhaps with the failure that a block
cannot be read. What a rank does with its result, and what it does in between, is up to the rank. -/
lemma leads_delivery {n : ℕ} {world : World T R} (sized : world.Sized n)
    (halo : ℕ → Halo T) (sources : ℕ → List (ℕ × ℕ)) (x : ℕ → Array T) (offset : ℕ → ℕ)
    (ready : ∀ r < n, (halo r).Ready b (sources r))
    (owners : ∀ r < n, ∀ s ∈ sources r, s.1 < n)
    {P : ℕ → Program T R α} {B : ℕ → Except Error Ticket × Halo T → Program T R α}
    {K : ℕ → Except Error Unit × Halo T → Program T R α}
    (hP : ∀ r < n, P r = (begin (x r) (offset r)).on (halo r) >>= B r)
    (hB : ∀ r < n, B r (.ok (halo r).ticket, (halo r).begun) =
      (finish (halo r).ticket).on (halo r).begun >>= K r) :
    ∃ (result : ℕ → Except Error Unit) (received : ℕ → Array T),
      (∀ r < n, Link.Delivered b (fun q => some { values := x q, offset := offset q }) (sources r)
          (halo r).received (result r) (received r) ∧
        ∀ e, result r = .error e → ∃ s ∈ sources r,
          Link.Missing b (some { values := x s.1, offset := offset s.1 }) s.2 e) ∧
      Leads n P world (fun r => K r (result r, (halo r).ended (received r)))
        (world.withPublished n fun r => { values := x r, offset := offset r }) := by
  set vectors : ℕ → Published T := fun r => { values := x r, offset := offset r } with hvectors
  have hcollected := fun r => Link.reading_collected (b := b) (world.withPublished n vectors)
    (sources r) (halo r).received
  choose result received hreading hdelivered hmissing using hcollected
  have hshape : ∀ r < n, P r = .request (.publish (vectors r)) fun _ => .request .barrier fun _ =>
      Link.collected b (sources r) (halo r).received >>= fun s =>
        .request .barrier fun _ => K r (s.1, (halo r).ended s.2) := by
    intro r hr
    rw [hP r hr, begin_on (ready r hr), Program.request_bind]
    simp only [Program.done_bind, hB r hr, finish_on (ready r hr), Program.request_bind,
      Program.bind_bind]
    rfl
  refine ⟨result, received, fun r hr => ⟨?_, fun e he => ?_⟩, ?_⟩
  · refine (hdelivered r).congr fun s hs => ?_
    exact (getD_withPublished (owners r hr s hs) world vectors).symm
  · obtain ⟨s, hs, missing⟩ := hmissing r (ready r hr).size e he
    exact ⟨s, hs, getD_withPublished (owners r hr s hs) world vectors ▸ missing⟩
  · refine ((leads_publish sized vectors hshape fun _ _ => trivial).trans
      (leads_pass fun _ _ => rfl)).trans ?_
    exact leads_read (fun _ _ => rfl) fun r _ => hreading r

end Halo

end DomainDecomposition
