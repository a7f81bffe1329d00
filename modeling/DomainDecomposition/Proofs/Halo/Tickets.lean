import DomainDecomposition.Proofs.Halo.Link
import DomainDecomposition.Proofs.Rank.Program

/-!
# Tickets of several links

Every link numbers its tickets from zero, and a ticket is nothing but its number. Several links, on
a single process or among ranks, are begun and finished in any order; `Reached` says which links and
which tickets this may lead to, whatever the other ranks do.

A link never reuses a number, and the number in flight is that of the ticket it has handed out last.
So of its own tickets it takes back the one in flight only. But it also takes back a ticket of
another link, when that has the same number.

* `begin_ensures`, `finish_ensures_taken`, `finish_ensures_refused`: the outcomes of the two halves,
* `Numbered`: what the books of all links have in common,
* `Reached.finish_by_number`: which tickets a link takes back.
-/

namespace DomainDecomposition.Link

open World

variable {T R : Type}

/-! ## Outcomes of the two halves -/

/-- The outcome of `begin`: nothing changes while an exchange is in flight. Otherwise the next
number is used up, and a ticket with this number is out unless the beginning fails. It stays out
where the program stops. -/
inductive Begun (l : Link T) : Except Error Ticket × Link T → Prop
  | busy {m : ℕ} (pending : l.flight.pending = some m) :
      Begun l (.error (.exchange (.stillInFlight m)), l)
  | out {l' : Link T} (idle : l.flight.pending = none) (flight : l'.flight = l.begun.flight) :
      Begun l (.ok l.ticket, l')
  | failed {l' : Link T} {e : Error} (idle : l.flight.pending = none) (aware : e ≠ .tooLarge)
      (flight : l'.flight = l.begun.landed.flight) : Begun l (.error e, l')
  | stopped {l' : Link T} (idle : l.flight.pending = none) (flight : l'.flight = l.begun.flight) :
      Begun l (.error .tooLarge, l')

lemma begin_ensures (l : Link T) (x : Array T) (offset : ℕ) :
    ((begin x offset : Collective T R (Link T) Ticket).on l).Ensures (Begun l) := by
  cases hpending : l.flight.pending with
  | some m =>
    rw [begin_on_busy hpending]
    exact .busy hpending
  | none =>
    cases hsupply : l.supply with
    | remote sources =>
      rw [begin_on hpending hsupply]
      exact fun _ => .out hpending rfl
    | staged blocks buffer =>
      have hflight : (onFlight Flight.begin).on l = (.ok l.ticket, l.begun) := by
        simp only [onFlight, Update.on_focus, Flight.begin, Update.on_ofFunction, hpending]
        rfl
      have hsupply' : l.begun.supply = .staged blocks buffer := hsupply
      rw [begin, Collective.on_bind, Collective.on_ofUpdate, hflight, Program.done_bind]
      simp only [Collective.on_bind, Collective.on_get, Program.done_bind, hsupply']
      rcases (stage l.begun.blockSize offset x blocks).on buffer with ⟨e | ⟨⟩, buffer'⟩
      · by_cases stop : e = .tooLarge
        · subst stop
          exact .stopped hpending rfl
        · exact .failed hpending stop (if_neg stop)
      · exact .out hpending rfl

section Finish

variable {l : Link T} {t : Ticket}

/-- A link takes back a ticket with the number in flight, whatever becomes of the receive buffer. -/
lemma finish_ensures_taken (out : l.flight.pending = some t.number) (buffer : Array T) :
    ((finish t : Collective T R (Link T × Array T) Unit).on (l, buffer)).Ensures
      fun s => s.2.1 = l.landed := by
  cases hsupply : l.supply with
  | remote sources =>
    rw [finish_on out hsupply]
    exact fun _ => Program.Ensures.bind (Program.ensures_true _) fun _ _ _ => rfl
  | staged blocks staging =>
    rw [finish, Collective.on_bind, Collective.on_get, Program.done_bind]
    simp only [hsupply, Collective.on_bind, Collective.on_ofUpdate, Program.done_bind,
      settle_on out]
    rcases checkLength staging.size buffer.size with e | ⟨⟩
    · rfl
    · rfl

lemma settle_of_foreign (foreign : l.flight.pending ≠ some t.number) (length : ℕ)
    (buffer : Array T) : ∃ fault, (settle t length).on (l, buffer) =
      (.error (.exchange fault), l, buffer) := by
  have hflight : ∃ fault, (onFlight (Flight.finish t)).on l = (.error (.exchange fault), l) := by
    cases hpending : l.flight.pending with
    | none =>
      refine ⟨.nothingInFlight t.number, ?_⟩
      simp only [onFlight, Update.on_focus, Flight.finish, Update.on_ofFunction, hpending]
    | some m =>
      refine ⟨.foreignTicket t.number m, ?_⟩
      have hnumber : m ≠ t.number := fun h => foreign (by rw [hpending, h])
      simp only [onFlight, Update.on_focus, Flight.finish, Update.on_ofFunction, hpending,
        if_neg hnumber]
  obtain ⟨fault, hfault⟩ := hflight
  refine ⟨fault, ?_⟩
  rw [settle, Update.on_bind, Update.on_onFst, hfault]

/-- The link of a single process refuses a ticket that is not out. -/
lemma finish_on_foreign (foreign : l.flight.pending ≠ some t.number) {blocks : List ℕ}
    {staging : Array T} (supply : l.supply = .staged blocks staging) (buffer : Array T) :
    ∃ fault, (finish t : Collective T R (Link T × Array T) Unit).on (l, buffer) =
      .done (.error (.exchange fault), l, buffer) := by
  obtain ⟨fault, hfault⟩ := settle_of_foreign foreign staging.size buffer
  refine ⟨fault, ?_⟩
  rw [finish, Collective.on_bind, Collective.on_get, Program.done_bind]
  simp only [supply, Collective.on_bind, Collective.on_ofUpdate, Program.done_bind, hfault]

/-- A link refuses any other ticket, and nothing changes. -/
lemma finish_ensures_refused (foreign : l.flight.pending ≠ some t.number) (buffer : Array T) :
    ((finish t : Collective T R (Link T × Array T) Unit).on (l, buffer)).Ensures
      fun s => (∃ fault, s.1 = .error (.exchange fault)) ∧ s.2 = (l, buffer) := by
  cases hsupply : l.supply with
  | remote sources =>
    obtain ⟨fault, hfault⟩ := settle_of_foreign foreign (l.blockSize * sources.length) buffer
    rw [finish, Collective.on_bind, Collective.on_get, Program.done_bind]
    simp only [hsupply, Collective.on_bind, Collective.on_attempt, Collective.on_ofUpdate, hfault,
      Program.done_bind]
    exact fun _ _ => ⟨⟨fault, rfl⟩, rfl⟩
  | staged blocks staging =>
    obtain ⟨fault, run⟩ := finish_on_foreign (R := R) foreign hsupply buffer
    rw [run]
    exact ⟨⟨fault, rfl⟩, rfl⟩

end Finish

/-! ## Tickets that have been handed out -/

section Links

variable {ι : Type} [DecidableEq ι]

/-- The links `links`, with the tickets `issued` handed out, the newest first, each with the link
that has handed it out: the links were new, and since then they were begun and finished in some
order, with any tickets, and with any answers from the other ranks. A ticket counts as handed out
when the program has stopped on the way. -/
inductive Reached (R : Type) : (ι → Link T) → List (ι × Ticket) → Prop
  | new {links : ι → Link T} (idle : ∀ c, (links c).flight = .idle) : Reached R links []
  | begun {links : ι → Link T} {issued : List (ι × Ticket)} {c : ι} {x : Array T} {offset : ℕ}
      {ticket : Ticket} {l : Link T} (before : Reached R links issued)
      (outcome : ((begin x offset : Collective T R (Link T) Ticket).on (links c)).Yields
        (.ok ticket, l)) : Reached R (Function.update links c l) ((c, ticket) :: issued)
  | failed {links : ι → Link T} {issued : List (ι × Ticket)} {c : ι} {x : Array T} {offset : ℕ}
      {e : Error} {l : Link T} (before : Reached R links issued)
      (outcome : ((begin x offset : Collective T R (Link T) Ticket).on (links c)).Yields
        (.error e, l)) (aware : e ≠ .tooLarge) : Reached R (Function.update links c l) issued
  | stopped {links : ι → Link T} {issued : List (ι × Ticket)} {c : ι} {x : Array T} {offset : ℕ}
      {l : Link T} (before : Reached R links issued)
      (outcome : ((begin x offset : Collective T R (Link T) Ticket).on (links c)).Yields
        (.error .tooLarge, l)) :
      Reached R (Function.update links c l) ((c, (links c).ticket) :: issued)
  | finished {links : ι → Link T} {issued : List (ι × Ticket)} {c : ι} {ticket : Ticket}
      {buffer buffer' : Array T} {result : Except Error Unit} {l : Link T}
      (before : Reached R links issued)
      (outcome : ((finish ticket : Collective T R (Link T × Array T) Unit).on
        (links c, buffer)).Yields (result, l, buffer')) :
      Reached R (Function.update links c l) issued

/-- The ticket that a link has handed out last. -/
def lastTicket (c : ι) (issued : List (ι × Ticket)) : Option Ticket :=
  (issued.find? fun e => e.1 = c).map Prod.snd

/-- The books of all links: no number is used twice, and the number in flight is that of the last
ticket. -/
structure Numbered (links : ι → Link T) (issued : List (ι × Ticket)) : Prop where
  below : ∀ e ∈ issued, e.2.number < (links e.1).flight.nextNumber
  nodup : issued.Nodup
  last : ∀ c m, (links c).flight.pending = some m → lastTicket c issued = some ⟨m⟩

variable {links : ι → Link T} {issued : List (ι × Ticket)} {c : ι} {l : Link T}

/-- A link may use up numbers and end its exchange. -/
lemma Numbered.of_update (h : Numbered links issued)
    (number : (links c).flight.nextNumber ≤ l.flight.nextNumber)
    (pending : ∀ m, l.flight.pending = some m → (links c).flight.pending = some m) :
    Numbered (Function.update links c l) issued where
  below e he := by
    by_cases hc : e.1 = c
    · rw [hc, Function.update_self]
      exact Nat.lt_of_lt_of_le (hc ▸ h.below e he) number
    · rw [Function.update_of_ne hc]
      exact h.below e he
  nodup := h.nodup
  last c' m hm := by
    by_cases hc : c' = c
    · rw [hc, Function.update_self] at hm
      exact hc ▸ h.last c m (pending m hm)
    · rw [Function.update_of_ne hc] at hm
      exact h.last c' m hm

/-- A link may hand out its next ticket. -/
lemma Numbered.begun (h : Numbered links issued) (flight : l.flight = (links c).begun.flight) :
    Numbered (Function.update links c l) ((c, (links c).ticket) :: issued) where
  below e he := by
    by_cases hc : e.1 = c
    · rw [hc, Function.update_self, flight]
      rcases List.mem_cons.mp he with rfl | he
      · exact Nat.lt_succ_self _
      · exact Nat.lt_succ_of_lt (hc ▸ h.below e he)
    · rw [Function.update_of_ne hc]
      rcases List.mem_cons.mp he with rfl | he
      · exact absurd rfl hc
      · exact h.below e he
  -- the next number of a link is larger than those of all its tickets
  nodup := List.nodup_cons.mpr ⟨fun he => Nat.lt_irrefl _ (h.below _ he), h.nodup⟩
  last c' m hm := by
    by_cases hc : c' = c
    · rw [hc, Function.update_self, flight] at hm
      obtain rfl : (links c).ticket.number = m := Option.some.inj hm
      simp [lastTicket, hc]
    · rw [Function.update_of_ne hc] at hm
      rw [lastTicket, List.find?_cons_of_neg (by simpa using Ne.symm hc)]
      exact h.last c' m hm

/-- The books are kept by every call. -/
lemma Reached.numbered (reached : Reached R links issued) : Numbered links issued := by
  induction reached with
  | new idle =>
    refine ⟨fun e he => absurd he List.not_mem_nil, List.nodup_nil, fun c m hm => ?_⟩
    rw [idle c] at hm
    exact absurd hm (by simp [Flight.idle])
  | begun _ outcome ih =>
    cases (begin_ensures _ _ _).of_yields outcome with
    | out _ flight => exact ih.begun flight
  | stopped _ outcome ih =>
    cases (begin_ensures _ _ _).of_yields outcome with
    | failed _ aware => exact absurd rfl aware
    | stopped _ flight => exact ih.begun flight
  | failed _ outcome aware ih =>
    cases (begin_ensures _ _ _).of_yields outcome with
    | busy => exact ih.of_update le_rfl fun _ => id
    | stopped => exact absurd rfl aware
    | failed _ _ flight =>
      -- the number is used up, though no ticket with it is out
      rw [Link.begun, landed] at flight
      exact ih.of_update (by rw [flight]; exact Nat.le_succ _) fun m hm => by
        rw [flight] at hm
        exact absurd hm (by simp [Flight.abort])
  | @finished links issued c ticket buffer buffer' result l _ outcome ih =>
    by_cases hout : (links c).flight.pending = some ticket.number
    · obtain rfl : l = (links c).landed := (finish_ensures_taken hout buffer).of_yields outcome
      exact ih.of_update le_rfl fun m hm => absurd hm (by simp [landed, Flight.abort])
    · obtain ⟨-, hsame⟩ := (finish_ensures_refused hout buffer).of_yields outcome
      obtain ⟨rfl, -⟩ := Prod.mk.inj hsame
      exact ih.of_update le_rfl fun _ => id

/-- However links have been begun and finished, no link has handed out a number twice, and the
number in flight is that of the last ticket. A link takes back any ticket that has this number,
whichever link has handed it out. It answers any other ticket with an exchange error, and its
exchange stays in flight. -/
theorem Reached.finish_by_number (reached : Reached R links issued) (c : ι) (t : Ticket)
    (buffer : Array T) :
    issued.Nodup ∧
    (∀ m, (links c).flight.pending = some m → lastTicket c issued = some ⟨m⟩) ∧
    ((links c).flight.pending = some t.number →
      ((finish t : Collective T R (Link T × Array T) Unit).on (links c, buffer)).Ensures
        fun s => s.2.1 = (links c).landed) ∧
    ((links c).flight.pending ≠ some t.number →
      ((finish t : Collective T R (Link T × Array T) Unit).on (links c, buffer)).Ensures
        fun s => (∃ fault, s.1 = .error (.exchange fault)) ∧ s.2 = (links c, buffer)) :=
  ⟨reached.numbered.nodup, reached.numbered.last c, fun out => finish_ensures_taken out buffer,
    fun foreign => finish_ensures_refused foreign buffer⟩

end Links

/-! ### Two links on a single process -/

/-- A link for the only block of a single process. -/
def ownLink (flight : Flight) (staging : Array ℕ) : Link ℕ :=
  ⟨1, flight, .staged [0] staging⟩

/-- Two links that have both begun their first exchange, of the vectors `(5)` and `(7)`. -/
def twins : Bool → Link ℕ :=
  Function.update (Function.update (fun _ => ownLink .idle #[0]) false (ownLink ⟨1, some 0⟩ #[5]))
    true (ownLink ⟨1, some 0⟩ #[7])

lemma twins_reached : Reached ℕ twins [(true, ⟨0⟩), (false, ⟨0⟩)] := by
  have hfirst : ((begin #[5] 0 : Collective ℕ ℕ (Link ℕ) Ticket).on (ownLink .idle #[0])).Yields
      (.ok ⟨0⟩, ownLink ⟨1, some 0⟩ #[5]) := rfl
  have hsecond : ((begin #[7] 0 : Collective ℕ ℕ (Link ℕ) Ticket).on (ownLink .idle #[0])).Yields
      (.ok ⟨0⟩, ownLink ⟨1, some 0⟩ #[7]) := rfl
  have hnew : Reached ℕ (fun _ : Bool => ownLink .idle #[0]) [] := .new fun _ => rfl
  exact .begun (c := true) (.begun (c := false) hnew hfirst) hsecond

/-- The first link takes back the ticket of the second one. -/
theorem twins_finish_by_number :
    ((finish ⟨0⟩ : Collective ℕ ℕ (Link ℕ × Array ℕ) Unit).on (twins false, #[0])).Ensures
      fun s => s.2.1 = (twins false).landed :=
  (twins_reached.finish_by_number false ⟨0⟩ #[0]).2.2.1 rfl

/-- The ticket that the second link has handed out completes the exchange of the first one. The
ticket of the first link is then refused. -/
theorem twins_take_foreign_ticket :
    Reached ℕ twins [(true, ⟨0⟩), (false, ⟨0⟩)] ∧
      ((finish ⟨0⟩ : Collective ℕ ℕ (Link ℕ × Array ℕ) Unit).on (twins false, #[0])).Yields
        (.ok (), (twins false).landed, #[5]) ∧
      ((finish ⟨0⟩ : Collective ℕ ℕ (Link ℕ × Array ℕ) Unit).on
        ((twins false).landed, #[0])).Yields
          (.error (.exchange (.nothingInFlight 0)), (twins false).landed, #[0]) :=
  ⟨twins_reached, rfl, rfl⟩

end DomainDecomposition.Link
