import DomainDecomposition.Proofs.Halo.Single
import DomainDecomposition.Proofs.Halo.Tickets

/-!
# Calls on the link of a single process

The link of a single process is begun and finished in any order: with any vectors and offsets, also
while an exchange is in flight, with any tickets, and with receive buffers of any length. What is in
flight after such a history is read off its events (`inFlight`). All exchanges share one staging
buffer, which a beginning that fails may have overwritten in part. Still every call is `Answered` as
the history before it says, and a finished exchange delivers the vector that it was begun with. Only
where the end of a listed block is no machine word the program stops in the middle of a beginning,
with the ticket out.

* `Half`, `Event`: a call, and what has come of it,
* `Event.Answered`: the answer that is due when an exchange is in flight, or none,
* `Staged`: what a history leaves in the link,
* `Staged.perform`: one call,
* `performAll_answered`: all calls,
* `farHalves_stop`: a beginning that stops.
-/

namespace DomainDecomposition.Link

open Outcome

variable {T R : Type}

/-! ## Histories -/

/-- A call of one half of an exchange, with any arguments. -/
inductive Half (T : Type) where
  | begin (x : Array T) (offset : ℕ)
  | finish (ticket : Ticket) (buffer : Array T)

/-- What has come of a call. Finishing leaves `received` in the receive buffer. -/
inductive Event (T : Type) where
  | begun (x : Array T) (offset : ℕ) (result : Except Error Ticket)
  | finished (ticket : Ticket) (buffer : Array T) (result : Except Error Unit) (received : Array T)

/-- A beginning computes no place that is no machine word. -/
def Half.Counted (b : ℕ) (blocks : List ℕ) : Half T → Prop
  | begin _ offset => DomainDecomposition.Counted b offset blocks
  | finish _ _ => True

/-- Carry out one call. -/
def Half.perform (l : Link T) : Half T → Program T R (Event T × Link T)
  | begin x offset => do
    let (result, l) ← (Link.begin x offset).on l
    return (.begun x offset result, l)
  | finish ticket buffer => do
    let (result, l, received) ← (Link.finish ticket).on (l, buffer)
    return (.finished ticket buffer result received, l)

/-- Carry out one call after the other. -/
def performAll (l : Link T) : List (Half T) → Program T R (List (Event T) × Link T)
  | [] => return ([], l)
  | half :: halves => do
    let (event, l) ← half.perform l
    let (events, l) ← performAll l halves
    return (event :: events, l)

/-- An exchange that has been begun: its ticket, and the vector as it was. -/
structure Sent (T : Type) where
  ticket : Ticket
  x : Array T
  offset : ℕ

namespace Event

/-- The call that an event has come of. -/
def half : Event T → Half T
  | begun x offset _ => .begin x offset
  | finished ticket buffer _ _ => .finish ticket buffer

/-- The ticket that is handed out. -/
def issued : Event T → Option Ticket
  | begun _ _ (.ok ticket) => some ticket
  | _ => none

/-- What is in flight after an event, when it was `flying` before. Only the ticket of the exchange
in flight ends it, and it does so whatever else is wrong. -/
def next (flying : Option (Sent T)) : Event T → Option (Sent T)
  | begun x offset (.ok ticket) => some ⟨ticket, x, offset⟩
  | begun _ _ (.error _) => flying
  | finished ticket _ _ _ => flying.filter (·.ticket ≠ ticket)

/-- The answer that is due when `flying` is in flight.

* An exchange begins when none is in flight and the vector holds all listed blocks.
* The ticket of the exchange in flight fills the receive buffer with the blocks of the vector that
  the exchange was begun with. A buffer of another length is left alone.
* Any other ticket is refused, and the buffer is left alone. -/
def Answered (b : ℕ) (blocks : List ℕ) (flying : Option (Sent T)) : Event T → Prop
  | begun x offset result =>
    ((∃ ticket, result = .ok ticket) ↔
      flying = none ∧ ∀ g ∈ blocks, offset ≤ g ∧ (g - offset + 1) * b ≤ x.size) ∧
    ∀ e, result = .error e → ∃ fault, e = .exchange fault
  | finished ticket buffer result received =>
    (∀ sent, flying = some sent → sent.ticket = ticket → buffer.size = b * blocks.length →
      result = .ok () ∧ received.size = b * blocks.length ∧ ∀ c < blocks.length,
        Span.chunk b received c = Span.chunk b sent.x (blocks.getD c 0 - sent.offset)) ∧
    (∀ sent, flying = some sent → sent.ticket = ticket → buffer.size ≠ b * blocks.length →
      result = .error (.dimensionMismatch (b * blocks.length) buffer.size) ∧ received = buffer) ∧
    ((∀ sent, flying = some sent → sent.ticket ≠ ticket) →
      (∃ fault, result = .error (.exchange fault)) ∧ received = buffer)

lemma next_finished_self (sent : Sent T) (buffer : Array T) (result : Except Error Unit)
    (received : Array T) : next (some sent) (finished sent.ticket buffer result received) = none := by
  simp [next]

lemma next_finished_of_ne {flying : Option (Sent T)} {t : Ticket}
    (apart : ∀ sent, flying = some sent → sent.ticket ≠ t) (buffer : Array T)
    (result : Except Error Unit) (received : Array T) :
    next flying (finished t buffer result received) = flying := by
  cases flying with
  | none => rfl
  | some sent => simp [next, apart sent rfl]

end Event

/-- What is in flight after a history. -/
def inFlight (past : List (Event T)) : Option (Sent T) :=
  past.foldl Event.next none

/-- The tickets that a history has handed out. -/
def issued (past : List (Event T)) : List Ticket :=
  past.filterMap Event.issued

lemma inFlight_concat (past : List (Event T)) (event : Event T) :
    inFlight (past ++ [event]) = event.next (inFlight past) := by
  rw [inFlight, List.foldl_append]
  rfl

lemma issued_concat (past : List (Event T)) (event : Event T) :
    issued (past ++ [event]) = issued past ++ event.issued.toList := by
  rw [issued, List.filterMap_append]
  cases h : event.issued <;> simp [issued, h]

/-! ## One call -/

/-- What a history leaves in the link: while an exchange is in flight, the staging buffer holds the
blocks of the vector that it was begun with. -/
structure Staged (b : ℕ) (blocks : List ℕ) (past : List (Event T)) (l : Link T) : Prop where
  blockSize : l.blockSize = b
  pending : l.flight.pending = (inFlight past).map (·.ticket.number)
  supply : ∃ staging, l.supply = .staged blocks staging ∧ staging.size = b * blocks.length ∧
    ∀ sent, inFlight past = some sent → ownBlocks b sent.offset sent.x blocks = .ok staging
  below : ∀ t ∈ issued past, t.number < l.flight.nextNumber
  nodup : (issued past).Nodup

/-- A new link. -/
lemma Staged.of_single [Zero T] {b : ℕ} {blocks : List ℕ} {l : Link T}
    (made : (Table.single blocks).link b = .ok l) : l.Staged b blocks [] := by
  unfold Table.single Block.allocate at made
  simp only [pure_eq, bind_eq_ok] at made
  obtain ⟨staging, ⟨-, -, hstaging⟩, hl⟩ := made
  obtain rfl := Except.ok.inj hl
  obtain rfl := Except.ok.inj hstaging
  exact {
    blockSize := rfl
    pending := rfl
    supply := ⟨_, rfl, Array.size_replicate, nofun⟩
    below := fun t ht => absurd ht List.not_mem_nil
    nodup := List.nodup_nil }

section Perform

variable {b : ℕ} {blocks : List ℕ} {past : List (Event T)} {l l' : Link T} {event : Event T}

/-- An event that hands out no ticket. -/
lemma Staged.silent (staged : l.Staged b blocks past) (silent : event.issued = none)
    (blockSize : l'.blockSize = l.blockSize)
    (number : l.flight.nextNumber ≤ l'.flight.nextNumber)
    (pending : l'.flight.pending = (event.next (inFlight past)).map (·.ticket.number))
    (supply : ∃ staging, l'.supply = .staged blocks staging ∧ staging.size = b * blocks.length ∧
      ∀ sent, event.next (inFlight past) = some sent →
        ownBlocks b sent.offset sent.x blocks = .ok staging) :
    l'.Staged b blocks (past ++ [event]) where
  blockSize := blockSize.trans staged.blockSize
  pending := by rw [inFlight_concat, pending]
  supply := by rwa [inFlight_concat]
  below t ht := by
    rw [issued_concat, silent, Option.toList_none, List.append_nil] at ht
    exact (staged.below t ht).trans_le number
  nodup := by
    rw [issued_concat, silent, Option.toList_none, List.append_nil]
    exact staged.nodup

/-- An event after which the link is as before. -/
lemma Staged.unchanged (staged : l.Staged b blocks past) (silent : event.issued = none)
    (same : event.next (inFlight past) = inFlight past) : l.Staged b blocks (past ++ [event]) :=
  staged.silent silent rfl le_rfl (by rw [same, staged.pending]) (by rw [same]; exact staged.supply)

/-- An exchange has begun: its ticket is a new one, and its blocks have been staged. -/
lemma Staged.begun (staged : l.Staged b blocks past) {x : Array T} {offset : ℕ} {staging : Array T}
    (size : staging.size = b * blocks.length) (own : ownBlocks b offset x blocks = .ok staging) :
    Link.Staged b blocks (past ++ [.begun x offset (.ok l.ticket)])
      { l.begun with supply := .staged blocks staging } := by
  have flying : inFlight (past ++ [.begun x offset (.ok l.ticket)]) = some ⟨l.ticket, x, offset⟩ :=
    inFlight_concat past _
  have handed : issued (past ++ [.begun x offset (.ok l.ticket)]) = issued past ++ [l.ticket] :=
    issued_concat past _
  have fresh : l.ticket ∉ issued past := fun h => Nat.lt_irrefl _ (staged.below _ h)
  refine ⟨staged.blockSize, by rw [flying]; rfl, ⟨staging, rfl, size, ?_⟩, ?_, ?_⟩
  · rw [flying]
    rintro _ ⟨⟩
    exact own
  · rw [handed]
    intro t ht
    rcases List.mem_append.mp ht with ht | ht
    · exact Nat.lt_succ_of_lt (staged.below t ht)
    · obtain rfl := List.mem_singleton.mp ht
      exact Nat.lt_succ_self _
  · rw [handed]
    exact staged.nodup.append (List.nodup_singleton _) (List.disjoint_singleton.mpr fresh)

/-- A block is missing: what has been staged before it belongs to no exchange. -/
lemma Staged.missed (staged : l.Staged b blocks past) (idle : inFlight past = none)
    (x : Array T) (offset : ℕ) (e : Error) {staging : Array T}
    (size : staging.size = b * blocks.length) :
    Link.Staged b blocks (past ++ [.begun x offset (.error e)])
      { l.begun.landed with supply := .staged blocks staging } := by
  refine staged.silent rfl rfl (Nat.le_succ _) ?_ ⟨staging, rfl, size, ?_⟩
  · rw [idle]
    rfl
  · rw [idle]
    nofun

/-- Beginning an exchange. -/
lemma Staged.begin (staged : l.Staged b blocks past) (x : Array T) (offset : ℕ)
    (counted : Counted b offset blocks) :
    ∃ result l', (Link.begin x offset : Collective T R (Link T) Ticket).on l = .done (result, l') ∧
      (Event.begun x offset result).Answered b blocks (inFlight past) ∧
      l'.Staged b blocks (past ++ [.begun x offset result]) := by
  obtain rfl := staged.blockSize
  obtain ⟨staging, supply, size, -⟩ := staged.supply
  have pending := staged.pending
  cases hflying : inFlight past with
  | some sent =>
    rw [hflying, Option.map_some] at pending
    refine ⟨_, l, begin_on_busy pending x offset, ⟨?_, ?_⟩, staged.unchanged rfl rfl⟩
    · exact iff_of_false (fun ⟨_, h⟩ => nomatch h) fun h => nomatch h.1
    · rintro _ ⟨⟩
      exact ⟨_, rfl⟩
  | none =>
    rw [hflying, Option.map_none] at pending
    obtain ⟨staging', run, size', own_eq⟩ := stage_spec x offset blocks size
    cases hown : ownBlocks l.blockSize offset x blocks with
    | error e =>
      obtain ⟨fault, rfl⟩ := exists_fault_of_ownBlocks hown fun g member behind =>
        .inr (counted g member behind)
      rw [hown] at run
      refine ⟨.error (.exchange fault), _, begin_on_missing pending supply run, ⟨?_, ?_⟩,
        staged.missed hflying x offset _ size'⟩
      · refine iff_of_false (fun ⟨_, h⟩ => nomatch h) fun ⟨_, stored⟩ => ?_
        obtain ⟨own, found, -⟩ := ownBlocks_spec stored
        cases hown.symm.trans found
      · rintro _ ⟨⟩
        exact ⟨fault, rfl⟩
    | ok own =>
      rw [hown] at run
      obtain rfl := own_eq own hown
      refine ⟨.ok l.ticket, _, begin_on_staged pending supply run, ⟨?_, nofun⟩,
        staged.begun size' hown⟩
      exact iff_of_true ⟨_, rfl⟩ ⟨rfl, stored_of_ownBlocks hown⟩

/-- The exchange in flight is over. -/
lemma Staged.landed (staged : l.Staged b blocks past) {sent : Sent T}
    (flying : inFlight past = some sent) (buffer : Array T) (result : Except Error Unit)
    (received : Array T) :
    l.landed.Staged b blocks (past ++ [.finished sent.ticket buffer result received]) := by
  have ended := Event.next_finished_self sent buffer result received
  obtain ⟨staging, supply, size, -⟩ := staged.supply
  refine staged.silent rfl rfl le_rfl ?_ ⟨staging, supply, size, ?_⟩
  · rw [flying, ended]
    rfl
  · rw [flying, ended]
    nofun

/-- Finishing an exchange. -/
lemma Staged.finish (staged : l.Staged b blocks past) (t : Ticket) (buffer : Array T) :
    ∃ result l' received, (Link.finish t : Collective T R (Link T × Array T) Unit).on (l, buffer) =
        .done (result, l', received) ∧
      (Event.finished t buffer result received).Answered b blocks (inFlight past) ∧
      l'.Staged b blocks (past ++ [.finished t buffer result received]) := by
  obtain rfl := staged.blockSize
  obtain ⟨staging, supply, size, holds⟩ := staged.supply
  have pending := staged.pending
  by_cases hout : ∃ sent, inFlight past = some sent ∧ sent.ticket = t
  · obtain ⟨sent, hflying, rfl⟩ := hout
    have out : l.flight.pending = some sent.ticket.number := by rw [pending, hflying]; rfl
    have mine : ∀ sent', inFlight past = some sent' → sent' = sent := fun sent' h =>
      Option.some.inj (h.symm.trans hflying)
    by_cases hsize : buffer.size = l.blockSize * blocks.length
    · refine ⟨.ok (), l.landed, staging, finish_on_staged out supply (size.trans hsize.symm), ?_,
        staged.landed hflying ..⟩
      refine ⟨fun sent' h _ _ => ⟨rfl, size, ?_⟩, fun _ _ _ h => absurd hsize h,
        fun h => absurd rfl (h sent hflying)⟩
      obtain rfl := mine sent' h
      have found := holds sent' h
      obtain ⟨own, found', -, slots⟩ := ownBlocks_spec (stored_of_ownBlocks found)
      obtain rfl := Except.ok.inj (found.symm.trans found')
      exact slots
    · have mismatch : staging.size ≠ buffer.size := fun h => hsize (h.symm.trans size)
      refine ⟨_, l.landed, buffer, finish_on_mismatch out supply mismatch, ?_,
        staged.landed hflying ..⟩
      refine ⟨fun _ _ _ h => absurd h hsize, fun _ _ _ _ => ⟨by rw [size], rfl⟩,
        fun h => absurd rfl (h sent hflying)⟩
  · have foreign : l.flight.pending ≠ some t.number := by
      intro h
      rw [pending, Option.map_eq_some_iff] at h
      obtain ⟨sent, hflying, hnumber⟩ := h
      exact hout ⟨sent, hflying, congrArg Ticket.mk hnumber⟩
    obtain ⟨fault, run⟩ := finish_on_foreign foreign supply buffer
    refine ⟨_, l, buffer, run, ⟨fun sent h ht => absurd ⟨sent, h, ht⟩ hout,
      fun sent h ht => absurd ⟨sent, h, ht⟩ hout, fun _ => ⟨⟨fault, rfl⟩, rfl⟩⟩, ?_⟩
    exact staged.unchanged rfl (Event.next_finished_of_ne (fun sent h ht => hout ⟨sent, h, ht⟩) ..)

/-- Any call. -/
lemma Staged.perform (staged : l.Staged b blocks past) (half : Half T)
    (counted : half.Counted b blocks) :
    ∃ event l', (half.perform l : Program T R (Event T × Link T)) = .done (event, l') ∧
      event.half = half ∧ event.Answered b blocks (inFlight past) ∧
      l'.Staged b blocks (past ++ [event]) := by
  cases half with
  | begin x offset =>
    obtain ⟨result, l', run, answered, staged'⟩ := staged.begin x offset counted
    refine ⟨_, l', ?_, rfl, answered, staged'⟩
    rw [Half.perform, run]
    rfl
  | finish ticket buffer =>
    obtain ⟨result, l', received, run, answered, staged'⟩ := staged.finish ticket buffer
    refine ⟨_, l', ?_, rfl, answered, staged'⟩
    rw [Half.perform, run]
    rfl

end Perform

/-! ## All calls -/

section PerformAll

variable {b : ℕ} {blocks : List ℕ} {past : List (Event T)} {l : Link T}

/-- Every call is answered as the history before it says. -/
lemma Staged.performAll (staged : l.Staged b blocks past) (halves : List (Half T))
    (counted : ∀ half ∈ halves, half.Counted b blocks) :
    ∃ events l', (Link.performAll l halves : Program T R (List (Event T) × Link T)) =
        .done (events, l') ∧
      events.map Event.half = halves ∧
      (∀ before event after, events = before ++ event :: after →
        event.Answered b blocks (inFlight (past ++ before))) ∧
      l'.Staged b blocks (past ++ events) := by
  induction halves generalizing past l with
  | nil =>
    refine ⟨[], l, rfl, rfl, fun before event after h => ?_, by rwa [List.append_nil]⟩
    simp at h
  | cons half halves ih =>
    obtain ⟨here, later⟩ := List.forall_mem_cons.mp counted
    obtain ⟨event, l₁, first, hevent, answered, staged₁⟩ := staged.perform (R := R) half here
    obtain ⟨events, l', rest, hevents, all, staged'⟩ := ih staged₁ later
    refine ⟨event :: events, l', ?_, ?_, fun before event' after h => ?_, ?_⟩
    · rw [Link.performAll, first, Program.done_bind]
      show Link.performAll l₁ halves >>= _ = _
      rw [rest]
      rfl
    · rw [List.map_cons, hevent, hevents]
    · cases before with
      | nil =>
        obtain ⟨rfl, -⟩ := List.cons.inj h
        rwa [List.append_nil]
      | cons _ before =>
        obtain ⟨rfl, hrest⟩ := List.cons.inj h
        have later := all before event' after hrest
        rwa [List.append_assoc] at later
    · rwa [List.append_assoc] at staged'

/-- In every history of a link of a single process, every call gets the answer that is due: an
exchange begins exactly when none is in flight and the vector holds all listed blocks, and finishing
it delivers the vector that it was begun with, whatever calls were refused in between. No ticket is
handed out twice, and the books say what is in flight. The ends of the listed blocks must be machine
words. -/
theorem performAll_answered [Zero T] (made : (Table.single blocks).link b = .ok l)
    (halves : List (Half T)) (counted : ∀ half ∈ halves, half.Counted b blocks) :
    ∃ events l', (performAll l halves : Program T R (List (Event T) × Link T)) =
        .done (events, l') ∧
      events.map Event.half = halves ∧
      (∀ before event after, events = before ++ event :: after →
        event.Answered b blocks (inFlight before)) ∧
      (issued events).Nodup ∧ l'.flight.pending = (inFlight events).map (·.ticket.number) := by
  obtain ⟨events, l', run, hevents, answered, staged⟩ :=
    (Staged.of_single made).performAll (R := R) halves counted
  exact ⟨events, l', run, hevents, answered, staged.nodup, staged.pending⟩

/-- A beginning that lacks block 2, one that holds it, and one too many. Then the ticket of nobody,
the one that is out, an exchange that ends at a buffer of a wrong length, and its ticket once more.
-/
def mixedHalves : List (Half ℕ) :=
  [.begin #[5, 6] 0, .begin #[5, 6, 7] 0, .begin #[1, 2, 3] 0, .finish ⟨0⟩ #[9, 9],
    .finish ⟨1⟩ #[9, 9], .begin #[8, 9, 3] 0, .finish ⟨2⟩ #[4], .finish ⟨2⟩ #[4, 4]]

/-- What has come of them on a link for the blocks 2 and 0. -/
def mixedEvents : List (Event ℕ) :=
  [.begun #[5, 6] 0 (.error (.exchange (.blockNotStored 2 0 2))),
    .begun #[5, 6, 7] 0 (.ok ⟨1⟩),
    .begun #[1, 2, 3] 0 (.error (.exchange (.stillInFlight 1))),
    .finished ⟨0⟩ #[9, 9] (.error (.exchange (.foreignTicket 0 1))) #[9, 9],
    .finished ⟨1⟩ #[9, 9] (.ok ()) #[7, 5],
    .begun #[8, 9, 3] 0 (.ok ⟨2⟩),
    .finished ⟨2⟩ #[4] (.error (.dimensionMismatch 2 1)) #[4],
    .finished ⟨2⟩ #[4, 4] (.error (.exchange (.nothingInFlight 2))) #[4, 4]]

theorem mixedHalves_answered :
    (∀ half ∈ mixedHalves, half.Counted 1 [2, 0]) ∧
    (performAll ⟨1, .idle, .staged [2, 0] #[0, 0]⟩ mixedHalves :
        Program ℕ ℕ (List (Event ℕ) × Link ℕ)) =
      .done (mixedEvents, ⟨1, ⟨3, none⟩, .staged [2, 0] #[3, 8]⟩) ∧
    (∀ before event after, mixedEvents = before ++ event :: after →
      event.Answered 1 [2, 0] (inFlight before)) ∧
    issued mixedEvents = [⟨1⟩, ⟨2⟩] ∧ (issued mixedEvents).Nodup := by
  have made : (Table.single [2, 0]).link 1 =
      .ok (⟨1, .idle, .staged [2, 0] #[0, 0]⟩ : Link ℕ) := rfl
  have zero : Counted 1 0 [2, 0] := fun g member _ => by
    have small : ∀ g ∈ [2, 0], (g - 0 + 1) * 1 < Capacity.words := by decide
    exact small g member
  have counted : ∀ half ∈ mixedHalves, half.Counted 1 [2, 0] := by
    simp [mixedHalves, Half.Counted, zero]
  obtain ⟨events, l', run, -, answered, nodup, -⟩ :=
    performAll_answered (R := ℕ) made mixedHalves counted
  have evaluated : (performAll ⟨1, .idle, .staged [2, 0] #[0, 0]⟩ mixedHalves :
      Program ℕ ℕ (List (Event ℕ) × Link ℕ)) =
    .done (mixedEvents, ⟨1, ⟨3, none⟩, .staged [2, 0] #[3, 8]⟩) := rfl
  obtain rfl : mixedEvents = events :=
    congrArg Prod.fst (Program.done.inj (evaluated.symm.trans run))
  exact ⟨counted, evaluated, answered, rfl, nodup⟩

/-- The last machine word. -/
def farBlock : ℕ :=
  Capacity.words - 1

/-- A vector that lacks this block, and one that holds it. -/
def farHalves : List (Half ℕ) :=
  [.begin #[5] 0, .begin #[5] farBlock]

/-- What has come of the second call. -/
def farEvent : Event ℕ :=
  .begun #[5] farBlock (.error (.exchange (.stillInFlight 0)))

/-- Where the end of a block is no machine word, a beginning stops the program with the ticket out.
None has succeeded before the second one, and its vector holds all listed blocks, but it is refused.
-/
theorem farHalves_stop :
    (Table.single [farBlock]).link 1 = .ok (⟨1, .idle, .staged [farBlock] #[0]⟩ : Link ℕ) ∧
    (performAll ⟨1, .idle, .staged [farBlock] #[0]⟩ farHalves :
        Program ℕ ℕ (List (Event ℕ) × Link ℕ)) =
      .done ([.begun #[5] 0 (.error .tooLarge), farEvent],
        ⟨1, ⟨1, some 0⟩, .staged [farBlock] #[0]⟩) ∧
    inFlight [(.begun #[5] 0 (.error .tooLarge) : Event ℕ)] = none ∧
    ¬ farEvent.Answered 1 [farBlock] none := by
  refine ⟨rfl, rfl, rfl, fun answered => ?_⟩
  have stored : ∀ g ∈ [farBlock],
      farBlock ≤ g ∧ (g - farBlock + 1) * 1 ≤ (#[5] : Array ℕ).size := by
    simp
  obtain ⟨ticket, begun⟩ := answered.1.mpr ⟨rfl, stored⟩
  cases begun

end PerformAll

end DomainDecomposition.Link
