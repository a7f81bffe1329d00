import DomainDecomposition.Halo.Link
import DomainDecomposition.Proofs.Chunks
import DomainDecomposition.Proofs.Rank.Alternation

/-!
# One end of an exchange

What a link to other ranks does, whatever the others do. Beginning an exchange publishes the vector.
Finishing it takes back the ticket and reads, between two barriers, the blocks that the owners have
published last. Both barriers are passed even when the receive buffer has a wrong length or a block
is missing.

* `Delivered`: what becomes of a receive buffer, and when the exchange succeeds,
* `reading_collected`: what is read between the two barriers,
* `begin_on`, `begin_on_busy`, `finish_on`: the requests of the two halves,
* `alternates_begin`, `alternates_finish`: in every state of the link, the two halves write and read
  by turns.
-/

namespace DomainDecomposition.Link

open World

variable {T R : Type} {b : ℕ}

/-! ## Blocks of published vectors -/

/-- Block `l` of an owner is part of what the owner has published. -/
def Supplied (b : ℕ) (vector : Option (Published T)) (l : ℕ) : Prop :=
  ∃ v, vector = some v ∧ v.offset ≤ l ∧ (l - v.offset + 1) * b ≤ v.values.size

/-- Block `l` of an owner in what the owner has published. -/
def blockOf (b : ℕ) (vector : Option (Published T)) (l : ℕ) : Array T :=
  vector.elim #[] fun v => Span.chunk b v.values (l - v.offset)

lemma Supplied.size_blockOf {vector : Option (Published T)} {l : ℕ}
    (supplied : Supplied b vector l) : (blockOf b vector l).size = b := by
  obtain ⟨v, rfl, -, hinside⟩ := supplied
  exact Span.size_chunk hinside

/-- Why block `l` of an owner cannot be read, given what the owner has published. -/
inductive Missing (b : ℕ) : Option (Published T) → ℕ → Error → Prop
  | unpublished (owner l : ℕ) : Missing b none l (.exchange (.notPublished owner))
  | unstored {v : Published T} {l : ℕ} (unsupplied : ¬ Supplied b (some v) l) :
      Missing b (some v) l (.exchange (.blockNotStored l v.offset v.values.size))
  /-- The end of the block is no machine word. -/
  | vast {v : Published T} {l : ℕ} (unsupplied : ¬ Supplied b (some v) l) (behind : v.offset ≤ l)
      (vast : Capacity.words ≤ (l - v.offset + 1) * b) : Missing b (some v) l .tooLarge

/-- Where the ends of blocks are machine words, it is the exchange's failure. -/
lemma Missing.exists_fault {vector : Option (Published T)} {l : ℕ} {e : Error}
    (missing : Missing b vector l e)
    (counted : ∀ v, vector = some v → v.offset ≤ l → ¬ Supplied b vector l →
      (l - v.offset + 1) * b < Capacity.words) : ∃ fault, e = .exchange fault := by
  cases missing with
  | unpublished owner => exact ⟨_, rfl⟩
  | unstored => exact ⟨_, rfl⟩
  | vast unsupplied behind vast =>
    exact absurd vast (Nat.not_le.mpr (counted _ rfl behind unsupplied))

lemma Supplied.readBlock_eq {v : Published T} {l : ℕ} (supplied : Supplied b (some v) l) :
    readBlock b v.offset v.values l = .ok (blockOf b (some v) l) := by
  obtain ⟨v', hv, behind, inside⟩ := supplied
  obtain rfl := Option.some.inj hv
  rw [readBlock, if_neg (Nat.not_lt.mpr behind), if_pos (by rwa [Nat.succ_mul] at inside),
    Span.run_chunk inside]
  rfl

lemma readBlock_of_not_supplied {v : Published T} {l : ℕ} (unsupplied : ¬ Supplied b (some v) l) :
    ∃ e, readBlock b v.offset v.values l = .error e ∧ Missing b (some v) l e := by
  unfold readBlock
  dsimp only
  split
  case isTrue before => exact ⟨_, rfl, .unstored unsupplied⟩
  case isFalse behind =>
    rw [Nat.not_lt] at behind
    have outside : ¬ (l - v.offset) * b + b ≤ v.values.size := fun inside =>
      unsupplied ⟨v, rfl, behind, by rwa [Nat.succ_mul]⟩
    rw [if_neg outside]
    refine ⟨_, rfl, ?_⟩
    rcases Capacity.refusal_cases ((l - v.offset) * b + b)
      (.exchange (.blockNotStored l v.offset v.values.size)) with same | ⟨vast, stops⟩
    · rw [same]
      exact .unstored unsupplied
    · rw [stops]
      exact .vast unsupplied behind (by rwa [Nat.succ_mul])

/-! ## Filling the receive buffer -/

/-- Fill one slot of a buffer with a block that another rank has published. -/
def fillSlot (b : ℕ) : (ℕ × ℕ) × ℕ → Collective T R (Array T) Unit
  | ((owner, g), slot) => do
    match ← Collective.ofProgram (Program.ask (.published owner)) with
    | none => throw (.exchange (.notPublished owner))
    | some vector => do
      let block ← readBlock b vector.offset vector.values g
      modify fun buffer => Span.overwrite buffer (slot * b) block

/-- The slots from slot `k` on are filled with blocks of the given vectors, unless one of them is
missing. The slots before are left alone. -/
structure Filled (b : ℕ) (vectors : ℕ → Option (Published T)) (sources : List (ℕ × ℕ)) (k : ℕ)
    (buffer : Array T) (result : Except Error Unit) (buffer' : Array T) : Prop where
  size : buffer'.size = buffer.size
  before : ∀ c < k, Span.chunk b buffer' c = Span.chunk b buffer c
  ok_iff : result = .ok () ↔ ∀ s ∈ sources, Supplied b (vectors s.1) s.2
  slots : result = .ok () → ∀ c s, sources[c]? = some s →
    Span.chunk b buffer' (k + c) = blockOf b (vectors s.1) s.2

section Reading

variable {world : World T R}

lemma reading_fillSlot {s : ℕ × ℕ} (supplied : Supplied b (world.published.getD s.1 none) s.2)
    (slot : ℕ) (buffer : Array T) : reading world ((fillSlot b (s, slot)).on buffer) =
      some (.ok (), Span.overwrite buffer (slot * b)
        (blockOf b (world.published.getD s.1 none) s.2)) := by
  obtain ⟨v, hv, -⟩ := id supplied
  rw [hv] at supplied ⊢
  rw [fillSlot, Collective.on_bind, Collective.on_ofProgram, Program.bind_bind]
  show reading world (Program.request (.published s.1) _) = _
  simp only [reading, hv]
  show reading world ((Collective.on _ buffer) >>= _) = _
  simp only [Collective.on_monadLift, supplied.readBlock_eq, Program.done_bind]
  rfl

lemma reading_fillSlot_of_not_supplied {s : ℕ × ℕ}
    (missing : ¬ Supplied b (world.published.getD s.1 none) s.2) (slot : ℕ) (buffer : Array T) :
    ∃ e, reading world ((fillSlot b (s, slot)).on buffer) = some (.error e, buffer) ∧
      Missing b (world.published.getD s.1 none) s.2 e := by
  rw [fillSlot, Collective.on_bind, Collective.on_ofProgram, Program.bind_bind]
  show ∃ e, reading world (Program.request (.published s.1) _) = _ ∧ _
  cases hv : world.published.getD s.1 none with
  | none => exact ⟨_, by simp only [reading, hv]; rfl, .unpublished s.1 s.2⟩
  | some v =>
    rw [hv] at missing
    obtain ⟨e, unread, reason⟩ := readBlock_of_not_supplied missing
    refine ⟨e, ?_, reason⟩
    simp only [reading, hv]
    show reading world ((Collective.on _ buffer) >>= _) = _
    simp only [Collective.on_monadLift, unread, Program.done_bind]
    rfl

/-- Filling consecutive slots, from slot `k` on. -/
lemma reading_fillSlots (world : World T R) (sources : List (ℕ × ℕ)) {k : ℕ} {buffer : Array T}
    (room : (k + sources.length) * b ≤ buffer.size) :
    ∃ result buffer', reading world (((sources.zipIdx k).forM (fillSlot b)).on buffer) =
        some (result, buffer') ∧
      Filled b (fun q => world.published.getD q none) sources k buffer result buffer' ∧
      ∀ e, result = .error e → ∃ s ∈ sources, Missing b (world.published.getD s.1 none) s.2 e := by
  induction sources generalizing k buffer with
  | nil =>
    exact ⟨.ok (), buffer, rfl, ⟨rfl, fun _ _ => rfl, iff_of_true rfl (by simp),
      fun _ c s h => by simp at h⟩, nofun⟩
  | cons source sources ih =>
    rw [List.length_cons] at room
    simp only [List.zipIdx_cons, List.forM, Collective.on_bind, reading_bind]
    by_cases hfirst : Supplied b (world.published.getD source.1 none) source.2
    · have hblock := hfirst.size_blockOf
      set block := blockOf b (world.published.getD source.1 none) source.2
      have hroom : (k + 1) * b ≤ buffer.size := (Nat.mul_le_mul_right b (by omega)).trans room
      have hwrite : ∀ c, Span.chunk b (Span.overwrite buffer (k * b) block) c =
          if c = k then block else Span.chunk b buffer c := by
        intro c
        rw [Span.chunk_overwrite (m := 1) (by rw [hblock, Nat.one_mul]) hroom]
        by_cases hc : c = k
        · rw [if_pos (by omega), if_pos hc, hc, Nat.sub_self, Span.chunk_zero hblock]
        · rw [if_neg (by omega), if_neg hc]
      have hnext : (k + 1 + sources.length) * b ≤
          (Span.overwrite buffer (k * b) block).size := by
        rw [Span.size_overwrite]
        exact (Nat.mul_le_mul_right b (by omega)).trans room
      -- the slots behind slot `k` are filled by the rest of the list
      obtain ⟨result, buffer', hreading, hrest, hmissing⟩ := ih hnext
      refine ⟨result, buffer', ?_, ⟨hrest.size.trans (Span.size_overwrite _ _ _), fun c hc => ?_,
        ?_, fun hok c s hs => ?_⟩, fun e he => ?_⟩
      · rw [reading_fillSlot hfirst, Option.bind_some]
        exact hreading
      · rw [hrest.before c (by omega), hwrite, if_neg (by omega)]
      · rw [hrest.ok_iff, List.forall_mem_cons, and_iff_right hfirst]
      · cases c with
        | zero =>
          obtain rfl : source = s := by simpa using hs
          rw [hrest.before (k + 0) (by omega), hwrite, if_pos (by omega)]
        | succ c =>
          rw [show k + (c + 1) = k + 1 + c by omega]
          exact hrest.slots hok c s (by simpa using hs)
      · obtain ⟨s, hs, missing⟩ := hmissing e he
        exact ⟨s, List.mem_cons_of_mem _ hs, missing⟩
    · obtain ⟨e, unread, missing⟩ := reading_fillSlot_of_not_supplied hfirst k buffer
      refine ⟨.error e, buffer, ?_,
        ⟨rfl, fun _ _ => rfl, ?_, fun hok => absurd hok (by simp)⟩, ?_⟩
      · rw [unread, Option.bind_some]
        rfl
      · exact iff_of_false (by simp) fun h => hfirst (h source List.mem_cons_self)
      · rintro _ ⟨⟩
        exact ⟨source, List.mem_cons_self, missing⟩

end Reading

/-- What becomes of a receive buffer when the given vectors have been published: unless its length
is wrong or a block is missing, every slot holds its block. -/
structure Delivered (b : ℕ) (vectors : ℕ → Option (Published T)) (sources : List (ℕ × ℕ))
    (buffer : Array T) (result : Except Error Unit) (buffer' : Array T) : Prop where
  size : buffer'.size = buffer.size
  ok_iff : result = .ok () ↔ buffer.size = b * sources.length ∧
    ∀ s ∈ sources, Supplied b (vectors s.1) s.2
  slots : result = .ok () → ∀ c s, sources[c]? = some s →
    Span.chunk b buffer' c = blockOf b (vectors s.1) s.2
  mismatch : buffer.size ≠ b * sources.length →
    result = .error (.dimensionMismatch (b * sources.length) buffer.size) ∧ buffer' = buffer

/-- Only the vectors of the owners matter. -/
lemma Delivered.congr {vectors vectors' : ℕ → Option (Published T)} {sources : List (ℕ × ℕ)}
    {buffer buffer' : Array T} {result : Except Error Unit}
    (h : Delivered b vectors sources buffer result buffer')
    (same : ∀ s ∈ sources, vectors' s.1 = vectors s.1) :
    Delivered b vectors' sources buffer result buffer' where
  size := h.size
  ok_iff := by
    rw [h.ok_iff]
    refine and_congr_right fun _ => forall₂_congr fun s hs => ?_
    rw [same s hs]
  slots hok c s hs := by rw [h.slots hok c s hs, same s (List.mem_of_getElem? hs)]
  mismatch := h.mismatch

/-- What goes on between the two barriers. -/
def collected (b : ℕ) (sources : List (ℕ × ℕ)) (buffer : Array T) :
    Program T R (Except Error Unit × Array T) :=
  if buffer.size = b * sources.length then (collect b sources).on buffer
  else .done (.error (.dimensionMismatch (b * sources.length) buffer.size), buffer)

lemma reading_collected (world : World T R) (sources : List (ℕ × ℕ)) (buffer : Array T) :
    ∃ result buffer', reading world (collected b sources buffer) = some (result, buffer') ∧
      Delivered b (fun q => world.published.getD q none) sources buffer result buffer' ∧
      (buffer.size = b * sources.length → ∀ e, result = .error e →
        ∃ s ∈ sources, Missing b (world.published.getD s.1 none) s.2 e) := by
  by_cases hsize : buffer.size = b * sources.length
  · obtain ⟨result, buffer', hreading, h, hmissing⟩ := reading_fillSlots world sources (k := 0)
      (by rw [hsize, Nat.zero_add, Nat.mul_comm])
    refine ⟨result, buffer', ?_, ⟨h.size, ?_, fun hok c s hs => ?_, fun hne => absurd hsize hne⟩,
      fun _ => hmissing⟩
    · rw [collected, if_pos hsize]
      exact hreading
    · rw [h.ok_iff, and_iff_right hsize]
    · rw [← h.slots hok c s hs, Nat.zero_add]
  · refine ⟨_, buffer, ?_, ⟨rfl, iff_of_false (by simp) fun h => hsize h.1,
      fun hok => absurd hok (by simp), fun _ => ⟨rfl, rfl⟩⟩, fun h => absurd h hsize⟩
    rw [collected, if_neg hsize]
    rfl

/-! ## The two halves -/

/-- The next ticket. -/
def ticket (l : Link T) : Ticket :=
  ⟨l.flight.nextNumber⟩

/-- The link with the next ticket out. -/
def begun (l : Link T) : Link T :=
  { l with flight :=
      { nextNumber := l.ticket.number + 1, pending := some l.ticket.number } }

/-- The link without a ticket out. -/
def landed (l : Link T) : Link T :=
  { l with flight := l.flight.abort }

variable {l : Link T} {sources : List (ℕ × ℕ)}

lemma onFlight_begin (idle : l.flight.pending = none) :
    (onFlight Flight.begin).on l = (.ok l.ticket, l.begun) := by
  simp only [onFlight, Update.on_focus, Flight.begin, Update.on_ofFunction, idle]
  rfl

/-- Nothing is begun while an exchange is in flight. -/
lemma begin_on_busy {m : ℕ} (pending : l.flight.pending = some m) (x : Array T) (offset : ℕ) :
    (begin x offset : Collective T R (Link T) Ticket).on l =
      .done (.error (.exchange (.stillInFlight m)), l) := by
  have hflight : (onFlight Flight.begin).on l = (.error (.exchange (.stillInFlight m)), l) := by
    simp only [onFlight, Update.on_focus, Flight.begin, Update.on_ofFunction, pending]
  rw [begin, Collective.on_bind, Collective.on_ofUpdate, hflight]
  rfl

/-- Beginning an exchange publishes the vector. -/
lemma begin_on (idle : l.flight.pending = none) (supply : l.supply = .remote sources)
    (x : Array T) (offset : ℕ) :
    (begin x offset : Collective T R (Link T) Ticket).on l =
      .request (.publish { values := x, offset }) fun _ => .done (.ok l.ticket, l.begun) := by
  have hsupply : l.begun.supply = .remote sources := supply
  rw [begin, Collective.on_bind, Collective.on_ofUpdate, onFlight_begin idle, Program.done_bind]
  simp only [Collective.on_bind, Collective.on_get, Program.done_bind, hsupply]
  rfl

/-- A link takes back a ticket with the number that is out. -/
lemma settle_on {t : Ticket} (out : l.flight.pending = some t.number) (length : ℕ)
    (buffer : Array T) : (settle t length).on (l, buffer) =
      (checkLength length buffer.size, l.landed, buffer) := by
  have hflight : (onFlight (Flight.finish t)).on l = (.ok (), l.landed) := by
    simp only [onFlight, Update.on_focus, Flight.finish, Update.on_ofFunction, out, if_true]
    rfl
  rw [settle, Update.on_bind, Update.on_onFst, hflight]
  simp only [Update.on_bind, Update.on_get, Update.on_monadLift]

/-- Finishing an exchange takes back the ticket and reads the blocks between two barriers. -/
lemma finish_on {t : Ticket} (out : l.flight.pending = some t.number)
    (supply : l.supply = .remote sources) (buffer : Array T) :
    (finish t : Collective T R (Link T × Array T) Unit).on (l, buffer) =
      .request .barrier fun _ => collected l.blockSize sources buffer >>= fun s =>
        .request .barrier fun _ => .done (s.1, l.landed, s.2) := by
  rw [finish, Collective.on_bind, Collective.on_get, Program.done_bind]
  simp only [supply, Collective.on_bind, Collective.on_attempt, Collective.on_ofUpdate,
    settle_on out, Program.done_bind, Collective.on_ofProgram, Program.bind_bind]
  show Program.request .barrier _ = _
  refine congrArg (Program.request _) (funext fun _ => ?_)
  -- a wrong length is found before the first barrier and reported behind the second one
  by_cases hsize : buffer.size = l.blockSize * sources.length
  · rw [checkLength, if_pos hsize.symm, collected, if_pos hsize]
    show (Collective.on (monadLift (Except.ok ())) _ >>= _) = _
    simp only [Collective.on_monadLift, Program.done_bind, Collective.onSnd, Collective.on_focus,
      Program.bind_bind]
    refine bind_congr fun s => ?_
    show Program.request .barrier _ = _
    refine congrArg (Program.request _) (funext fun _ => ?_)
    exact Collective.on_monadLift _ _
  · rw [checkLength, if_neg (Ne.symm hsize), collected, if_neg hsize]
    rfl

/-! ## Writing and reading by turns -/

/-- Beginning an exchange writes if it makes a request at all. -/
lemma alternates_begin (x : Array T) (offset : ℕ) :
    Collective.Alternates .writing (begin x offset : Collective T R (Link T) Ticket) := by
  unfold begin
  refine .bind (.ofUpdate _) fun ticket => .bind .get fun l => ?_
  rcases l.supply with ⟨blocks, buffer⟩ | sources
  · dsimp only
    rcases (stage l.blockSize offset x blocks).on buffer with ⟨e | _, buffer'⟩
    · exact fun _ => .done _
    · exact fun _ => .done _
  · have write : (Request.publish { values := x, offset } : Request T R).IsWrite := trivial
    exact .bind (.ofProgram (Program.alternates_of_write write)) fun _ _ => .done _

/-- What other ranks have published is read in one phase. -/
lemma alternates_collect (b : ℕ) (sources : List (ℕ × ℕ)) :
    Collective.Alternates .reading (collect b sources : Collective T R (Array T) Unit) := by
  unfold collect
  induction sources.zipIdx with
  | nil => exact fun _ => .done _
  | cons s rest ih =>
    have read : (Request.published s.1.1 : Request T R).IsRead := trivial
    refine .bind (.bind (.ofProgram (Program.alternates_of_read read)) fun vector => ?_) fun _ => ih
    cases vector with
    | none => exact fun _ => .done _
    | some vector => exact .bind (.lift _) fun _ _ => .done _

/-- Finishing an exchange reads, if it makes a request at all, and then writes again. -/
lemma alternates_finish (t : Ticket) :
    Collective.Alternates .writing (finish t : Collective T R (Link T × Array T) Unit) := by
  rintro ⟨l, buffer⟩
  rw [finish, Collective.on_bind, Collective.on_get, Program.done_bind]
  dsimp only
  rcases l.supply with ⟨blocks, staging⟩ | sources
  · exact Collective.Alternates.bind (.ofUpdate _) (fun _ _ => .done _) (l, buffer)
  · have reading : ∀ settled : Except Error Unit, Collective.Alternates .reading
        (monadLift settled >>= fun _ => (collect l.blockSize sources).onSnd :
          Collective T R (Link T × Array T) Unit) :=
      fun settled => .bind (.lift settled) fun _ => .focus (alternates_collect _ sources)
    rw [Collective.on_bind, Collective.on_attempt, Collective.on_ofUpdate, Program.done_bind,
      Program.done_bind]
    dsimp only
    rw [Collective.on_bind]
    refine .barrier ?_
    change Program.Alternates .writing .reading (Collective.on (_ >>= _) _)
    rw [Collective.on_bind, Collective.on_attempt, Program.bind_bind]
    refine (reading _ _).bind fun result => .barrier ?_
    exact Collective.Alternates.lift _ _

end DomainDecomposition.Link
