import DomainDecomposition.Update

/-!
# One exchange at a time

An exchange is begun and finished by two calls. Beginning hands out a numbered ticket, finishing
asks for it back. `Flight` keeps the books: at most one ticket is out, and numbers are not reused.
-/

namespace DomainDecomposition

/-- Handed out when an exchange is begun. -/
structure Ticket where
  number : Nat
  deriving DecidableEq

/-- The ticket as it is spelled in reports. -/
def Ticket.text (t : Ticket) : String :=
  "ExchangeToken \x7b seq: " ++ toString t.number ++ " \x7d"

/-- The books of one exchange partner. -/
structure Flight where
  nextNumber : Nat
  pending : Option Nat
  deriving DecidableEq

namespace Flight

/-- Nothing has been begun yet. -/
def idle : Flight where
  nextNumber := 0
  pending := none

/-- Hand out the next ticket, unless one is out. -/
def begin : Update Flight Ticket :=
  Update.ofFunction fun f =>
    match f.pending with
    | some pending => (.error (.exchange (.stillInFlight pending)), f)
    | none => (.ok ⟨f.nextNumber⟩, { nextNumber := f.nextNumber + 1, pending := some f.nextNumber })

/-- Forget the ticket that is out. -/
def abort (f : Flight) : Flight :=
  { f with pending := none }

/-- Take back the ticket that is out. Any other one is refused. -/
def finish (t : Ticket) : Update Flight Unit :=
  Update.ofFunction fun f =>
    match f.pending with
    | some pending =>
      if pending = t.number then (.ok (), { f with pending := none })
      else (.error (.exchange (.foreignTicket t.number pending)), f)
    | none => (.error (.exchange (.nothingInFlight t.number)), f)

end Flight

end DomainDecomposition
