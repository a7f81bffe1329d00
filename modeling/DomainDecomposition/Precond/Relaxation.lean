import DomainDecomposition.BlockMatrix.Factor
import DomainDecomposition.BlockMatrix.Relaxation
import DomainDecomposition.Distributed.Basic

/-!
# Relaxation as a preconditioner

`PointRelaxation` runs a fixed number of relaxation sweeps on the diagonal piece. The coupling to
remote blocks is frozen at the values that `y` has when the application starts, exchanged once.
Starting from zero saves the exchange.
-/

namespace DomainDecomposition

/-- Switches of the relaxation, as a set of 32 bits. Unknown bits are kept. -/
structure RelaxFlags where
  bits : UInt32
  deriving DecidableEq

namespace RelaxFlags

/-- Start every application from zero. -/
def zeroGuess : RelaxFlags := ⟨1⟩

/-- Sweep forward and then backward. -/
def symmetric : RelaxFlags := ⟨2⟩

/-- The flags that are switched on. -/
def ofSettings (startAtZero bothWays : Bool) : RelaxFlags :=
  ⟨(if startAtZero then zeroGuess.bits else 0) ||| (if bothWays then symmetric.bits else 0)⟩

/-- Whether all bits of `other` are set. -/
def contains (f other : RelaxFlags) : Bool :=
  f.bits &&& other.bits == other.bits

/-- Names of the known flags that are set, and then the unknown bits in hexadecimal digits. -/
def text (f : RelaxFlags) : String :=
  let named := (if f.contains zeroGuess then ["ZERO_GUESS"] else []) ++
    (if f.contains symmetric then ["SYMMETRIC"] else [])
  let unknown := f.bits &&& ~~~(zeroGuess.bits ||| symmetric.bits)
  let hexadecimal := "0x" ++ String.ofList (Nat.toDigits 16 unknown.toNat)
  let parts := if unknown ≠ 0 || named.isEmpty then named ++ [hexadecimal] else named
  "RelaxFlags(" ++ String.intercalate " | " parts ++ ")"

end RelaxFlags

/-- Relaxation of the diagonal piece of a distributed matrix. -/
structure PointRelaxation (T R : Type) where
  diagonal : Handle
  offDiagonal : Handle
  halo : Halo T
  /-- Right-hand side of the sweeps, kept between applications. -/
  right : Array T
  interfaceStart : Nat
  omega : R
  iterations : Nat
  flags : RelaxFlags
  factored : Bool

namespace PointRelaxation

variable {T R : Type}

/-- Relaxation of a distributed matrix, not factored yet. -/
def ofMatrix [Zero T] (a : DistributedMatrix T) (omega : R) (iterations : Nat)
    (flags : RelaxFlags) : Except Error (PointRelaxation T R) := do
  return { diagonal := a.diagonal
           offDiagonal := a.offDiagonal
           halo := ← Halo.ofTable a.table a.layout.blockSize
           right := ← Block.allocate (a.layout.blockSize * a.layout.owned)
           interfaceStart := a.layout.interfaceStart
           omega
           iterations
           flags
           factored := false }

/-- The relaxation as it is spelled in reports, given the text of its factor. -/
def text (p : PointRelaxation T R) (magnitude : R → String) : String :=
  "SOR(omega=" ++ magnitude p.omega ++ ", iters=" ++ toString p.iterations ++ ", flags=" ++
    p.flags.text ++ ")"

section Factor

variable [Zero T] [One T] [Sub T] [Mul T] [Div T] [BEq T]
variable [Zero R] [One R] [Neg R] [Mul R] [LT R] [DecidableLT R] [LE R] [DecidableLE R] [BEq R]
variable [Magnitude R] [Scalar T R]

/-- Invert the diagonal blocks of the current values. -/
def factor : Update (Store T × PointRelaxation T R) Unit := do
  modify fun (store, p) => (store, { p with factored := false })
  let (_, p) ← get
  (Store.onMatrix p.diagonal BlockMatrix.factorDiagonal).onFst
  modify fun (store, p) => (store, { p with factored := true })

end Factor

variable [Zero T] [One T] [Add T] [Sub T] [Mul T] [Scalar T R]

/-- The sweeps that the flags ask for. -/
def sweep (p : PointRelaxation T R) (store : Store T) (right : Array T) :
    Update (Array T) Unit :=
  let a := store.get p.diagonal
  if p.flags.contains .symmetric then a.applySsor right p.omega p.iterations
  else a.applySor right p.omega p.iterations

/-- An operation on the halo of a relaxation. -/
def onHalo {α : Type} (c : Collective T R (Halo T) α) : Collective T R (PointRelaxation T R) α :=
  c.focus (·.halo) fun halo p => { p with halo }

/-- An operation on the right-hand side of a relaxation. -/
def onRight {α : Type} (u : Update (Array T) α) : Update (PointRelaxation T R) α :=
  u.focus (·.right) fun right p => { p with right }

/-- Put `x - [0; F · y_remote]` in place of the right-hand side, which must be zero. -/
def freeze (offDiagonal : BlockMatrix T) (interfaceStart : Nat) (received x : Array T) :
    Update (Array T) Unit := do
  DistributedMatrix.onTail interfaceStart (offDiagonal.mult received)
  modify fun right => Array.zipWith (fun r xv => xv - r) right x

/-- Relax `y` towards the solution of `A · y = x`, where the state is the relaxation together with
`y`. All ranks take part unless the flags say to start at zero. -/
def apply (store : Store T) (x : Array T) :
    Collective T R (PointRelaxation T R × Array T) Unit := do
  let (p, y) ← get
  if !p.factored then throw (.notFactored .pointRelaxation)
  checkLength p.right.size x.size
  checkLength p.right.size y.size
  if p.flags.contains .zeroGuess then
    modify fun (p, y) => (p, y.map fun _ => 0)
    Collective.ofUpdate (p.sweep store x).onSnd
  else
    let ticket ← (onHalo (Halo.begin y 0)).onFst
    Collective.ofUpdate (onRight (modify fun right => right.map fun _ => 0)).onFst
    (onHalo (Halo.finish ticket)).onFst
    let received := (← get).1.halo.received
    Collective.ofUpdate
      (onRight (freeze (store.get p.offDiagonal) p.interfaceStart received x)).onFst
    let right := (← get).1.right
    Collective.ofUpdate (p.sweep store right).onSnd

end PointRelaxation

end DomainDecomposition
