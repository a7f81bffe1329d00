import DomainDecomposition.Scalar.Binary64

/-!
# Shortest decimal texts

A finite double stands for all reals that round to it. `shortest?` finds the coarsest decimal grid
with a point among them; of the two points next to the double it takes the nearer one, and the upper
one when the double lies halfway between them. Everything is computed with whole numbers.

The text is positional whatever the size of the number, and has no point when the number is whole.
-/

namespace DomainDecomposition.Shortest

/-- A decimal `digits · 10^exponent`. -/
structure Decimal where
  digits : Nat
  exponent : Int
  deriving DecidableEq

/-- The reals that round to `m · 2^e`, in quarters of `2^e`: lower end, value, upper end. Below a
power of two the neighbours are closer. -/
def interval (m : Nat) (e : Int) : Nat × Nat × Nat :=
  let down := if m = 1 <<< 52 ∧ -1074 < e then 1 else 2
  (4 * m - down, 4 * m, 4 * m + 2)

/-- Whether a point lies in an interval whose ends belong to it when the significand is even. -/
def inside (m low high point : Nat) : Bool :=
  if m % 2 = 0 then low ≤ point && point ≤ high else low < point && point < high

/-- The point of the grid `10^exponent` that rounds to `m · 2^e` and lies nearest to it. A tie goes
up. -/
def onGrid (m : Nat) (e exponent : Int) : Option Decimal :=
  let (low, value, high) := interval m e
  let quarter := e - 2
  let factor := Nat.pow 10 (-exponent).toNat <<< quarter.toNat
  let unit := Nat.pow 10 exponent.toNat <<< (-quarter).toNat
  let (low, value, high) := (low * factor, value * factor, high * factor)
  let below := value / unit
  let candidate := fun d => if d ≠ 0 ∧ inside m low high (d * unit) then some d else none
  let digits := match candidate below, candidate (below + 1) with
    | some d, some d' => some (if value - d * unit < d' * unit - value then d else d')
    | some d, none => some d
    | none, d' => d'
  digits.map fun digits => { digits, exponent }

/-- The decimal with the fewest digits that reads back as `m · 2^e`. The grids go from
`10^310`, which is coarser than any double, to below the smallest one. -/
def shortest? (m : Nat) (e : Int) : Option Decimal :=
  if m = 0 then some { digits := 0, exponent := 0 }
  else (List.range 700).findSome? fun (k : Nat) => onGrid m e (310 - (k : Int))

/-- A decimal written without an exponent. -/
def Decimal.positional (d : Decimal) : String :=
  let digits := toString d.digits
  if 0 ≤ d.exponent then digits ++ "".pushn '0' d.exponent.toNat
  else
    let places := (-d.exponent).toNat
    let padded := "".pushn '0' (places + 1 - digits.length) ++ digits
    let whole := padded.length - places
    String.ofList (padded.toList.take whole) ++ "." ++ String.ofList (padded.toList.drop whole)

/-- A double as it is spelled in reports. -/
def text (x : Float) : String :=
  let sign := if x.toBits.toNat >>> 63 = 1 then "-" else ""
  if x.isNaN then "NaN"
  else if x.isInf then sign ++ "inf"
  else
    let (m, e) := Binary64.decode x
    match shortest? m e with
    | some d => sign ++ d.positional
    | none => sign ++ "0"

end DomainDecomposition.Shortest
