/-!
# Binary floating point in exact arithmetic

A finite double is `m · 2^e` with natural `m`. `decode` reads the two numbers off the bits, and
`encode` rounds any `m · 2^e` back to the nearest double, ties to the even one. With an integer
square root between them, `hypot` rounds only once: the sum of the squares is exact.
-/

namespace DomainDecomposition.Binary64

/-- Size of a finite double as `m · 2^e`; the sign is dropped. -/
def decode (x : Float) : Nat × Int :=
  let bits : Nat := x.toBits.toNat
  let fraction : Nat := bits % (1 <<< 52)
  let exponent : Nat := (bits >>> 52) % (1 <<< 11)
  if exponent = 0 then (fraction, -1074) else (fraction + (1 <<< 52), (exponent : Int) - 1075)

/-- `m / 2^k` rounded to the nearest whole number, ties to the even one. -/
def shiftRound (m k : Nat) : Nat :=
  let unit : Nat := 1 <<< k
  let quotient := m / unit
  let remainder := m % unit
  if 2 * remainder > unit ∨ (2 * remainder = unit ∧ quotient % 2 = 1) then quotient + 1
  else quotient

/-- Bits of positive infinity; larger encodings overflow to it. -/
def infinityBits : Nat :=
  2047 <<< 52

/-- The double nearest to `m · 2^e`. The significand keeps 53 bits, fewer where the exponent would
fall below the smallest one. A significand that rounds up to `2^53` carries into the exponent. -/
def encode (m : Nat) (e : Int) : Float :=
  if m = 0 then 0
  else
    let length : Int := Nat.log2 m + 1
    let shift := max (length - 53) (-1074 - e)
    let significand := if shift ≤ 0 then m <<< (-shift).toNat else shiftRound m shift.toNat
    let bits := ((e + shift + 1074).toNat <<< 52) + significand
    Float.ofBits (UInt64.ofNat (min bits infinityBits))

/-- Largest `r` below `root + 2^k` with `r² ≤ n`, one bit at a time. -/
def sqrtBits (n : Nat) : Nat → Nat → Nat
  | 0, root => root
  | k + 1, root =>
    let next := root + (1 <<< k)
    sqrtBits n k (if next * next ≤ n then next else root)

/-- Whole part of the square root. -/
def sqrtFloor (n : Nat) : Nat :=
  sqrtBits n (Nat.log2 n / 2 + 1) 0

/-- The double nearest to `√n · 2^e`. The root is taken with at least 56 bits, and a last bit
records whether it is inexact, so that rounding it rounds the true root. -/
def encodeSqrt (n : Nat) (e : Int) : Float :=
  let extra : Nat := 56
  let scaled := n <<< (2 * extra)
  let root := sqrtFloor scaled
  let inexact := if root * root = scaled then 0 else 1
  encode (2 * root + inexact) (e - extra - 1)

/-- Length of the hypotenuse, rounded once. It is infinite as soon as one side is. -/
def hypot (x y : Float) : Float :=
  if x.isInf || y.isInf then Float.ofBits (UInt64.ofNat infinityBits)
  else if x.isNaN || y.isNaN then x + y
  else
    let (m, e) := decode x
    let (k, f) := decode y
    let low := min e f
    let a := m <<< (e - low).toNat
    let b := k <<< (f - low).toNat
    encodeSqrt (a * a + b * b) low

end DomainDecomposition.Binary64
