import DomainDecomposition.Error

/-!
# Choosing a preconditioner

`PreconditionerKind.ofName` reads the name of a preconditioner, in any mixture of upper and lower
case. `PreconditionerOptions` carries the settings of all of them.
-/

namespace DomainDecomposition

/-- The preconditioners of the library. -/
inductive PreconditionerKind where
  | relaxation
  | additiveSchwarz
  | approximateSchur
  deriving DecidableEq

namespace PreconditionerKind

/-- The kind with the given name. Only the letters of ASCII have two cases here. -/
def ofName (name : String) : Except Error PreconditionerKind :=
  let name := name.map Char.toLower
  if name = "sor" ∨ name = "ssor" then .ok relaxation
  else if name = "asm" ∨ name = "additive_schwarz" then .ok additiveSchwarz
  else if name = "schur" ∨ name = "approximate_schur" then .ok approximateSchur
  else .error (.config (.unknownPreconditioner name))

/-- The kind as it is spelled in reports. -/
def text : PreconditionerKind → String
  | relaxation => "Sor"
  | additiveSchwarz => "AdditiveSchwarz"
  | approximateSchur => "ApproximateSchur"

end PreconditionerKind

/-- Settings of the preconditioners. -/
structure PreconditionerOptions (R : Type) where
  kind : PreconditionerKind
  /-- Relaxation factor. -/
  omega : R
  /-- Relaxation sweeps per application. -/
  iterations : Nat
  /-- Sweep forward and then backward. -/
  symmetric : Bool
  /-- Start the relaxation from zero. -/
  zeroGuess : Bool
  /-- Level of fill of the incomplete factors. -/
  fillLevel : Nat
  /-- Expected growth of the number of blocks in the incomplete factors. It changes no factor, but
  room is made for so many. -/
  fillRatio : R
  /-- Added to the diagonal before factoring. -/
  diagonalShift : R
  /-- Size of the Krylov space and bound on the iterations of the interface solve. -/
  innerIterations : Nat
  innerRtol : R
  innerAtol : R

/-- The settings in force where nothing else is asked for. -/
def PreconditionerOptions.default : PreconditionerOptions Float where
  kind := .additiveSchwarz
  omega := 1
  iterations := 1
  symmetric := false
  zeroGuess := true
  fillLevel := 1
  fillRatio := 3
  diagonalShift := 0
  innerIterations := 10
  innerRtol := 1e-3
  innerAtol := 1e-30

end DomainDecomposition
