/-!
# Why an operation fails

Every checked operation of the library answers with an `Error`, and every error names its cause:
which rule about shapes, patterns or handles was broken, and by which numbers. The wording of the
report lives in `Error.message` alone, so that statements about failures speak of causes.

* `ConfigFault`: blocks, maps and tables that do not fit together,
* `OperandFault`: an operand of a value operation that does not fit its receiver,
* `ExchangeFault`: a broken begin/finish pairing, or a block that nobody supplied,
* `Error`: all of these, and the failures that carry only a number.
-/

namespace DomainDecomposition

/-- Local dimensions of a distributed matrix, counted in blocks. The owned rows are the interior
rows followed by the interface rows. -/
structure Layout where
  blockSize : Nat
  /-- Owned block rows. -/
  owned : Nat
  /-- Trailing owned rows that may couple to other ranks. -/
  interface : Nat
  /-- Leading owned rows, which never do. -/
  interior : Nat
  /-- Remote blocks that the interface rows refer to. -/
  remote : Nat
  deriving DecidableEq

/-- Scalar position of the first interface row. -/
def Layout.interfaceStart (l : Layout) : Nat :=
  l.blockSize * l.interior

/-- The layout as it is spelled in reports. -/
def Layout.text (l : Layout) : String :=
  "Layout \x7b bsize: " ++ toString l.blockSize ++ ", n: " ++ toString l.owned ++
    ", nc: " ++ toString l.interface ++ ", np: " ++ toString l.interior ++
    ", m: " ++ toString l.remote ++ " \x7d"

/-- Pieces that cannot be put together. -/
inductive ConfigFault where
  | zeroBlockSize
  | rowPointerShape (length rows entries : Nat)
  | rowPointerOrder (entries row : Nat)
  | columnOrder (row : Nat)
  | columnRange (row columns : Nat)
  | blockRange (row column rows columns : Nat)
  | diagonalMissing
  | rowRange (row rows : Nat)
  | variableRange (component blockSize : Nat)
  | offsetRange (offset rows : Nat)
  | fillNotSquare (rows columns : Nat)
  | diagonalNotSquare (rows columns : Nat)
  | interfaceRows (rows owned : Nat)
  | remoteColumns (columns remote : Nat)
  | blockSizes (diagonal offDiagonal : Nat)
  | ownedRows (mapped rows : Nat)
  | linkShape (served servedSize expected expectedSize : Nat)
  | constraintPlace (block stated actual : Nat)
  | constraintVariable (block blockSize : Nat)
  | factorShape (rows columns blockSize expected expectedSize : Nat)
  | offsetCount (offsets ranks : Nat)
  | offsetOrder
  | remoteRange (block total : Nat)
  | unknownPreconditioner (name : String)
  deriving DecidableEq

/-- Operands that cannot be combined with their receiver. -/
inductive OperandFault where
  | shape (rows columns blockSize ownRows ownColumns ownBlockSize : Nat)
  | position (row column : Nat)
  | blockSizes
  | product (rows inner innerRows columns ownRows ownColumns : Nat)
  | layout (operand receiver : Layout)
  deriving DecidableEq

/-- Exchanges that were driven out of order or cannot be served. -/
inductive ExchangeFault where
  | stillInFlight (pending : Nat)
  | foreignTicket (ticket pending : Nat)
  | nothingInFlight (ticket : Nat)
  | blockNotStored (block offset length : Nat)
  | notPublished (rank : Nat)
  deriving DecidableEq

/-- The parts of the library that must be factored before they are applied. -/
inductive FactoredPart where
  | relaxationSweep
  | pointRelaxation
  | additiveSchwarz
  | approximateSchur
  deriving DecidableEq

/-- All failures. `outOfRange` is an access outside an array by one of the unchecked kernels, and
`tooLarge` is a demand for an array of more entries than any array can have, or a size that is no
machine word. -/
inductive Error where
  | config (fault : ConfigFault)
  | incompatibleOperand (fault : OperandFault)
  | dimensionMismatch (expected found : Nat)
  | singularPivot (row : Nat)
  | notFactored (part : FactoredPart)
  | exchange (fault : ExchangeFault)
  | peerFailure (ranks : Nat)
  | outOfRange
  | tooLarge
  deriving DecidableEq

/-- A count of block rows and columns as reports write it. -/
private def extent (rows columns : Nat) : String :=
  s!"{rows}×{columns}"

/-- Wording of a configuration fault. -/
def ConfigFault.message : ConfigFault → String
  | zeroBlockSize => "block size must be at least 1"
  | rowPointerShape length rows entries =>
    s!"row pointer of length {length} does not describe {rows} rows over {entries} entries"
  | rowPointerOrder entries row =>
    s!"row pointer is not non-decreasing within 0..={entries} at row {row}"
  | columnOrder row => s!"columns of row {row} are not strictly ascending"
  | columnRange row columns => s!"row {row} references a column >= {columns}"
  | blockRange row column rows columns =>
    s!"block ({row}, {column}) is outside a {extent rows columns} block matrix"
  | diagonalMissing => "operation needs a square pattern with every diagonal block stored"
  | rowRange row rows => s!"row {row} is outside {rows} block rows"
  | variableRange component blockSize =>
    s!"variable {component} is outside block size {blockSize}"
  | offsetRange offset rows => s!"variable offset {offset} exceeds {rows} block rows"
  | fillNotSquare rows columns =>
    s!"incomplete factorization needs a square matrix, got {extent rows columns} blocks"
  | diagonalNotSquare rows columns =>
    s!"diagonal block must be square, got {extent rows columns} blocks"
  | interfaceRows rows owned =>
    s!"off-diagonal block has {rows} rows but only {owned} rows are owned"
  | remoteColumns columns remote =>
    s!"off-diagonal block has {columns} columns but the distribution lists {remote} remote blocks"
  | blockSizes diagonal offDiagonal =>
    s!"block sizes do not match: diagonal {diagonal}, off-diagonal {offDiagonal}"
  | ownedRows mapped rows =>
    s!"row map owns {mapped} blocks but the diagonal block has {rows} rows"
  | linkShape served servedSize expected expectedSize =>
    s!"exchange context serves {served} blocks of size {servedSize}, " ++
      s!"expected {expected} of size {expectedSize}"
  | constraintPlace block stated actual =>
    s!"boundary condition on block {block} names local block {stated} " ++
      s!"but the row map places it at {actual}"
  | constraintVariable block blockSize =>
    s!"boundary condition on block {block} constrains a variable outside block size {blockSize}"
  | factorShape rows columns blockSize expected expectedSize =>
    s!"factor matrix is {extent rows columns} blocks of size {blockSize}, " ++
      s!"expected {extent expected expected} of size {expectedSize}"
  | offsetCount offsets ranks => s!"ownership range has {offsets} entries for {ranks} ranks"
  | offsetOrder => "ownership range must start at 0 and be non-decreasing"
  | remoteRange block total => s!"external block {block} is outside the global range 0..{total}"
  | unknownPreconditioner name => "unknown preconditioner type '" ++ name ++ "'"

/-- Wording of an operand fault. -/
def OperandFault.message : OperandFault → String
  | shape rows columns blockSize ownRows ownColumns ownBlockSize =>
    s!"operand is {extent rows columns} blocks of size {blockSize}, " ++
      s!"receiver is {extent ownRows ownColumns} blocks of size {ownBlockSize}"
  | position row column => s!"operand entry ({row}, {column}) is not in the receiver's pattern"
  | blockSizes => "block sizes differ"
  | product rows inner innerRows columns ownRows ownColumns =>
    s!"cannot add a {extent rows inner} times {extent innerRows columns} product " ++
      s!"into {extent ownRows ownColumns}"
  | layout operand receiver => s!"operand layout {operand.text} differs from {receiver.text}"

/-- Wording of an exchange fault. -/
def ExchangeFault.message : ExchangeFault → String
  | stillInFlight pending => s!"begin_forward issued while exchange #{pending} is still in flight"
  | foreignTicket ticket pending =>
    s!"token #{ticket} does not match in-flight exchange #{pending}"
  | nothingInFlight ticket => s!"end_forward with token #{ticket} but no exchange in flight"
  | blockNotStored block offset length =>
    s!"requested block {block} is not stored in the local vector " ++
      s!"(offset {offset}, length {length})"
  | notPublished rank => s!"rank {rank} has not published a vector"

/-- Name under which a part reports that it was not factored. -/
def FactoredPart.name : FactoredPart → String
  | relaxationSweep => "relaxation sweep"
  | pointRelaxation => "PointRelaxation"
  | additiveSchwarz => "AdditiveSchwarz"
  | approximateSchur => "ApproximateSchur"

/-- Wording of every failure. -/
def Error.message : Error → String
  | config fault => "configuration error: " ++ fault.message
  | incompatibleOperand fault => "incompatible operand: " ++ fault.message
  | dimensionMismatch expected found =>
    s!"dimension mismatch: expected {expected}, found {found}"
  | singularPivot row => s!"singular pivot block at block-row {row}"
  | notFactored part => part.name ++ " used before factor()"
  | exchange fault => "exchange error: " ++ fault.message
  | peerFailure ranks => s!"{ranks} other rank(s) failed before a collective step"
  | outOfRange => "access out of range"
  | tooLarge => "array too large"

end DomainDecomposition
