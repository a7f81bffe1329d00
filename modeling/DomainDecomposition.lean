import DomainDecomposition.Block.Leading
import DomainDecomposition.BlockMatrix.Assembly
import DomainDecomposition.BlockMatrix.Dense
import DomainDecomposition.Distributed.Values
import DomainDecomposition.Krylov.System
import DomainDecomposition.Rank.World
import DomainDecomposition.Scalar.Machine
import DomainDecomposition.Text.Shortest
import DomainDecomposition.Proofs.Block.Algebra
import DomainDecomposition.Proofs.Block.Inverse
import DomainDecomposition.Proofs.BlockMatrix.Entries
import DomainDecomposition.Proofs.BlockMatrix.Valid
import DomainDecomposition.Proofs.BlockMatrix.FullFill
import DomainDecomposition.Proofs.BlockMatrix.PartialSolves
import DomainDecomposition.Proofs.BlockMatrix.TriangularSystems
import DomainDecomposition.Proofs.Distributed.BoundaryConditions
import DomainDecomposition.Proofs.Distributed.Global
import DomainDecomposition.Proofs.Halo.Overlap
import DomainDecomposition.Proofs.Halo.Tickets
import DomainDecomposition.Proofs.Krylov.Lockstep
import DomainDecomposition.Proofs.Krylov.Minimal
import DomainDecomposition.Proofs.Krylov.Report
import DomainDecomposition.Proofs.Krylov.Scaling
import DomainDecomposition.Proofs.Precond.Schur
import DomainDecomposition.Proofs.Rank.Collectives
import DomainDecomposition.Proofs.BlockMatrix.Kernels
import DomainDecomposition.Proofs.BlockMatrix.FactorSafety
import DomainDecomposition.Proofs.BlockMatrix.Calls
import DomainDecomposition.Proofs.Precond.Coupled
import DomainDecomposition.Proofs.Precond.Failure
import DomainDecomposition.Proofs.Precond.Snapshot
import DomainDecomposition.Proofs.Distributed.Reuse
import DomainDecomposition.Proofs.Precond.Reuse
import DomainDecomposition.Proofs.Block.Singular
import DomainDecomposition.Proofs.BlockMatrix.Relaxation
import DomainDecomposition.Proofs.Distributed.Worlds
import DomainDecomposition.Proofs.Precond.Relaxation
import DomainDecomposition.Proofs.BlockMatrix.Breakdown
import DomainDecomposition.Proofs.BlockMatrix.Principal
import DomainDecomposition.Proofs.BlockMatrix.ProductOnPattern
import DomainDecomposition.Proofs.BlockMatrix.Combination
import DomainDecomposition.Proofs.Distributed.Combination
import DomainDecomposition.Proofs.BlockMatrix.Assembly
import DomainDecomposition.Proofs.BlockMatrix.Acceptance
import DomainDecomposition.Proofs.BlockMatrix.DenseProducts
import DomainDecomposition.Proofs.BlockMatrix.FailedCalls
import DomainDecomposition.Proofs.Distributed.PrescribedValues
import DomainDecomposition.Proofs.Ownership
import DomainDecomposition.Proofs.Halo.Staging
import DomainDecomposition.Proofs.Distributed.InterfaceExchange
