import CodeReach.Code.Assemble
import CodeReach.Code.Location
import CodeReach.Code.Program
import CodeReach.Code.Segment
import CodeReach.Code.Stmt
import CodeReach.Data.Buckets
import CodeReach.Data.Loop
import CodeReach.Data.OrdSet
import CodeReach.Domain.CallStack
import CodeReach.Domain.Fault
import CodeReach.Domain.Meaning
import CodeReach.Domain.Precision
import CodeReach.Domain.Projection
import CodeReach.Domain.Registers
import CodeReach.Domain.State
import CodeReach.Domain.ValueSet
import CodeReach.Explore.EdgeSource
import CodeReach.Explore.Engine
import CodeReach.Explore.Failure
import CodeReach.Explore.Metric
import CodeReach.Explore.ReachedSet
import CodeReach.Explore.Resolver
import CodeReach.Explore.Run
import CodeReach.Explore.Settings
import CodeReach.Explore.Tree
import CodeReach.Explore.Worklist
import CodeReach.Expr.Basic
import CodeReach.Expr.Fold
import CodeReach.Expr.Op
import CodeReach.Flow.Edge
import CodeReach.Flow.Graph
import CodeReach.Machine.Step
import CodeReach.Machine.Value
import CodeReach.Proofs.Domain.ValueSet
import CodeReach.Proofs.Expr.Folding
import CodeReach.Transfer.Analysis
import CodeReach.Transfer.Calls
import CodeReach.Transfer.Component
import CodeReach.Transfer.Values
import CodeReach.Word
import CodeReach.Proofs.Domain.Registers
import CodeReach.Proofs.Domain.Projection
import CodeReach.Proofs.Explore.Resolver
import CodeReach.Proofs.Transfer.Order
import CodeReach.Proofs.Transfer.Successor
import CodeReach.Proofs.Explore.Accept
import CodeReach.Proofs.Data.Loop
import CodeReach.Proofs.Explore.Step
import CodeReach.Proofs.Explore.History
import CodeReach.Proofs.Explore.Termination
import CodeReach.Proofs.Explore.Fixpoint
import CodeReach.Proofs.Explore.Coverage
import CodeReach.Proofs.Flow.Graph
import CodeReach.Proofs.Explore.Tree
import CodeReach.Proofs.Explore.Provenance
import CodeReach.Proofs.Explore.ErrorTrace
import CodeReach.Proofs.Code.Assemble
import CodeReach.Proofs.Explore.WitnessPath
import CodeReach.Proofs.Explore.RebuiltGraph
import CodeReach.Proofs.Domain.Monotone
import CodeReach.Proofs.Domain.Simplified
import CodeReach.Proofs.Transfer.ValueStates
import CodeReach.Proofs.Explore.MonotoneEdges
import CodeReach.Proofs.Explore.Joined
import CodeReach.Proofs.Explore.OrderIndependence
import CodeReach.Proofs.Transfer.SplitLocations
import CodeReach.Proofs.Explore.Bookkeeping
import CodeReach.Proofs.Explore.StaleEntries
import CodeReach.Proofs.Explore.Housekeeping
import CodeReach.Proofs.Explore.ReachedSet
import CodeReach.Proofs.Explore.GraphSearch
import CodeReach.Proofs.Transfer.CallNesting
import CodeReach.Proofs.Transfer.Merge
import CodeReach.Proofs.Explore.Subsumption
import CodeReach.Proofs.Domain.Evaluation
import CodeReach.Proofs.Domain.Assumptions
import CodeReach.Proofs.Domain.NullPage
import CodeReach.Proofs.Transfer.Faults
import CodeReach.Proofs.Domain.Canonical
import CodeReach.Proofs.Transfer.CanonicalValues
import CodeReach.Proofs.Domain.Semilattice
import CodeReach.Proofs.Expr.NormalForm
import CodeReach.Proofs.Expr.Staging
import CodeReach.Proofs.Domain.KnownInputs
import CodeReach.Proofs.Domain.ReadOnce
import CodeReach.Proofs.Explore.BranchEdges
import CodeReach.Proofs.Transfer.Convergence
import CodeReach.Proofs.Transfer.Widening
import CodeReach.Proofs.Explore.Contexts
import CodeReach.Proofs.Explore.PendingSet
import CodeReach.Proofs.Explore.Compaction
import CodeReach.Proofs.Explore.TreeWalk
import CodeReach.Proofs.Flow.Adjacency
import CodeReach.Proofs.Code.ReadOnlyData
import CodeReach.Proofs.Code.Redefinition
import CodeReach.Proofs.Code.WellFormed
import CodeReach.Proofs.Expr.Text
import CodeReach.Proofs.Flow.Text
import CodeReach.Proofs.Domain.FoldedConditions
