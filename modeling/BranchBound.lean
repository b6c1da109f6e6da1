import BranchBound.Benchmark.Record
import BranchBound.Benchmark.Report
import BranchBound.Binary64
import BranchBound.Branching
import BranchBound.CommandLine.Arguments
import BranchBound.CommandLine.Disk
import BranchBound.CommandLine.Options
import BranchBound.CommandLine.Path
import BranchBound.CommandLine.Program
import BranchBound.Decimal
import BranchBound.Decimal.Reading
import BranchBound.Decimal.Shortest
import BranchBound.Domain
import BranchBound.Duration
import BranchBound.Enumeration
import BranchBound.Enumeration.Knapsack
import BranchBound.Error
import BranchBound.Exact
import BranchBound.Frontier
import BranchBound.Generator
import BranchBound.Heap
import BranchBound.Incumbent
import BranchBound.Interval
import BranchBound.Journal
import BranchBound.Json
import BranchBound.Json.Decoding
import BranchBound.Json.Reader
import BranchBound.Json.Writer
import BranchBound.LinearProgram
import BranchBound.LinearProgram.Simplex
import BranchBound.Main
import BranchBound.Model
import BranchBound.Model.Codec
import BranchBound.Node
import BranchBound.Power
import BranchBound.Printable
import BranchBound.Problem
import BranchBound.Random.Dice
import BranchBound.Random.WordStream
import BranchBound.Relaxation
import BranchBound.Relaxation.Corner
import BranchBound.Relaxation.Knapsack
import BranchBound.Relaxation.Linear
import BranchBound.Relaxation.Script
import BranchBound.Result
import BranchBound.Rounding
import BranchBound.Scalar
import BranchBound.Search
import BranchBound.Settings
import BranchBound.Tree
import BranchBound.Variable
import BranchBound.Proofs.ExactLawful
import BranchBound.Proofs.IntegerParts
import BranchBound.Proofs.HeapOrder
import BranchBound.Proofs.OpenNodes
import BranchBound.Proofs.LatticePoints
import BranchBound.Proofs.Splitting
import BranchBound.Proofs.Turns
import BranchBound.Proofs.LoopHeads
import BranchBound.Proofs.Thresholds
import BranchBound.Proofs.Offers
import BranchBound.Proofs.Accounting
import BranchBound.Proofs.Soundness
import BranchBound.Proofs.Partition
import BranchBound.Proofs.Cells
import BranchBound.Proofs.Termination
import BranchBound.Proofs.Binary64.Fields
import BranchBound.Proofs.Binary64.Rounding
import BranchBound.Proofs.Binary64.MachineRounding
import BranchBound.Proofs.Binary64.Operations
import BranchBound.Proofs.Binary64.Comparison
import BranchBound.Proofs.Binary64.Quotients
import BranchBound.Proofs.Binary64.IntegerRounding
import BranchBound.Proofs.Binary64.Lawful
import BranchBound.Proofs.Binary64.Tolerances
import BranchBound.Proofs.Progress
import BranchBound.Proofs.Counts
import BranchBound.Proofs.History
import BranchBound.Proofs.Lineage
import BranchBound.Proofs.OracleCalls
import BranchBound.Proofs.Conservation
import BranchBound.Proofs.Incumbents
import BranchBound.Proofs.BestFirst
import BranchBound.Proofs.MonotoneBounds
import BranchBound.Proofs.DepthFirst
import BranchBound.Proofs.Attainment
import BranchBound.Proofs.Selection
import BranchBound.Proofs.Failures
import BranchBound.Proofs.Completion
import BranchBound.Proofs.NodeLimits
import BranchBound.Proofs.EnumeratedPoints
import BranchBound.Proofs.RationalPoints
import BranchBound.Proofs.Filling
import BranchBound.Proofs.KnapsackRelaxation
import BranchBound.Proofs.Grids
import BranchBound.Proofs.KnapsackEnumeration
import BranchBound.Proofs.ModelFiles
import BranchBound.Proofs.LinearPrograms
import BranchBound.Proofs.ModelEnumeration
import BranchBound.Proofs.LinearSearch
import BranchBound.Proofs.Strategies
import BranchBound.Proofs.NodePool
import BranchBound.Proofs.PopOrder
import BranchBound.Proofs.ConsistentResults
import BranchBound.Proofs.WrittenModels
import BranchBound.Proofs.Verification
import BranchBound.Proofs.SparseRows
import BranchBound.Proofs.Odometer
import BranchBound.Proofs.ExhaustiveEnumeration
import BranchBound.Proofs.AcceptedProblems
import BranchBound.Proofs.NaturalSums
import BranchBound.Proofs.Draws
import BranchBound.Proofs.GeneratedModels
