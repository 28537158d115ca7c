import CapTaint.Lib.Smt
import CapTaint.Lib.OptionLoop
import CapTaint.Lib.BubbleSort
import CapTaint.Event
import CapTaint.Trace
import CapTaint.PSOListener
import CapTaint.Encode.Order
import CapTaint.Encode.ReadWrite
import CapTaint.Encode.Synchronize
import CapTaint.Theorems.Recorded
import CapTaint.Theorems.Cluster
import CapTaint.Theorems.Prefix
import CapTaint.Theorems.Locks
import CapTaint.Lib.Names
import CapTaint.Theorems.WaitSignal
import CapTaint.DealWithSymbolicExpr
import CapTaint.Theorems.Filter
import CapTaint.Theorems.Accesses
import CapTaint.Theorems.Pruning
import CapTaint.DTAM
import CapTaint.Theorems.Taint
import CapTaint.Executor
import CapTaint.Lib.VectorClock
import CapTaint.TaintListener
import CapTaint.Theorems.Threads
import CapTaint.Theorems.Placement
import CapTaint.Theorems.Effects
import CapTaint.Theorems.Clocks
import CapTaint.Theorems.Joins
import CapTaint.Theorems.Mutexes
import CapTaint.Theorems.Exclusion
import CapTaint.Theorems.Deadlock
import CapTaint.Encode.Check
import CapTaint.Theorems.Queries
import CapTaint.KQuery2Z3
import CapTaint.Theorems.KQuery
import CapTaint.ListenerService
import CapTaint.Theorems.Exploration
import CapTaint.Theorems.ByteTaint
import CapTaint.Encode.Taint
import CapTaint.Theorems.AccessNames
import CapTaint.Theorems.Sources
import CapTaint.Lib.GreedyMatch
import CapTaint.Theorems.ReadFrom
import CapTaint.Theorems.Tested
import CapTaint.Theorems.ThreadIds
import CapTaint.Theorems.FullNames
import CapTaint.Theorems.Generations
import CapTaint.Theorems.LockPairs
import CapTaint.ThreadScheduler
import CapTaint.Theorems.Forks
import CapTaint.Theorems.Fairness
import CapTaint.Theorems.CondScheduler
import CapTaint.Theorems.Interference
import CapTaint.Verification
import CapTaint.Theorems.CleanRuns
import CapTaint.Branching
import CapTaint.Theorems.Partition
import CapTaint.Memory
import CapTaint.Theorems.ExternalCalls
import CapTaint.ExternalDispatcher
import CapTaint.Theorems.ExternalDispatcher
import CapTaint.Klee.Expr
import CapTaint.Klee.Create
import CapTaint.Theorems.Values
import CapTaint.Theorems.Rewrites
import CapTaint.Theorems.Create
import CapTaint.Theorems.Constructors
import CapTaint.Klee.CachingSolver
import CapTaint.Theorems.CachingSolver
import CapTaint.Theorems.Remembered
import CapTaint.Klee.Constraints
import CapTaint.Theorems.Constraints
import CapTaint.Klee.Evaluator
import CapTaint.Theorems.Evaluator
import CapTaint.Klee.CexCachingSolver
import CapTaint.Theorems.CexCachingSolver
import CapTaint.Theorems.Assignments
import CapTaint.KTest
import CapTaint.Theorems.KTest
import CapTaint.Lib.TreeLog
import CapTaint.TreeStream
import CapTaint.Theorems.TreeStream
import CapTaint.Klee.ObjectState
import CapTaint.Theorems.ObjectState
import CapTaint.Klee.AddressSpace
import CapTaint.Lib.Epochs
import CapTaint.Theorems.CopyOnWrite
import CapTaint.Theorems.Resolution
import CapTaint.Theorems.ResolutionLimit
import CapTaint.Lib.Ssa
import CapTaint.LowerSwitch
import CapTaint.Theorems.LowerSwitch
import CapTaint.Lib.ParallelCopy
import CapTaint.PhiCleaner
import CapTaint.Theorems.PhiCleaner
import CapTaint.Klee.MapOfSets
import CapTaint.Theorems.MapOfSets
import CapTaint.Lib.HeightTree
import CapTaint.Lib.RefCount
import CapTaint.Klee.ImmutableTree
import CapTaint.Theorems.ImmutableTree
import CapTaint.Klee.TreeIterator
import CapTaint.Theorems.TreeIterator
import CapTaint.Lib.RedBlack
import CapTaint.Theorems.DiscretePDF
import CapTaint.Klee.Searcher
import CapTaint.Theorems.Searcher
import CapTaint.Klee.ExprCompare
import CapTaint.Lib.RoseTree
import CapTaint.Theorems.ExprCompare
import CapTaint.Theorems.TaintGraph
import CapTaint.Lib.Blocks
import CapTaint.Lib.Rank
import CapTaint.Theorems.Granularity
import CapTaint.Theorems.VarThread
import CapTaint.ExternalWrites
import CapTaint.Theorems.ExternalWrites
import CapTaint.SymbolicListener
import CapTaint.Theorems.RwFormula
import CapTaint.TaintExpr
import CapTaint.Theorems.TaintExpr
import CapTaint.Lib.BinarySearch
import CapTaint.Klee.Range
import CapTaint.Theorems.Range
import CapTaint.Lib.MagicDivision
import CapTaint.Klee.ConstantDivision
import CapTaint.Theorems.ConstantDivision
import CapTaint.Klee.STPBuilder
import CapTaint.Theorems.STPBuilder
import CapTaint.Klee.ImpliedValue
import CapTaint.Theorems.ImpliedValue
import CapTaint.Lib.Cursor
import CapTaint.DataLayout
import CapTaint.SpecialElement
import CapTaint.Theorems.SpecialElement
import CapTaint.GlobalInitializer
import CapTaint.Theorems.GlobalInitializer
import CapTaint.Lib.BitBounds
import CapTaint.Klee.ExprRangeEvaluator
import CapTaint.Theorems.ValueRange
import CapTaint.Theorems.ExprRangeEvaluator
import CapTaint.Klee.IndependentSolver
import CapTaint.Theorems.IndependentSolver
import CapTaint.Lib.Distance
import CapTaint.StatsTracker
import CapTaint.Theorems.StatsTracker
import CapTaint.Klee.NumberToken
import CapTaint.Theorems.NumberToken
import CapTaint.GetElementPtr
import CapTaint.Theorems.GetElementPtr
import CapTaint.ExprSMTLIBPrinter
import CapTaint.Theorems.ExprSMTLIBPrinter
import CapTaint.Theorems.BitwiseBounds
import CapTaint.Theorems.FindReads
import CapTaint.IntrinsicCleaner
import CapTaint.Theorems.IntrinsicLowering
import CapTaint.Theorems.IntrinsicCleaner
import CapTaint.Lib.Placed
import CapTaint.EvalConstant
import CapTaint.Theorems.ConstantImage
import CapTaint.Theorems.InitializeGlobalObject
import CapTaint.Theorems.EvalConstant
import CapTaint.ExecuteAlloc
import CapTaint.Theorems.ExecuteAlloc
import CapTaint.StateSets
import CapTaint.Theorems.StateSets
import CapTaint.Lib.Memo
import CapTaint.Klee.Construct
import CapTaint.Theorems.Terms
import CapTaint.Theorems.Construct
import CapTaint.Klee.STPSolver
import CapTaint.Theorems.STPSolver
import CapTaint.Lib.Forking
import CapTaint.Klee.Interpreter
import CapTaint.Theorems.Interpreter
import CapTaint.Klee.SolverChain
import CapTaint.Theorems.ServedQueries
import CapTaint.Theorems.SolverChain
