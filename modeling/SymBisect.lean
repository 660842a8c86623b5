import SymBisect.Lib.BitVector
import SymBisect.Lib.PairedMap
import SymBisect.Lib.Run
import SymBisect.Lib.Prog
import SymBisect.Lib.Worklist
import SymBisect.Lib.PlainArray
import SymBisect.Lib.Reader
import SymBisect.Lib.Table
import SymBisect.Lib.Smt
import SymBisect.Lib.Walk
import SymBisect.Expr.Syntax
import SymBisect.Expr.Semantics
import SymBisect.Expr.Reads
import SymBisect.Expr.Create
import SymBisect.Expr.CreateSound
import SymBisect.Expr.RebuildSound
import SymBisect.Expr.Weight
import SymBisect.Expr.Visitor
import SymBisect.Expr.VisitorSound
import SymBisect.Expr.Constraints
import SymBisect.Expr.ConstraintsSound
import SymBisect.Expr.Evaluator
import SymBisect.Expr.NumberToken
import SymBisect.Expr.AssignmentGenerator
import SymBisect.Basic.KTest
import SymBisect.Support.TreeStream
import SymBisect.Core.Memory
import SymBisect.Core.CopyOnWrite
import SymBisect.Core.ObjectState
import SymBisect.Core.ObjectStateSound
import SymBisect.Core.ObjectStateRun
import SymBisect.Core.ObjectBytes
import SymBisect.Core.TimingSolver
import SymBisect.Solver.Query
import SymBisect.Solver.Z3Builder
import SymBisect.Solver.Z3BuilderSound
import SymBisect.Solver.CachingSolver
import SymBisect.Solver.IndependentSolver
import SymBisect.Solver.MapOfSets
import SymBisect.Solver.CexCachingSolver
import SymBisect.Solver.IndependentFactors
import SymBisect.Core.ExecutionState
import SymBisect.Core.Merge
import SymBisect.Core.MergeSound
import SymBisect.Core.Executor
import SymBisect.Core.ExecuteInstruction
import SymBisect.Core.ExecutorSpec
import SymBisect.Core.PathCondition
import SymBisect.Core.AddressResolution
import SymBisect.Core.LoopLimit
import SymBisect.Core.Branching
import SymBisect.Core.MemoryManager
import SymBisect.Core.MemoryOperation
import SymBisect.Core.SpecialFunctionHandler
import SymBisect.Core.Memset
import SymBisect.Core.PTree
import SymBisect.Core.PTreeTags
import SymBisect.Core.PTreeSurgery
import SymBisect.Core.RandomPath
import SymBisect.Core.Searcher
import SymBisect.Core.SearcherSpec
import SymBisect.Core.SearcherRun
import SymBisect.Listener.SimplifyPath
import SymBisect.Listener.LexicalPath
import SymBisect.Listener.LineGuidance
import SymBisect.HelperFunctions.PriorityList
import SymBisect.HelperFunctions.LineWhitelist
import SymBisect.HelperFunctions.ExecutedLines
import SymBisect.HelperFunctions.CoverLine
import SymBisect.HelperFunctions.CallStack
import SymBisect.HelperFunctions.DumpSearch
import SymBisect.HelperFunctions.MatchedLines
import SymBisect.HelperFunctions.TargetKernel
import SymBisect.HelperFunctions.CfgAnalysis
import SymBisect.HelperFunctions.DotAnalysis
import SymBisect.UCListener.OutOfBounds
import SymBisect.UCListener.OutOfBoundsSound
import SymBisect.UCListener.BulkAccess
import SymBisect.UCListener.ScopeThreshold
import SymBisect.UCListener.SymbolicPointer
import SymBisect.UCListener.PointerMaps
import SymBisect.UCListener.OperandFrame
import SymBisect.UCListener.BaseAddress
import SymBisect.UCListener.WeakUpdate
import SymBisect.UCListener.ForkFidelity
import SymBisect.UCListener.ConstantTable
import SymBisect.UCListener.CallReturn
import SymBisect.UCListener.CalltraceDistance
import SymBisect.Solver.ExprRange
import SymBisect.Core.GetElementPtr
import SymBisect.Core.ConstantLayout
import SymBisect.ADT.ImmutableTreeRun
import SymBisect.Solver.BitwiseBounds
import SymBisect.Solver.STPBuilder
import SymBisect.Module.IntrinsicCleaner
import SymBisect.Solver.GetRange
import SymBisect.Expr.Compare
import SymBisect.Core.ImpliedValue
import SymBisect.Module.PhiCleaner
import SymBisect.Module.LowerSwitch
import SymBisect.Core.SeedInfo
import SymBisect.Lib.Memo
import SymBisect.Expr.AssignmentEvaluate
import SymBisect.Lib.LinkedTree
import SymBisect.ADT.DiscretePDF
import SymBisect.ADT.DiscretePDFBalance
import SymBisect.ADT.DiscretePDFInsert
import SymBisect.ADT.DiscretePDFLengthen
import SymBisect.ADT.DiscretePDFRemove
import SymBisect.ADT.DiscretePDFRun
import SymBisect.Core.WeightedRandom
import SymBisect.Core.MergeHandler
import SymBisect.Core.MergeHandlerBooks
import SymBisect.Core.MergeHandlerRun
import SymBisect.HelperFunctions.CoverageBlocks
import SymBisect.Solver.SymbolicObjects
import SymBisect.Solver.SolverLayers
import SymBisect.Solver.SolverChain
