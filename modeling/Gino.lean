import Gino.Machine.System
import Gino.Machine.Residue
import Gino.Runtime.DoallJoin
import Gino.Runtime.DoallPool
import Gino.Doall.WrapAround
import Gino.Doall.LastIteration
import Gino.Doall.WordReduction
import Gino.Doall.Dispatched
import Gino.Doall.SharedMemory
import Gino.Helix.EarlyExitRuns
import Gino.Helix.TaskRuns
import Gino.Helix.SegmentFrontier
import Gino.Helix.SynchronizedOnce
import Gino.Helix.SynchronizedRuns
import Gino.Helix.SegmentOrders
import Gino.Helix.Stepper
import Gino.Graph.Frontier
import Gino.Helix.SpilledValue
import Gino.Runtime.DswpDispatcher
import Gino.Planner.Savings
import Gino.Planner.Selection
import Gino.Parallelizer.ParallelizeLoops
import Gino.Technique.PeriodicVariable
import Gino.Technique.GiveUp
import Gino.Technique.NestedInline
import Gino.Technique.PrivateObjects
import Gino.Dswp.LiveOuts
import Gino.Dswp.Acyclic
import Gino.Dswp.SelfContained
import Gino.Dswp.StageProjection
import Gino.Dswp.PipelineProgress
import Gino.Dswp.Applied
import Gino.Dswp.QueueTables
import Gino.Machine.Splice
import Gino.Inliner.CallGraph
import Gino.Inliner.LoopOrder
import Gino.Inliner.InlineCall
import Gino.Inliner.Progress
import Gino.Inliner.Erasure
import Gino.Inliner.SubLoops
import Gino.Inliner.FixedPoint
import Gino.Heuristics.MinMaxPartition
import Gino.Heuristics.InvocationLatency
