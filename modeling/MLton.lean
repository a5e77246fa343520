import MLton.Atoms.FoldSound
import MLton.Backend.ParallelMove
import MLton.Backend.StackSlots
import MLton.Basic.LoopForestShape
import MLton.Basic.TopologicalSort
import MLton.Basis.CharEscapes
import MLton.Basis.Date
import MLton.Basis.FixedWordText
import MLton.Basis.SliceCorrect
import MLton.Basis.TimeScan
import MLton.ClosureConvert.LambdaFreeExact
import MLton.Elaborate.Declare
import MLton.Elaborate.PrecedenceRight
import MLton.IntInf.FromRep
import MLton.IntInf.Space
import MLton.IntInf.WordConv
import MLton.MatchCompile.Whole
import MLton.Rssa.ChecksFunction
import MLton.Rssa.ChunkifyLegal
import MLton.Rssa.ImplementHandlers
import MLton.Rssa.LiveExact
import MLton.Rssa.SignalCheck
import MLton.Runtime.CardMarks
import MLton.Runtime.CrossMapUpdate
import MLton.Runtime.HashConsCorrect
import MLton.Runtime.HeapGrow
import MLton.Runtime.RegionStack
import MLton.Runtime.RegionWalk
import MLton.Runtime.SequenceAllocate
import MLton.Ssa.CombineConversions
import MLton.Ssa.CommonArgOutput
import MLton.Ssa.CommonBlock
import MLton.Ssa.CriticalEdges
import MLton.Ssa.DirectExpLinearized
import MLton.Ssa.InductionVars
import MLton.Ssa.IntroduceLoops
import MLton.Ssa.LoopCount
import MLton.Ssa.LoopInvariantSound
import MLton.Ssa.ModesKept
import MLton.Ssa.Prepasses
import MLton.Ssa.ProfileBalanced
import MLton.Ssa.RedundantOutput
import MLton.Ssa.RegionsKept
import MLton.Ssa.RegionsTwice
import MLton.Streams.InstreamFunctional
import MLton.Streams.OutstreamKept
