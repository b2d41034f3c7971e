import Gpuforge.PackedAccounting
import Gpuforge.SchedulerInterleavings
import Gpuforge.SchedulerDrain
import Gpuforge.SchedulerBudget
import Gpuforge.FoldingPreserves
import Gpuforge.BuilderRuns
import Gpuforge.PoolAccounting
import Gpuforge.KvCacheMap
import Gpuforge.CompileReports
import Gpuforge.DeadCodeRuns
import Gpuforge.FusionPartition
import Gpuforge.FusedOutputs
import Gpuforge.TilePlanner
import Gpuforge.MetricsMerging
import Gpuforge.ScopedTraces
import Gpuforge.TuneRoundTrip
import Gpuforge.ChromeTrace
import Gpuforge.TunedLaunches
import Gpuforge.TiledGemmCells
import Gpuforge.FusedAttentionCells
import Gpuforge.KernelCoverage
import Gpuforge.AttentionAverages
import Gpuforge.CausalMask
import Gpuforge.BroadcastRules
import Gpuforge.ReshapeRules
import Gpuforge.SlotIndexes
import Gpuforge.PageLocations
import Gpuforge.GridOverflow
import Gpuforge.LaunchIndexes
import Gpuforge.SequenceFrames
import Gpuforge.CommPipeline
import Gpuforge.MetricExtremes
import Gpuforge.TensorCoreRules
import Gpuforge.BiasFusion
import Gpuforge.ErrorComparison
import Gpuforge.SoftmaxRows
import Gpuforge.LayerNorm
import Gpuforge.TuneBest
import Gpuforge.TuneLines
import Gpuforge.ElementCounts
import Gpuforge.SharedMemory
import Gpuforge.FoldedKernels
import Gpuforge.PoolThreads
import Gpuforge.CentralSound
import Gpuforge.ExclusivePlaces
import Gpuforge.PoolInvariant
import Gpuforge.PoolSteps
import Gpuforge.PoolSafety
import Gpuforge.PoolMemory
import Gpuforge.PoolRequests
import Gpuforge.PoolCounts
import Gpuforge.PoolCalls
import Gpuforge.PoolDrain
import Gpuforge.PoolOutcomes
import Gpuforge.BackedSound
import Gpuforge.BackedRuns
