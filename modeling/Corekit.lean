import Corekit.Api.Json
import Corekit.Api.Status
import Corekit.Concurrent.LockFreeQueue
import Corekit.Concurrent.Map
import Corekit.Concurrent.MutexQueue
import Corekit.Concurrent.QueueCount
import Corekit.Concurrent.RingBuffer
import Corekit.Concurrent.RingFifo
import Corekit.Foundation.Admission
import Corekit.Foundation.Audit
import Corekit.Foundation.Batching
import Corekit.Foundation.BitSpread
import Corekit.Foundation.ByteMemory
import Corekit.Foundation.Command
import Corekit.Foundation.CyclicMemory
import Corekit.Foundation.CyclicWindow
import Corekit.Foundation.Dispatch
import Corekit.Foundation.Extent
import Corekit.Foundation.Interference
import Corekit.Foundation.Journey
import Corekit.Foundation.JsonText
import Corekit.Foundation.Kahn
import Corekit.Foundation.Lineage
import Corekit.Foundation.OrderedMap
import Corekit.Foundation.Registry
import Corekit.Foundation.Sections
import Corekit.Foundation.Slots
import Corekit.Foundation.Transition
import Corekit.Foundation.Wakeup
import Corekit.Ipc.Calls
import Corekit.Ipc.Channel
import Corekit.Ipc.Counters
import Corekit.Ipc.Delivery
import Corekit.Ipc.HostileRing
import Corekit.Ipc.Interleaving
import Corekit.Ipc.Progress
import Corekit.Ipc.Representation
import Corekit.Ipc.Ring
import Corekit.Ipc.SessionSafety
import Corekit.Ipc.Sessions
import Corekit.Ipc.Sizing
import Corekit.Ipc.WholeCalls
import Corekit.Log.Config
import Corekit.Log.ConfigLaws
import Corekit.Log.Directories
import Corekit.Log.FormattedSink
import Corekit.Log.InEffect
import Corekit.Log.JsonLines
import Corekit.Log.Manager
import Corekit.Log.SinkDelivery
import Corekit.Log.SinkProgress
import Corekit.Memory.Allocator
import Corekit.Memory.ConcurrentStats
import Corekit.Memory.GlobalAllocator
import Corekit.Memory.ObjectPool
import Corekit.Memory.PoolAccounting
import Corekit.Memory.PoolBudget
import Corekit.Memory.PoolDestructor
import Corekit.Memory.PoolFrames
import Corekit.Memory.PoolIsolation
import Corekit.Memory.PoolOvershoot
import Corekit.Memory.PoolThreadSafety
import Corekit.Memory.PoolThreads
import Corekit.Memory.PoolTree
import Corekit.Memory.PoolTreeRuns
import Corekit.Memory.Reconfigure
import Corekit.Memory.SlabAlignment
import Corekit.Memory.SlabBytes
import Corekit.Memory.SlabCalls
import Corekit.Memory.SlabFootprint
import Corekit.Memory.SlabGrowth
import Corekit.Memory.SlabGuards
import Corekit.Memory.SlabLayout
import Corekit.Memory.SlabPool
import Corekit.Memory.SlabRefusals
import Corekit.Memory.SlabRoom
import Corekit.Memory.SlabRuns
import Corekit.Memory.SystemPool
import Corekit.Task.Barrier
import Corekit.Task.BatchWait
import Corekit.Task.Cancellation
import Corekit.Task.ExactlyOnce
import Corekit.Task.Executor
import Corekit.Task.Graph
import Corekit.Task.GraphBatches
import Corekit.Task.GraphComplete
import Corekit.Task.GraphCycles
import Corekit.Task.GraphFailFast
import Corekit.Task.GraphHosted
import Corekit.Task.GraphMakespan
import Corekit.Task.GraphOnPool
import Corekit.Task.GraphOrder
import Corekit.Task.GraphProgress
import Corekit.Task.GraphRefinement
import Corekit.Task.GraphRun
import Corekit.Task.Lifecycle
import Corekit.Task.Machine
import Corekit.Task.Moves
import Corekit.Task.Outcome
import Corekit.Task.Overtaking
import Corekit.Task.ParallelFor
import Corekit.Task.ParallelOnPool
import Corekit.Task.ParallelRange
import Corekit.Task.Quiescence
import Corekit.Task.Retention
import Corekit.Task.Rounds
import Corekit.Task.Scheduling
import Corekit.Task.SerialKeys
import Corekit.Task.Statistics
import Corekit.Task.Wakeups
