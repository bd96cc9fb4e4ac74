import XKaapi.Workqueue.Safety
import XKaapi.Workqueue.PopWord
import XKaapi.Foreach.SplitSizes
import XKaapi.Foreach.UllRun
import XKaapi.TaskList.Sequential
import XKaapi.Adapt.Termination
import XKaapi.Memory.Eviction
import XKaapi.Mt.SuspendRounds
import XKaapi.Trace.EventOrder
import XKaapi.Trace.ReaderMerge
import XKaapi.Kaapixx.PropertiesLoad
import XKaapi.Network.StreamOrder
import XKaapi.Network.Delivery
import XKaapi.Network.Termination
import XKaapi.Network.RouteRuns
import XKaapi.Network.GasnetFlush
import XKaapi.Trace.SimulatorRuns
import XKaapi.Kastl.Searches
import XKaapi.Kastl.WorkQueueSafe
import XKaapi.Kastl.Reductions
import XKaapi.Kaapic.Values
import XKaapi.Kaapic.Reduce
import XKaapi.Mailbox.Kid
import XKaapi.Cuda.SyncAll
import XKaapi.Taknet.BarrierRounds
import XKaapi.Taknet.WireOrder
import XKaapi.TaskList.Children
import XKaapi.Task.Execframe
import XKaapi.Task.Preempt
import XKaapi.Mt.BitmapWidths
import XKaapi.Mt.IteratorRuns
import XKaapi.TaskList.StealReady
import XKaapi.Dfg.RenamingMasks
import XKaapi.Foreach.DatadistExact
import XKaapi.Memory.Allocator
import XKaapi.TaskList.CriticalPath
import XKaapi.Atomic.LockRuns
import XKaapi.Memory.DeviceAlloc
import XKaapi.Cuda.RequestRuns
import XKaapi.TaskList.AbstractExec
import XKaapi.Steal.SuspendedRuns
import XKaapi.Misc.HashmapRuns
import XKaapi.Omp.LoopExact
import XKaapi.Omp.EmptyLoopEnd
import XKaapi.Omp.CopyPrivate
import XKaapi.Steal.SelectSafe
import XKaapi.Omp.Ordered
import XKaapi.Omp.NestingQueries
import XKaapi.Omp.LockTasks
import XKaapi.Quark.ArgsPop
import XKaapi.Quark.Sequence
import XKaapi.Trace.PerfReaders
import XKaapi.C2c.Reduction
import XKaapi.Omp.CpuAffinitySets
import XKaapi.Task.StaticFormat
