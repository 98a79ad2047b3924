import RACoherence.CLTracker.LineSet
import RACoherence.CLTracker.Simulation
import RACoherence.CLHLock.Progress
import RACoherence.CXLAtomic.ReleaseSequence
import RACoherence.CXLBarrier.Opens
import RACoherence.CXLBarrier.Visibility
import RACoherence.CXLMutex
import RACoherence.CXLSharedMutex
import RACoherence.CacheInfo.Lazy
import RACoherence.Cluster.Guarded
import RACoherence.Cluster.Precise
import RACoherence.Cluster.Return
import RACoherence.Cluster.Waiting.Refine
import RACoherence.Cluster.Wrap
import RACoherence.ExtentPool
import RACoherence.InstrumentLib.RawCopy
import RACoherence.LocalCLTable.Coalesce
import RACoherence.LogManager.Gc
import RACoherence.LogManager.Safety
import RACoherence.LogManager.Subscribe
import RACoherence.MCSLock.Progress
import RACoherence.ProtocolOff.Guarded
import RACoherence.SpmcQueue.Fifo
import RACoherence.ThreadBuild.Delay
import RACoherence.ThreadBuild.EagerRange
import RACoherence.ThreadBuild.NullLog
import RACoherence.ThreadOps.Decode
import RACoherence.ThreadOps.InlineCache
import RACoherence.ThreadOps.Termination
