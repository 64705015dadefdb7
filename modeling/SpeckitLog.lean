import SpeckitLog.Lib.Transition
import SpeckitLog.Lib.SizeT
import SpeckitLog.Lib.Call
import SpeckitLog.Lib.ThreadSum
import SpeckitLog.Lib.Text
import SpeckitLog.Lib.Search
import SpeckitLog.Lib.Padded
import SpeckitLog.Lib.FileSystem
import SpeckitLog.Lib.Permits
import SpeckitLog.Lib.Overwrite
import SpeckitLog.Lib.Circular
import SpeckitLog.Lib.Batches
import SpeckitLog.Lib.Progress
import SpeckitLog.Lib.Streams
import SpeckitLog.Lib.Footprint
import SpeckitLog.AsyncQueue
import SpeckitLog.AsyncQueue.Invariant
import SpeckitLog.AsyncQueue.Fifo
import SpeckitLog.AsyncQueue.Ownership
import SpeckitLog.AsyncQueue.Refusal
import SpeckitLog.AsyncQueue.Counter
import SpeckitLog.AsyncQueue.Linear
import SpeckitLog.AsyncQueue.Progress
import SpeckitLog.AsyncQueue.Destroy
import SpeckitLog.RingBuffer
import SpeckitLog.RingBuffer.Invariant
import SpeckitLog.RingBuffer.Conservation
import SpeckitLog.RingBuffer.Counter
import SpeckitLog.RingBuffer.Sequential
import SpeckitLog.RingBuffer.OneAtATime
import SpeckitLog.LogLevel
import SpeckitLog.LogEntry
import SpeckitLog.LogEntry.Fields
import SpeckitLog.LogEntry.Lines
import SpeckitLog.LogEntry.Timestamp
import SpeckitLog.AsyncLogger
import SpeckitLog.AsyncLogger.Stepwise
import SpeckitLog.AsyncLogger.Ledger
import SpeckitLog.AsyncLogger.Overlap
import SpeckitLog.AsyncLogger.Atomic
import SpeckitLog.AsyncLogger.Shutdown
import SpeckitLog.AsyncLogger.Order
import SpeckitLog.AsyncLogger.Views
import SpeckitLog.AsyncLogger.Wakeup
import SpeckitLog.AsyncLogger.Late
import SpeckitLog.AsyncLogger.Semaphore
import SpeckitLog.FileManager
import SpeckitLog.FileManager.Steps
import SpeckitLog.FileManager.Rotation
import SpeckitLog.FileManager.Processes
import SpeckitLog.FileManager.Isolation
import SpeckitLog.FileManager.Election
import SpeckitLog.FileManager.Races
import SpeckitLog.FileManager.Retry
import SpeckitLog.FileManager.Journal
import SpeckitLog.FileManager.Writes
import SpeckitLog.FileManager.Threads
import SpeckitLog.FileManager.OneAtATime
import SpeckitLog.FileManager.ClearSteps
import SpeckitLog.FileManager.ThreadSafety
import SpeckitLog.FileManager.Names
import SpeckitLog.FileManager.Retention
import SpeckitLog.FileManager.Durability
import SpeckitLog.FileManager.Footprint
import SpeckitLog.AsyncLogger.Sequential
import SpeckitLog.AsyncLogger.Lifecycle
import SpeckitLog.AsyncLogger.Emergency
import SpeckitLog.CrashHandler
import SpeckitLog.CrashHandler.Lifetimes
import SpeckitLog.CrashHandler.Monitors
import SpeckitLog.CrashHandler.Service
import SpeckitLog.AsyncLogger.Crash
import SpeckitLog.CBridge
import SpeckitLog.CBridge.Loggers
import SpeckitLog.FrontEnds
import SpeckitLog.CBridge.FailedRotation
import SpeckitLog.Archive
import SpeckitLog.CBridge.Archived
import SpeckitLog.Archive.Libzip
import SpeckitLog.Archive.Transaction
import SpeckitLog.Archive.Series
