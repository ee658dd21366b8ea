import MTAppenderFile.Lib.Block
import MTAppenderFile.Lib.Delim
import MTAppenderFile.Lib.Run
import MTAppenderFile.Lib.Handover
import MTAppenderFile.Lib.Buffered
import MTAppenderFile.Lib.Guard
import MTAppenderFile.Lib.Locks
import MTAppenderFile.Lib.Vector
import MTAppenderFile.Lib.Cursor
import MTAppenderFile.Lib.Projection
import MTAppenderFile.Comm.CTypes
import MTAppenderFile.Comm.Auto
import MTAppenderFile.Comm.Ptr
import MTAppenderFile.Comm.Writing
import MTAppenderFile.Comm.Calls
import MTAppenderFile.Comm.Reading
import MTAppenderFile.Comm.Refinement
import MTAppenderFile.Comm.Allocation
import MTAppenderFile.Comm.Thread
import MTAppenderFile.Comm.ThreadLife
import MTAppenderFile.Comm.Joins
import MTAppenderFile.Comm.Condition
import MTAppenderFile.Comm.Timeout
import MTAppenderFile.Comm.Delayed
import MTAppenderFile.Comm.Cancel
import MTAppenderFile.Comm.Waking
import MTAppenderFile.Comm.Timing
import MTAppenderFile.Comm.Signals
import MTAppenderFile.Loglib.Paths
import MTAppenderFile.Loglib.Base
import MTAppenderFile.Loglib.Formatter
import MTAppenderFile.Loglib.Header
import MTAppenderFile.Loglib.Buffer
import MTAppenderFile.Loglib.Bounds
import MTAppenderFile.Loglib.Cycles
import MTAppenderFile.Loglib.Files
import MTAppenderFile.Loglib.Appender
import MTAppenderFile.Loglib.Session
import MTAppenderFile.Loglib.Lifecycle
import MTAppenderFile.Loglib.Opening
import MTAppenderFile.Loglib.Exactness
import MTAppenderFile.Loglib.Mapping
import MTAppenderFile.Loglib.Crash
import MTAppenderFile.Loglib.Failure
import MTAppenderFile.Loglib.Modes
import MTAppenderFile.Loglib.Recovery
import MTAppenderFile.Loglib.HeapBlock
import MTAppenderFile.Loglib.Overload
import MTAppenderFile.Loglib.Threads
import MTAppenderFile.Loglib.World
import MTAppenderFile.Loglib.Code
import MTAppenderFile.Loglib.Moves
import MTAppenderFile.Loglib.Locking
import MTAppenderFile.Loglib.Changes
import MTAppenderFile.Loglib.SharedPass
import MTAppenderFile.Loglib.Lives
import MTAppenderFile.Loglib.Wakeup
import MTAppenderFile.Loglib.Handle
import MTAppenderFile.Loglib.Orphan
import MTAppenderFile.Loglib.Scan
import MTAppenderFile.Loglib.Steps
import MTAppenderFile.Loglib.Pipeline
import MTAppenderFile.Loglib.Switches
import MTAppenderFile.Loglib.Interleaving
import MTAppenderFile.Loglib.Order
import MTAppenderFile.Loglib.Barrier
import MTAppenderFile.Loglib.Flow
import MTAppenderFile.Loglib.Teardown
import MTAppenderFile.Loglib.Shutdown
import MTAppenderFile.Loglib.Closing
import MTAppenderFile.Loglib.Atomicity
import MTAppenderFile.Loglib.Records
import MTAppenderFile.Loglib.Growth
import MTAppenderFile.Loglib.Separation
import MTAppenderFile.Loglib.Journal
import MTAppenderFile.Loglib.Sessions
