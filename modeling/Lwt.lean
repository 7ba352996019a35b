import Lwt.Library.Forest
import Lwt.Library.Tickets
import Lwt.Library.Total
import Lwt.Library.Transition
import Lwt.Library.Circular
import Lwt.Library.Dialogue
import Lwt.Library.Wheel
import Lwt.Library.Window
import Lwt.Library.Cursor
import Lwt.Library.Exploring
import Lwt.Library.Bindings
import Lwt.Sequence.Ring
import Lwt.Sequence.Linked
import Lwt.Sequence.Deque
import Lwt.Sequence.Iter
import Lwt.Sequence.Clearing
import Lwt.Sequence.Growing
import Lwt.Sequence.Prepending
import Lwt.Pqueue.Binomial
import Lwt.Promise.Types
import Lwt.Promise.Heap
import Lwt.Promise.PendingCallbacks
import Lwt.Promise.Shape
import Lwt.Promise.Machine
import Lwt.Promise.Api
import Lwt.Promise.Script
import Lwt.Promise.Loop
import Lwt.Promise.Events
import Lwt.Promise.Nesting
import Lwt.Promise.Store
import Lwt.Promise.Effect
import Lwt.Promise.Concurrent
import Lwt.Promise.Contents
import Lwt.Promise.Ownership
import Lwt.Promise.Simulation
import Lwt.Promise.Safety
import Lwt.Promise.Delivery
import Lwt.Promise.Clearing
import Lwt.Promise.Cells
import Lwt.Promise.Spared
import Lwt.Promise.Cancel
import Lwt.Promise.Pick
import Lwt.Promise.Race
import Lwt.Promise.Nchoose
import Lwt.Promise.Records
import Lwt.Promise.Abandon
import Lwt.Promise.Marks
import Lwt.Promise.CancelCallbacks
import Lwt.Promise.Entries
import Lwt.Promise.Layers
import Lwt.Promise.Snapshots
import Lwt.Promise.Scopes
import Lwt.Promise.Pause
import Lwt.Promise.PauseRuns
import Lwt.Promise.Finality
import Lwt.Promise.Propagation
import Lwt.Stream.Queue
import Lwt.Stream.Reads
import Lwt.Stream.Segments
import Lwt.Stream.Runs
import Lwt.Stream.Positions
import Lwt.Stream.Bounded
import Lwt.Stream.Signals
import Lwt.Stream.Pushes
import Lwt.Stream.Feeding
import Lwt.Stream.Ends
import Lwt.Stream.Drain
import Lwt.Stream.Clones
import Lwt.Stream.IterN
import Lwt.Sync.Mutex
import Lwt.Sync.Condition
import Lwt.Sync.ConditionQueue
import Lwt.Sync.Mvar
import Lwt.Sync.Pool
import Lwt.Sync.PoolMembers
import Lwt.Sync.PoolCount
import Lwt.Sync.PoolClear
import Lwt.Sync.PoolWaiters
import Lwt.Io.Channel
import Lwt.Io.Tasks
import Lwt.Io.Locks
import Lwt.Io.Frame
import Lwt.Io.Exclusion
import Lwt.Io.Slices
import Lwt.Io.Vectors
import Lwt.Io.Batons
import Lwt.Io.Closing
import Lwt.Io.AutoFlush
import Lwt.Io.Endian
import Lwt.Io.Primitives
import Lwt.Io.Rules
import Lwt.Io.Output
import Lwt.Io.Written
import Lwt.Io.Input
import Lwt.Io.Reading
import Lwt.Io.Positions
import Lwt.Io.Numbers
import Lwt.Io.EndOfFile
import Lwt.Io.Access
import Lwt.Io.Sessions
import Lwt.Io.Lines
import Lwt.Io.Files
import Lwt.Library.Calls
import Lwt.Library.Instants
import Lwt.LwtList.Parallel
import Lwt.Seq.Joins
import Lwt.Seq.Nodes
import Lwt.Seq.Escapes
import Lwt.Seq.Lists
import Lwt.Unix.Engine
import Lwt.Unix.Preemptive
import Lwt.Unix.Throttle
import Lwt.Unix.Timeout
import Lwt.Unix.Timers
import Lwt.Unix.Notifications
import Lwt.Unix.Notifiers
import Lwt.Unix.ThreadPool
import Lwt.Unix.Jobs
import Lwt.Ppx.ForLoop
import Lwt.Library.Interaction
import Lwt.Ppx.Mapper
import Lwt.Ppx.Semantics
import Lwt.Ppx.Expansion
import Lwt.Ppx.Preservation
import Lwt.Library.Timing
import Lwt.Stream.Single
import Lwt.Stream.Retry
import Lwt.Stream.Lists
import Lwt.Unix.Monitor
import Lwt.React.Limit
import Lwt.React.Serial
import Lwt.Unix.Signals
import Lwt.Unix.DescriptorEvents
import Lwt.Unix.DescriptorClose
import Lwt.Unix.Children
import Lwt.Unix.Waits
import Lwt.Unix.RunInMain
import Lwt.Unix.Selecting
