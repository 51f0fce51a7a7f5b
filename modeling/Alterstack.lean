import Alterstack.Lib.Machine
import Alterstack.Lib.Segment
import Alterstack.Lib.Object
import Alterstack.Lib.Program
import Alterstack.Lib.Counter
import Alterstack.Futex.Code
import Alterstack.Futex.Handshake
import Alterstack.Background.Pool
import Alterstack.Background.Stopping
import Alterstack.Background.Shutdown
import Alterstack.Background.WakeAll
import Alterstack.Awaitable.Code
import Alterstack.Futex.NativeTask
import Alterstack.Awaitable.Handover
import Alterstack.Awaitable.Failure
import Alterstack.Queue.Code
import Alterstack.Queue.Ownership
import Alterstack.Queue.Conservation
import Alterstack.Queue.Stack
import Alterstack.Queue.Progress
import Alterstack.Queue.Shelf
import Alterstack.Queue.Alone
import Alterstack.Queue.Sequential
import Alterstack.Queue.Emptiness
import Alterstack.Queue.Bag
import Alterstack.Queue.Quiescent
import Alterstack.Queue.Fairness
import Alterstack.Queue.Priority
import Alterstack.Queue.Fifo
import Alterstack.Scheduler.Code
import Alterstack.Scheduler.Threads
import Alterstack.Scheduler.Tokens
import Alterstack.Scheduler.WaitLists
import Alterstack.Scheduler.Awake
import Alterstack.Scheduler.Invariant
import Alterstack.Scheduler.Switching
import Alterstack.Scheduler.Releasing
import Alterstack.Scheduler.Orderly
import Alterstack.Scheduler.Exclusive
import Alterstack.Scheduler.Waiting
import Alterstack.Scheduler.Accesses
import Alterstack.Scheduler.Frames
import Alterstack.Scheduler.DoSchedule
import Alterstack.Scheduler.Sleepless
import Alterstack.Scheduler.Blocking
import Alterstack.Scheduler.Links
import Alterstack.Scheduler.Overlay
import Alterstack.Scheduler.Placed
import Alterstack.Scheduler.Finished
import Alterstack.Scheduler.Places
import Alterstack.Scheduler.Joining
import Alterstack.Scheduler.Lifetime
import Alterstack.Scheduler.Destroying
import Alterstack.Scheduler.Migration
import Alterstack.Waking.Code
import Alterstack.Waking.Passing
import Alterstack.Waking.Returning
import Alterstack.Scheduler.WakingSteps
import Alterstack.Runtime.Code
import Alterstack.Runtime.Refinement
import Alterstack.Runtime.Lists
import Alterstack.Runtime.Progress
