import TaskSch.Machine
import TaskSch.Ring
import TaskSch.Memory
import TaskSch.Reading
import TaskSch.Types
import TaskSch.Queue
import TaskSch.Overfill
import TaskSch.Executor
import TaskSch.Ledger
import TaskSch.KHeap
import TaskSch.Heapify
import TaskSch.SiftDown
import TaskSch.World
import TaskSch.Start
import TaskSch.Lanes
import TaskSch.Slots
import TaskSch.Priority
import TaskSch.Submit
import TaskSch.Balance
import TaskSch.Placement
import TaskSch.Create
import TaskSch.System
import TaskSch.Rebuild
import TaskSch.Teardown
import TaskSch.Object
import TaskSch.Locking
import TaskSch.Lifecycle
import TaskSch.Restart
import TaskSch.Terminate
import TaskSch.Wait
import TaskSch.Wakeup
import TaskSch.Signals
import TaskSch.Timeout
import TaskSch.PoolAllocator
import TaskSch.PoolRuns
import TaskSch.Retry
import TaskSch.Sections
import TaskSch.Spinlock
import TaskSch.Access
import TaskSch.Rebuilds
import TaskSch.PoolLoss
import TaskSch.Progress
import TaskSch.Hang
import TaskSch.Additions
import TaskSch.Blocks
import TaskSch.Hooks
import TaskSch.PoolStack
import TaskSch.Masks
