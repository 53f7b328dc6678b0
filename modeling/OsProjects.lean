import OsProjects.Lib.Run
import OsProjects.Driver.Card
import OsProjects.Driver.FifoDelivery
import OsProjects.Driver.Preemption
import OsProjects.Driver.DmaQueue
import OsProjects.Driver.SessionInv
import OsProjects.Driver.Delivery
import OsProjects.Driver.Teardown
import OsProjects.Driver.Binding
import OsProjects.Scheduler.Greedy
import OsProjects.Scheduler.Nearest
import OsProjects.Scheduler.Reference
import OsProjects.Lib.Drain
import OsProjects.Scheduler.SeekBound
import OsProjects.Lib.ListHead
import OsProjects.Scheduler.Heap
import OsProjects.Scheduler.Conservation
import OsProjects.Scheduler.Simulation
import OsProjects.Driver.Handles
import OsProjects.Driver.Wakeup
import OsProjects.Driver.Threads
import OsProjects.Smunch.Signals
import OsProjects.Smunch.Smunch
import OsProjects.Smunch.Spec
import OsProjects.Smunch.Deepsleep
import OsProjects.Smunch.Calls
import OsProjects.Driver.Mmap
import OsProjects.Scheduler.Rings
import OsProjects.Scheduler.Commute
import OsProjects.Scheduler.SameSector
import OsProjects.Scheduler.Sectors
import OsProjects.Scheduler.Starvation
import OsProjects.Scheduler.Competitive
import OsProjects.Driver.RingContents
import OsProjects.Labs.Ring
import OsProjects.Labs.Session
import OsProjects.Driver.FlushLoop
import OsProjects.Driver.Pipeline
import OsProjects.Driver.Graphics
import OsProjects.Driver.Commands
import OsProjects.Driver.Mirror
import OsProjects.User.DmaCommands
import OsProjects.User.FifoCommands
