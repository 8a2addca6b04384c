import UcasOs.Lib.Linked
import UcasOs.Lib.Simulation
import UcasOs.Lib.Fill
import UcasOs.Epmon.Sd
import UcasOs.Boot.Image
import UcasOs.Sched.Queue
import UcasOs.Sched.State
import UcasOs.Sched.Scheduler
import UcasOs.Sched.Locking
import UcasOs.Sched.Process
import UcasOs.Sched.Lifecycle
import UcasOs.Sched.Refine
import UcasOs.Sched.Intrusive
import UcasOs.Sched.RefineOps
import UcasOs.Sched.Status
import UcasOs.Sched.Kill
import UcasOs.Sched.Mutex
import UcasOs.Sched.LockRecord
import UcasOs.Sched.Dispatch
import UcasOs.Sched.Fairness
import UcasOs.Sched.Join
import UcasOs.Sched.Sleep
import UcasOs.Sched.Priority
import UcasOs.Sched.Ps
import UcasOs.Net.Receive
import UcasOs.Net.Ring
import UcasOs.Sched.Frame
import UcasOs.Sched.Objects
import UcasOs.Sched.Stacks
import UcasOs.Sched.Semaphore
import UcasOs.Sched.Barrier
import UcasOs.Sched.Condition
import UcasOs.Mailbox.Model
import UcasOs.Mailbox.Delivery
import UcasOs.Libs.String
import UcasOs.Libs.Scanf
import UcasOs.Shell.Params
import UcasOs.Shell.History
import UcasOs.Mailbox.Registry
import UcasOs.Fs.Remount
import UcasOs.Fs.Card
import UcasOs.Fs.Entries
import UcasOs.Fs.AnyBlock
import UcasOs.Fs.Ls
import UcasOs.Fs.LinkLs
import UcasOs.Fs.Descriptors
import UcasOs.Fs.Listing
import UcasOs.Fs.Tree
import UcasOs.Fs.Lookup
import UcasOs.Fs.BlockMap
import UcasOs.Fs.Release
import UcasOs.Fs.Missing
import UcasOs.Fs.Nested
import UcasOs.Fs.Owned
import UcasOs.Fs.Kept
import UcasOs.Fs.Create
import UcasOs.Fs.OneFile
import UcasOs.Fs.ReadBack
import UcasOs.Fs.Exact
import UcasOs.Fs.OwnBlocks
import UcasOs.Fs.Slots
import UcasOs.Fs.Allocator
import UcasOs.Fs.Counters
import UcasOs.Fs.Tally
import UcasOs.Lib.Catalog
import UcasOs.Fs.Catalog
import UcasOs.Fs.Paths
import UcasOs.Fs.Resolve
import UcasOs.Fs.Exhausted
import UcasOs.Mm.Tlb
import UcasOs.Mm.Ledger
import UcasOs.Mm.Steps
import UcasOs.Mm.Tidy
import UcasOs.Mm.Fill
import UcasOs.Mm.Evict
import UcasOs.Mm.Exclusive
import UcasOs.Mm.Resolve
import UcasOs.Mm.Isolation
import UcasOs.Lib.Mips
import UcasOs.Arch.Context
import UcasOs.Lib.Vt100
import UcasOs.Screen.Printk
import UcasOs.Screen.Model
import UcasOs.Screen.Redraw
import UcasOs.Screen.Bounds
