import Maios.Memory.Swap
import Maios.Sched.DeadlineBudget
import Maios.Sched.DequeueComplete
import Maios.Sched.EevdfFlags
import Maios.Sched.PriorityInheritance
import Maios.Syscall.Descriptors
import Maios.Syscall.LinuxFiles
import Maios.Heap.HeapContract
import Maios.Memory.BijectiveMapping
import Maios.Storage.ByteRefinement
import Maios.Storage.Partition
import Maios.Sync.AsyncChannel
import Maios.Sync.RendezvousDelivery
import Maios.Sync.WaitQueue
import Maios.Elf.Loader
import Maios.Nvme.CompletionQueue
import Maios.Nvme.Transfer
import Maios.Pe.ImportTable
import Maios.Vfs.Tree
import Maios.Display.WindowStack
import Maios.Sched.EevdfSelection
import Maios.Storage.Eviction
import Maios.Fat32.FailedCalls
import Maios.Fat32.ArbitraryImage
import Maios.Sched.DeadlineSelection
import Maios.Sched.EevdfClock
import Maios.Sched.PriorityScheduler
import Maios.Heap.SlabAccounting
import Maios.Memory.RangeIteration
import Maios.Memory.RangeParts
import Maios.Syscall.Calendar
import Maios.Syscall.ProgramBreak
import Maios.Crates.SymbolLookup
import Maios.Crates.DeadDependents
import Maios.Memory.PageAliases
