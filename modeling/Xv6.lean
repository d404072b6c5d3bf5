import Xv6.Bio.Supply
import Xv6.Bio.Transparency
import Xv6.Console.Discipline
import Xv6.Fs.Blocks
import Xv6.Fs.Budget
import Xv6.Fs.Directory
import Xv6.Fs.Files
import Xv6.Fs.Names
import Xv6.Fs.Paths
import Xv6.Fs.Refs
import Xv6.Kernel.Conservation
import Xv6.Kernel.CpuLimit
import Xv6.Kernel.DiskOrder
import Xv6.Kernel.Doomed
import Xv6.Kernel.FileKinds
import Xv6.Kernel.Lazy
import Xv6.Kernel.OpenLimit
import Xv6.Kernel.ReadBounds
import Xv6.Kernel.RefCount
import Xv6.Kernel.UserCopies
import Xv6.Lib.Slots
import Xv6.Lib.Words
import Xv6.Log.Reservation
import Xv6.Pipe.Fifo
import Xv6.Sched.Deadlock
import Xv6.Sched.Times
import Xv6.User.Heap
import Xv6.User.Parser
import Xv6.Vm.RawTable
