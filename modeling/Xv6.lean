import Xv6.Bio.Pinning
import Xv6.Boot.MpTable
import Xv6.Exec.Guarantees
import Xv6.Files.Counts
import Xv6.Fs.Dangling
import Xv6.Fs.DirMap
import Xv6.Fs.FailedCalls
import Xv6.Fs.SelfLock
import Xv6.Fs.SharedFile
import Xv6.Ipc.Sleep
import Xv6.Ipc.Unread
import Xv6.Locks.Deadlock
import Xv6.Locks.SleepLock
import Xv6.Log.Recovery
import Xv6.Log.Reservation
import Xv6.Memory.Memmove
import Xv6.Sched.Arrival
import Xv6.Sched.ByPid
import Xv6.Sched.Capacity
import Xv6.Sched.Current
import Xv6.Sched.FirstCome
import Xv6.Sched.Kill
import Xv6.Sched.Statistics
import Xv6.Syscall.Arguments
import Xv6.Vm.Processes
