import Xv6.PipeRt.Delivery
import Xv6.Log.Admission
import Xv6.Vm.MemoryMap
import Xv6.Vm.ShowVm
import Xv6.Proc.Reuse
import Xv6.Proc.Shm
import Xv6.Pipe.NoLostWakeup
import Xv6.Sleeplock
import Xv6.PipeRt.User
import Xv6.Console.Fifo
import Xv6.Kern.Read
import Xv6.Timer.Periodic
import Xv6.PipeRt.Pages
import Xv6.Mkfs.Boot
import Xv6.Fs.FileWrite
import Xv6.Smp.Affinity
import Xv6.Bio.Cache
import Xv6.Virtio.Completion
import Xv6.Files.System
import Xv6.Ipc.ShmTest
import Xv6.Ipc.TestPipeRt
import Xv6.Vprintf
import Xv6.Timer.Stores
import Xv6.Pipe.Loss
