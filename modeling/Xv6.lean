import Xv6.Sh4a.Preempt
import Xv6.Kernel.Fetch
import Xv6.Kernel.Memmove
import Xv6.Kernel.Orphan
import Xv6.Switch.Handoff
import Xv6.Proc.Exit
import Xv6.Proc.Family
import Xv6.Proc.Kill
import Xv6.Vm.Isolation
import Xv6.Vm.Load
import Xv6.Vm.Mappages
import Xv6.Vm.Tlb
import Xv6.Mem.Sizes
import Xv6.Icache.Lock
import Xv6.Fs.Buffers
import Xv6.Fs.Stray
import Xv6.Pipe.Alloc
import Xv6.Pipe.Wakeup
import Xv6.Console.Format
import Xv6.Console.Read
import Xv6.Mkfs.Format
import Xv6.Shell.Command
import Xv6.User.Grep
import Xv6.User.Sbrk
import Xv6.Kernel.Fetch
