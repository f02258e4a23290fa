import Xv6.Lib.Transition
import Xv6.Fs.LogCrash
import Xv6.Fs.LogSpace
import Xv6.Fs.Owned
import Xv6.Kernel.MutexSafety
import Xv6.Kernel.SleepLock
import Xv6.Kernel.Stack
import Xv6.Kernel.Exit
import Xv6.Kernel.ProcState
import Xv6.Kernel.Condition
import Xv6.Kernel.Join
import Xv6.Kernel.Fork
import Xv6.Kernel.Holdings
import Xv6.Kernel.BoundedWait
import Xv6.Kernel.Console
import Xv6.User.Grep
import Xv6.User.Memmove
import Xv6.User.ShellStrings
import Xv6.User.TreeAlloc
import Xv6.User.TreeMisuse
import Xv6.Vm.Sbrk
import Xv6.Vm.ForkSbrk
import Xv6.Vm.ExecLoad
import Xv6.Vm.Copyout
import Xv6.Fs.DirMap
import Xv6.Fs.Lookup
import Xv6.Fs.PipeWake
import Xv6.Fs.Ide
import Xv6.Kernel.SyscallArgs
