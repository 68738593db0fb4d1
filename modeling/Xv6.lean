import Xv6.AllocRace
import Xv6.OutOfMemory
import Xv6.PipeSleep
import Xv6.Log.Crash
import Xv6.LostWakeup
import Xv6.Killing
import Xv6.BufferLimit
import Xv6.InodeCoherence
import Xv6.VirtioProtocol
import Xv6.LockOrder
import Xv6.MkfsWellFormed
import Xv6.Va2paWalk
import Xv6.InodeLimit
import Xv6.UserCopy
import Xv6.ExecArgs
import Xv6.WriteChunk
import Xv6.FileTrunc
import Xv6.CowFault
import Xv6.FailedFork
import Xv6.PhysicalAddress
import Xv6.PsRecords
import Xv6.PipeRead
import Xv6.ConsoleLines
import Xv6.PathWalk
import Xv6.LinkCounts
import Xv6.SysPipe
import Xv6.DirectoryMap
import Xv6.FileRead
import Xv6.Grep
import Xv6.Memmove
import Xv6.IntrNesting
import Xv6.MallocSbrk
import Xv6.ShellCorrect
import Xv6.Spinlock
import Xv6.Uart
import Xv6.Sleeplock
import Xv6.SysSleep
import Xv6.RoundRobin
import Xv6.ShellRun
import Xv6.ShellWait
import Xv6.Boot
import Xv6.BufferContents
import Xv6.Wc
