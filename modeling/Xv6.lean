import Xv6.Bio.Lru
import Xv6.Bio.Refine
import Xv6.Console.Line
import Xv6.Cpu.Sections
import Xv6.Exec.Image
import Xv6.Exec.Isolation
import Xv6.Files.TableFull
import Xv6.Fs.Balloc
import Xv6.Fs.DirMap
import Xv6.Fs.Holes
import Xv6.Fs.Orphans
import Xv6.Fs.Reread
import Xv6.Fs.SharedWrite
import Xv6.Fs.ShortCopy
import Xv6.Log.Transparent
import Xv6.Log.Waiters
import Xv6.Pipe.Fifo
import Xv6.Pipe.Waiters
import Xv6.Proc.Kill
import Xv6.Proc.Lifecycle
import Xv6.Proc.Sleepers
import Xv6.Proc.Ticks
import Xv6.Proc.Wakeup
import Xv6.Read.Bounds
import Xv6.Read.Copyin
import Xv6.Sh.Command
import Xv6.Umalloc.Break
import Xv6.User.Grep
import Xv6.User.Printf
import Xv6.Virtio.Protocol
import Xv6.Vm.Memmove
