import Sbunix.Disk.CacheCoherence
import Sbunix.Pcache.Unique
import Sbunix.Proc.JobControl
import Sbunix.Pipe.Atomicity
import Sbunix.Signal.Suspend
import Sbunix.Signal.Restart
import Sbunix.Proc.Groups
import Sbunix.Proc.Sleep
import Sbunix.Console.Lines
import Sbunix.Tmpfs.Content
import Sbunix.Malloc.Blocks
import Sbunix.Environ.Refinement
import Sbunix.Fs.Stat
import Sbunix.Vm.FileMapping
import Sbunix.Vm.Stack
import Sbunix.Vm.UserCopy
import Sbunix.Procfs.Identity
import Sbunix.Shell.Lists
import Sbunix.Tmpfs.Calls
import Sbunix.Sbfs.Mkdir
import Sbunix.Exec.Image
import Sbunix.Exec.Frames
import Sbunix.Libc.Numbers
import Sbunix.Libc.Strftime
import Sbunix.Shell.Glob
import Sbunix.Libc.Sort
import Sbunix.Libc.Exit
import Sbunix.Libc.Select
import Sbunix.Bin.Tail
