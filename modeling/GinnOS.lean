import GinnOS.Ext2.Counts
import GinnOS.Ext2.DirectoryTree
import GinnOS.Ext2.DirectoryMap
import GinnOS.Ext2.Isolation
import GinnOS.Kernel.PipeWaiters
import GinnOS.Scheduler.Interrupts
import GinnOS.Scheduler.Wakeups
import GinnOS.Vfs.Mounts
import GinnOS.Terminal.Cursor
import GinnOS.Shell.Quoting
import GinnOS.Shell.Restoring
import GinnOS.Libc.MallocRuns
import GinnOS.Memory.Mappings
import GinnOS.Memory.Images
import GinnOS.Usermode.Stack
import GinnOS.Memory.FreeMemory
