import ManiOS.Desktop.Calc
import ManiOS.Desktop.Scroll
import ManiOS.Dos.Ems
import ManiOS.Dos.Exec
import ManiOS.Dos.Paths
import ManiOS.Dos.Wild
import ManiOS.Dos.Xms
import ManiOS.Drivers.Audio
import ManiOS.Drivers.Calendar
import ManiOS.Drivers.Console
import ManiOS.Fat.Coherence
import ManiOS.Fat.Failure
import ManiOS.Interp.Strings
import ManiOS.Iso.RockRidge
import ManiOS.Kernel.Sha256
import ManiOS.Libc.Division
import ManiOS.Mm.Boot
import ManiOS.Mm.Break
import ManiOS.Mm.UserPages
import ManiOS.Mm.UserCopy
import ManiOS.Mm.Shared
import ManiOS.Pipe.Teardown
import ManiOS.Process.Elf
import ManiOS.Process.Names
import ManiOS.Process.Runs
import ManiOS.Sched.Mutex
import ManiOS.Shell.Batch
import ManiOS.Vfs.Clean
import ManiOS.Vfs.Readdir
import ManiOS.Vfs.Unions
import ManiOS.Zrp.Death
import ManiOS.Zrp.Workers
import ManiOS.Fat.Bounds
