import Raampjes.Lib.Runs
import Raampjes.Lib.RingQueue
import Raampjes.Lib.CyclicScan
import Raampjes.Lib.CyclicList
import Raampjes.Lib.Tiling
import Raampjes.Tty.Buffer
import Raampjes.Sched.Task
import Raampjes.Sched.Step
import Raampjes.Sched.Invariant
import Raampjes.Sched.Outcome
import Raampjes.Sched.Dispatch
import Raampjes.Sched.Table
import Raampjes.Sched.Wait
import Raampjes.Sched.Wakeup
import Raampjes.Sched.Line
import Raampjes.Libc.Malloc
import Raampjes.Libc.FreeList
import Raampjes.Libc.Search
import Raampjes.Libc.Partition
import Raampjes.Libc.Stdio
import Raampjes.Mm.PhysInit
import Raampjes.Tty.Vga
import Raampjes.Lib.Prog
import Raampjes.Mm.Machine
import Raampjes.Mm.Exec
import Raampjes.Mm.System
import Raampjes.Mm.Layout
import Raampjes.Mm.Bounds
import Raampjes.Mm.Slots
import Raampjes.Mm.Unshare
import Raampjes.Mm.Local
import Raampjes.Mm.UserHalf
import Raampjes.Mm.Faults
import Raampjes.Mm.Loads
import Raampjes.Mm.Fork
import Raampjes.Mm.Tasks
import Raampjes.Mm.Steps
import Raampjes.Mm.KernelHalf
import Raampjes.Tty.Keyboard
import Raampjes.Mm.Sbrk
import Raampjes.Tty.Terminal
import Raampjes.Libc.Undo
import Raampjes.Libc.Visits
import Raampjes.Libc.Refusal
import Raampjes.Libc.Sizes
import Raampjes.Mm.FreeAddress
import Raampjes.Lib.Refs
import Raampjes.Mm.Counts
import Raampjes.Mm.Unmap
import Raampjes.Mm.Mapping
import Raampjes.Mm.Teardown
import Raampjes.Mm.CopyOnWrite
import Raampjes.Lib.While
import Raampjes.Lib.Words
import Raampjes.Lib.Lockstep
import Raampjes.Libc.String
import Raampjes.Libc.Strtok
import Raampjes.Ramdisk.FindFile
import Raampjes.Ramdisk.Contents
import Raampjes.Ramdisk.Archive
import Raampjes.Ramdisk.Execve
import Raampjes.Initrd.Tokens
import Raampjes.Initrd.Bc
import Raampjes.Sched.Write
import Raampjes.Sched.Overflow
import Raampjes.Mm.Overlap
import Raampjes.Mm.NewPages
import Raampjes.Mm.Children
import Raampjes.Mm.FirstFork
import Raampjes.Mm.WriteFault
import Raampjes.Mm.TornDown
import Raampjes.Mm.StatusStore
import Raampjes.Mm.Locality
import Raampjes.Mm.Heap
import Raampjes.Mm.Twins
import Raampjes.Mm.Known
import Raampjes.Mm.Leftovers
import Raampjes.Lib.Numerals
import Raampjes.Tty.Itoa
import Raampjes.Tty.Decimal
import Raampjes.Tty.Kprintf
import Raampjes.Lib.RealMode
import Raampjes.Lib.Nibbles
import Raampjes.Boot.Floppy
import Raampjes.Boot.Fat
import Raampjes.Lib.Ghost
import Raampjes.Lib.Memory
import Raampjes.Mm.Ledger
import Raampjes.Mm.Books
import Raampjes.Mm.Fence
import Raampjes.Mm.UserBytes
import Raampjes.Mm.LoadedImage
import Raampjes.Mm.Isolation
import Raampjes.Mm.Memories
import Raampjes.Lib.Flat
import Raampjes.Entry.SwitchTask
import Raampjes.Entry.Waiting
import Raampjes.Sched.Fairness
import Raampjes.Boot.Directory
import Raampjes.Boot.FirstStage
import Raampjes.Entry.Handlers
import Raampjes.Entry.Preemption
import Raampjes.Entry.ForkReturn
