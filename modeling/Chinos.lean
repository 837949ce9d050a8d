import Chinos.Machine.Basic
import Chinos.Machine.Bits
import Chinos.Machine.Memory
import Chinos.Machine.Ring
import Chinos.Machine.Chain
import Chinos.Machine.Tags
import Chinos.Machine.Streak
import Chinos.Utils.Bitmap
import Chinos.Gran.Model
import Chinos.Gran.Search
import Chinos.Gran.Mark
import Chinos.Gran.Heap
import Chinos.Gran.Info
import Chinos.Paging.Model
import Chinos.Paging.Walk
import Chinos.Paging.Tree
import Chinos.Paging.Build
import Chinos.Paging.Exact
import Chinos.Paging.Agree
import Chinos.Paging.Small
import Chinos.Mm.Model
import Chinos.Mm.Frames
import Chinos.Mm.Inv
import Chinos.Mm.Syscalls
import Chinos.Mm.Runs
import Chinos.Elf.Model
import Chinos.Elf.Load
import Chinos.Boot.Model
import Chinos.Boot.Root
import Chinos.Boot.Safety
import Chinos.Boot.Break
import Chinos.Boot.Areas
import Chinos.Boot.Image
import Chinos.Boot.Loader
import Chinos.Boot.Calls
import Chinos.Sched.Model
import Chinos.Sched.Bitmap
import Chinos.Sched.Queues
import Chinos.Sched.Refine
import Chinos.Sched.Run
import Chinos.Sched.Safety
import Chinos.Sched.Blocking
import Chinos.Sched.Mixed
import Chinos.Sched.Rotation
import Chinos.Sched.Sleep
import Chinos.Task.Model
import Chinos.Task.Tids
import Chinos.Asid.Model
import Chinos.Asid.Safety
import Chinos.Asid.Hardware
import Chinos.Slob.Model
import Chinos.Slob.Cells
import Chinos.Slob.FreeList
import Chinos.Slob.Heap
import Chinos.Slob.Free
import Chinos.Slob.Take
import Chinos.Slob.Grow
import Chinos.Slob.Malloc
import Chinos.Slob.Safety
import Chinos.Slob.BestFit
import Chinos.Slob.Refused
import Chinos.Slob.Kernel
import Chinos.Libc.Memset
import Chinos.Task.Assign
import Chinos.Sched.State
import Chinos.Gran.Init
import Chinos.Asid.History
import Chinos.Asid.Stable
import Chinos.Boot.Permissions
import Chinos.Libc.Directive
import Chinos.Libc.Number
import Chinos.Libc.Layout
import Chinos.Libc.Conforms
import Chinos.Gran.Exact
import Chinos.Machine.Traced
import Chinos.Gran.Table
import Chinos.Irq.Gic
import Chinos.Machine.Arm64
import Chinos.Space.Kernel
import Chinos.Space.Runs
import Chinos.Trap.Context
import Chinos.Trap.Inv
import Chinos.Trap.Progress
import Chinos.Trap.Safety
