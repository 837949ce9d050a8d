import Chinos.Asid.Model
import Chinos.Elf.Load

/-!
# Booting up to the root task: `os/core/init/init.c`

`init_kernel` maps the kernel, allocates the ASID bitmap and creates the root task: it
loads the user ELF file, maps the UART for it and gives it a stack. The mappings of the
kernel are a list that the linker and the board settle; nothing here depends on it.
-/

namespace Chinos

/-- `CONFIG_DEFAULT_TASK_STACKSIZE`, the size of the stack of the root task. -/
def defaultTaskStacksize : U64 := 8192

/-- `USER_STACK_TOP`, which in spite of its name is where the stack begins. -/
def userStackTop : U64 := (1 <<< 39) - defaultTaskStacksize

/-- The `mm` of a `tcb` that `task_init` has cleared. -/
def MmArea.clear : MmArea := ⟨[], 0, 0, 0, 0, 0, 0, 0, 0, 0, 0, 0⟩

/-- `task_create` for the root task, with `s` the memory and an empty user table. -/
def rootTask (layout : Layout) (s : PtState MmGran) : Process :=
  ⟨s, layout.userPgd, 0, userStackTop, defaultTaskStacksize, .clear⟩

/-- `boot_user_elf`, which loads the file that is linked into the kernel, and panics if the loader
refuses it. -/
def bootUserElf (layout : Layout) (p : Process) : Except Fault Process := do
  let (ret, p) ← elfInitialize p layout.elf
  require (¬ ret < 0) .panic
  return p

/-- The page of the UART, which is mapped for the root task. -/
def devRegion : MemRegion := ⟨uartPbase, 0x0000000f00000000, 0x1000⟩

/-- `root_task_create`. The stack is not tested for `NULL`, and its protection is written
with the flags of ELF segments. -/
def rootTaskCreate (layout : Layout) (s : PtState MmGran) : Except Fault Process := do
  let p ← bootUserElf layout (rootTask layout s)
  let pt ← asMap p.addrspace devRegion 0 .device p.pt
  let (stack, heap) ← granAlloc pt.heap defaultTaskStacksize.toNat
  let stackRegion : MemRegion :=
    ⟨vbaseToPbase (BitVec.ofNat 64 stack), userStackTop, defaultTaskStacksize⟩
  let pt ← asMap p.addrspace stackRegion (pfR ||| pfW) .normal { pt with heap }
  return { p with pt }

/-- What `init_kernel` finds once the heap is there: RAM with a clear user PGD, which is in
the BSS, and a heap with `live` taken (no granule, if the GAT was clear); the calls of
`pt_map` that `as_initialize` makes; and the value of `ID_AA64MMFR0_EL1`. -/
structure Boot where
  layout : Layout
  ram : Mem
  heap : MmGran
  live : List Block
  heapInv : HeapInv layout.geo ⟨heap, live⟩
  userClear : ∀ x, linearView.InPage layout.userPgd x → ram x = 0
  regions : List MapCall
  mmfr0 : U64

/-- `as_initialize`, which maps the regions of the kernel one after another into
`kernel_addrspace`. -/
def asInitialize (boot : Boot) : Except Fault (PtState MmGran) :=
  ptMaps ptCalloc boot.layout.kernelPgd boot.regions
    ⟨boot.ram, boot.heap, [boot.layout.kernelPgd]⟩

/-- The memory of `asid_initialize`: the bitmap that `asid_calloc` takes from the heap, and
its size. -/
def asidBitmapAlloc (mmfr0 : U64) (s : PtState MmGran) :
    Except Fault (Block × PtState MmGran) := do
  let asidBits ← getCpuAsidBits mmfr0
  let (asidBitmap, s) ← mmapCalloc s (numUserAsids asidBits)
  return (⟨asidBitmap.toNat, numUserAsids asidBits⟩, s)

/-- What the start of the kernel leaves: the tables of its own address space, the bitmap of the
ASIDs, and the root task. -/
structure Booted where
  kernelTables : List U64
  asidBitmap : Block
  root : Process

/-- `init_kernel`, up to the root task; `create` is what `task_create` stores for the two
tasks before the file of the root task is loaded. -/
def initKernelWith (boot : Boot) (create : Mem → Mem) : Except Fault Booted := do
  let kernel ← asInitialize boot
  let (asidBitmap, kernel) ← asidBitmapAlloc boot.mmfr0 kernel
  let mem := create kernel.mem
  let root ← rootTaskCreate boot.layout { kernel with mem, tables := [boot.layout.userPgd] }
  return ⟨kernel.tables, asidBitmap, root⟩

/-- `init_kernel` without the registers of the tasks, which no memory call reads. -/
def initKernel (boot : Boot) : Except Fault Booted := initKernelWith boot id

end Chinos
