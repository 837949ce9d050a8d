import Chinos.Gran.Model
import Chinos.Paging.Model

/-!
# Memory of a task: `os/core/mm/addrspace.c` and `os/core/mm/mmap.c`

`as_map` turns a protection into page attributes and calls `pt_map`. `sys_brk` and
`sys_mmap` back what they map with memory from the granule heap. A `Process` is what
these functions work on: the `mm` of the calling task, its page table, physical memory
and the heap.
-/

namespace Chinos

/-! ## Memory from the granule heap -/

/-- The physical address that a kernel pointer accesses, by the linear map of RAM. -/
def phys (vaddr : U64) : Nat := (vbaseToPbase vaddr).toNat

/-- `gran_alloc(g_heap, size)` and `k_memset(p, 0, size)`, the body that the `calloc` functions of
the kernel share. None of them tests for `NULL` in between, so if the heap has no room, `k_memset`
writes to addresses from 0 on. The run ends there with `.null`. On the machine it would go on if
the task has mapped virtual page 0, and such runs are not modelled. -/
def granCalloc (size : Nat) (heap : MmGran) (mem : Mem) : Except Fault (U64 × MmGran × Mem) := do
  let (p, heap) ← granAlloc heap size
  require (p ≠ 0 ∨ size = 0) .null
  return (BitVec.ofNat 64 p, heap, mem.fill (phys (BitVec.ofNat 64 p)) size 0)

/-- `pt_calloc`, as `pt_map` calls it for a page table. -/
def ptCalloc : PtAlloc MmGran := granCalloc 4096

/-- `mmap_calloc`, which backs the memory of user tasks and holds their `struct vm_area`. -/
def mmapCalloc (s : PtState MmGran) (size : Nat) : Except Fault (U64 × PtState MmGran) := do
  let (p, heap, mem) ← granCalloc size s.heap s.mem
  return (p, { s with mem, heap })

/-! ## `as_map` -/

/-- `PTE_USER`, bit 6, which gives EL0 access. -/
def pteUser : U64 := 1 <<< 6

/-- `PTE_RDONLY`, bit 7, which takes the right to write away. -/
def pteRdonly : U64 := 1 <<< 7

/-- `PTE_SHARED`, bits 8 and 9, the inner shareable domain. -/
def pteShared : U64 := 3 <<< 8

/-- `PTE_AF`, bit 10, without which the first access is a fault. -/
def pteAf : U64 := 1 <<< 10

/-- `PTE_NG`, bit 11, by which a translation is cached under its ASID. -/
def pteNg : U64 := 1 <<< 11

/-- `PTE_WRITE`, the same as `PTE_DBM`, bit 51. Dirty bit management is not turned on in
TCR_EL1. -/
def pteWrite : U64 := 1 <<< 51

/-- `PTE_PXN`, bit 53, which keeps EL1 from executing the page. -/
def ptePxn : U64 := 1 <<< 53

/-- `PTE_UXN`, bit 54, which keeps EL0 from executing the page. -/
def pteUxn : U64 := 1 <<< 54

/-- `PTE_ATTRINDX(t)`, bits 2 to 4, the index of the memory type `t`. -/
def pteAttrindx (t : U64) : U64 := t <<< 2

def mtDeviceNGnRE : U64 := 1

def mtNormal : U64 := 4

/-- `PROT_DEFAULT`, what the attributes of all pages have in common. -/
def protDefault : U64 := typeTable ||| pteAf ||| pteShared ||| pteNg

def protRead : BitVec 32 := 1

def protWrite : BitVec 32 := 2

def protExec : BitVec 32 := 4

/-- `UART_PBASE`, the address of the one device that user tasks may access. -/
def uartPbase : U64 := 0x09000000

/-- `RAM_TYPE_e`, the two kinds of memory that `as_map` tells apart. -/
inductive RamType
  | normal
  | device
  deriving DecidableEq

/-- The attributes that `as_map` computes. `PTE_RDONLY` is set only for a protection that asks to
read, and taken back if it asks to write. -/
def asAttr (prot : BitVec 32) (type : RamType) : U64 :=
  let attr := protDefault ||| pteUser ||| pteWrite ||| ptePxn ||| pteUxn
  let attr := if prot &&& protRead ≠ 0 then attr ||| pteRdonly else attr
  let attr := if prot &&& protExec ≠ 0 then attr &&& ~~~pteUxn else attr
  let attr := if prot &&& protWrite ≠ 0 then attr &&& ~~~pteRdonly else attr
  match type with
  | .normal => attr ||| pteAttrindx mtNormal
  | .device => attr ||| pteAttrindx mtDeviceNGnRE

/-- `struct mem_region`, a range of physical memory and the virtual address it is to have. -/
structure MemRegion where
  pbase : U64
  vbase : U64
  size : U64

/-- `as_map`, for the table at `addrspace`. `pt_map` has no other answer than 0. -/
def asMap (addrspace : U64) (region : MemRegion) (prot : BitVec 32) (type : RamType)
    (s : PtState MmGran) : Except Fault (PtState MmGran) :=
  ptMap ptCalloc addrspace region.vbase region.pbase region.size (asAttr prot type) s

/-! ## Tasks -/

/-- `struct vm_area`: the record at `addr`, without the fields that are never read. -/
structure VmArea where
  addr : U64
  vmStart : U64
  vmEnd : U64
  vmProt : U64
  vmFlags : U64
  vmName : String

/-- `struct mm_area`, in which `areas` is the list at `link_head`. -/
structure MmArea where
  areas : List VmArea
  mmapBase : U64
  startBrk : U64
  brk : U64
  startStack : U64
  endStack : U64
  startCode : U64
  endCode : U64
  startData : U64
  endData : U64
  startBss : U64
  endBss : U64

/-- A user task as far as its memory goes: the `addrspace`, `stack`, `stack_size` and `mm`
of its `tcb`, the entry point in its context, and the memory it shares with the kernel. -/
structure Process where
  pt : PtState MmGran
  addrspace : U64
  entry : U64
  stack : U64
  stackSize : U64
  mm : MmArea

/-! ## `sys_brk` -/

/-- `sys_brk`. The growth is an `int`, so it is cut down to 32 bits, and a break that is not
raised maps nothing. -/
def sysBrk (p : Process) (brk : U64) : Except Fault (U64 × Process) := do
  if brk < p.mm.startBrk then
    return (p.mm.brk, p)
  let heapSize := cInt (brk - p.mm.brk).toNat
  let p ←
    if heapSize > 0 then do
      let (vaddr, pt) ← mmapCalloc p.pt (cU64 heapSize)
      let region : MemRegion := ⟨vbaseToPbase vaddr, p.mm.brk, BitVec.ofInt 64 heapSize⟩
      let pt ← asMap p.addrspace region (protRead ||| protWrite) .normal pt
      pure { p with pt }
    else pure p
  return (brk, { p with mm := { p.mm with brk } })

/-! ## `sys_mmap` -/

def mapShared : U64 := 0x01

def mapPrivate : U64 := 0x02

def mapFixed : U64 := 0x10

def mapAnonymous : U64 := 0x20

/-- `-EINVAL`, as the pointer that `sys_mmap` returns. -/
def negEinval : U64 := -22

/-- `-ENOMEM`, as the pointer that `sys_mmap` returns. -/
def negEnomem : U64 := -12

/-- `IS_ERR_VALUE`, which takes the last 4096 addresses for error numbers. -/
def IsErrValue (x : U64) : Prop := x ≥ -4096

instance (x : U64) : Decidable (IsErrValue x) := inferInstanceAs (Decidable (_ ≥ _))

/-- `sizeof(struct vm_area)`, which is what `do_mmap` asks the heap for. -/
def sizeofVmArea : Nat := 136

/-- The `vm_name` that `do_mmap` gives to an area by its flags. -/
def vmNameOf (flags : U64) : String :=
  if flags = mapPrivate then "MAP_PRIVATE"
  else if flags = mapPrivate ||| mapAnonymous then "MAP_PRIVATE | MAP_ANONYMOUS"
  else if flags = mapPrivate ||| mapAnonymous ||| mapFixed then
    "MAP_PRIVATE | MAP_ANONYMOUS | MAP_FIXED"
  else if flags = mapShared then "MAP_SHARED"
  else if flags = mapShared ||| mapAnonymous then "MAP_SHARED | MAP_ANONYMOUS"
  else if flags = mapShared ||| mapAnonymous ||| mapFixed then
    "MAP_SHARED | MAP_ANONYMOUS | MAP_FIXED"
  else "UNKNOWN"

/-- `find_free_vma`: the `vm_start` and `vm_end` it stores. Its loop returns in the first
turn. -/
def findFreeVma (mm : MmArea) (len : U64) : U64 × U64 :=
  match mm.areas with
  | [] => (mm.mmapBase - len, mm.mmapBase)
  | first :: _ => (first.vmStart - len, first.vmStart)

/-- `mmap_region`, which backs an area with cleared memory. `as_map` takes the protection as a
`uint32_t`. -/
def mmapRegion (p : Process) (addr len prot : U64) : Except Fault (U64 × Process) := do
  let (vaddr, pt) ← mmapCalloc p.pt len.toNat
  let pt ← asMap p.addrspace ⟨vbaseToPbase vaddr, addr, len⟩ (prot.setWidth 32) .normal pt
  return (addr, { p with pt })

/-- The start and the end of the area that `do_mmap` makes: at the hint if there is one, and
otherwise below the first area of the list. -/
def placeVma (mm : MmArea) (addr len : U64) : U64 × U64 :=
  if addr = 0 then findFreeVma mm len else (addr, addr + len)

/-- `do_mmap`, which records the area before it is backed, and does not look for other areas in
its place. -/
def doMmap (p : Process) (addr len prot flags : U64) : Except Fault (U64 × Process) := do
  let (record, pt) ← mmapCalloc p.pt sizeofVmArea
  let (vmStart, vmEnd) := placeVma p.mm addr len
  let vma : VmArea := ⟨record, vmStart, vmEnd, prot, flags, vmNameOf flags⟩
  let p := { p with pt, mm := { p.mm with areas := vma :: p.mm.areas } }
  mmapRegion p vmStart len prot

/-- `sys_mmap`. It looks at `fd` and `off` only to print them. -/
def sysMmap (p : Process) (start len prot flags _fd _off : U64) :
    Except Fault (U64 × Process) := do
  if flags &&& mapPrivate = 0 ∧ flags &&& mapShared = 0 then
    return (negEinval, p)
  if len = 0 then
    return (negEinval, p)
  let (ret, p) ← doMmap p (alignPage start) (alignPage len) prot flags
  if IsErrValue ret then return (negEnomem, p) else return (ret, p)

/-- The memory calls of a task, with the arguments that `sys_brk` and `sys_mmap` take. -/
inductive MmCall
  | brk (addr : U64)
  | mmap (start len prot flags fd off : U64)

/-- What the kernel does on a call: the value returned and the process after it. -/
def MmCall.run (p : Process) : MmCall → Except Fault (U64 × Process)
  | .brk addr => sysBrk p addr
  | .mmap start len prot flags fd off => sysMmap p start len prot flags fd off

end Chinos
