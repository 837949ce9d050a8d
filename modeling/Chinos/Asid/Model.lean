import Chinos.Paging.Model
import Chinos.Utils.Bitmap

/-!
# Address space identifiers: `os/core/sched/task.c` and `as_switch`

A user task runs under an ASID number, a bit position of `asid_bitmap`. The
number and the generation it was given in are kept together in `task->asid`;
when the numbers run out, `check_and_switch_context` starts a new generation with
an empty bitmap and asks for a TLB flush, which `task_switch` performs the next
time it changes the address space.
-/

namespace Chinos

/-- `TASK_TYPE_KERNEL` and `TASK_TYPE_USER`. `as_switch` panics on any other value
of the byte; no task is created with one. -/
inductive TaskType
  | kernel
  | user
  deriving DecidableEq, Repr

/-- The fields of the tasks that a switch reads and never writes. `addrspace` is
the address of `task->addrspace`, which begins with the table `pg_table`. -/
structure TaskSet (T : Type) where
  type : T → TaskType
  tgid : T → Int
  addrspace : T → U64
  idle : T
  /-- Address spaces are objects of the kernel image, which begins at `RAM_VBASE`. -/
  ram : ∀ t, ramVbase ≤ addrspace t
  idle_kernel : type idle = .kernel

/-- Tasks share an address space exactly if they share a `tgid`. -/
def TaskSet.SharesByTgid {T : Type} (tasks : TaskSet T) : Prop :=
  ∀ t u, tasks.addrspace t = tasks.addrspace u ↔ tasks.tgid t = tasks.tgid u

/-- No kernel task runs on the address space of a user task. Nothing in `task.c` sees to
this; the kernel meets it because its only kernel task, `idle`, runs on `kernel_addrspace`. -/
def TaskSet.KernelApart {T : Type} (tasks : TaskSet T) : Prop :=
  ∀ t u, tasks.type t = .kernel → tasks.type u = .user → tasks.addrspace t ≠ tasks.addrspace u

/-- The variables of `task.c` that deal with ASIDs, `cur_idx` (a `static` of
`check_and_switch_context`) among them, and the `asid` field of every task. -/
structure AsidState (T : Type) where
  asidBits : Nat
  asidGeneration : U64
  asidBitmap : Bitmap
  tlbFlush : Bool
  curIdx : Nat
  asid : T → U64

/-- `GENMASK(h, l)`, the word in which bits `l` to `h` are set. -/
def genmask (h l : Nat) : U64 :=
  (BitVec.allOnes 64 - 1#64 <<< l + 1#64) &&& (BitVec.allOnes 64 >>> (64 - 1 - h))

/-- `ASID_MASK`, the bits of an `asid` field that hold the number. -/
def asidMask (asidBits : Nat) : U64 := genmask (asidBits - 1) 0

/-- `ASID_FIRST_VERSION`, the generation that `asid_initialize` starts with. -/
def asidFirstVersion (asidBits : Nat) : U64 := 1#64 <<< asidBits

/-- `NUM_USER_ASIDS`, the number of bits of `asid_bitmap`. -/
def numUserAsids (asidBits : Nat) : Nat := (asidFirstVersion asidBits).toNat

/-- `get_cpu_asid_bits`, on the value of `ID_AA64MMFR0_EL1`: the width of an ASID is 8 or 16 bits,
and any other answer of the processor is a panic. -/
def getCpuAsidBits (mmfr0 : U64) : Except Fault Nat :=
  if (mmfr0 >>> 4) &&& 15 = 0 then .ok 8
  else if (mmfr0 >>> 4) &&& 15 = 2 then .ok 16
  else .error .panic

/-- `asid_calloc`: `block` is the memory `gran_alloc` handed out, `none` if it
returned `NULL`. -/
def asidCalloc (block : Option Bitmap) (size : Nat) : Except Fault Bitmap :=
  match block with
  | none => .error .null
  | some block => .ok fun i => if i < size / 8 then 0 else block i

section Asid

variable {T : Type}

/-- `asid_initialize`, with the value of `ID_AA64MMFR0_EL1` and the memory that is there for the
bitmap. -/
def asidInitialize (mmfr0 : U64) (block : Option Bitmap) (s : AsidState T) :
    Except Fault (AsidState T) := do
  let asidBits ← getCpuAsidBits mmfr0
  let asidBitmap ← asidCalloc block (numUserAsids asidBits)
  return { s with
    asidBits := asidBits
    asidBitmap := bitmapZero asidBitmap (numUserAsids asidBits)
    asidGeneration := asidFirstVersion asidBits }

/-- The middle part of `check_and_switch_context`: a task of an older generation
takes its number again if nobody has it, and keeps its old `asid` field. -/
def asidReclaim (s : AsidState T) (asid : U64) : Option U64 × AsidState T :=
  if asid ≠ 0 then
    let number := asid &&& asidMask s.asidBits
    let (wasSet, asidBitmap) := testAndSetBit number.toNat s.asidBitmap
    (if wasSet then none else some (s.asidGeneration ||| number), { s with asidBitmap })
  else (none, s)

/-- The rollover in `check_and_switch_context`. The number `idx` of the new generation is a `u32`,
so that after the last one it starts over. -/
def asidRollover (s : AsidState T) : AsidState T :=
  let idx : BitVec 32 := (s.asidGeneration >>> s.asidBits).setWidth 32 + 1
  { s with
    asidGeneration := (idx <<< s.asidBits).setWidth 64
    tlbFlush := true
    asidBitmap := bitmapClear s.asidBitmap 0 (numUserAsids s.asidBits) }

/-- The end of `check_and_switch_context`: number `asid` goes to `task`. -/
def asidAssign [DecidableEq T] (s : AsidState T) (task : T) (asid : Nat) : U64 × AsidState T :=
  (BitVec.ofNat 64 asid, { s with
    asidBitmap := bitmapSet s.asidBitmap asid 1
    asid := Function.update s.asid task (BitVec.ofNat 64 asid ||| s.asidGeneration)
    curIdx := asid })

/-- The last part of `check_and_switch_context`, which looks for a free number from the cursor on
and rolls over if there is none. -/
def asidAllocate [DecidableEq T] (s : AsidState T) (task : T) : U64 × AsidState T :=
  let asid := findNextZeroBit s.asidBitmap (numUserAsids s.asidBits) s.curIdx
  if asid ≥ numUserAsids s.asidBits then
    let s := asidRollover s
    asidAssign s task (findNextZeroBit s.asidBitmap (numUserAsids s.asidBits) 1)
  else asidAssign s task asid

/-- `check_and_switch_context`, which finds the ASID to run `task` under. A kernel task gets the
number 0. -/
def checkAndSwitchContext [DecidableEq T] (tasks : TaskSet T) (s : AsidState T) (task : T) :
    U64 × AsidState T :=
  if tasks.type task = .kernel then (0, s)
  else if s.asid task &&& ~~~asidMask s.asidBits = s.asidGeneration then (s.asid task, s)
  else
    match asidReclaim s (s.asid task) with
    | (some newasid, s) => (newasid, s)
    | (none, s) => asidAllocate s task

/-- What a switch changes: the ASID state, TTBR0, and the TLB. A TLB entry is
recorded as the ASID number it is cached under and the `tgid` of the task whose
access brought it in. -/
structure Cpu (T : Type) where
  asids : AsidState T
  ttbr0 : U64
  tlb : List (Nat × Int)

/-- `as_switch`. The result is the new value of TTBR0, which a kernel task leaves as it is. -/
def asSwitch (as : U64) (type : TaskType) (asid ttbr0 : U64) : U64 :=
  match type with
  | .kernel => ttbr0
  | .user => vbaseToPbase as ||| asid

/-- `flush_TLB`, after which nothing is cached under any number. -/
def flushTlb (c : Cpu T) : Cpu T := { c with tlb := [] }

/-- `task_switch`. The address space is changed, and a pending flush performed, only between tasks
with different `tgid`. -/
def taskSwitch [DecidableEq T] (tasks : TaskSet T) (c : Cpu T) (src dst : T) : Cpu T :=
  let (asid, asids) := checkAndSwitchContext tasks c.asids dst
  let c := { c with asids }
  if tasks.tgid dst ≠ tasks.tgid src then
    let c := { c with
      ttbr0 := asSwitch (tasks.addrspace dst) (tasks.type dst) (asid <<< (64 - asids.asidBits))
        c.ttbr0 }
    if asids.tlbFlush then
      flushTlb { c with asids := { asids with tlbFlush := false } }
    else c
  else c

/-- The ASID number in TTBR0, under which the translations of user addresses are cached and looked
up. -/
def Cpu.number (c : Cpu T) : Nat := (c.ttbr0 >>> (64 - c.asids.asidBits)).toNat

/-- A user access of `task`: the translation is cached under the number in TTBR0. -/
def userAccess (tasks : TaskSet T) (c : Cpu T) (task : T) : Cpu T :=
  { c with tlb := (c.number, tasks.tgid task) :: c.tlb }

/-- What `task.c` starts with: no task has an ASID, no flush is pending. -/
def AsidState.Boot (s : AsidState T) : Prop :=
  s.tlbFlush = false ∧ s.curIdx = 1 ∧ ∀ t, s.asid t = 0

/-- Runs from `asid_initialize` on: the processor's state, the current task, and
the number of rollovers so far (each one changes `asid_generation`). The idle task
is current first; user tasks access memory while they are current. -/
inductive AsidRun [DecidableEq T] (tasks : TaskSet T) : Cpu T → T → Nat → Prop
  | start {boot asids : AsidState T} {mmfr0 ttbr0 : U64} {block : Option Bitmap}
      (fresh : boot.Boot) (run : asidInitialize mmfr0 block boot = .ok asids) :
      AsidRun tasks ⟨asids, ttbr0, []⟩ tasks.idle 0
  | switch {c : Cpu T} {current : T} {rollovers : Nat} (run : AsidRun tasks c current rollovers)
      (dst : T) :
      AsidRun tasks (taskSwitch tasks c current dst) dst
        (if (taskSwitch tasks c current dst).asids.asidGeneration = c.asids.asidGeneration
          then rollovers else rollovers + 1)
  | access {c : Cpu T} {current : T} {rollovers : Nat} (run : AsidRun tasks c current rollovers)
      (user : tasks.type current = .user) :
      AsidRun tasks (userAccess tasks c current) current rollovers

end Asid

end Chinos
