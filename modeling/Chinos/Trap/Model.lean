import Chinos.Irq.Model
import Chinos.Machine.Arm64
import Chinos.Machine.EventRun
import Chinos.Sched.Run
import Chinos.Space.Runs

/-!
# Exceptions: `arch/arm64/vector.S`, `context.c`, `traps.c`, `fault.c` and `decode_irq`

The kernel runs the idle task and the root task. While a task runs, `SP_EL1` points at the
`context` in its `tcb`; an exception stores the registers there, moves the stack pointer to
the stack of the exception handlers, and ends in `restore_current_context`, which loads the
registers of whichever task is current by then. The state is that of the whole machine: the
registers of the core, memory with the contexts, page tables and heap in it, the queues of
the scheduler, TTBR0 and the ASIDs, the interrupt controller and the timer.

Code that the compiler makes of C is followed in what it does to this state. It also leaves
values in registers and on its stack; those are a parameter, `Scratch`.
-/

namespace Chinos

/-- The two tasks that `init_kernel` creates. -/
inductive TaskId
  | idle
  | root
  deriving DecidableEq

/-! ## Contexts: `context.c` -/

/-- `PMODE_FIRQ`, which masks FIQ. -/
def pmodeFirq : U64 := 1#64 <<< 6

/-- `PMODE_SERROR`, which masks SError. -/
def pmodeSerror : U64 := 1#64 <<< 8

/-- `PMODE_EL0t`, the mode of user code. -/
def pmodeEl0t : U64 := 0

/-- `PMODE_EL1h`, the mode of the kernel, on `SP_EL1`. -/
def pmodeEl1h : U64 := 5

/-- `PSTATE_USER` and `PSTATE_KERNEL`, the state in which tasks of a type begin. -/
def pstateOf : TaskType → U64
  | .user => pmodeFirq ||| pmodeEl0t ||| pmodeSerror
  | .kernel => pmodeFirq ||| pmodeEl1h ||| pmodeSerror

/-- `REGS_COUNT`, the number of words of a context. -/
def regsCount : Nat := 34

/-- The load `ctx->regs[i]`. -/
def Mem.reg (m : Mem) (ctx : U64) (i : Nat) : U64 := m.load64 (phys ctx + 8 * i)

/-- The store `ctx->regs[i] = v`. -/
def Mem.setReg (m : Mem) (ctx : U64) (i : Nat) (v : U64) : Mem := m.store64 (phys ctx + 8 * i) v

/-- `context_init`, which clears the context and sets the state of its type. -/
def contextInit (ctx : U64) (type : TaskType) (m : Mem) : Mem :=
  (m.fill (phys ctx) (8 * regsCount) 0).setReg ctx 33 (pstateOf type)

/-- `context_set_entry`, which sets the address at which the task goes on. -/
def contextSetEntry (ctx entry : U64) (m : Mem) : Mem := m.setReg ctx 31 entry

/-- `context_set_retcode`, which sets the register that a system call returns its result in. -/
def contextSetRetcode (ctx retcode : U64) (m : Mem) : Mem := m.setReg ctx 0 retcode

/-- `context_set_stack`, which sets the stack pointer to the end of the stack. -/
def contextSetStack (ctx stack size : U64) (m : Mem) : Mem := m.setReg ctx 32 (stack + size)

/-- What `task_create` does to the context of the task. -/
def taskCreateContext (ctx entry stack size : U64) (type : TaskType) (m : Mem) : Mem :=
  contextSetStack ctx stack size (contextSetEntry ctx entry (contextInit ctx type m))

/-! ## The code of `vector.S` and of `restore_current_context` -/

/-- The macro `store_context`, in which `lr` is `x30`. -/
def storeContext : List Instr := [
  .stp 0 1 (16 * 0),
  .stp 2 3 (16 * 1),
  .stp 4 5 (16 * 2),
  .stp 6 7 (16 * 3),
  .stp 8 9 (16 * 4),
  .stp 10 11 (16 * 5),
  .stp 12 13 (16 * 6),
  .stp 14 15 (16 * 7),
  .stp 16 17 (16 * 8),
  .stp 18 19 (16 * 9),
  .stp 20 21 (16 * 10),
  .stp 22 23 (16 * 11),
  .stp 24 25 (16 * 12),
  .stp 26 27 (16 * 13),
  .stp 28 29 (16 * 14),
  .mrs 9 .elrEl1,
  .mrs 10 .spEl0,
  .mrs 11 .spsrEl1,
  .stp 30 9 (30 * 8),
  .stp 10 11 (32 * 8)]

/-- `CONFIG_DEFAULT_TASK_STACKSIZE` once more, as the size of `irq_stack`. -/
def irqStackSize : Nat := 8192

/-- The macro `set_irq_stack`, which takes the end of `irq_stack` for the stack pointer. -/
def setIrqStack (irqStack : U64) : List Instr := [
  .ldrLiteral 0 irqStack,
  .ldrLiteral 1 (BitVec.ofNat 64 irqStackSize),
  .add 0 0 1,
  .movSp 0]

/-- The `asm` of `restore_current_context`, up to its `eret`; its first operand is in
register `r`. -/
def restoreCode (r : Reg) : List Instr := [
  .movSp r,
  .ldr 9 (31 * 8),
  .msr .elrEl1 9,
  .ldp 10 11 (32 * 8),
  .msr .spEl0 10,
  .msr .spsrEl1 11,
  .ldp 0 1 (16 * 0),
  .ldp 2 3 (16 * 1),
  .ldp 4 5 (16 * 2),
  .ldp 6 7 (16 * 3),
  .ldp 8 9 (16 * 4),
  .ldp 10 11 (16 * 5),
  .ldp 12 13 (16 * 6),
  .ldp 14 15 (16 * 7),
  .ldp 16 17 (16 * 8),
  .ldp 18 19 (16 * 9),
  .ldp 20 21 (16 * 10),
  .ldp 22 23 (16 * 11),
  .ldp 24 25 (16 * 12),
  .ldp 26 27 (16 * 13),
  .ldp 28 29 (16 * 14),
  .ldr 30 (16 * 15)]

/-- The labels that the vectors of `vector.S` branch to. -/
inductive VectorEntry
  | invalidVectorEntry
  | curElSync
  | curElIrq
  | curElSerr
  | lowerElSync
  | lowerElIrq
  | lowerElSerr
  deriving DecidableEq

/-- The table `vector`, as the labels of its 16 entries. -/
def vector : List VectorEntry := [
  .invalidVectorEntry, .invalidVectorEntry, .invalidVectorEntry, .invalidVectorEntry,
  .curElSync, .curElIrq, .invalidVectorEntry, .curElSerr,
  .lowerElSync, .lowerElIrq, .invalidVectorEntry, .lowerElSerr,
  .invalidVectorEntry, .invalidVectorEntry, .invalidVectorEntry, .invalidVectorEntry]

/-- An exception with what the handlers read of it: `ESR_EL1` and `FAR_EL1`, or
`ICC_IAR1_EL1`. -/
inductive Trap
  | sync (esr far : U64)
  | irq (iar : U64)
  | fiq
  | serror
  deriving DecidableEq

/-- `ESR_EC_LEL_SVC64`, the exception class of a system call. -/
def esrEcLelSvc64 : U64 := 0x15

/-- `ESR_EC_LEL_DABT`, the exception class of a data abort at EL0. -/
def esrEcLelDabt : U64 := 0x24

/-- The exception class `esr >> ESR_EC_SHIFT`. -/
def esrEc (esr : U64) : U64 := esr >>> 26

/-- The place among the four vectors of a group. -/
def Trap.kind : Trap → Nat
  | .sync _ _ => 0
  | .irq _ => 1
  | .fiq => 2
  | .serror => 3

/-- The group of vectors for an exception in state `pstate`: AArch32, EL0, or EL1 with one
of the two stack pointers. -/
def vectorGroup (pstate : U64) : Nat :=
  if pstate.getLsbD 4 then 3
  else if pstate &&& 0xc = 0 then 2
  else if pstate.getLsbD 0 then 1
  else 0

def vectorEntry (pstate : U64) (trap : Trap) : VectorEntry :=
  vector.getD (4 * vectorGroup pstate + trap.kind) .invalidVectorEntry

/-- Asynchronous exceptions wait while their bit of `pstate` is set. -/
def Trap.Masked (pstate : U64) : Trap → Prop
  | .sync _ _ => False
  | .irq _ => pstate.getLsbD 7 = true
  | .fiq => pstate.getLsbD 6 = true
  | .serror => pstate.getLsbD 8 = true

/-- The address that `ELR_EL1` gets: the next instruction after `svc`, and otherwise the one
that did not complete. -/
def Trap.returnTo (pc : U64) : Trap → U64
  | .sync esr _ => if esrEc esr = esrEcLelSvc64 then pc + 4 else pc
  | _ => pc

/-- What the core does on an exception: EL1 on `SP_EL1`, with all exceptions masked. The
program counter is followed in tasks only. -/
def takeException (trap : Trap) (c : Core) : Core :=
  { c with elr := trap.returnTo c.pc, spsr := c.pstate, pstate := 0x3c5 }

/-! ## The machine -/

/-- The objects of the image that exceptions use. `context t` is the address of
`task->context.regs` in the `tcb` of the task, in the BSS; the stacks are in section `.stack`.
`bootSp` is the stack pointer while `init_kernel` is in `idle`: it is in `idle_stack`, and
what the first exception stores from there upward stays in the section. -/
structure Image extends KernelBoot where
  context : TaskId → U64
  irqStack : U64
  bootSp : U64
  /-- The address of `idle`. -/
  idle : U64
  idleStack : U64
  context_low : ∀ t, linker.dataEnd ≤ (context t).toNat
  context_high : ∀ t, (context t).toNat + 8 * regsCount ≤ linker.bssEnd
  contexts_apart : (context .idle).toNat + 8 * regsCount ≤ (context .root).toNat ∨
    (context .root).toNat + 8 * regsCount ≤ (context .idle).toNat
  context_kernelPgd : ∀ t, (context t).toNat + 8 * regsCount ≤ layout.kernelPgd.toNat ∨
    layout.kernelPgd.toNat + 2 ^ 12 ≤ (context t).toNat
  context_userPgd : ∀ t, (context t).toNat + 8 * regsCount ≤ layout.userPgd.toNat ∨
    layout.userPgd.toNat + 2 ^ 12 ≤ (context t).toNat
  irqStack_low : linker.rodataEnd ≤ irqStack.toNat
  irqStack_high : irqStack.toNat + irqStackSize ≤ linker.dataEnd
  bootSp_low : linker.rodataEnd ≤ bootSp.toNat
  bootSp_high : bootSp.toNat + 8 * regsCount ≤ linker.dataEnd

/-- The functions that are attached to interrupts, of which there is one. -/
inductive Handler
  | timerHandler
  deriving DecidableEq

/-- The registers `CNT_TVAL` and `CNT_CTL` of the timer, as last written. -/
structure GenericTimer where
  tval : U64
  ctl : U64

/-- The machine. `root` is the `tcb` of the root task as memory calls see it; its `pt.mem` is
all of physical memory. -/
structure Kernel where
  core : Core
  root : Process
  sched : Sched TaskId
  mmu : Cpu TaskId
  irqs : Irqs Handler
  timer : GenericTimer
  gCurrentTime : U64

namespace Kernel

def mem (k : Kernel) : Mem := k.root.pt.mem

def withMem (k : Kernel) (mem : Mem) : Kernel := { k with root := k.root.withMem mem }

/-- The physical address of the table that TTBR0 points to, below the ASID. -/
def ttbr0Base (k : Kernel) : Nat := k.mmu.ttbr0.toNat % 2 ^ 48

end Kernel

/-- `TICKS_PER_MS`, the number of ticks in a millisecond. -/
def ticksPerMs : U64 := 62500000 / 1000

/-- `CONFIG_RR_INTERVAL`, the milliseconds from one tick of the scheduler to the next. -/
def configRrInterval : U64 := 10

/-- `TIMER_RELOAD`, the number of ticks before the first interrupt. -/
def timerReload : U64 := ticksPerMs * 1000

/-- `generic_timer_reset`, which arms the timer. -/
def genericTimerReset (ms : U64) (timer : GenericTimer) : GenericTimer :=
  let timer := { timer with tval := ms * ticksPerMs }
  { timer with ctl := 1 }

/-- `generic_timer_clear`, which stops the timer. -/
def genericTimerClear (timer : GenericTimer) : GenericTimer :=
  let timer := { timer with tval := 0 }
  { timer with ctl := 0 }

/-- `generic_timer_init`, which arms the timer and returns the number `IRQN_EL1_VIRT_TIMER` of its
interrupt. -/
def genericTimerInit (timer : GenericTimer) : Nat × GenericTimer :=
  let timer := { timer with tval := timerReload }
  let timer := { timer with ctl := 1 }
  (27, timer)

/-- A read of `ICC_IAR1_EL1` that returned `irq`: the interrupt is active and no longer
pending. 1023 stands for no interrupt. -/
def Gic.acknowledge (g : Gic) (irq : Nat) : Gic :=
  if irq < 1020 then
    { g with
      pending := Function.update g.pending irq false
      active := Function.update g.active irq true }
  else g

/-- A write of `irq` to `ICC_EOIR1_EL1`, after which the interrupt is not active any more. -/
def Gic.endOfInterrupt (g : Gic) (irq : Nat) : Gic :=
  if irq < 1020 then { g with active := Function.update g.active irq false } else g

/-- What compiled C leaves: values in registers, bytes on its stack, and the register it
took for the operand of the `asm` in `restore_current_context`. -/
structure Scratch where
  x : Reg → U64
  stack : Nat → BitVec 8
  reg : Reg

/-- The functions that `svc_handlers` points to. -/
inductive SysCallback
  | vsysIoctl
  | vsysWritev
  | vsysBrk
  | vsysMmap
  | vsysMunmap
  | vsysExit
  | vsysExitGroup
  | vsysNanosleep
  deriving DecidableEq

/-- `SYSCALLS_NUM`, the number of entries of `svc_handlers`. -/
def syscallsNum : Nat := 446

/-- The table `svc_handlers`, by the numbers of the system calls. -/
def svcHandlers : Nat → Option SysCallback
  | 29 => some .vsysIoctl
  | 66 => some .vsysWritev
  | 93 => some .vsysExit
  | 94 => some .vsysExitGroup
  | 101 => some .vsysNanosleep
  | 214 => some .vsysBrk
  | 215 => some .vsysMunmap
  | 222 => some .vsysMmap
  | _ => none

/-- `-ENOSYS`, the result of a system call that there is no function for. -/
def negEnosys : U64 := -88

section Code

variable (b : Image) (clock : Nat → U64)

/-- The tasks as `task_switch` sees them. The identifiers are the first two that
`task_assign_tid` gives. -/
def Image.tasks : TaskSet TaskId where
  type
    | .idle => .kernel
    | .root => .user
  tgid
    | .idle => 0
    | .root => 1
  addrspace
    | .idle => b.layout.kernelPgd
    | .root => b.layout.userPgd
  idle := .idle
  ram
    | .idle => b.layout.kernelPgd_ram
    | .root => b.layout.userPgd_ram
  idle_kernel := rfl

/-- `schedule`, which calls `task_switch` when it picks another task. -/
def kernelSchedule (k : Kernel) : Except Fault Kernel := do
  let sched ← schedule clock k.sched
  let mmu :=
    if sched.current = k.sched.current then k.mmu
    else taskSwitch b.tasks k.mmu k.sched.current sched.current
  return { k with sched, mmu }

/-- `restore_current_context`, which loads the context of the current task and ends with
`eret`. -/
def restoreCurrentContext (r : Reg) (k : Kernel) : Kernel :=
  let core := k.core.set r (b.context k.sched.current)
  let (core, mem) := runBlock phys (restoreCode r) core k.mem
  { k.withMem mem with core := core.eret }

/-- The leaf that the MMU finds for a load at EL1, in the table of TTBR0 or in that of the
kernel. -/
def Kernel.translate (k : Kernel) (v : U64) : Option Leaf :=
  if v.toNat < 2 ^ 39 then Chinos.translate k.mem k.ttbr0Base .lower v.toNat
  else Chinos.translate k.mem (phys b.layout.kernelPgd) .upper v.toNat

/-- The physical address is one of RAM, and not of a device. -/
def inRam (x : Nat) : Bool := ramPbase.toNat ≤ x && x < ramPbase.toNat + ramSize.toNat

/-- A load of eight bytes at EL1. An address that does not translate is a data abort at the
current level, which ends in `cel_sync_traps`. What a load from a device returns, and whether
it returns, is not known here; such a load ends the modelled run. -/
def Kernel.read64 (k : Kernel) (v : U64) : Except Fault U64 := do
  let leaves := (List.range 8).map fun i => k.translate b (v + BitVec.ofNat 64 i)
  require (leaves.all Option.isSome) .panic
  require (leaves.all fun leaf => leaf.any fun leaf => inRam leaf.pa) .wild
  let bytes : Mem := fun i => ((leaves.getD i none).map fun leaf => k.mem leaf.pa).getD 0
  return bytes.load64 0

/-- `sys_brk` and `sys_mmap` for the current task; the idle task makes no calls. -/
def Kernel.mmCall (k : Kernel) (call : MmCall) : Except Fault (U64 × Kernel) :=
  match k.sched.current with
  | .root => do
    let (ret, root) ← call.run k.root
    return (ret, { k with root })
  | .idle => .error .wild

/-- The call `svc_handlers[sn](ctx->regs)`. Most of the functions return 0 and do nothing. -/
def SysCallback.run (k : Kernel) (params : Nat → U64) :
    SysCallback → Except Fault (U64 × Kernel)
  | .vsysIoctl => .ok (0, k)
  | .vsysWritev => .ok (0, k)
  | .vsysBrk => k.mmCall (.brk (params 0))
  | .vsysMmap =>
    k.mmCall (.mmap (params 0) (params 1) (params 2) (params 3) (params 4) (params 5))
  | .vsysMunmap => .ok (0, k)
  | .vsysExit => .ok (0, k)
  | .vsysExitGroup => .ok (0, k)
  | .vsysNanosleep => do
    let tvSec ← k.read64 b (params 0)
    let tvNsec ← k.read64 b (params 0 + 8)
    return (0, { k with sched := sysNanosleep clock tvSec tvNsec k.sched })

/-- The part of `svc_handler` that looks up the function of the call and makes it, with the result
of the call. -/
def svcCall (k : Kernel) : Except Fault (U64 × Kernel) :=
  let ctx := b.context k.sched.current
  let sn := (k.mem.reg ctx 8).toNat
  if sn < syscallsNum then
    match svcHandlers sn with
    | some callback => callback.run b clock k (k.mem.reg ctx)
    | none => .ok (negEnosys, k)
  else .ok (negEnosys, k)

/-- `svc_handler`. The result is stored in the context of the caller, whichever task is resumed
then. -/
def svcHandler (r : Reg) (k : Kernel) : Except Fault Kernel := do
  let ctx := b.context k.sched.current
  let (ret, k) ← svcCall b clock k
  let k := k.withMem (contextSetRetcode ctx ret k.mem)
  let k ← kernelSchedule b clock k
  return restoreCurrentContext b r k

/-- The `mm` of the current task, which is clear for the idle task. -/
def Kernel.mm (k : Kernel) : MmArea :=
  match k.sched.current with
  | .root => k.root.mm
  | .idle => .clear

/-- `do_page_fault`: outside the heap of the task it returns. -/
def doPageFault (r : Reg) (addr : U64) (k : Kernel) : Except Fault (Option Kernel) :=
  if addr ≥ k.mm.startBrk ∧ addr < k.mm.brk then do
    let k ← kernelSchedule b clock k
    return some (restoreCurrentContext b r k)
  else .ok none

/-- `lel_sync_traps`, which panics on all exceptions but system calls and data aborts in the
heap. -/
def lelSyncTraps (r : Reg) (esr far : U64) (k : Kernel) : Except Fault Kernel :=
  if esrEc esr = esrEcLelDabt then do
    match ← doPageFault b clock r far k with
    | some k => return k
    | none => .error .panic
  else if esrEc esr = esrEcLelSvc64 then svcHandler b clock r k
  else .error .panic

/-- `timer_handler`, which arms the timer again and calls `schedule`. -/
def timerHandler (k : Kernel) : Except Fault Kernel :=
  let k := { k with timer := genericTimerClear k.timer }
  let k := { k with timer := genericTimerReset configRrInterval k.timer }
  kernelSchedule b clock k

/-- The call of the attached function that `irq_dispatch` makes. -/
def Handler.run (k : Kernel) : Handler → Except Fault Kernel
  | .timerHandler => Chinos.timerHandler b clock k

/-- `irq_dispatch`, with the call of the function that is attached. -/
def irqDispatchRun (irq : Nat) (k : Kernel) : Except Fault Kernel :=
  let (call, irqs) := irqDispatch irq k.irqs
  let k := { k with irqs }
  match call with
  | some (handler, _) => handler.run b clock k
  | none => .ok k

/-- `timer_update_timestamp`, which takes a reading of the clock. -/
def timerUpdateTimestamp (k : Kernel) : Kernel :=
  let (now, sched) := getCurrentTime clock k.sched
  { k with sched, gCurrentTime := now }

/-- `decode_irq`, where `iar` is what `ICC_IAR1_EL1` reads. An interrupt that the table has no
entry for fails an assertion. -/
def decodeIrq (r : Reg) (iar : U64) (k : Kernel) : Except Fault Kernel := do
  let k := timerUpdateTimestamp clock k
  let k := { k with irqs := { k.irqs with gic := k.irqs.gic.acknowledge iar.toNat } }
  let irq := (iar &&& 0xffffff).toNat
  require (irq < nrIrqs ∨ irq = 1023) .assertion
  let k ← if irq < nrIrqs then irqDispatchRun b clock irq k else .ok k
  let k := { k with irqs := { k.irqs with gic := k.irqs.gic.endOfInterrupt iar.toNat } }
  return restoreCurrentContext b r k

/-- From the exception to the first line of C: `store_context` and `set_irq_stack`, and the
scratch values of the C code that follows. -/
def enterKernel (scratch : Scratch) (trap : Trap) (k : Kernel) : Kernel :=
  let core := takeException trap k.core
  let (core, mem) := runBlock phys (storeContext ++ setIrqStack b.irqStack) core k.mem
  { k.withMem (mem.blit (phys b.irqStack) irqStackSize scratch.stack) with
    core := { core with x := scratch.x } }

/-- An exception, up to the `eret` that ends it. `cel_sync_traps` panics; the entries for
`SError` store nothing and call C with the stack pointer at a context. -/
def handle (scratch : Scratch) (trap : Trap) (k : Kernel) : Except Fault Kernel :=
  match vectorEntry k.core.pstate trap, trap with
  | .curElIrq, .irq iar =>
    decodeIrq b clock scratch.reg iar (enterKernel b scratch trap k)
  | .lowerElIrq, .irq iar =>
    decodeIrq b clock scratch.reg iar (enterKernel b scratch trap k)
  | .lowerElSync, .sync esr far =>
    lelSyncTraps b clock scratch.reg esr far (enterKernel b scratch trap k)
  | .curElSync, _ => .error .panic
  | .invalidVectorEntry, _ => .error .diverge
  | _, _ => .error .wild

/-! ## Runs -/

/-- The bits of PSTATE that EL0 cannot change: the mode, and the masks of FIQ, IRQ and
SError. -/
def pstateMask : U64 := 0x1df

/-- The interrupt controller may report `iar`: no interrupt, or one that is enabled and not
active. -/
def Irqs.Reports (s : Irqs Handler) (iar : U64) : Prop :=
  iar = 1023 ∨ (iar.toNat < s.gicMaxInt ∧ iar.toNat < 1020 ∧ s.gic.enabled iar.toNat = true ∧
    s.gic.active iar.toNat = false)

/-- The exception can be taken: it is not masked, and if it is an interrupt, the controller
reports it. -/
def Kernel.Takes (k : Kernel) (trap : Trap) : Prop :=
  ¬ trap.Masked k.core.pstate ∧ ∀ iar, trap = .irq iar → k.irqs.Reports iar

/-- The registers that a task sees: `x0` to `x30`, the stack pointer, the program counter and
PSTATE. The registers of floating point are not among those that `struct context` has, and no
code of the kernel saves them. -/
@[ext]
structure Thread where
  x : Reg → U64
  sp : U64
  pc : U64
  pstate : U64

/-- The registers of the code that runs on the core. -/
def Core.thread (c : Core) : Thread := ⟨c.x, c.spEl0, c.pc, c.pstate⟩

/-- What a step of the machine is to the tasks. -/
inductive Event
  /-- Code at EL0 runs: it finds the first registers and leaves the second ones. -/
  | user (before after : Thread)
  /-- `idle` goes round its loop and is at `pc` then. -/
  | idle (pc : U64)
  /-- The same before the first exception, still in the frame of `init_kernel`. -/
  | boot (pc : U64)
  /-- An exception, after which the task `next` runs; a system call has a result. -/
  | trap (result : Option U64) (next : TaskId)

/-- The event of a turn of `idle`, which tells the frame of `init_kernel` from the task. -/
def idleEvent (k : Kernel) (pc : U64) : Event :=
  if k.core.sp = b.bootSp then .boot pc else .idle pc

/-- What the system call returns, if the exception is one. -/
def trapResult (scratch : Scratch) (k : Kernel) : Trap → Option U64
  | .sync esr far =>
    if esrEc esr = esrEcLelSvc64 then
      match svcCall b clock (enterKernel b scratch (.sync esr far) k) with
      | .ok (ret, _) => some ret
      | .error _ => none
    else none
  | _ => none

/-- A step of the machine and its event: code at EL0 changes the registers it can reach and
stores where the tables let it; `idle` goes round its loop at EL1, without a frame and without
a register; or an exception is taken and its handler gets to its `eret`. There is no step for
a handler that does not get there: a run ends where the kernel fails an assertion, panics,
uses a pointer that is NULL, or leaves a table. -/
inductive Step : Kernel → Event → Kernel → Prop
  | user {k : Kernel} {x : Reg → U64} {spEl0 pc pstate : U64} {mem : Mem}
      (el0 : k.core.pstate &&& 0x1f = pmodeEl0t)
      (kept : pstate &&& pstateMask = k.core.pstate &&& pstateMask)
      (stores : UserStores k.mem k.ttbr0Base (phys b.layout.kernelPgd) mem) :
      Step k (.user k.core.thread ⟨x, spEl0, pc, pstate⟩) { k.withMem mem with
        core := { k.core with x, spEl0, pc, pstate }
        mmu := userAccess b.tasks k.mmu k.sched.current }
  | idle {k : Kernel} {pc : U64} (el1 : k.core.pstate &&& 0x1f = pmodeEl1h) :
      Step k (idleEvent b k pc) { k with core := { k.core with pc } }
  | trap {k k' : Kernel} {scratch : Scratch} {trap : Trap} (takes : k.Takes trap)
      (run : handle b clock scratch trap k = .ok k') :
      Step k (.trap (trapResult b clock scratch k trap) k'.sched.current) k'

/-! ## The start -/

/-- `timer_init`, which arms the timer, attaches its handler and enables its interrupt. -/
def timerInit (timer : GenericTimer) (irqs : Irqs Handler) : GenericTimer × Irqs Handler :=
  let (irq, timer) := genericTimerInit timer
  let (_, irqs) := irqAttach irq (some .timerHandler) 0 irqs
  (timer, irqEnable irq irqs)

/-- `CONFIG_IDLE_TASK_STACKSIZE`, the size of the stack of the idle task. -/
def idleTaskStacksize : U64 := 1024

/-- The fields that the scheduler reads of the two `tcb`s, as `task_create` leaves them. -/
def createdTcb : TaskId → Tcb
  | .idle => ⟨31, 0, .inactive⟩
  | .root => ⟨10, 0, .inactive⟩

/-- What `init_kernel` does to memory. `idle_task_initialize` comes after
`asid_initialize`; `elf_initialize` sets the entry point of the root task. -/
def initMemory : Except Fault Booted := do
  let booted ← initKernelWith b.toBoot fun mem =>
    taskCreateContext (b.context .root) 0 userStackTop defaultTaskStacksize .user
      (taskCreateContext (b.context .idle) b.idle b.idleStack idleTaskStacksize .kernel mem)
  let mem := contextSetEntry (b.context .root) booted.root.entry booted.root.pt.mem
  return { booted with root := booted.root.withMem mem }

/-- What is there before `init_kernel`: the registers, the interrupt controller with any
table of handlers, the timer, TTBR0, the links in the BSS, and the bitmap of ASIDs in the
memory that `asid_calloc` gets. -/
structure Board where
  mpidr : U64
  core : Core
  irqs : Irqs Handler
  timer : GenericTimer
  ttbr0 : U64
  links : Links (Node TaskId)
  asidBlock : Bitmap

/-- The variables of `task.c` before `asid_initialize`, as they are linked. -/
def asidStart : AsidState TaskId := ⟨0, 0, fun _ => 0, false, 1, fun _ => 0⟩

/-- `init_kernel`, up to the loop of `idle`, with interrupts enabled: the memory as
`init_kernel` left it, and the machine. -/
def startKernel (board : Board) : Except Fault (Booted × Kernel) := do
  let irqs ← irqInitialize board.mpidr board.irqs
  let booted ← initMemory b
  let asids ← asidInitialize b.mmfr0 (some board.asidBlock) asidStart
  let sched := attachNew (schedInit board.links createdTcb .idle) .root
  let (timer, irqs) := timerInit board.timer irqs
  let core := { board.core with sp := b.bootSp, pstate := 0x345 }
  return (booted, ⟨core, booted.root, sched, ⟨asids, board.ttbr0, []⟩, irqs, timer, 0⟩)

end Code

end Chinos
