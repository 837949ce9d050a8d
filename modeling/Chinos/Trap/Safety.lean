import Chinos.Trap.Progress

/-!
# What holds in every run of the machine

* `machine_refines_threads`: the tasks see their own registers and nothing else.
* `el0_confined`: whenever code runs at EL0, TTBR0 holds the table of the root task, the TLB
  has no translation of another address space for it, and it cannot store into anything that
  the kernel uses.
* `kernel_code_stays`: the code and the constants of the kernel keep their bytes.
* `interrupts_return`: the tick is always possible, and no interrupt stops the kernel.
* `sync_outcome`: which exceptions of user code the kernel returns from, and which make it
  panic.
* `first_tick_enters_root`: how the root task starts.

A run ends where the kernel first uses a NULL pointer, a word behind a page table, or memory
that is not RAM. On the machine it may go on from there: the user's half has a page 0 once it
is mapped, and the word behind a table may be a descriptor. Nothing is said here about what
happens after such an access. The registers of a task are `x0` to `x30`, the stack pointer,
the program counter and PSTATE.
-/

namespace Chinos

/-! ## A small machine

The small kernel with contexts in the last page of its BSS, and a board with the sample
interrupt controller.
-/

def kernelImage : Image where
  toKernelBoot := kernelBoot
  context
    | .idle => 0xffffff807ffde000
    | .root => 0xffffff807ffde110
  irqStack := 0xffffff807ffd9000
  bootSp := 0xffffff807ffdb3e0
  idle := 0xffffff807ffd7400
  idleStack := 0xffffff807ffdb000
  context_low t := by cases t <;> decide
  context_high t := by cases t <;> decide
  contexts_apart := by decide
  context_kernelPgd t := by cases t <;> decide
  context_userPgd t := by cases t <;> decide
  irqStack_low := by decide
  irqStack_high := by decide
  bootSp_low := by decide
  bootSp_high := by decide

def kernelBoard : Board where
  mpidr := 0x80000000
  core := ⟨fun _ => 0, 0, 0, 0, 0, 0, 0⟩
  irqs := ⟨sampleGic, 0, fun _ => ⟨none, 0, 0⟩⟩
  timer := ⟨0, 0⟩
  ttbr0 := 0x40001000
  links := ⟨id, id⟩
  asidBlock := fun _ => 0

theorem kernelImage_memory : Returns (initMemory kernelImage) fun _ => True := by
  decide +kernel

theorem kernelImage_starts :
    ∃ booted k₀, startKernel kernelImage kernelBoard = .ok (booted, k₀) := by
  obtain ⟨irqs, init⟩ : ∃ irqs, irqInitialize kernelBoard.mpidr kernelBoard.irqs = .ok irqs := by
    unfold irqInitialize
    rw [gicInitialize_eq, if_pos (by decide), if_neg (by decide)]
    exact ⟨_, rfl⟩
  obtain ⟨booted, memory, -⟩ := kernelImage_memory
  unfold startKernel
  rw [init, ok_bind, memory, ok_bind]
  exact ⟨_, _, rfl⟩

def noScratch : Scratch := ⟨fun _ => 0, fun _ => 0, 0⟩

section Main

variable {b : Image} {board : Board} {booted : Booted} {k k₀ : Kernel} {clock : Nat → U64}

/-- The first tick of the small machine starts its root task. -/
theorem kernelImage_enters (clock : Nat → U64) : ∃ booted k₀ k,
    startKernel kernelImage kernelBoard = .ok (booted, k₀) ∧
      Step kernelImage clock k₀ (.trap none .root) k ∧
      Running kernelImage booted (created kernelImage booted) k ∧ k.sched.current = .root := by
  obtain ⟨booted, k₀, start⟩ := kernelImage_starts
  obtain ⟨running, -⟩ := startKernel_running start
  obtain ⟨k, tick, running', current⟩ :=
    running.first_tick clock (startKernel_sched start) noScratch
  have step := Step.trap (b := kernelImage) running.takes_tick tick
  rw [current] at step
  exact ⟨booted, k₀, k, start, step, running', current⟩

/-- The small machine takes its first tick, after which the root task runs. -/
theorem kernelImage_ticks (clock : Nat → U64) :
    ∃ booted k₀ k, startKernel kernelImage kernelBoard = .ok (booted, k₀) ∧
      KernelRun kernelImage clock k₀ k ∧ k.sched.current = .root ∧
      k.core.thread = created kernelImage booted .root ∧ k.core.pstate &&& 0x1f = pmodeEl0t := by
  obtain ⟨booted, k₀, k, start, step, running, current⟩ := kernelImage_enters clock
  exact ⟨booted, k₀, k, start, ⟨_, .single step⟩, current, (running.root_task current).2.1,
    (el0_iff_of_mode running.core_mode).mpr current⟩

/-- Every run of the machine is a run of the register files of its tasks with the same events:
each task has the registers that it was created with and that its own code and its own system
calls gave it since, whatever interrupts and switches came in between. They are on the core
while the task is current, and in its context otherwise. The events alone determine the
register files, and each stretch of user code is an event with the registers that it found on
the core; so a handler that changed a register of the task it returns to would have no
matching run. -/
theorem machine_refines_threads (start : startKernel b board = .ok (booted, k₀))
    {events : List Event} (run : EventRun (Step b clock) k₀ events k) :
    ∃ threads, ThreadRun ⟨.idle, created b booted⟩ events ⟨k.sched.current, threads⟩ ∧
      (∀ s, ThreadRun ⟨.idle, created b booted⟩ events s → s = ⟨k.sched.current, threads⟩) ∧
      OnCore b threads k := by
  obtain ⟨threads, seen, running⟩ := run.running start
  refine ⟨threads, seen, fun s other => ?_, running.core⟩
  exact EventRun.unique (fun first second => first.unique second) other seen

/-- The root task of the small machine sets `x5` and is interrupted. The value is the only
change to the registers that it was created with. -/
theorem machine_refines_threads_small : ∃ booted k₀ k thread next,
    startKernel kernelImage kernelBoard = .ok (booted, k₀) ∧
      thread = { created kernelImage booted .root with
        x := Function.update (created kernelImage booted .root).x 5 42 } ∧
      EventRun (Step kernelImage fun _ => 0) k₀ [.trap none .root,
        .user (created kernelImage booted .root) thread, .trap none next] k ∧
      OnCore kernelImage (Function.update (created kernelImage booted) .root thread) k := by
  obtain ⟨booted, k₀, k₁, start, tick, running₁, current₁⟩ := kernelImage_enters fun _ => 0
  have live := (running₁.root_task current₁).2.1
  have el0 := (el0_iff_of_mode running₁.core_mode).mpr current₁
  obtain ⟨thread, thread_eq⟩ : ∃ thread, thread = { created kernelImage booted .root with
      x := Function.update (created kernelImage booted .root).x 5 42 } := ⟨_, rfl⟩
  -- it sets the register and stores nothing
  obtain ⟨k₂, user⟩ : ∃ k₂, Step kernelImage (fun _ => 0) k₁
      (.user (created kernelImage booted .root) thread) k₂ := by
    rw [thread_eq, ← live]
    exact ⟨_, .user el0 rfl (fun _ _ => rfl : UserStores _ _ _ k₁.mem)⟩
  obtain ⟨threads₂, running₂, -⟩ := running₁.step _ user
  -- the interrupt is a spurious one
  have reports : k₂.irqs.Reports 1023 := .inl rfl
  obtain ⟨k₃, returns, -⟩ := running₂.irq (fun _ => 0) noScratch reports
  have run : EventRun (Step kernelImage fun _ => 0) k₀ [.trap none .root,
      .user (created kernelImage booted .root) thread, .trap none k₃.sched.current] k₃ :=
    .cons tick (.cons user (.single (.trap (running₂.takes_irq reports) returns)))
  obtain ⟨threads, -, unique, onCore⟩ := machine_refines_threads start run
  have kept : thread.pstate = (created kernelImage booted .root).pstate := by rw [thread_eq]
  have seen : ThreadRun ⟨.idle, created kernelImage booted⟩ [.trap none .root,
      .user (created kernelImage booted .root) thread, .trap none k₃.sched.current]
      ⟨k₃.sched.current, Function.update (created kernelImage booted) .root thread⟩ :=
    .cons (.resume .root) (.cons (.user rfl (by rw [kept])) (.single (.resume _)))
  cases unique _ seen
  exact ⟨booted, k₀, k₃, thread, _, start, thread_eq, run, onCore⟩

/-- Whenever code runs at EL0 it is the root task, with `SP_EL1` at its context and its table
in TTBR0; what the TLB holds under its ASID is its own; and no store of it changes a byte that
the kernel uses: tables, saved registers, stacks, code, the ASID bitmap, records of areas. A
record that `do_mmap` would make at address 0, when the heap is full, is not among them: the
store through NULL is where such a run ends. -/
theorem el0_confined (start : startKernel b board = .ok (booted, k₀))
    (run : KernelRun b clock k₀ k) (el0 : k.core.pstate &&& 0x1f = pmodeEl0t) :
    k.sched.current = .root ∧ k.core.sp = b.context .root ∧
      k.ttbr0Base = phys b.layout.userPgd ∧ Isolated b.tasks k.mmu .root ∧
      ∀ x, KernelUses b.toBoot booted k.root x →
        ¬ UserWritable k.mem k.ttbr0Base (phys b.layout.kernelPgd) x := by
  obtain ⟨threads, running⟩ := KernelRun.running start run
  have current := (el0_iff_of_mode running.core_mode).mp el0
  have table := running.table current
  obtain ⟨others, maps, inv⟩ := running.space
  obtain ⟨⟨owner, cpu⟩, -⟩ := running.asids
  rw [current] at cpu
  refine ⟨current, (running.root_task current).1, table, cpu.isolated b.tasks_type_root,
    fun x uses writable => ?_⟩
  have ram := inv.uses_ram uses
  rw [table, ← inv.inv.addrspace] at writable
  rcases inv.of_userWritable writable with ⟨block, inMaps, has⟩ | low | high
  · exact inv.not_uses inMaps has uses
  · omega
  · omega

theorem el0_confined_small : ∃ booted k₀ k,
    startKernel kernelImage kernelBoard = .ok (booted, k₀) ∧
      KernelRun kernelImage (fun _ => 0) k₀ k ∧ k.core.pstate &&& 0x1f = pmodeEl0t ∧
      k.ttbr0Base = phys kernelLayout.userPgd ∧
      ¬ UserWritable k.mem k.ttbr0Base (phys kernelLayout.kernelPgd) 0xbffde110 := by
  obtain ⟨booted, k₀, k, start, run, -, -, el0⟩ := kernelImage_ticks fun _ => 0
  obtain ⟨-, -, table, -, outOfReach⟩ := el0_confined start run el0
  -- the context of the root task
  have uses : KernelUses kernelImage.toBoot booted k.root 0xbffde110 :=
    .image (by decide) (by decide)
  exact ⟨booted, k₀, k, start, run, el0, table, outOfReach _ uses⟩

/-- The zones that EL1 may write have no byte of the code or of the constants. -/
theorem Zone.Maps.not_readOnly {v pa : Nat} {attr : U64}
    (maps : Zone.Maps b.linker.zones v pa attr) (writable : attr.getLsbD 7 = false) :
    ¬ b.ReadOnly pa := by
  obtain ⟨z, inZones, ⟨low, high⟩, rfl, rfl⟩ := maps
  have code := b.linker.code_ram
  have codeLt := b.linker.code_lt
  have rodataLt := b.linker.rodata_lt
  have dataLt := b.linker.data_lt
  have bssLt := b.linker.bss_lt
  have bssLe := b.linker.bss_le
  have userLt := b.linker.user_lt
  -- a zone of RAM behind the constants
  have behind : ∀ start : Nat, b.linker.rodataEnd ≤ start → start ≤ v →
      ¬ b.ReadOnly (linearPhys start + (v - start)) := by
    intro start after le readOnly
    obtain ⟨-, below⟩ := readOnly
    unfold linearPhys at below
    omega
  simp only [Linker.zones, List.mem_cons, List.not_mem_nil, or_false] at inZones
  rcases inZones with rfl | rfl | rfl | rfl | rfl | rfl | rfl
  · exact absurd writable (show ¬ (descAttr pageKernelRox).getLsbD 7 = false by decide)
  · exact absurd writable (show ¬ (descAttr pageKernelRo).getLsbD 7 = false by decide)
  · exact behind _ le_rfl low
  · exact behind _ dataLt.le low
  · exact behind _ (by omega) low
  · exact behind _ (by omega) low
  · intro readOnly
    obtain ⟨above, -⟩ := readOnly
    have size : mmioZone.stop - mmioZone.start ≤ ramPbase.toNat := by decide
    have base : mmioZone.pbase = 0 := by decide
    rw [base] at above
    omega

/-- The code and the constants of the kernel keep the bytes that they had after `init_kernel`,
and no address of EL0 or of the kernel's own half leads to them with a right to write. -/
theorem kernel_code_stays (start : startKernel b board = .ok (booted, k₀))
    (run : KernelRun b clock k₀ k) :
    (∀ x, b.ReadOnly x → k.mem x = booted.root.pt.mem x) ∧
    (∀ v leaf, translate k.mem (phys b.layout.kernelPgd) .upper v = some leaf → leaf.Writable →
      ¬ b.ReadOnly leaf.pa) ∧
    ∀ x, b.ReadOnly x →
      ¬ UserWritable k.mem (phys k.root.addrspace) (phys b.layout.kernelPgd) x := by
  obtain ⟨threads, running⟩ := KernelRun.running start run
  obtain ⟨others, maps, inv⟩ := running.space
  refine ⟨running.readOnly, fun v leaf found writable => ?_, fun x readOnly => ?_⟩
  · exact (inv.table.translate_iff.mp ⟨leaf.shift, found⟩).not_readOnly writable
  · exact inv.not_userWritable (readOnly.spared others)

theorem kernel_code_stays_small : ∃ booted k₀ k,
    startKernel kernelImage kernelBoard = .ok (booted, k₀) ∧
      KernelRun kernelImage (fun _ => 0) k₀ k ∧
      ∀ x, kernelImage.ReadOnly x → k.mem x = booted.root.pt.mem x := by
  obtain ⟨booted, k₀, k, start, run, -⟩ := kernelImage_ticks fun _ => 0
  exact ⟨booted, k₀, k, start, run, (kernel_code_stays start run).1⟩

/-- In every state the timer is armed and its interrupt can be taken. What can be taken, apart
from exceptions of the code that runs, is this interrupt and a spurious one, and the kernel
returns from both to a task, whatever the clock says. -/
theorem interrupts_return (start : startKernel b board = .ok (booted, k₀))
    (run : KernelRun b clock k₀ k) :
    k.timer.ctl = 1 ∧ k.Takes (.irq 27) ∧
      ∀ trap, k.Takes trap → (∃ esr far, trap = .sync esr far) ∨
        (trap = .irq 27 ∨ trap = .irq 1023) ∧
          ∀ scratch, ∃ k', handle b clock scratch trap k = .ok k' := by
  obtain ⟨threads, running⟩ := KernelRun.running start run
  refine ⟨running.timer, running.takes_tick, fun trap takes => ?_⟩
  rcases running.takes_cases takes with sync | ⟨iar, rfl, known⟩
  · exact .inl sync
  · refine .inr ⟨?_, fun scratch => ?_⟩
    · rcases known with rfl | rfl
      · exact .inl rfl
      · exact .inr rfl
    · obtain ⟨k', returns, -⟩ := running.irq clock scratch (takes.2 iar rfl)
      exact ⟨k', returns⟩

theorem interrupts_return_small : ∃ booted k₀ k,
    startKernel kernelImage kernelBoard = .ok (booted, k₀) ∧
      KernelRun kernelImage (fun _ => 0) k₀ k ∧ k.timer.ctl = 1 ∧ k.Takes (.irq 27) := by
  obtain ⟨booted, k₀, k, start, run, -⟩ := kernelImage_ticks fun _ => 0
  obtain ⟨armed, takes, -⟩ := interrupts_return start run
  exact ⟨booted, k₀, k, start, run, armed, takes⟩

/-- What becomes of a synchronous exception, in every state. The kernel returns from a data
abort of the root task inside its heap and from a system call that is served; an exception of
`idle`, one of another class, a data abort elsewhere and a `nanosleep` with a request that is
not mapped make it panic. That leaves the two memory calls when they are not granted, and a
`nanosleep` with a request that is mapped outside RAM. They end the modelled run, but the
machine may return from some of them, depending on what it finds behind a table or at a
device. -/
theorem sync_outcome (start : startKernel b board = .ok (booted, k₀))
    (run : KernelRun b clock k₀ k) (scratch : Scratch) (esr far : U64) :
    (k.SyncServed b esr far → ∃ k', handle b clock scratch (.sync esr far) k = .ok k') ∧
    (k.SyncPanics b esr far → handle b clock scratch (.sync esr far) k = .error .panic) ∧
    (k.SyncServed b esr far ∨ k.SyncPanics b esr far ∨ esrEc esr = esrEcLelSvc64 ∧
      (k.core.x 8 = 101 ∨ k.core.x 8 = 214 ∨ k.core.x 8 = 222)) := by
  obtain ⟨threads, running⟩ := KernelRun.running start run
  exact ⟨running.sync_served clock scratch, running.sync_panics clock scratch,
    k.sync_cases b esr far⟩

/-- After the first tick, a system call without a handler returns, and an exception of class 0
makes the kernel panic. -/
theorem sync_outcome_small : ∃ booted k₀ k,
    startKernel kernelImage kernelBoard = .ok (booted, k₀) ∧
      KernelRun kernelImage (fun _ => 0) k₀ k ∧
      (∃ k', handle kernelImage (fun _ => 0) noScratch (.sync 0x56000000 0) k = .ok k') ∧
      handle kernelImage (fun _ => 0) noScratch (.sync 0 0) k = .error .panic := by
  obtain ⟨booted, k₀, k, start, run, current, thread, -⟩ := kernelImage_ticks fun _ => 0
  have clear : k.core.x 8 = 0 := by
    rw [show k.core.x = k.core.thread.x from rfl, thread]
    rfl
  have served : k.SyncServed kernelImage 0x56000000 0 := by
    refine ⟨current, .inr ⟨by decide, ?_⟩⟩
    unfold Kernel.SvcServed
    rw [clear]
    trivial
  have panics : k.SyncPanics kernelImage 0 0 := .inr (.inl ⟨by decide, by decide⟩)
  exact ⟨booted, k₀, k, start, run, (sync_outcome start run noScratch 0x56000000 0).1 served,
    (sync_outcome start run noScratch 0 0).2.1 panics⟩

/-- A step that reads the clock at most, such as a turn of `idle` or a spurious interrupt, and
not a call of `schedule`. -/
def QuietStep (b : Image) (clock : Nat → U64) (k k' : Kernel) : Prop :=
  (∃ e, Step b clock k e k') ∧ ∃ n, k'.sched = { k.sched with reads := n }

/-- Until `schedule` is called, the root task is as it was created. -/
theorem quiet_running (start : startKernel b board = .ok (booted, k₀))
    (run : Relation.ReflTransGen (QuietStep b clock) k₀ k) :
    ∃ threads n, Running b booted threads k ∧ threads .root = created b booted .root ∧
      k.sched = startSched board.links n := by
  induction run with
  | refl =>
    obtain ⟨running, -⟩ := startKernel_running start
    exact ⟨_, _, running, rfl, startKernel_sched start⟩
  | tail _ quiet ih =>
    obtain ⟨threads, n, running, root, sched⟩ := ih
    obtain ⟨⟨e, step⟩, n', same⟩ := quiet
    obtain ⟨threads', running', seen⟩ := running.step clock step
    refine ⟨threads', n', running', ?_, ?_⟩
    · have idle := (startSched_queues board.links n).2.1
      rw [← sched] at idle
      exact (seen.root_of_idle idle).trans root
    · rw [same, sched]
      rfl

/-- The first tick after `init_kernel` starts the root task: at its entry point, at EL0 with
interrupts enabled, with its stack pointer at the end of its stack, all other registers clear
and its table in TTBR0. Turns of `idle` and spurious interrupts before it do not matter. -/
theorem first_tick_enters_root (start : startKernel b board = .ok (booted, k₀))
    (run : Relation.ReflTransGen (QuietStep b clock) k₀ k) (scratch : Scratch) :
    ∃ k', handle b clock scratch (.irq 27) k = .ok k' ∧ k'.sched.current = .root ∧
      k'.core.thread = created b booted .root ∧ k'.ttbr0Base = phys b.layout.userPgd := by
  obtain ⟨threads, n, running, root, sched⟩ := quiet_running start run
  obtain ⟨k', tick, running', current⟩ := running.first_tick clock sched scratch
  refine ⟨k', tick, current, ?_, running'.table current⟩
  rw [(running'.root_task current).2.1, root]

/-- On the small machine, the first tick comes after a turn of `idle`. -/
theorem first_tick_enters_root_small : ∃ booted k₀ k k',
    startKernel kernelImage kernelBoard = .ok (booted, k₀) ∧
      QuietStep kernelImage (fun _ => 0) k₀ k ∧ k.core.pc = kernelImage.idle ∧
      handle kernelImage (fun _ => 0) noScratch (.irq 27) k = .ok k' ∧
      k'.core.thread = created kernelImage booted .root := by
  obtain ⟨booted, k₀, start⟩ := kernelImage_starts
  obtain ⟨running, current⟩ := startKernel_running start
  have el1 := (el1_iff_of_mode running.core_mode).mpr current
  have quiet : QuietStep kernelImage (fun _ => 0) k₀
      { k₀ with core := { k₀.core with pc := kernelImage.idle } } :=
    ⟨⟨_, .idle el1⟩, k₀.sched.reads, rfl⟩
  obtain ⟨k', tick, -, thread, -⟩ := first_tick_enters_root start (.single quiet) noScratch
  exact ⟨booted, k₀, _, k', start, quiet, rfl, tick, thread⟩

end Main

end Chinos
