import Chinos.Trap.Start

/-!
# Which exceptions the kernel returns from

Whether an exception returns to a task depends on what the task had in its registers, on
where its heap is and on the free granules. Interrupts always do; the first tick starts the
root task.
-/

namespace Chinos

section Served

variable {b : Image} {booted : Booted} {threads : TaskId → Thread} {k k' : Kernel} {v : U64}
  (clock : Nat → U64)

/-! ## System calls -/

/-- The eight bytes at `v` all have a translation at EL1. -/
def Kernel.Mapped (b : Image) (k : Kernel) (v : U64) : Prop :=
  ∀ i < 8, (k.translate b (v + BitVec.ofNat 64 i)).isSome = true

/-- The eight bytes at `v` are mapped, and in RAM. -/
def Kernel.Reads (b : Image) (k : Kernel) (v : U64) : Prop :=
  ∀ i < 8, ((k.translate b (v + BitVec.ofNat 64 i)).any fun leaf => inRam leaf.pa) = true

/-- The call that the registers `x` ask for can be made: memory calls must be granted, and the
request of `nanosleep` must be mapped to RAM; it may be anywhere, in memory of the kernel
too. -/
def Kernel.SvcServed (b : Image) (k : Kernel) (x : Reg → U64) : Prop :=
  if (x 8).toNat < syscallsNum then
    match svcHandlers (x 8).toNat with
    | some .vsysBrk => (MmCall.brk (x 0)).Granted k.root
    | some .vsysMmap => (MmCall.mmap (x 0) (x 1) (x 2) (x 3) (x 4) (x 5)).Granted k.root
    | some .vsysNanosleep => k.Reads b (x 0) ∧ k.Reads b (x 0 + 8)
    | _ => True
  else True

/-- The call that the registers `x` ask for is a `nanosleep` with a request that is not
mapped: the kernel loads `tv_sec` first and `tv_nsec` then. -/
def Kernel.SvcPanics (b : Image) (k : Kernel) (x : Reg → U64) : Prop :=
  svcHandlers (x 8).toNat = some .vsysNanosleep ∧
    (¬ k.Mapped b (x 0) ∨ k.Reads b (x 0) ∧ ¬ k.Mapped b (x 0 + 8))

/-- The number of the system call that has a given function. -/
def SysCallback.number : SysCallback → Nat
  | .vsysIoctl => 29
  | .vsysWritev => 66
  | .vsysExit => 93
  | .vsysExitGroup => 94
  | .vsysNanosleep => 101
  | .vsysBrk => 214
  | .vsysMunmap => 215
  | .vsysMmap => 222

/-- No function is in the table twice, so a function determines the number of its call. -/
theorem eq_number_of_svcHandlers {n : Nat} {callback : SysCallback}
    (found : svcHandlers n = some callback) : n = callback.number := by
  unfold svcHandlers at found
  split at found
  all_goals cases found
  all_goals rfl

theorem SysCallback.number_lt (callback : SysCallback) : callback.number < syscallsNum := by
  cases callback <;> decide

theorem Kernel.Reads.mapped (reads : k.Reads b v) : k.Mapped b v := fun i small => by
  have found := reads i small
  cases leaf : k.translate b (v + BitVec.ofNat 64 i) with
  | none =>
    rw [leaf] at found
    cases found
  | some leaf => rfl

theorem read64_of_reads (reads : k.Reads b v) : ∃ w, k.read64 b v = .ok w := by
  have mapped := reads.mapped
  unfold Kernel.read64
  simp only
  rw [require_bind_of_pos (by simpa [Kernel.Mapped] using mapped),
    require_bind_of_pos (by simpa [Kernel.Reads] using reads)]
  exact ⟨_, rfl⟩

theorem read64_of_not_mapped (unmapped : ¬ k.Mapped b v) : k.read64 b v = .error .panic := by
  unfold Kernel.read64
  simp only
  rw [require_bind_of_neg (by simpa [Kernel.Mapped] using unmapped)]

/-- A memory call of the root task returns if it is granted. -/
theorem Sound.mmCall {act : Option Nat} (sound : Sound b booted act k)
    (current : k.sched.current = .root) {call : MmCall} (granted : call.Granted k.root) :
    ∃ ret k', k.mmCall call = .ok (ret, k') := by
  obtain ⟨others, maps, inv⟩ := sound.space
  obtain ⟨ret, root, run⟩ := (inv.inv.returns_iff call).mpr granted
  unfold Kernel.mmCall
  rw [current]
  simp only [run]
  exact ⟨_, _, rfl⟩

/-- The registers that a handler reads are those of the task. -/
theorem Inside.reg_eq (inside : Inside b booted none threads k) (t : TaskId) (r : Reg) :
    k.mem.reg (b.context t) r = (threads t).x r := by
  rw [← inside.saved t]
  rfl

/-- A call with a number that has no function returns `-ENOSYS` and changes nothing. -/
theorem Inside.svcCall_of_none (inside : Inside b booted none threads k)
    (current : k.sched.current = .root)
    (unknown : svcHandlers ((threads .root).x 8).toNat = none) :
    Chinos.svcCall b clock k = .ok (negEnosys, k) := by
  have x8 : k.mem.reg (b.context .root) 8 = (threads .root).x 8 := inside.reg_eq .root 8
  unfold Chinos.svcCall
  rw [current]
  simp only [x8, unknown, ite_self]

/-- A call with a number that has a function is the call of that function with the saved
registers. -/
theorem Inside.svcCall_of_some (inside : Inside b booted none threads k)
    (current : k.sched.current = .root) {callback : SysCallback}
    (found : svcHandlers ((threads .root).x 8).toNat = some callback) :
    Chinos.svcCall b clock k = callback.run b clock k (k.mem.reg (b.context .root)) := by
  have x8 : k.mem.reg (b.context .root) 8 = (threads .root).x 8 := inside.reg_eq .root 8
  have small : ((threads .root).x 8).toNat < syscallsNum := by
    rw [eq_number_of_svcHandlers found]
    exact callback.number_lt
  unfold Chinos.svcCall
  rw [current]
  simp only [x8, small, if_true, found]

/-- A system call that is served returns to `svc_handler`. -/
theorem Inside.svcCall_served (inside : Inside b booted none threads k)
    (current : k.sched.current = .root) (served : k.SvcServed b (threads .root).x) :
    ∃ ret k', Chinos.svcCall b clock k = .ok (ret, k') := by
  have x0 : k.mem.reg (b.context .root) 0 = (threads .root).x 0 := inside.reg_eq .root 0
  have x1 : k.mem.reg (b.context .root) 1 = (threads .root).x 1 := inside.reg_eq .root 1
  have x2 : k.mem.reg (b.context .root) 2 = (threads .root).x 2 := inside.reg_eq .root 2
  have x3 : k.mem.reg (b.context .root) 3 = (threads .root).x 3 := inside.reg_eq .root 3
  have x4 : k.mem.reg (b.context .root) 4 = (threads .root).x 4 := inside.reg_eq .root 4
  have x5 : k.mem.reg (b.context .root) 5 = (threads .root).x 5 := inside.reg_eq .root 5
  unfold Kernel.SvcServed at served
  cases found : svcHandlers ((threads .root).x 8).toNat with
  | none => exact ⟨_, _, inside.svcCall_of_none clock current found⟩
  | some callback =>
    have small : ((threads .root).x 8).toNat < syscallsNum := by
      rw [eq_number_of_svcHandlers found]
      exact callback.number_lt
    rw [if_pos small, found] at served
    rw [inside.svcCall_of_some clock current found]
    cases callback with
    | vsysBrk =>
      simp only [SysCallback.run, x0]
      exact inside.toSound.mmCall current served
    | vsysMmap =>
      simp only [SysCallback.run, x0, x1, x2, x3, x4, x5]
      exact inside.toSound.mmCall current served
    | vsysNanosleep =>
      simp only [SysCallback.run, x0]
      obtain ⟨tvSec, first⟩ := read64_of_reads served.1
      obtain ⟨tvNsec, second⟩ := read64_of_reads served.2
      rw [first, ok_bind, second, ok_bind]
      exact ⟨_, _, rfl⟩
    | vsysIoctl | vsysWritev | vsysMunmap | vsysExit | vsysExitGroup => exact ⟨_, _, rfl⟩

/-- `nanosleep` with a request that is not mapped takes the kernel to a data abort of its
own. -/
theorem Inside.svcCall_panics (inside : Inside b booted none threads k)
    (current : k.sched.current = .root) (panics : k.SvcPanics b (threads .root).x) :
    Chinos.svcCall b clock k = .error .panic := by
  have x0 : k.mem.reg (b.context .root) 0 = (threads .root).x 0 := inside.reg_eq .root 0
  obtain ⟨found, unmapped⟩ := panics
  rw [inside.svcCall_of_some clock current found]
  simp only [SysCallback.run, x0]
  rcases unmapped with first | ⟨reads, second⟩
  · rw [read64_of_not_mapped first]
    rfl
  · obtain ⟨tvSec, first⟩ := read64_of_reads reads
    rw [first, ok_bind, read64_of_not_mapped second]
    rfl

/-! ## Synchronous exceptions -/

/-- The kernel sees the same translations once an exception has been entered. -/
theorem Running.enter_translate (running : Running b booted threads k)
    (current : k.sched.current = .root) (scratch : Scratch) (trap : Trap) (v : U64) :
    (enterKernel b scratch trap k).translate b v = k.translate b v := by
  have object : b.Object k.core.sp (8 * regsCount) := by
    rw [(running.root_task current).1]
    exact b.context_object _
  obtain ⟨others, maps, inv⟩ := running.space
  have inv' := inv.entered scratch trap object
  obtain ⟨core, eq⟩ := enterKernel_eq k scratch trap object
  have table : k.ttbr0Base = phys b.layout.userPgd := running.table current
  have table' : (enterKernel b scratch trap k).ttbr0Base = phys b.layout.userPgd := by
    rw [eq, Kernel.ttbr0Base_withCore, Kernel.ttbr0Base_withMem, table]
  have mem_eq : (enterKernel b scratch trap k).mem =
      (k.root.withMem (entered b scratch trap k)).pt.mem := by
    rw [eq, Kernel.mem_withCore, Kernel.mem_withMem, Process.mem_withMem]
  unfold Kernel.translate
  rw [table, table', mem_eq]
  generalize k.root.withMem (entered b scratch trap k) = p' at inv'
  obtain ⟨tree, holding⟩ := inv.inv.mem.table
  obtain ⟨tree', holding'⟩ := inv'.inv.mem.table
  obtain ⟨kernelTree, heap, kernelHolding⟩ := inv.table
  obtain ⟨kernelTree', heap', kernelHolding'⟩ := inv'.table
  split
  · exact (holding'.translate_eq .lower _).trans (holding.translate_eq .lower _).symm
  · exact (kernelHolding'.translate_eq .upper _).trans (kernelHolding.translate_eq .upper _).symm

/-- A memory call that is granted when the exception is taken is so when its handler runs. -/
theorem Running.enter_granted (running : Running b booted threads k)
    (current : k.sched.current = .root) (scratch : Scratch) (trap : Trap) (call : MmCall) :
    call.Granted (enterKernel b scratch trap k).root ↔ call.Granted k.root := by
  have object : b.Object k.core.sp (8 * regsCount) := by
    rw [(running.root_task current).1]
    exact b.context_object _
  obtain ⟨others, maps, inv⟩ := running.space
  obtain ⟨core, eq⟩ := enterKernel_eq k scratch trap object
  have root_eq : (enterKernel b scratch trap k).root =
      k.root.withMem (entered b scratch trap k) := by
    rw [eq, Kernel.root_withCore]
    rfl
  rw [root_eq]
  exact inv.inv.granted_withMem fun q inTables x inPage =>
    inv.entered_same scratch trap object (.inl inTables) inPage

theorem Running.enter_svcServed (running : Running b booted threads k)
    (current : k.sched.current = .root) (scratch : Scratch) (trap : Trap) (x : Reg → U64) :
    (enterKernel b scratch trap k).SvcServed b x ↔ k.SvcServed b x := by
  have granted := running.enter_granted current scratch trap
  unfold Kernel.SvcServed Kernel.Reads
  simp only [running.enter_translate current scratch trap, granted]

theorem Running.enter_svcPanics (running : Running b booted threads k)
    (current : k.sched.current = .root) (scratch : Scratch) (trap : Trap) (x : Reg → U64) :
    (enterKernel b scratch trap k).SvcPanics b x ↔ k.SvcPanics b x := by
  unfold Kernel.SvcPanics Kernel.Reads Kernel.Mapped
  simp only [running.enter_translate current scratch trap]

/-- A synchronous exception that the kernel returns from: a page fault of the root task in its
heap, or a system call that can be made. -/
def Kernel.SyncServed (b : Image) (k : Kernel) (esr far : U64) : Prop :=
  k.sched.current = .root ∧
    (esrEc esr = esrEcLelDabt ∧ k.root.mm.startBrk ≤ far ∧ far < k.root.mm.brk ∨
      esrEc esr = esrEcLelSvc64 ∧ k.SvcServed b k.core.x)

/-- A synchronous exception that ends in a panic: one of `idle`, one of another class, a page
fault outside the heap, or a `nanosleep` with a request that is not mapped. -/
def Kernel.SyncPanics (b : Image) (k : Kernel) (esr far : U64) : Prop :=
  k.sched.current = .idle ∨ (esrEc esr ≠ esrEcLelDabt ∧ esrEc esr ≠ esrEcLelSvc64) ∨
    esrEc esr = esrEcLelDabt ∧ ¬ (k.root.mm.startBrk ≤ far ∧ far < k.root.mm.brk) ∨
    esrEc esr = esrEcLelSvc64 ∧ k.SvcPanics b k.core.x

/-- A system call of the root task, from its exception to the `eret`. -/
theorem Running.svc_outcome (running : Running b booted threads k) (scratch : Scratch)
    (current : k.sched.current = .root) {esr : U64} (far : U64)
    (svc : esrEc esr = esrEcLelSvc64) :
    (k.SvcServed b k.core.x → ∃ k', handle b clock scratch (.sync esr far) k = .ok k') ∧
    (k.SvcPanics b k.core.x → handle b clock scratch (.sync esr far) k = .error .panic) := by
  have inside := running.enter_sync scratch current esr far
  obtain ⟨sched_eq, -, -⟩ := running.enter_same scratch (.sync esr far)
  have served := running.enter_svcServed current scratch (.sync esr far) k.core.x
  have panics := running.enter_svcPanics current scratch (.sync esr far) k.core.x
  have x_eq : k.core.x = (threads .root).x := by
    rw [← (running.root_task current).2.1]
    rfl
  rw [running.handle_sync_root clock scratch current]
  generalize enterKernel b scratch (.sync esr far) k = k₁ at inside sched_eq served panics
  have current₁ : k₁.sched.current = .root := by
    rw [sched_eq]
    exact current
  have notDabt : esrEc esr ≠ esrEcLelDabt := by
    rw [svc]
    decide
  have same : (Function.update threads TaskId.root ((threads .root).withPc
      (Trap.returnTo (threads .root).pc (.sync esr far))) .root).x = k.core.x := by
    rw [Function.update_self, x_eq]
    rfl
  have returns := inside.svcCall_served clock current₁
  have stops := inside.svcCall_panics clock current₁
  rw [same, served] at returns
  rw [same, panics] at stops
  unfold lelSyncTraps svcHandler
  rw [if_neg notDabt, if_pos svc, current₁]
  constructor
  · intro ok
    obtain ⟨ret, k₂, call⟩ := returns ok
    obtain ⟨inside₂, -⟩ := inside.svcCall clock call
    obtain ⟨k₃, sched, -⟩ := (inside₂.setRetcode .root ret).schedule clock
    rw [call, ok_bind]
    simp only [sched]
    exact ⟨_, rfl⟩
  · intro unmapped
    rw [stops unmapped]
    rfl

/-- What is served returns, in every state that is in order. -/
theorem Running.sync_served (running : Running b booted threads k) (scratch : Scratch)
    {esr far : U64} (served : k.SyncServed b esr far) :
    ∃ k', handle b clock scratch (.sync esr far) k = .ok k' := by
  obtain ⟨current, ⟨dabt, inHeap⟩ | ⟨svc, ok⟩⟩ := served
  · obtain ⟨k', run, -⟩ := (running.pageFault clock scratch current far dabt).1 inHeap
    exact ⟨k', run⟩
  · exact (running.svc_outcome clock scratch current far svc).1 ok

/-- What panics does, in every state that is in order. -/
theorem Running.sync_panics (running : Running b booted threads k) (scratch : Scratch)
    {esr far : U64} (panics : k.SyncPanics b esr far) :
    handle b clock scratch (.sync esr far) k = .error .panic := by
  cases current : k.sched.current with
  | idle => exact running.handle_sync_idle clock scratch current esr far
  | root =>
    rcases panics with idle | ⟨notDabt, notSvc⟩ | ⟨dabt, outside⟩ | ⟨svc, unmapped⟩
    · cases current.symm.trans idle
    · rw [running.handle_sync_root clock scratch current, lelSyncTraps, if_neg notDabt,
        if_neg notSvc]
    · exact (running.pageFault clock scratch current far dabt).2 outside
    · exact (running.svc_outcome clock scratch current far svc).2 unmapped

/-- What is neither is one of three system calls: a memory call that is not granted, or a
`nanosleep` with a request outside RAM. -/
theorem Kernel.sync_cases (b : Image) (k : Kernel) (esr far : U64) :
    k.SyncServed b esr far ∨ k.SyncPanics b esr far ∨
      esrEc esr = esrEcLelSvc64 ∧ (k.core.x 8 = 101 ∨ k.core.x 8 = 214 ∨ k.core.x 8 = 222) := by
  cases current : k.sched.current with
  | idle => exact .inr (.inl (.inl current))
  | root =>
    by_cases dabt : esrEc esr = esrEcLelDabt
    · by_cases inHeap : k.root.mm.startBrk ≤ far ∧ far < k.root.mm.brk
      · exact .inl ⟨current, .inl ⟨dabt, inHeap⟩⟩
      · exact .inr (.inl (.inr (.inr (.inl ⟨dabt, inHeap⟩))))
    by_cases svc : esrEc esr = esrEcLelSvc64
    swap
    · exact .inr (.inl (.inr (.inl ⟨dabt, svc⟩)))
    by_cases listed : k.core.x 8 = 101 ∨ k.core.x 8 = 214 ∨ k.core.x 8 = 222
    · exact .inr (.inr ⟨svc, listed⟩)
    -- all other calls return whatever is in the registers
    have number : ∀ callback, svcHandlers (k.core.x 8).toNat = some callback →
        k.core.x 8 = BitVec.ofNat 64 callback.number := by
      intro callback found
      rw [← eq_number_of_svcHandlers found, BitVec.ofNat_toNat, BitVec.setWidth_eq]
    refine .inl ⟨current, .inr ⟨svc, ?_⟩⟩
    unfold Kernel.SvcServed
    split
    · split
      · next found => exact absurd (.inr (.inl (number _ found))) listed
      · next found => exact absurd (.inr (.inr (number _ found))) listed
      · next found => exact absurd (.inl (number _ found)) listed
      · trivial
    · trivial

end Served

/-! ## Interrupts -/

section Interrupts

variable {b : Image} {booted : Booted} {threads : TaskId → Thread} {k : Kernel}

/-- Interrupts are not masked while a task runs, so one that the controller reports can be
taken. -/
theorem Running.takes_irq (running : Running b booted threads k) {iar : U64}
    (reports : k.irqs.Reports iar) : k.Takes (.irq iar) := by
  refine ⟨?_, fun iar' eq => ?_⟩
  · rw [masked_iff_of_mode running.core_mode]
    simp
  · cases eq
    exact reports

/-- The timer's interrupt is enabled and not active while a task runs, so it can be taken. -/
theorem Running.takes_tick (running : Running b booted threads k) : k.Takes (.irq 27) := by
  have known := running.irqs.known
  have number : (27 : U64).toNat = 27 := rfl
  refine running.takes_irq (.inr ?_)
  rw [number]
  refine ⟨by omega, by decide, running.irqs.enabled 27 (by omega), ?_⟩
  by_contra isActive
  cases running.active 27 (by decide) (Bool.eq_true_of_not_eq_false isActive)

/-- What can be taken, other than an exception of the code itself. -/
theorem Running.takes_cases (running : Running b booted threads k) {trap : Trap}
    (takes : k.Takes trap) :
    (∃ esr far, trap = .sync esr far) ∨ ∃ iar, trap = .irq iar ∧ (iar = 27 ∨ iar = 1023) := by
  obtain ⟨unmasked, reports⟩ := takes
  rw [masked_iff_of_mode running.core_mode] at unmasked
  cases trap with
  | sync esr far => exact .inl ⟨esr, far, rfl⟩
  | irq iar => exact .inr ⟨iar, rfl, running.irqs.reports (reports iar rfl)⟩
  | fiq => exact absurd (.inl rfl) unmasked
  | serror => exact absurd (.inr rfl) unmasked

end Interrupts

/-! ## The first tick -/

section FirstTick

variable {b : Image} {booted : Booted} {board : Board} {k k₀ : Kernel} (clock : Nat → U64)

/-- The first call of `schedule` picks the root task. -/
theorem schedule_startSched (links : Links (Node TaskId)) (reads : Nat) :
    ∃ s, schedule clock (startSched links reads) = .ok s ∧ s.current = .root := by
  obtain ⟨on, current, bits⟩ := startSched_queues links reads
  -- nothing is pending
  have check : schedPendingCheck clock (startSched links reads) =
      .ok (startSched links reads) := by
    have empty : (startSched links reads).links.next .pending = .pending := on.repr.next_pending
    unfold schedPendingCheck
    simp only [empty]
    rfl
  obtain ⟨least, select, set, le⟩ := selectPriority_spec on.group ((bits 10).mpr (.inl rfl))
  have isTen : least = 10 := by
    rcases (bits least).mp set with rfl | rfl
    · rfl
    · exact absurd (le 10 ((bits 10).mpr (.inl rfl))) (by decide)
  subst isTen
  have loop := on.repr.readyLoop_eq (p := 10) (startSched links reads).current
    (on.length_le on.repr.nodup_ready (fun t inside => .inr ⟨10, inside⟩))
  have run := schedule_eq check select loop
  rw [current] at run
  exact ⟨_, run, rfl⟩

theorem startKernel_sched (start : startKernel b board = .ok (booted, k₀)) :
    k₀.sched = startSched board.links k₀.sched.reads := by
  unfold startKernel at start
  obtain ⟨irqs, init, start⟩ := of_bind_ok start
  obtain ⟨booted', memory, start⟩ := of_bind_ok start
  obtain ⟨asids, asid, start⟩ := of_bind_ok start
  cases start
  rfl

/-- The first tick after `init_kernel` resumes the root task, with the registers it was created
with. -/
theorem Running.first_tick {threads : TaskId → Thread} (running : Running b booted threads k)
    {links : Links (Node TaskId)} {reads : Nat} (sched : k.sched = startSched links reads)
    (scratch : Scratch) :
    ∃ k', handle b clock scratch (.irq 27) k = .ok k' ∧ Running b booted threads k' ∧
      k'.sched.current = .root := by
  obtain ⟨k', run, running'⟩ := running.irq clock scratch (running.takes_tick.2 27 rfl)
  refine ⟨k', run, running', ?_⟩
  rw [running.handle_irq clock scratch] at run
  obtain ⟨sched_eq, -, -⟩ := running.enter_same scratch (.irq 27)
  have inside := running.enter_irq scratch 27
  generalize enterKernel b scratch (.irq 27) k = k₁ at run sched_eq inside
  unfold decodeIrq at run
  have number : (27 : U64).toNat = 27 := rfl
  have masked : ((27 : U64) &&& 0xffffff).toNat = 27 := by decide
  simp only [number, masked] at run
  rw [require_bind_of_pos (.inl (by decide)), if_pos (by decide)] at run
  obtain ⟨k₂, dispatched, run⟩ := of_bind_ok run
  cases run
  have stamped : (timerUpdateTimestamp clock k₁).sched = startSched links (reads + 1) := by
    unfold timerUpdateTimestamp getCurrentTime
    rw [sched_eq, sched]
    rfl
  have ok : IrqsOk { k₁.irqs with gic := k₁.irqs.gic.acknowledge 27 } :=
    ⟨inside.irqs.known, by simpa [Gic.acknowledge_enabled] using inside.irqs.enabled,
      inside.irqs.handler⟩
  obtain ⟨call, -, -⟩ := ok.dispatch
  unfold irqDispatchRun at dispatched
  simp only [timerUpdateTimestamp] at dispatched
  rw [call] at dispatched
  obtain ⟨s, picked, isRoot⟩ := schedule_startSched clock links (reads + 1)
  unfold Handler.run timerHandler kernelSchedule at dispatched
  simp only [timerUpdateTimestamp] at stamped
  simp only [stamped, picked] at dispatched
  cases dispatched
  rw [restoreCurrentContext_eq, Kernel.sched_withCore]
  exact isRoot

end FirstTick

end Chinos
