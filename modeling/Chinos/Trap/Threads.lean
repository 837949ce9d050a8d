import Chinos.Trap.Inv

/-!
# The tasks as register files

`ThreadStep` is what the tasks can notice of the machine: code of the current task finds the
registers that it left and changes its own, an exception changes nobody's, and a system call
returns a value in `x0` of the root task. Its events are those of the machine, and they
determine it. `Running.step` shows that every step of the machine is matched by one with the
same event, and that it keeps the kernel in order.
-/

namespace Chinos

/-! ## The mode of the core -/

section Mode

variable {pstate : U64} {t : TaskId}

theorem getLsbD_of_mode (mode : pstate &&& pstateMask = modeOf t) {i : Nat}
    (listed : pstateMask.getLsbD i = true) : pstate.getLsbD i = (modeOf t).getLsbD i := by
  rw [← mode, BitVec.getLsbD_and, listed, Bool.and_true]

theorem and_of_mode (mode : pstate &&& pstateMask = modeOf t) {mask : U64}
    (listed : pstateMask &&& mask = mask) : pstate &&& mask = modeOf t &&& mask := by
  rw [← mode, BitVec.and_assoc, listed]

/-- The root task is the one that runs at EL0. -/
theorem el0_iff_of_mode (mode : pstate &&& pstateMask = modeOf t) :
    pstate &&& 0x1f = pmodeEl0t ↔ t = .root := by
  rw [and_of_mode mode (by decide)]
  cases t <;> decide

theorem el1_iff_of_mode (mode : pstate &&& pstateMask = modeOf t) :
    pstate &&& 0x1f = pmodeEl1h ↔ t = .idle := by
  rw [and_of_mode mode (by decide)]
  cases t <;> decide

/-- The group of vectors for an exception from the task. -/
theorem vectorGroup_of_mode (mode : pstate &&& pstateMask = modeOf t) :
    vectorGroup pstate = vectorGroup (modeOf t) := by
  unfold vectorGroup
  rw [getLsbD_of_mode mode (by decide), getLsbD_of_mode mode (by decide),
    and_of_mode mode (by decide)]

theorem vectorEntry_of_mode (mode : pstate &&& pstateMask = modeOf t) (trap : Trap) :
    vectorEntry pstate trap = vectorEntry (modeOf t) trap := by
  unfold vectorEntry
  rw [vectorGroup_of_mode mode]

/-- In a task interrupts are taken, and FIQ and SError are not. -/
theorem masked_iff_of_mode (mode : pstate &&& pstateMask = modeOf t) (trap : Trap) :
    trap.Masked pstate ↔ trap = .fiq ∨ trap = .serror := by
  cases trap with
  | sync esr far => simp [Trap.Masked]
  | irq iar =>
    simp only [Trap.Masked, reduceCtorEq, or_self, iff_false]
    rw [getLsbD_of_mode mode (by decide)]
    cases t <;> decide
  | fiq =>
    simp only [Trap.Masked]
    rw [getLsbD_of_mode mode (by decide)]
    cases t <;> decide
  | serror =>
    simp only [Trap.Masked]
    rw [getLsbD_of_mode mode (by decide)]
    cases t <;> decide

end Mode

/-! ## The abstract machine -/

/-- The current task and the registers of all tasks. -/
structure ThreadState where
  current : TaskId
  threads : TaskId → Thread

/-- The value that a system call of the thread may return: a call without a handler fails,
and only memory calls return something else than 0. -/
def Thread.SvcReturns (thread : Thread) (ret : U64) : Prop :=
  if (thread.x 8).toNat < syscallsNum then
    match svcHandlers (thread.x 8).toNat with
    | none => ret = negEnosys
    | some .vsysBrk => True
    | some .vsysMmap => True
    | some _ => ret = 0
  else ret = negEnosys

/-- The registers of the root task after a system call. -/
def Thread.afterSvc (thread : Thread) (ret : U64) : Thread :=
  { thread with pc := thread.pc + 4, x := Function.update thread.x 0 ret }

/-- What the tasks can notice of a step of the machine, by its event. -/
inductive ThreadStep : ThreadState → Event → ThreadState → Prop
  /-- Code at EL0 goes on with the registers of the root task. -/
  | user {s : ThreadState} {thread : Thread} (current : s.current = .root)
      (kept : thread.pstate &&& pstateMask = (s.threads .root).pstate &&& pstateMask) :
      ThreadStep s (.user (s.threads .root) thread)
        { s with threads := Function.update s.threads .root thread }
  /-- The idle task makes a turn of its loop, which changes its program counter only. -/
  | idle {s : ThreadState} {pc : U64} (current : s.current = .idle) :
      ThreadStep s (.idle pc)
        { s with threads := Function.update s.threads .idle ((s.threads .idle).withPc pc) }
  /-- A turn of `idle` under `init_kernel`, which has registers of its own. -/
  | boot {s : ThreadState} {pc : U64} (current : s.current = .idle) : ThreadStep s (.boot pc) s
  /-- An interrupt, or a page fault in the heap. -/
  | resume {s : ThreadState} (next : TaskId) :
      ThreadStep s (.trap none next) { s with current := next }
  /-- The root task makes a system call, which changes its result register and where it goes on,
  and a task is resumed. -/
  | svc {s : ThreadState} {ret : U64} (current : s.current = .root)
      (returns : (s.threads .root).SvcReturns ret) (next : TaskId) :
      ThreadStep s (.trap (some ret) next)
        ⟨next, Function.update s.threads .root ((s.threads .root).afterSvc ret)⟩

/-- The registers after a step depend on those before and on the event only. -/
theorem ThreadStep.unique {s s' s'' : ThreadState} {e : Event} (step : ThreadStep s e s')
    (other : ThreadStep s e s'') : s' = s'' := by
  cases step <;> cases other <;> rfl

/-- While `idle` runs, the registers of the root task stay. -/
theorem ThreadStep.root_of_idle {s s' : ThreadState} {e : Event} (step : ThreadStep s e s')
    (idle : s.current = .idle) : s'.threads .root = s.threads .root := by
  cases step with
  | user current =>
    rw [idle] at current
    cases current
  | idle current =>
    have other : TaskId.root ≠ .idle := by decide
    simp only [Function.update_of_ne other]
  | boot current => rfl
  | resume t => rfl
  | svc current =>
    rw [idle] at current
    cases current

section Steps

variable {b : Image} {booted : Booted} {threads : TaskId → Thread} {k k' : Kernel}
  (clock : Nat → U64) (scratch : Scratch)

/-! ## Exceptions -/

/-- The mode of the core is that of the current task. -/
theorem Running.core_mode (running : Running b booted threads k) :
    k.core.pstate &&& pstateMask = modeOf k.sched.current := by
  cases running.core with
  | task sp live saved =>
    have mode := running.mode k.sched.current
    rw [← live] at mode
    exact mode
  | boot sp idle mode saved =>
    rw [idle]
    exact mode

/-- While the root task is current, the core runs it. -/
theorem Running.root_task (running : Running b booted threads k)
    (current : k.sched.current = .root) :
    k.core.sp = b.context .root ∧ k.core.thread = threads .root ∧
      ∀ t, t ≠ .root → k.mem.thread (b.context t) = threads t := by
  cases running.core with
  | task sp live saved =>
    rw [current] at sp live saved
    exact ⟨sp, live, saved⟩
  | boot sp idle mode saved =>
    rw [current] at idle
    cases idle

/-- An interrupt is handled by `decode_irq`, whichever task it comes from. -/
theorem Running.handle_irq (running : Running b booted threads k) (iar : U64) :
    handle b clock scratch (.irq iar) k =
      decodeIrq b clock scratch.reg iar (enterKernel b scratch (.irq iar) k) := by
  have entry := vectorEntry_of_mode running.core_mode (.irq iar)
  unfold handle
  rw [entry]
  cases k.sched.current <;> rfl

theorem Running.handle_sync_root (running : Running b booted threads k)
    (current : k.sched.current = .root) (esr far : U64) :
    handle b clock scratch (.sync esr far) k =
      lelSyncTraps b clock scratch.reg esr far (enterKernel b scratch (.sync esr far) k) := by
  have entry := vectorEntry_of_mode running.core_mode (.sync esr far)
  unfold handle
  rw [entry, current]
  rfl

theorem Running.handle_sync_idle (running : Running b booted threads k)
    (current : k.sched.current = .idle) (esr far : U64) :
    handle b clock scratch (.sync esr far) k = .error .panic := by
  have entry := vectorEntry_of_mode running.core_mode (.sync esr far)
  unfold handle
  rw [entry, current]
  rfl

/-- An interrupt that the controller reports returns to a task, and no task notices. -/
theorem Running.irq (running : Running b booted threads k) {iar : U64}
    (reports : k.irqs.Reports iar) :
    ∃ k', handle b clock scratch (.irq iar) k = .ok k' ∧ Running b booted threads k' := by
  rw [running.handle_irq clock scratch]
  exact (running.enter_irq scratch iar).decodeIrq clock (running.irqs.reports reports) scratch.reg

/-- What the entry of an exception leaves as it is. -/
theorem Running.enter_same (running : Running b booted threads k) (trap : Trap) :
    (enterKernel b scratch trap k).sched = k.sched ∧
      (enterKernel b scratch trap k).root.mm = k.root.mm ∧
      (enterKernel b scratch trap k).root.pt.tables = k.root.pt.tables := by
  have object : b.Object k.core.sp (8 * regsCount) := by
    cases running.core with
    | task sp _ _ =>
      rw [sp]
      exact b.context_object _
    | boot sp _ _ _ =>
      rw [sp]
      exact b.bootSp_object
  obtain ⟨core, eq⟩ := enterKernel_eq k scratch trap object
  rw [eq, Kernel.sched_withCore, Kernel.sched_withMem, Kernel.root_withCore, Kernel.mm_withMem,
    Kernel.tables_withMem]
  exact ⟨rfl, rfl, rfl⟩

/-- Once the root task has taken a synchronous exception, its registers are in its context, with
the address to go on at. -/
theorem Running.enter_sync (running : Running b booted threads k)
    (current : k.sched.current = .root) (esr far : U64) :
    Inside b booted none
      (Function.update threads .root
        ((threads .root).withPc (Trap.returnTo (threads .root).pc (.sync esr far))))
      (enterKernel b scratch (.sync esr far) k) := by
  have sp := (running.root_task current).1
  have inside := running.enter scratch (.sync esr far) (by rw [sp, current])
  unfold interrupted at inside
  rw [current] at inside
  exact inside

/-- A page fault in the heap resumes the instruction: nothing is mapped, and no register
changes. -/
theorem Running.pageFault (running : Running b booted threads k)
    (current : k.sched.current = .root) {esr : U64} (far : U64) (dabt : esrEc esr = esrEcLelDabt) :
    (k.root.mm.startBrk ≤ far ∧ far < k.root.mm.brk → ∃ k',
      handle b clock scratch (.sync esr far) k = .ok k' ∧ Running b booted threads k' ∧
        k'.root.pt.tables = k.root.pt.tables ∧ k'.root.mm = k.root.mm) ∧
    (¬ (k.root.mm.startBrk ≤ far ∧ far < k.root.mm.brk) →
      handle b clock scratch (.sync esr far) k = .error .panic) := by
  have inside := running.enter_sync scratch current esr far
  obtain ⟨sched_eq, mm_eq, tables_eq⟩ :=
    running.enter_same scratch (.sync esr far)
  have notSvc : esrEc esr ≠ esrEcLelSvc64 := by
    rw [dabt]
    decide
  have same : Trap.returnTo (threads .root).pc (.sync esr far) = (threads .root).pc :=
    if_neg notSvc
  rw [same, Thread.withPc_pc, Function.update_eq_self] at inside
  rw [running.handle_sync_root clock scratch current]
  generalize enterKernel b scratch (.sync esr far) k = k₁ at inside sched_eq mm_eq tables_eq
  have mm : k₁.mm = k.root.mm := by
    unfold Kernel.mm
    rw [sched_eq, current]
    exact mm_eq
  unfold lelSyncTraps doPageFault
  rw [if_pos dabt, mm]
  constructor
  · intro inHeap
    obtain ⟨k₂, run, inside₂, root_eq, -⟩ := inside.schedule clock
    rw [if_pos inHeap, run, ok_bind]
    refine ⟨_, rfl, inside₂.restore scratch.reg, ?_, ?_⟩
    · rw [restoreCurrentContext_eq, Kernel.root_withCore, root_eq, tables_eq]
    · rw [restoreCurrentContext_eq, Kernel.root_withCore, root_eq, mm_eq]
  · intro outside
    rw [if_neg outside]
    rfl

/-- The result of a system call is one that the saved registers allow for. -/
theorem svcCall_returns {ret : U64} {thread : Thread}
    (saved : k.mem.thread (b.context k.sched.current) = thread)
    (run : svcCall b clock k = .ok (ret, k')) : thread.SvcReturns ret := by
  have number : k.mem.reg (b.context k.sched.current) 8 = thread.x 8 := by
    rw [← saved]
    rfl
  unfold svcCall at run
  simp only [number] at run
  unfold Thread.SvcReturns
  split at run
  swap
  · rename_i large
    cases run
    rw [if_neg large]
  rename_i small
  rw [if_pos small]
  split at run
  swap
  · rename_i none
    cases run
    rw [none]
  rename_i callback found
  rw [found]
  cases callback with
  | vsysBrk => trivial
  | vsysMmap => trivial
  | vsysNanosleep =>
    obtain ⟨tvSec, -, run⟩ := of_bind_ok run
    obtain ⟨tvNsec, -, run⟩ := of_bind_ok run
    cases run
    rfl
  | vsysIoctl | vsysWritev | vsysMunmap | vsysExit | vsysExitGroup =>
    cases run
    rfl

/-- A system call that returns sets the result register of the root task, and leaves all other
registers of both tasks alone. -/
theorem Running.svc (running : Running b booted threads k) (current : k.sched.current = .root)
    {esr far : U64} (svc : esrEc esr = esrEcLelSvc64)
    (run : handle b clock scratch (.sync esr far) k = .ok k') :
    ∃ ret, trapResult b clock scratch k (.sync esr far) = some ret ∧
      (threads .root).SvcReturns ret ∧
      Running b booted (Function.update threads .root ((threads .root).afterSvc ret)) k' := by
  have inside := running.enter_sync scratch current esr far
  obtain ⟨sched_eq, -, -⟩ := running.enter_same scratch (.sync esr far)
  rw [running.handle_sync_root clock scratch current] at run
  have next : Trap.returnTo (threads .root).pc (.sync esr far) = (threads .root).pc + 4 :=
    if_pos svc
  rw [next] at inside
  simp only [trapResult, if_pos svc]
  generalize enterKernel b scratch (.sync esr far) k = k₁ at inside sched_eq run ⊢
  have current₁ : k₁.sched.current = .root := by
    rw [sched_eq]
    exact current
  have notDabt : esrEc esr ≠ esrEcLelDabt := by
    rw [svc]
    decide
  unfold lelSyncTraps svcHandler at run
  rw [if_neg notDabt, if_pos svc, current₁] at run
  obtain ⟨⟨ret, k₂⟩, call, run⟩ := of_bind_ok run
  obtain ⟨inside₂, current₂⟩ := inside.svcCall clock call
  have returns : ((threads .root).withPc ((threads .root).pc + 4)).SvcReturns ret := by
    refine svcCall_returns clock ?_ call
    rw [inside.saved, current₁, Function.update_self]
  have coded := inside₂.setRetcode .root ret
  obtain ⟨k₃, sched, inside₃, -⟩ := coded.schedule clock
  simp only at run
  rw [sched, ok_bind] at run
  cases run
  refine ⟨ret, by rw [call], returns, ?_⟩
  have registers : returned (Function.update threads .root
      ((threads .root).withPc ((threads .root).pc + 4))) .root ret =
      Function.update threads .root ((threads .root).afterSvc ret) := by
    unfold returned
    rw [Function.update_self, Function.update_idem]
    rfl
  rw [← registers]
  exact inside₃.restore scratch.reg

/-! ## Steps -/

/-- Code at EL0 changes the registers of the root task and memory behind its mappings. -/
theorem Running.user (running : Running b booted threads k) {x : Reg → U64}
    {spEl0 pc pstate : U64} {mem : Mem} (el0 : k.core.pstate &&& 0x1f = pmodeEl0t)
    (kept : pstate &&& pstateMask = k.core.pstate &&& pstateMask)
    (stores : UserStores k.mem k.ttbr0Base (phys b.layout.kernelPgd) mem) :
    k.sched.current = .root ∧
      Running b booted (Function.update threads .root ⟨x, spEl0, pc, pstate⟩)
        { k.withMem mem with
          core := { k.core with x, spEl0, pc, pstate }
          mmu := userAccess b.tasks k.mmu k.sched.current } := by
  have current := (el0_iff_of_mode running.core_mode).mp el0
  obtain ⟨sp, live, saved⟩ := running.root_task current
  obtain ⟨others, maps, inv⟩ := running.space
  rw [running.table current] at stores
  have space : k.root.addrspace = b.layout.userPgd := inv.inv.addrspace
  rw [← space] at stores
  have spared : ∀ x, Spared b.layout others x → mem x = k.mem x := fun x spared =>
    stores x (inv.not_userWritable spared)
  have access : AsidsOk b.tasks (userAccess b.tasks k.mmu k.sched.current) k.sched.current := by
    have asids := running.asids
    rw [current] at asids ⊢
    exact asids.access
  refine ⟨current, ⟨⟨others, maps, inv.store stores⟩, running.queues, access,
    running.table, running.irqs, running.active, running.timer, fun x readOnly => ?_⟩,
    fun t => ?_, .task ?_ ?_ fun t other => ?_⟩
  · exact (spared x (readOnly.spared others)).trans (running.readOnly x readOnly)
  · by_cases root : t = .root
    · subst root
      rw [Function.update_self]
      have mode := running.core_mode
      rw [current] at mode
      exact kept.trans mode
    · rw [Function.update_of_ne root]
      exact running.mode t
  · rw [Kernel.sched_withMem, current]
    exact sp
  · rw [Kernel.sched_withMem, current, Function.update_self]
    rfl
  · rw [Kernel.sched_withMem, current] at other
    rw [Function.update_of_ne other, ← saved t other]
    refine Mem.thread_congr fun x low high => ?_
    exact spared x ((b.context_object t).spared others low high)

/-- A turn of the loop of `idle` keeps the invariant, and changes at most the program counter of
the idle task. -/
theorem Running.idle (running : Running b booted threads k) {pc : U64}
    (el1 : k.core.pstate &&& 0x1f = pmodeEl1h) :
    ∃ threads', Running b booted threads' { k with core := { k.core with pc } } ∧
      ThreadStep ⟨k.sched.current, threads⟩ (idleEvent b k pc)
        ⟨k.sched.current, threads'⟩ := by
  have current := (el1_iff_of_mode running.core_mode).mp el1
  have sound := running.toSound.withCore { k.core with pc }
  unfold idleEvent
  cases running.core with
  | task sp live saved =>
    rw [if_neg (by rw [sp]; exact (b.bootSp_ne_context _).symm)]
    refine ⟨Function.update threads .idle ((threads .idle).withPc pc), ⟨sound, fun t => ?_,
      .task sp ?_ fun t other => ?_⟩, .idle current⟩
    · by_cases isIdle : t = .idle
      · subst isIdle
        rw [Function.update_self]
        exact running.mode .idle
      · rw [Function.update_of_ne isIdle]
        exact running.mode t
    · simp only
      rw [current, Function.update_self]
      rw [current] at live
      rw [← live]
      rfl
    · simp only at other
      rw [current] at other
      rw [Function.update_of_ne other, ← saved t (by rw [current]; exact other)]
      rfl
  | boot sp idle mode saved =>
    rw [if_pos sp]
    exact ⟨threads, ⟨sound, running.mode, .boot sp idle mode saved⟩, .boot current⟩

/-- Every step of the machine is one that its tasks may see, with the same event, and keeps
the kernel in order. -/
theorem Running.step (running : Running b booted threads k) {e : Event}
    (step : Step b clock k e k') :
    ∃ threads', Running b booted threads' k' ∧
      ThreadStep ⟨k.sched.current, threads⟩ e ⟨k'.sched.current, threads'⟩ := by
  cases step with
  | user el0 kept stores =>
    obtain ⟨current, running'⟩ := running.user el0 kept stores
    obtain ⟨-, live, -⟩ := running.root_task current
    refine ⟨_, running', ?_⟩
    -- the registers that the code finds are those that the root task has
    rw [live]
    refine .user current ?_
    have same : k.core.pstate = (threads .root).pstate := by
      rw [← live]
      rfl
    rw [same] at kept
    exact kept
  | idle el1 => exact running.idle el1
  | @trap _ scratch trap takes run =>
    obtain ⟨unmasked, reports⟩ := takes
    rw [masked_iff_of_mode running.core_mode] at unmasked
    cases trap with
    | irq iar =>
      obtain ⟨k₁, run₁, running'⟩ := running.irq clock scratch (reports iar rfl)
      cases run₁.symm.trans run
      exact ⟨threads, running', .resume _⟩
    | fiq => exact absurd (.inl rfl) unmasked
    | serror => exact absurd (.inr rfl) unmasked
    | sync esr far =>
      cases current : k.sched.current with
      | idle =>
        rw [running.handle_sync_idle clock scratch current] at run
        cases run
      | root =>
        by_cases svc : esrEc esr = esrEcLelSvc64
        · obtain ⟨ret, result, returns, running'⟩ := running.svc clock scratch current svc run
          rw [result]
          exact ⟨_, running', .svc rfl returns _⟩
        have result : trapResult b clock scratch k (.sync esr far) = none := if_neg svc
        rw [result]
        by_cases dabt : esrEc esr = esrEcLelDabt
        · obtain ⟨inHeap, outside⟩ := running.pageFault clock scratch current far dabt
          by_cases inside : k.root.mm.startBrk ≤ far ∧ far < k.root.mm.brk
          · obtain ⟨k₁, run₁, running', -⟩ := inHeap inside
            cases run₁.symm.trans run
            exact ⟨threads, running', .resume _⟩
          · rw [outside inside] at run
            cases run
        · rw [running.handle_sync_root clock scratch current, lelSyncTraps, if_neg dabt,
            if_neg svc] at run
          cases run

end Steps

end Chinos
