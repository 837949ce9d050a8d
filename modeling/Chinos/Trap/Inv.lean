import Chinos.Asid.Safety
import Chinos.Sched.Sleep
import Chinos.Trap.Context

/-!
# What the kernel keeps between its tasks

`Sound` is what holds of the kernel's own data whenever no line of C is running halfway.
`Inside` adds that the registers of every task are saved, which holds between the entry of an
exception and its return; `Running` adds that one task is on the core and the others are
saved. Both relate the machine to `threads`, the registers of the tasks as the tasks see
them: the machine refines a set of register files.
-/

namespace Chinos

/-- The bits of PSTATE that `context_init` gives a task and that stay: the mode, interrupts
enabled, FIQ and SError masked. -/
def modeOf : TaskId → U64
  | .idle => pstateOf .kernel
  | .root => pstateOf .user

/-- ASIDs with one user task: it has no number yet, and the first one is free, or it has a
number of the first generation. -/
def AsidsOk (tasks : TaskSet TaskId) (c : Cpu TaskId) (current : TaskId) : Prop :=
  (∃ owner, CpuInv tasks c current 1 owner) ∧
    (c.asids.asidGen .root = 1 ∨
      (c.asids.asid .root = 0 ∧ c.asids.curIdx = 1 ∧ c.asids.asidBitmap.bit 1 = false))

/-- The timer's interrupt is the only one that is enabled, and its handler is attached. -/
structure IrqsOk (s : Irqs Handler) : Prop where
  known : 32 ≤ s.gicMaxInt
  enabled : ∀ i < s.gicMaxInt, s.gic.enabled i = decide (i = 27)
  handler : (s.vector 27).handler = some .timerHandler

/-- The physical address is in the code or the read-only data of the kernel. -/
def Image.ReadOnly (b : Image) (x : Nat) : Prop :=
  b.linker.codeStart - ramVbase.toNat + ramPbase.toNat ≤ x ∧
    x < b.linker.rodataEnd - ramVbase.toNat + ramPbase.toNat

/-- The kernel's data are in order; `act` is the private interrupt that is being handled. -/
structure Sound (b : Image) (booted : Booted) (act : Option Nat) (k : Kernel) : Prop where
  space : ∃ others maps, SpaceInv b.toKernelBoot booted others maps k.root
  queues : ∃ q, OnQueues q k.sched
  asids : AsidsOk b.tasks k.mmu k.sched.current
  table : k.sched.current = .root → k.ttbr0Base = phys b.layout.userPgd
  irqs : IrqsOk k.irqs
  active : ∀ i < 32, k.irqs.gic.active i = true → act = some i
  timer : k.timer.ctl = 1
  readOnly : ∀ x, b.ReadOnly x → k.mem x = booted.root.pt.mem x

/-- In the kernel: the registers of all tasks are saved. -/
structure Inside (b : Image) (booted : Booted) (act : Option Nat) (threads : TaskId → Thread)
    (k : Kernel) : Prop extends Sound b booted act k where
  saved : ∀ t, k.mem.thread (b.context t) = threads t
  mode : ∀ t, (threads t).pstate &&& pstateMask = modeOf t

/-- What is on the core: the current task, with `SP_EL1` at its context, or, before the first
exception, the end of `init_kernel`. -/
inductive OnCore (b : Image) (threads : TaskId → Thread) (k : Kernel) : Prop
  | task (sp : k.core.sp = b.context k.sched.current)
      (live : k.core.thread = threads k.sched.current)
      (saved : ∀ t, t ≠ k.sched.current → k.mem.thread (b.context t) = threads t)
  | boot (sp : k.core.sp = b.bootSp) (idle : k.sched.current = .idle)
      (mode : k.core.pstate &&& pstateMask = modeOf .idle)
      (saved : ∀ t, k.mem.thread (b.context t) = threads t)

/-- What holds outside the kernel: one task runs, and the registers of the other are in its
context. -/
structure Running (b : Image) (booted : Booted) (threads : TaskId → Thread) (k : Kernel) :
    Prop extends Sound b booted none k where
  mode : ∀ t, (threads t).pstate &&& pstateMask = modeOf t
  core : OnCore b threads k

section Sound

variable {b : Image} {booted : Booted} {act : Option Nat} {threads : TaskId → Thread}
  {k k' : Kernel} {v : U64} {n : Nat} {mem : Mem}

/-! ## Memory -/

/-- An object of the image is in no page of the heap. -/
theorem Image.Object.not_pageBlock (object : b.Object v n) {q : U64}
    (placed : b.layout.Placed (pageBlock q)) {x : Nat} (inPage : linearView.InPage q x) :
    x < phys v ∨ phys v + n ≤ x := by
  by_contra overlap
  cases object.spared [] (by omega) (by omega : x < phys v + n) with
  | live b inOthers has => cases inOthers
  | image _ below _ => exact placed.not_below below (pageBlock_has.mpr inPage)

/-- An object of the image is in no page of a table, of the task or of the kernel. -/
theorem Image.Object.not_table (object : b.Object v n) {others : List Block}
    {maps : List Mapping} {p : Process} (inv : SpaceInv b.toKernelBoot booted others maps p)
    {q : U64} (inTables : q ∈ p.pt.tables ∨ q ∈ booted.kernelTables) {x : Nat}
    (inPage : linearView.InPage q x) : x < phys v ∨ phys v + n ≤ x := by
  rcases inTables with user | kernel
  · by_contra overlap
    have spared := object.spared others (by omega) (by omega : x < phys v + n)
    exact (spared.of_mm p).not_inPage inv.inv.mem user inPage
  · rcases inv.kernelTables q kernel with rfl | live
    · by_contra overlap
      exact object.not_kernelPgd (by omega) (by omega) inPage
    · exact object.not_pageBlock (inv.inv.mem.placed (List.mem_append_right _ live)) inPage

theorem Image.Object.not_readOnly (object : b.Object v n) {x : Nat} (readOnly : b.ReadOnly x) :
    x < phys v := by
  have low := object.low
  have ram := object.ram
  have code := b.linker.code_ram
  have codeEnd := b.linker.code_lt
  have rodata := b.linker.rodata_lt
  obtain ⟨-, high⟩ := readOnly
  rw [object.phys_eq]
  omega

/-- Stores into an object of the image keep the mappings. -/
theorem SpaceInv.write {others : List Block} {maps : List Mapping} {p : Process}
    (inv : SpaceInv b.toKernelBoot booted others maps p) (object : b.Object v n) (mem : Mem)
    (same : ∀ x, x < phys v ∨ phys v + n ≤ x → mem x = p.pt.mem x) :
    SpaceInv b.toKernelBoot booted others maps (p.withMem mem) := by
  refine inv.withMem (fun q inTables x inPage => ?_) (fun q inTables x inPage => ?_)
  · exact same x (object.not_table inv (.inl inTables) inPage)
  · exact same x (object.not_table inv (.inr inTables) inPage)

theorem Sound.write (sound : Sound b booted act k) (object : b.Object v n) (mem : Mem)
    (same : ∀ x, x < phys v ∨ phys v + n ≤ x → mem x = k.mem x) :
    Sound b booted act (k.withMem mem) where
  space := by
    obtain ⟨others, maps, inv⟩ := sound.space
    exact ⟨others, maps, inv.write object mem same⟩
  queues := sound.queues
  asids := sound.asids
  table := sound.table
  irqs := sound.irqs
  active := sound.active
  timer := sound.timer
  readOnly := fun x readOnly =>
    (same x (.inl (object.not_readOnly readOnly))).trans (sound.readOnly x readOnly)

/-- The code and the read-only data are the kernel's to keep. -/
theorem Image.ReadOnly.spared {x : Nat} (readOnly : b.ReadOnly x) (others : List Block) :
    Spared b.layout others x := by
  obtain ⟨low, high⟩ := readOnly
  have code := b.linker.code_ram
  have codeEnd := b.linker.code_lt
  have rodata := b.linker.rodata_lt
  have data := b.linker.data_lt
  have bss := b.linker.bss_lt
  have bssEnd := b.linker.bss_le
  have user := b.layout.user_le
  have heap := b.layout.heap_le
  have pgd := b.linker.userPgd_bss.1
  have ram := BitVec.le_def.mp b.layout.userPgd_ram
  refine .image (by omega) (by omega) fun inPage => ?_
  rw [inPage_iff_of_ram b.layout.userPgd_ram] at inPage
  omega

/-! ## The registers -/

/-- A context that is not written is not changed. -/
theorem thread_of_apart {m : Mem} {ctx : U64} {a : Nat}
    (apart : a + n ≤ phys ctx ∨ phys ctx + 8 * regsCount ≤ a)
    (same : ∀ x, x < a ∨ a + n ≤ x → mem x = m x) : mem.thread ctx = m.thread ctx :=
  Mem.thread_congr fun x _ _ => same x (by omega)

theorem storeWords_same {m : Mem} {a : Nat} (c : Core) :
    ∀ x, x < a ∨ a + 8 * regsCount ≤ x → m.storeWords a c.words x = m x :=
  fun _ outside => Mem.storeWords_of_outside (by rw [c.length_words]; exact outside)

/-- The kernel's data do not depend on the registers of the core. -/
theorem Sound.withCore (sound : Sound b booted act k) (core : Core) :
    Sound b booted act (k.withCore core) :=
  ⟨sound.space, sound.queues, sound.asids, sound.table, sound.irqs, sound.active, sound.timer,
    sound.readOnly⟩

/-- The entry of an exception stores into no table. -/
theorem SpaceInv.entered_same {others : List Block} {maps : List Mapping}
    (inv : SpaceInv b.toKernelBoot booted others maps k.root) (scratch : Scratch) (trap : Trap)
    (object : b.Object k.core.sp (8 * regsCount)) {q : U64} {x : Nat}
    (inTables : q ∈ k.root.pt.tables ∨ q ∈ booted.kernelTables)
    (inPage : linearView.InPage q x) : Chinos.entered b scratch trap k x = k.root.pt.mem x := by
  rw [Chinos.entered, Mem.blit_of_outside (b.irqStack_object.not_table inv inTables inPage),
    storeWords_same _ x (object.not_table inv inTables inPage)]
  rfl

/-- The entry of an exception changes no mapping, since it writes to objects of the image only. -/
theorem SpaceInv.entered {others : List Block} {maps : List Mapping}
    (inv : SpaceInv b.toKernelBoot booted others maps k.root) (scratch : Scratch) (trap : Trap)
    (object : b.Object k.core.sp (8 * regsCount)) :
    SpaceInv b.toKernelBoot booted others maps
      (k.root.withMem (Chinos.entered b scratch trap k)) :=
  inv.withMem
    (fun _ inTables _ inPage => inv.entered_same scratch trap object (.inl inTables) inPage)
    (fun _ inTables _ inPage => inv.entered_same scratch trap object (.inr inTables) inPage)

theorem Sound.entered (sound : Sound b booted act k) {scratch : Scratch} {trap : Trap}
    (object : b.Object k.core.sp (8 * regsCount)) :
    Sound b booted act (k.withMem (entered b scratch trap k)) := by
  have stored := sound.write object _ (storeWords_same (takeException trap k.core))
  have scratched := stored.write b.irqStack_object (Chinos.entered b scratch trap k)
    fun x outside => by rw [Kernel.mem_withMem, Chinos.entered, Mem.blit_of_outside outside]
  rw [Kernel.withMem_withMem] at scratched
  exact scratched

/-- The stack of the handlers is below the contexts. -/
theorem entered_context {scratch : Scratch} {trap : Trap} (t : TaskId) :
    (entered b scratch trap k).thread (b.context t) =
      (k.mem.storeWords (phys k.core.sp) (takeException trap k.core).words).thread
        (b.context t) := by
  have below := b.irqStack_object.data_context b.irqStack_high t
  unfold entered
  refine Mem.thread_congr fun x low _ => ?_
  exact Mem.blit_of_outside (.inr (below.trans low))

/-- Where `store_context` does not store, the contexts are as they were. -/
theorem entered_thread {scratch : Scratch} {trap : Trap} {t : TaskId}
    (apart : phys k.core.sp + 8 * regsCount ≤ phys (b.context t) ∨
      phys (b.context t) + 8 * regsCount ≤ phys k.core.sp) :
    (entered b scratch trap k).thread (b.context t) = k.mem.thread (b.context t) := by
  rw [entered_context]
  exact thread_of_apart apart (storeWords_same _)

/-- The task that was running has its registers stored. -/
theorem entered_current {scratch : Scratch} {trap : Trap} {t : TaskId}
    (sp : k.core.sp = b.context t) :
    (entered b scratch trap k).thread (b.context t) =
      k.core.thread.withPc (trap.returnTo k.core.pc) := by
  rw [entered_context, sp, Mem.thread_storeWords]
  rfl

/-- The registers of the tasks once an exception has been taken: the task that was running is
to go on at the address in `ELR_EL1`. -/
def interrupted (trap : Trap) (k : Kernel) (threads : TaskId → Thread) : TaskId → Thread :=
  Function.update threads k.sched.current
    ((threads k.sched.current).withPc (trap.returnTo (threads k.sched.current).pc))

theorem interrupted_irq (iar : U64) : interrupted (.irq iar) k threads = threads :=
  Function.update_eq_self _ _

/-- The entry of an exception saves the registers of the task that was running. -/
theorem Running.enter (running : Running b booted threads k) (scratch : Scratch) (trap : Trap)
    (task : k.core.sp = b.context k.sched.current) :
    Inside b booted none (interrupted trap k threads) (enterKernel b scratch trap k) := by
  have object : b.Object k.core.sp (8 * regsCount) := by
    rw [task]
    exact b.context_object _
  obtain ⟨core, eq⟩ := enterKernel_eq k scratch trap object
  rw [eq]
  refine ⟨(running.toSound.entered object).withCore core, fun t => ?_, fun t => ?_⟩
  · rw [Kernel.mem_withCore, Kernel.mem_withMem]
    unfold interrupted
    cases running.core with
    | boot sp _ _ _ => exact absurd (sp.symm.trans task) (b.bootSp_ne_context _)
    | task sp live saved =>
      by_cases current : t = k.sched.current
      · subst current
        rw [entered_current sp, Function.update_self, ← live]
        rfl
      · rw [Function.update_of_ne current, entered_thread, saved t current]
        rw [sp]
        exact b.contexts_phys (Ne.symm current)
  · have mode := running.mode t
    unfold interrupted
    by_cases current : t = k.sched.current
    · subst current
      rw [Function.update_self]
      exact mode
    · rw [Function.update_of_ne current]
      exact mode

/-- The first exception stores the registers of `init_kernel`, which are no task's. -/
theorem Running.enter_boot (running : Running b booted threads k) (scratch : Scratch)
    (trap : Trap) (boot : k.core.sp = b.bootSp) :
    Inside b booted none threads (enterKernel b scratch trap k) := by
  have object : b.Object k.core.sp (8 * regsCount) := by
    rw [boot]
    exact b.bootSp_object
  obtain ⟨core, eq⟩ := enterKernel_eq k scratch trap object
  rw [eq]
  refine ⟨(running.toSound.entered object).withCore core, fun t => ?_, running.mode⟩
  rw [Kernel.mem_withCore, Kernel.mem_withMem]
  cases running.core with
  | task sp _ _ => exact absurd (boot.symm.trans sp) (b.bootSp_ne_context _)
  | boot sp _ _ saved =>
    rw [entered_thread, saved t]
    rw [sp]
    exact .inl (b.bootSp_object.data_context b.bootSp_high t)

/-- An interrupt leaves the registers of all tasks as they are. -/
theorem Running.enter_irq (running : Running b booted threads k) (scratch : Scratch) (iar : U64) :
    Inside b booted none threads (enterKernel b scratch (.irq iar) k) := by
  cases running.core with
  | task sp live saved =>
    have inside := running.enter scratch (.irq iar) sp
    rw [interrupted_irq] at inside
    exact inside
  | boot sp _ _ _ => exact running.enter_boot scratch _ sp

/-- The return from an exception leaves the current task running, with the registers that were
saved for it. -/
theorem Inside.restore (inside : Inside b booted none threads k) (r : Reg) :
    Running b booted threads (restoreCurrentContext b r k) := by
  rw [restoreCurrentContext_eq]
  refine ⟨inside.toSound.withCore _, inside.mode, .task ?_ ?_ fun t _ => ?_⟩
  · rw [Kernel.core_withCore, Thread.core_sp, Kernel.sched_withCore]
  · rw [Kernel.core_withCore, Thread.core_thread, Kernel.sched_withCore, inside.saved]
  · rw [Kernel.mem_withCore, inside.saved]

/-! ## Task switches -/

variable {c : Cpu TaskId} {src dst : TaskId}

theorem Image.tasks_type_root (b : Image) : b.tasks.type .root = .user := rfl

/-- The two tasks have a `tgid` each, so a switch within a `tgid` is one to the same task. -/
theorem Image.tasks_type_eq (b : Image) (same : b.tasks.tgid dst = b.tasks.tgid src) :
    b.tasks.type dst = b.tasks.type src := by
  cases dst <;> cases src
  · rfl
  · exact absurd same (by simp [Image.tasks])
  · exact absurd same (by simp [Image.tasks])
  · rfl

/-- With one user task, the ASIDs never run out and no generation ends. -/
theorem AsidsOk.generation (ok : AsidsOk b.tasks c src) (dst : TaskId) :
    (checkAndSwitchContext b.tasks c.asids dst).2.asidGeneration = c.asids.asidGeneration ∧
      ((checkAndSwitchContext b.tasks c.asids dst).2.asidGen .root = 1 ∨
        (checkAndSwitchContext b.tasks c.asids dst).2 = c.asids) := by
  obtain ⟨⟨owner, inv⟩, number⟩ := ok
  cases dst with
  | idle => exact ⟨rfl, .inr rfl⟩
  | root =>
    have width := inv.ok.width
    by_cases same : c.asids.asid .root &&& ~~~asidMask c.asids.asidBits = c.asids.asidGeneration
    · have unchanged :
          checkAndSwitchContext b.tasks c.asids .root = (c.asids.asid .root, c.asids) := by
        unfold checkAndSwitchContext
        rw [if_neg (by rw [b.tasks_type_root]; decide), if_pos same]
      rw [unchanged]
      exact ⟨rfl, .inr rfl⟩
    · rcases number with current | ⟨unset, first, clear⟩
      · exact absurd ((sameGeneration_iff width inv.ok.generation).mpr current) same
      · -- the first number is free
        have large : 1 < numUserAsids c.asids.asidBits := by
          rcases width with width | width <;> rw [width] <;> decide
        have found : findNextZeroBit c.asids.asidBitmap (numUserAsids c.asids.asidBits)
            c.asids.curIdx = 1 := by
          rw [first]
          exact findNextZeroBit_of_clear large clear
        have issued : checkAndSwitchContext b.tasks c.asids .root = asidAssign c.asids .root 1 := by
          unfold checkAndSwitchContext asidReclaim asidAllocate
          rw [if_neg (by rw [b.tasks_type_root]; decide), if_neg same]
          simp only [unset, ne_eq, not_true_eq_false, if_false]
          rw [found, if_neg (by omega)]
        rw [issued]
        refine ⟨rfl, .inl ?_⟩
        have generation := inv.ok.generation
        simp only [AsidState.asidGen, asidAssign, Function.update_self]
        rw [BitVec.or_comm, toNat_or_generation generation (by
          rcases width with width | width <;> rw [width] <;> decide)]
        rcases width with width | width <;> rw [width] <;> decide

theorem AsidsOk.switch (ok : AsidsOk b.tasks c src) (dst : TaskId) :
    AsidsOk b.tasks (taskSwitch b.tasks c src dst) dst := by
  obtain ⟨generation, kept⟩ := ok.generation dst
  obtain ⟨⟨owner, inv⟩, number⟩ := ok
  refine ⟨?_, ?_⟩
  · rcases inv.switch dst b.tasks_type_eq with ⟨-, inv'⟩ | ⟨rolled, -⟩
    · exact inv'
    · exact absurd ((taskSwitch_asidGeneration c src dst).trans generation) rolled
  · obtain ⟨flush, asids⟩ : ∃ flush, (taskSwitch b.tasks c src dst).asids =
        { (checkAndSwitchContext b.tasks c.asids dst).2 with tlbFlush := flush } :=
      taskSwitch_asids c src dst
    rw [asids]
    rcases kept with current | unchanged
    · exact .inl current
    · rw [unchanged]
      exact number

theorem AsidsOk.access (ok : AsidsOk b.tasks c .root) :
    AsidsOk b.tasks (userAccess b.tasks c .root) .root := by
  obtain ⟨⟨owner, inv⟩, number⟩ := ok
  exact ⟨⟨owner, inv.access b.tasks_type_root⟩, number⟩

/-- A switch to the root task puts its table into TTBR0. -/
theorem ttbr0_switch (ok : AsidsOk b.tasks c .idle) :
    (taskSwitch b.tasks c .idle .root).ttbr0.toNat % 2 ^ 48 = phys b.layout.userPgd := by
  obtain ⟨⟨owner, inv⟩, -⟩ := ok
  have ne : b.tasks.tgid .root ≠ b.tasks.tgid .idle := by
    show (1 : Int) ≠ 0
    decide
  rw [taskSwitch_of_ne ne
    (Prod.mk.eta (p := checkAndSwitchContext b.tasks c.asids .root)).symm]
  have bits := checkAndSwitchContext_asidBits b.tasks c.asids .root
  have low : (vbaseToPbase (b.tasks.addrspace .root)).toNat < 2 ^ 48 := b.tasks.low .root
  simp only [asSwitch, b.tasks_type_root]
  rw [bits, toNat_base_or_asid inv.ok.width low]
  show _ = (vbaseToPbase (b.tasks.addrspace .root)).toNat
  rcases inv.ok.width with width | width <;> rw [width] <;> omega

/-! ## The parts of the handlers -/

variable (clock : Nat → U64)

/-- `schedule` returns, and all it changes are the queues, the current task and TTBR0. -/
theorem Inside.schedule (inside : Inside b booted act threads k) :
    ∃ k', kernelSchedule b clock k = .ok k' ∧ Inside b booted act threads k' ∧
      k'.root = k.root ∧ k'.irqs = k.irqs := by
  obtain ⟨q, on⟩ := inside.queues
  obtain ⟨sched, q', run, on', -⟩ := @OnQueues.schedule _ _ clock _ _ on
  unfold kernelSchedule
  rw [run, ok_bind]
  refine ⟨_, rfl, ⟨⟨inside.space, ⟨q', on'⟩, ?_, ?_, inside.irqs, inside.active, inside.timer,
    inside.readOnly⟩, inside.saved, inside.mode⟩, rfl, rfl⟩
  · simp only
    split
    · rename_i same
      rw [same]
      exact inside.asids
    · exact inside.asids.switch _
  · intro isRoot
    simp only at isRoot
    simp only [Kernel.ttbr0Base]
    split
    · rename_i same
      exact inside.table (same.symm.trans isRoot)
    · rename_i differs
      have before : k.sched.current = .idle := by
        cases was : k.sched.current with
        | idle => rfl
        | root => exact absurd (isRoot.trans was.symm) differs
      rw [isRoot, before]
      apply ttbr0_switch
      rw [← before]
      exact inside.asids

/-- `timer_handler` returns with the timer armed for the next interval. -/
theorem Inside.timerHandler (inside : Inside b booted act threads k) :
    ∃ k', timerHandler b clock k = .ok k' ∧ Inside b booted act threads k' ∧
      k'.irqs = k.irqs := by
  have armed : Inside b booted act threads
      { k with timer := genericTimerReset configRrInterval (genericTimerClear k.timer) } :=
    ⟨⟨inside.space, inside.queues, inside.asids, inside.table, inside.irqs, inside.active, rfl,
      inside.readOnly⟩, inside.saved, inside.mode⟩
  obtain ⟨k', run, inside', -, irqs⟩ := armed.schedule clock
  exact ⟨k', run, inside', irqs⟩

/-- What the controller reports is the timer's interrupt or none. -/
theorem IrqsOk.reports {s : Irqs Handler} (ok : IrqsOk s) {iar : U64} (reports : s.Reports iar) :
    iar = 27 ∨ iar = 1023 := by
  rcases reports with spurious | ⟨known, -, enabled, -⟩
  · exact .inr spurious
  · rw [ok.enabled _ known, decide_eq_true_eq] at enabled
    exact .inl (BitVec.eq_of_toNat_eq enabled)

/-- The invariant holds with another state of the interrupts, if that one is in order as well. -/
theorem Inside.withIrqs (inside : Inside b booted act threads k) {act' : Option Nat}
    {irqs : Irqs Handler} (ok : IrqsOk irqs)
    (active : ∀ i < 32, irqs.gic.active i = true → act' = some i) :
    Inside b booted act' threads { k with irqs } :=
  ⟨⟨inside.space, inside.queues, inside.asids, inside.table, ok, active, inside.timer,
    inside.readOnly⟩, inside.saved, inside.mode⟩

theorem IrqsOk.dispatch {s : Irqs Handler} (ok : IrqsOk s) :
    (irqDispatch 27 s).1 = some (.timerHandler, (s.vector 27).arg) ∧
      (irqDispatch 27 s).2.gic = s.gic ∧ IrqsOk (irqDispatch 27 s).2 := by
  have small : ¬ 27 ≥ nrIrqs := by decide
  unfold irqDispatch
  simp only [small, if_false]
  refine ⟨?_, trivial, ok.known, ok.enabled, ?_⟩
  · rw [ok.handler]
    rfl
  · simp only [Function.update_self]
    exact ok.handler

theorem Gic.acknowledge_enabled (g : Gic) (irq : Nat) :
    (g.acknowledge irq).enabled = g.enabled := by
  unfold Gic.acknowledge
  split <;> rfl

theorem Gic.endOfInterrupt_enabled (g : Gic) (irq : Nat) :
    (g.endOfInterrupt irq).enabled = g.enabled := by
  unfold Gic.endOfInterrupt
  split <;> rfl

theorem Inside.timestamp (inside : Inside b booted act threads k) :
    Inside b booted act threads (timerUpdateTimestamp clock k) := by
  obtain ⟨q, on⟩ := inside.queues
  have stamped : OnQueues q (timerUpdateTimestamp clock k).sched :=
    ⟨⟨on.repr, on.has_iff, on.listed, on.group⟩, on.current⟩
  exact ⟨⟨inside.space, ⟨q, stamped⟩, inside.asids, inside.table, inside.irqs, inside.active,
    inside.timer, inside.readOnly⟩, inside.saved, inside.mode⟩

/-- `decode_irq` returns to the current task, with no interrupt active and the registers of
all tasks as they were. -/
theorem Inside.decodeIrq (inside : Inside b booted none threads k) {iar : U64}
    (reported : iar = 27 ∨ iar = 1023) (r : Reg) :
    ∃ k', decodeIrq b clock r iar k = .ok k' ∧ Running b booted threads k' := by
  have stamped := inside.timestamp clock
  unfold Chinos.decodeIrq
  generalize timerUpdateTimestamp clock k = k₁ at stamped
  rcases reported with rfl | rfl
  · -- the timer
    have number : (27 : U64).toNat = 27 := rfl
    have masked : ((27 : U64) &&& 0xffffff).toNat = 27 := by decide
    simp only [number, masked]
    rw [require_bind_of_pos (.inl (by decide)), if_pos (by decide)]
    have acked : Inside b booted (some 27) threads
        { k₁ with irqs := { k₁.irqs with gic := k₁.irqs.gic.acknowledge 27 } } := by
      refine stamped.withIrqs ⟨stamped.irqs.known, fun i small => ?_, stamped.irqs.handler⟩
        fun i small isActive => ?_
      · simp only [Gic.acknowledge_enabled]
        exact stamped.irqs.enabled i small
      · simp only [Gic.acknowledge, show 27 < 1020 by decide, if_true] at isActive
        by_cases timer : i = 27
        · rw [timer]
        · rw [Function.update_of_ne timer] at isActive
          cases stamped.active i small isActive
    unfold irqDispatchRun
    obtain ⟨call, gic, ok⟩ := acked.irqs.dispatch
    generalize dispatch : irqDispatch 27 { k₁.irqs with gic := k₁.irqs.gic.acknowledge 27 } = made
      at call gic ok
    obtain ⟨target, irqs⟩ := made
    simp only at call gic ok
    simp only [call, Handler.run]
    have dispatched := acked.withIrqs ok (by rw [gic]; exact acked.active)
    obtain ⟨k₂, run, inside₂, irqs_eq⟩ := dispatched.timerHandler clock
    rw [run, ok_bind]
    refine ⟨_, rfl, Inside.restore ?_ r⟩
    refine inside₂.withIrqs ⟨inside₂.irqs.known, fun i small => ?_, inside₂.irqs.handler⟩
      fun i small isActive => ?_
    · simp only [Gic.endOfInterrupt_enabled]
      exact inside₂.irqs.enabled i small
    · simp only [Gic.endOfInterrupt, show 27 < 1020 by decide, if_true] at isActive
      by_cases timer : i = 27
      · rw [timer, Function.update_self] at isActive
        cases isActive
      · rw [Function.update_of_ne timer] at isActive
        cases inside₂.active i small isActive
        exact absurd rfl timer
  · -- no interrupt
    have number : (1023 : U64).toNat = 1023 := rfl
    have masked : ((1023 : U64) &&& 0xffffff).toNat = 1023 := by decide
    simp only [number, masked]
    rw [require_bind_of_pos (.inr trivial), if_neg (by decide), ok_bind]
    exact ⟨_, rfl, stamped.restore r⟩

/-- A memory call changes nothing of the kernel but its memory bookkeeping. -/
theorem Inside.mmCall (inside : Inside b booted act threads k) {call : MmCall} {ret : U64}
    (run : k.mmCall call = .ok (ret, k')) :
    Inside b booted act threads k' ∧ k'.sched = k.sched := by
  unfold Kernel.mmCall at run
  cases current : k.sched.current with
  | idle =>
    rw [current] at run
    cases run
  | root =>
    rw [current] at run
    obtain ⟨⟨ret', root⟩, served, run⟩ := of_bind_ok run
    cases run
    obtain ⟨others, maps, inv⟩ := inside.space
    obtain ⟨new, inv'⟩ := inv.call served
    have kept : ∀ x, Spared b.layout others x → root.pt.mem x = k.mem x := fun x spared =>
      MmCall.run_spares inv.inv served spared
    refine ⟨⟨⟨⟨others, _, inv'⟩, inside.queues, inside.asids, inside.table, inside.irqs,
      inside.active, inside.timer, fun x readOnly => ?_⟩, fun t => ?_, inside.mode⟩, rfl⟩
    · exact (kept x (readOnly.spared others)).trans (inside.readOnly x readOnly)
    · refine (Mem.thread_congr fun x low high => ?_).trans (inside.saved t)
      exact kept x ((b.context_object t).spared others low high)

/-- A system call that returns leaves the saved registers alone, and the caller current. -/
theorem Inside.svcCall (inside : Inside b booted act threads k) {ret : U64}
    (run : svcCall b clock k = .ok (ret, k')) :
    Inside b booted act threads k' ∧ k'.sched.current = k.sched.current := by
  unfold Chinos.svcCall at run
  simp only at run
  split at run
  swap
  · cases run
    exact ⟨inside, rfl⟩
  split at run
  swap
  · cases run
    exact ⟨inside, rfl⟩
  rename_i callback _
  have memory : ∀ call, k.mmCall call = .ok (ret, k') →
      Inside b booted act threads k' ∧ k'.sched.current = k.sched.current := by
    intro call run
    obtain ⟨inside', same⟩ := inside.mmCall run
    exact ⟨inside', by rw [same]⟩
  cases callback with
  | vsysBrk => exact memory _ run
  | vsysMmap => exact memory _ run
  | vsysNanosleep =>
    obtain ⟨tvSec, -, run⟩ := of_bind_ok run
    obtain ⟨tvNsec, -, run⟩ := of_bind_ok run
    cases run
    obtain ⟨q, on⟩ := inside.queues
    have slept := @OnQueues.sleep _ _ clock _ _ on tvSec tvNsec
    have current : (sysNanosleep clock tvSec tvNsec k.sched).current = k.sched.current :=
      (sysNanosleep_lowered on.repr ((on.has_iff _).mpr on.current)).current
    refine ⟨⟨⟨inside.space, ⟨_, slept⟩, ?_, ?_, inside.irqs, inside.active, inside.timer,
      inside.readOnly⟩, inside.saved, inside.mode⟩, current⟩
    · simp only [current]
      exact inside.asids
    · simp only [current]
      exact inside.table
  | vsysIoctl | vsysWritev | vsysMunmap | vsysExit | vsysExitGroup =>
    cases run
    exact ⟨inside, rfl⟩

/-- The registers with the value returned in `x0` of the caller. -/
def returned (threads : TaskId → Thread) (t : TaskId) (ret : U64) : TaskId → Thread :=
  Function.update threads t { threads t with x := Function.update (threads t).x 0 ret }

/-- `context_set_retcode` changes the register `x0` of one task, and nothing else. -/
theorem Inside.setRetcode (inside : Inside b booted act threads k) (t : TaskId) (ret : U64) :
    Inside b booted act (returned threads t ret)
      (k.withMem (contextSetRetcode (b.context t) ret k.mem)) := by
  have same : ∀ x, x < phys (b.context t) ∨ phys (b.context t) + 8 * regsCount ≤ x →
      contextSetRetcode (b.context t) ret k.mem x = k.mem x := fun x outside =>
    Mem.setReg_of_outside (by decide) outside
  refine ⟨inside.toSound.write (b.context_object t) _ same, fun u => ?_, fun u => ?_⟩
  · rw [Kernel.mem_withMem]
    unfold returned
    by_cases caller : u = t
    · subst caller
      rw [Function.update_self, contextSetRetcode, Mem.thread_setReg_x0, inside.saved]
    · rw [Function.update_of_ne caller, thread_of_apart (b.contexts_phys (Ne.symm caller)) same,
        inside.saved]
  · have mode := inside.mode u
    unfold returned
    by_cases caller : u = t
    · subst caller
      rw [Function.update_self]
      exact mode
    · rw [Function.update_of_ne caller]
      exact mode

end Sound

end Chinos
