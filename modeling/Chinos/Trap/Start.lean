import Chinos.Irq.Gic
import Chinos.Trap.Threads

/-!
# From `init_kernel` on

`init_kernel` leaves a machine whose kernel is in order, with the two tasks as `task_create`
made them; so the kernel is in order in every state that steps of the machine lead to, and
each run is a run of the two register files.
-/

namespace Chinos

/-- The registers of the tasks as they are created. -/
def created (b : Image) (booted : Booted) : TaskId → Thread
  | .idle => ⟨fun _ => 0, b.idleStack + idleTaskStacksize, b.idle, pstateOf .kernel⟩
  | .root => ⟨fun _ => 0, userStackTop + defaultTaskStacksize, booted.root.entry, pstateOf .user⟩

theorem created_mode {b : Image} {booted : Booted} (t : TaskId) :
    (created b booted t).pstate &&& pstateMask = modeOf t := by
  have pstate : (created b booted t).pstate = modeOf t := by cases t <;> rfl
  rw [pstate]
  cases t <;> decide

/-- The machine gets from `k` to `k'` in some number of steps, whatever their events. -/
def KernelRun (b : Image) (clock : Nat → U64) (k k' : Kernel) : Prop :=
  ∃ events, EventRun (Step b clock) k events k'

/-- The runs of the register files, with the events they are made of. -/
abbrev ThreadRun : ThreadState → List Event → ThreadState → Prop := EventRun ThreadStep

section Start

variable {b : Image} {booted : Booted} {board : Board} {k k₀ : Kernel} {clock : Nat → U64}

/-! ## Memory -/

theorem Image.Object.not_userPgd {v : U64} {n x : Nat} (object : b.Object v n) (low : phys v ≤ x)
    (high : x < phys v + n) : ¬ linearView.InPage b.layout.userPgd x := by
  cases object.spared [] low high with
  | live b inOthers has => cases inOthers
  | image _ _ notPgd => exact notPgd

/-- The memory before the root task is loaded: the contexts are those of new tasks, and the
rest is as it was. -/
structure WithContexts (b : Image) (m mem : Mem) : Prop where
  idle : mem.thread (b.context .idle) =
    ⟨fun _ => 0, b.idleStack + idleTaskStacksize, b.idle, pstateOf .kernel⟩
  root : mem.thread (b.context .root) =
    ⟨fun _ => 0, userStackTop + defaultTaskStacksize, 0, pstateOf .user⟩
  same : ∀ x, (∀ t, x < phys (b.context t) ∨ phys (b.context t) + 8 * regsCount ≤ x) →
    mem x = m x

theorem withContexts (b : Image) (m : Mem) :
    WithContexts b m (taskCreateContext (b.context .root) 0 userStackTop defaultTaskStacksize .user
      (taskCreateContext (b.context .idle) b.idle b.idleStack idleTaskStacksize .kernel m)) where
  idle := by
    have apart := b.contexts_phys (show TaskId.root ≠ .idle by decide)
    rw [thread_of_apart apart fun x outside => taskCreateContext_of_outside outside,
      thread_taskCreateContext]
  root := thread_taskCreateContext
  same := fun x outside => by
    rw [taskCreateContext_of_outside (outside .root), taskCreateContext_of_outside (outside .idle)]

/-- `context_set_entry` for the root task changes the program counter of its context, and leaves
the context of the idle task alone. -/
theorem contextSetEntry_thread (b : Image) (m : Mem) (entry : U64) :
    (contextSetEntry (b.context .root) entry m).thread (b.context .idle) =
        m.thread (b.context .idle) ∧
      (contextSetEntry (b.context .root) entry m).thread (b.context .root) =
        (m.thread (b.context .root)).withPc entry := by
  have apart := b.contexts_phys (show TaskId.root ≠ .idle by decide)
  refine ⟨thread_of_apart apart fun x outside => ?_, ?_⟩
  · exact Mem.setReg_of_outside (by decide) outside
  · rw [contextSetEntry, Mem.thread_setReg_pc]

/-- When the root task is created, the contexts are in no page of a table. -/
theorem Image.context_outside (b : Image) {bitmap : Block} {tables pages : List U64}
    {live : List Block} {s : PtState MmGran} (tables_eq : tables = pages ++ [b.layout.kernelPgd])
    (inv : MemInv b.layout (bitmap :: (pages.map pageBlock ++ live)) [] s) :
    ∀ q ∈ b.layout.userPgd :: tables, ∀ x, linearView.InPage q x →
      ∀ t, x < phys (b.context t) ∨ phys (b.context t) + 8 * regsCount ≤ x := by
  intro q inTables x inPage t
  have object := b.context_object t
  by_contra overlap
  rcases List.mem_cons.mp inTables with rfl | inTables
  · exact object.not_userPgd (by omega) (by omega) inPage
  rw [tables_eq] at inTables
  rcases List.mem_append.mp inTables with inPages | isPgd
  · have listed : pageBlock q ∈ bitmap :: (pages.map pageBlock ++ live) :=
      .tail _ (List.mem_append_left _ (List.mem_map_of_mem inPages))
    exact overlap (object.not_pageBlock (inv.placed listed) inPage)
  · rw [List.mem_singleton.mp isPgd] at inPage
    exact object.not_kernelPgd (by omega) (by omega) inPage

/-- `init_kernel` leaves memory in order, with the contexts of two new tasks. -/
theorem initMemory_ok (run : initMemory b = .ok booted) :
    (∃ others maps, SpaceInv b.toKernelBoot booted others maps booted.root) ∧
      ∀ t, booted.root.pt.mem.thread (b.context t) = created b booted t := by
  unfold initMemory initKernelWith at run
  obtain ⟨booted', made, run⟩ := of_bind_ok run
  obtain ⟨kernel, init, made⟩ := of_bind_ok made
  obtain ⟨⟨bitmap, kernel'⟩, asid, made⟩ := of_bind_ok made
  simp only at made
  have contexts := withContexts b kernel'.mem
  generalize taskCreateContext (b.context .root) 0 userStackTop defaultTaskStacksize .user
    (taskCreateContext (b.context .idle) b.idle b.idleStack idleTaskStacksize .kernel
      kernel'.mem) = mem at contexts made
  obtain ⟨root, create, made⟩ := of_bind_ok made
  cases made
  cases run
  obtain ⟨pages, tables_eq, inv⟩ := asidBitmapAlloc_ok (asInitialize_ok init) asid
  have table := asidBitmapAlloc_table init asid
  have outside := b.context_outside tables_eq inv
  have table' : KernelTable b.toKernelBoot kernel'.tables mem :=
    table.keep fun q inTables x inPage =>
      contexts.same x (outside q (.tail _ inTables) x inPage)
  have inv' : MemInv b.layout (bitmap :: (pages.map pageBlock ++ b.live)) []
      { kernel' with mem := mem, tables := [b.layout.userPgd] } := by
    refine inv.withMem fun q inTables x inPage => ?_
    rw [List.mem_singleton.mp inTables] at inPage
    exact contexts.same x (outside _ (.head _) x inPage)
  obtain ⟨others, maps, space⟩ := rootTaskCreate_spaceInv
    (s := { kernel' with mem := mem, tables := [b.layout.userPgd] }) table' tables_eq inv' create
  -- loading the root task leaves them alone
  have loaded : ∀ t, root.pt.mem.thread (b.context t) = mem.thread (b.context t) := fun t =>
    Mem.thread_congr fun x low high =>
      rootTaskCreate_spares inv' create ((b.context_object t).spared _ low high)
  have entry : ∀ x, x < phys (b.context .root) ∨ phys (b.context .root) + 8 * regsCount ≤ x →
      contextSetEntry (b.context .root) root.entry root.pt.mem x = root.pt.mem x := fun x out =>
    Mem.setReg_of_outside (by decide) out
  refine ⟨⟨others, maps, ?_⟩, fun t => ?_⟩
  · have written := space.write (b.context_object .root) _ entry
    exact ⟨⟨written.inv, written.unbacked, written.asidBitmap, written.kernelTables⟩,
      written.table⟩
  · obtain ⟨idle, isRoot⟩ := contextSetEntry_thread b root.pt.mem root.entry
    rw [Process.mem_withMem]
    cases t with
    | idle => rw [idle, loaded, contexts.idle, created]
    | root => rw [isRoot, loaded, contexts.root, created, Thread.withPc, Process.entry_withMem]

/-! ## The other parts -/

/-- After `asid_initialize` the ASIDs are in order for the idle task, whatever TTBR0 holds, as no
task has a number yet. -/
theorem asidsOk_start {mmfr0 ttbr0 : U64} {block : Bitmap} {asids : AsidState TaskId}
    (run : asidInitialize mmfr0 (some block) asidStart = .ok asids) :
    AsidsOk b.tasks ⟨asids, ttbr0, []⟩ .idle := by
  have inv : CpuInv b.tasks ⟨asids, ttbr0, []⟩ .idle 1 fun _ => none :=
    CpuInv.start ⟨rfl, rfl, fun _ => rfl⟩ run
  obtain ⟨bits, map, width, rfl⟩ := asidInitialize_eq run
  refine ⟨⟨_, inv⟩, .inr ⟨rfl, rfl, bitmapZero_bit map ?_⟩⟩
  rcases width with rfl | rfl <;> decide

/-- After `timer_init` the timer's interrupt is enabled, and no other. -/
theorem irqsOk_start {mpidr : U64} {irqs start : Irqs Handler} (timer : GenericTimer)
    (init : irqInitialize mpidr irqs = .ok start) :
    IrqsOk (timerInit timer start).2 ∧
      ∀ i < 32, (timerInit timer start).2.gic.active i = false := by
  have history := ((irqInitialize_history init).extend irqs.gic.le_maxInt irqs.gic.maxInt_le
    (.attach 27 (some .timerHandler) 0)).extend irqs.gic.le_maxInt irqs.gic.maxInt_le (.enable 27)
  have same : (timerInit timer start).2 =
      (IrqCall.enable 27).run ((IrqCall.attach 27 (some .timerHandler) 0).run start) := rfl
  rw [same]
  refine ⟨⟨?_, fun i small => ?_, ?_⟩, fun i small => ?_⟩
  · rw [history.known]
    exact irqs.gic.le_maxInt
  · rw [history.known] at small
    rw [history.gic]
    simp only [Gic.switched, if_pos small, List.findSome?_cons, IrqCall.switches]
    by_cases timer : i = 27
    · subst timer
      rfl
    · rw [if_neg (Ne.symm timer), decide_eq_false timer]
      rfl
  · rw [history.vector 27 (by decide)]
    rfl
  · rw [history.gic]
    exact if_pos small

/-- The queues that `init_kernel` leaves, with any number of clock readings taken. -/
def startSched (links : Links (Node TaskId)) (reads : Nat) : Sched TaskId :=
  { attachNew (schedInit links createdTcb .idle) .root with reads }

/-- After `init_kernel` both tasks are on their ready queues. -/
theorem startSched_queues (links : Links (Node TaskId)) (reads : Nat) :
    OnQueues ((Queues.empty.pushReady 31 .idle).pushReady 10 .root) (startSched links reads) ∧
      (startSched links reads).current = .idle ∧
      ∀ p, (startSched links reads).Bit p ↔ p = 10 ∨ p = 31 := by
  have first := schedInit_raised links createdTcb TaskId.idle
  have queued := OnQueues.init links createdTcb TaskId.idle
  have new : TaskId.root ∉ (schedInit links createdTcb TaskId.idle).attached := by
    have only : (schedInit links createdTcb TaskId.idle).attached = [.idle] := first.same.attached
    rw [only]
    decide
  have raised := schedAttach_raised queued.repr (fun has => new ((queued.has_iff _).mp has))
  have on := queued.attach new
  have prio : (schedInit links createdTcb TaskId.idle).prio .root = 10 := first.same.prio .root
  rw [prio] at on
  refine ⟨⟨⟨on.repr, on.has_iff, on.listed, on.group⟩, on.current⟩,
    raised.same.current.trans first.same.current, fun p => ?_⟩
  have before : ¬ (beforeInit links createdTcb TaskId.idle).Bit p := by
    intro set
    simp [Sched.Bit, beforeInit] at set
  have prioIdle : (beforeInit links createdTcb TaskId.idle).prio .idle = 31 := rfl
  refine (raised.bit p).trans ?_
  rw [first.bit p, prioIdle, prio]
  simp [before]

/-- The machine that `init_kernel` leaves satisfies the invariant, with both tasks as they were
created and `idle` current. -/
theorem startKernel_running (start : startKernel b board = .ok (booted, k₀)) :
    Running b booted (created b booted) k₀ ∧ k₀.sched.current = .idle := by
  unfold startKernel at start
  obtain ⟨irqs, init, start⟩ := of_bind_ok start
  obtain ⟨booted', memory, start⟩ := of_bind_ok start
  obtain ⟨asids, asid, start⟩ := of_bind_ok start
  simp only at start
  obtain ⟨ok, active⟩ := irqsOk_start board.timer init
  have timer : (timerInit board.timer irqs).1.ctl = 1 := rfl
  generalize timerInit board.timer irqs = made at ok active timer start
  obtain ⟨timer', irqs'⟩ := made
  cases start
  obtain ⟨space, threads⟩ := initMemory_ok memory
  obtain ⟨on, current, -⟩ := startSched_queues board.links
    (attachNew (schedInit board.links createdTcb .idle) .root).reads
  have current : (attachNew (schedInit board.links createdTcb TaskId.idle) .root).current =
      .idle := current
  have bootMode : (0x345 : U64) &&& pstateMask = modeOf .idle := by decide
  refine ⟨⟨⟨space, ⟨_, on⟩, ?_, ?_, ok, ?_, timer, fun _ _ => rfl⟩, created_mode,
    .boot rfl current bootMode threads⟩, current⟩
  · simp only [current]
    exact asidsOk_start asid
  · intro isRoot
    cases current.symm.trans isRoot
  · intro i small isActive
    rw [active i small] at isActive
    cases isActive

/-! ## Runs -/

/-- A run of the machine is a run of its register files with the same events, and the kernel
stays in order. -/
theorem EventRun.running (start : startKernel b board = .ok (booted, k₀)) {events : List Event}
    (run : EventRun (Step b clock) k₀ events k) :
    ∃ threads, ThreadRun ⟨.idle, created b booted⟩ events ⟨k.sched.current, threads⟩ ∧
      Running b booted threads k := by
  let Related (k : Kernel) (s : ThreadState) : Prop :=
    s.current = k.sched.current ∧ Running b booted s.threads k
  have sim : ∀ {k k' : Kernel} {s : ThreadState} {e : Event}, Related k s → Step b clock k e k' →
      ∃ s', ThreadStep s e s' ∧ Related k' s' := by
    rintro k k' ⟨current, threads⟩ e ⟨same, running⟩ step
    cases same
    obtain ⟨threads', running', seen⟩ := running.step clock step
    exact ⟨⟨_, threads'⟩, seen, rfl, running'⟩
  obtain ⟨running, current⟩ := startKernel_running start
  have related : Related k₀ ⟨.idle, created b booted⟩ := ⟨current.symm, running⟩
  obtain ⟨⟨current', threads⟩, seen, same, running'⟩ := run.simulates sim related
  cases same
  exact ⟨threads, seen, running'⟩

/-- The kernel is in order in every state of every run. -/
theorem KernelRun.running (start : startKernel b board = .ok (booted, k₀))
    (run : KernelRun b clock k₀ k) : ∃ threads, Running b booted threads k := by
  obtain ⟨events, run⟩ := run
  obtain ⟨threads, -, running⟩ := run.running start
  exact ⟨threads, running⟩

end Start

end Chinos
