import Chinos.Boot.Break
import Chinos.Boot.Loader
import Chinos.Slob.Safety

/-!
# The allocator on the kernel

So far the kernel was a function that answers `SYS_brk`. Here the requests go to `sys_brk`
itself: a task is the allocator together with its process. As long as the break stays in
the user's half of the address space, the kernel behaves like the function that grants
every request, unless it runs out of memory. So all that holds of the allocator on that
function holds on the kernel, and the heap is mapped.
-/

namespace Chinos

/-- The allocator, its process as the kernel has it, and its requests to `SYS_brk`, the
latest first, each with the break before it. -/
structure SlobTask where
  slob : Slob
  proc : Process
  requests : List (Nat × Nat)

section Code

variable (env : SlobEnv)

/-- `x_brk`. The field `brk` of the allocator's model is the break as the kernel has it. -/
def taskBrk (t : SlobTask) (addr : Nat) : Except Fault (Nat × SlobTask) := do
  let (ret, proc) ← sysBrk t.proc (BitVec.ofNat 64 addr)
  return (ret.toNat,
    ⟨{ t.slob with brk := proc.mm.brk.toNat }, proc, (t.proc.mm.brk.toNat, addr) :: t.requests⟩)

/-- A task of this kernel as what the allocator runs on: its requests are system calls. -/
def taskHost : SlobHost SlobTask where
  slob := SlobTask.slob
  put := fun t s => { t with slob := s }
  xBrk := taskBrk
  put_slob := fun _ => rfl

/-- `slob_init` in a task of this kernel. -/
def taskSlobInit (t : SlobTask) : Except Fault SlobTask := slobInitOn env taskHost t

/-- `slob_malloc` in a task of this kernel, up to the point where it needs more memory. -/
def taskTry (t : SlobTask) (size : Nat) : Except Fault (Option Nat × SlobTask) :=
  slobTryOn env taskHost t size

/-- The growth of the heap of a task of this kernel. -/
def taskGrow (t : SlobTask) : Except Fault SlobTask := slobGrowOn env taskHost t

/-- `slob_malloc` on the kernel; `grants` is how often it may ask. -/
def taskMalloc (grants : Nat) (t : SlobTask) (size : Nat) : Except Fault (Nat × SlobTask) :=
  slobMallocOn env taskHost grants t size

/-- `slob_free` in a task of this kernel, which makes no system call. -/
def taskFree (t : SlobTask) (mem : Nat) : Except Fault SlobTask := do
  let s ← slobFree env t.slob mem
  return { t with slob := s }

end Code

/-- A request that `slob_malloc(n)` makes finds the kernel without memory: a `gran_alloc` of
`sys_brk` returns NULL. -/
inductive OutOfMemory (env : SlobEnv) (n : Nat) : SlobTask → Prop
  | init {t t₁ : SlobTask} {b : Nat} (fresh : t.slob.isInit = false)
      (query : taskBrk t 0 = .ok (b, t₁)) (failed : taskBrk t₁ (b + mmapThreshold) = .error .null) :
      OutOfMemory env n t
  | here {t t₁ : SlobTask} (asks : taskTry env t n = .ok (none, t₁))
      (failed : taskBrk t₁ (t₁.slob.cBrk + mmapThreshold) = .error .null) : OutOfMemory env n t
  | later {t t₁ t₂ : SlobTask} (asks : taskTry env t n = .ok (none, t₁))
      (grown : taskGrow env t₁ = .ok t₂) (rest : OutOfMemory env n t₂) : OutOfMemory env n t

/-- A request that is 0, or asks for 32 granules from a page boundary on. -/
def BrkRequest (r : Nat × Nat) : Prop :=
  r.2 = 0 ∨ (r.1 % 2 ^ 12 = 0 ∧ r.2 = r.1 + 32 * 2 ^ 12)

/-- What the kernel keeps for a task whose break only the allocator moves. -/
structure KernelSide (env : SlobEnv) (layout : Layout) (t : SlobTask) : Prop where
  inv : ∃ others maps, MmInv layout others maps t.proc ∧
    t.proc.mm.brk.toNat ≤ env.startBrk + ((blocksOf maps).map Block.size).sum
  backed : BreakBacked t.proc
  start : t.proc.mm.startBrk.toNat = env.startBrk
  brk : t.slob.brk = t.proc.mm.brk.toNat
  aligned : t.proc.mm.brk.toNat % 2 ^ 12 = 0
  requests : ∀ r ∈ t.requests, BrkRequest r

section Kernel

variable {env : SlobEnv} {layout : Layout} {t t' : SlobTask} {s : Slob} {cs : List Chunk}
  {n p g grants : Nat}

/-! ## System calls -/

theorem KernelSide.withSlob (side : KernelSide env layout t) (same : s.brk = t.slob.brk) :
    KernelSide env layout { t with slob := s } :=
  ⟨side.inv, side.backed, side.start, same.trans side.brk, side.aligned, side.requests⟩

/-- The memory of the granule heap bounds the break, so that addresses do not wrap around. -/
theorem KernelSide.low (side : KernelSide env layout t) : env.Low t.slob.brk := by
  obtain ⟨others, maps, inv, le⟩ := side.inv
  have total := inv.mem.sum_size_lt
  have brk := side.brk
  unfold SlobEnv.Low
  omega

/-- A request of 0 is a query, which the kernel answers with the break and nothing else
changes. -/
theorem KernelSide.query (side : KernelSide env layout t) :
    ∃ t', taskBrk t 0 = .ok (t.slob.brk, t') ∧ t'.slob = t.slob ∧ KernelSide env layout t' := by
  have refused : (0 : U64) < t.proc.mm.startBrk := by
    have pos := env.startBrk_pos
    have start := side.start
    rw [BitVec.lt_def]
    exact start ▸ pos
  have run : sysBrk t.proc 0 = .ok (t.proc.mm.brk, t.proc) := by
    unfold sysBrk
    rw [if_pos refused]
    rfl
  have same : ({ t.slob with brk := t.proc.mm.brk.toNat } : Slob) = t.slob := by rw [← side.brk]
  refine ⟨⟨{ t.slob with brk := t.proc.mm.brk.toNat }, t.proc,
    (t.proc.mm.brk.toNat, 0) :: t.requests⟩, ?_, same, side.inv, side.backed, side.start, rfl,
    side.aligned, fun r inside => ?_⟩
  · unfold taskBrk
    rw [show BitVec.ofNat 64 0 = 0 from rfl, run, ok_bind, side.brk]
    rfl
  · rcases List.mem_cons.mp inside with rfl | old
    · exact .inl rfl
    · exact side.requests r old

/-- `sys_brk` grants another 128 KiB, unless memory runs out. -/
theorem KernelSide.sysBrk_raise (side : KernelSide env layout t) {addr : U64}
    (addr_eq : addr.toNat = t.slob.brk + mmapThreshold)
    (fits : t.slob.brk + mmapThreshold ≤ 2 ^ 39) :
    sysBrk t.proc addr = .error .null ∨ ∃ proc, sysBrk t.proc addr = .ok (addr, proc) ∧
      proc.mm.brk = addr ∧
      KernelSide env layout ⟨{ t.slob with brk := addr.toNat }, proc,
        (t.proc.mm.brk.toNat, addr.toNat) :: t.requests⟩ := by
  obtain ⟨others, maps, inv, le⟩ := side.inv
  have threshold : mmapThreshold = 131072 := rfl
  have brk := side.brk
  have aligned := side.aligned
  have above := side.backed.le
  have near : BreakNear t.proc addr := ⟨by omega, by omega, .inr (by omega)⟩
  have growth := near.growth_eq
  have accepted : ¬ addr < t.proc.mm.startBrk := by
    rw [BitVec.lt_def]
    omega
  have grow : ¬ BrkIdle t.proc addr := not_or.mpr ⟨accepted, by omega⟩
  have size : (BitVec.ofInt 64 (t.proc.growth addr)).toNat = mmapThreshold := by
    rw [Process.toNat_growth (by omega)]
    omega
  have backable : Backable t.proc.mm.brk (BitVec.ofInt 64 (t.proc.growth addr)) := by
    have whole : pageUp mmapThreshold = mmapThreshold := by decide
    refine ⟨by omega, by omega, aligned, mappable_of_le aligned ?_⟩
    rw [size, whole, ← brk]
    exact fits
  rcases Chinos.sysBrk_raise inv side.backed grow near backable with
    failed | ⟨pt, b, run, b_size, inv', backed'⟩
  · exact .inl failed
  · refine .inr ⟨_, run, rfl, ⟨others, _, inv', ?_⟩, backed', side.start, rfl, ?_,
      fun r inside => ?_⟩
    · rw [blocksOf_concat (b := b) rfl, List.map_append, List.sum_append]
      simp only [List.map_cons, List.map_nil, List.sum_cons, List.sum_nil]
      omega
    · exact show addr.toNat % 2 ^ 12 = 0 by omega
    · rcases List.mem_cons.mp inside with rfl | old
      · exact .inr ⟨aligned, by omega⟩
      · exact side.requests r old

/-- A request for another 128 KiB is granted, unless memory runs out. -/
theorem KernelSide.raise (side : KernelSide env layout t)
    (fits : t.slob.brk + mmapThreshold ≤ 2 ^ 39) :
    taskBrk t (t.slob.brk + mmapThreshold) = .error .null ∨ ∃ t',
      taskBrk t (t.slob.brk + mmapThreshold) = .ok (t.slob.brk + mmapThreshold, t') ∧
      t'.slob = { t.slob with brk := t.slob.brk + mmapThreshold } ∧
      KernelSide env layout t' := by
  have addr_eq : (BitVec.ofNat 64 (t.slob.brk + mmapThreshold)).toNat =
      t.slob.brk + mmapThreshold := by
    rw [BitVec.toNat_ofNat]
    exact Nat.mod_eq_of_lt (by omega)
  rcases side.sysBrk_raise addr_eq fits with failed | ⟨proc, run, brk, side'⟩
  · refine .inl ?_
    unfold taskBrk
    rw [failed]
    rfl
  · rw [addr_eq] at side'
    refine .inr ⟨_, ?_, rfl, side'⟩
    unfold taskBrk
    rw [run, ok_bind]
    dsimp only
    rw [brk, addr_eq]
    rfl

theorem taskTry_of_isInit (env : SlobEnv) (n : Nat) (init : t.slob.isInit = true) :
    taskTry env t n = (do
      let (ret, s) ← slobTry env t.slob n
      return (ret, { t with slob := s })) := by
  by_cases zero : n = 0
  · rw [slobTry_of_zero _ zero]
    exact slobTryOn_of_zero taskHost t zero
  · rw [slobTry_of_pos zero init]
    exact slobTryOn_of_pos zero init

/-- `slob_init` on the kernel is `slob_init` with its requests granted, unless memory runs
out. -/
theorem KernelSide.init (side : KernelSide env layout t) (granting : env.Granting)
    (fresh : t.slob.isInit = false) (atStart : t.slob.brk = env.startBrk)
    (fits : t.slob.brk + mmapThreshold ≤ 2 ^ 39) :
    (taskSlobInit env t = .error .null ∧ ∀ n, OutOfMemory env n t) ∨
      ∃ t', KernelSide env layout t' ∧
      t'.slob.brk = env.startBrk + mmapThreshold ∧
      taskSlobInit env t = (do
        let s ← slobInit env t.slob
        return { t' with slob := s }) := by
  obtain ⟨t₁, query, slob₁, side₁⟩ := side.query
  have threshold : mmapThreshold = 131072 := rfl
  have req : cU64 ((t.slob.brk : Int) + mmapThreshold) = t₁.slob.brk + mmapThreshold := by
    rw [slob₁, ← Nat.cast_add]
    exact cU64_natCast (by omega)
  have fresh' : ¬ (env.host.slob t.slob).isInit = true := by simp [SlobEnv.host, fresh]
  unfold taskSlobInit slobInit slobInitOn
  rw [if_neg fresh', if_neg (by simp [taskHost, fresh])]
  dsimp only [taskHost, SlobEnv.host, xBrk, id]
  rw [query, ok_bind, ok_bind]
  dsimp only
  rw [req]
  rcases side₁.raise (by rw [slob₁]; exact fits) with failed | ⟨t₂, raised, slob₂, side₂⟩
  · refine .inl ⟨by rw [failed]; rfl, fun n => .init fresh query ?_⟩
    rw [← slob₁]
    exact failed
  · refine .inr ⟨t₂, side₂, by rw [slob₂, slob₁, atStart], ?_⟩
    rw [raised, ok_bind]
    dsimp only
    rw [granting _ 0, if_pos rfl, req, granting, if_neg (by omega), ok_bind, slob₂, slob₁]
    simp only [bind_assoc, pure_bind]

/-- The growth of the heap of a task is the growth that the function `sysBrk` gives, or it runs
out of memory. -/
theorem KernelSide.grow (side : KernelSide env layout t) (granting : env.Granting)
    (cBrk : t.slob.cBrk = t.slob.brk) (fits : t.slob.brk + mmapThreshold ≤ 2 ^ 39) :
    (taskGrow env t = .error .null ∧
      taskBrk t (t.slob.cBrk + mmapThreshold) = .error .null) ∨ ∃ t', KernelSide env layout t' ∧
      t'.slob.brk = t.slob.brk + mmapThreshold ∧
      taskGrow env t = (do
        let s ← slobGrow env t.slob
        return { t' with slob := s }) := by
  have threshold : mmapThreshold = 131072 := rfl
  have req : cU64 ((t.slob.brk : Int) + mmapThreshold) = t.slob.brk + mmapThreshold := by
    rw [← Nat.cast_add]
    exact cU64_natCast (by omega)
  unfold taskGrow slobGrow slobGrowOn
  dsimp only [taskHost, SlobEnv.host, xBrk, id]
  rw [cBrk, req]
  rcases side.raise fits with failed | ⟨t₁, raised, slob₁, side₁⟩
  · exact .inl ⟨by rw [failed]; rfl, failed⟩
  · refine .inr ⟨t₁, side₁, by rw [slob₁], ?_⟩
    rw [raised, ok_bind]
    dsimp only
    rw [granting, if_neg (by omega), ok_bind, bind_pure, slob₁]

section Malloc

theorem taskMalloc_of_some (found : taskTry env t n = .ok (some p, t')) :
    taskMalloc env grants t n = .ok (p, t') :=
  slobMallocOn_of_some found

theorem taskMalloc_succ_of_none (found : taskTry env t n = .ok (none, t')) :
    taskMalloc env (grants + 1) t n = taskGrow env t' >>= fun t => taskMalloc env grants t n :=
  slobMallocOn_succ_of_none found

theorem OutOfMemory.of_init (failed : OutOfMemory env n t') (pos : n ≠ 0)
    (run : taskSlobInit env t = .ok t') (init : t'.slob.isInit = true) : OutOfMemory env n t := by
  have same : taskTry env t n = taskTry env t' n := slobTryOn_of_init pos run init
  cases failed with
  | init fresh => rw [init] at fresh; cases fresh
  | here asks failed => exact .here (same.trans asks) failed
  | later asks grown rest => exact .later (same.trans asks) grown rest

/-- The call on the kernel is a call with `g` requests granted, or it runs out of memory. -/
theorem KernelSide.malloc (granting : env.Granting) (small : n < 2 ^ 64)
    (side : KernelSide env layout t) (heap : SlobHeap env t.slob cs)
    (fits : t.slob.brk + mmapThreshold * grants ≤ 2 ^ 39) :
    (taskMalloc env grants t n = .error .null ∧ OutOfMemory env n t) ∨
      ∃ g, env.Low (t.slob.brk + mmapThreshold * g) ∧
        ((∃ p t', taskMalloc env grants t n = .ok (p, t') ∧
          slobMalloc env g t.slob n = .ok (p, t'.slob) ∧ KernelSide env layout t') ∨
        (g = grants ∧ taskMalloc env grants t n = .error .diverge ∧
          slobMalloc env grants t.slob n = .error .diverge)) := by
  induction grants generalizing t cs with
  | zero =>
    refine .inr ⟨0, side.low, ?_⟩
    have same := taskTry_of_isInit env n heap.init
    rcases slobTry_cases (K := []) small heap (by simp [Keeps]) with
      ⟨p, s', -, run, brk, -⟩ | ⟨run, -⟩
    · rw [run] at same
      exact .inl ⟨p, _, taskMalloc_of_some same, slobMalloc_of_some run, side.withSlob brk⟩
    · rw [run] at same
      exact .inr ⟨rfl, slobMallocOn_zero_of_none same, slobMalloc_zero_of_none run⟩
  | succ grants ih =>
    have same := taskTry_of_isInit env n heap.init
    have more : t.slob.brk + mmapThreshold + mmapThreshold * grants =
        t.slob.brk + mmapThreshold * (grants + 1) := by ring
    rcases slobTry_cases (K := []) small heap (by simp [Keeps]) with
      ⟨p, s', -, run, brk, -⟩ | ⟨run, -⟩
    · rw [run] at same
      exact .inr ⟨0, side.low,
        .inl ⟨p, _, taskMalloc_of_some same, slobMalloc_of_some run, side.withSlob brk⟩⟩
    rw [run] at same
    rw [taskMalloc_succ_of_none same]
    have cBrk : t.slob.cBrk = t.slob.brk := by
      obtain ⟨-, ⟨xs, rep⟩, -⟩ := heap
      exact rep.cBrk
    rcases side.grow granting cBrk (by omega) with ⟨stops, failed⟩ | ⟨t₁, side₁, brk₁, grown⟩
    · exact .inl ⟨by rw [stops]; rfl, .here same failed⟩
    -- the memory that was granted is part of the heap of the kernel
    have low₁ : env.Low (t.slob.brk + mmapThreshold) := brk₁ ▸ side₁.low
    obtain ⟨s₁, run₁, -, brk', -, heap₁⟩ :=
      slobGrow_heap (K := []) (granting.grants _) heap low₁ (by simp [Keeps])
    rw [run₁, ok_bind] at grown
    rw [grown, pure_bind]
    have side₂ : KernelSide env layout { t₁ with slob := s₁ } :=
      side₁.withSlob (brk'.trans brk₁.symm)
    rcases ih side₂ heap₁ (by simp only [brk']; omega) with ⟨stops, failed⟩ | ⟨g, low, outcome⟩
    · exact .inl ⟨stops, .later same grown failed⟩
    · simp only [brk'] at low
      have once : t.slob.brk + mmapThreshold * (g + 1) =
          t.slob.brk + mmapThreshold + mmapThreshold * g := by ring
      refine .inr ⟨g + 1, once ▸ low, ?_⟩
      rcases outcome with ⟨p, t', run', slobRun, side'⟩ | ⟨rfl, run', slobRun⟩
      · refine .inl ⟨p, t', run', ?_, side'⟩
        rw [slobMalloc_succ_of_none run, run₁, ok_bind]
        exact slobRun
      · refine .inr ⟨rfl, run', ?_⟩
        rw [slobMalloc_succ_of_none run, run₁, ok_bind]
        exact slobRun

/-- With the bound of the allocator, a call that is still asking has had too few grants. -/
theorem KernelSide.malloc_outcome (granting : env.Granting) (small : n < 2 ^ 64)
    (side : KernelSide env layout t) (heap : SlobHeap env t.slob cs)
    (fits : t.slob.brk + mmapThreshold * grants ≤ 2 ^ 39) :
    (taskMalloc env grants t n = .error .null ∧ OutOfMemory env n t) ∨
      (∃ g p t', taskMalloc env grants t n = .ok (p, t') ∧
        env.Low (t.slob.brk + mmapThreshold * g) ∧
        slobMalloc env g t.slob n = .ok (p, t'.slob) ∧ KernelSide env layout t') ∨
      (taskMalloc env grants t n = .error .diverge ∧ mmapThreshold * grants < blockSize n) := by
  rcases side.malloc granting small heap fits with failed | ⟨g, low, outcome⟩
  · exact .inl failed
  rcases outcome with ⟨p, t', run, slobRun, side'⟩ | ⟨rfl, run, slobRun⟩
  · exact .inr (.inl ⟨g, p, t', run, low, slobRun, side'⟩)
  · rcases slobMalloc_spec (K := []) granting.answering small heap low (by simp [Keeps]) with
      ⟨p, s', cs', ok, -⟩ | ⟨-, short⟩ | ⟨stops, -⟩
    · cases ok.symm.trans slobRun
    · exact .inr (.inr ⟨run, by omega⟩)
    · cases stops.symm.trans slobRun

end Malloc

end Kernel

/-! ## Sequences of calls -/

/-- A task, together with the blocks that its allocator has handed out. -/
structure TaskSys where
  task : SlobTask
  live : List (Nat × Nat)

/-- The allocator of the task with its live blocks, without the kernel's side. -/
def TaskSys.sys (τ : TaskSys) : SlobSys := ⟨τ.task.slob, τ.live⟩

/-- A task before its first call. Its heap is empty and starts at a page boundary. -/
structure TaskStart (env : SlobEnv) (layout : Layout) (τ : TaskSys) : Prop where
  fresh : τ.task.slob.isInit = false
  slobBrk : τ.task.slob.brk = env.startBrk
  live : τ.live = []
  requests : τ.task.requests = []
  inv : ∃ others maps, MmInv layout others maps τ.task.proc
  brk : τ.task.proc.mm.brk = τ.task.proc.mm.startBrk
  start : τ.task.proc.mm.startBrk.toNat = env.startBrk
  aligned : env.startBrk % 2 ^ 12 = 0

/-- One call that returns. A `slob_malloc` may ask the kernel up to `grants` times, which
leaves the break in the user's half of the address space. -/
inductive TaskStep (env : SlobEnv) : TaskSys → TaskSys → Prop
  | malloc {τ : TaskSys} {n grants p : Nat} {t' : SlobTask} (small : n < 2 ^ 64)
      (fits : τ.task.slob.top env + mmapThreshold * grants ≤ 2 ^ 39)
      (run : taskMalloc env grants τ.task n = .ok (p, t')) :
      TaskStep env τ ⟨t', if p = 0 then τ.live else (p, n) :: τ.live⟩
  | free {τ : TaskSys} {p n : Nat} {t' : SlobTask} (inLive : (p, n) ∈ τ.live)
      (run : taskFree env τ.task p = .ok t') :
      TaskStep env τ ⟨t', τ.live.erase (p, n)⟩

/-- The tasks that calls of the allocator lead to, from a start. -/
def TaskReach (env : SlobEnv) (layout : Layout) (τ : TaskSys) : Prop :=
  ∃ τ₀, TaskStart env layout τ₀ ∧ Relation.ReflTransGen (TaskStep env) τ₀ τ

section Runs

variable {env : SlobEnv} {layout : Layout} {τ τ' : TaskSys} {n grants : Nat}

theorem TaskStart.side (start : TaskStart env layout τ) : KernelSide env layout τ.task := by
  obtain ⟨others, maps, inv⟩ := start.inv
  have brk : τ.task.proc.mm.brk.toNat = env.startBrk := by rw [start.brk, start.start]
  refine ⟨⟨others, maps, inv, brk ▸ Nat.le_add_right _ _⟩, ⟨?_, ?_⟩, start.start,
    start.slobBrk.trans brk.symm, brk ▸ start.aligned, by simp [start.requests]⟩
  · rw [start.brk]
  · rintro v ⟨x, low, high, -⟩
    rw [start.brk] at high
    omega

/-- The invariant of the task, on the kernel's side and on that of the allocator. -/
structure TaskInv (env : SlobEnv) (layout : Layout) (τ : TaskSys) : Prop where
  side : KernelSide env layout τ.task
  slob : SlobInv env τ.sys

/-- A call on the kernel runs out of memory, or is a call of the allocator with its requests
granted; with too few of them it is still asking. -/
theorem TaskInv.malloc (granting : env.Granting) (inv : TaskInv env layout τ) (small : n < 2 ^ 64)
    (fits : τ.task.slob.top env + mmapThreshold * grants ≤ 2 ^ 39) :
    (taskMalloc env grants τ.task n = .error .null ∧ OutOfMemory env n τ.task) ∨
      (∃ g p t', taskMalloc env grants τ.task n = .ok (p, t') ∧
        env.Low (τ.task.slob.top env + mmapThreshold * g) ∧
        slobMalloc env g τ.task.slob n = .ok (p, t'.slob) ∧ KernelSide env layout t') ∨
      (taskMalloc env grants τ.task n = .error .diverge ∧
        mmapThreshold * grants < blockSize n) := by
  obtain ⟨side, start | ⟨cs, inv⟩⟩ := inv
  · have fresh : τ.task.slob.isInit = false := start.fresh
    have atStart : τ.task.slob.brk = env.startBrk := start.brk
    rw [Slob.top, if_neg (by simp [fresh])] at fits ⊢
    by_cases zero : n = 0
    · have run : taskTry env τ.task n = .ok (some 0, τ.task) :=
        slobTryOn_of_zero taskHost τ.task zero
      refine .inr (.inl ⟨0, 0, τ.task, taskMalloc_of_some run, ?_,
        slobMalloc_of_some (slobTry_of_zero _ zero), side⟩)
      unfold SlobEnv.Low mmapThreshold
      omega
    · rcases side.init granting fresh atStart (by omega) with
        ⟨stops, failed⟩ | ⟨t₁, side₁, brk₁, run⟩
      · exact .inl ⟨slobMallocOn_of_init_error grants zero stops, failed n⟩
      obtain ⟨s₁, xs, slobRun, -, init, brk, rep⟩ :=
        slobInit_spec (granting.answering.query _) fresh atStart (granting.grants _)
      rw [slobRun, ok_bind] at run
      have side₂ : KernelSide env layout { t₁ with slob := s₁ } :=
        side₁.withSlob (brk.trans brk₁.symm)
      have heap : SlobHeap env s₁ [env.firstChunk] := ⟨init, ⟨xs, rep⟩, .singleton _⟩
      have same : taskMalloc env grants τ.task n = taskMalloc env grants { t₁ with slob := s₁ } n :=
        slobMallocOn_of_init grants zero run init
      simp only [same, slobMalloc_of_init zero slobRun init, ← brk] at fits ⊢
      rcases side₂.malloc_outcome granting small heap fits with ⟨stops, failed⟩ | returned
      · exact .inl ⟨stops, failed.of_init zero run init⟩
      · exact .inr returned
  · have heap : SlobHeap env τ.task.slob cs := inv.heap
    rw [Slob.top, if_pos heap.init] at fits ⊢
    exact side.malloc_outcome granting small heap fits

theorem TaskInv.step (granting : env.Granting) (inv : TaskInv env layout τ)
    (step : TaskStep env τ τ') : TaskInv env layout τ' := by
  cases step with
  | @malloc n grants p t' small fits run =>
    rcases inv.malloc granting small fits with
      ⟨stops, -⟩ | ⟨g, p', t'', run', low, slobRun, side⟩ | ⟨run', -⟩
    · cases stops.symm.trans run
    · cases run'.symm.trans run
      have step : SlobStep env τ.sys ⟨t'.slob, if p = 0 then τ.live else (p, n) :: τ.live⟩ :=
        .malloc small low slobRun
      exact ⟨side, (inv.slob.step granting.answering step).1⟩
    · cases run'.symm.trans run
  | @free p n t' inLive run =>
    unfold taskFree at run
    obtain ⟨s', slobRun, run⟩ := of_bind_ok run
    cases run
    have step : SlobStep env τ.sys ⟨s', τ.live.erase (p, n)⟩ := .free inLive slobRun
    refine ⟨inv.side.withSlob ?_, (inv.slob.step granting.answering step).1⟩
    rcases inv.slob with start | ⟨cs, live⟩
    · have none : τ.live = [] := start.live
      rw [none] at inLive
      cases inLive
    · obtain ⟨s'', -, run'', brk, -⟩ := live.free inLive
      cases run''.symm.trans slobRun
      exact brk

theorem TaskReach.inv (granting : env.Granting) (reach : TaskReach env layout τ) :
    TaskInv env layout τ := by
  obtain ⟨τ₀, start, run⟩ := reach
  induction run with
  | refl => exact ⟨start.side, .inl ⟨start.fresh, start.slobBrk, start.live⟩⟩
  | tail _ step ih => exact ih.step granting step

end Runs

end Chinos
