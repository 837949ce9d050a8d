import Chinos.Sched.Blocking
import Chinos.Sched.Safety

/-!
# Runs that mix sleeping, blocking and detaching

Here the callers of the scheduler attach, block, unblock and detach tasks in any order,
and the current task sleeps. Blocked and detached tasks are to stay off all queues, and
every other task is to be ready once its sleep is over. Two habits of the code stand
against that. `sched_detach` looks at the ready queue of the task's priority although the
task may be on the pending queue, as the running task is; and a task keeps its
`readytime` when it is blocked or detached in the middle of a sleep.
-/

namespace Chinos

/-- What the last call about a task asked for. -/
inductive TaskPhase
  | detached
  | active
  | blocked
  deriving DecidableEq, Repr

/-- The scheduler, and what its callers have asked for: the phase of every task, and when
the sleep that it requested ends. Attaching or unblocking a task ends its sleep. -/
structure SchedRun (T : Type) where
  sched : Sched T
  phase : T → TaskPhase
  sleepEnd : T → Nat

/-- The calls of a run. `sys_nanosleep` is `nanosleep` followed by `schedule`. -/
inductive SchedCall (T : Type)
  | attach (t : T)
  | schedule
  | nanosleep (tvSec tvNsec : BitVec 64)
  | block (t : T)
  | unblock (t : T)
  | detach (t : T)

section Mixed

variable {T : Type} [DecidableEq T]

/-- One call on the scheduler, with the phase of the task that it is about kept up to date. -/
def SchedCall.run (clock : Nat → BitVec 64) (m : SchedRun T) :
    SchedCall T → Except Fault (SchedRun T)
  | .attach t => .ok
    { sched := attachNew m.sched t
      phase := Function.update m.phase t .active
      sleepEnd := Function.update m.sleepEnd t 0 }
  | .schedule => do
    let s ← Chinos.schedule clock m.sched
    return { m with sched := s }
  | .nanosleep tvSec tvNsec =>
    let s := sysNanosleep clock tvSec tvNsec m.sched
    .ok { m with
      sched := s
      sleepEnd := Function.update m.sleepEnd m.sched.current (s.deadline m.sched.current) }
  | .block t => .ok
    { m with sched := schedBlock m.sched t, phase := Function.update m.phase t .blocked }
  | .unblock t => .ok
    { sched := schedUnblock m.sched t
      phase := Function.update m.phase t .active
      sleepEnd := Function.update m.sleepEnd t 0 }
  | .detach t => .ok
    { m with sched := schedDetachQueues m.sched t, phase := Function.update m.phase t .detached }

/-- What a caller must not do: attach a task twice, block or detach the idle task or one
that is not attached, unblock a task that is not blocked. -/
def SchedCall.Legal (setup : SchedSetup T) (m : SchedRun T) : SchedCall T → Prop
  | .attach t => m.phase t = .detached
  | .schedule => True
  | .nanosleep _ _ => True
  | .block t => m.phase t ≠ .detached ∧ t ≠ setup.idle
  | .unblock t => m.phase t = .blocked
  | .detach t => m.phase t ≠ .detached ∧ t ≠ setup.idle

/-- When a call does what its caller expects. A task comes back only after its `readytime`;
only an active task sleeps, with a `readytime` that does not overflow; and a task that
is not blocked is detached only while the ready queue of its priority has a task. -/
def SchedCall.Sound (setup : SchedSetup T) (m : SchedRun T) : SchedCall T → Prop
  | .attach t => setup.Due m.sched t
  | .schedule => True
  | .nanosleep tvSec tvNsec => m.phase m.sched.current = .active ∧
    (sysNanosleep setup.clock tvSec tvNsec m.sched).deadline m.sched.current < 2 ^ 63
  | .block _ => True
  | .unblock t => setup.Due m.sched t
  | .detach t => m.phase t = .blocked ∨
    m.sched.links.isEmpty (.ready (m.sched.prio t)) = false

/-- The scheduler after `sched_init`, with no task but the idle one. -/
def SchedRun.boot (setup : SchedSetup T) : SchedRun T where
  sched := schedInit setup.links setup.tcb setup.idle
  phase t := if t = setup.idle then .active else .detached
  sleepEnd _ := 0

/-- The states of runs whose calls are legal and meet `cond`. -/
inductive SchedRuns (setup : SchedSetup T) (cond : SchedRun T → SchedCall T → Prop) :
    SchedRun T → Prop
  | boot : SchedRuns setup cond (SchedRun.boot setup)
  | call {m m' : SchedRun T} {c : SchedCall T} : SchedRuns setup cond m → c.Legal setup m →
      cond m c → c.run setup.clock m = .ok m' → SchedRuns setup cond m'

/-- Inactive tasks are off the CPU and active ones eligible. -/
structure Eligible (setup : SchedSetup T) (m : SchedRun T) : Prop where
  /-- The tasks on the ready queues and the pending queue are the active ones. -/
  queues : ∃ q, Represents m.sched.links q ∧ ∀ t, q.Has t ↔ m.phase t = .active
  /-- `schedule` returns, and the queues `q₁` among which it selects have every active task
  ready whose sleep ended before the call. -/
  selects : ∃ s₁ q₁ s', schedPendingCheck setup.clock m.sched = .ok s₁ ∧
    schedule setup.clock m.sched = .ok s' ∧ Represents s₁.links q₁ ∧
    ∀ t, m.phase t = .active → m.sleepEnd t < (setup.clock m.sched.reads).toNat →
      t ∈ q₁.ready (m.sched.prio t)
  /-- No call makes another task current than an active one. -/
  current : ∀ c m', SchedCall.run setup.clock m c = .ok m' →
    m'.sched.current = m.sched.current ∨ m.phase m'.sched.current = .active

/-! ## The invariant -/

/-- What holds between the calls of a run in which all calls are sound. -/
structure RunInv (setup : SchedSetup T) (q : Queues T) (m : SchedRun T) : Prop where
  queues : QueueInv setup (fun t => m.phase t = .active) q m.sched
  listed : ∀ t, m.phase t ≠ .detached → t ∈ m.sched.attached
  self : ∀ t, m.phase t = .blocked → SelfLinked m.sched.links t
  sleep : ∀ t, m.phase t = .active → m.sched.deadline t = m.sleepEnd t ∨ setup.Due m.sched t

variable {setup : SchedSetup T} {q : Queues T} {m m' : SchedRun T} {t : T}

theorem TaskPhase.not_active {phase : TaskPhase} (blocked : phase = .blocked) :
    phase ≠ .active := by
  rw [blocked]
  decide

omit [DecidableEq T] in
theorem RunInv.absent (inv : RunInv setup q m) (off : m.phase t ≠ .active) : ¬ q.Has t :=
  fun has => off ((inv.queues.has_iff t).mp has)

omit [DecidableEq T] in
/-- A task that is attached is on a queue or points to itself. -/
theorem RunInv.linked (inv : RunInv setup q m) (attached : m.phase t ≠ .detached) :
    q.Has t ∨ SelfLinked m.sched.links t := by
  cases phase : m.phase t with
  | detached => exact absurd phase attached
  | active => exact .inl ((inv.queues.has_iff t).mpr phase)
  | blocked => exact .inr (inv.self t phase)

/-- A task that comes back by `sched_attach` or `sched_unblock` is active again, with the
invariant as before. -/
theorem RunInv.raise (inv : RunInv setup q m) (off : m.phase t ≠ .active)
    (isDue : setup.Due m.sched t) {q' : Queues T} {s' : Sched T} (raised : Raised m.sched t q' s')
    (pending : q'.pending = q.pending)
    (ready : ∀ {u p}, u ∈ q'.ready p ↔ u ∈ q.ready p ∨ u = t ∧ p = m.sched.prio t)
    (node : ∀ u, ¬ q.Has u → u ≠ t → SameNode m.sched.links s'.links u)
    {attached : List T} (listed : t ∈ attached) (more : m.sched.attached ⊆ attached) :
    RunInv setup q' ⟨{ s' with attached := attached }, Function.update m.phase t .active,
      Function.update m.sleepEnd t 0⟩ := by
  have same := raised.same
  have queues := inv.queues.raise raised pending ready isDue listed more
  have on : (fun u => u = t ∨ m.phase u = .active) =
      fun u => Function.update m.phase t .active u = .active := by
    funext u
    by_cases eq : u = t <;> simp [eq]
  rw [on] at queues
  refine ⟨queues, ?_, ?_, ?_⟩
  · intro u attachedNow
    by_cases eq : u = t
    · exact eq ▸ listed
    · simp only [Function.update_of_ne eq] at attachedNow
      exact more (inv.listed u attachedNow)
  · intro u blocked
    have ne : u ≠ t := by
      rintro rfl
      simp at blocked
    simp only [Function.update_of_ne ne] at blocked
    have uOff : m.phase u ≠ .active := TaskPhase.not_active blocked
    exact (inv.self u blocked).of_same (node u (inv.absent uOff) ne)
  · intro u active
    by_cases eq : u = t
    · subst eq
      exact .inr (isDue.later (same.deadline u) raised.reads.ge)
    · simp only [Function.update_of_ne eq] at active ⊢
      rcases inv.sleep u active with known | due
      · exact .inl ((same.deadline u).trans known)
      · exact .inr (due.later (same.deadline u) raised.reads.ge)

theorem RunInv.attach (inv : RunInv setup q m) (legal : m.phase t = .detached)
    (isDue : setup.Due m.sched t) :
    RunInv setup (q.pushReady (m.sched.prio t) t) ⟨attachNew m.sched t,
      Function.update m.phase t .active, Function.update m.sleepEnd t 0⟩ := by
  have off : m.phase t ≠ .active := by simp [legal]
  exact inv.raise off isDue (schedAttach_raised inv.queues.repr (inv.absent off)) rfl
    Queues.mem_pushReady (fun u absent ne => sameNode_attach inv.queues.repr absent ne)
    (.head _) (List.subset_cons_self _ _)

theorem RunInv.unblock (inv : RunInv setup q m) (legal : m.phase t = .blocked)
    (isDue : setup.Due m.sched t) :
    RunInv setup (q.pushFront (m.sched.prio t) t) ⟨schedUnblock m.sched t,
      Function.update m.phase t .active, Function.update m.sleepEnd t 0⟩ := by
  have off : m.phase t ≠ .active := by simp [legal]
  have raised := schedUnblock_raised inv.queues.repr (inv.absent off)
  have after := inv.raise off isDue raised rfl Queues.mem_pushFront
    (fun u absent ne => sameNode_unblock inv.queues.repr absent ne)
    (inv.listed t (by simp [legal])) (List.Subset.refl _)
  rw [← raised.same.attached] at after
  exact after

/-- A task that leaves by `sched_block` or `sched_detach` is not active any more, with the
invariant as before. -/
theorem RunInv.lower (inv : RunInv setup q m) {phase : TaskPhase} (off : phase ≠ .active)
    {s' : Sched T} (lowered : Lowered m.sched t q (q.remove t) s')
    (deadline : s'.deadline t = m.sched.deadline t) (was : m.phase t ≠ .detached)
    (node : ∀ u, ¬ q.Has u → u ≠ t → SameNode m.sched.links s'.links u)
    (self : phase = .blocked → SelfLinked s'.links t) :
    RunInv setup (q.remove t) ⟨s', Function.update m.phase t phase, m.sleepEnd⟩ := by
  have active_iff : ∀ u, Function.update m.phase t phase u = .active ↔
      u ≠ t ∧ m.phase u = .active := by
    intro u
    by_cases eq : u = t <;> simp [eq, off]
  have small : s'.deadline t < 2 ^ 63 := by
    rw [deadline]
    exact inv.queues.small t
  refine ⟨inv.queues.lower lowered small ?_ (fun u active => ((active_iff u).mp active).2),
    ?_, ?_, ?_⟩
  · intro u
    rw [active_iff, inv.queues.repr.remove_has_iff, inv.queues.has_iff]
  · intro u attachedNow
    rw [lowered.attached]
    by_cases eq : u = t
    · exact inv.listed u (eq ▸ was)
    · simp only [Function.update_of_ne eq] at attachedNow
      exact inv.listed u attachedNow
  · intro u blocked
    by_cases eq : u = t
    · subst eq
      simp only [Function.update_self] at blocked
      exact self blocked
    · simp only [Function.update_of_ne eq] at blocked
      have uOff : m.phase u ≠ .active := TaskPhase.not_active blocked
      exact (inv.self u blocked).of_same (node u (inv.absent uOff) eq)
  · intro u active
    obtain ⟨ne, wasActive⟩ := (active_iff u).mp active
    rcases inv.sleep u wasActive with known | due
    · exact .inl ((lowered.deadline u ne).trans known)
    · exact .inr (due.later (lowered.deadline u ne) lowered.reads)

theorem RunInv.block (inv : RunInv setup q m) (legal : m.phase t ≠ .detached) :
    RunInv setup (q.remove t) ⟨schedBlock m.sched t, Function.update m.phase t .blocked,
      m.sleepEnd⟩ := by
  have linked := inv.linked legal
  refine inv.lower (by simp) (schedBlock_lowered inv.queues.repr linked)
    ((schedBlock_same m.sched t).deadline t) legal
    (fun u absent ne => sameNode_block inv.queues.repr linked absent ne) ?_
  intro _
  rw [schedBlock_links]
  exact selfLinked_delInit _ t

theorem RunInv.detach (inv : RunInv setup q m) (legal : m.phase t ≠ .detached)
    (sound : m.phase t = .blocked ∨
      m.sched.links.isEmpty (.ready (m.sched.prio t)) = false) :
    RunInv setup (q.remove t) ⟨schedDetachQueues m.sched t,
      Function.update m.phase t .detached, m.sleepEnd⟩ := by
  have linked := inv.linked legal
  have found : m.sched.links.isEmpty (.ready (m.sched.prio t)) = false ∧
      (q.Has t ∨ SelfLinked m.sched.links t) ∨ ¬ q.Has t ∧ SelfLinked m.sched.links t := by
    rcases sound with blocked | busy
    · exact .inr ⟨inv.absent (by simp [blocked]), inv.self t blocked⟩
    · exact .inl ⟨busy, linked⟩
  refine inv.lower (by simp) (schedDetachQueues_lowered inv.queues.repr found)
    ((schedDetachQueues_same m.sched t).deadline t) legal
    (fun u absent ne => sameNode_detach inv.queues.repr linked absent ne) ?_
  intro impossible
  cases impossible

/-- If the current task goes to sleep until a time that does not wrap around, the invariant holds
as before. -/
theorem RunInv.nanosleep (inv : RunInv setup q m) {tvSec tvNsec : BitVec 64}
    (active : m.phase m.sched.current = .active)
    (small : (sysNanosleep setup.clock tvSec tvNsec m.sched).deadline m.sched.current < 2 ^ 63) :
    RunInv setup ((q.remove m.sched.current).pushPending m.sched.current)
      ⟨sysNanosleep setup.clock tvSec tvNsec m.sched, m.phase,
        Function.update m.sleepEnd m.sched.current
          ((sysNanosleep setup.clock tvSec tvNsec m.sched).deadline m.sched.current)⟩ := by
  have has : q.Has m.sched.current := (inv.queues.has_iff _).mpr active
  have repr := inv.queues.repr
  have lowered : Lowered m.sched m.sched.current q _
    (sysNanosleep setup.clock tvSec tvNsec m.sched) := sysNanosleep_lowered repr has
  refine ⟨inv.queues.lower lowered small ?_ (fun _ isActive => isActive), ?_, ?_, ?_⟩
  · exact fun u => (repr.requeue_has_iff has).trans (inv.queues.has_iff u)
  · intro u attached
    rw [lowered.attached]
    exact inv.listed u attached
  · intro u blocked
    have uOff : m.phase u ≠ .active := TaskPhase.not_active blocked
    exact (inv.self u blocked).of_same (sameNode_nanosleep repr has (inv.absent uOff))
  · intro u isActive
    by_cases eq : u = m.sched.current
    · subst eq
      exact .inl (by simp)
    · simp only [Function.update_of_ne eq]
      rcases inv.sleep u isActive with known | due
      · exact .inl ((lowered.deadline u eq).trans known)
      · exact .inr (due.later (lowered.deadline u eq) lowered.reads)

/-- `schedule` returns and keeps the invariant. -/
theorem RunInv.schedule (inv : RunInv setup q m) :
    ∃ s₁ q₁ s' q', Rescheduled setup (fun t => m.phase t = .active) m.sched s₁ q₁ s' q' ∧
      RunInv setup q' { m with sched := s' } := by
  obtain ⟨s₁, q₁, s', q', done⟩ := inv.queues.schedule
  refine ⟨s₁, q₁, s', q', done, done.inv, ?_, ?_, ?_⟩
  · intro u attached
    rw [done.attached]
    exact inv.listed u attached
  · intro u blocked
    have uOff : m.phase u ≠ .active := TaskPhase.not_active blocked
    exact (inv.self u blocked).of_same (done.node u uOff)
  · intro u active
    rcases inv.sleep u active with known | due
    · exact .inl ((done.deadline u).trans known)
    · exact .inr (due.later (done.deadline u) done.reads)

theorem RunInv.boot (setup : SchedSetup T) : ∃ q, RunInv setup q (SchedRun.boot setup) := by
  have inv := SchedInv.init setup
  have attached : ∀ t, t ∈ (schedInit setup.links setup.tcb setup.idle).attached ↔
      t = setup.idle := by
    intro t
    unfold schedInit schedAttach
    rw [raise_eq]
    exact List.mem_singleton
  have active : ∀ t, (SchedRun.boot setup).phase t = .active ↔ t = setup.idle := by
    intro t
    unfold SchedRun.boot
    by_cases eq : t = setup.idle <;> simp [eq]
  have blocked : ∀ t, (SchedRun.boot setup).phase t ≠ .blocked := by
    intro t
    unfold SchedRun.boot
    by_cases eq : t = setup.idle <;> simp [eq]
  have queues := inv.toQueueInv
  simp only [attached, ← active] at queues
  refine ⟨_, queues, ?_, ?_, ?_⟩
  · intro t attachedNow
    refine (attached t).mpr ((active t).mp ?_)
    cases phase : (SchedRun.boot setup).phase t with
    | detached => exact absurd phase attachedNow
    | active => rfl
    | blocked => exact absurd phase (blocked t)
  · exact fun t isBlocked => absurd isBlocked (blocked t)
  · intro t isActive
    rw [(active t).mp isActive]
    exact .inr (setup.due_of_zero inv.idle_fresh)

/-! ## Whole runs -/

/-- A call that is legal and sound keeps the invariant, if it returns. -/
theorem RunInv.call (inv : RunInv setup q m) {c : SchedCall T} (legal : c.Legal setup m)
    (sound : c.Sound setup m) (run : c.run setup.clock m = .ok m') :
    ∃ q', RunInv setup q' m' := by
  cases c with
  | attach t =>
    cases run
    exact ⟨_, inv.attach legal sound⟩
  | schedule =>
    obtain ⟨s₁, q₁, s', q', done, after⟩ := inv.schedule
    have returns : SchedCall.run setup.clock m .schedule = .ok { m with sched := s' } := by
      unfold SchedCall.run
      rw [done.run]
      rfl
    rw [returns] at run
    cases run
    exact ⟨q', after⟩
  | nanosleep tvSec tvNsec =>
    cases run
    exact ⟨_, inv.nanosleep sound.1 sound.2⟩
  | block t =>
    cases run
    exact ⟨_, inv.block legal.1⟩
  | unblock t =>
    cases run
    exact ⟨_, inv.unblock legal sound⟩
  | detach t =>
    cases run
    exact ⟨_, inv.detach legal.1 sound⟩

theorem SchedRuns.inv (runs : SchedRuns setup (SchedCall.Sound setup) m) :
    ∃ q, RunInv setup q m := by
  induction runs with
  | boot => exact RunInv.boot setup
  | call _ legal sound run ih =>
    obtain ⟨q, inv⟩ := ih
    exact inv.call legal sound run

/-- No call but `schedule` changes the current task. -/
theorem SchedCall.current_eq {clock : Nat → BitVec 64} {c : SchedCall T} (other : c ≠ .schedule)
    (run : c.run clock m = .ok m') : m'.sched.current = m.sched.current := by
  cases c with
  | schedule => exact absurd rfl other
  | attach t =>
    cases run
    simp only [attachNew, schedAttach, raise_eq]
    rfl
  | nanosleep tvSec tvNsec =>
    cases run
    simp only [sysNanosleep, getCurrentTime, schedSleep_eq]
    exact (Sched.lower_same _ _).1.current
  | block t =>
    cases run
    exact (schedBlock_same m.sched t).current
  | unblock t =>
    cases run
    simp only [schedUnblock_eq, raise_eq]
    rfl
  | detach t =>
    cases run
    exact (schedDetachQueues_same m.sched t).current

/-- In every run of sound calls, inactive tasks stay off the CPU and active tasks are
ready once they have slept. -/
theorem schedRuns_eligible (runs : SchedRuns setup (SchedCall.Sound setup) m) :
    Eligible setup m := by
  obtain ⟨q, inv⟩ := runs.inv
  obtain ⟨s₁, q₁, s', q', done, after⟩ := inv.schedule
  refine ⟨⟨q, inv.queues.repr, inv.queues.has_iff⟩,
    ⟨s₁, q₁, s', done.check, done.run, done.repr, ?_⟩,
    ?_⟩
  · intro t active slept
    refine done.awake t active (fun n later => ?_)
    rcases inv.sleep t active with known | due
    · rw [known]
      exact lt_of_lt_of_le slept (setup.monotone later)
    · exact due n (by omega)
  · intro c m' run
    by_cases isSchedule : c = .schedule
    · subst isSchedule
      unfold SchedCall.run at run
      rw [done.run] at run
      cases run
      exact done.current
    · exact .inl (SchedCall.current_eq isSchedule run)

end Mixed

/-! ## Two tasks -/

/-- The second task is attached, scheduled, and detached while it runs. -/
def detachRunning : Except Fault (SchedRun Bool) := do
  let m ← SchedCall.run twoTasks.clock (SchedRun.boot twoTasks) (.attach true)
  let m ← SchedCall.run twoTasks.clock m .schedule
  SchedCall.run twoTasks.clock m (.detach true)

theorem detachRunning_runs {m : SchedRun Bool} (run : detachRunning = .ok m) :
    SchedRuns twoTasks (fun _ _ => True) m := by
  obtain ⟨m₁, attached, run⟩ := of_bind_ok run
  obtain ⟨m₂, scheduled, detached⟩ := of_bind_ok run
  have phase₁ : m₁.phase true = .active := by
    cases attached
    rfl
  have phase₂ : m₂.phase = m₁.phase := by
    obtain ⟨s, -, eq⟩ := of_bind_ok scheduled
    cases eq
    rfl
  have fresh : SchedCall.Legal twoTasks (SchedRun.boot twoTasks) (.attach true) := rfl
  have legal : SchedCall.Legal twoTasks m₂ (.detach true) := by
    change m₂.phase true ≠ .detached ∧ true ≠ false
    rw [phase₂, phase₁]
    decide
  have runs₁ : SchedRuns twoTasks (fun _ _ => True) m₁ := .call .boot fresh trivial attached
  have runs₂ : SchedRuns twoTasks (fun _ _ => True) m₂ :=
    .call (c := .schedule) runs₁ trivial trivial scheduled
  exact runs₂.call legal trivial detached

/-- The running task stays on the pending queue when it is detached: its ready queue is
empty, so `sched_detach` takes nothing out. -/
theorem detachRunning_not_eligible :
    ∃ m, SchedRuns twoTasks (fun _ _ => True) m ∧ m.phase true = .detached ∧
      m.sched.links.next .pending = .task true ∧ ¬ Eligible twoTasks m := by
  have pending : (detachRunning.map fun m => m.sched.links.next .pending) = .ok (.task true) := rfl
  have phase : (detachRunning.map fun m => m.phase true) = .ok .detached := rfl
  cases run : detachRunning with
  | error fault =>
    rw [run] at phase
    cases phase
  | ok m =>
    rw [run] at pending phase
    have first : m.sched.links.next .pending = .task true := Except.ok.inj pending
    have detached : m.phase true = .detached := Except.ok.inj phase
    refine ⟨m, detachRunning_runs run, detached, first, fun eligible => ?_⟩
    obtain ⟨q, repr, has_iff⟩ := eligible.queues
    have next := repr.next_pending
    rw [first] at next
    have has : q.Has true := by
      cases list : q.pending with
      | nil =>
        rw [list] at next
        cases next
      | cons t ts =>
        rw [list] at next
        cases next
        exact .inl (list ▸ .head ts)
    have active := (has_iff true).mp has
    rw [detached] at active
    cases active

/-- A run in which the second task is attached and blocked, after which all active tasks are
eligible. -/
theorem twoTasks_eligible :
    ∃ m, SchedRuns twoTasks (SchedCall.Sound twoTasks) m ∧ m.phase true = .blocked ∧
      Eligible twoTasks m := by
  have fresh : SchedCall.Legal twoTasks (SchedRun.boot twoTasks) (.attach true) := rfl
  have due : SchedCall.Sound twoTasks (SchedRun.boot twoTasks) (.attach true) :=
    twoTasks.due_of_zero rfl
  have attached : SchedRuns twoTasks (SchedCall.Sound twoTasks) _ := .call .boot fresh due rfl
  have runs : SchedRuns twoTasks (SchedCall.Sound twoTasks) _ :=
    attached.call (c := .block true) ⟨by decide, by decide⟩ trivial rfl
  exact ⟨_, runs, rfl, schedRuns_eligible runs⟩

end Chinos
