import Chinos.Sched.Run

/-!
# Strict priority and the conservation of tasks

The two properties of the scheduler that hold over every run. Whenever `schedule`
runs, it picks the smallest priority that has a ready task, and the task it leaves
running is awake. And at all times every task that was attached is on exactly one of
the 33 queues, which only `sched_pending_check` empties of the tasks that are due.
-/

namespace Chinos

section Safety

variable {T : Type} [DecidableEq T] {setup : SchedSetup T} {s : Sched T} {q : Queues T}

/-- The queue with head `h` is a well-formed list of the tasks `ts`. -/
def Sched.Holds (s : Sched T) (h : Node T) (ts : List T) : Prop := s.links.Ring h (ts.map .task)

/-- What `schedule` sees in `s₁`, after `sched_pending_check`, and leaves in `s'`. -/
structure StrictPriority (clock : Nat → BitVec 64) (s₁ : Sched T) (least : Priority)
    (s' : Sched T) : Prop where
  /-- The bit of a priority says whether its ready queue has a task. -/
  bit_iff : ∀ p, s₁.Bit p ↔ s₁.links.isEmpty (.ready p) = false
  /-- A group bit says whether its byte of the bitmap is not zero. -/
  group_iff : ∀ g, s₁.group.getLsbD g = true ↔ g < 4 ∧ s₁.bitmap g ≠ 0
  /-- The lookup finds the non-empty queue of smallest priority. -/
  select : selectPriority s₁ = .ok least
  nonempty : s₁.links.isEmpty (.ready least) = false
  least_le : ∀ p, s₁.links.isEmpty (.ready p) = false → least ≤ p
  /-- The current task's deadline has passed at the last clock reading, and stays so. -/
  awake : ∀ n, s'.reads ≤ n + 1 → s'.deadline s'.current < (clock n).toNat
  /-- No ready task is more urgent than the current one. -/
  ready : ∀ p ts, s'.Holds (.ready p) ts → ∀ t ∈ ts, s'.prio s'.current ≤ s'.prio t

omit [DecidableEq T] in
theorem Represents.holds_iff (repr : Represents s.links q) {p : Priority} {ts : List T} :
    s.Holds (.ready p) ts ↔ ts = q.ready p := by
  have ring := Links.Rings.ring repr (isHead_ready p)
  constructor
  · intro holds
    exact List.map_injective_iff.mpr (fun _ _ same => Node.task.inj same) (holds.unique ring)
  · rintro rfl
    exact ring

omit [DecidableEq T] in
theorem Represents.holds_pending_iff (repr : Represents s.links q) {ts : List T} :
    s.Holds .pending ts ↔ ts = q.pending := by
  have ring := Links.Rings.ring repr isHead_pending
  constructor
  · intro holds
    exact List.map_injective_iff.mpr (fun _ _ same => Node.task.inj same) (holds.unique ring)
  · rintro rfl
    exact ring

theorem Represents.busy_iff (repr : Represents s.links q) {p : Priority} :
    s.links.isEmpty (.ready p) = false ↔ q.ready p ≠ [] := by
  rw [← Bool.not_eq_true, repr.isEmpty_iff]

/-- At every call, `schedule` returns and follows strict priority. -/
theorem schedule_strictPriority (atCall : AtSchedule setup s) :
    ∃ s₁ least s', schedPendingCheck setup.clock s = .ok s₁ ∧
      schedule setup.clock s = .ok s' ∧ StrictPriority setup.clock s₁ least s' := by
  obtain ⟨q, inv⟩ := atCall.inv
  obtain ⟨s₁, least, q', s', scheduled⟩ := inv.schedule
  have busy := @Represents.busy_iff _ _ _ _ scheduled.checked.repr
  refine ⟨s₁, least, s', scheduled.check, scheduled.run, ?_⟩
  exact
    { bit_iff := fun p => (scheduled.bits p).trans busy.symm
      group_iff := scheduled.checked.group
      select := scheduled.select
      nonempty := busy.mpr scheduled.nonempty
      least_le := fun p h => scheduled.least_le p (busy.mp h)
      awake := scheduled.due
      ready := fun p ts holds t inside => by
        rw [scheduled.inv.repr.holds_iff.mp holds] at inside
        rw [scheduled.prio, scheduled.inv.own inside]
        exact scheduled.ready p (List.ne_nil_of_mem inside) }

/-- All tasks on the queues, one queue after the other. -/
def Queues.all (q : Queues T) : List T := (List.finRange 32).flatMap q.ready ++ q.pending

omit [DecidableEq T] in
theorem Queues.mem_all {t : T} : t ∈ q.all ↔ q.Has t := by
  simp only [Queues.all, List.mem_append, List.mem_flatMap, List.mem_finRange, true_and]
  exact or_comm

omit [DecidableEq T] in
theorem Represents.nodup_all (repr : Represents s.links q) : q.all.Nodup := by
  unfold Queues.all
  rw [List.nodup_append]
  refine ⟨?_, repr.nodup_pending, ?_⟩
  · rw [List.nodup_flatMap]
    refine ⟨fun p _ => repr.nodup_ready, ?_⟩
    refine (List.nodup_finRange 32).imp (fun ne => ?_)
    intro t inside inOther
    exact repr.ready_apart ne inside inOther
  · intro t inside t' inPending same
    obtain ⟨p, -, inReady⟩ := List.mem_flatMap.mp inside
    exact repr.pending_apart inPending (same ▸ inReady)

/-- Where the tasks are in `s`, and where `sched_pending_check` takes them from there. -/
structure TasksPlaced (clock : Nat → BitVec 64) (s : Sched T) (q : Queues T) (s₁ : Sched T) :
    Prop where
  /-- All queues are well-formed circular doubly linked lists. -/
  ready : ∀ p, s.Holds (.ready p) (q.ready p)
  pending : s.Holds .pending q.pending
  /-- Every attached task is there exactly once, and no other task is there. -/
  once : ∀ t, q.all.count t = if t ∈ s.attached then 1 else 0
  /-- A ready task is on the queue of its own priority. -/
  own : ∀ p, ∀ t ∈ q.ready p, s.prio t = p
  /-- Of the pending tasks, those whose deadline lies before the clock reading taken for
  them go to their ready queues, in order; the others stay. -/
  check : schedPendingCheck clock s = .ok s₁
  woken : ∀ p, s₁.Holds (.ready p)
    (q.ready p ++ (dueTasks clock s.deadline s.reads q.pending).filter (fun t => s.prio t = p))
  asleep : s₁.Holds .pending (sleepingTasks clock s.deadline s.reads q.pending)

/-- In every state of a run, no task is lost or duplicated. -/
theorem sched_tasksPlaced (atCall : AtSchedule setup s) :
    ∃ q s₁, TasksPlaced setup.clock s q s₁ := by
  obtain ⟨q, inv⟩ := atCall.inv
  obtain ⟨s₁, check, checked, -⟩ := inv.check
  refine ⟨q, s₁, ?_⟩
  exact
    { ready := fun p => Links.Rings.ring inv.repr (isHead_ready p)
      pending := Links.Rings.ring inv.repr isHead_pending
      once := fun t => by
        have mem : t ∈ q.all ↔ t ∈ s.attached := Queues.mem_all.trans (inv.has_iff t)
        split
        · rename_i inside
          exact List.count_eq_one_of_mem inv.repr.nodup_all (mem.mpr inside)
        · rename_i outside
          exact List.count_eq_zero_of_not_mem (fun inside => outside (mem.mp inside))
      own := fun p t inside => inv.own inside
      check := check
      woken := fun p => Links.Rings.ring checked.repr (isHead_ready p)
      asleep := Links.Rings.ring checked.repr isHead_pending }

end Safety

/-! ## Two tasks -/

/-- The idle task `false` and one other task of priority 3, under a clock that ticks with
every reading. -/
def twoTasks : SchedSetup Bool where
  tcb t := ⟨if t then 3 else 31, 0, .inactive⟩
  idle := false
  links := ⟨id, id⟩
  clock n := BitVec.ofNat 64 (min n (2 ^ 62) + 1)
  fresh _ := rfl
  positive n := by
    rw [BitVec.toNat_ofNat]
    omega
  monotone n m le := by
    simp only [BitVec.toNat_ofNat]
    omega
  small n := by
    rw [BitVec.toNat_ofNat]
    omega

theorem twoTasks_atSchedule : AtSchedule twoTasks
    (attachNew (schedInit twoTasks.links twoTasks.tcb twoTasks.idle) true) :=
  .tick (.attach .init (by decide))

theorem twoTasks_strictPriority :
    ∃ s₁ least s', schedPendingCheck twoTasks.clock
        (attachNew (schedInit twoTasks.links twoTasks.tcb twoTasks.idle) true) = .ok s₁ ∧
      schedule twoTasks.clock
        (attachNew (schedInit twoTasks.links twoTasks.tcb twoTasks.idle) true) = .ok s' ∧
      StrictPriority twoTasks.clock s₁ least s' :=
  schedule_strictPriority twoTasks_atSchedule

theorem twoTasks_tasksPlaced :
    ∃ q s₁, TasksPlaced twoTasks.clock
      (attachNew (schedInit twoTasks.links twoTasks.tcb twoTasks.idle) true) q s₁ :=
  sched_tasksPlaced twoTasks_atSchedule

end Chinos
