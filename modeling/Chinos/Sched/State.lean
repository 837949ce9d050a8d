import Chinos.Sched.Sleep

/-!
# What `task_state` says

`task_state` is written by `sched_attach`, by `sched_sleep`, and by `schedule` for the task
that it switches to. A `schedule` that keeps the current task has just put it back on its
ready queue, with the state that goes with it, and writes nothing.
-/

namespace Chinos

section State

variable {T : Type} [DecidableEq T] {setup : SchedSetup T} {clock : Nat → BitVec 64}
  {s s₁ s' : Sched T} {q q' : Queues T} {t u : T} {p least : Priority}

/-- The field `task->task_state` of a task. -/
def Sched.state (s : Sched T) (t : T) : TaskState := (s.tcb t).taskState

/-- Task `t` is on one of the ready queues. -/
def Sched.OnReady (s : Sched T) (t : T) : Prop := ∃ p ts, s.Holds (.ready p) ts ∧ t ∈ ts

/-- The reading that `sched_pending_check` takes for `t`, if the pending queue has the tasks
`ts`. -/
def Sched.readingFor (s : Sched T) (clock : Nat → BitVec 64) (ts : List T) (t : T) : Nat :=
  (clock (s.reads + ts.idxOf t)).toNat

/-- What every `task_state` should say in `s'`, at the end of a `schedule` that was called in
`s` with tasks `before` on the pending queue. A deadline has passed if it lies before the
reading that the call took for the task. -/
structure StatesTrue (clock : Nat → BitVec 64) (s : Sched T) (before : List T) (s' : Sched T) :
    Prop where
  running : s'.state s'.current = .running
  alone : ∀ t, s'.state t = .running → t = s'.current
  ready : ∀ t, s'.state t = .readytorun ↔ s'.OnReady t ∧ t ≠ s'.current
  sleeping : ∀ t, s'.state t = .sleeping ↔
    (∃ ts, s'.Holds .pending ts ∧ t ∈ ts) ∧ s.readingFor clock before t ≤ s'.deadline t

/-- Task `t` is ready, or is one of the pending tasks and due. -/
def Runnable (clock : Nat → BitVec 64) (s : Sched T) (pending : List T) (t : T) : Prop :=
  s.OnReady t ∨ t ∈ pending ∧ s.deadline t < s.readingFor clock pending t

/-! ## Who writes it -/

theorem setState_state (s : Sched T) (t : T) (state : TaskState) (u : T) :
    (s.setState t state).state u = if u = t then state else s.state u := by
  unfold Sched.setState Sched.state
  simp only [Function.update_apply]
  split
  · rfl
  · rfl

theorem schedAttach_state (s : Sched T) (t u : T) :
    (schedAttach s t).state u = if u = t then .readytorun else s.state u := by
  unfold schedAttach
  rw [raise_eq]
  exact setState_state s t .readytorun u

theorem schedWake_state (s : Sched T) (t u : T) : (schedWake s t).state u = s.state u := by
  unfold schedWake
  rw [raise_eq]
  rfl

theorem switchTo_state (s : Sched T) (t u : T) :
    (switchTo s t).state u = if u = t then .running else s.state u :=
  setState_state s t .running u

theorem lower_state (s : Sched T) (p : Priority) (u : T) : (s.lower p).state u = s.state u := by
  cases empty : s.links.isEmpty (.ready p) with
  | false => rw [lower_of_busy empty]
  | true =>
    rw [lower_of_empty empty]
    rfl

theorem sysNanosleep_state (clock : Nat → BitVec 64) (tvSec tvNsec : BitVec 64) (s : Sched T)
    (u : T) : (sysNanosleep clock tvSec tvNsec s).state u =
      if u = s.current then .sleeping else s.state u := by
  have slept : ∀ s₁ : Sched T, (schedSleep s₁ s.current).state u =
      if u = s.current then .sleeping else s₁.state u := by
    intro s₁
    rw [schedSleep_eq]
    refine (lower_state _ _ u).trans ?_
    exact setState_state s₁ s.current .sleeping u
  refine (slept (beforeSleep clock tvSec tvNsec s)).trans ?_
  by_cases here : u = s.current
  · rw [if_pos here, if_pos here]
  · rw [if_neg here, if_neg here]
    unfold beforeSleep Sched.setReadytime Sched.state
    simp only [Function.update_apply, if_neg here]

theorem checkTask_same (clock : Nat → BitVec 64) (s : Sched T) (t : T) :
    s.Same (checkTask clock s t) ∧ (checkTask clock s t).reads = s.reads + 1 := by
  by_cases late : s.late clock s.reads t
  · rw [checkTask_of_late late]
    unfold schedAttach schedWake
    simp only [raise_eq]
    exact ⟨⟨(s.same_setState t .readytorun).prio, (s.same_setState t .readytorun).deadline, rfl,
      rfl⟩, rfl⟩
  · rw [checkTask_of_early late]
    exact ⟨⟨fun _ => rfl, fun _ => rfl, rfl, rfl⟩, rfl⟩

/-- `sched_pending_check` makes the late tasks `TSTATE_TASK_READYTORUN`, and leaves the states of
the others alone. -/
theorem foldl_checkTask_state (ts : List T) : ∀ s : Sched T,
    (ts.foldl (checkTask clock) s).state u =
      if u ∈ lateTasks (s.late clock) s.reads ts then .readytorun else s.state u := by
  induction ts with
  | nil =>
    intro s
    rw [if_neg (by simp [lateTasks])]
    rfl
  | cons t ts ih =>
    intro s
    obtain ⟨same, reads⟩ := checkTask_same clock s t
    have split : lateTasks (s.late clock) s.reads (t :: ts) =
        if s.late clock s.reads t then t :: lateTasks (s.late clock) (s.reads + 1) ts
        else lateTasks (s.late clock) (s.reads + 1) ts := rfl
    rw [List.foldl_cons, ih, same.late, reads, split]
    by_cases late : s.late clock s.reads t
    · rw [if_pos late, checkTask_of_late late, schedAttach_state, schedWake_state]
      by_cases here : u = t
      · rw [if_pos here, if_pos (List.mem_cons.mpr (.inl here)), ite_self]
      · rw [if_neg here]
        simp only [List.mem_cons, here, false_or]
        rfl
    · rw [if_neg late, checkTask_of_early late]
      rfl

/-! ## Between the steps of a run -/

/-- What `task_state` says whenever `schedule` is called: the pending tasks are asleep, but for
tasks that `schedule` switched to, which are due. -/
structure StateInv (setup : SchedSetup T) (q : Queues T) (s : Sched T) : Prop where
  ready : ∀ {p t}, t ∈ q.ready p → s.state t = .readytorun
  pending : ∀ t ∈ q.pending, s.state t = .sleeping ∨ s.state t = .running ∧ setup.Due s t
  off : ∀ t, ¬ q.Has t → s.state t = .inactive

/-- The states once `sched_pending_check` has put every task that is due on its queue. -/
structure StatesChecked (q : Queues T) (s : Sched T) : Prop where
  ready : ∀ {p t}, t ∈ q.ready p → s.state t = .readytorun
  pending : ∀ t ∈ q.pending, s.state t = .sleeping
  off : ∀ t, ¬ q.Has t → s.state t = .inactive

omit [DecidableEq T] in
theorem StatesChecked.readytorun_iff (states : StatesChecked q s) :
    s.state u = .readytorun ↔ ∃ p, u ∈ q.ready p := by
  constructor
  · intro state
    by_contra notReady
    by_cases inPending : u ∈ q.pending
    · cases state.symm.trans (states.pending u inPending)
    · cases state.symm.trans (states.off u (not_or.mpr ⟨inPending, notReady⟩))
  · rintro ⟨p, inside⟩
    exact states.ready inside

omit [DecidableEq T] in
theorem StatesChecked.sleeping_iff (states : StatesChecked q s) :
    s.state u = .sleeping ↔ u ∈ q.pending := by
  constructor
  · intro state
    by_contra notPending
    by_cases onReady : ∃ p, u ∈ q.ready p
    · cases state.symm.trans (states.readytorun_iff.mpr onReady)
    · cases state.symm.trans (states.off u (not_or.mpr ⟨notPending, onReady⟩))
  · exact states.pending u

omit [DecidableEq T] in
theorem StatesChecked.ne_running (states : StatesChecked q s) : s.state u ≠ .running := by
  intro state
  by_cases has : q.Has u
  · rcases has with inPending | onReady
    · cases state.symm.trans (states.pending u inPending)
    · cases state.symm.trans (states.readytorun_iff.mpr onReady)
  · cases state.symm.trans (states.off u has)

omit [DecidableEq T] in
theorem StatesChecked.stateInv (states : StatesChecked q s) : StateInv setup q s :=
  ⟨states.ready, fun t inside => .inl (states.pending t inside), states.off⟩

theorem StateInv.check (states : StateInv setup q s) (inv : SchedInv setup q s)
    (check : schedPendingCheck setup.clock s = .ok s₁)
    (repr₁ : Represents s₁.links (q.check setup.clock s)) :
    StatesChecked (q.check setup.clock s) s₁ := by
  have run := @schedPendingCheck_eq_foldl T _ s q setup.clock inv.repr
    (inv.toQueueInv.length_le inv.repr.nodup_pending (fun t inside => .inl inside))
  cases run.symm.trans check
  have late : ∀ n, ∀ t ∈ q.pending,
      s.late setup.clock n t = decide (s.deadline t < (setup.clock n).toNat) :=
    fun n t _ => Sched.late_iff (inv.small t) (setup.small n)
  have state_eq : ∀ u, (q.pending.foldl (checkTask setup.clock) s).state u =
      if u ∈ dueTasks setup.clock s.deadline s.reads q.pending then .readytorun
      else s.state u := by
    intro u
    rw [foldl_checkTask_state, (lateTasks_eq_due late s.reads).1]
  have isPending : ∀ {u}, u ∈ dueTasks setup.clock s.deadline s.reads q.pending →
      u ∈ q.pending := fun isDue => (mem_due_or_sleeping _ _ _).mpr (.inl isDue)
  refine ⟨fun {p t} inside => ?_, fun t inside => ?_, fun t absent => ?_⟩
  · rw [state_eq]
    rcases mem_check_ready.mp inside with old | ⟨isDue, -⟩
    · rw [states.ready old, ite_self]
    · rw [if_pos isDue]
  · have asleep : t ∉ dueTasks setup.clock s.deadline s.reads q.pending := by
      exact fun isDue => repr₁.pending_apart inside (mem_check_ready.mpr (.inr ⟨isDue, rfl⟩))
    rw [state_eq, if_neg asleep]
    have inPending : t ∈ q.pending := (mem_due_or_sleeping _ _ _).mpr (.inr inside)
    rcases states.pending t inPending with sleeping | ⟨-, isDue⟩
    · exact sleeping
    · -- a task that is due at every reading does not stay behind
      exact absurd (mem_due_of_always inPending fun m after => isDue m (by omega)) asleep
  · have absent' : ¬ q.Has t := fun has => absent (check_has_iff.mpr has)
    rw [state_eq, if_neg (fun isDue => absent' (.inl (isPending isDue)))]
    exact states.off t absent'

/-- The task that `schedule` switches to is running, and due. -/
theorem StatesChecked.switch (states : StatesChecked q s) (inv : SchedInv setup q s)
    (inReady : t ∈ q.ready p) :
    StateInv setup ((q.remove t).pushPending t) (switchTo s t) := by
  have has : q.Has t := .inr ⟨p, inReady⟩
  refine ⟨fun {p' u} inside => ?_, fun u inside => ?_, fun u absent => ?_⟩
  · obtain ⟨ne, old⟩ := inv.repr.nodup_ready.mem_erase_iff.mp inside
    rw [switchTo_state, if_neg ne]
    exact states.ready old
  · rw [switchTo_state]
    by_cases here : u = t
    · rw [if_pos here, here]
      exact .inr ⟨rfl, (inv.due inReady).later ((switchTo_same s t).deadline t) le_rfl⟩
    · rw [if_neg here]
      rcases List.mem_append.mp inside with old | new
      · exact .inl (states.pending u (List.mem_of_mem_erase old))
      · exact absurd (List.mem_singleton.mp new) here
  · have absent' : ¬ q.Has u := fun has' => absent ((inv.repr.requeue_has_iff has).mpr has')
    have ne : u ≠ t := by
      rintro rfl
      exact absent' has
    rw [switchTo_state, if_neg ne]
    exact states.off u absent'

theorem StateInv.attach (states : StateInv setup q s) (inv : SchedInv setup q s)
    (new : t ∉ s.attached) : StateInv setup (q.pushReady (s.prio t) t) (attachNew s t) := by
  have absent : ¬ q.Has t := fun has => new ((inv.has_iff t).mp has)
  have raised := schedAttach_raised inv.repr absent
  have state_eq : ∀ u, (attachNew s t).state u = if u = t then .readytorun else s.state u :=
    schedAttach_state s t
  refine ⟨fun {p u} inside => ?_, fun u inside => ?_, fun u absent' => ?_⟩
  · rw [state_eq]
    rcases Queues.mem_pushReady.mp inside with old | ⟨here, -⟩
    · rw [states.ready old, ite_self]
    · rw [if_pos here]
  · have ne : u ≠ t := by
      rintro rfl
      exact absent (.inl inside)
    rw [state_eq, if_neg ne]
    refine (states.pending u inside).imp id fun ⟨isRunning, isDue⟩ => ⟨isRunning, ?_⟩
    exact isDue.later (raised.same.deadline u) raised.reads.ge
  · rw [Queues.pushReady_has_iff, not_or] at absent'
    rw [state_eq, if_neg absent'.1]
    exact states.off u absent'.2

theorem StateInv.nanosleep {tvSec tvNsec : BitVec 64} (states : StateInv setup q s)
    (inv : SchedInv setup q s) :
    StateInv setup ((q.remove s.current).pushPending s.current)
      (sysNanosleep setup.clock tvSec tvNsec s) := by
  have has : q.Has s.current := (inv.has_iff _).mpr inv.current
  have lowered : Lowered s s.current q _ (sysNanosleep setup.clock tvSec tvNsec s) :=
    sysNanosleep_lowered inv.repr has
  refine ⟨fun {p u} inside => ?_, fun u inside => ?_, fun u absent => ?_⟩
  · obtain ⟨ne, old⟩ := inv.repr.nodup_ready.mem_erase_iff.mp inside
    rw [sysNanosleep_state, if_neg ne]
    exact states.ready old
  · rw [sysNanosleep_state]
    by_cases here : u = s.current
    · rw [if_pos here]
      exact .inl rfl
    · rw [if_neg here]
      rcases List.mem_append.mp inside with old | new
      · refine (states.pending u (List.mem_of_mem_erase old)).imp id
          fun ⟨isRunning, isDue⟩ => ⟨isRunning, ?_⟩
        exact isDue.later (lowered.deadline u here) lowered.reads
      · exact absurd (List.mem_singleton.mp new) here
  · have absent' : ¬ q.Has u := fun has' => absent ((inv.repr.requeue_has_iff has).mpr has')
    have ne : u ≠ s.current := by
      rintro rfl
      exact absent' has
    rw [sysNanosleep_state, if_neg ne]
    exact states.off u absent'

theorem StateInv.init (created : ∀ t, (setup.tcb t).taskState = .inactive) :
    StateInv setup (Queues.empty.pushReady (setup.tcb setup.idle).schedPriority setup.idle)
      (schedInit setup.links setup.tcb setup.idle) := by
  have state_eq : ∀ u, (schedInit setup.links setup.tcb setup.idle).state u =
      if u = setup.idle then .readytorun else (setup.tcb u).taskState :=
    schedAttach_state (beforeInit setup.links setup.tcb setup.idle) setup.idle
  refine ⟨fun {p u} inside => ?_, fun u inside => ?_, fun u absent => ?_⟩
  · rcases Queues.mem_pushReady.mp inside with old | ⟨here, -⟩
    · cases old
    · rw [state_eq, if_pos here]
  · cases inside
  · rw [Queues.pushReady_has_iff, not_or] at absent
    rw [state_eq, if_neg absent.1, created]

/-! ## One call of `schedule` -/

/-- `schedule` keeps the current task if it is alone on the queue that was selected, and else
switches to another task of this queue. -/
theorem Scheduled.cases (scheduled : Scheduled setup s q s₁ least q' s') :
    (s' = s₁ ∧ ∀ t ∈ (q.check setup.clock s).ready least, t = s.current) ∨
      ∃ t ∈ (q.check setup.clock s).ready least, t ≠ s.current ∧ s' = switchTo s₁ t := by
  have loop := scheduled.checked.toQueueInv.readyLoop_eq least s.current
  have run := schedule_eq scheduled.check scheduled.select loop
  have same := Except.ok.inj (scheduled.run.symm.trans run)
  cases found : ((q.check setup.clock s).ready least).find? (fun t => s.current ≠ t) with
  | none =>
    rw [found] at same
    refine .inl ⟨same, fun t inside => ?_⟩
    have only := List.find?_eq_none.mp found t inside
    exact (show s.current = t by simpa using only).symm
  | some t =>
    rw [found] at same
    have other := List.find?_some found
    refine .inr ⟨t, List.mem_of_find?_eq_some found, ?_, same⟩
    exact fun isCurrent => of_decide_eq_true other isCurrent.symm

/-- The states at the next call, whatever `schedule` did. -/
theorem StateInv.schedule (states : StateInv setup q s) (inv : SchedInv setup q s)
    (run : schedule setup.clock s = .ok s') :
    ∃ q', SchedInv setup q' s' ∧ StateInv setup q' s' := by
  obtain ⟨s₁, least, q₁, s₂, scheduled⟩ := inv.schedule
  cases scheduled.run.symm.trans run
  have checked := states.check inv scheduled.check scheduled.checked.repr
  rcases scheduled.cases with ⟨rfl, -⟩ | ⟨t, inside, -, rfl⟩
  · exact ⟨_, scheduled.checked, checked.stateInv⟩
  · exact ⟨_, scheduled.checked.switch scheduled.bits inside,
      checked.switch scheduled.checked inside⟩

theorem SchedReach.states (created : ∀ t, (setup.tcb t).taskState = .inactive)
    (reach : SchedReach setup s) : ∃ q, SchedInv setup q s ∧ StateInv setup q s := by
  induction reach with
  | init => exact ⟨_, SchedInv.init setup, StateInv.init created⟩
  | attach _ new ih =>
    obtain ⟨q, inv, states⟩ := ih
    exact ⟨_, inv.attach new, states.attach inv new⟩
  | tick _ run ih =>
    obtain ⟨q, inv, states⟩ := ih
    exact states.schedule inv run
  | sleep _ notIdle small run ih =>
    obtain ⟨q, inv, states⟩ := ih
    exact (states.nanosleep inv).schedule (inv.nanosleep notIdle small) run

theorem AtSchedule.states (created : ∀ t, (setup.tcb t).taskState = .inactive)
    (atCall : AtSchedule setup s) : ∃ q, SchedInv setup q s ∧ StateInv setup q s := by
  cases atCall with
  | tick reach => exact reach.states created
  | sleep reach notIdle small =>
    obtain ⟨q, inv, states⟩ := reach.states created
    exact ⟨_, inv.nanosleep notIdle small, states.nanosleep inv⟩

omit [DecidableEq T] in
theorem Represents.onReady_iff (repr : Represents s.links q) :
    s.OnReady t ↔ ∃ p, t ∈ q.ready p := by
  constructor
  · rintro ⟨p, ts, holds, inside⟩
    exact ⟨p, repr.holds_iff.mp holds ▸ inside⟩
  · rintro ⟨p, inside⟩
    exact ⟨p, _, repr.holds_iff.mpr rfl, inside⟩

/-- The pending tasks that are due are those whose deadline lies before the reading taken for
them. -/
theorem SchedInv.mem_due_iff (inv : SchedInv setup q s) (inPending : t ∈ q.pending) :
    t ∈ dueTasks setup.clock s.deadline s.reads q.pending ↔
      s.deadline t < s.readingFor setup.clock q.pending t := by
  have late : ∀ n, ∀ t ∈ q.pending,
      s.late setup.clock n t = decide (s.deadline t < (setup.clock n).toNat) :=
    fun n t _ => Sched.late_iff (inv.small t) (setup.small n)
  rw [← (lateTasks_eq_due late s.reads).1, mem_lateTasks_iff inv.repr.nodup_pending inPending,
    late _ t inPending, decide_eq_true_iff]
  rfl

/-- The runnable tasks are those on a ready queue after the check. -/
theorem SchedInv.runnable_iff (inv : SchedInv setup q s) :
    Runnable setup.clock s q.pending t ↔ t ∈ (q.check setup.clock s).ready (s.prio t) := by
  unfold Runnable
  rw [inv.repr.onReady_iff, mem_check_ready]
  constructor
  · rintro (⟨p, inside⟩ | ⟨inPending, isDue⟩)
    · exact .inl (inv.own inside ▸ inside)
    · exact .inr ⟨(inv.mem_due_iff inPending).mpr isDue, rfl⟩
  · rintro (inside | ⟨isDue, -⟩)
    · exact .inl ⟨_, inside⟩
    · have inPending : t ∈ q.pending := (mem_due_or_sleeping _ _ _).mpr (.inl isDue)
      exact .inr ⟨inPending, (inv.mem_due_iff inPending).mp isDue⟩

/-- Of the runnable tasks, the most urgent are those on the queue that `schedule` selects. -/
theorem Scheduled.mostUrgent_iff (scheduled : Scheduled setup s q s₁ least q' s')
    (inv : SchedInv setup q s) :
    Runnable setup.clock s q.pending t ∧
        (∀ u, Runnable setup.clock s q.pending u → s.prio t ≤ s.prio u) ↔
      t ∈ (q.check setup.clock s).ready least := by
  have own : ∀ {p u}, u ∈ (q.check setup.clock s).ready p → s.prio u = p := by
    intro p u inside
    rcases mem_check_ready.mp inside with old | ⟨-, prio⟩
    · exact inv.own old
    · exact prio
  have lowest : ∀ u, Runnable setup.clock s q.pending u → least ≤ s.prio u := fun u isRunnable =>
    scheduled.least_le _ (List.ne_nil_of_mem (inv.runnable_iff.mp isRunnable))
  constructor
  · rintro ⟨isRunnable, first⟩
    obtain ⟨u, inside⟩ := List.exists_mem_of_ne_nil _ scheduled.nonempty
    have prio := own inside
    have le := first u (inv.runnable_iff.mpr (prio ▸ inside))
    have same : s.prio t = least := le_antisymm (prio ▸ le) (lowest t isRunnable)
    exact same ▸ inv.runnable_iff.mp isRunnable
  · intro inside
    have prio := own inside
    refine ⟨inv.runnable_iff.mpr (prio ▸ inside), fun u isRunnable => ?_⟩
    rw [prio]
    exact lowest u isRunnable

/-- After a switch all states are as they should be. -/
theorem StatesChecked.statesTrue (states : StatesChecked (q.check setup.clock s) s₁)
    (inv : SchedInv setup q s) (inv₁ : SchedInv setup (q.check setup.clock s) s₁)
    (deadline : ∀ u, s₁.deadline u = s.deadline u)
    (inReady : t ∈ (q.check setup.clock s).ready p) :
    StatesTrue setup.clock s q.pending (switchTo s₁ t) := by
  have has : (q.check setup.clock s).Has t := .inr ⟨p, inReady⟩
  have repr' := switchTo_spec inv₁.repr has
  have own_state : (switchTo s₁ t).state t = .running := by
    rw [switchTo_state, if_pos rfl]
  have deadline' : ∀ u, (switchTo s₁ t).deadline u = s.deadline u := fun u =>
    ((switchTo_same s₁ t).deadline u).trans (deadline u)
  have passed : s.deadline t < s.readingFor setup.clock q.pending t := by
    rcases mem_check_ready.mp inReady with old | ⟨isDue, -⟩
    · exact inv.due old _ (by omega)
    · exact (inv.mem_due_iff ((mem_due_or_sleeping _ _ _).mpr (.inl isDue))).mp isDue
  -- another task has the state that the check left it with
  have others : ∀ u, u ≠ t → (switchTo s₁ t).state u = s₁.state u := fun u ne => by
    rw [switchTo_state, if_neg ne]
  refine ⟨own_state, fun u isRunning => ?_, fun u => ?_, fun u => ?_⟩
  · by_contra ne
    rw [others u ne] at isRunning
    exact states.ne_running isRunning
  · by_cases here : u = t
    · rw [here, own_state]
      exact iff_of_false (fun impossible => by cases impossible) fun ⟨_, ne⟩ => ne rfl
    · rw [others u here, states.readytorun_iff, repr'.onReady_iff]
      refine ⟨fun ⟨p', inside⟩ => ⟨⟨p', (List.mem_erase_of_ne here).mpr inside⟩, here⟩, ?_⟩
      rintro ⟨⟨p', inside⟩, -⟩
      exact ⟨p', List.mem_of_mem_erase inside⟩
  · rw [deadline']
    by_cases here : u = t
    · rw [here, own_state]
      exact iff_of_false (fun impossible => by cases impossible)
        fun ⟨_, later⟩ => absurd passed (not_lt_of_ge later)
    · rw [others u here, states.sleeping_iff]
      constructor
      · intro inside
        refine ⟨⟨_, repr'.holds_pending_iff.mpr rfl,
          List.mem_append_left _ ((List.mem_erase_of_ne here).mpr inside)⟩, ?_⟩
        have inPending : u ∈ q.pending := (mem_due_or_sleeping _ _ _).mpr (.inr inside)
        refine not_lt.mp fun isPassed => ?_
        have isDue := (inv.mem_due_iff inPending).mpr isPassed
        exact inv₁.repr.pending_apart inside (mem_check_ready.mpr (.inr ⟨isDue, rfl⟩))
      · rintro ⟨⟨ts, holds, inside⟩, -⟩
        rw [repr'.holds_pending_iff.mp holds] at inside
        rcases List.mem_append.mp inside with old | new
        · exact List.mem_of_mem_erase old
        · exact absurd (List.mem_singleton.mp new) here

/-- At the end of a `schedule` the states are as they should be exactly if a task other than
the current one is among the most urgent runnable tasks, so that there is a switch. -/
theorem states_true_iff (created : ∀ t, (setup.tcb t).taskState = .inactive)
    (atCall : AtSchedule setup s) :
    ∃ before s', s.Holds .pending before ∧ schedule setup.clock s = .ok s' ∧
      (StatesTrue setup.clock s before s' ↔ ∃ t, t ≠ s.current ∧
        Runnable setup.clock s before t ∧
        ∀ u, Runnable setup.clock s before u → s.prio t ≤ s.prio u) := by
  obtain ⟨q, inv, states⟩ := atCall.states created
  obtain ⟨s₁, least, q', s', scheduled⟩ := inv.schedule
  have checked := states.check inv scheduled.check scheduled.checked.repr
  refine ⟨q.pending, s', inv.repr.holds_pending_iff.mpr rfl, scheduled.run, ?_⟩
  obtain ⟨s₂, check, effect, -⟩ := inv.check
  cases check.symm.trans scheduled.check
  rcases scheduled.cases with ⟨rfl, alone⟩ | ⟨t, inside, other, rfl⟩
  · -- no task is running after the check, and the current one is not made to
    refine iff_of_false (fun truth => ?_) ?_
    · exact checked.ne_running truth.running
    · rintro ⟨u, ne, urgent⟩
      exact ne (alone u ((scheduled.mostUrgent_iff inv).mp urgent))
  · refine iff_of_true ?_ ⟨t, other, (scheduled.mostUrgent_iff inv).mpr inside⟩
    exact checked.statesTrue inv scheduled.checked effect.same.deadline inside

end State

/-- The first `schedule` after task `true` is attached switches to it, and leaves every state as
it should be. -/
theorem twoTasks_states_true : ∃ before s',
    (attachNew (schedInit twoTasks.links twoTasks.tcb twoTasks.idle) true).Holds .pending before ∧
    schedule twoTasks.clock
      (attachNew (schedInit twoTasks.links twoTasks.tcb twoTasks.idle) true) = .ok s' ∧
    StatesTrue twoTasks.clock
      (attachNew (schedInit twoTasks.links twoTasks.tcb twoTasks.idle) true) before s' := by
  have onReady : (attachNew (schedInit twoTasks.links twoTasks.tcb twoTasks.idle) true).OnReady
      true := by
    refine ⟨3, [true], ⟨by decide, ?_⟩, .head _⟩
    exact ⟨⟨by decide +kernel, by decide +kernel⟩, by decide +kernel, by decide +kernel⟩
  have other : true ≠
      (attachNew (schedInit twoTasks.links twoTasks.tcb twoTasks.idle) true).current := by
    decide +kernel
  have urgent : ∀ u,
      (attachNew (schedInit twoTasks.links twoTasks.tcb twoTasks.idle) true).prio true ≤
        (attachNew (schedInit twoTasks.links twoTasks.tcb twoTasks.idle) true).prio u := by
    decide +kernel
  obtain ⟨before, s', holds, run, true_iff⟩ := states_true_iff (fun _ => rfl) twoTasks_atSchedule
  exact ⟨before, s', holds, run,
    true_iff.mpr ⟨true, other, .inl onReady, fun u _ => urgent u⟩⟩

/-- The idle task alone: the first `schedule` keeps it, as a task that is ready to run. -/
theorem idle_not_running :
    AtSchedule twoTasks (schedInit twoTasks.links twoTasks.tcb twoTasks.idle) ∧
    Returns (schedule twoTasks.clock (schedInit twoTasks.links twoTasks.tcb twoTasks.idle))
      fun s => s.current = false ∧ s.state false = .readytorun :=
  ⟨.tick .init, by decide +kernel⟩

end Chinos
