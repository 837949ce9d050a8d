import Chinos.Sched.Refine

/-!
# Runs of the scheduler

A run starts with `sched_init` and goes on with newly attached tasks, timer ticks,
and sleeps of the current task. One invariant holds at every call of `schedule`. It
says where tasks are, that ready tasks are due, and how the bitmap may lag behind
the queues: the bit of the current task's priority stays set after its queue has run
empty, because the task is due and the next check of the pending queue brings it back.
-/

namespace Chinos

section Run

variable {T : Type}

/-- What a run starts from: tasks that have not slept yet, a positive non-decreasing
clock below `2 ^ 63`, and whatever the list nodes hold before `sched_init`. -/
structure SchedSetup (T : Type) where
  tcb : T → Tcb
  idle : T
  links : Links (Node T)
  clock : Nat → BitVec 64
  fresh : ∀ t, (tcb t).readytime = 0
  positive : ∀ n, 0 < (clock n).toNat
  monotone : Monotone fun n => (clock n).toNat
  small : ∀ n, (clock n).toNat < 2 ^ 63

variable {setup : SchedSetup T} {s s' : Sched T} {q : Queues T} {t : T} {p : Priority}

/-- The deadline of `t` lies before the last clock reading, and all later ones. -/
def SchedSetup.Due (setup : SchedSetup T) (s : Sched T) (t : T) : Prop :=
  ∀ n, s.reads ≤ n + 1 → s.deadline t < (setup.clock n).toNat

theorem SchedSetup.due_of_zero (setup : SchedSetup T) (zero : s.deadline t = 0) :
    setup.Due s t := by
  intro n _
  rw [zero]
  exact setup.positive n

theorem SchedSetup.Due.later (due : setup.Due s t) (deadline : s'.deadline t = s.deadline t)
    (reads : s.reads ≤ s'.reads) : setup.Due s' t := by
  intro n after
  rw [deadline]
  exact due n (by omega)

/-! ## Which tasks are due -/

theorem mem_due_or_sleeping (clock : Nat → BitVec 64) (deadline : T → Nat) (n : Nat)
    {ts : List T} :
    t ∈ ts ↔ t ∈ dueTasks clock deadline n ts ∨ t ∈ sleepingTasks clock deadline n ts :=
  mem_late_or_early _ n

theorem dueTasks_cons (clock : Nat → BitVec 64) (deadline : T → Nat) (n : Nat) (ts : List T) :
    dueTasks clock deadline n (t :: ts) =
      if deadline t < (clock n).toNat then t :: dueTasks clock deadline (n + 1) ts
      else dueTasks clock deadline (n + 1) ts := by
  unfold dueTasks
  rw [lateTasks]
  simp only [decide_eq_true_eq]

/-- A task that is woken was due at one of the readings. -/
theorem SchedSetup.lt_of_mem_due (setup : SchedSetup T) {deadline : T → Nat} {ts : List T} {n : Nat}
    (inside : t ∈ dueTasks setup.clock deadline n ts) {m : Nat} (after : n + ts.length ≤ m + 1) :
    deadline t < (setup.clock m).toNat := by
  induction ts generalizing n with
  | nil => cases inside
  | cons x ts ih =>
    rw [List.length_cons] at after
    rw [dueTasks_cons] at inside
    split at inside
    · rename_i isDue
      rcases List.mem_cons.mp inside with rfl | later
      · exact lt_of_lt_of_le isDue (setup.monotone (by omega))
      · exact ih later (by omega)
    · exact ih inside (by omega)

/-- A task that is due at every reading is woken. -/
theorem mem_due_of_always {clock : Nat → BitVec 64} {deadline : T → Nat} {ts : List T} {n : Nat}
    (inside : t ∈ ts) (always : ∀ m, n ≤ m → deadline t < (clock m).toNat) :
    t ∈ dueTasks clock deadline n ts := by
  induction ts generalizing n with
  | nil => cases inside
  | cons x ts ih =>
    rw [dueTasks_cons]
    rcases List.mem_cons.mp inside with rfl | later
    · rw [if_pos (always n le_rfl)]
      exact .head _
    · have inLater : t ∈ dueTasks clock deadline (n + 1) ts :=
        ih later (fun m after => always m (by omega))
      split
      · exact .tail _ inLater
      · exact inLater

theorem mem_check_ready {clock : Nat → BitVec 64} :
    t ∈ (q.check clock s).ready p ↔
      t ∈ q.ready p ∨ t ∈ dueTasks clock s.deadline s.reads q.pending ∧ s.prio t = p :=
  Queues.mem_wake_ready

theorem check_has_iff {clock : Nat → BitVec 64} : (q.check clock s).Has t ↔ q.Has t :=
  Queues.wake_has_iff (mem_due_or_sleeping clock s.deadline s.reads)

/-! ## The queues at a call of `schedule` -/

/-- The tasks in `on` are the ones on the queues, each on one of them, and the group byte
belongs to the bits. This holds whatever the clock says. -/
structure Queued (on : T → Prop) (q : Queues T) (s : Sched T) : Prop where
  repr : Represents s.links q
  has_iff : ∀ t, q.Has t ↔ on t
  listed : ∀ t, on t → t ∈ s.attached
  group : s.GroupOk

/-- How the queues of the tasks in `on`, the bits and the deadlines belong together
whenever `schedule` is called. -/
structure QueueInv (setup : SchedSetup T) (on : T → Prop) (q : Queues T) (s : Sched T) :
    Prop extends Queued on q s where
  own : ∀ {p t}, t ∈ q.ready p → s.prio t = p
  bit_of_ready : ∀ {p}, q.ready p ≠ [] → s.Bit p
  ready_of_bit : ∀ {p}, s.Bit p → q.ready p ≠ [] ∨
    s.current ∈ q.pending ∧ s.prio s.current = p ∧ setup.Due s s.current
  due : ∀ {p t}, t ∈ q.ready p → setup.Due s t
  small : ∀ t, s.deadline t < 2 ^ 63

variable {on on' : T → Prop}

/-- A queue is never longer than the list of attached tasks. -/
theorem Queued.length_le (queued : Queued on q s) {ts : List T} (distinct : ts.Nodup)
    (has : ∀ t ∈ ts, q.Has t) : ts.length ≤ s.attached.length :=
  (List.subperm_of_subset distinct
    (fun t inside => queued.listed t ((queued.has_iff t).mp (has t inside)))).length_le

variable [DecidableEq T]

/-- After the check, bits and queues agree, and every task that is due is ready. -/
theorem QueueInv.check (inv : QueueInv setup on q s) :
    ∃ s₁, schedPendingCheck setup.clock s = .ok s₁ ∧
      Checked s (dueTasks setup.clock s.deadline s.reads q.pending) q.pending.length
        (q.check setup.clock s) s₁ ∧
      QueueInv setup on (q.check setup.clock s) s₁ ∧
      (∀ p, s₁.Bit p ↔ (q.check setup.clock s).ready p ≠ []) ∧
      (∀ t, on t → (∀ m, s.reads ≤ m → s.deadline t < (setup.clock m).toNat) →
        t ∈ (q.check setup.clock s).ready (s.prio t)) ∧
      ∀ t, ¬ on t → SameNode s.links s₁.links t := by
  obtain ⟨s₁, run, checked, node⟩ := schedPendingCheck_spec setup.small inv.repr
    (inv.length_le inv.repr.nodup_pending (fun t inside => .inl inside))
    (fun t _ => inv.small t)
  have same := checked.same
  have readsLe : s.reads ≤ s₁.reads := by rw [checked.reads]; omega
  have awake : ∀ t, on t → (∀ m, s.reads ≤ m → s.deadline t < (setup.clock m).toNat) →
      t ∈ (q.check setup.clock s).ready (s.prio t) := by
    intro t isOn isDue
    rcases (inv.has_iff t).mpr isOn with inPending | ⟨p, inReady⟩
    · exact mem_check_ready.mpr (.inr ⟨mem_due_of_always inPending isDue, rfl⟩)
    · rw [inv.own inReady]
      exact mem_check_ready.mpr (.inl inReady)
  have own : ∀ {p t}, t ∈ (q.check setup.clock s).ready p → s.prio t = p := by
    intro p t inside
    rcases mem_check_ready.mp inside with old | ⟨-, prio⟩
    · exact inv.own old
    · exact prio
  have bits : ∀ p, s₁.Bit p ↔ (q.check setup.clock s).ready p ≠ [] := by
    intro p
    rw [checked.bit]
    constructor
    · rintro (old | ⟨t, due, prio⟩)
      · rcases inv.ready_of_bit old with nonempty | ⟨inPending, rfl, isDue⟩
        · obtain ⟨t, inside⟩ := List.exists_mem_of_ne_nil _ nonempty
          exact List.ne_nil_of_mem (mem_check_ready.mpr (.inl inside))
        · -- the queue ran empty when the current task was taken from it
          exact List.ne_nil_of_mem (awake _ ((inv.has_iff _).mp (.inl inPending))
            (fun m after => isDue m (by omega)))
      · exact List.ne_nil_of_mem (mem_check_ready.mpr (.inr ⟨due, prio⟩))
    · intro nonempty
      obtain ⟨t, inside⟩ := List.exists_mem_of_ne_nil _ nonempty
      rcases mem_check_ready.mp inside with old | ⟨due, prio⟩
      · exact .inl (inv.bit_of_ready (List.ne_nil_of_mem old))
      · exact .inr ⟨t, due, prio⟩
  refine ⟨s₁, run, checked, ?_, bits, awake,
    fun t off => node t (fun has => off ((inv.has_iff t).mp has))⟩
  refine
    { repr := checked.repr
      has_iff := fun t => check_has_iff.trans (inv.has_iff t)
      listed := fun t isOn => same.attached ▸ inv.listed t isOn
      own := fun inside => (same.prio _).trans (own inside)
      group := checked.group inv.group
      bit_of_ready := fun nonempty => (bits _).mpr nonempty
      ready_of_bit := fun set => .inl ((bits _).mp set)
      due := fun {p t} inside => ?_
      small := fun t => by rw [same.deadline]; exact inv.small t }
  rcases mem_check_ready.mp inside with old | ⟨woken, -⟩
  · exact (inv.due old).later (same.deadline t) readsLe
  · intro n after
    rw [same.deadline]
    exact setup.lt_of_mem_due woken (by rw [← checked.reads]; exact after)

/-- The loop over a ready queue finds the first task of it other than the current one. -/
theorem QueueInv.readyLoop_eq (inv : QueueInv setup on q s) (p : Priority) (current : T) :
    readyLoop p current (s.attached.length + 1) (s.links.next (.ready p))
      (s.links.next (s.links.next (.ready p))) s =
      .ok ((q.ready p).find? (fun t => current ≠ t)) := by
  exact inv.repr.readyLoop_eq current
    (inv.length_le inv.repr.nodup_ready (fun t inside => .inr ⟨p, inside⟩))

/-- A switch to a ready task moves it to the pending queue and keeps the queue invariant. -/
theorem QueueInv.switch (inv : QueueInv setup on q s)
    (bits : ∀ p, s.Bit p ↔ q.ready p ≠ []) (inReady : t ∈ q.ready p) :
    QueueInv setup on ((q.remove t).pushPending t) (switchTo s t) := by
  have has : q.Has t := .inr ⟨p, inReady⟩
  have same := switchTo_same s t
  have stillReady : ∀ {p t'}, t' ∈ ((q.remove t).pushPending t).ready p → t' ∈ q.ready p :=
    fun inside => List.mem_of_mem_erase inside
  exact
    { repr := switchTo_spec inv.repr has
      has_iff := fun t' => (inv.repr.requeue_has_iff has).trans (inv.has_iff t')
      listed := inv.listed
      own := fun inside => (same.prio _).trans (inv.own (stillReady inside))
      group := inv.group
      bit_of_ready := fun nonempty => by
        obtain ⟨t', inside⟩ := List.exists_mem_of_ne_nil _ nonempty
        exact (bits _).mpr (List.ne_nil_of_mem (stillReady inside))
      ready_of_bit := fun {p'} set => by
        by_cases here : t ∈ q.ready p'
        · -- its queue may now be empty, but `t` is pending and due
          refine .inr ⟨List.mem_append.mpr (.inr (.head _)), ?_, ?_⟩
          · exact (same.prio t).trans (inv.own here)
          · exact (inv.due here).later (same.deadline t) le_rfl
        · refine .inl ?_
          have kept : ((q.remove t).pushPending t).ready p' = q.ready p' :=
            List.erase_of_not_mem here
          rw [kept]
          exact (bits p').mp set
      due := fun inside => (inv.due (stillReady inside)).later (same.deadline _) le_rfl
      small := fun t' => (same.deadline t').symm ▸ inv.small t' }

omit [DecidableEq T] in
/-- A task that is due joins its ready queue, at either end. -/
theorem QueueInv.raise (inv : QueueInv setup on q s) {q' : Queues T} (raised : Raised s t q' s')
    (pending : q'.pending = q.pending)
    (ready : ∀ {u p}, u ∈ q'.ready p ↔ u ∈ q.ready p ∨ u = t ∧ p = s.prio t)
    (isDue : setup.Due s t) {attached : List T} (listed : t ∈ attached)
    (more : s.attached ⊆ attached) :
    QueueInv setup (fun u => u = t ∨ on u) q' { s' with attached := attached } := by
  have same := raised.same
  have reads := raised.reads
  exact
    { repr := raised.repr
      has_iff := fun u => by
        rw [Queues.has_iff_of_push q q' pending ready, inv.has_iff]
      listed := by
        rintro u (rfl | isOn)
        · exact listed
        · exact more (inv.listed u isOn)
      own := fun {p u} inside => by
        refine (same.prio u).trans ?_
        rcases ready.mp inside with old | ⟨rfl, here⟩
        · exact inv.own old
        · exact here.symm
      group := raised.group inv.group
      bit_of_ready := fun {p} nonempty => by
        obtain ⟨u, inside⟩ := List.exists_mem_of_ne_nil _ nonempty
        refine (raised.bit p).mpr ?_
        rcases ready.mp inside with old | ⟨-, here⟩
        · exact .inr (inv.bit_of_ready (List.ne_nil_of_mem old))
        · exact .inl here
      ready_of_bit := fun {p} set => by
        rcases (raised.bit p).mp set with here | old
        · exact .inl (List.ne_nil_of_mem (ready.mpr (.inr ⟨rfl, here⟩)))
        · rcases inv.ready_of_bit old with nonempty | ⟨inPending, prio, isDue⟩
          · obtain ⟨u, inside⟩ := List.exists_mem_of_ne_nil _ nonempty
            exact .inl (List.ne_nil_of_mem (ready.mpr (.inl inside)))
          · refine .inr ?_
            simp only [same.current, pending]
            exact ⟨inPending, (same.prio _).trans prio, isDue.later (same.deadline _) reads.ge⟩
      due := fun {p u} inside => by
        rcases ready.mp inside with old | ⟨rfl, -⟩
        · exact (inv.due old).later (same.deadline u) reads.ge
        · exact isDue.later (same.deadline u) reads.ge
      small := fun u => (same.deadline u).symm ▸ inv.small u }

/-- `t` left the queue it was on, if any, and its bit went with it if its ready queue is
empty now. Its deadline may be new. -/
structure Lowered (s : Sched T) (t : T) (q q' : Queues T) (s' : Sched T) : Prop where
  repr : Represents s'.links q'
  ready : ∀ p, q'.ready p = (q.remove t).ready p
  pending : ∀ u, u ≠ t → u ∈ q.pending → u ∈ q'.pending
  prio : ∀ u, s'.prio u = s.prio u
  deadline : ∀ u, u ≠ t → s'.deadline u = s.deadline u
  current : s'.current = s.current
  attached : s'.attached = s.attached
  reads : s.reads ≤ s'.reads
  bit : ∀ p, s'.Bit p ↔ s.Bit p ∧ (p = s.prio t → q'.ready p ≠ [])
  group : s.GroupOk → s'.GroupOk

theorem QueueInv.lower (inv : QueueInv setup on q s) {q' : Queues T}
    (lowered : Lowered s t q q' s') (small : s'.deadline t < 2 ^ 63)
    (has_iff : ∀ u, q'.Has u ↔ on' u) (fewer : ∀ u, on' u → on u) :
    QueueInv setup on' q' s' := by
  have stillReady : ∀ {p u}, u ∈ q'.ready p → u ≠ t ∧ u ∈ q.ready p := by
    intro p u inside
    rw [lowered.ready] at inside
    exact inv.repr.nodup_ready.mem_erase_iff.mp inside
  exact
    { repr := lowered.repr
      has_iff := has_iff
      listed := fun u isOn => lowered.attached ▸ inv.listed u (fewer u isOn)
      own := fun inside => (lowered.prio _).trans (inv.own (stillReady inside).2)
      group := lowered.group inv.group
      bit_of_ready := fun {p} nonempty => by
        obtain ⟨u, inside⟩ := List.exists_mem_of_ne_nil _ nonempty
        exact (lowered.bit p).mpr ⟨inv.bit_of_ready (List.ne_nil_of_mem (stillReady inside).2),
          fun _ => nonempty⟩
      ready_of_bit := fun {p} set => by
        obtain ⟨old, nonempty⟩ := (lowered.bit p).mp set
        by_cases here : p = s.prio t
        · exact .inl (nonempty here)
        · rcases inv.ready_of_bit old with ready | ⟨inPending, prio, isDue⟩
          · have notHere : t ∉ q.ready p := fun inside => here (inv.own inside).symm
            have kept : q'.ready p = q.ready p :=
              (lowered.ready p).trans (List.erase_of_not_mem notHere)
            exact .inl (kept ▸ ready)
          · have ne : s.current ≠ t := by
              rintro same
              exact here (same ▸ prio.symm)
            refine .inr ?_
            rw [lowered.current, lowered.prio]
            exact ⟨lowered.pending _ ne inPending, prio,
              isDue.later (lowered.deadline _ ne) lowered.reads⟩
      due := fun {p u} inside => by
        obtain ⟨ne, old⟩ := stillReady inside
        exact (inv.due old).later (lowered.deadline u ne) lowered.reads
      small := fun u => by
        by_cases eq : u = t
        · exact eq ▸ small
        · rw [lowered.deadline u eq]
          exact inv.small u }

theorem Sched.setReadytime_prio (s : Sched T) (t t' : T) (time : BitVec 64) :
    (s.setReadytime t time).prio t' = s.prio t' := by
  unfold Sched.prio Sched.setReadytime
  simp only [Function.update_apply]
  split
  · rename_i same
    rw [same]
  · rfl

theorem Sched.setReadytime_deadline (s : Sched T) {t t' : T} (ne : t' ≠ t) (time : BitVec 64) :
    (s.setReadytime t time).deadline t' = s.deadline t' := by
  unfold Sched.deadline Sched.setReadytime
  simp only [Function.update_apply, if_neg ne]

/-- The state in which `sys_nanosleep` calls `sched_sleep`, with one more reading taken and the
wake-up time stored. -/
def beforeSleep (clock : Nat → BitVec 64) (tvSec tvNsec : BitVec 64) (s : Sched T) : Sched T :=
  { s with reads := s.reads + 1 }.setReadytime s.current
    (clock s.reads + tvSec * ticksPerS + tvNsec * ticksPerNs)

theorem sysNanosleep_slept {clock : Nat → BitVec 64} {tvSec tvNsec : BitVec 64}
    (repr : Represents s.links q) (has : q.Has s.current) :
    Slept (beforeSleep clock tvSec tvNsec s) s.current q (sysNanosleep clock tvSec tvNsec s) := by
  have repr₁ : Represents (beforeSleep clock tvSec tvNsec s).links q := repr
  exact schedSleep_slept repr₁ has

/-- The effect of `sys_nanosleep`: the current task goes to the end of the pending queue. -/
theorem sysNanosleep_lowered {clock : Nat → BitVec 64} {tvSec tvNsec : BitVec 64}
    (repr : Represents s.links q) (has : q.Has s.current) :
    Lowered s s.current q ((q.remove s.current).pushPending s.current)
      (sysNanosleep clock tvSec tvNsec s) := by
  have slept : Slept (beforeSleep clock tvSec tvNsec s) s.current q
      (sysNanosleep clock tvSec tvNsec s) := sysNanosleep_slept repr has
  exact
    { repr := slept.repr
      ready := fun _ => rfl
      pending := fun u ne inPending =>
        List.mem_append.mpr (.inl ((List.mem_erase_of_ne ne).mpr inPending))
      prio := fun u => (slept.same.prio u).trans (Sched.setReadytime_prio _ _ u _)
      deadline := fun u ne => (slept.same.deadline u).trans (Sched.setReadytime_deadline _ ne _)
      current := slept.same.current
      attached := slept.same.attached
      reads := by
        rw [slept.reads]
        exact Nat.le_succ _
      bit := fun p => by
        rw [slept.bit]
        unfold beforeSleep
        rw [Sched.setReadytime_prio]
        rfl
      group := slept.group }

/-! ## Runs -/

/-- `sched_attach` of a task that is new to the scheduler. -/
def attachNew (s : Sched T) (t : T) : Sched T :=
  { schedAttach s t with attached := t :: s.attached }

/-- The states between the steps of a run: `sched_init`, `sched_attach` of a fresh task,
`schedule` on a timer tick, and `sys_nanosleep` of the current task with its `schedule`. -/
inductive SchedReach (setup : SchedSetup T) : Sched T → Prop
  | init : SchedReach setup (schedInit setup.links setup.tcb setup.idle)
  | attach {s : Sched T} {t : T} :
    SchedReach setup s → t ∉ s.attached → SchedReach setup (attachNew s t)
  | tick {s s' : Sched T} :
    SchedReach setup s → schedule setup.clock s = .ok s' → SchedReach setup s'
  | sleep {s s' : Sched T} {tvSec tvNsec : BitVec 64} :
    SchedReach setup s → s.current ≠ setup.idle →
      (sysNanosleep setup.clock tvSec tvNsec s).deadline s.current < 2 ^ 63 →
      schedule setup.clock (sysNanosleep setup.clock tvSec tvNsec s) = .ok s' →
      SchedReach setup s'

/-- The states in which `schedule` is called: by the timer, or at the end of a system call that
has put the current task to sleep. -/
inductive AtSchedule (setup : SchedSetup T) : Sched T → Prop
  | tick {s : Sched T} : SchedReach setup s → AtSchedule setup s
  | sleep {s : Sched T} {tvSec tvNsec : BitVec 64} : SchedReach setup s → s.current ≠ setup.idle →
      (sysNanosleep setup.clock tvSec tvNsec s).deadline s.current < 2 ^ 63 →
      AtSchedule setup (sysNanosleep setup.clock tvSec tvNsec s)

/-- What holds whenever `schedule` is called, in runs that leave every attached task on a
queue. -/
structure SchedInv (setup : SchedSetup T) (q : Queues T) (s : Sched T) :
    Prop extends QueueInv setup (fun t => t ∈ s.attached) q s where
  nodup : s.attached.Nodup
  fresh : ∀ {t}, t ∉ s.attached → s.deadline t = 0
  idle : setup.idle ∈ s.attached
  idle_fresh : s.deadline setup.idle = 0
  current : s.current ∈ s.attached

/-! ## The steps keep the invariant -/

omit [DecidableEq T] in
/-- The parts of the invariant that are not about queues carry over a step that leaves the rest of
the scheduler alone. -/
theorem SchedInv.of_same (inv : SchedInv setup q s) {q' : Queues T} (same : s.Same s')
    (queues : QueueInv setup (fun t => t ∈ s.attached) q' s') : SchedInv setup q' s' := by
  rw [← same.attached] at queues
  refine ⟨queues, ?_, ?_, ?_, ?_, ?_⟩
  · rw [same.attached]
    exact inv.nodup
  · intro t out
    rw [same.attached] at out
    exact (same.deadline t).trans (inv.fresh out)
  · rw [same.attached]
    exact inv.idle
  · exact (same.deadline _).trans inv.idle_fresh
  · rw [same.current, same.attached]
    exact inv.current

/-- After the check, bits and queues agree, and the idle task is ready. -/
theorem SchedInv.check (inv : SchedInv setup q s) :
    ∃ s₁, schedPendingCheck setup.clock s = .ok s₁ ∧
      Checked s (dueTasks setup.clock s.deadline s.reads q.pending) q.pending.length
        (q.check setup.clock s) s₁ ∧
      SchedInv setup (q.check setup.clock s) s₁ ∧
      (∀ p, s₁.Bit p ↔ (q.check setup.clock s).ready p ≠ []) ∧
      ∃ p, setup.idle ∈ (q.check setup.clock s).ready p := by
  obtain ⟨s₁, run, checked, queues, bits, awake, -⟩ := inv.toQueueInv.check
  refine ⟨s₁, run, checked, inv.of_same checked.same queues, bits, _, awake _ inv.idle ?_⟩
  intro m _
  rw [inv.idle_fresh]
  exact setup.positive m

/-- A switch to a ready task makes it the current one and keeps the invariant. -/
theorem SchedInv.switch (inv : SchedInv setup q s)
    (bits : ∀ p, s.Bit p ↔ q.ready p ≠ []) (inReady : t ∈ q.ready p) :
    SchedInv setup ((q.remove t).pushPending t) (switchTo s t) := by
  have same := switchTo_same s t
  refine ⟨inv.toQueueInv.switch bits inReady, inv.nodup, ?_, inv.idle, ?_, ?_⟩
  · exact fun out => (same.deadline _).trans (inv.fresh out)
  · exact (same.deadline _).trans inv.idle_fresh
  · exact (inv.has_iff t).mp (.inr ⟨p, inReady⟩)

/-- What `schedule` leaves behind, and what it saw when it looked up the priority. -/
structure Scheduled (setup : SchedSetup T) (s : Sched T) (q : Queues T) (s₁ : Sched T)
    (least : Priority) (q' : Queues T) (s' : Sched T) : Prop where
  check : schedPendingCheck setup.clock s = .ok s₁
  checked : SchedInv setup (q.check setup.clock s) s₁
  bits : ∀ p, s₁.Bit p ↔ (q.check setup.clock s).ready p ≠ []
  select : selectPriority s₁ = .ok least
  nonempty : (q.check setup.clock s).ready least ≠ []
  least_le : ∀ p, (q.check setup.clock s).ready p ≠ [] → least ≤ p
  run : schedule setup.clock s = .ok s'
  inv : SchedInv setup q' s'
  due : setup.Due s' s'.current
  prio : s'.prio s'.current = least
  ready : ∀ p, q'.ready p ≠ [] → least ≤ p

/-- `schedule` is its three parts, one after the other: the check, the selection, and the
switch. -/
theorem schedule_eq {clock : Nat → BitVec 64} {s₁ : Sched T} {least : Priority} {next : Option T}
    (check : schedPendingCheck clock s = .ok s₁) (select : selectPriority s₁ = .ok least)
    (loop : readyLoop least s.current (s₁.attached.length + 1) (s₁.links.next (.ready least))
      (s₁.links.next (s₁.links.next (.ready least))) s₁ = .ok next) :
    schedule clock s = .ok (next.elim s₁ (switchTo s₁)) := by
  unfold schedule
  rw [check, ok_bind, select, ok_bind]
  simp only [loop, ok_bind]
  cases next <;> rfl

/-- Under the invariant, `schedule` always returns. -/
theorem SchedInv.schedule (inv : SchedInv setup q s) :
    ∃ s₁ least q' s', Scheduled setup s q s₁ least q' s' := by
  obtain ⟨s₁, check, checked, inv₁, bits, pIdle, idleReady⟩ := inv.check
  obtain ⟨least, select, leastSet, leastLe⟩ :=
    selectPriority_spec inv₁.group ((bits pIdle).mpr (List.ne_nil_of_mem idleReady))
  have nonempty := (bits least).mp leastSet
  have least_le : ∀ p, (q.check setup.clock s).ready p ≠ [] → least ≤ p :=
    fun p h => leastLe p ((bits p).mpr h)
  have loop := inv₁.toQueueInv.readyLoop_eq least s.current
  cases found : ((q.check setup.clock s).ready least).find? (fun t => s.current ≠ t) with
  | none =>
    -- the current task is alone on the queue
    have onlyCurrent := List.find?_eq_none.mp found
    obtain ⟨t, inside⟩ := List.exists_mem_of_ne_nil _ nonempty
    have isCurrent : s.current = t := by simpa using onlyCurrent t inside
    have current₁ : s₁.current = t := checked.same.current.trans isCurrent
    refine ⟨s₁, least, _, s₁, ⟨check, inv₁, bits, select, nonempty, least_le, ?_, inv₁, ?_, ?_,
      least_le⟩⟩
    · rw [schedule_eq check select loop, found]
      rfl
    · rw [current₁]
      exact inv₁.due inside
    · rw [current₁]
      exact inv₁.own inside
  | some t =>
    have inside := List.mem_of_find?_eq_some found
    have same := switchTo_same s₁ t
    refine ⟨s₁, least, _, switchTo s₁ t, ⟨check, inv₁, bits, select, nonempty, least_le, ?_,
      inv₁.switch bits inside, ?_, ?_, ?_⟩⟩
    · rw [schedule_eq check select loop, found]
      rfl
    · exact (inv₁.due inside).later (same.deadline t) le_rfl
    · exact (same.prio t).trans (inv₁.own inside)
    · intro p h
      obtain ⟨t', inside'⟩ := List.exists_mem_of_ne_nil _ h
      exact least_le p (List.ne_nil_of_mem (List.mem_of_mem_erase inside'))

/-- To attach a fresh task keeps the invariant. -/
theorem SchedInv.attach (inv : SchedInv setup q s) (new : t ∉ s.attached) :
    SchedInv setup (q.pushReady (s.prio t) t) (attachNew s t) := by
  have absent : ¬ q.Has t := fun has => new ((inv.has_iff t).mp has)
  have raised := schedAttach_raised inv.repr absent
  have same := raised.same
  have queues := inv.toQueueInv.raise raised rfl Queues.mem_pushReady
    (setup.due_of_zero (inv.fresh new)) (.head s.attached) (List.subset_cons_self t s.attached)
  have joined : (fun u => u = t ∨ u ∈ s.attached) = fun u => u ∈ (attachNew s t).attached := by
    funext u
    exact propext List.mem_cons.symm
  rw [joined] at queues
  refine ⟨queues, List.nodup_cons.mpr ⟨new, inv.nodup⟩, ?_, .tail _ inv.idle, ?_, ?_⟩
  · exact fun {u} out => (same.deadline u).trans (inv.fresh (fun old => out (.tail _ old)))
  · exact (same.deadline _).trans inv.idle_fresh
  · have current : (attachNew s t).current = s.current := same.current
    rw [current]
    exact .tail _ inv.current

/-- Putting the current task to sleep. Its bit goes if its ready queue is empty. -/
theorem SchedInv.nanosleep {tvSec tvNsec : BitVec 64} (inv : SchedInv setup q s)
    (notIdle : s.current ≠ setup.idle)
    (small : (sysNanosleep setup.clock tvSec tvNsec s).deadline s.current < 2 ^ 63) :
    SchedInv setup ((q.remove s.current).pushPending s.current)
      (sysNanosleep setup.clock tvSec tvNsec s) := by
  have has : q.Has s.current := (inv.has_iff _).mpr inv.current
  have lowered : Lowered s s.current q _ (sysNanosleep setup.clock tvSec tvNsec s) :=
    sysNanosleep_lowered inv.repr has
  have queues := inv.toQueueInv.lower lowered small (fun u => inv.repr.requeue_has_iff has |>.trans
    (inv.has_iff u)) (fun _ isOn => isOn)
  have attached := lowered.attached
  rw [← attached] at queues
  refine ⟨queues, attached ▸ inv.nodup, ?_, attached ▸ inv.idle, ?_, ?_⟩
  · intro t out
    rw [attached] at out
    have ne : t ≠ s.current := by
      rintro rfl
      exact out inv.current
    rw [lowered.deadline t ne, inv.fresh out]
  · exact (lowered.deadline _ notIdle.symm).trans inv.idle_fresh
  · rw [lowered.current, attached]
    exact inv.current

/-! ## `sched_init` -/

/-- The queues right after all of their heads are initialised, which are empty. -/
def Queues.empty : Queues T := ⟨fun _ => [], []⟩

theorem initReady_rings {queues : List Priority} :
    ∀ {links : Links (Node T)} {heads : Node T → Prop}, queues.Nodup →
      (∀ p ∈ queues, ¬ heads (.ready p)) → links.Rings heads (fun _ => []) →
      (initReady links queues).Rings (fun h => heads h ∨ ∃ p ∈ queues, h = .ready p)
        (fun _ => []) := by
  induction queues with
  | nil =>
    intro links heads _ _ rings
    exact rings.mono (fun isHead => isHead.resolve_right (by simp))
  | cons p ps ih =>
    intro links heads distinct fresh rings
    obtain ⟨notMem, distinct⟩ := List.nodup_cons.mp distinct
    have first := rings.initHead (fresh p (.head _))
    have freshRest : ∀ p' ∈ ps, ¬ (heads (.ready p') ∨ Node.ready p' = (.ready p : Node T)) := by
      rintro p' inside (old | same)
      · exact fresh p' (.tail _ inside) old
      · exact notMem (Node.ready.inj same ▸ inside)
    refine (ih distinct freshRest first).mono ?_
    rintro h (old | ⟨p', inside, rfl⟩)
    · exact .inl (.inl old)
    · rcases List.mem_cons.mp inside with rfl | later
      · exact .inl (.inr rfl)
      · exact .inr ⟨p', later, rfl⟩

theorem represents_init (links : Links (Node T)) :
    Represents ((initReady links (List.finRange 32)).initHead .pending) Queues.empty := by
  have noRings : links.Rings (fun _ => False) fun _ => [] :=
    ⟨fun impossible => impossible.elim, fun impossible => impossible.elim⟩
  have ready := initReady_rings (List.nodup_finRange 32) (fun _ _ => not_false) noRings
  have all := ready.initHead (h := .pending) (by simp)
  have nodes : (Queues.empty : Queues T).nodes = fun _ => [] := by
    funext h
    cases h <;> rfl
  unfold Represents
  rw [nodes]
  refine all.mono ?_
  intro h isHead
  cases h with
  | ready p => exact .inl (.inr ⟨p, List.mem_finRange p, rfl⟩)
  | pending => exact .inr rfl
  | task t => cases isHead
  | poison₁ => cases isHead
  | poison₂ => cases isHead

omit [DecidableEq T] in
theorem Queues.empty_has (t : T) : ¬ (Queues.empty : Queues T).Has t := by
  rintro (inside | ⟨p, inside⟩)
  · cases inside
  · cases inside

theorem schedInit_raised (links : Links (Node T)) (tcb : T → Tcb) (idle : T) :
    Raised (beforeInit links tcb idle) idle
      (Queues.empty.pushReady (tcb idle).schedPriority idle) (schedInit links tcb idle) :=
  schedAttach_raised (represents_init links) (Queues.empty_has idle)

theorem SchedInv.init (setup : SchedSetup T) :
    SchedInv setup (Queues.empty.pushReady (setup.tcb setup.idle).schedPriority setup.idle)
      (schedInit setup.links setup.tcb setup.idle) := by
  have raised := schedInit_raised setup.links setup.tcb setup.idle
  generalize schedInit setup.links setup.tcb setup.idle = s at raised ⊢
  have noBit : ∀ p, ¬ (beforeInit setup.links setup.tcb setup.idle).Bit p := fun p set => by
    simp [Sched.Bit, beforeInit] at set
  have bit : ∀ p, s.Bit p ↔ p = (setup.tcb setup.idle).schedPriority := fun p =>
    (raised.bit p).trans ⟨fun h => h.resolve_right (noBit p), .inl⟩
  have zero : ∀ t, s.deadline t = 0 := by
    intro t
    refine (raised.same.deadline t).trans ?_
    change (setup.tcb t).readytime.toNat = 0
    rw [setup.fresh t]
    rfl
  have current : s.current = setup.idle := raised.same.current
  have attached : s.attached = [setup.idle] := raised.same.attached
  have ready_iff : ∀ {p t}, t ∈ ((Queues.empty : Queues T).pushReady
      (setup.tcb setup.idle).schedPriority setup.idle).ready p ↔
      t = setup.idle ∧ p = (setup.tcb setup.idle).schedPriority := by
    intro p t
    rw [Queues.mem_pushReady]
    exact ⟨fun inside => inside.resolve_left List.not_mem_nil, .inr⟩
  exact
    { repr := raised.repr
      has_iff := fun t => by
        rw [Queues.pushReady_has_iff, attached, List.mem_singleton]
        exact ⟨fun has => has.resolve_right (Queues.empty_has t), .inl⟩
      listed := fun _ isOn => isOn
      nodup := attached ▸ List.nodup_singleton _
      own := fun {p t} inside => by
        obtain ⟨rfl, rfl⟩ := ready_iff.mp inside
        exact raised.same.prio _
      group := raised.group (fun g => by simp [beforeInit])
      bit_of_ready := fun {p} nonempty => by
        obtain ⟨t, inside⟩ := List.exists_mem_of_ne_nil _ nonempty
        exact (bit p).mpr (ready_iff.mp inside).2
      ready_of_bit := fun {p} set =>
        .inl (List.ne_nil_of_mem (ready_iff.mpr ⟨rfl, (bit p).mp set⟩))
      due := fun {p t} _ => setup.due_of_zero (zero t)
      small := fun t => by rw [zero t]; decide
      fresh := fun {t} _ => zero t
      idle := by rw [attached]; exact .head _
      idle_fresh := zero _
      current := by rw [current, attached]; exact .head _ }

/-! ## Whole runs -/

/-- The invariant holds between any two steps of a run. -/
theorem SchedReach.inv (reach : SchedReach setup s) : ∃ q, SchedInv setup q s := by
  induction reach with
  | init => exact ⟨_, SchedInv.init setup⟩
  | attach _ new ih =>
    obtain ⟨q, inv⟩ := ih
    exact ⟨_, inv.attach new⟩
  | tick _ run ih =>
    obtain ⟨q, inv⟩ := ih
    obtain ⟨s₁, least, q', s', scheduled⟩ := inv.schedule
    rw [scheduled.run] at run
    cases run
    exact ⟨q', scheduled.inv⟩
  | sleep _ notIdle small run ih =>
    obtain ⟨q, inv⟩ := ih
    obtain ⟨s₁, least, q', s', scheduled⟩ := (inv.nanosleep notIdle small).schedule
    rw [scheduled.run] at run
    cases run
    exact ⟨q', scheduled.inv⟩

theorem AtSchedule.inv (atCall : AtSchedule setup s) : ∃ q, SchedInv setup q s := by
  cases atCall with
  | tick reach => exact reach.inv
  | sleep reach notIdle small =>
    obtain ⟨q, inv⟩ := reach.inv
    exact ⟨_, inv.nanosleep notIdle small⟩

end Run

end Chinos
