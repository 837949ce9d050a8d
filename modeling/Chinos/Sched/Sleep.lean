import Chinos.Sched.Safety

/-!
# How long a sleep lasts

The wake-up time of `sys_nanosleep` is a 64-bit sum and `sched_pending_check` compares
it with the clock by the sign of a 64-bit difference. Here clock readings and times are
any 64-bit values: what is known of a run is only where its tasks are (`OnQueues`), and
what a sleeper's wake-up time makes of each reading.
-/

namespace Chinos

/-- `TIMER_CLOCK_HZ`, the number of ticks in a second. -/
def timerClockHz : Nat := 62500000

/-- The time that a request asks for, in ticks of the counter. -/
def sleepTicks (tvSec tvNsec : BitVec 64) : Nat :=
  tvSec.toNat * timerClockHz + tvNsec.toNat * timerClockHz / 10 ^ 9

section Sleep

variable {T : Type} [DecidableEq T] {clock : Nat → BitVec 64} {tcb : T → Tcb} {idle : T}
  {links : Links (Node T)} {s s₁ s' : Sched T} {q : Queues T} {t : T}

/-- The states of a run under any clock: `sched_init`, `sched_attach` of new tasks,
`schedule`, and `sys_nanosleep` of the current task. -/
inductive ClockReach (clock : Nat → BitVec 64) (tcb : T → Tcb) (idle : T)
    (links : Links (Node T)) : Sched T → Prop
  | init : ClockReach clock tcb idle links (schedInit links tcb idle)
  | attach {s : Sched T} {t : T} : ClockReach clock tcb idle links s → t ∉ s.attached →
      ClockReach clock tcb idle links (attachNew s t)
  | call {s s' : Sched T} : ClockReach clock tcb idle links s → schedule clock s = .ok s' →
      ClockReach clock tcb idle links s'
  | sleep {s : Sched T} {tvSec tvNsec : BitVec 64} : ClockReach clock tcb idle links s →
      ClockReach clock tcb idle links (sysNanosleep clock tvSec tvNsec s)

/-- The pending check of the next `schedule` puts `t` on its ready queue. -/
def PutBack (clock : Nat → BitVec 64) (t : T) (s : Sched T) : Prop :=
  ∃ s₁, schedPendingCheck clock s = .ok s₁ ∧
    ∃ ts, s₁.Holds (.ready (s.prio t)) ts ∧ t ∈ ts

/-- The run goes on from `s`, with calls of `schedule` that do not put `t` back, new tasks
and sleeps of other tasks. -/
inductive Asleep (clock : Nat → BitVec 64) (t : T) (s : Sched T) : Sched T → Prop
  | start : Asleep clock t s s
  | attach {s₁ : Sched T} {u : T} : Asleep clock t s s₁ → u ∉ s₁.attached →
      Asleep clock t s (attachNew s₁ u)
  | call {s₁ s₂ : Sched T} : Asleep clock t s s₁ → ¬ PutBack clock t s₁ →
      schedule clock s₁ = .ok s₂ → Asleep clock t s s₂
  | sleep {s₁ : Sched T} {tvSec tvNsec : BitVec 64} : Asleep clock t s s₁ → s₁.current ≠ t →
      Asleep clock t s (sysNanosleep clock tvSec tvNsec s₁)

/-! ## Where the tasks are -/

/-- Every attached task is on one queue, and one of them is current. -/
structure OnQueues (q : Queues T) (s : Sched T) :
    Prop extends Queued (fun t => t ∈ s.attached) q s where
  current : s.current ∈ s.attached

theorem OnQueues.init (links : Links (Node T)) (tcb : T → Tcb) (idle : T) :
    OnQueues (Queues.empty.pushReady (tcb idle).schedPriority idle)
      (schedInit links tcb idle) := by
  have raised := schedInit_raised links tcb idle
  have attached : (schedInit links tcb idle).attached = [idle] := raised.same.attached
  have current : (schedInit links tcb idle).current = idle := raised.same.current
  refine ⟨⟨raised.repr, fun t => ?_, fun _ isOn => isOn,
    raised.group (fun g => by simp [beforeInit])⟩, ?_⟩
  · rw [Queues.pushReady_has_iff, attached, List.mem_singleton]
    exact ⟨fun has => has.resolve_right (Queues.empty_has t), .inl⟩
  · rw [current, attached]
    exact .head _

theorem OnQueues.attach (on : OnQueues q s) (new : t ∉ s.attached) :
    OnQueues (q.pushReady (s.prio t) t) (attachNew s t) := by
  have raised := schedAttach_raised on.repr (fun has => new ((on.has_iff t).mp has))
  have current : (attachNew s t).current = s.current := raised.same.current
  refine ⟨⟨raised.repr, fun u => ?_, fun _ isOn => isOn, raised.group on.group⟩, ?_⟩
  · rw [Queues.pushReady_has_iff, on.has_iff]
    exact List.mem_cons.symm
  · rw [current]
    exact .tail _ on.current

theorem OnQueues.sleep (on : OnQueues q s) {tvSec tvNsec : BitVec 64} :
    OnQueues ((q.remove s.current).pushPending s.current)
      (sysNanosleep clock tvSec tvNsec s) := by
  have has := (on.has_iff _).mpr on.current
  have lowered : Lowered s s.current q _ (sysNanosleep clock tvSec tvNsec s) :=
    sysNanosleep_lowered on.repr has
  refine ⟨⟨lowered.repr, fun u => ?_, fun _ isOn => isOn, lowered.group on.group⟩, ?_⟩
  · rw [on.repr.requeue_has_iff has, on.has_iff, lowered.attached]
  · rw [lowered.current, lowered.attached]
    exact on.current

/-- The queues after the check, by the test that the code makes. -/
def Queues.checkLate (q : Queues T) (clock : Nat → BitVec 64) (s : Sched T) : Queues T :=
  q.wake s.prio (lateTasks (s.late clock) s.reads q.pending)
    (earlyTasks (s.late clock) s.reads q.pending)

theorem OnQueues.check (on : OnQueues q s) :
    ∃ s₁, schedPendingCheck clock s = .ok s₁ ∧ OnQueues (q.checkLate clock s) s₁ ∧ s.Same s₁ ∧
      s.reads ≤ s₁.reads := by
  obtain ⟨s₁, run, checked, -⟩ := @schedPendingCheck_late T _ s q clock on.repr
    (on.length_le on.repr.nodup_pending (fun t inside => .inl inside))
  have same := checked.same
  refine ⟨s₁, run, ⟨⟨checked.repr, fun u => ?_, fun _ isOn => isOn, checked.group on.group⟩, ?_⟩,
    same, ?_⟩
  · rw [same.attached, ← on.has_iff]
    exact Queues.wake_has_iff (mem_late_or_early _ _)
  · rw [same.current, same.attached]
    exact on.current
  · rw [checked.reads]
    exact Nat.le_add_right _ _

/-- `schedule` returns, and a task that is still pending after the check stays pending. -/
theorem OnQueues.schedule (on : OnQueues q s) :
    ∃ s' q', schedule clock s = .ok s' ∧ OnQueues q' s' ∧ s.reads ≤ s'.reads ∧
      (∀ u, s'.deadline u = s.deadline u) ∧
      ∀ u ∈ (q.checkLate clock s).pending, u ∈ q'.pending := by
  obtain ⟨s₁, check, on₁, same, reads⟩ := @OnQueues.check T _ clock s q on
  obtain ⟨p, select⟩ := selectPriority_ok on₁.group
  have loop := on₁.repr.readyLoop_eq s.current
    (on₁.length_le on₁.repr.nodup_ready (fun t inside => .inr ⟨p, inside⟩))
  have run := schedule_eq check select loop
  cases found : ((q.checkLate clock s).ready p).find? (fun t => s.current ≠ t) with
  | none =>
    rw [found] at run
    exact ⟨s₁, _, run, on₁, reads, same.deadline, fun u inside => inside⟩
  | some t =>
    rw [found] at run
    have inside := List.mem_of_find?_eq_some found
    have has : (q.checkLate clock s).Has t := .inr ⟨p, inside⟩
    refine ⟨switchTo s₁ t, _, run, ⟨⟨switchTo_spec on₁.repr has, fun u => ?_, fun _ isOn => isOn,
      on₁.group⟩, (on₁.has_iff t).mp has⟩, reads, fun u => ?_, fun u inPending => ?_⟩
    · exact (on₁.repr.requeue_has_iff has).trans (on₁.has_iff u)
    · exact ((switchTo_same s₁ t).deadline u).trans (same.deadline u)
    · have ne : u ≠ t := by
        rintro rfl
        exact on₁.repr.pending_apart inPending inside
      exact List.mem_append.mpr (.inl ((List.mem_erase_of_ne ne).mpr inPending))

theorem ClockReach.onQueues (reach : ClockReach clock tcb idle links s) : ∃ q, OnQueues q s := by
  induction reach with
  | init => exact ⟨_, OnQueues.init links tcb idle⟩
  | attach _ new ih =>
    obtain ⟨q, on⟩ := ih
    exact ⟨_, on.attach new⟩
  | call _ run ih =>
    obtain ⟨q, on⟩ := ih
    obtain ⟨s', q', run', on', -⟩ := @OnQueues.schedule T _ clock _ q on
    rw [run] at run'
    cases run'
    exact ⟨q', on'⟩
  | sleep _ ih =>
    obtain ⟨q, on⟩ := ih
    exact ⟨_, on.sleep⟩

/-! ## The sleeper -/

/-- The reading that decides about `t` is the one taken at its place in the queue. -/
theorem mem_lateTasks_iff {late : Nat → T → Bool} {ts : List T}
    (distinct : ts.Nodup) (inside : t ∈ ts) (n : Nat) :
    t ∈ lateTasks late n ts ↔ late (n + ts.idxOf t) t = true := by
  induction ts generalizing n with
  | nil => cases inside
  | cons x ts ih =>
    obtain ⟨notMem, distinct⟩ := List.nodup_cons.mp distinct
    have later : ∀ {u}, u ∈ lateTasks late (n + 1) ts → u ∈ ts :=
      fun inLate => (mem_late_or_early late (n + 1)).mpr (.inl inLate)
    unfold lateTasks
    rcases List.mem_cons.mp inside with rfl | inTail
    · rw [List.idxOf_cons_self, Nat.add_zero]
      split
      · rename_i isLate
        exact ⟨fun _ => isLate, fun _ => .head _⟩
      · rename_i early
        exact ⟨fun inLate => absurd (later inLate) notMem, fun isLate => absurd isLate early⟩
    · have ne : x ≠ t := by
        rintro rfl
        exact notMem inTail
      have place : n + (x :: ts).idxOf t = n + 1 + ts.idxOf t := by
        rw [List.idxOf_cons_ne _ ne]
        omega
      rw [place]
      split
      · rw [List.mem_cons, ← ih distinct inTail (n + 1)]
        exact ⟨fun h => h.resolve_left ne.symm, .inr⟩
      · exact ih distinct inTail (n + 1)

theorem OnQueues.putBack_iff (on : OnQueues q s) (inPending : t ∈ q.pending) :
    PutBack clock t s ↔ s.late clock (s.reads + q.pending.idxOf t) t = true := by
  obtain ⟨s₁, check, on₁, -⟩ := @OnQueues.check T _ clock s q on
  rw [← mem_lateTasks_iff on.repr.nodup_pending inPending]
  have ready : t ∈ (q.checkLate clock s).ready (s.prio t) ↔
      t ∈ lateTasks (s.late clock) s.reads q.pending := by
    refine Queues.mem_wake_ready.trans ⟨?_, fun isLate => .inr ⟨isLate, rfl⟩⟩
    rintro (inReady | ⟨isLate, -⟩)
    · exact absurd inReady (on.repr.pending_apart inPending)
    · exact isLate
  rw [← ready]
  constructor
  · rintro ⟨s₂, check', ts, holds, inside⟩
    rw [check] at check'
    cases check'
    rw [on₁.repr.holds_iff.mp holds] at inside
    exact inside
  · exact fun inside => ⟨s₁, check, _, on₁.repr.holds_iff.mpr rfl, inside⟩

/-- While it is asleep, a task stays on the pending queue with its wake-up time. -/
theorem Asleep.pending (asleep : Asleep clock t s s') :
    ∀ {q : Queues T}, OnQueues q s → t ∈ q.pending →
      ∃ q', OnQueues q' s' ∧ t ∈ q'.pending ∧ s'.deadline t = s.deadline t ∧
        s.reads ≤ s'.reads := by
  intro q on inPending
  induction asleep with
  | start => exact ⟨q, on, inPending, rfl, le_rfl⟩
  | @attach s₁ u _ new ih =>
    obtain ⟨q₁, on₁, inPending₁, deadline₁, reads₁⟩ := ih
    have raised := schedAttach_raised on₁.repr (fun has => new ((on₁.has_iff u).mp has))
    have reads : (attachNew s₁ u).reads = s₁.reads := raised.reads
    exact ⟨_, on₁.attach new, inPending₁, (raised.same.deadline t).trans deadline₁,
      reads ▸ reads₁⟩
  | call _ early run ih =>
    obtain ⟨q₁, on₁, inPending₁, deadline₁, reads₁⟩ := ih
    obtain ⟨s₂, q₂, run', on₂, reads₂, deadline₂, kept⟩ := @OnQueues.schedule T _ clock _ q₁ on₁
    rw [run] at run'
    cases run'
    refine ⟨q₂, on₂, kept t ?_, (deadline₂ t).trans deadline₁, reads₁.trans reads₂⟩
    rw [on₁.putBack_iff inPending₁, ← mem_lateTasks_iff on₁.repr.nodup_pending inPending₁] at early
    exact ((mem_late_or_early _ _).mp inPending₁).resolve_left early
  | @sleep s₁ tvSec tvNsec _ other ih =>
    obtain ⟨q₁, on₁, inPending₁, deadline₁, reads₁⟩ := ih
    have lowered : Lowered s₁ s₁.current q₁ _ (sysNanosleep clock tvSec tvNsec s₁) :=
      sysNanosleep_lowered on₁.repr ((on₁.has_iff _).mpr on₁.current)
    exact ⟨_, on₁.sleep, lowered.pending t other.symm inPending₁,
      (lowered.deadline t other.symm).trans deadline₁, reads₁.trans lowered.reads⟩

/-- The sign of the difference, for a sleep of less than `2 ^ 63` ticks: the reading lies
after the sum, and not by more than `2 ^ 63`. -/
theorem wakeup_neg_iff {now seconds reading : BitVec 64} (short : seconds.toNat < 2 ^ 63)
    (after : now.toNat ≤ reading.toNat) :
    (now + seconds - reading).toInt < 0 ↔
      now.toNat + seconds.toNat < reading.toNat ∧
        reading.toNat ≤ now.toNat + seconds.toNat + 2 ^ 63 := by
  have nowLt := now.isLt
  have readingLt := reading.isLt
  rw [BitVec.toInt_eq_toNat_bmod, BitVec.toNat_sub, BitVec.toNat_add, Int.bmod_def]
  split <;> omega

/-- What the next call of `schedule` owes to a sleeper whose wake-up time is `wakeup`, when
its pending check takes `reading` for it. -/
def SleepKept (clock : Nat → BitVec 64) (t : T) (wakeup reading : Nat) (s : Sched T) : Prop :=
  (PutBack clock t s → wakeup ≤ reading) ∧ (wakeup < reading → PutBack clock t s)

/-- The wake-up time: `TICKS_PER_NS` is 0, so the nanoseconds drop out. -/
theorem sysNanosleep_readytime (repr : Represents s.links q) (has : q.Has s.current)
    (tvSec tvNsec : BitVec 64) :
    ((sysNanosleep clock tvSec tvNsec s).tcb s.current).readytime =
      clock s.reads + tvSec * ticksPerS := by
  have slept : Slept (beforeSleep clock tvSec tvNsec s) s.current q
      (sysNanosleep clock tvSec tvNsec s) := sysNanosleep_slept repr has
  have noTicks : ticksPerNs = 0#64 := by decide
  have time : ((beforeSleep clock tvSec tvNsec s).tcb s.current).readytime =
      clock s.reads + tvSec * ticksPerS := by
    simp only [beforeSleep, Sched.setReadytime, Function.update_self, noTicks, BitVec.mul_zero,
      BitVec.add_zero]
  rw [← time]
  exact BitVec.eq_of_toNat_eq (slept.same.deadline s.current)

theorem sysNanosleep_reads (repr : Represents s.links q) (has : q.Has s.current)
    {tvSec tvNsec : BitVec 64} : (sysNanosleep clock tvSec tvNsec s).reads = s.reads + 1 :=
  (sysNanosleep_slept repr has).reads

theorem toNat_seconds {tvSec : BitVec 64} (short : tvSec.toNat * timerClockHz < 2 ^ 63) :
    (tvSec * ticksPerS).toNat = tvSec.toNat * timerClockHz := by
  rw [BitVec.toNat_mul]
  exact Nat.mod_eq_of_lt (lt_trans short (by decide))

/-- The readings that put a sleeper back are those after the seconds it asked for, up to `2 ^ 63`
ticks later. The nanoseconds do not matter. -/
theorem Asleep.putBack_iff {tvSec tvNsec : BitVec 64}
    (monotone : Monotone fun n => (clock n).toNat)
    (short : tvSec.toNat * timerClockHz < 2 ^ 63) (on : OnQueues q s)
    (asleep : Asleep clock s.current (sysNanosleep clock tvSec tvNsec s) s') :
    ∃ q', OnQueues q' s' ∧ s.current ∈ q'.pending ∧
      (PutBack clock s.current s' ↔
        (clock s.reads).toNat + tvSec.toNat * timerClockHz <
            (clock (s'.reads + q'.pending.idxOf s.current)).toNat ∧
          (clock (s'.reads + q'.pending.idxOf s.current)).toNat ≤
            (clock s.reads).toNat + tvSec.toNat * timerClockHz + 2 ^ 63) := by
  have has := (on.has_iff _).mpr on.current
  have lowered : Lowered s s.current q _ (sysNanosleep clock tvSec tvNsec s) :=
    sysNanosleep_lowered on.repr has
  obtain ⟨q', on', inPending, deadline, reads⟩ := asleep.pending on.sleep
    (List.mem_append.mpr (.inr (.head _)))
  refine ⟨q', on', inPending, ?_⟩
  have readytime : (s'.tcb s.current).readytime = clock s.reads + tvSec * ticksPerS :=
    (BitVec.eq_of_toNat_eq deadline).trans (sysNanosleep_readytime on.repr has tvSec tvNsec)
  have later : (clock s.reads).toNat ≤ (clock (s'.reads + q'.pending.idxOf s.current)).toNat :=
    monotone ((lowered.reads.trans reads).trans (Nat.le_add_right _ _))
  rw [on'.putBack_iff inPending, Sched.late, readytime, decide_eq_true_iff,
    wakeup_neg_iff (by rw [toNat_seconds short]; exact short) later, toNat_seconds short]

/-- A task that asked for a sleep of less than `2 ^ 63` ticks and is still asleep: the next
call of `schedule` returns, and it keeps the request if and only if the reading it takes
for the task does not fall between the seconds and the nanoseconds asked for, nor more
than `2 ^ 63` ticks after the seconds. -/
theorem nanosleep_kept_iff {tvSec tvNsec : BitVec 64}
    (monotone : Monotone fun n => (clock n).toNat)
    (reach : ClockReach clock tcb idle links s) (short : tvSec.toNat * timerClockHz < 2 ^ 63)
    (asleep : Asleep clock s.current (sysNanosleep clock tvSec tvNsec s) s') :
    (∃ s'', schedule clock s' = .ok s'') ∧
      ∃ ts, s'.Holds .pending ts ∧ s.current ∈ ts ∧
        ∀ now reading seconds, now = (clock s.reads).toNat →
          reading = (clock (s'.reads + ts.idxOf s.current)).toNat →
          seconds = tvSec.toNat * timerClockHz →
          (SleepKept clock s.current (now + sleepTicks tvSec tvNsec) reading s' ↔
            (reading ≤ now + seconds ∨ now + sleepTicks tvSec tvNsec ≤ reading) ∧
              reading ≤ now + seconds + 2 ^ 63) := by
  obtain ⟨q, on⟩ := reach.onQueues
  obtain ⟨q', on', inPending, putBack⟩ := asleep.putBack_iff monotone short on
  obtain ⟨s'', -, run, -⟩ := @OnQueues.schedule T _ clock s' q' on'
  refine ⟨⟨s'', run⟩, q'.pending, on'.repr.holds_pending_iff.mpr rfl, inPending, ?_⟩
  rintro now reading seconds isNow isReading isSeconds
  rw [← isNow, ← isReading, ← isSeconds] at putBack
  have nanoseconds : tvNsec.toNat * timerClockHz / 10 ^ 9 < 2 ^ 63 := by
    have small := tvNsec.isLt
    unfold timerClockHz
    omega
  have ticks : sleepTicks tvSec tvNsec = seconds + tvNsec.toNat * timerClockHz / 10 ^ 9 := by
    rw [sleepTicks, isSeconds]
  unfold SleepKept
  rw [putBack, ticks]
  generalize tvNsec.toNat * timerClockHz / 10 ^ 9 = rest at nanoseconds
  omega

end Sleep

/-! ## The nanoseconds are lost -/

/-- The task `true` of `twoTasks` after it has been attached and scheduled. -/
theorem twoTasks_scheduled :
    ∃ s, ClockReach twoTasks.clock twoTasks.tcb twoTasks.idle twoTasks.links s ∧
      s.current = true ∧ s.reads = 0 ∧ s.attached = [true, false] := by
  have reach : ClockReach twoTasks.clock twoTasks.tcb twoTasks.idle twoTasks.links
      (attachNew (schedInit twoTasks.links twoTasks.tcb twoTasks.idle) true) :=
    .attach .init (by decide)
  have run : Returns (schedule twoTasks.clock
      (attachNew (schedInit twoTasks.links twoTasks.tcb twoTasks.idle) true))
      fun s => s.current = true ∧ s.reads = 0 ∧ s.attached = [true, false] := by decide +kernel
  obtain ⟨s, run, facts⟩ := run
  exact ⟨s, .call reach run, facts⟩

/-- It asks for 999999999 ns, nearly a second, and is back on its ready queue at most two ticks
later. -/
theorem twoTasks_wakes_early :
    ∃ s, ClockReach twoTasks.clock twoTasks.tcb twoTasks.idle twoTasks.links s ∧
      s.current = true ∧ ∃ ts, (sysNanosleep twoTasks.clock 0 999999999 s).Holds .pending ts ∧
        true ∈ ts ∧
        ¬ SleepKept twoTasks.clock true
          ((twoTasks.clock s.reads).toNat + sleepTicks 0 999999999)
          (twoTasks.clock ((sysNanosleep twoTasks.clock 0 999999999 s).reads +
            ts.idxOf true)).toNat
          (sysNanosleep twoTasks.clock 0 999999999 s) := by
  obtain ⟨s, reach, isCurrent, reads, attached⟩ := twoTasks_scheduled
  obtain ⟨q, on⟩ := reach.onQueues
  have asleep : Asleep twoTasks.clock s.current (sysNanosleep twoTasks.clock 0 999999999 s)
      (sysNanosleep twoTasks.clock 0 999999999 s) := .start
  obtain ⟨q', on', inPending, putBack⟩ :=
    asleep.putBack_iff twoTasks.monotone (by decide) on
  have has := (on.has_iff _).mpr on.current
  have readsIs : (sysNanosleep twoTasks.clock 0 999999999 s).reads = 1 := by
    rw [sysNanosleep_reads on.repr has, reads]
  have attachedIs : (sysNanosleep twoTasks.clock 0 999999999 s).attached = [true, false] :=
    (sysNanosleep_lowered on.repr has).attached.trans attached
  have place := List.idxOf_lt_length_of_mem inPending
  have short := on'.length_le on'.repr.nodup_pending (fun t inside => .inl inside)
  rw [attachedIs] at short
  rw [isCurrent] at putBack inPending place
  rw [reads, readsIs] at putBack
  refine ⟨s, reach, isCurrent, q'.pending, on'.repr.holds_pending_iff.mpr rfl, inPending, ?_⟩
  rw [reads, readsIs]
  -- the reading is the second or the third of all
  generalize q'.pending.idxOf true = i at place putBack ⊢
  have few : i < 2 := lt_of_lt_of_le place short
  have readings : ∀ i < 2, (twoTasks.clock 0).toNat + (0 : BitVec 64).toNat * timerClockHz <
      (twoTasks.clock (1 + i)).toNat ∧ (twoTasks.clock (1 + i)).toNat ≤
        (twoTasks.clock 0).toNat + (0 : BitVec 64).toNat * timerClockHz + 2 ^ 63 := by decide
  have early : ∀ i < 2, (twoTasks.clock (1 + i)).toNat <
      (twoTasks.clock 0).toNat + sleepTicks 0 999999999 := by decide
  intro kept
  exact absurd (kept.1 (putBack.mpr (readings i few))) (not_le_of_gt (early i few))

/-- The task `true` asks for a second and no nanoseconds, and the request is kept. -/
theorem twoTasks_sleep_kept :
    ∃ s, ClockReach twoTasks.clock twoTasks.tcb twoTasks.idle twoTasks.links s ∧
      s.current = true ∧ ∃ ts, (sysNanosleep twoTasks.clock 1 0 s).Holds .pending ts ∧
        true ∈ ts ∧
        SleepKept twoTasks.clock true ((twoTasks.clock s.reads).toNat + sleepTicks 1 0)
          (twoTasks.clock ((sysNanosleep twoTasks.clock 1 0 s).reads + ts.idxOf true)).toNat
          (sysNanosleep twoTasks.clock 1 0 s) := by
  obtain ⟨s, reach, isCurrent, -⟩ := twoTasks_scheduled
  have asleep : Asleep twoTasks.clock s.current (sysNanosleep twoTasks.clock 1 0 s)
      (sysNanosleep twoTasks.clock 1 0 s) := .start
  obtain ⟨-, ts, holds, inside, kept_iff⟩ :=
    nanosleep_kept_iff twoTasks.monotone reach (by decide) asleep
  rw [isCurrent] at inside kept_iff
  refine ⟨s, reach, isCurrent, ts, holds, inside, (kept_iff _ _ _ rfl rfl rfl).mpr ⟨?_, ?_⟩⟩
  · -- without nanoseconds, the seconds are all that is asked for
    exact le_total _ _
  · have small := twoTasks.small ((sysNanosleep twoTasks.clock 1 0 s).reads + ts.idxOf true)
    omega

end Chinos
