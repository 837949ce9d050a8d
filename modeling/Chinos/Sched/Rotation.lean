import Chinos.Sched.Safety

/-!
# Round robin among tasks of one priority

The most urgent runnable tasks take turns. A task that is chosen goes to the pending
queue and comes back to the end of its ready queue at the next check, so once one of
them is current the others wait in front of it, in the order in which they will run.
The first call may find the current task anywhere in the queue and skips it.
-/

namespace Chinos

section Rotation

variable {T : Type} [DecidableEq T] {setup : SchedSetup T} {s s₁ s' : Sched T} {q : Queues T}
  {p : Priority} {among picked todo seen : List T}

/-- `t` awaits its turn: it is on a ready queue, or pending with a deadline that the next clock
reading has passed. The check of the pending queue takes one reading for each task; `Runnable`
is about the one taken for `t`, and this about the first one. -/
def Sched.Awaits (s : Sched T) (clock : Nat → BitVec 64) (t : T) : Prop :=
  (∃ ts, s.Holds (.ready (s.prio t)) ts ∧ t ∈ ts) ∨
    ∃ ts, s.Holds .pending ts ∧ t ∈ ts ∧ s.deadline t < (clock s.reads).toNat

/-- The next check of the pending queue leaves all tasks of priority `p` or a smaller
number where they are, apart from those in `among`. -/
def NoneWoken (clock : Nat → BitVec 64) (p : Priority) (among : List T) (s : Sched T) : Prop :=
  ∀ s₁, schedPendingCheck clock s = .ok s₁ → ∀ t ts ts', s.Holds .pending ts → t ∈ ts →
    s.prio t ≤ p → t ∉ among → s₁.Holds .pending ts' → t ∈ ts'

/-- A stretch of a run in which no task of priority `p` or a smaller number is attached,
woken or put to sleep, other than that those in `among` take turns. It lists the tasks that
the calls of `schedule` make current. -/
inductive Rounds (setup : SchedSetup T) (p : Priority) (among : List T) :
    Sched T → List T → Sched T → Prop
  | done {s : Sched T} : Rounds setup p among s [] s
  | attach {s s' : Sched T} {picked : List T} {t : T} : t ∉ s.attached → p < s.prio t →
      Rounds setup p among (attachNew s t) picked s' → Rounds setup p among s picked s'
  | tick {s s₁ s' : Sched T} {picked : List T} : NoneWoken setup.clock p among s →
      schedule setup.clock s = .ok s₁ → Rounds setup p among s₁ picked s' →
      Rounds setup p among s (s₁.current :: picked) s'
  | sleep {s s₁ s' : Sched T} {picked : List T} {tvSec tvNsec : BitVec 64} :
      s.current ≠ setup.idle → p < s.prio s.current →
      (sysNanosleep setup.clock tvSec tvNsec s).deadline s.current < 2 ^ 63 →
      NoneWoken setup.clock p among (sysNanosleep setup.clock tvSec tvNsec s) →
      schedule setup.clock (sysNanosleep setup.clock tvSec tvNsec s) = .ok s₁ →
      Rounds setup p among s₁ picked s' → Rounds setup p among s (s₁.current :: picked) s'

/-! ## Tasks that wait for their turn -/

/-- The tasks in `among` are all that is ready at priority `p` or a smaller number, or will
be after the next check. -/
structure Waiting (setup : SchedSetup T) (p : Priority) (among : List T) (q : Queues T)
    (s : Sched T) : Prop where
  nodup : among.Nodup
  prio : ∀ t ∈ among, s.prio t = p
  waits : ∀ t ∈ among, t ∈ q.ready p ∨
    t ∈ q.pending ∧ ∀ n, s.reads ≤ n → s.deadline t < (setup.clock n).toNat
  only : ∀ {p'}, p' ≤ p → ∀ t ∈ q.ready p', t ∈ among

omit [DecidableEq T] in
theorem Waiting.of_runnable (inv : SchedInv setup q s) (nodup : among.Nodup)
    (isAmong : ∀ t, t ∈ among ↔ s.Awaits setup.clock t ∧ s.prio t = p)
    (least : ∀ t, s.Awaits setup.clock t → p ≤ s.prio t) : Waiting setup p among q s where
  nodup := nodup
  prio t inside := ((isAmong t).mp inside).2
  waits t inside := by
    obtain ⟨runnable, prio⟩ := (isAmong t).mp inside
    rcases runnable with ⟨ts, holds, inReady⟩ | ⟨ts, holds, inPending, due⟩
    · rw [inv.repr.holds_iff.mp holds, prio] at inReady
      exact .inl inReady
    · rw [inv.repr.holds_pending_iff.mp holds] at inPending
      exact .inr ⟨inPending, fun n after => lt_of_lt_of_le due (setup.monotone after)⟩
  only {p'} le t inReady := by
    have own := inv.own inReady
    have runnable : s.Awaits setup.clock t :=
      .inl ⟨q.ready p', by rw [own]; exact inv.repr.holds_iff.mpr rfl, inReady⟩
    have same : p' = p := le_antisymm le (own ▸ least t runnable)
    exact (isAmong t).mpr ⟨runnable, own.trans same⟩

/-- After the check, the tasks in `among` are exactly the most urgent ready ones. -/
theorem Waiting.check (waiting : Waiting setup p among q s) (inv : SchedInv setup q s)
    (quiet : NoneWoken setup.clock p among s) :
    ((q.check setup.clock s).ready p).Perm among ∧
      ∀ p' < p, (q.check setup.clock s).ready p' = [] := by
  obtain ⟨s₁, run, checked, inv₁, -, -⟩ := inv.check
  -- a task that the check wakes is no longer pending
  have woken : ∀ t ∈ dueTasks setup.clock s.deadline s.reads q.pending, s.prio t ≤ p →
      t ∈ among := by
    intro t due le
    by_contra outside
    have inPending : t ∈ q.pending := (mem_due_or_sleeping _ _ _).mpr (.inl due)
    have still := quiet s₁ run t _ _ (inv.repr.holds_pending_iff.mpr rfl) inPending le outside
      (inv₁.repr.holds_pending_iff.mpr rfl)
    exact inv₁.repr.pending_apart still (mem_check_ready.mpr (.inr ⟨due, rfl⟩))
  have only : ∀ {p'}, p' ≤ p → ∀ t ∈ (q.check setup.clock s).ready p', t ∈ among := by
    intro p' le t inside
    rcases mem_check_ready.mp inside with old | ⟨due, prio⟩
    · exact waiting.only le t old
    · exact woken t due (prio ▸ le)
  constructor
  · rw [List.perm_ext_iff_of_nodup inv₁.repr.nodup_ready waiting.nodup]
    intro t
    refine ⟨only le_rfl t, fun inside => mem_check_ready.mpr ?_⟩
    rcases waiting.waits t inside with inReady | ⟨inPending, due⟩
    · exact .inl inReady
    · exact .inr ⟨mem_due_of_always inPending due, waiting.prio t inside⟩
  · intro p' lt
    rw [List.eq_nil_iff_forall_not_mem]
    intro t inside
    have prio : s₁.prio t = p' := inv₁.own inside
    rw [checked.same.prio, waiting.prio t (only (le_of_lt lt) t inside)] at prio
    exact absurd prio (ne_of_gt lt)

/-- In a list of two tasks or more, one of them is not the current one. -/
theorem exists_find_ne {ts : List T} (distinct : ts.Nodup) (two : 2 ≤ ts.length) (current : T) :
    ∃ t, ts.find? (fun t => current ≠ t) = some t := by
  cases found : ts.find? (fun t => current ≠ t) with
  | some t => exact ⟨t, rfl⟩
  | none =>
    have all : ∀ t ∈ ts, t = current := by
      intro t inside
      have isCurrent : current = t := by simpa using List.find?_eq_none.mp found t inside
      exact isCurrent.symm
    rw [List.eq_replicate_of_mem all, List.nodup_replicate] at distinct
    omega

/-- A call of `schedule` switches to the first of the waiting tasks that is not current. -/
theorem Waiting.call (waiting : Waiting setup p among q s) (inv : SchedInv setup q s)
    (quiet : NoneWoken setup.clock p among s) (two : 2 ≤ among.length) :
    ∃ t s', ((q.check setup.clock s).ready p).find? (fun t => s.current ≠ t) = some t ∧
      schedule setup.clock s = .ok s' ∧ s'.current = t ∧ (∀ u, s'.prio u = s.prio u) ∧
      SchedInv setup (((q.check setup.clock s).remove t).pushPending t) s' ∧
      Waiting setup p among (((q.check setup.clock s).remove t).pushPending t) s' := by
  obtain ⟨perm, none⟩ := waiting.check inv quiet
  obtain ⟨s₁, check, checked, inv₁, bits, -⟩ := inv.check
  have long : 2 ≤ ((q.check setup.clock s).ready p).length := perm.length_eq ▸ two
  have nonempty : (q.check setup.clock s).ready p ≠ [] := List.ne_nil_of_length_pos (by omega)
  obtain ⟨t, found⟩ := exists_find_ne inv₁.repr.nodup_ready long s.current
  have inside := List.mem_of_find?_eq_some found
  obtain ⟨least, select, leastSet, leastLe⟩ :=
    selectPriority_spec inv₁.group ((bits p).mpr nonempty)
  have isLeast : least = p := by
    refine le_antisymm (leastLe p ((bits p).mpr nonempty)) (le_of_not_gt fun lt => ?_)
    exact (bits least).mp leastSet (none least lt)
  subst isLeast
  have loop := inv₁.toQueueInv.readyLoop_eq least s.current
  rw [found] at loop
  have same := switchTo_same s₁ t
  have prio : ∀ u, (switchTo s₁ t).prio u = s.prio u :=
    fun u => (same.prio u).trans (checked.same.prio u)
  refine ⟨t, switchTo s₁ t, found, schedule_eq check select loop, rfl, prio,
    inv₁.switch bits inside, ?_⟩
  exact
    { nodup := waiting.nodup
      prio := fun u isAmong => (prio u).trans (waiting.prio u isAmong)
      waits := fun u isAmong => by
        have isReady := perm.mem_iff.mpr isAmong
        by_cases isT : u = t
        · subst isT
          refine .inr ⟨List.mem_append.mpr (.inr (.head _)), fun n after => ?_⟩
          rw [show (switchTo s₁ u).deadline u = s₁.deadline u from same.deadline u]
          exact inv₁.due inside n (Nat.le_succ_of_le after)
        · exact .inl ((List.mem_erase_of_ne isT).mpr isReady)
      only := fun {p'} le u inErase => by
        have inReady : u ∈ (q.check setup.clock s).ready p' := List.mem_of_mem_erase inErase
        rcases eq_or_lt_of_le le with rfl | lt
        · exact perm.mem_iff.mp inReady
        · rw [none p' lt] at inReady
          cases inReady }

/-! ## What happens between the calls -/

theorem Waiting.attach (waiting : Waiting setup p among q s) {t : T} (new : t ∉ s.attached)
    (inv : SchedInv setup q s) (less : p < s.prio t) :
    Waiting setup p among (q.pushReady (s.prio t) t) (attachNew s t) := by
  have absent : ¬ q.Has t := fun has => new ((inv.has_iff t).mp has)
  have raised := schedAttach_raised inv.repr absent
  exact
    { nodup := waiting.nodup
      prio := fun u isAmong => (raised.same.prio u).trans (waiting.prio u isAmong)
      waits := fun u isAmong => by
        rcases waiting.waits u isAmong with inReady | ⟨inPending, due⟩
        · exact .inl (Queues.mem_pushReady.mpr (.inl inReady))
        · refine .inr ⟨inPending, fun n after => ?_⟩
          have deadline : (attachNew s t).deadline u = s.deadline u := raised.same.deadline u
          have reads : (attachNew s t).reads = s.reads := raised.reads
          rw [deadline]
          exact due n (reads ▸ after)
      only := fun {p'} le u inside => by
        rcases Queues.mem_pushReady.mp inside with old | ⟨-, here⟩
        · exact waiting.only le u old
        · exact absurd (here ▸ le) (not_le_of_gt less) }

theorem Waiting.sleep (waiting : Waiting setup p among q s) (inv : SchedInv setup q s)
    (less : p < s.prio s.current) {tvSec tvNsec : BitVec 64} :
    Waiting setup p among ((q.remove s.current).pushPending s.current)
      (sysNanosleep setup.clock tvSec tvNsec s) := by
  have lowered : Lowered s s.current q _ (sysNanosleep setup.clock tvSec tvNsec s) :=
    sysNanosleep_lowered inv.repr ((inv.has_iff _).mpr inv.current)
  have ne : ∀ u ∈ among, u ≠ s.current := by
    rintro u isAmong rfl
    exact absurd (waiting.prio _ isAmong) (ne_of_gt less)
  exact
    { nodup := waiting.nodup
      prio := fun u isAmong => (lowered.prio u).trans (waiting.prio u isAmong)
      waits := fun u isAmong => by
        rcases waiting.waits u isAmong with inReady | ⟨inPending, due⟩
        · exact .inl ((List.mem_erase_of_ne (ne u isAmong)).mpr inReady)
        · refine .inr ⟨lowered.pending u (ne u isAmong) inPending, fun n after => ?_⟩
          rw [lowered.deadline u (ne u isAmong)]
          exact due n (lowered.reads.trans after)
      only := fun {p'} le u inside => waiting.only le u (List.mem_of_mem_erase inside) }

/-! ## Taking turns -/

/-- One of the tasks in `among` is current and parked on the pending queue. The others are
ready: first those in `todo`, then those in `seen`. -/
structure Turning (setup : SchedSetup T) (p : Priority) (among : List T) (q : Queues T)
    (s : Sched T) (todo seen : List T) : Prop where
  inv : SchedInv setup q s
  waiting : Waiting setup p among q s
  current : s.current ∈ among
  parked : s.current ∈ q.pending
  others : ∀ t ∈ among, t ≠ s.current → t ∈ q.ready p
  queue : q.ready p = todo ++ seen

/-- The check puts the current task behind all others. -/
theorem Turning.queue_check (turning : Turning setup p among q s todo seen)
    (quiet : NoneWoken setup.clock p among s) :
    (q.check setup.clock s).ready p = todo ++ (seen ++ [s.current]) := by
  obtain ⟨perm, -⟩ := turning.waiting.check turning.inv quiet
  obtain ⟨s₁, -, -, inv₁, -⟩ := turning.inv.check
  have split : (q.check setup.clock s).ready p = q.ready p ++
      (dueTasks setup.clock s.deadline s.reads q.pending).filter (fun t => s.prio t = p) := rfl
  have distinct := inv₁.repr.nodup_ready (p := p)
  rw [split] at distinct perm
  have woken : (dueTasks setup.clock s.deadline s.reads q.pending).filter
      (fun t => s.prio t = p) = [s.current] := by
    rw [← List.perm_singleton, List.perm_ext_iff_of_nodup (List.nodup_append.mp distinct).2.1
      (List.nodup_singleton _)]
    intro t
    rw [List.mem_singleton]
    constructor
    · intro inside
      by_contra ne
      have isAmong := perm.mem_iff.mp (List.mem_append.mpr (.inr inside))
      have inPending : t ∈ q.pending :=
        (mem_due_or_sleeping _ _ _).mpr (.inl (List.mem_of_mem_filter inside))
      exact turning.inv.repr.pending_apart inPending (turning.others t isAmong ne)
    · rintro rfl
      rcases turning.waiting.waits _ turning.current with inReady | ⟨inPending, due⟩
      · exact absurd inReady (turning.inv.repr.pending_apart turning.parked)
      · rw [List.mem_filter]
        exact ⟨mem_due_of_always inPending due,
          decide_eq_true (turning.waiting.prio _ turning.current)⟩
  rw [split, woken, turning.queue, List.append_assoc]

/-- The state after a call that switched to `t`. -/
theorem Turning.of_call {t : T} {queue : List T} (isQueue : (q.check setup.clock s).ready p = queue)
    (perm : queue.Perm among) (inside : t ∈ queue) (isCurrent : s'.current = t)
    (inv : SchedInv setup (((q.check setup.clock s).remove t).pushPending t) s')
    (waiting : Waiting setup p among (((q.check setup.clock s).remove t).pushPending t) s')
    (split : queue.erase t = todo ++ seen) :
    Turning setup p among (((q.check setup.clock s).remove t).pushPending t) s' todo seen where
  inv := inv
  waiting := waiting
  current := isCurrent ▸ perm.mem_iff.mp inside
  parked := isCurrent ▸ List.mem_append.mpr (.inr (.head _))
  others u isAmong ne := by
    change u ∈ ((q.check setup.clock s).ready p).erase t
    rw [isQueue, List.mem_erase_of_ne (isCurrent ▸ ne)]
    exact perm.mem_iff.mpr isAmong
  queue := by
    change ((q.check setup.clock s).ready p).erase t = todo ++ seen
    rw [isQueue, split]

/-- The next task in line runs, and the one that ran goes to the end of the line. -/
theorem Turning.call {t : T} (turning : Turning setup p among q s (t :: todo) seen)
    (quiet : NoneWoken setup.clock p among s) (two : 2 ≤ among.length) :
    ∃ q' s', schedule setup.clock s = .ok s' ∧ s'.current = t ∧
      Turning setup p among q' s' todo (seen ++ [s.current]) := by
  have queue := turning.queue_check quiet
  obtain ⟨perm, -⟩ := turning.waiting.check turning.inv quiet
  obtain ⟨u, s', found, run, current, -, inv', waiting'⟩ :=
    turning.waiting.call turning.inv quiet two
  have inReady : t ∈ q.ready p := by
    rw [turning.queue]
    exact .head _
  have ne : s.current ≠ t := by
    rintro rfl
    exact turning.inv.repr.pending_apart turning.parked inReady
  have isNext : u = t := by
    rw [queue, List.cons_append, List.find?_cons_of_pos (by simpa using ne)] at found
    exact (Option.some.inj found).symm
  subst isNext
  refine ⟨_, s', run, current, Turning.of_call queue (queue ▸ perm) (.head _) current inv' waiting'
    ?_⟩
  rw [List.cons_append, List.erase_cons_head]

theorem Turning.attach (turning : Turning setup p among q s todo seen) {t : T}
    (new : t ∉ s.attached) (less : p < s.prio t) :
    Turning setup p among (q.pushReady (s.prio t) t) (attachNew s t) todo seen := by
  have absent : ¬ q.Has t := fun has => new ((turning.inv.has_iff t).mp has)
  have current : (attachNew s t).current = s.current :=
    (schedAttach_raised turning.inv.repr absent).same.current
  have same : (q.pushReady (s.prio t) t).ready p = q.ready p :=
    Function.update_of_ne (ne_of_lt less) _ _
  exact
    { inv := turning.inv.attach new
      waiting := turning.waiting.attach new turning.inv less
      current := current ▸ turning.current
      parked := current ▸ turning.parked
      others := fun u isAmong ne => by
        rw [same]
        exact turning.others u isAmong (current ▸ ne)
      queue := same.trans turning.queue }

/-- As long as tasks are left in `todo`, they are picked in the order in which they stand
there. -/
theorem Rounds.picked_eq_take (rounds : Rounds setup p among s picked s')
    (two : 2 ≤ among.length) :
    ∀ {q : Queues T} {todo seen : List T}, Turning setup p among q s todo seen →
      picked.length ≤ todo.length → picked = todo.take picked.length := by
  induction rounds with
  | done => exact fun _ _ => rfl
  | attach new less _ ih => exact fun turning short => ih (turning.attach new less) short
  | tick quiet run _ ih =>
    intro q todo seen turning short
    cases todo with
    | nil => exact absurd short (Nat.not_succ_le_zero _)
    | cons t todo =>
      obtain ⟨q', s'', run', current, turning'⟩ := turning.call quiet two
      rw [run] at run'
      cases run'
      have rest := ih turning' (Nat.le_of_succ_le_succ short)
      rw [current, List.length_cons, List.take_succ_cons, ← rest]
  | sleep notIdle less _ _ _ _ _ =>
    intro q todo seen turning _
    exact absurd (turning.waiting.prio _ turning.current) (ne_of_gt less)

/-- The first call, from any position of the current task, starts the rotation. -/
theorem Waiting.picked_perm {rest : List T} (waiting : Waiting setup p among q s)
    (inv : SchedInv setup q s) (quiet : NoneWoken setup.clock p among s) (two : 2 ≤ among.length)
    (run : schedule setup.clock s = .ok s₁) (rounds : Rounds setup p among s₁ rest s')
    (length : rest.length + 1 = among.length) : (s₁.current :: rest).Perm among := by
  obtain ⟨perm, -⟩ := waiting.check inv quiet
  obtain ⟨t, s₂, found, run', current, -, inv', waiting'⟩ := waiting.call inv quiet two
  rw [run] at run'
  cases run'
  have inside := List.mem_of_find?_eq_some found
  have turning := Turning.of_call rfl perm inside current inv' waiting' (List.append_nil _).symm
  have count : (((q.check setup.clock s).ready p).erase t).length = rest.length := by
    rw [List.length_erase_of_mem inside, perm.length_eq]
    omega
  have isRest := rounds.picked_eq_take two turning (le_of_eq count.symm)
  rw [← count, List.take_length] at isRest
  rw [current, isRest]
  exact (List.perm_cons_erase inside).symm.trans perm

theorem Rounds.picked_perm (rounds : Rounds setup p among s picked s') (two : 2 ≤ among.length)
    (length : picked.length = among.length) :
    ∀ {q : Queues T}, SchedInv setup q s → Waiting setup p among q s → picked.Perm among := by
  induction rounds with
  | done =>
    rw [← length] at two
    cases two
  | attach new less _ ih =>
    exact fun inv waiting => ih length (inv.attach new) (waiting.attach new inv less)
  | tick quiet run rest _ =>
    exact fun inv waiting => waiting.picked_perm inv quiet two run rest length
  | sleep notIdle less small quiet run rest _ =>
    exact fun inv waiting => (waiting.sleep inv less).picked_perm (inv.nanosleep notIdle small)
      quiet two run rest length

theorem Rounds.inv (rounds : Rounds setup p among s picked s') :
    ∀ {q : Queues T}, SchedInv setup q s → ∃ q', SchedInv setup q' s' := by
  induction rounds with
  | done => exact fun inv => ⟨_, inv⟩
  | attach new _ _ ih => exact fun inv => ih (inv.attach new)
  | tick _ run _ ih =>
    intro q inv
    obtain ⟨s₁, least, q', s₂, scheduled⟩ := inv.schedule
    rw [scheduled.run] at run
    cases run
    exact ih scheduled.inv
  | sleep notIdle _ small _ run _ ih =>
    intro q inv
    obtain ⟨s₁, least, q', s₂, scheduled⟩ := (inv.nanosleep notIdle small).schedule
    rw [scheduled.run] at run
    cases run
    exact ih scheduled.inv

/-- In every state of a run in which two or more tasks are runnable at the smallest runnable
priority number, as many calls of `schedule` make each of them current exactly once, and
`schedule` returns at every call. -/
theorem schedule_roundRobin (atCall : AtSchedule setup s) (nodup : among.Nodup)
    (two : 2 ≤ among.length)
    (isAmong : ∀ t, t ∈ among ↔ s.Awaits setup.clock t ∧ s.prio t = p)
    (least : ∀ t, s.Awaits setup.clock t → p ≤ s.prio t)
    (rounds : Rounds setup p among s picked s') :
    (∃ s'', schedule setup.clock s' = .ok s'') ∧
      (picked.length = among.length → ∀ t ∈ among, picked.count t = 1) := by
  obtain ⟨q, inv⟩ := atCall.inv
  have waiting := Waiting.of_runnable inv nodup isAmong least
  constructor
  · obtain ⟨q', inv'⟩ := rounds.inv inv
    obtain ⟨s₁, least', q'', s'', scheduled⟩ := inv'.schedule
    exact ⟨s'', scheduled.run⟩
  · intro length t inside
    have perm := rounds.picked_perm two length inv waiting
    rw [perm.count_eq]
    exact List.count_eq_one_of_mem nodup inside

/-- If all tasks that could disturb them are in `among`, calls of `schedule` follow one
another. -/
theorem Waiting.rounds (two : 2 ≤ among.length) (n : Nat) :
    ∀ {q : Queues T} {s : Sched T}, SchedInv setup q s → Waiting setup p among q s →
      (∀ t, s.prio t ≤ p → t ∈ among) →
      ∃ picked s', Rounds setup p among s picked s' ∧ picked.length = n := by
  induction n with
  | zero => exact fun {q s} _ _ _ => ⟨[], s, .done, rfl⟩
  | succ n ih =>
    intro q s inv waiting covered
    have quiet : NoneWoken setup.clock p among s :=
      fun s₁ _ t ts ts' _ _ le outside _ => absurd (covered t le) outside
    obtain ⟨t, s₁, -, run, -, prio, inv₁, waiting₁⟩ := waiting.call inv quiet two
    obtain ⟨picked, s', rounds, length⟩ := ih inv₁ waiting₁ (fun u le => covered u (prio u ▸ le))
    exact ⟨s₁.current :: picked, s', .tick quiet run rounds, congrArg _ length⟩

end Rotation

/-! ## Two tasks of one priority -/

local instance threeNeZero : NeZero 3 := ⟨by decide⟩

/-- The idle task and two tasks of priority 3. -/
def equalTasks : SchedSetup (Fin 3) where
  tcb t := ⟨if t = 0 then 31 else 3, 0, .inactive⟩
  idle := 0
  links := ⟨id, id⟩
  clock _ := 1
  fresh _ := rfl
  positive _ := by decide
  monotone _ _ _ := le_rfl
  small _ := by decide

/-- The state in which both of the equal tasks have been attached. -/
def equalTasksAttached : Sched (Fin 3) :=
  attachNew (attachNew (schedInit equalTasks.links equalTasks.tcb equalTasks.idle) 1) 2

theorem equalTasksAttached_reach : SchedReach equalTasks equalTasksAttached :=
  .attach (.attach .init (by decide)) (by decide)

theorem equalTasks_roundRobin :
    ∃ picked s', Rounds equalTasks 3 [1, 2] equalTasksAttached picked s' ∧ picked.length = 2 ∧
      (∃ s'', schedule equalTasks.clock s' = .ok s'') ∧
      ∀ t ∈ [(1 : Fin 3), 2], picked.count t = 1 := by
  have inv := ((SchedInv.init equalTasks).attach (t := 1) (by decide)).attach (t := 2) (by decide)
  have prio : ∀ t, equalTasksAttached.prio t = if t = 0 then 31 else 3 := by decide
  have isAmong : ∀ t, t ∈ [(1 : Fin 3), 2] ↔
      equalTasksAttached.Awaits equalTasks.clock t ∧ equalTasksAttached.prio t = 3 := by
    intro t
    constructor
    · intro inside
      have isThree : equalTasksAttached.prio t = 3 := by
        rw [prio]
        revert t
        decide
      refine ⟨.inl ⟨[1, 2], ?_, inside⟩, isThree⟩
      rw [isThree]
      exact inv.repr.holds_iff.mpr rfl
    · rintro ⟨-, isThree⟩
      rw [prio] at isThree
      revert t
      decide
  have least : ∀ t, equalTasksAttached.Awaits equalTasks.clock t →
      3 ≤ equalTasksAttached.prio t := by
    have bound : ∀ t : Fin 3, (3 : Priority) ≤ if t = 0 then 31 else 3 := by decide
    intro t _
    rw [prio]
    exact bound t
  have waiting := Waiting.of_runnable inv (by decide) isAmong least
  obtain ⟨picked, s', rounds, length⟩ := waiting.rounds (by decide) 2 inv (by decide)
  obtain ⟨returns, once⟩ := schedule_roundRobin (.tick equalTasksAttached_reach) (by decide)
    (by decide) isAmong least rounds
  exact ⟨picked, s', rounds, length, returns, once length⟩

end Chinos
