import Chinos.Sched.Bitmap
import Chinos.Sched.Queues

/-!
# The scheduler's operations on queues

Each operation of the pointer level is matched by one on lists: attaching appends to
a ready queue, waking moves a task from the pending queue to its ready queue,
sleeping and switching move a task to the end of the pending queue. The loops over a
queue go through its list in order.
-/

namespace Chinos

section Refine

variable {T : Type} [DecidableEq T] {s s' s₁ : Sched T} {q : Queues T} {t : T} {p : Priority}
  {clock : Nat → BitVec 64}

/-- The priority of a task, as its control block has it. -/
def Sched.prio (s : Sched T) (t : T) : Priority := (s.tcb t).schedPriority

/-- The `readytime` of a task, as a number. -/
def Sched.deadline (s : Sched T) (t : T) : Nat := (s.tcb t).readytime.toNat

/-- The two states differ in nothing but the queues, the bits and the states of tasks. -/
structure Sched.Same (s s' : Sched T) : Prop where
  prio : ∀ t, s'.prio t = s.prio t
  deadline : ∀ t, s'.deadline t = s.deadline t
  current : s'.current = s.current
  attached : s'.attached = s.attached

omit [DecidableEq T] in
theorem Sched.Same.trans (first : s.Same s₁) (second : s₁.Same s') : s.Same s' where
  prio t := (second.prio t).trans (first.prio t)
  deadline t := (second.deadline t).trans (first.deadline t)
  current := second.current.trans first.current
  attached := second.attached.trans first.attached

theorem Sched.setState_prio (s : Sched T) (t t' : T) (state : TaskState) :
    (s.setState t state).prio t' = s.prio t' := by
  unfold Sched.prio Sched.setState
  simp only [Function.update_apply]
  split
  · rename_i same
    rw [same]
  · rfl

theorem Sched.setState_deadline (s : Sched T) (t t' : T) (state : TaskState) :
    (s.setState t state).deadline t' = s.deadline t' := by
  unfold Sched.deadline Sched.setState
  simp only [Function.update_apply]
  split
  · rename_i same
    rw [same]
  · rfl

theorem Sched.same_setState (s : Sched T) (t : T) (state : TaskState) :
    s.Same (s.setState t state) :=
  ⟨fun t' => s.setState_prio t t' state, fun t' => s.setState_deadline t t' state, rfl, rfl⟩

/-! ## Attaching and waking -/

/-- `s'` is `s` with queues `q'` and the bit of `t`'s priority raised. -/
structure Raised (s : Sched T) (t : T) (q' : Queues T) (s' : Sched T) : Prop where
  repr : Represents s'.links q'
  same : s.Same s'
  reads : s'.reads = s.reads
  bit : ∀ p, s'.Bit p ↔ p = s.prio t ∨ s.Bit p
  group : s.GroupOk → s'.GroupOk

omit [DecidableEq T] in
/-- New links and the bit of `t`: the end of `sched_attach` and of `sched_wake`. -/
theorem Raised.of_links {links : Links (Node T)} {q' : Queues T} (repr : Represents links q')
    (s : Sched T) (t : T) :
    Raised s t q' ({ s with links := links }.raise (s.prio t)) where
  repr := by
    rw [raise_eq]
    exact repr
  same := by
    rw [raise_eq]
    exact ⟨fun _ => rfl, fun _ => rfl, rfl, rfl⟩
  reads := by rw [raise_eq]
  bit _ := bit_raise_iff
  group ok := groupOk_raise ok

theorem schedAttach_raised (repr : Represents s.links q) (absent : ¬ q.Has t) :
    Raised s t (q.pushReady (s.prio t) t) (schedAttach s t) := by
  have state := s.same_setState t .readytorun
  have raised := Raised.of_links (repr.pushReady absent (s.prio t)) (s.setState t .readytorun) t
  rw [state.prio t] at raised
  have unfolded : schedAttach s t =
      { s.setState t .readytorun with
        links := s.links.addTail (.task t) (.ready (s.prio t)) }.raise (s.prio t) := by
    unfold schedAttach
    rw [← state.prio t]
    rfl
  rw [unfolded]
  refine ⟨raised.repr, state.trans raised.same, raised.reads, fun p => ?_, raised.group⟩
  rw [raised.bit, state.prio t]
  rfl

theorem schedWake_raised (repr : Represents s.links q) (has : q.Has t) :
    Raised s t (q.remove t) (schedWake s t) :=
  Raised.of_links (repr.delInit has) s t

/-- What the body of `sched_pending_check` does to a task that is due. -/
theorem wakeAttach_raised (repr : Represents s.links q) (has : q.Has t) :
    Raised s t ((q.remove t).pushReady (s.prio t) t) (schedAttach (schedWake s t) t) := by
  have wake := schedWake_raised repr has
  have attach := schedAttach_raised wake.repr repr.not_has_remove
  rw [wake.same.prio t] at attach
  refine ⟨attach.repr, wake.same.trans attach.same, attach.reads.trans wake.reads, ?_, ?_⟩
  · intro p
    rw [attach.bit, wake.bit, wake.same.prio t]
    tauto
  · exact fun ok => attach.group (wake.group ok)

/-- Waking and attaching moves no pointer of a task that is on no queue. -/
theorem sameNode_wakeAttach (repr : Represents s.links q) (has : q.Has t) {u : T}
    (absent : ¬ q.Has u) : SameNode s.links (schedAttach (schedWake s t) t).links u := by
  have ne : u ≠ t := by
    rintro rfl
    exact absent has
  have wake := schedWake_raised repr has
  have woken : SameNode s.links (schedWake s t).links u := by
    unfold schedWake
    rw [raise_eq]
    exact repr.sameNode_delInit has absent
  have stillAbsent : ¬ (q.remove t).Has u := fun has' => absent (repr.remove_has_iff.mp has').2
  have attached : SameNode (schedWake s t).links (schedAttach (schedWake s t) t).links u := by
    unfold schedAttach
    rw [raise_eq]
    exact wake.repr.sameNode_addTail (isHead_ready _) stillAbsent ne
  exact woken.trans attached

/-! ## The walk along a queue -/

/-- The node that a cursor is at: the first of `ts`, or the head `h` behind them. -/
def nodeAt (h : Node T) : List T → Node T
  | [] => h
  | t :: _ => .task t

omit [DecidableEq T] in
theorem seg_next {l : Links (Node T)} {a h : Node T} {ts : List T}
    (seg : l.Seg a (ts.map .task) h) : l.next a = nodeAt h ts := by
  cases ts with
  | nil => exact seg.1
  | cons t ts => exact seg.1.1

omit [DecidableEq T] in
theorem Represents.next_pending (repr : Represents s.links q) :
    s.links.next .pending = nodeAt .pending q.pending :=
  seg_next (Links.Rings.ring repr isHead_pending).seg

omit [DecidableEq T] in
theorem Represents.next_ready (repr : Represents s.links q) :
    s.links.next (.ready p) = nodeAt (.ready p) (q.ready p) :=
  seg_next (Links.Rings.ring repr (isHead_ready p)).seg

omit [DecidableEq T] in
theorem ring_next {l : Links (Node T)} {h : Node T} {ts as bs : List T}
    (ring : l.Ring h (ts.map .task)) (split : ts = as ++ t :: bs) :
    l.next (.task t) = nodeAt h bs := by
  have seg := ring.seg
  rw [split, List.map_append, List.map_cons, Links.seg_append] at seg
  exact seg_next seg.2

omit [DecidableEq T] in
theorem Represents.next_of_pending (repr : Represents s.links q) {as bs : List T}
    (split : q.pending = as ++ t :: bs) : s.links.next (.task t) = nodeAt .pending bs :=
  ring_next (Links.Rings.ring repr isHead_pending) split

omit [DecidableEq T] in
theorem Represents.next_of_ready (repr : Represents s.links q) {as bs : List T}
    (split : q.ready p = as ++ t :: bs) : s.links.next (.task t) = nodeAt (.ready p) bs :=
  ring_next (Links.Rings.ring repr (isHead_ready p)) split

/-! ## `sched_pending_check` -/

/-- The tasks of `ts` that are late when reading number `n` is taken for the first of
them, `n + 1` for the second, and so on. -/
def lateTasks (late : Nat → T → Bool) : Nat → List T → List T
  | _, [] => []
  | n, t :: ts => if late n t then t :: lateTasks late (n + 1) ts else lateTasks late (n + 1) ts

/-- The tasks of `ts` that are not late when readings are taken for them in the same way. -/
def earlyTasks (late : Nat → T → Bool) : Nat → List T → List T
  | _, [] => []
  | n, t :: ts => if late n t then earlyTasks late (n + 1) ts else t :: earlyTasks late (n + 1) ts

/-- The test of `sched_pending_check` for `t` at reading number `n`. -/
def Sched.late (s : Sched T) (clock : Nat → BitVec 64) (n : Nat) (t : T) : Bool :=
  ((s.tcb t).readytime - clock n).toInt < 0

/-- The tasks of `ts` that are due when reading number `n` is taken for the first of
them, `n + 1` for the second, and so on. -/
def dueTasks (clock : Nat → BitVec 64) (deadline : T → Nat) : Nat → List T → List T :=
  lateTasks fun n t => decide (deadline t < (clock n).toNat)

/-- The tasks of `ts` that are not due then. -/
def sleepingTasks (clock : Nat → BitVec 64) (deadline : T → Nat) : Nat → List T → List T :=
  earlyTasks fun n t => decide (deadline t < (clock n).toNat)

omit [DecidableEq T] in
/-- If the test of the code is the comparison of deadline and reading, the late tasks are those
that are due. -/
theorem lateTasks_eq_due {late : Nat → T → Bool} {deadline : T → Nat} {ts : List T}
    (same : ∀ n, ∀ t ∈ ts, late n t = decide (deadline t < (clock n).toNat)) (n : Nat) :
    lateTasks late n ts = dueTasks clock deadline n ts ∧
      earlyTasks late n ts = sleepingTasks clock deadline n ts := by
  induction ts generalizing n with
  | nil => exact ⟨rfl, rfl⟩
  | cons t ts ih =>
    obtain ⟨due, sleeping⟩ := ih (fun n t' inside => same n t' (.tail _ inside)) (n + 1)
    have here := same n t (.head _)
    unfold dueTasks sleepingTasks lateTasks earlyTasks
    rw [here, due, sleeping]
    exact ⟨rfl, rfl⟩

omit [DecidableEq T] in
theorem mem_late_or_early (late : Nat → T → Bool) (n : Nat) {ts : List T} :
    t ∈ ts ↔ t ∈ lateTasks late n ts ∨ t ∈ earlyTasks late n ts := by
  induction ts generalizing n with
  | nil => simp [lateTasks, earlyTasks]
  | cons x ts ih =>
    unfold lateTasks earlyTasks
    split
    · rw [List.mem_cons, List.mem_cons, ih (n + 1), or_assoc]
    · rw [List.mem_cons, List.mem_cons, ih (n + 1)]
      tauto

/-- `due` moved, in order, to the ends of the ready queues of their priorities. -/
def Queues.wake (q : Queues T) (prio : T → Priority) (due pending : List T) : Queues T :=
  ⟨fun p => q.ready p ++ due.filter (fun t => prio t = p), pending⟩

omit [DecidableEq T] in
theorem Queues.mem_wake_ready {prio : T → Priority} {due pending : List T} :
    t ∈ (q.wake prio due pending).ready p ↔ t ∈ q.ready p ∨ t ∈ due ∧ prio t = p := by
  simp [Queues.wake]

omit [DecidableEq T] in
theorem Queues.wake_has_iff {prio : T → Priority} {due pending : List T}
    (split : t ∈ q.pending ↔ t ∈ due ∨ t ∈ pending) :
    (q.wake prio due pending).Has t ↔ q.Has t := by
  unfold Queues.Has
  simp only [Queues.mem_wake_ready]
  rw [split]
  constructor
  · rintro (sleeping | ⟨p, inReady | ⟨due, -⟩⟩)
    · exact .inl (.inr sleeping)
    · exact .inr ⟨p, inReady⟩
    · exact .inl (.inl due)
  · rintro ((due | sleeping) | ⟨p, inReady⟩)
    · exact .inr ⟨prio t, .inr ⟨due, rfl⟩⟩
    · exact .inl sleeping
    · exact .inr ⟨p, .inl inReady⟩

/-- Readings and deadlines below `2 ^ 63` compare as signed 64-bit numbers. -/
theorem remain_neg_iff {readytime now : BitVec 64} (small : readytime.toNat < 2 ^ 63)
    (nowSmall : now.toNat < 2 ^ 63) :
    (readytime - now).toInt < 0 ↔ readytime.toNat < now.toNat := by
  rw [BitVec.toInt_eq_toNat_bmod, BitVec.toNat_sub, Int.bmod_def]
  split <;> omega

/-- After `sched_pending_check`, or part of it: `due` have been woken. -/
structure Checked (s : Sched T) (due : List T) (count : Nat) (q' : Queues T) (s' : Sched T) :
    Prop where
  repr : Represents s'.links q'
  same : s.Same s'
  reads : s'.reads = s.reads + count
  bit : ∀ p, s'.Bit p ↔ s.Bit p ∨ ∃ t ∈ due, s.prio t = p
  group : s.GroupOk → s'.GroupOk

theorem Queues.wake_cons {q : Queues T} {due pending : List T} {prio : T → Priority}
    (notReady : ∀ p, t ∉ q.ready p) :
    ((q.remove t).pushReady (prio t) t).wake prio due pending =
      q.wake prio (t :: due) pending := by
  unfold Queues.wake Queues.pushReady Queues.remove
  congr 1
  funext p
  simp only [Function.update_apply, List.erase_of_not_mem (notReady _), List.filter_cons]
  by_cases same : p = prio t
  · simp [same]
  · simp [same, Ne.symm same]

omit [DecidableEq T] in
theorem Sched.Same.late (same : s.Same s') : s'.late clock = s.late clock := by
  funext n t
  have readytime : (s'.tcb t).readytime = (s.tcb t).readytime :=
    BitVec.eq_of_toNat_eq (same.deadline t)
  unfold Sched.late
  rw [readytime]

omit [DecidableEq T] in
theorem Sched.late_iff (small : s.deadline t < 2 ^ 63) {n : Nat}
    (nowSmall : (clock n).toNat < 2 ^ 63) :
    s.late clock n t = decide (s.deadline t < (clock n).toNat) :=
  decide_eq_decide.mpr (remain_neg_iff small nowSmall)

/-- One turn of the loop of `sched_pending_check`, at a task. -/
theorem pendingLoop_task (fuel : Nat) (n : Node T) (s : Sched T) :
    pendingLoop clock (fuel + 1) (.task t) n s =
      let s' := { s with reads := s.reads + 1 }
      let s' := if s.late clock s.reads t then schedAttach (schedWake s' t) t else s'
      pendingLoop clock fuel n (s'.links.next n) s' := by
  have test : s.late clock s.reads t = true ↔
      ((s.tcb t).readytime - clock s.reads).toInt < 0 := decide_eq_true_iff
  rw [pendingLoop]
  cases late : s.late clock s.reads t with
  | true => simp only [getCurrentTime, test.mp late, if_true]
  | false =>
    have early : ¬ ((s.tcb t).readytime - clock s.reads).toInt < 0 := by
      rw [← test, late]
      exact Bool.false_ne_true
    simp only [getCurrentTime, early, if_false, Bool.false_eq_true]

/-- The body of the loop of `sched_pending_check`, for task `t`. -/
def checkTask (clock : Nat → BitVec 64) (s : Sched T) (t : T) : Sched T :=
  let s' := { s with reads := s.reads + 1 }
  if s.late clock s.reads t then schedAttach (schedWake s' t) t else s'

theorem checkTask_of_late (late : s.late clock s.reads t) :
    checkTask clock s t = schedAttach (schedWake { s with reads := s.reads + 1 } t) t :=
  if_pos late

theorem checkTask_of_early (early : ¬ s.late clock s.reads t) :
    checkTask clock s t = { s with reads := s.reads + 1 } :=
  if_neg early

/-- Wherever the body puts `t`, the tasks behind it stay where they are. -/
theorem checkTask_repr (repr : Represents s.links q) {kept rest : List T}
    (split : q.pending = kept ++ t :: rest) :
    ∃ q₂ kept₂, Represents (checkTask clock s t).links q₂ ∧ q₂.pending = kept₂ ++ rest := by
  have inPending : t ∈ q.pending := by rw [split]; simp
  by_cases late : s.late clock s.reads t
  · rw [checkTask_of_late late]
    have raised : Raised { s with reads := s.reads + 1 } t _ _ :=
      wakeAttach_raised repr (.inl inPending)
    exact ⟨_, kept, raised.repr, erase_split repr.nodup_pending split⟩
  · rw [checkTask_of_early late]
    refine ⟨q, kept ++ [t], repr, ?_⟩
    rw [split, List.append_assoc]
    rfl

/-- The loop from the task after `kept` on runs its body for each task that it has yet to look
at; `n` was fetched before the body ran, which moved no other task. -/
theorem pendingLoop_eq_foldl (rest : List T) :
    ∀ (kept : List T) {fuel : Nat} {s : Sched T} {q : Queues T} {n : Node T},
      Represents s.links q → q.pending = kept ++ rest → rest.length < fuel →
      (∀ t ts, rest = t :: ts → n = nodeAt .pending ts) →
      pendingLoop clock fuel (nodeAt .pending rest) n s =
        .ok (rest.foldl (checkTask clock) s) := by
  induction rest with
  | nil =>
    intro kept fuel s q n repr pending enough _
    obtain ⟨fuel, rfl⟩ : ∃ k, fuel = k + 1 := ⟨fuel - 1, by simp at enough; omega⟩
    rfl
  | cons t rest ih =>
    intro kept fuel s q n repr pending enough next
    obtain ⟨fuel, rfl⟩ : ∃ k, fuel = k + 1 := ⟨fuel - 1, by simp at enough; omega⟩
    have nIs := next t rest rfl
    obtain ⟨q₂, kept₂, repr₂, pending₂⟩ := @checkTask_repr T _ s q t clock repr kept rest pending
    have cursor : ∀ t' ts, rest = t' :: ts →
        (checkTask clock s t).links.next n = nodeAt .pending ts := by
      intro t' ts eq
      rw [nIs, eq]
      exact repr₂.next_of_pending (pending₂.trans (by rw [eq]))
    have run := ih kept₂ repr₂ pending₂ (by simp at enough; omega) cursor
    rw [← nIs] at run
    exact (pendingLoop_task fuel n s).trans run

/-- What the body does for the tasks after `kept`. The induction is on these; the late ones
leave the queue, the others join `kept`. -/
theorem foldl_checkTask (rest : List T) :
    ∀ (kept : List T) {s : Sched T} {q : Queues T},
      Represents s.links q → q.pending = kept ++ rest →
      Checked s (lateTasks (s.late clock) s.reads rest) rest.length
          (q.wake s.prio (lateTasks (s.late clock) s.reads rest)
            (kept ++ earlyTasks (s.late clock) s.reads rest)) (rest.foldl (checkTask clock) s) ∧
        ∀ u, ¬ q.Has u → SameNode s.links (rest.foldl (checkTask clock) s).links u := by
  induction rest with
  | nil =>
    intro kept s q repr pending
    refine ⟨⟨?_, ⟨fun _ => rfl, fun _ => rfl, rfl, rfl⟩, rfl, ?_, id⟩, fun _ _ => ⟨rfl, rfl⟩⟩
    · have same : q.wake s.prio [] (kept ++ []) = q := by
        unfold Queues.wake
        rw [← pending]
        simp
      exact same.symm ▸ repr
    · intro p
      simp [lateTasks]
  | cons t rest ih =>
    intro kept s q repr pending
    have inPending : t ∈ q.pending := by rw [pending]; simp
    have notReady : ∀ p, t ∉ q.ready p := fun p => repr.pending_apart inPending
    unfold lateTasks earlyTasks
    rw [List.foldl_cons]
    by_cases late : s.late clock s.reads t
    · simp only [if_pos late]
      rw [checkTask_of_late late]
      have raised : Raised { s with reads := s.reads + 1 } t _ _ :=
        wakeAttach_raised repr (.inl inPending)
      have node₂ : ∀ u, ¬ q.Has u → SameNode s.links
          (schedAttach (schedWake { s with reads := s.reads + 1 } t) t).links u :=
        fun u absent => sameNode_wakeAttach (s := { s with reads := s.reads + 1 }) repr
          (.inl inPending) absent
      generalize schedAttach (schedWake { s with reads := s.reads + 1 } t) t = s₂ at raised node₂ ⊢
      have same₂ : s.Same s₂ :=
        ⟨raised.same.prio, raised.same.deadline, raised.same.current, raised.same.attached⟩
      have repr₂ : Represents s₂.links ((q.remove t).pushReady (s.prio t) t) := raised.repr
      have pending₂ : ((q.remove t).pushReady (s.prio t) t).pending = kept ++ rest :=
        erase_split repr.nodup_pending pending
      have prio₂ : s₂.prio = s.prio := funext same₂.prio
      have reads₂ : s₂.reads = s.reads + 1 := raised.reads
      obtain ⟨checked, node⟩ := ih kept repr₂ pending₂
      rw [same₂.late, prio₂, reads₂] at checked
      refine ⟨⟨?_, same₂.trans checked.same, ?_, ?_, ?_⟩, ?_⟩
      · rw [← Queues.wake_cons notReady]
        exact checked.repr
      · rw [checked.reads, reads₂, List.length_cons]
        omega
      · intro p
        rw [checked.bit, raised.bit, prio₂]
        simp only [List.mem_cons, exists_eq_or_imp]
        rw [eq_comm, or_comm (a := _ = _), or_assoc]
        rfl
      · exact fun ok => checked.group (raised.group ok)
      · intro u absent
        refine (node₂ u absent).trans (node u ?_)
        rw [Queues.pushReady_has_iff, repr.remove_has_iff]
        rintro (rfl | ⟨-, has⟩)
        · exact absent (.inl inPending)
        · exact absent has
    · simp only [if_neg late]
      rw [checkTask_of_early late]
      have repr₂ : Represents { s with reads := s.reads + 1 }.links q := repr
      have pending₂ : q.pending = (kept ++ [t]) ++ rest := by rw [pending]; simp
      obtain ⟨checked, node⟩ := ih (kept ++ [t]) repr₂ pending₂
      have repr' := checked.repr
      rw [List.append_assoc] at repr'
      refine ⟨⟨repr', ?_, ?_, checked.bit, checked.group⟩, node⟩
      · exact ⟨checked.same.prio, checked.same.deadline, checked.same.current,
          checked.same.attached⟩
      · rw [checked.reads, List.length_cons]
        simp only
        omega

/-- The whole of `sched_pending_check` is its body for one task of the pending queue after the
other. -/
theorem schedPendingCheck_eq_foldl (repr : Represents s.links q)
    (bound : q.pending.length ≤ s.attached.length) :
    schedPendingCheck clock s = .ok (q.pending.foldl (checkTask clock) s) := by
  have next : ∀ t ts, q.pending = t :: ts →
      s.links.next (s.links.next .pending) = nodeAt .pending ts := by
    intro t ts eq
    rw [repr.next_pending, eq]
    exact repr.next_of_pending (eq.trans (List.nil_append _).symm)
  have enough : q.pending.length < s.attached.length + 1 := by omega
  have run := @pendingLoop_eq_foldl T _ clock q.pending [] _ s q _ repr rfl enough next
  unfold schedPendingCheck
  rw [repr.next_pending] at run ⊢
  exact run

/-- `sched_pending_check` moves the late tasks to their ready queues, and leaves alone tasks
that are on no queue. -/
theorem schedPendingCheck_late (repr : Represents s.links q)
    (bound : q.pending.length ≤ s.attached.length) :
    ∃ s', schedPendingCheck clock s = .ok s' ∧
      Checked s (lateTasks (s.late clock) s.reads q.pending) q.pending.length
        (q.wake s.prio (lateTasks (s.late clock) s.reads q.pending)
          (earlyTasks (s.late clock) s.reads q.pending)) s' ∧
      ∀ u, ¬ q.Has u → SameNode s.links s'.links u := by
  obtain ⟨checked, node⟩ := @foldl_checkTask T _ clock q.pending [] s q repr rfl
  exact ⟨_, schedPendingCheck_eq_foldl repr bound, checked, node⟩

/-- The queues after `sched_pending_check`, with the late tasks on their ready queues. -/
def Queues.check (q : Queues T) (clock : Nat → BitVec 64) (s : Sched T) : Queues T :=
  q.wake s.prio (dueTasks clock s.deadline s.reads q.pending)
    (sleepingTasks clock s.deadline s.reads q.pending)

/-- With readings and deadlines below `2 ^ 63`, the late tasks are those that are due. -/
theorem schedPendingCheck_spec (clockSmall : ∀ n, (clock n).toNat < 2 ^ 63)
    (repr : Represents s.links q) (bound : q.pending.length ≤ s.attached.length)
    (small : ∀ t ∈ q.pending, s.deadline t < 2 ^ 63) :
    ∃ s', schedPendingCheck clock s = .ok s' ∧
      Checked s (dueTasks clock s.deadline s.reads q.pending) q.pending.length
        (q.check clock s) s' ∧
      ∀ u, ¬ q.Has u → SameNode s.links s'.links u := by
  have late : ∀ n, ∀ t ∈ q.pending,
      s.late clock n t = decide (s.deadline t < (clock n).toNat) :=
    fun n t inside => Sched.late_iff (small t inside) (clockSmall n)
  obtain ⟨due, sleeping⟩ := lateTasks_eq_due late s.reads
  obtain ⟨s', run, checked, node⟩ := @schedPendingCheck_late T _ s q clock repr bound
  rw [due, sleeping] at checked
  exact ⟨s', run, checked, node⟩

/-! ## `schedule` and `sched_sleep` -/

/-- The loop of `schedule` finds the first task of the queue that is not the current one. -/
theorem readyLoop_spec {current : T} {rest : List T} :
    ∀ {fuel : Nat} {before : List T} {n : Node T}, Represents s.links q →
      q.ready p = before ++ rest → rest.length < fuel →
      (∀ t ts, rest = t :: ts → n = nodeAt (.ready p) ts) →
      readyLoop p current fuel (nodeAt (.ready p) rest) n s =
        .ok (rest.find? (fun t => current ≠ t)) := by
  induction rest with
  | nil =>
    intro fuel before n repr split enough next
    obtain ⟨fuel, rfl⟩ : ∃ k, fuel = k + 1 := ⟨fuel - 1, by simp at enough; omega⟩
    simp [nodeAt, readyLoop]
  | cons t rest ih =>
    intro fuel before n repr split enough next
    obtain ⟨fuel, rfl⟩ : ∃ k, fuel = k + 1 := ⟨fuel - 1, by simp at enough; omega⟩
    have nIs := next t rest rfl
    by_cases same : current = t
    · have split' : q.ready p = (before ++ [t]) ++ rest := by rw [split]; simp
      have next' : ∀ t' ts, rest = t' :: ts → s.links.next n = nodeAt (.ready p) ts := by
        intro t' ts eq
        rw [nIs, eq]
        exact repr.next_of_ready (split'.trans (by rw [eq]))
      have run := ih repr split' (by simp at enough; omega) next'
      rw [← nIs] at run
      simp only [nodeAt, readyLoop, same, ne_eq, not_true_eq_false, if_false]
      rw [← same, run]
      simp [same]
    · simp [nodeAt, readyLoop, same]

/-- The loop over a ready queue, as `schedule` calls it, finds the first task other than the
current one. -/
theorem Represents.readyLoop_eq (repr : Represents s.links q) (current : T)
    (bound : (q.ready p).length ≤ s.attached.length) :
    readyLoop p current (s.attached.length + 1) (s.links.next (.ready p))
      (s.links.next (s.links.next (.ready p))) s =
      .ok ((q.ready p).find? (fun t => current ≠ t)) := by
  rw [repr.next_ready]
  refine readyLoop_spec repr (List.nil_append _).symm (Nat.lt_succ_of_le bound) ?_
  intro t ts eq
  rw [eq]
  exact repr.next_of_ready (eq.trans (List.nil_append _).symm)

theorem switchTo_spec (repr : Represents s.links q) (has : q.Has t) :
    Represents (switchTo s t).links ((q.remove t).pushPending t) :=
  (repr.del has).pushPending repr.not_has_remove

theorem switchTo_same (s : Sched T) (t : T) :
    s.Same { switchTo s t with current := s.current } :=
  ⟨(s.same_setState t .running).prio, (s.same_setState t .running).deadline, rfl, rfl⟩

/-- The effect of `sched_sleep`: `t` goes to the end of the pending queue, and its bit is
dropped if it leaves its ready queue empty. -/
structure Slept (s : Sched T) (t : T) (q : Queues T) (s' : Sched T) : Prop where
  repr : Represents s'.links ((q.remove t).pushPending t)
  same : s.Same s'
  reads : s'.reads = s.reads
  bit : ∀ p, s'.Bit p ↔ s.Bit p ∧ (p = s.prio t → (q.remove t).ready p ≠ [])
  group : s.GroupOk → s'.GroupOk

/-- Dropping a bit changes the group and the bitmap only. -/
theorem Sched.lower_same (s : Sched T) (p : Priority) :
    s.Same (s.lower p) ∧ (s.lower p).links = s.links ∧ (s.lower p).reads = s.reads := by
  cases empty : s.links.isEmpty (.ready p) with
  | false =>
    rw [lower_of_busy empty]
    exact ⟨⟨fun _ => rfl, fun _ => rfl, rfl, rfl⟩, rfl, rfl⟩
  | true =>
    rw [lower_of_empty empty]
    exact ⟨⟨fun _ => rfl, fun _ => rfl, rfl, rfl⟩, rfl, rfl⟩

/-- The bit that `lower` looks at survives iff its queue is not empty. -/
theorem Represents.lower_bit_iff (repr : Represents s.links q) {p' : Priority} :
    (s.lower p).Bit p' ↔ s.Bit p' ∧ (p' = p → q.ready p' ≠ []) := by
  cases empty : s.links.isEmpty (.ready p) with
  | true =>
    have isNil := repr.isEmpty_iff.mp empty
    rw [bit_lower_iff empty]
    constructor
    · rintro ⟨ne, set⟩
      exact ⟨set, fun same => absurd same ne⟩
    · rintro ⟨set, nonempty⟩
      refine ⟨?_, set⟩
      rintro rfl
      exact nonempty rfl isNil
  | false =>
    rw [lower_of_busy empty]
    refine ⟨fun set => ⟨set, ?_⟩, fun both => both.1⟩
    rintro rfl isNil
    rw [repr.isEmpty_iff.mpr isNil] at empty
    cases empty

theorem schedSleep_eq (s : Sched T) (t : T) :
    schedSleep s t =
      let s₁ := { s.setState t .sleeping with links := s.links.delInit (.task t) }.lower (s.prio t)
      { s₁ with links := s₁.links.addTail (.task t) .pending } := by
  have small := (s.prio t).isLt
  let s₁ : Sched T := { s.setState t .sleeping with links := s.links.delInit (.task t) }
  have prio : (s₁.tcb t).schedPriority = s.prio t := (s.same_setState t .sleeping).prio t
  change (if (s₁.tcb t).schedPriority.val / 8 > 4 then s₁ else
    { s₁.lower (s₁.tcb t).schedPriority with
      links := (s₁.lower (s₁.tcb t).schedPriority).links.addTail (.task t) .pending }) = _
  rw [prio, if_neg (by omega)]

theorem schedSleep_links (s : Sched T) (t : T) :
    (schedSleep s t).links = (s.links.delInit (.task t)).addTail (.task t) .pending := by
  rw [schedSleep_eq]
  simp only [(Sched.lower_same _ _).2.1]

theorem schedSleep_slept (repr : Represents s.links q) (has : q.Has t) :
    Slept s t q (schedSleep s t) := by
  have reprDel := repr.delInit has
  -- the state when the check of the ready queue starts
  let s₁ : Sched T := { s.setState t .sleeping with links := s.links.delInit (.task t) }
  have state : s.Same s₁ :=
    ⟨(s.same_setState t .sleeping).prio, (s.same_setState t .sleeping).deadline, rfl, rfl⟩
  have repr₁ : Represents s₁.links (q.remove t) := reprDel
  obtain ⟨same, -, reads⟩ := s₁.lower_same (s.prio t)
  have same' : s.Same (s₁.lower (s.prio t)) := state.trans same
  have links := schedSleep_links s t
  rw [schedSleep_eq] at links ⊢
  refine ⟨?_, ⟨same'.prio, same'.deadline, same'.current, same'.attached⟩, reads, ?_, ?_⟩
  · rw [links]
    exact reprDel.pushPending repr.not_has_remove
  · exact fun p => repr₁.lower_bit_iff
  · exact fun ok => groupOk_lower ok

end Refine

end Chinos
