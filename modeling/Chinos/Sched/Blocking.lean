import Chinos.Sched.Run

/-!
# Blocking, unblocking and detaching

Besides sleeping, tasks are taken from the scheduler by `sched_block` and
`sched_detach` and given back by `sched_unblock` and `sched_attach`. A blocked task's
list node points to itself, so it can be taken out once more; a detached task's node is
poisoned. This module follows the four operations on the queues and shows that every
operation leaves the nodes of tasks that are on no queue alone.
-/

namespace Chinos

section Unlink

variable {T : Type} [DecidableEq T] {links : Links (Node T)} {s : Sched T} {q : Queues T} {t u : T}

theorem Queues.remove_of_absent (absent : ¬ q.Has t) : q.remove t = q := by
  have notReady : ∀ p, t ∉ q.ready p := fun p inside => absent (.inr ⟨p, inside⟩)
  have notPending : t ∉ q.pending := fun inside => absent (.inl inside)
  unfold Queues.remove
  simp only [List.erase_of_not_mem (notReady _), List.erase_of_not_mem notPending]

/-- `list_del_init` of a task that is on a queue or was taken out before. -/
theorem Represents.delInit_linked (repr : Represents links q)
    (linked : q.Has t ∨ SelfLinked links t) :
    Represents (links.delInit (.task t)) (q.remove t) := by
  by_cases has : q.Has t
  · exact repr.delInit has
  · have self := linked.resolve_left has
    rw [Queues.remove_of_absent has]
    refine repr.congr has (fun x ne => Links.delInit_of_ne ne ?_ ?_)
    · rwa [self.2]
    · rwa [self.1]

/-- `list_del` takes a task off its queue, or leaves the queues alone if the task is linked to
itself. -/
theorem Represents.del_linked (repr : Represents links q)
    (linked : q.Has t ∨ SelfLinked links t) :
    Represents (links.del .poison₁ .poison₂ (.task t)) (q.remove t) := by
  by_cases has : q.Has t
  · exact repr.del has
  · have self := linked.resolve_left has
    rw [Queues.remove_of_absent has]
    refine repr.congr has (fun x ne => Links.del_of_ne ne ?_ ?_)
    · rwa [self.2]
    · rwa [self.1]

omit [DecidableEq T] in
/-- The neighbours of such a task are on a queue, or the task itself. -/
theorem Represents.linked_ne (repr : Represents links q) (linked : q.Has u ∨ SelfLinked links u)
    (absent : ¬ q.Has t) (ne : t ≠ u) :
    Node.task t ≠ .task u ∧ Node.task t ≠ links.prev (.task u) ∧
      Node.task t ≠ links.next (.task u) := by
  by_cases has : q.Has u
  · exact repr.neighbours_ne has absent
  · have self := linked.resolve_left has
    have apart : Node.task t ≠ .task u := fun same => ne (Node.task.inj same)
    exact ⟨apart, self.2.symm ▸ apart, self.1.symm ▸ apart⟩

theorem Sched.same_lower (s : Sched T) (t : T) (state : TaskState) (links : Links (Node T))
    (p : Priority) : s.Same ({ s.setState t state with links := links }.lower p) := by
  have set : s.Same { s.setState t state with links := links } :=
    ⟨(s.same_setState t state).prio, (s.same_setState t state).deadline, rfl, rfl⟩
  exact set.trans (Sched.lower_same _ p).1

/-- The end of `sched_block` and of `sched_detach`: new links, and the bit of an empty queue
dropped. -/
theorem Lowered.of_links {links : Links (Node T)} (repr : Represents links (q.remove t))
    (s : Sched T) (state : TaskState) :
    Lowered s t q (q.remove t) ({ s.setState t state with links := links }.lower (s.prio t)) := by
  let s₁ : Sched T := { s.setState t state with links := links }
  have repr₁ : Represents s₁.links (q.remove t) := repr
  obtain ⟨-, sameLinks, reads⟩ := s₁.lower_same (s.prio t)
  have all := s.same_lower t state links (s.prio t)
  exact
    { repr := sameLinks.symm ▸ repr
      ready := fun _ => rfl
      pending := fun u ne inPending => (List.mem_erase_of_ne ne).mpr inPending
      prio := all.prio
      deadline := fun u _ => all.deadline u
      current := all.current
      attached := all.attached
      reads := reads.ge
      bit := fun p => repr₁.lower_bit_iff
      group := fun ok => groupOk_lower ok }

/-! ## `sched_block` -/

theorem schedBlock_eq (s : Sched T) (t : T) :
    schedBlock s t =
      { s.setState t .pending with links := s.links.delInit (.task t) }.lower (s.prio t) := by
  have small := (s.prio t).isLt
  have prio := (s.same_setState t .pending).prio t
  unfold schedBlock
  change (if ((s.setState t .pending).prio t).val / 8 > 4 then _ else
    Sched.lower _ ((s.setState t .pending).prio t)) = _
  rw [prio, if_neg (by omega)]
  rfl

theorem schedBlock_links (s : Sched T) (t : T) :
    (schedBlock s t).links = s.links.delInit (.task t) := by
  rw [schedBlock_eq]
  exact (Sched.lower_same _ _).2.1

theorem schedBlock_lowered (repr : Represents s.links q)
    (linked : q.Has t ∨ SelfLinked s.links t) :
    Lowered s t q (q.remove t) (schedBlock s t) := by
  rw [schedBlock_eq]
  exact Lowered.of_links (repr.delInit_linked linked) s .pending

theorem schedBlock_same (s : Sched T) (t : T) : s.Same (schedBlock s t) := by
  rw [schedBlock_eq]
  exact s.same_lower t .pending _ _

/-! ## `sched_detach` -/

/-- The links after `sched_detach`, which takes the task off only if the ready queue of its
priority is not empty. -/
def detachLinks (s : Sched T) (t : T) : Links (Node T) :=
  if s.links.isEmpty (.ready (s.prio t)) then s.links
  else s.links.del .poison₁ .poison₂ (.task t)

theorem schedDetachQueues_eq (s : Sched T) (t : T) :
    schedDetachQueues s t =
      { s.setState t .inactive with links := detachLinks s t }.lower (s.prio t) := by
  have small := (s.prio t).isLt
  have prio : ((s.setState t .inactive).tcb t).schedPriority = s.prio t :=
    (s.same_setState t .inactive).prio t
  have links : (s.setState t .inactive).links = s.links := rfl
  unfold schedDetachQueues detachLinks
  simp only [prio, links]
  by_cases empty : s.links.isEmpty (.ready (s.prio t)) = true
  · simp only [if_pos empty, prio]
    rw [if_neg (by omega)]
    rfl
  · simp only [if_neg empty, prio]
    rw [if_neg (by omega)]

theorem schedDetachQueues_links (s : Sched T) (t : T) :
    (schedDetachQueues s t).links = detachLinks s t := by
  rw [schedDetachQueues_eq]
  exact (Sched.lower_same _ _).2.1

theorem schedDetachQueues_same (s : Sched T) (t : T) : s.Same (schedDetachQueues s t) := by
  rw [schedDetachQueues_eq]
  exact s.same_lower t .inactive _ _

/-- `sched_detach` takes the task out if it looks at a non-empty queue, or has nothing to
take out. -/
theorem schedDetachQueues_lowered (repr : Represents s.links q)
    (found : s.links.isEmpty (.ready (s.prio t)) = false ∧ (q.Has t ∨ SelfLinked s.links t) ∨
      ¬ q.Has t ∧ SelfLinked s.links t) :
    Lowered s t q (q.remove t) (schedDetachQueues s t) := by
  rw [schedDetachQueues_eq]
  refine Lowered.of_links ?_ s .inactive
  unfold detachLinks
  split
  · rename_i empty
    have absent : ¬ q.Has t := by
      rcases found with ⟨busy, -⟩ | ⟨absent, -⟩
      · rw [busy] at empty
        cases empty
      · exact absent
    rw [Queues.remove_of_absent absent]
    exact repr
  · exact repr.del_linked (found.elim (fun both => both.2) (fun both => .inr both.2))

/-! ## `sched_unblock` -/

theorem schedUnblock_eq (s : Sched T) (t : T) :
    schedUnblock s t =
      { s.setState t .readytorun with
        links := s.links.addHead (.task t) (.ready (s.prio t)) }.raise (s.prio t) := by
  have prio : ((s.setState t .readytorun).tcb t).schedPriority = s.prio t :=
    (s.same_setState t .readytorun).prio t
  unfold schedUnblock
  simp only [prio]
  rfl

theorem schedUnblock_raised (repr : Represents s.links q) (absent : ¬ q.Has t) :
    Raised s t (q.pushFront (s.prio t) t) (schedUnblock s t) := by
  have state := s.same_setState t .readytorun
  have raised := Raised.of_links (repr.pushFront absent (s.prio t)) (s.setState t .readytorun) t
  rw [state.prio t] at raised
  rw [schedUnblock_eq]
  refine ⟨raised.repr, state.trans raised.same, raised.reads, fun p => ?_, raised.group⟩
  rw [raised.bit, state.prio t]
  rfl

/-! ## Nodes that are on no queue -/

theorem sameNode_block (repr : Represents s.links q) (linked : q.Has u ∨ SelfLinked s.links u)
    (absent : ¬ q.Has t) (ne : t ≠ u) : SameNode s.links (schedBlock s u).links t := by
  obtain ⟨apart, nePrev, neNext⟩ := repr.linked_ne linked absent ne
  rw [schedBlock_links]
  exact Links.delInit_of_ne apart nePrev neNext

theorem sameNode_detach (repr : Represents s.links q) (linked : q.Has u ∨ SelfLinked s.links u)
    (absent : ¬ q.Has t) (ne : t ≠ u) : SameNode s.links (schedDetachQueues s u).links t := by
  obtain ⟨apart, nePrev, neNext⟩ := repr.linked_ne linked absent ne
  rw [schedDetachQueues_links]
  unfold detachLinks
  split
  · exact ⟨rfl, rfl⟩
  · exact Links.del_of_ne apart nePrev neNext

theorem sameNode_unblock (repr : Represents s.links q) (absent : ¬ q.Has t) (ne : t ≠ u) :
    SameNode s.links (schedUnblock s u).links t := by
  rw [schedUnblock_eq, raise_eq]
  exact repr.sameNode_addHead (isHead_ready _) absent ne

theorem sameNode_attach (repr : Represents s.links q) (absent : ¬ q.Has t) (ne : t ≠ u) :
    SameNode s.links (schedAttach s u).links t := by
  unfold schedAttach
  rw [raise_eq]
  exact repr.sameNode_addTail (isHead_ready _) absent ne

theorem sameNode_switch (repr : Represents s.links q) (has : q.Has u) (absent : ¬ q.Has t) :
    SameNode s.links (switchTo s u).links t := by
  have ne : t ≠ u := by
    rintro rfl
    exact absent has
  have stillAbsent : ¬ (q.remove u).Has t := fun has' => absent (repr.remove_has_iff.mp has').2
  exact (repr.sameNode_del has absent).trans
    ((repr.del has).sameNode_addTail isHead_pending stillAbsent ne)

theorem sameNode_nanosleep {clock : Nat → BitVec 64} {tvSec tvNsec : BitVec 64}
    (repr : Represents s.links q) (has : q.Has s.current) (absent : ¬ q.Has t) :
    SameNode s.links (sysNanosleep clock tvSec tvNsec s).links t := by
  have ne : t ≠ s.current := by
    rintro rfl
    exact absent has
  have stillAbsent : ¬ (q.remove s.current).Has t :=
    fun has' => absent (repr.remove_has_iff.mp has').2
  have added := (repr.delInit has).sameNode_addTail isHead_pending stillAbsent ne
  unfold sysNanosleep
  rw [schedSleep_links]
  exact (repr.sameNode_delInit has absent).trans added

end Unlink

/-! ## `schedule` with any tasks on the queues -/

section Reschedule

variable {T : Type} [DecidableEq T] {setup : SchedSetup T} {on : T → Prop} {s : Sched T}
  {q : Queues T}

/-- `schedule` from `s` to `s'`, selecting in `s₁`, when the tasks in `on` are on the
queues. -/
structure Rescheduled (setup : SchedSetup T) (on : T → Prop) (s s₁ : Sched T) (q₁ : Queues T)
    (s' : Sched T) (q' : Queues T) : Prop where
  check : schedPendingCheck setup.clock s = .ok s₁
  repr : Represents s₁.links q₁
  awake : ∀ t, on t → (∀ m, s.reads ≤ m → s.deadline t < (setup.clock m).toNat) →
    t ∈ q₁.ready (s.prio t)
  run : schedule setup.clock s = .ok s'
  inv : QueueInv setup on q' s'
  current : s'.current = s.current ∨ on s'.current
  node : ∀ t, ¬ on t → SameNode s.links s'.links t
  deadline : ∀ t, s'.deadline t = s.deadline t
  attached : s'.attached = s.attached
  reads : s.reads ≤ s'.reads

/-- `schedule` returns even if no task is ready, with the current task kept. -/
theorem QueueInv.schedule (inv : QueueInv setup on q s) :
    ∃ s₁ q₁ s' q', Rescheduled setup on s s₁ q₁ s' q' := by
  obtain ⟨s₁, check, checked, inv₁, bits, awake, node⟩ := inv.check
  obtain ⟨p, select⟩ := selectPriority_ok inv₁.group
  have run := schedule_eq check select (inv₁.readyLoop_eq p s.current)
  have reads : s.reads ≤ s₁.reads := by
    rw [checked.reads]
    omega
  cases found : ((q.check setup.clock s).ready p).find? (fun t => s.current ≠ t) with
  | none =>
    rw [found] at run
    exact ⟨s₁, _, s₁, _, check, inv₁.repr, awake, run, inv₁, .inl checked.same.current, node,
      checked.same.deadline, checked.same.attached, reads⟩
  | some t =>
    rw [found] at run
    have inside := List.mem_of_find?_eq_some found
    have has : (q.check setup.clock s).Has t := .inr ⟨p, inside⟩
    refine ⟨s₁, _, switchTo s₁ t, _, check, inv₁.repr, awake, run, inv₁.switch bits inside,
      .inr ((inv₁.has_iff t).mp has), ?_, ?_, checked.same.attached, reads⟩
    · intro u off
      refine (node u off).trans (sameNode_switch inv₁.repr has ?_)
      exact fun has' => off ((inv₁.has_iff u).mp has')
    · intro u
      exact ((switchTo_same s₁ t).deadline u).trans (checked.same.deadline u)

end Reschedule

end Chinos
