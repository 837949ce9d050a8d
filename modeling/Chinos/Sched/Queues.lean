import Chinos.Sched.Model

/-!
# Queues as lists

Above the pointers, the scheduler keeps one list of tasks for each priority and a
list of pending tasks. `Represents` ties the two levels together; adding and
deleting nodes follow the list operations.
-/

namespace Chinos

/-- The queues of the scheduler as lists of tasks, from front to end. -/
structure Queues (T : Type) where
  ready : Priority → List T
  pending : List T

section Queues

variable {T : Type} [DecidableEq T]

/-- The task is on one of the queues. -/
def Queues.Has (q : Queues T) (t : T) : Prop := t ∈ q.pending ∨ ∃ p, t ∈ q.ready p

/-- The queues with `t` put at the end of ready queue `p`. -/
def Queues.pushReady (q : Queues T) (p : Priority) (t : T) : Queues T :=
  { q with ready := Function.update q.ready p (q.ready p ++ [t]) }

/-- The queues with `t` put at the front of ready queue `p`. -/
def Queues.pushFront (q : Queues T) (p : Priority) (t : T) : Queues T :=
  { q with ready := Function.update q.ready p (t :: q.ready p) }

/-- The queues with `t` put at the end of the pending queue. -/
def Queues.pushPending (q : Queues T) (t : T) : Queues T := { q with pending := q.pending ++ [t] }

/-- The queues with `t` taken from the one it is on. -/
def Queues.remove (q : Queues T) (t : T) : Queues T :=
  ⟨fun p => (q.ready p).erase t, q.pending.erase t⟩

/-- The node is the head of one of the 33 queues. -/
def IsHead : Node T → Prop
  | .ready _ => True
  | .pending => True
  | _ => False

omit [DecidableEq T] in
theorem isHead_ready (p : Priority) : IsHead (T := T) (.ready p) := trivial

omit [DecidableEq T] in
theorem isHead_pending : IsHead (T := T) .pending := trivial

/-- The nodes of the queue that a head belongs to. -/
def Queues.nodes (q : Queues T) : Node T → List (Node T)
  | .ready p => (q.ready p).map .task
  | .pending => q.pending.map .task
  | _ => []

/-- The pointers spell out `q`: 33 circular lists with no node in common. -/
def Represents (links : Links (Node T)) (q : Queues T) : Prop := links.Rings IsHead q.nodes

section Represents

variable {links : Links (Node T)} {q : Queues T} {t : T} {p : Priority}

omit [DecidableEq T] in
theorem mem_map_task {ts : List T} : Node.task t ∈ ts.map Node.task ↔ t ∈ ts :=
  List.mem_map_of_injective fun _ _ same => Node.task.inj same

omit [DecidableEq T] in
theorem Queues.has_iff : q.Has t ↔ ∃ h, IsHead h ∧ Node.task t ∈ q.nodes h := by
  constructor
  · rintro (inPending | ⟨p, inReady⟩)
    · exact ⟨.pending, trivial, mem_map_task.mpr inPending⟩
    · exact ⟨.ready p, trivial, mem_map_task.mpr inReady⟩
  · rintro ⟨h, isHead, inside⟩
    cases h with
    | ready p => exact .inr ⟨p, mem_map_task.mp inside⟩
    | pending => exact .inl (mem_map_task.mp inside)
    | task t => cases isHead
    | poison₁ => cases isHead
    | poison₂ => cases isHead

omit [DecidableEq T] in
theorem Represents.nodup_ready (repr : Represents links q) : (q.ready p).Nodup :=
  (List.nodup_cons.mp (Links.Rings.ring repr (isHead_ready p)).distinct).2.of_map _

omit [DecidableEq T] in
theorem Represents.nodup_pending (repr : Represents links q) : q.pending.Nodup :=
  (List.nodup_cons.mp (Links.Rings.ring repr isHead_pending).distinct).2.of_map _

omit [DecidableEq T] in
theorem Represents.ready_apart (repr : Represents links q) {p' : Priority} (ne : p ≠ p')
    (inside : t ∈ q.ready p) : t ∉ q.ready p' := by
  intro inOther
  refine Links.Rings.apart repr (isHead_ready p) (isHead_ready p') ?_ (.task t) ?_ ?_
  · exact fun same => ne (Node.ready.inj same)
  · exact .tail _ (mem_map_task.mpr inside)
  · exact .tail _ (mem_map_task.mpr inOther)

omit [DecidableEq T] in
theorem Represents.pending_apart (repr : Represents links q) (inside : t ∈ q.pending) :
    t ∉ q.ready p := by
  intro inOther
  refine Links.Rings.apart repr isHead_pending (isHead_ready p) ?_ (.task t) ?_ ?_
  · exact fun same => nomatch same
  · exact .tail _ (mem_map_task.mpr inside)
  · exact .tail _ (mem_map_task.mpr inOther)

theorem Represents.isEmpty_iff (repr : Represents links q) :
    links.isEmpty (.ready p) = true ↔ q.ready p = [] := by
  rw [(Links.Rings.ring repr (isHead_ready p)).isEmpty_iff]
  exact List.map_eq_nil_iff

omit [DecidableEq T] in
theorem not_mem_heads (absent : ¬ q.Has t) {h : Node T} (isHead : IsHead h) :
    Node.task t ∉ h :: q.nodes h := by
  intro inside
  rcases List.mem_cons.mp inside with rfl | inList
  · cases isHead
  · exact absent (Queues.has_iff.mpr ⟨h, isHead, inList⟩)

theorem Queues.nodes_setReady (q : Queues T) (p : Priority) (ts : List T) :
    Queues.nodes { q with ready := Function.update q.ready p ts } =
      Function.update q.nodes (.ready p) (ts.map .task) := by
  funext h
  cases h with
  | ready p' =>
    by_cases same : p' = p
    · subst same
      simp [Queues.nodes]
    · have ne : Node.ready p' ≠ (Node.ready p : Node T) := fun eq => same (Node.ready.inj eq)
      simp [Queues.nodes, same, ne]
  | pending => simp [Queues.nodes]
  | task t => simp [Queues.nodes]
  | poison₁ => simp [Queues.nodes]
  | poison₂ => simp [Queues.nodes]

theorem Queues.nodes_pushReady (q : Queues T) (p : Priority) (t : T) :
    (q.pushReady p t).nodes =
      Function.update q.nodes (.ready p) (q.nodes (.ready p) ++ [.task t]) := by
  unfold Queues.pushReady
  rw [Queues.nodes_setReady, List.map_append]
  rfl

theorem Queues.nodes_pushFront (q : Queues T) (p : Priority) (t : T) :
    (q.pushFront p t).nodes =
      Function.update q.nodes (.ready p) (.task t :: q.nodes (.ready p)) := by
  unfold Queues.pushFront
  rw [Queues.nodes_setReady, List.map_cons]
  rfl

theorem Queues.nodes_pushPending (q : Queues T) (t : T) :
    (q.pushPending t).nodes =
      Function.update q.nodes .pending (q.nodes .pending ++ [.task t]) := by
  funext h
  cases h with
  | ready p => simp [Queues.nodes, Queues.pushPending]
  | pending => simp [Queues.nodes, Queues.pushPending]
  | task t => simp [Queues.nodes]
  | poison₁ => simp [Queues.nodes]
  | poison₂ => simp [Queues.nodes]

theorem Represents.pushReady (repr : Represents links q) (absent : ¬ q.Has t) (p : Priority) :
    Represents (links.addTail (.task t) (.ready p)) (q.pushReady p t) := by
  unfold Represents
  rw [Queues.nodes_pushReady]
  exact Links.Rings.addTail repr (isHead_ready p) (fun isHead => not_mem_heads absent isHead)

theorem Represents.pushFront (repr : Represents links q) (absent : ¬ q.Has t) (p : Priority) :
    Represents (links.addHead (.task t) (.ready p)) (q.pushFront p t) := by
  unfold Represents
  rw [Queues.nodes_pushFront]
  exact Links.Rings.addHead repr (isHead_ready p) (fun isHead => not_mem_heads absent isHead)

theorem Represents.pushPending (repr : Represents links q) (absent : ¬ q.Has t) :
    Represents (links.addTail (.task t) .pending) (q.pushPending t) := by
  unfold Represents
  rw [Queues.nodes_pushPending]
  exact Links.Rings.addTail repr isHead_pending (fun isHead => not_mem_heads absent isHead)

theorem erase_split {ts as bs : List T} (distinct : ts.Nodup) (eq : ts = as ++ t :: bs) :
    ts.erase t = as ++ bs := by
  subst eq
  have notMem : t ∉ as := by
    intro inside
    exact (List.nodup_append.mp distinct).2.2 t inside t (.head _) rfl
  rw [List.erase_append_right _ notMem, List.erase_cons_head]

/-- Taking out a task, whatever queue it is on, is taking its node out of one list. -/
theorem Represents.split (repr : Represents links q) (has : q.Has t) :
    ∃ h xs ys, IsHead h ∧ q.nodes h = xs ++ .task t :: ys ∧
      (q.remove t).nodes = Function.update q.nodes h (xs ++ ys) := by
  rcases has with inPending | ⟨p, inReady⟩
  · obtain ⟨as, bs, eq⟩ := List.append_of_mem inPending
    refine ⟨.pending, as.map .task, bs.map .task, isHead_pending, ?_, ?_⟩
    · simp [Queues.nodes, eq]
    · funext h
      cases h with
      | ready p =>
        simp [Queues.nodes, Queues.remove, List.erase_of_not_mem (repr.pending_apart inPending)]
      | pending => simp [Queues.nodes, Queues.remove, erase_split repr.nodup_pending eq]
      | task t => simp [Queues.nodes]
      | poison₁ => simp [Queues.nodes]
      | poison₂ => simp [Queues.nodes]
  · obtain ⟨as, bs, eq⟩ := List.append_of_mem inReady
    refine ⟨.ready p, as.map .task, bs.map .task, isHead_ready p, ?_, ?_⟩
    · simp [Queues.nodes, eq]
    · have notPending : t ∉ q.pending := fun inPending => repr.pending_apart inPending inReady
      funext h
      cases h with
      | ready p' =>
        by_cases same : p' = p
        · subst same
          simp [Queues.nodes, Queues.remove, erase_split repr.nodup_ready eq]
        · have ne : Node.ready p' ≠ (Node.ready p : Node T) := fun h => same (Node.ready.inj h)
          have notHere : t ∉ q.ready p' := repr.ready_apart (Ne.symm same) inReady
          simp [Queues.nodes, Queues.remove, ne, List.erase_of_not_mem notHere]
      | pending => simp [Queues.nodes, Queues.remove, List.erase_of_not_mem notPending]
      | task t => simp [Queues.nodes]
      | poison₁ => simp [Queues.nodes]
      | poison₂ => simp [Queues.nodes]

theorem Represents.delInit (repr : Represents links q) (has : q.Has t) :
    Represents (links.delInit (.task t)) (q.remove t) := by
  obtain ⟨h, xs, ys, isHead, split, nodes⟩ := repr.split has
  unfold Represents
  rw [nodes]
  exact Links.Rings.delInit repr isHead split

theorem Represents.del (repr : Represents links q) (has : q.Has t) :
    Represents (links.del .poison₁ .poison₂ (.task t)) (q.remove t) := by
  obtain ⟨h, xs, ys, isHead, split, nodes⟩ := repr.split has
  unfold Represents
  rw [nodes]
  exact Links.Rings.del repr isHead split

theorem Represents.not_has_remove (repr : Represents links q) : ¬ (q.remove t).Has t := by
  rintro (inPending | ⟨p, inReady⟩)
  · exact repr.nodup_pending.not_mem_erase inPending
  · exact repr.nodup_ready.not_mem_erase inReady

theorem Represents.remove_has_iff (repr : Represents links q) {t' : T} :
    (q.remove t).Has t' ↔ t' ≠ t ∧ q.Has t' := by
  simp only [Queues.Has, Queues.remove, repr.nodup_pending.mem_erase_iff,
    repr.nodup_ready.mem_erase_iff]
  constructor
  · rintro (⟨ne, inPending⟩ | ⟨p, ne, inReady⟩)
    · exact ⟨ne, .inl inPending⟩
    · exact ⟨ne, .inr ⟨p, inReady⟩⟩
  · rintro ⟨ne, inPending | ⟨p, inReady⟩⟩
    · exact .inl ⟨ne, inPending⟩
    · exact .inr ⟨p, ne, inReady⟩

omit [DecidableEq T] in
theorem Queues.mem_pushReady {t' : T} {p' : Priority} :
    t' ∈ (q.pushReady p t).ready p' ↔ t' ∈ q.ready p' ∨ t' = t ∧ p' = p := by
  simp only [Queues.pushReady, Function.update_apply]
  split
  · rename_i same
    simp [same]
  · rename_i other
    simp [other]

omit [DecidableEq T] in
theorem Queues.mem_pushFront {t' : T} {p' : Priority} :
    t' ∈ (q.pushFront p t).ready p' ↔ t' ∈ q.ready p' ∨ t' = t ∧ p' = p := by
  simp only [Queues.pushFront, Function.update_apply]
  split
  · rename_i same
    rw [List.mem_cons, same]
    tauto
  · rename_i other
    simp [other]

omit [DecidableEq T] in
/-- Which tasks are on a queue once `t` has joined one. -/
theorem Queues.has_iff_of_push (q q' : Queues T) (pending : q'.pending = q.pending)
    (ready : ∀ {t' p'}, t' ∈ q'.ready p' ↔ t' ∈ q.ready p' ∨ t' = t ∧ p' = p) {t' : T} :
    q'.Has t' ↔ t' = t ∨ q.Has t' := by
  unfold Queues.Has
  simp only [pending, ready]
  constructor
  · rintro (inPending | ⟨p', inReady | ⟨same, -⟩⟩)
    · exact .inr (.inl inPending)
    · exact .inr (.inr ⟨p', inReady⟩)
    · exact .inl same
  · rintro (same | inPending | ⟨p', inReady⟩)
    · exact .inr ⟨p, .inr ⟨same, rfl⟩⟩
    · exact .inl inPending
    · exact .inr ⟨p', .inl inReady⟩

omit [DecidableEq T] in
theorem Queues.pushReady_has_iff {t' : T} : (q.pushReady p t).Has t' ↔ t' = t ∨ q.Has t' :=
  Queues.has_iff_of_push q (q.pushReady p t) rfl Queues.mem_pushReady

omit [DecidableEq T] in
theorem Queues.pushPending_has_iff {t' : T} : (q.pushPending t).Has t' ↔ t' = t ∨ q.Has t' := by
  simp only [Queues.Has, Queues.pushPending, List.mem_append, List.mem_singleton]
  tauto

/-- Moving a task to the end of the pending queue loses no task. -/
theorem Represents.requeue_has_iff (repr : Represents links q) (has : q.Has t) {t' : T} :
    ((q.remove t).pushPending t).Has t' ↔ q.Has t' := by
  rw [Queues.pushPending_has_iff, repr.remove_has_iff]
  constructor
  · rintro (rfl | ⟨-, old⟩)
    · exact has
    · exact old
  · intro old
    by_cases eq : t' = t
    · exact .inl eq
    · exact .inr ⟨eq, old⟩

/-! ## Nodes that are on no queue -/

/-- The list node of `t` holds the same pointers. -/
def SameNode (links links' : Links (Node T)) (t : T) : Prop :=
  links'.next (.task t) = links.next (.task t) ∧ links'.prev (.task t) = links.prev (.task t)

omit [DecidableEq T] in
theorem SameNode.trans {links₁ links₂ : Links (Node T)} (first : SameNode links links₁ t)
    (second : SameNode links₁ links₂ t) : SameNode links links₂ t :=
  ⟨second.1.trans first.1, second.2.trans first.2⟩

/-- Adding another task next to the head of a queue. -/
theorem sameNode_addBetween {u : T} {h a b : Node T} (isHead : IsHead h)
    (aMem : a ∈ h :: q.nodes h) (bMem : b ∈ h :: q.nodes h) (absent : ¬ q.Has t) (ne : t ≠ u) :
    SameNode links (links.addBetween (.task u) a b) t := by
  have out := not_mem_heads absent isHead
  refine Links.addBetween_of_ne (fun same => ne (Node.task.inj same)) ?_ ?_
  · rintro rfl
    exact out aMem
  · rintro rfl
    exact out bMem

theorem Represents.sameNode_addTail (repr : Represents links q) {u : T} {h : Node T}
    (isHead : IsHead h) (absent : ¬ q.Has t) (ne : t ≠ u) :
    SameNode links (links.addTail (.task u) h) t :=
  sameNode_addBetween isHead (Links.Rings.ring repr isHead).prev_head_mem (.head _) absent ne

theorem Represents.sameNode_addHead (repr : Represents links q) {u : T} {h : Node T}
    (isHead : IsHead h) (absent : ¬ q.Has t) (ne : t ≠ u) :
    SameNode links (links.addHead (.task u) h) t :=
  sameNode_addBetween isHead (.head _) (Links.Rings.ring repr isHead).next_head_mem absent ne

omit [DecidableEq T] in
/-- A task on no queue is no neighbour of one on a queue. -/
theorem Represents.neighbours_ne (repr : Represents links q) {u : T} (has : q.Has u)
    (absent : ¬ q.Has t) :
    Node.task t ≠ .task u ∧ Node.task t ≠ links.prev (.task u) ∧
      Node.task t ≠ links.next (.task u) := by
  obtain ⟨h, isHead, inside⟩ := Queues.has_iff.mp has
  obtain ⟨xs, ys, split⟩ := List.append_of_mem inside
  have out := not_mem_heads absent isHead
  have ring := Links.Rings.ring repr isHead
  rw [split] at ring out
  obtain ⟨prevMem, nextMem⟩ := ring.neighbours_mem
  have widen : h :: (xs ++ ys) ⊆ h :: (xs ++ .task u :: ys) := by
    intro x inX
    simp only [List.mem_cons, List.mem_append] at inX ⊢
    tauto
  refine ⟨?_, ?_, ?_⟩
  · rintro same
    exact out (same ▸ by simp)
  · intro same
    exact out (same ▸ widen prevMem)
  · intro same
    exact out (same ▸ widen nextMem)

theorem Represents.sameNode_delInit (repr : Represents links q) {u : T} (has : q.Has u)
    (absent : ¬ q.Has t) : SameNode links (links.delInit (.task u)) t := by
  obtain ⟨ne, nePrev, neNext⟩ := repr.neighbours_ne has absent
  exact Links.delInit_of_ne ne nePrev neNext

theorem Represents.sameNode_del (repr : Represents links q) {u : T} (has : q.Has u)
    (absent : ¬ q.Has t) : SameNode links (links.del .poison₁ .poison₂ (.task u)) t := by
  obtain ⟨ne, nePrev, neNext⟩ := repr.neighbours_ne has absent
  exact Links.del_of_ne ne nePrev neNext

/-- The node of `t` points to itself, as `list_del_init` leaves it. -/
def SelfLinked (links : Links (Node T)) (t : T) : Prop :=
  links.next (.task t) = .task t ∧ links.prev (.task t) = .task t

omit [DecidableEq T] in
theorem SelfLinked.of_same {links' : Links (Node T)} (self : SelfLinked links t)
    (same : SameNode links links' t) : SelfLinked links' t :=
  ⟨same.1.trans self.1, same.2.trans self.2⟩

theorem selfLinked_delInit (links : Links (Node T)) (t : T) :
    SelfLinked (links.delInit (.task t)) t := by
  simp [SelfLinked, Links.delInit, Links.initHead]

omit [DecidableEq T] in
/-- Queues do not depend on the node of a task that is on none of them. -/
theorem Represents.congr (repr : Represents links q) (absent : ¬ q.Has t)
    {links' : Links (Node T)}
    (others : ∀ x, x ≠ .task t → links'.next x = links.next x ∧ links'.prev x = links.prev x) :
    Represents links' q where
  ring {h} isHead := by
    have out := not_mem_heads absent isHead
    refine (Links.Rings.ring repr isHead).congr ?_ ?_
    · exact fun x inside => (others x fun same => out (same ▸ inside)).1
    · exact fun x inside => (others x fun same => out (same ▸ inside)).2
  apart isHead isHead' ne := Links.Rings.apart repr isHead isHead' ne

end Represents

end Queues

end Chinos
