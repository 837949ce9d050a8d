import Mathlib.Tactic

/-!
# Circular doubly linked lists

Nodes of any type are tied together by a `next` and a `prev` field each. A list is a
head node and the ring that leads from it through its elements back to it. Adding at
the tail and deleting an element are a few pointer writes; the lemmas here say what
they do to the ring, and that rings without a node in common do not notice.
-/

namespace Chinos

/-- The two pointer fields of every node of a doubly linked list. -/
structure Links (N : Type) where
  next : N → N
  prev : N → N

namespace Links

variable {N : Type}

/-! ## Segments -/

/-- `next` leads from `a` through `xs` to `b`, and `prev` back. -/
def Seg (l : Links N) : N → List N → N → Prop
  | a, [], b => l.next a = b ∧ l.prev b = a
  | a, x :: xs, b => (l.next a = x ∧ l.prev x = a) ∧ Seg l x xs b

variable {l l' : Links N} {a b h : N} {xs ys : List N}

theorem seg_append {x : N} :
    l.Seg a (xs ++ x :: ys) b ↔ l.Seg a xs x ∧ l.Seg x ys b := by
  induction xs generalizing a with
  | nil => exact Iff.rfl
  | cons y xs ih =>
    simp only [List.cons_append, Seg, ih, and_assoc]

/-- A segment only depends on the fields it goes through. -/
theorem Seg.congr (seg : l.Seg a xs b) (next : ∀ x ∈ a :: xs, l'.next x = l.next x)
    (prev : ∀ x ∈ xs ++ [b], l'.prev x = l.prev x) : l'.Seg a xs b := by
  induction xs generalizing a with
  | nil =>
    exact ⟨(next a (.head _)).trans seg.1, (prev b (.head _)).trans seg.2⟩
  | cons x xs ih =>
    refine ⟨⟨(next a (.head _)).trans seg.1.1, (prev x (.head _)).trans seg.1.2⟩, ?_⟩
    exact ih seg.2 (fun y inside => next y (.tail _ inside))
      (fun y inside => prev y (.tail _ inside))

/-- The last node of a segment is the one before its end. -/
theorem Seg.prev_mem (seg : l.Seg a xs b) : l.prev b ∈ a :: xs := by
  induction xs generalizing a with
  | nil => rw [seg.2]; exact .head _
  | cons x xs ih => exact .tail _ (ih seg.2)

/-- The first node of a segment is the one after its start. -/
theorem Seg.next_mem (seg : l.Seg a xs b) : l.next a ∈ xs ++ [b] := by
  cases xs with
  | nil => rw [seg.1]; exact .head _
  | cons x xs => rw [seg.1.1]; exact .head _

/-- Redirecting the last node of a segment to another end. -/
theorem Seg.retarget {c : N} (seg : l.Seg a xs b) (distinct : (a :: xs).Nodup)
    (next : ∀ x ∈ a :: xs, x ≠ l.prev b → l'.next x = l.next x)
    (prev : ∀ x ∈ xs, l'.prev x = l.prev x)
    (last : l'.next (l.prev b) = c) (back : l'.prev c = l.prev b) : l'.Seg a xs c := by
  induction xs generalizing a with
  | nil =>
    have isLast : l.prev b = a := seg.2
    rw [isLast] at last back
    exact ⟨last, back⟩
  | cons x xs ih =>
    obtain ⟨notMem, rest⟩ := List.nodup_cons.mp distinct
    have notLast : a ≠ l.prev b := by
      intro same
      exact notMem (same ▸ seg.2.prev_mem)
    refine ⟨⟨(next a (.head _) notLast).trans seg.1.1, (prev x (.head _)).trans seg.1.2⟩, ?_⟩
    exact ih seg.2 rest (fun y inside => next y (.tail _ inside))
      (fun y inside => prev y (.tail _ inside))

/-! ## Rings -/

/-- The list with head `h` has the elements `xs`, in this order. -/
structure Ring (l : Links N) (h : N) (xs : List N) : Prop where
  distinct : (h :: xs).Nodup
  seg : l.Seg h xs h

theorem Ring.congr (ring : l.Ring h xs) (next : ∀ x ∈ h :: xs, l'.next x = l.next x)
    (prev : ∀ x ∈ h :: xs, l'.prev x = l.prev x) : l'.Ring h xs where
  distinct := ring.distinct
  seg := ring.seg.congr next (fun x inside => prev x (by
    rcases List.mem_append.mp inside with inList | atEnd
    · exact .tail _ inList
    · exact List.mem_singleton.mp atEnd ▸ .head _))

theorem Ring.prev_head_mem (ring : l.Ring h xs) : l.prev h ∈ h :: xs := ring.seg.prev_mem

theorem Ring.next_head_mem (ring : l.Ring h xs) : l.next h ∈ h :: xs := by
  rcases List.mem_append.mp ring.seg.next_mem with inList | atEnd
  · exact .tail _ inList
  · rw [List.mem_singleton.mp atEnd]
    exact .head _

theorem Seg.unique (seg : l.Seg a xs b) (seg' : l.Seg a ys b) (out : b ∉ xs) (out' : b ∉ ys) :
    xs = ys := by
  induction xs generalizing a ys with
  | nil =>
    cases ys with
    | nil => rfl
    | cons y ys =>
      have next : y = b := seg'.1.1.symm.trans seg.1
      exact absurd (next ▸ .head _) out'
  | cons x xs ih =>
    cases ys with
    | nil =>
      have next : x = b := seg.1.1.symm.trans seg'.1
      exact absurd (next ▸ .head _) out
    | cons y ys =>
      obtain rfl : x = y := seg.1.1.symm.trans seg'.1.1
      rw [ih seg.2 seg'.2 (fun inside => out (.tail _ inside))
        (fun inside => out' (.tail _ inside))]

/-- The pointers determine the elements of a ring and their order. -/
theorem Ring.unique (ring : l.Ring h xs) (ring' : l.Ring h ys) : xs = ys :=
  ring.seg.unique ring'.seg (List.nodup_cons.mp ring.distinct).1
    (List.nodup_cons.mp ring'.distinct).1

/-! ## Taking out an element -/

section Erase

variable {e : N}

/-- Taking `e` out of a ring: its two neighbours get linked to each other. -/
theorem Ring.erase (ring : l.Ring h (xs ++ e :: ys))
    (next : ∀ x ∈ h :: (xs ++ ys), x ≠ l.prev e → l'.next x = l.next x)
    (prev : ∀ x ∈ h :: (xs ++ ys), x ≠ l.next e → l'.prev x = l.prev x)
    (link : l'.next (l.prev e) = l.next e) (back : l'.prev (l.next e) = l.prev e) :
    l'.Ring h (xs ++ ys) where
  distinct := by
    refine ring.distinct.sublist ?_
    exact ((List.sublist_cons_self e ys).append_left xs).cons_cons h
  seg := by
    obtain ⟨before, after⟩ := seg_append.mp ring.seg
    have distinct : ((h :: xs) ++ e :: ys).Nodup := ring.distinct
    obtain ⟨distinctXs, distinctYs, apart⟩ := List.nodup_append.mp distinct
    have prevMem := before.prev_mem
    cases ys with
    | nil =>
      rw [List.append_nil]
      rw [List.append_nil] at next prev
      have nextIs : l.next e = h := after.1
      refine before.retarget distinctXs next ?_ (link.trans nextIs) (nextIs ▸ back)
      intro x inside
      refine prev x (.tail _ inside) ?_
      rintro rfl
      rw [nextIs] at inside
      exact (List.nodup_cons.mp distinctXs).1 inside
    | cons y ys =>
      have nextIs : l.next e = y := after.1.1
      obtain ⟨notMemY, -⟩ := List.nodup_cons.mp (List.nodup_cons.mp distinctYs).2
      rw [nextIs] at prev link back
      rw [seg_append]
      constructor
      · refine before.retarget distinctXs (fun x inside => next x ?_) ?_ link back
        · exact List.mem_append.mpr (.inl inside)
        · intro x inside
          refine prev x (.tail _ (List.mem_append.mpr (.inl inside))) ?_
          exact apart x (.tail _ inside) y (.tail _ (.head _))
      · refine after.2.congr ?_ ?_
        · intro x inside
          refine next x (.tail _ (List.mem_append.mpr (.inr inside))) ?_
          exact (apart _ prevMem x (.tail _ inside)).symm
        · intro x inside
          rcases List.mem_append.mp inside with inList | atEnd
          · refine prev x (.tail _ (List.mem_append.mpr (.inr (.tail _ inList)))) ?_
            rintro rfl
            exact notMemY inList
          · rw [List.mem_singleton.mp atEnd]
            exact prev h (.head _) (apart h (.head _) y (.tail _ (.head _)))

theorem Ring.neighbours_mem (ring : l.Ring h (xs ++ e :: ys)) :
    l.prev e ∈ h :: (xs ++ ys) ∧ l.next e ∈ h :: (xs ++ ys) := by
  obtain ⟨before, after⟩ := seg_append.mp ring.seg
  constructor
  · exact List.mem_append.mpr (.inl before.prev_mem)
  · rcases List.mem_append.mp after.next_mem with inList | atEnd
    · exact .tail _ (List.mem_append.mpr (.inr inList))
    · exact List.mem_singleton.mp atEnd ▸ .head _

theorem Ring.entry_notMem (ring : l.Ring h (xs ++ e :: ys)) : e ∉ h :: (xs ++ ys) := by
  have distinct : ((h :: xs) ++ e :: ys).Nodup := ring.distinct
  intro inside
  rw [← List.cons_append] at inside
  obtain ⟨-, distinctYs, apart⟩ := List.nodup_append.mp distinct
  rcases List.mem_append.mp inside with early | late
  · exact apart e early e (.head _) rfl
  · exact (List.nodup_cons.mp distinctYs).1 late

end Erase

/-! ## Operations -/

variable [DecidableEq N]

/-- The assignment `a->next = b`. -/
def setNext (l : Links N) (a b : N) : Links N := { l with next := Function.update l.next a b }

/-- The assignment `a->prev = b`. -/
def setPrev (l : Links N) (a b : N) : Links N := { l with prev := Function.update l.prev a b }

/-- `INIT_LIST_HEAD`, which makes an empty ring of a head. -/
def initHead (l : Links N) (head : N) : Links N := (l.setNext head head).setPrev head head

/-- `__list_add`, which puts `new` in between two neighbours. -/
def addBetween (l : Links N) (new prev next : N) : Links N :=
  (((l.setPrev next new).setNext new next).setPrev new prev).setNext prev new

/-- `list_add_tail`, which puts `new` in at the end of a ring. -/
def addTail (l : Links N) (new head : N) : Links N := l.addBetween new (l.prev head) head

/-- `list_add`, which puts `new` in at the start of a ring. -/
def addHead (l : Links N) (new head : N) : Links N := l.addBetween new head (l.next head)

/-- `__list_del`, which makes neighbours of two nodes. -/
def join (l : Links N) (prev next : N) : Links N := (l.setPrev next prev).setNext prev next

/-- `list_del`, which leaves the two poison values in the node that it takes out. -/
def del (l : Links N) (poison₁ poison₂ entry : N) : Links N :=
  ((l.join (l.prev entry) (l.next entry)).setNext entry poison₁).setPrev entry poison₂

/-- `list_del_init`, which leaves an empty ring of the node that it takes out. -/
def delInit (l : Links N) (entry : N) : Links N :=
  (l.join (l.prev entry) (l.next entry)).initHead entry

/-- `list_empty`, which looks at one of the pointers of the head only. -/
def isEmpty (l : Links N) (head : N) : Bool := l.next head = head

@[simp] theorem setNext_next (l : Links N) (a b x : N) :
    (l.setNext a b).next x = if x = a then b else l.next x := by
  simp [setNext, Function.update_apply]

@[simp] theorem setNext_prev (l : Links N) (a b x : N) :
    (l.setNext a b).prev x = l.prev x := rfl

@[simp] theorem setPrev_prev (l : Links N) (a b x : N) :
    (l.setPrev a b).prev x = if x = a then b else l.prev x := by
  simp [setPrev, Function.update_apply]

@[simp] theorem setPrev_next (l : Links N) (a b x : N) :
    (l.setPrev a b).next x = l.next x := rfl

/-! ## What they do to a ring -/

theorem Ring.isEmpty_iff (ring : l.Ring h xs) : l.isEmpty h = true ↔ xs = [] := by
  unfold isEmpty
  rw [decide_eq_true_iff]
  cases xs with
  | nil => exact ⟨fun _ => rfl, fun _ => ring.seg.1⟩
  | cons x xs =>
    rw [ring.seg.1.1]
    constructor
    · rintro rfl
      exact absurd ring.distinct (by simp)
    · intro impossible
      cases impossible

theorem Ring.init (l : Links N) (h : N) : (l.initHead h).Ring h [] where
  distinct := List.nodup_singleton h
  seg := by simp [Seg, initHead]

/-- `initHead` leaves the pointers of all nodes but the head alone. -/
theorem initHead_of_ne {x : N} (ne : x ≠ h) :
    (l.initHead h).next x = l.next x ∧ (l.initHead h).prev x = l.prev x := by
  simp [initHead, ne]

theorem Ring.addTail {new : N} (ring : l.Ring h xs) (fresh : new ∉ h :: xs) :
    (l.addTail new h).Ring h (xs ++ [new]) where
  distinct := by
    have distinct := ring.distinct
    rw [← List.cons_append, List.nodup_append]
    refine ⟨distinct, List.nodup_singleton new, ?_⟩
    intro x inside y isNew same
    rw [same, List.mem_singleton.mp isNew] at inside
    exact fresh inside
  seg := by
    have lastMem := ring.prev_head_mem
    have newNeLast : new ≠ l.prev h := fun same => fresh (same ▸ lastMem)
    have newNeHead : new ≠ h := fun same => fresh (same ▸ .head _)
    rw [seg_append]
    constructor
    · refine ring.seg.retarget ring.distinct ?_ ?_ ?_ ?_
      · intro x inside notLast
        have ne : x ≠ new := fun same => fresh (same ▸ inside)
        simp [Links.addTail, addBetween, notLast, ne]
      · intro x inside
        have ne : x ≠ new := fun same => fresh (same ▸ .tail _ inside)
        have neHead : x ≠ h := by
          rintro rfl
          exact (List.nodup_cons.mp ring.distinct).1 inside
        simp [Links.addTail, addBetween, ne, neHead]
      · simp [Links.addTail, addBetween]
      · simp [Links.addTail, addBetween]
    · simp [Seg, Links.addTail, addBetween, newNeLast, newNeHead.symm]

theorem Ring.addHead {new : N} (ring : l.Ring h xs) (fresh : new ∉ h :: xs) :
    (l.addHead new h).Ring h (new :: xs) where
  distinct := by
    have swapped : (new :: h :: xs).Nodup := List.nodup_cons.mpr ⟨fresh, ring.distinct⟩
    exact (List.Perm.swap h new xs).nodup swapped
  seg := by
    have newNeHead : new ≠ h := fun same => fresh (same ▸ .head _)
    refine ⟨by simp [Links.addHead, addBetween], ?_⟩
    cases xs with
    | nil =>
      have nextIs : l.next h = h := ring.seg.1
      simp [Seg, Links.addHead, addBetween, newNeHead, newNeHead.symm, nextIs]
    | cons x xs =>
      obtain ⟨⟨nextIs, -⟩, rest⟩ := ring.seg
      obtain ⟨headOut, distinct⟩ := List.nodup_cons.mp ring.distinct
      have newOut : new ∉ x :: xs := fun inside => fresh (.tail _ inside)
      have neX : x ≠ new := fun same => newOut (same ▸ .head _)
      refine ⟨by simp [Links.addHead, addBetween, newNeHead, nextIs, neX], ?_⟩
      refine rest.congr ?_ ?_
      · intro y inside
        have neNew : y ≠ new := fun same => newOut (same ▸ inside)
        have neHead : y ≠ h := fun same => headOut (same ▸ inside)
        simp [Links.addHead, addBetween, neNew, neHead]
      · intro y inside
        have neFirst : y ≠ x := by
          rintro rfl
          rcases List.mem_append.mp inside with inList | atEnd
          · exact (List.nodup_cons.mp distinct).1 inList
          · exact headOut (List.mem_singleton.mp atEnd ▸ .head _)
        have neNew : y ≠ new := by
          rintro rfl
          rcases List.mem_append.mp inside with inList | atEnd
          · exact newOut (.tail _ inList)
          · exact newNeHead (List.mem_singleton.mp atEnd)
        simp [Links.addHead, addBetween, nextIs, neFirst, neNew]

/-- `addBetween` leaves the pointers of all nodes but the new one and its neighbours alone. -/
theorem addBetween_of_ne {x new : N} (ne : x ≠ new) (neA : x ≠ a) (neB : x ≠ b) :
    (l.addBetween new a b).next x = l.next x ∧ (l.addBetween new a b).prev x = l.prev x := by
  simp [addBetween, ne, neA, neB]

section Delete

variable {e : N}

/-- Both ways to delete `e` join its neighbours; they differ in what they leave in `e`. -/
theorem Ring.unlink {l' : Links N} (ring : l.Ring h (xs ++ e :: ys))
    (joined : ∀ x ≠ e, l'.next x = (l.join (l.prev e) (l.next e)).next x ∧
      l'.prev x = (l.join (l.prev e) (l.next e)).prev x) : l'.Ring h (xs ++ ys) := by
  have out := ring.entry_notMem
  obtain ⟨prevMem, nextMem⟩ := ring.neighbours_mem
  refine ring.erase ?_ ?_ ?_ ?_
  · intro x inside ne
    rw [(joined x fun same => out (same ▸ inside)).1]
    simp [join, ne]
  · intro x inside ne
    rw [(joined x fun same => out (same ▸ inside)).2]
    simp [join, ne]
  · rw [(joined _ fun same => out (same ▸ prevMem)).1]
    simp [join]
  · rw [(joined _ fun same => out (same ▸ nextMem)).2]
    simp [join]

theorem Ring.delInit (ring : l.Ring h (xs ++ e :: ys)) : (l.delInit e).Ring h (xs ++ ys) :=
  ring.unlink fun x ne => by simp [Links.delInit, initHead, ne]

theorem Ring.del {poison₁ poison₂ : N} (ring : l.Ring h (xs ++ e :: ys)) :
    (l.del poison₁ poison₂ e).Ring h (xs ++ ys) :=
  ring.unlink fun x ne => by simp [Links.del, ne]

/-- `delInit` leaves the pointers of all nodes but the old one and its neighbours alone. -/
theorem delInit_of_ne {x : N} (ne : x ≠ e) (nePrev : x ≠ l.prev e) (neNext : x ≠ l.next e) :
    (l.delInit e).next x = l.next x ∧ (l.delInit e).prev x = l.prev x := by
  simp [Links.delInit, initHead, join, ne, nePrev, neNext]

/-- `del` leaves the pointers of all nodes but the old one and its neighbours alone. -/
theorem del_of_ne {poison₁ poison₂ x : N} (ne : x ≠ e) (nePrev : x ≠ l.prev e)
    (neNext : x ≠ l.next e) :
    (l.del poison₁ poison₂ e).next x = l.next x ∧
      (l.del poison₁ poison₂ e).prev x = l.prev x := by
  simp [Links.del, join, ne, nePrev, neNext]

end Delete

/-! ## Several lists at once -/

/-- `lists h` are the elements of the list with head `h`, for each of the `heads`; no
node is in two lists. -/
structure Rings (l : Links N) (heads : N → Prop) (lists : N → List N) : Prop where
  ring : ∀ {h}, heads h → l.Ring h (lists h)
  apart : ∀ {h h'}, heads h → heads h' → h ≠ h' → ∀ x ∈ h :: lists h, x ∉ h' :: lists h'

section Several

variable {heads : N → Prop} {lists : N → List N} {e new : N}

/-- Changing one list, when the others do not notice. -/
theorem Rings.set (rings : l.Rings heads lists) (isHead : heads h) (ring : l'.Ring h xs)
    (frame : ∀ {h'}, heads h' → h' ≠ h → ∀ x ∈ h' :: lists h',
      l'.next x = l.next x ∧ l'.prev x = l.prev x)
    (apart : ∀ {h'}, heads h' → h' ≠ h → ∀ x ∈ xs, x ∉ h' :: lists h') :
    l'.Rings heads (Function.update lists h xs) where
  ring {h'} isHead' := by
    by_cases same : h' = h
    · subst same
      rw [Function.update_self]
      exact ring
    · rw [Function.update_of_ne same]
      exact (rings.ring isHead').congr (fun x inside => (frame isHead' same x inside).1)
        (fun x inside => (frame isHead' same x inside).2)
  apart {h₁ h₂} isHead₁ isHead₂ ne := by
    have fromNew : ∀ {h'}, heads h' → h' ≠ h → ∀ x ∈ h :: xs, x ∉ h' :: lists h' := by
      intro h' isHead' ne' x inside
      rcases List.mem_cons.mp inside with rfl | inList
      · exact rings.apart isHead isHead' ne'.symm x (.head _)
      · exact apart isHead' ne' x inList
    by_cases first : h₁ = h
    · subst first
      rw [Function.update_self, Function.update_of_ne ne.symm]
      exact fromNew isHead₂ ne.symm
    · rw [Function.update_of_ne first]
      by_cases second : h₂ = h
      · subst second
        rw [Function.update_self]
        intro x inside inNew
        exact fromNew isHead₁ first x inNew inside
      · rw [Function.update_of_ne second]
        exact rings.apart isHead₁ isHead₂ ne

/-- Adding a node between two nodes of one list. -/
theorem Rings.addBetween (rings : l.Rings heads lists) (isHead : heads h)
    (fresh : ∀ {h'}, heads h' → new ∉ h' :: lists h') (aMem : a ∈ h :: lists h)
    (bMem : b ∈ h :: lists h) (ring : (l.addBetween new a b).Ring h xs)
    (only : ∀ x ∈ xs, x = new ∨ x ∈ lists h) :
    (l.addBetween new a b).Rings heads (Function.update lists h xs) := by
  refine rings.set isHead ring ?_ ?_
  · intro h' isHead' ne x inside
    have notHere := rings.apart isHead' isHead ne x inside
    refine addBetween_of_ne ?_ ?_ ?_
    · rintro rfl
      exact fresh isHead' inside
    · rintro rfl
      exact notHere aMem
    · rintro rfl
      exact notHere bMem
  · intro h' isHead' ne x inside
    rcases only x inside with rfl | old
    · exact fresh isHead'
    · exact rings.apart isHead isHead' ne.symm x (.tail _ old)

theorem Rings.addTail (rings : l.Rings heads lists) (isHead : heads h)
    (fresh : ∀ {h'}, heads h' → new ∉ h' :: lists h') :
    (l.addTail new h).Rings heads (Function.update lists h (lists h ++ [new])) := by
  have ring := rings.ring isHead
  refine rings.addBetween isHead fresh ring.prev_head_mem (.head _)
    (ring.addTail (fresh isHead)) ?_
  intro x inside
  rcases List.mem_append.mp inside with old | isNew
  · exact .inr old
  · exact .inl (List.mem_singleton.mp isNew)

theorem Rings.addHead (rings : l.Rings heads lists) (isHead : heads h)
    (fresh : ∀ {h'}, heads h' → new ∉ h' :: lists h') :
    (l.addHead new h).Rings heads (Function.update lists h (new :: lists h)) := by
  have ring := rings.ring isHead
  exact rings.addBetween isHead fresh (.head _) ring.next_head_mem
    (ring.addHead (fresh isHead)) (fun x inside => List.mem_cons.mp inside)

omit [DecidableEq N] in
/-- Nodes of other lists are no neighbours of an element. -/
theorem Rings.neighbours_ne (rings : l.Rings heads lists) (isHead : heads h)
    (split : lists h = xs ++ e :: ys) {h' : N} (isHead' : heads h') (ne : h' ≠ h) {x : N}
    (inside : x ∈ h' :: lists h') : x ≠ e ∧ x ≠ l.prev e ∧ x ≠ l.next e := by
  have ring := rings.ring isHead
  have notHere := rings.apart isHead' isHead ne x inside
  rw [split] at ring notHere
  obtain ⟨prevMem, nextMem⟩ := ring.neighbours_mem
  have widen : h :: (xs ++ ys) ⊆ h :: (xs ++ e :: ys) := by
    intro y inY
    simp only [List.mem_cons, List.mem_append] at inY ⊢
    tauto
  refine ⟨?_, ?_, ?_⟩
  · rintro rfl
    exact notHere (by simp)
  · rintro rfl
    exact notHere (widen prevMem)
  · rintro rfl
    exact notHere (widen nextMem)

omit [DecidableEq N] in
theorem Rings.erase_apart (rings : l.Rings heads lists) (isHead : heads h)
    (split : lists h = xs ++ e :: ys) {h' : N} (isHead' : heads h') (ne : h' ≠ h) {x : N}
    (inside : x ∈ xs ++ ys) : x ∉ h' :: lists h' := by
  refine rings.apart isHead isHead' ne.symm x ?_
  rw [split]
  simp only [List.mem_cons, List.mem_append] at inside ⊢
  tauto

theorem Rings.delInit (rings : l.Rings heads lists) (isHead : heads h)
    (split : lists h = xs ++ e :: ys) :
    (l.delInit e).Rings heads (Function.update lists h (xs ++ ys)) := by
  have ring := rings.ring isHead
  rw [split] at ring
  refine rings.set isHead ring.delInit ?_ ?_
  · intro h' isHead' ne x inside
    obtain ⟨neEntry, nePrev, neNext⟩ := rings.neighbours_ne isHead split isHead' ne inside
    exact delInit_of_ne neEntry nePrev neNext
  · intro h' isHead' ne x inside
    exact rings.erase_apart isHead split isHead' ne inside

theorem Rings.del {poison₁ poison₂ : N} (rings : l.Rings heads lists) (isHead : heads h)
    (split : lists h = xs ++ e :: ys) :
    (l.del poison₁ poison₂ e).Rings heads (Function.update lists h (xs ++ ys)) := by
  have ring := rings.ring isHead
  rw [split] at ring
  refine rings.set isHead ring.del ?_ ?_
  · intro h' isHead' ne x inside
    obtain ⟨neEntry, nePrev, neNext⟩ := rings.neighbours_ne isHead split isHead' ne inside
    exact del_of_ne neEntry nePrev neNext
  · intro h' isHead' ne x inside
    exact rings.erase_apart isHead split isHead' ne inside

omit [DecidableEq N] in
theorem Rings.mono {heads' : N → Prop} (rings : l.Rings heads lists)
    (fewer : ∀ {h}, heads' h → heads h) : l.Rings heads' lists where
  ring isHead := rings.ring (fewer isHead)
  apart isHead isHead' := rings.apart (fewer isHead) (fewer isHead')

/-- One more head can be set up next to empty rings, if it was not a head before. -/
theorem Rings.initHead (rings : l.Rings heads fun _ => []) (fresh : ¬ heads h) :
    (l.initHead h).Rings (fun x => heads x ∨ x = h) fun _ => [] where
  ring {h'} isHead := by
    rcases isHead with old | rfl
    · have ne : h' ≠ h := fun same => fresh (same ▸ old)
      have frame := initHead_of_ne (l := l) ne
      exact (rings.ring old).congr
        (fun x inside => by rw [List.mem_singleton.mp inside]; exact frame.1)
        (fun x inside => by rw [List.mem_singleton.mp inside]; exact frame.2)
    · exact Ring.init l h'
  apart {h₁ h₂} _ _ ne x inside inOther := by
    rw [List.mem_singleton.mp inside] at inOther
    exact ne (List.mem_singleton.mp inOther)

end Several

end Links

end Chinos
