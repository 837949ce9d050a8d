import Mathlib.Data.List.Chain
import Mathlib.Data.List.Sort
import Chinos.Machine.Ring

/-!
# Null-terminated doubly linked lists

A chain is a list of nodes in which `next` leads from each node to the one after it,
and from the last one to `null`, while `prev` leads back. Inserting a node and taking
one out each change the fields of at most three nodes; the new fields are given
pointwise, so that the order of the pointer writes does not matter.
-/

namespace Chinos

namespace Links

variable {N : Type} {l l' : Links N} {null n p : N} {xs ys : List N}

/-- The list that ends with `null` has the nodes `xs`, from first to last, and its pointers lead
from one to the next and back. -/
structure Chain (l : Links N) (null : N) (xs : List N) : Prop where
  distinct : xs.Nodup
  links : xs.IsChain fun x y => l.next x = y ∧ l.prev y = x
  last : ∀ x ∈ xs.getLast?, l.next x = null

/-- The first node of `xs`, or `null` if there is none. -/
def first (null : N) (xs : List N) : N := xs.head?.getD null

@[simp] theorem first_nil : first null [] = null := rfl

@[simp] theorem first_cons : first null (n :: xs) = n := rfl

theorem Chain.next_eq (chain : l.Chain null (xs ++ n :: ys)) : l.next n = first null ys := by
  cases ys with
  | nil => exact chain.last n (by simp)
  | cons y ys => exact (List.isChain_append_cons_cons.mp chain.links).2.1.1

theorem Chain.prev_eq (chain : l.Chain null (xs ++ p :: n :: ys)) : l.prev n = p :=
  (List.isChain_append_cons_cons.mp chain.links).2.1.2

theorem not_mem_head?_of_mem_tail (distinct : xs.Nodup) (inTail : n ∈ xs.tail) : n ∉ xs.head? := by
  cases xs with
  | nil => simp
  | cons x xs =>
    intro isHead
    cases isHead
    exact (List.nodup_cons.mp distinct).1 inTail

theorem not_mem_head?_of_before (distinct : (xs ++ p :: ys).Nodup) (inside : n ∈ xs ++ [p]) :
    n ∉ ys.head? := by
  intro isHead
  have split : ((xs ++ [p]) ++ ys).Nodup := by simpa using distinct
  exact (List.nodup_append.mp split).2.2 n inside n (List.mem_of_mem_head? isHead) rfl

/-- The part of a chain before or after the nodes whose fields change. -/
theorem links_congr (links : xs.IsChain fun x y => l.next x = y ∧ l.prev y = x)
    (next : ∀ x ∈ xs, l'.next x = l.next x) (prev : ∀ x ∈ xs.tail, l'.prev x = l.prev x) :
    xs.IsChain fun x y => l'.next x = y ∧ l'.prev y = x :=
  links.imp_of_mem_tail_imp fun x y inside inTail linked =>
    ⟨(next x inside).trans linked.1, (prev y inTail).trans linked.2⟩

/-- A chain only depends on the fields it goes through. -/
theorem Chain.congr (chain : l.Chain null xs) (next : ∀ x ∈ xs, l'.next x = l.next x)
    (prev : ∀ x ∈ xs.tail, l'.prev x = l.prev x) : l'.Chain null xs where
  distinct := chain.distinct
  links := links_congr chain.links next prev
  last := fun x isLast => (next x (List.mem_of_mem_getLast? isLast)).trans (chain.last x isLast)

section Splice

variable (distinct : (xs ++ p :: ys).Nodup)
  (next : ∀ x ∈ xs ++ p :: ys, x ≠ p → l'.next x = l.next x)
  (prev : ∀ x ∈ xs ++ p :: ys, x ∉ ys.head? → l'.prev x = l.prev x)
include distinct next prev

/-- What comes before a node whose `next` changes stays linked, up to that node. -/
theorem links_before {zs : List N}
    (links : (xs ++ p :: zs).IsChain fun x y => l.next x = y ∧ l.prev y = x)
    {zs' : List N} (after : (p :: zs').IsChain fun x y => l'.next x = y ∧ l'.prev y = x) :
    (xs ++ p :: zs').IsChain fun x y => l'.next x = y ∧ l'.prev y = x := by
  obtain ⟨before, -, joint⟩ := List.isChain_append.mp links
  obtain ⟨-, -, apart⟩ := List.nodup_append.mp distinct
  have nextXs : ∀ x ∈ xs, l'.next x = l.next x := fun x inside =>
    next x (by simp [inside]) (apart x inside p (.head _))
  have prevXs : ∀ x ∈ xs ++ [p], l'.prev x = l.prev x := fun x inside =>
    prev x (by simp only [List.mem_append, List.mem_singleton] at inside; simp; tauto)
      (not_mem_head?_of_before distinct inside)
  refine List.isChain_append.mpr ⟨?_, after, ?_⟩
  · exact links_congr before nextXs fun x inTail =>
      prevXs x (by simp [List.mem_of_mem_tail inTail])
  · intro x isLast y isP
    cases isP
    have linked := joint x isLast p rfl
    exact ⟨(nextXs x (List.mem_of_mem_getLast? isLast)).trans linked.1,
      (prevXs p (by simp)).trans linked.2⟩

/-- What comes after it stays linked, to a node `m` that leads there now. -/
theorem links_after {m : N} (links : ys.IsChain fun x y => l.next x = y ∧ l.prev y = x)
    (next_m : l'.next m = first null ys) (prev_y : ∀ y ∈ ys.head?, l'.prev y = m) :
    (m :: ys).IsChain fun x y => l'.next x = y ∧ l'.prev y = x := by
  obtain ⟨notP, distinctYs⟩ := List.nodup_cons.mp (List.nodup_append.mp distinct).2.1
  refine List.isChain_cons.mpr ⟨fun y isFirst => ⟨?_, prev_y y isFirst⟩, ?_⟩
  · rw [next_m, first, isFirst]
    rfl
  · refine links_congr links (fun x inside => ?_) fun x inTail => ?_
    · exact next x (by simp [inside]) fun same => notP (same ▸ inside)
    · exact prev x (by simp [List.mem_of_mem_tail inTail])
        (not_mem_head?_of_mem_tail distinctYs inTail)

omit prev in
/-- With a node put in front, the last node of the list still leads to `null`. -/
theorem last_of_first {m : N} (last : ∀ x ∈ ys.getLast?, l.next x = null)
    (next_m : l'.next m = first null ys) (x : N) (isLast : x ∈ (m :: ys).getLast?) :
    l'.next x = null := by
  cases ys with
  | nil =>
    have isM : m = x := by simpa using isLast
    rw [← isM, next_m]
    rfl
  | cons y ys =>
    have isLast' : x ∈ (y :: ys).getLast? := by simpa [List.getLast?_cons_cons] using isLast
    have inside := List.mem_of_mem_getLast? isLast'
    obtain ⟨notP, -⟩ := List.nodup_cons.mp (List.nodup_append.mp distinct).2.1
    rw [next x (by simp only [List.mem_append, List.mem_cons] at inside ⊢; tauto)
      fun same => notP (same ▸ inside)]
    exact last x isLast'

end Splice

/-- If the pointers around `p` are set so that `n` comes after it, and all others are as before,
they form the list with `n` put in. -/
theorem Chain.insert (chain : l.Chain null (xs ++ p :: ys)) (new : n ∉ xs ++ p :: ys)
    (next_p : l'.next p = n) (prev_n : l'.prev n = p) (next_n : l'.next n = first null ys)
    (prev_y : ∀ y ∈ ys.head?, l'.prev y = n)
    (next : ∀ x ∈ xs ++ p :: ys, x ≠ p → l'.next x = l.next x)
    (prev : ∀ x ∈ xs ++ p :: ys, x ∉ ys.head? → l'.prev x = l.prev x) :
    l'.Chain null (xs ++ p :: n :: ys) := by
  have oldYs := (List.isChain_cons.mp (List.isChain_append.mp chain.links).2.1).2
  refine ⟨?_, ?_, fun x isLast => ?_⟩
  · have perm : (xs ++ p :: n :: ys).Perm (n :: (xs ++ p :: ys)) :=
      ((List.Perm.swap n p ys).append_left xs).trans List.perm_middle
    exact perm.nodup_iff.mpr (List.nodup_cons.mpr ⟨new, chain.distinct⟩)
  · exact links_before chain.distinct next prev chain.links (List.isChain_cons_cons.mpr
      ⟨⟨next_p, prev_n⟩, links_after chain.distinct next prev oldYs next_n prev_y⟩)
  · rw [List.getLast?_append_cons, List.getLast?_cons_cons] at isLast
    exact last_of_first chain.distinct next (fun z isEnd => chain.last z (by
      rw [List.getLast?_append_cons]
      cases ys with
      | nil => cases isEnd
      | cons y ys => rwa [List.getLast?_cons_cons])) next_n x isLast

/-- If the pointers around `p` are set so that they pass over the node after it, and all others
are as before, they form the list without that node. -/
theorem Chain.remove (chain : l.Chain null (xs ++ p :: n :: ys))
    (next_p : l'.next p = first null ys) (prev_y : ∀ y ∈ ys.head?, l'.prev y = p)
    (next : ∀ x ∈ xs ++ p :: ys, x ≠ p → l'.next x = l.next x)
    (prev : ∀ x ∈ xs ++ p :: ys, x ∉ ys.head? → l'.prev x = l.prev x) :
    l'.Chain null (xs ++ p :: ys) := by
  have fewer : (xs ++ p :: ys).Nodup :=
    chain.distinct.sublist (((List.sublist_cons_self n ys).cons_cons p).append_left xs)
  have after := (List.isChain_append.mp chain.links).2.1
  have oldYs := (List.isChain_cons.mp (List.isChain_cons.mp after).2).2
  refine ⟨fewer, ?_, fun x isLast => ?_⟩
  · exact links_before fewer next prev chain.links
      (links_after fewer next prev oldYs next_p prev_y)
  · rw [List.getLast?_append_cons] at isLast
    exact last_of_first fewer next (fun z isEnd => chain.last z (by
      rw [List.getLast?_append_cons, List.getLast?_cons_cons]
      cases ys with
      | nil => cases isEnd
      | cons y ys => rwa [List.getLast?_cons_cons])) next_p x isLast

end Links

/-- Where an element is put in: behind everything it does not go before. -/
theorem orderedInsert_split {N : Type} {r : N → N → Prop} [DecidableRel r] {n : N} {xs ys : List N}
    (before : ∀ x ∈ xs, ¬ r n x) (after : ∀ y ∈ ys.head?, r n y) :
    (xs ++ ys).orderedInsert r n = xs ++ n :: ys := by
  induction xs with
  | nil =>
    cases ys with
    | nil => rfl
    | cons y ys => exact List.orderedInsert_cons_of_le r ys (after y rfl)
  | cons x xs ih =>
    rw [List.cons_append, List.orderedInsert_of_not_le r _ (before x (.head _)),
      ih fun y inside => before y (.tail _ inside), List.cons_append]

end Chinos
