import Chinos.Paging.Tree

/-!
# The tables that a range needs

Mapping a range page by page needs a table for every GiB and one for every 2 MiB that the
range touches. How many of them a translation lacks is a number that can be read off the
memory before a call, and it is the number of pages that the call asks `pt_alloc` for.
-/

namespace Chinos

/-- The slots of size `2 ^ shift` that the offsets `[lo, hi)` touch. -/
def slotsOf (shift lo hi : Nat) : List Nat :=
  List.range' (lo / 2 ^ shift) ((hi - 1) / 2 ^ shift + 1 - lo / 2 ^ shift)

/-- The positions of the tables below the PGD that the offsets `[lo, hi)` need, if they are
mapped page by page. -/
def tablePaths (lo hi : Nat) : List (List Nat) :=
  (slotsOf 30 lo hi).map (fun i => [i]) ++ (slotsOf 21 lo hi).map (fun m => [m % 512, m / 512])

section Paths

variable {lo hi o m : Nat}

theorem mem_slotsOf {shift : Nat} (low : lo ≤ o) (high : o < hi) :
    o / 2 ^ shift ∈ slotsOf shift lo hi := by
  have first : lo / 2 ^ shift ≤ o / 2 ^ shift := Nat.div_le_div_right low
  have last : o / 2 ^ shift ≤ (hi - 1) / 2 ^ shift := Nat.div_le_div_right (by omega)
  unfold slotsOf
  rw [List.mem_range'_1]
  omega

/-- A slot that is touched is one of an offset of the range. -/
theorem of_mem_slotsOf {shift : Nat} (before : lo < hi) (inside : m ∈ slotsOf shift lo hi) :
    ∃ o, lo ≤ o ∧ o < hi ∧ o / 2 ^ shift = m := by
  have pos := Nat.two_pow_pos shift
  unfold slotsOf at inside
  rw [List.mem_range'_1] at inside
  have first : lo / 2 ^ shift ≤ m := inside.1
  have last : m ≤ (hi - 1) / 2 ^ shift := by omega
  refine ⟨max lo (m * 2 ^ shift), le_max_left _ _, ?_, ?_⟩
  · have top := (Nat.le_div_iff_mul_le pos).mp last
    omega
  · rcases le_total lo (m * 2 ^ shift) with above | below
    · rw [max_eq_right above, Nat.mul_div_cancel _ pos]
    · rw [max_eq_left below]
      exact le_antisymm first ((Nat.le_div_iff_mul_le pos).mpr below)

theorem middle_mem_tablePaths (low : lo ≤ o) (high : o < hi) :
    [o / 2 ^ 30] ∈ tablePaths lo hi :=
  List.mem_append_left _ (List.mem_map_of_mem (mem_slotsOf low high))

theorem leaf_mem_tablePaths (low : lo ≤ o) (high : o < hi) :
    [o / 2 ^ 21 % 512, o / 2 ^ 30] ∈ tablePaths lo hi := by
  have upper : o / 2 ^ 30 = o / 2 ^ 21 / 512 := by omega
  rw [upper]
  exact List.mem_append_right _ (List.mem_map_of_mem (mem_slotsOf low high))

/-- Every position that a range needs is that of the middle or the last table of one of its
offsets. -/
theorem of_mem_tablePaths {path : List Nat} (before : lo < hi) (inside : path ∈ tablePaths lo hi) :
    ∃ o, lo ≤ o ∧ o < hi ∧ (path = [o / 2 ^ 30] ∨ path = [o / 2 ^ 21 % 512, o / 2 ^ 30]) := by
  rcases List.mem_append.mp inside with middle | leaf
  · obtain ⟨i, slot, rfl⟩ := List.mem_map.mp middle
    obtain ⟨o, low, high, rfl⟩ := of_mem_slotsOf before slot
    exact ⟨o, low, high, .inl rfl⟩
  · obtain ⟨m, slot, rfl⟩ := List.mem_map.mp leaf
    obtain ⟨o, low, high, rfl⟩ := of_mem_slotsOf before slot
    refine ⟨o, low, high, .inr ?_⟩
    rw [show o / 2 ^ 30 = o / 2 ^ 21 / 512 by omega]

theorem nodup_tablePaths : (tablePaths lo hi).Nodup := by
  refine List.nodup_append.mpr ⟨?_, ?_, ?_⟩
  · exact List.Nodup.map (fun i j same => (List.cons.inj same).1) List.nodup_range'
  · refine List.Nodup.map (fun m n same => ?_) List.nodup_range'
    simp only [List.cons.injEq, and_true] at same
    omega
  · intro path inMiddle path' inLeaf same
    obtain ⟨i, -, rfl⟩ := List.mem_map.mp inMiddle
    obtain ⟨m, -, rfl⟩ := List.mem_map.mp inLeaf
    simp at same

end Paths

/-! ## Tables that a translation lacks -/

/-- How many of the tables that a range needs are not at a position that `has` has one for. -/
def lacking (has : List Nat → Bool) (lo hi : Nat) : Nat :=
  (tablePaths lo hi).countP fun path => !has path

/-- The tree has a table at the position that the path names. -/
def Tree.has (tree : Tree) (path : List Nat) : Bool := (tree path).isSome

/-- How many of the tables that a range needs the tree lacks. -/
def Tree.missing (tree : Tree) (lo hi : Nat) : Nat := lacking tree.has lo hi

theorem lacking_congr {has has' : List Nat → Bool} {lo hi : Nat}
    (same : ∀ path ∈ tablePaths lo hi, has' path = has path) :
    lacking has' lo hi = lacking has lo hi :=
  List.countP_congr fun path needed => by rw [same path needed]

/-- Changing one element from yes to no lowers a count by one. -/
theorem countP_add_one {α : Type} [DecidableEq α] {l : List α} {p q : α → Bool} {a : α}
    (nodup : l.Nodup) (inside : a ∈ l) (yes : p a = true) (no : q a = false)
    (same : ∀ b, b ≠ a → q b = p b) : l.countP q + 1 = l.countP p := by
  have perm := List.perm_cons_erase inside
  have rest : (l.erase a).countP q = (l.erase a).countP p := by
    refine List.countP_congr fun b inRest => ?_
    rw [same b (fun eq => nodup.not_mem_erase (eq ▸ inRest))]
  rw [perm.countP_eq q, perm.countP_eq p, List.countP_cons, List.countP_cons, rest, yes, no]
  rfl

section Missing

variable {tree : Tree} {view : TableView} {mem : Mem} {tables : List U64} {pgd : U64}
  {lo hi : Nat}

/-- A table that is linked where one was missing is missing no more. -/
theorem Tree.missing_addChild {k : Nat} {path : List Nat} {page : U64}
    (needed : k :: path ∈ tablePaths lo hi) (empty : tree (k :: path) = none) :
    (tree.addChild k path page).missing lo hi + 1 = tree.missing lo hi := by
  refine countP_add_one nodup_tablePaths needed ?_ ?_ fun other ne => ?_
  · simp [Tree.has, empty]
  · simp [Tree.has, Tree.addChild_self]
  · simp only [Tree.has, Tree.addChild_of_ne ne]

theorem Tree.missing_pos {path : List Nat} (needed : path ∈ tablePaths lo hi)
    (empty : tree path = none) : 0 < tree.missing lo hi :=
  List.countP_pos_iff.mpr ⟨path, needed, by simp [Tree.has, empty]⟩

/-- Where every offset is mapped by a page, no table is missing. -/
theorem Tree.missing_eq_zero (before : lo < hi)
    (pages : ∀ o, lo ≤ o → o < hi → ∃ leaf, tree.lookup view mem o = some leaf ∧ leaf.shift = 12) :
    tree.missing lo hi = 0 := by
  refine List.countP_eq_zero.mpr fun path needed lacks => ?_
  have empty : tree path = none := by simpa [Tree.has] using lacks
  obtain ⟨o, low, high, isPath⟩ := of_mem_tablePaths before needed
  obtain ⟨leaf, found, page⟩ := pages o low high
  unfold Tree.lookup at found
  cases middle : tree [o / 2 ^ 30] with
  | none =>
    rw [middle] at found
    cases found
  | some p =>
    cases last : tree [o / 2 ^ 21 % 512, o / 2 ^ 30] with
    | none =>
      -- what is found without a last table is a section
      simp only [middle, last, Option.ite_none_right_eq_some, Option.some.injEq] at found
      rw [← found.2] at page
      cases page
    | some q =>
      rcases isPath with rfl | rfl
      · cases empty.symm.trans middle
      · cases empty.symm.trans last

/-! ## Reading it off memory -/

/-- The table that entry `k` of the one at `p` points to; none if the entry is 0. -/
def TableView.child (view : TableView) (mem : Mem) (k : Nat) (p : U64) : Option U64 :=
  if view.entry mem ⟨p, k⟩ = 0 then none
  else some (view.ofPhys (view.entry mem ⟨p, k⟩ &&& pteAddrMask))

/-- The table at a position, following descriptors from the PGD on. -/
def TableView.tableAt (view : TableView) (mem : Mem) (pgd : U64) : List Nat → Option U64
  | [] => some pgd
  | k :: path => (view.tableAt mem pgd path).bind (view.child mem k)

/-- The entries in memory lead to a table at the position that the path names. -/
def TableView.has (view : TableView) (mem : Mem) (pgd : U64) (path : List Nat) : Bool :=
  (view.tableAt mem pgd path).isSome

theorem Tree.Repr.child_eq (repr : tree.Repr view mem tables) {k : Nat} {path : List Nat} {p : U64}
    (short : path.length < 2) (small : k < 512) (placed : tree path = some p)
    (noBlock : tree (k :: path) = none → view.entry mem ⟨p, k⟩ = 0) :
    view.child mem k p = tree (k :: path) := by
  unfold TableView.child
  cases child : tree (k :: path) with
  | none => exact if_pos (noBlock child)
  | some q =>
    have isPage := repr.page child
    rw [repr.linked short small placed child, if_neg isPage.tableDesc_ne_zero,
      isPage.ofPhys_tableDesc]

theorem Tree.Repr.tableAt_cons (repr : tree.Repr view mem tables) {k : Nat} {path : List Nat}
    (short : path.length < 2) (small : k < 512) (below : view.tableAt mem pgd path = tree path)
    (noBlock : ∀ p, tree path = some p → tree (k :: path) = none → view.entry mem ⟨p, k⟩ = 0) :
    view.tableAt mem pgd (k :: path) = tree (k :: path) := by
  rw [TableView.tableAt, below]
  cases placed : tree path with
  | none => rw [repr.parent placed, Option.bind_none]
  | some p => rw [Option.bind_some, repr.child_eq short small placed (noBlock p placed)]

/-- In a table without sections, following descriptors leads to the tables of the tree. -/
theorem Tree.Repr.has_eq (repr : tree.Repr view mem tables) (root : tree [] = some pgd)
    (before : lo < hi) (top : hi ≤ 2 ^ 39)
    (pages : ∀ o leaf, tree.lookup view mem o = some leaf → leaf.shift = 12) {path : List Nat}
    (needed : path ∈ tablePaths lo hi) : view.has mem pgd path = tree.has path := by
  obtain ⟨o, low, high, isPath⟩ := of_mem_tablePaths before needed
  have iSmall : o / 2 ^ 30 < 512 := by omega
  have jSmall : o / 2 ^ 21 % 512 < 512 := Nat.mod_lt _ (by omega)
  have first : view.tableAt mem pgd [o / 2 ^ 30] = tree [o / 2 ^ 30] := by
    refine repr.tableAt_cons (by simp) iSmall root.symm fun p placed empty => ?_
    rcases repr.unlinked (by simp) iSmall placed empty with zero | ⟨impossible, -⟩
    · exact zero
    · simp at impossible
  have second : view.tableAt mem pgd [o / 2 ^ 21 % 512, o / 2 ^ 30] =
      tree [o / 2 ^ 21 % 512, o / 2 ^ 30] := by
    refine repr.tableAt_cons (by simp) jSmall first fun p placed empty => ?_
    rcases repr.unlinked (by simp) jSmall placed empty with zero | ⟨-, valid, noTable⟩
    · exact zero
    · -- a section would be found by the walk of `o`
      have found : tree.lookup view mem o =
          some (.ofDesc 21 (view.entry mem ⟨p, o / 2 ^ 21 % 512⟩) o) := by
        unfold Tree.lookup
        simp only [placed, empty, valid, noTable, not_false_eq_true, and_self, if_true]
      exact absurd (pages o _ found) (by simp [Leaf.ofDesc])
  unfold TableView.has Tree.has
  rcases isPath with rfl | rfl
  · rw [first]
  · rw [second]

end Missing

end Chinos
