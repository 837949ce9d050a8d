import Chinos.Paging.Walk

/-!
# Tables as a tree of pages

The memory of a well-formed table is described by a `Tree`: which page sits at
each position. The builders change it in three ways only. They store a leaf
descriptor in a last-level table, store a section in a middle one, or link a
zeroed page to an empty entry; each keeps the description valid and changes the
walk exactly where it should.
-/

namespace Chinos

/-- The pages of a table by position: `[]` is the PGD, `[i]` the table that its
entry `i` points to, and `[j, i]` the table that entry `j` of that one points to. -/
abbrev Tree := List Nat → Option U64

/-- The descriptor in memory that `slot` points to. -/
def TableView.entry (view : TableView) (mem : Mem) (slot : Slot) : U64 :=
  mem.load64 (slot.phys view)

/-- `tree` describes the tables in `mem`, all of whose pages are among `tables`. -/
structure Tree.Repr (tree : Tree) (view : TableView) (mem : Mem) (tables : List U64) : Prop where
  page : ∀ {path p}, tree path = some p → view.IsPage p
  mem_tables : ∀ {path p}, tree path = some p → p ∈ tables
  inj : ∀ {path path' p}, tree path = some p → tree path' = some p → path = path'
  depth : ∀ {path p}, tree path = some p → path.length ≤ 2
  parent : ∀ {k path}, tree path = none → tree (k :: path) = none
  linked : ∀ {k path p q}, path.length < 2 → k < 512 → tree path = some p →
    tree (k :: path) = some q → view.entry mem ⟨p, k⟩ = view.tableDesc q
  unlinked : ∀ {k path p}, path.length < 2 → k < 512 → tree path = some p →
    tree (k :: path) = none → view.entry mem ⟨p, k⟩ = 0 ∨
      path.length = 1 ∧ Valid (view.entry mem ⟨p, k⟩) ∧ ¬ Table (view.entry mem ⟨p, k⟩)

/-- The walk for offset `o`, in terms of the tree: its tables are followed without a look at the
memory that links them. -/
def Tree.lookup (tree : Tree) (view : TableView) (mem : Mem) (o : Nat) : Option Leaf :=
  match tree [o / 2 ^ 30] with
  | none => none
  | some p =>
    match tree [o / 2 ^ 21 % 512, o / 2 ^ 30] with
    | none =>
      let pmd := view.entry mem ⟨p, o / 2 ^ 21 % 512⟩
      if Valid pmd ∧ ¬ Table pmd then some (.ofDesc 21 pmd o) else none
    | some q =>
      let pte := view.entry mem ⟨q, o / 2 ^ 12 % 512⟩
      if Valid pte ∧ Table pte then some (.ofDesc 12 pte o) else none

theorem not_valid_zero : ¬ Valid 0 := by decide

/-! ## Entries under stores -/

section Entries

variable {view : TableView} {mem mem' : Mem} {p q : U64} {k k' : Nat}

/-- An entry depends on the bytes of its own page only. -/
theorem TableView.entry_congr (small : k < 512)
    (agree : mem.AgreeOn mem' (view.toPhys p).toNat (2 ^ 12)) :
    view.entry mem' ⟨p, k⟩ = view.entry mem ⟨p, k⟩ :=
  Mem.load64_congr (agree.mono (by simp [Slot.phys]) (by simp only [Slot.phys]; omega))

theorem TableView.entry_store_same {value : U64} :
    view.entry (mem.store64 (Slot.phys view ⟨p, k⟩) value) ⟨p, k⟩ = value :=
  Mem.load64_store64_same

theorem TableView.entry_store_index {value : U64} (ne : k ≠ k') :
    view.entry (mem.store64 (Slot.phys view ⟨p, k⟩) value) ⟨p, k'⟩ = view.entry mem ⟨p, k'⟩ :=
  Mem.load64_store64_ne (by simp only [Slot.phys]; omega)

theorem agreeOn_store_page {value : U64} (isPage : view.IsPage p) (isPage' : view.IsPage q)
    (ne : p ≠ q) (small : k < 512) :
    mem.AgreeOn (mem.store64 (Slot.phys view ⟨p, k⟩) value) (view.toPhys q).toNat (2 ^ 12) := by
  have apart := isPage.apart isPage' ne
  exact Mem.agreeOn_store64 (by simp only [Slot.phys]; omega)

theorem TableView.entry_store_page {value : U64} (isPage : view.IsPage p)
    (isPage' : view.IsPage q) (ne : p ≠ q) (small : k < 512) (small' : k' < 512) :
    view.entry (mem.store64 (Slot.phys view ⟨p, k⟩) value) ⟨q, k'⟩ = view.entry mem ⟨q, k'⟩ :=
  TableView.entry_congr small' (agreeOn_store_page isPage isPage' ne small)

end Entries

/-! ## The walk of a described table -/

section Lookup

variable {tree : Tree} {view : TableView} {mem : Mem} {tables : List U64} {pgd : U64} {o : Nat}

theorem walkPmd_of_zero {p : U64} (zero : view.entry mem ⟨p, o / 2 ^ 21 % 512⟩ = 0) :
    walkPmd mem (view.toPhys p).toNat o = none := by
  unfold walkPmd
  change (if ¬ Valid (view.entry mem ⟨p, o / 2 ^ 21 % 512⟩) then _ else _) = _
  rw [zero, if_pos not_valid_zero]

theorem walkPmd_of_section {p desc : U64} (entry : view.entry mem ⟨p, o / 2 ^ 21 % 512⟩ = desc)
    (valid : Valid desc) (leaf : ¬ Table desc) :
    walkPmd mem (view.toPhys p).toNat o = some (.ofDesc 21 desc o) := by
  unfold walkPmd
  change mem.load64 ((view.toPhys p).toNat + 8 * (o / 2 ^ 21 % 512)) = desc at entry
  simp only [entry]
  rw [if_neg (not_not_intro valid), if_pos leaf]

theorem walkPmd_of_table {p q : U64} (isPage : view.IsPage q)
    (entry : view.entry mem ⟨p, o / 2 ^ 21 % 512⟩ = view.tableDesc q) :
    walkPmd mem (view.toPhys p).toNat o = walkPte mem (view.toPhys q).toNat o := by
  have valid : Valid (view.tableDesc q) := isPage.getLsbD_tableDesc (by omega)
  have table : Table (view.tableDesc q) := isPage.getLsbD_tableDesc (by omega)
  unfold walkPmd
  change mem.load64 ((view.toPhys p).toNat + 8 * (o / 2 ^ 21 % 512)) = _ at entry
  simp only [entry]
  rw [if_neg (not_not_intro valid), if_neg (not_not_intro table), isPage.descAddr_tableDesc]

theorem walk_of_zero {p : U64} (zero : view.entry mem ⟨p, o / 2 ^ 30⟩ = 0) :
    walk mem (view.toPhys p).toNat o = none := by
  unfold walk
  change (if ¬ Valid (view.entry mem ⟨p, o / 2 ^ 30⟩) then _ else _) = _
  rw [zero, if_pos not_valid_zero]

theorem walk_of_table {p q : U64} (isPage : view.IsPage q)
    (entry : view.entry mem ⟨p, o / 2 ^ 30⟩ = view.tableDesc q) :
    walk mem (view.toPhys p).toNat o = walkPmd mem (view.toPhys q).toNat o := by
  have valid : Valid (view.tableDesc q) := isPage.getLsbD_tableDesc (by omega)
  have table : Table (view.tableDesc q) := isPage.getLsbD_tableDesc (by omega)
  unfold walk
  change mem.load64 ((view.toPhys p).toNat + 8 * (o / 2 ^ 30)) = _ at entry
  simp only [entry]
  rw [if_neg (not_not_intro valid), if_neg (not_not_intro table), isPage.descAddr_tableDesc]

/-- The walk of the MMU finds what the tree says. -/
theorem Tree.Repr.walk_eq (repr : tree.Repr view mem tables) (root : tree [] = some pgd)
    (inside : o < 2 ^ 39) : walk mem (view.toPhys pgd).toNat o = tree.lookup view mem o := by
  have first : o / 2 ^ 30 < 512 := by omega
  have second : o / 2 ^ 21 % 512 < 512 := Nat.mod_lt _ (by omega)
  unfold Tree.lookup
  cases mid : tree [o / 2 ^ 30] with
  | none =>
    rcases repr.unlinked (by simp) first root mid with zero | ⟨impossible, -⟩
    · exact walk_of_zero zero
    · simp at impossible
  | some p =>
    rw [walk_of_table (repr.page mid) (repr.linked (by simp) first root mid)]
    simp only
    cases leaf : tree [o / 2 ^ 21 % 512, o / 2 ^ 30] with
    | none =>
      simp only
      rcases repr.unlinked (by simp) second mid leaf with zero | ⟨-, valid, noTable⟩
      · rw [walkPmd_of_zero zero, zero, if_neg (fun h => not_valid_zero h.1)]
      · rw [walkPmd_of_section rfl valid noTable, if_pos ⟨valid, noTable⟩]
    | some q =>
      rw [walkPmd_of_table (repr.page leaf) (repr.linked (by simp) second mid leaf)]
      rfl

end Lookup

/-! ## The three changes -/

section Changes

variable {tree : Tree} {view : TableView} {mem : Mem} {tables : List U64} {p q : U64}
  {i j k : Nat} {desc : U64}

/-- A store to one entry leaves every other entry of the tree alone. -/
theorem Tree.Repr.entry_store (repr : tree.Repr view mem tables) {path path' : List Nat}
    {k' : Nat} (placed : tree path = some p) (small : k < 512) (placed' : tree path' = some q)
    (small' : k' < 512) (ne : k' :: path' ≠ k :: path) :
    view.entry (mem.store64 (Slot.phys view ⟨p, k⟩) desc) ⟨q, k'⟩ = view.entry mem ⟨q, k'⟩ := by
  by_cases eq : p = q
  · subst eq
    refine TableView.entry_store_index ?_
    rintro rfl
    exact ne (by rw [repr.inj placed' placed])
  · exact TableView.entry_store_page (repr.page placed) (repr.page placed') eq small small'

/-- Storing in a last-level table leaves the shape alone. -/
theorem Tree.Repr.setPage (repr : tree.Repr view mem tables) (leaf : tree [j, i] = some q)
    (small : k < 512) :
    tree.Repr view (mem.store64 (Slot.phys view ⟨q, k⟩) desc) tables := by
  have frame : ∀ {path p k'}, path.length < 2 → k' < 512 → tree path = some p →
      view.entry (mem.store64 (Slot.phys view ⟨q, k⟩) desc) ⟨p, k'⟩ =
        view.entry mem ⟨p, k'⟩ := by
    intro path p k' short small' placed
    refine repr.entry_store leaf small placed small' (fun same => ?_)
    rw [(List.cons.inj same).2] at short
    simp at short
  refine ⟨repr.page, repr.mem_tables, repr.inj, repr.depth, repr.parent, ?_, ?_⟩
  · intro k' path p q' short small' placed child
    rw [frame short small' placed]
    exact repr.linked short small' placed child
  · intro k' path p short small' placed noChild
    rw [frame short small' placed]
    exact repr.unlinked short small' placed noChild

/-- Storing a page descriptor changes the walk of that page only. -/
theorem Tree.Repr.lookup_setPage (repr : tree.Repr view mem tables) (mid : tree [i] = some p)
    (leaf : tree [j, i] = some q) (small : k < 512) (valid : Valid desc) (table : Table desc)
    (o : Nat) :
    tree.lookup view (mem.store64 (Slot.phys view ⟨q, k⟩) desc) o =
      if o / 2 ^ 30 = i ∧ o / 2 ^ 21 % 512 = j ∧ o / 2 ^ 12 % 512 = k then
        some (.ofDesc 12 desc o)
      else tree.lookup view mem o := by
  have second : o / 2 ^ 21 % 512 < 512 := Nat.mod_lt _ (by omega)
  have third : o / 2 ^ 12 % 512 < 512 := Nat.mod_lt _ (by omega)
  unfold Tree.lookup
  by_cases here : o / 2 ^ 30 = i ∧ o / 2 ^ 21 % 512 = j ∧ o / 2 ^ 12 % 512 = k
  · rw [if_pos here]
    obtain ⟨rfl, rfl, rfl⟩ := here
    simp only [mid, leaf, TableView.entry_store_same, valid, table, and_self, if_true]
  · rw [if_neg here]
    cases mid' : tree [o / 2 ^ 30] with
    | none => rfl
    | some p' =>
      simp only
      cases leaf' : tree [o / 2 ^ 21 % 512, o / 2 ^ 30] with
      | none => simp only [repr.entry_store leaf small mid' second (by simp)]
      | some q' =>
        have ne : [o / 2 ^ 12 % 512, o / 2 ^ 21 % 512, o / 2 ^ 30] ≠ [k, j, i] := by
          simp only [ne_eq, List.cons.injEq, and_true]
          exact fun same => here ⟨same.2.2, same.2.1, same.1⟩
        simp only [repr.entry_store leaf small leaf' third ne]

/-- The tree once a section has replaced entry `j` of the table at `[i]`. -/
def Tree.dropLeaf (tree : Tree) (i j : Nat) : Tree := Function.update tree [j, i] none

theorem Tree.dropLeaf_of_ne {path : List Nat} (ne : path ≠ [j, i]) :
    tree.dropLeaf i j path = tree path := Function.update_of_ne ne _ _

theorem Tree.dropLeaf_self : tree.dropLeaf i j [j, i] = none := Function.update_self ..

theorem Tree.of_dropLeaf {path : List Nat} (placed : tree.dropLeaf i j path = some p) :
    path ≠ [j, i] ∧ tree path = some p := by
  have ne : path ≠ [j, i] := by
    rintro rfl
    rw [Tree.dropLeaf_self] at placed
    cases placed
  rw [Tree.dropLeaf_of_ne ne] at placed
  exact ⟨ne, placed⟩

/-- Storing a section drops whatever table the entry pointed to. -/
theorem Tree.Repr.setSection (repr : tree.Repr view mem tables) (mid : tree [i] = some p)
    (small : j < 512) (valid : Valid desc) (noTable : ¬ Table desc) :
    (tree.dropLeaf i j).Repr view (mem.store64 (Slot.phys view ⟨p, j⟩) desc) tables := by
  refine ⟨?_, ?_, ?_, ?_, ?_, ?_, ?_⟩
  · exact fun placed => repr.page (Tree.of_dropLeaf placed).2
  · exact fun placed => repr.mem_tables (Tree.of_dropLeaf placed).2
  · exact fun placed placed' =>
      repr.inj (Tree.of_dropLeaf placed).2 (Tree.of_dropLeaf placed').2
  · exact fun placed => repr.depth (Tree.of_dropLeaf placed).2
  · intro k' path gone
    by_cases dropped : path = [j, i]
    · -- nothing hangs below a last-level table
      subst dropped
      rw [Tree.dropLeaf_of_ne (by simp)]
      cases child : tree (k' :: [j, i]) with
      | none => rfl
      | some q' => simpa using repr.depth child
    · rw [Tree.dropLeaf_of_ne dropped] at gone
      by_cases self : k' :: path = [j, i]
      · rw [self, Tree.dropLeaf_self]
      · rw [Tree.dropLeaf_of_ne self, repr.parent gone]
  · intro k' path p' q' short small' placed child
    obtain ⟨ne, child⟩ := Tree.of_dropLeaf child
    obtain ⟨-, old⟩ := Tree.of_dropLeaf placed
    rw [repr.entry_store mid small old small' ne]
    exact repr.linked short small' old child
  · intro k' path p' short small' placed noChild
    obtain ⟨-, old⟩ := Tree.of_dropLeaf placed
    by_cases self : k' :: path = [j, i]
    · obtain ⟨rfl, rfl⟩ := List.cons.inj self
      obtain rfl : p = p' := Option.some.inj (mid.symm.trans old)
      rw [TableView.entry_store_same]
      exact .inr ⟨rfl, valid, noTable⟩
    · rw [Tree.dropLeaf_of_ne self] at noChild
      rw [repr.entry_store mid small old small' self]
      exact repr.unlinked short small' old noChild

/-- Storing a section changes the walk of its 2 MiB only. -/
theorem Tree.Repr.lookup_setSection (repr : tree.Repr view mem tables)
    (mid : tree [i] = some p) (small : j < 512) (valid : Valid desc) (noTable : ¬ Table desc)
    (o : Nat) :
    (tree.dropLeaf i j).lookup view (mem.store64 (Slot.phys view ⟨p, j⟩) desc) o =
      if o / 2 ^ 30 = i ∧ o / 2 ^ 21 % 512 = j then some (.ofDesc 21 desc o)
      else tree.lookup view mem o := by
  have second : o / 2 ^ 21 % 512 < 512 := Nat.mod_lt _ (by omega)
  have third : o / 2 ^ 12 % 512 < 512 := Nat.mod_lt _ (by omega)
  unfold Tree.lookup
  rw [Tree.dropLeaf_of_ne (show [o / 2 ^ 30] ≠ [j, i] by simp)]
  by_cases here : o / 2 ^ 30 = i ∧ o / 2 ^ 21 % 512 = j
  · rw [if_pos here]
    obtain ⟨rfl, rfl⟩ := here
    simp only [mid, Tree.dropLeaf_self, TableView.entry_store_same, valid, noTable,
      not_false_eq_true, and_self, if_true]
  · have ne : [o / 2 ^ 21 % 512, o / 2 ^ 30] ≠ [j, i] := by
      simp only [ne_eq, List.cons.injEq, and_true]
      exact fun same => here ⟨same.2, same.1⟩
    rw [if_neg here, Tree.dropLeaf_of_ne ne]
    cases mid' : tree [o / 2 ^ 30] with
    | none => rfl
    | some p' =>
      simp only
      cases leaf' : tree [o / 2 ^ 21 % 512, o / 2 ^ 30] with
      | none => simp only [repr.entry_store mid small mid' second ne]
      | some q' => simp only [repr.entry_store mid small leaf' third (by simp)]

end Changes

/-! ## Linking a new table -/

section Link

variable {tree : Tree} {view : TableView} {mem mem' : Mem} {tables : List U64} {p page : U64}
  {path : List Nat} {k : Nat}

/-- The tree with `page` as child `k` of the table at `path`. -/
def Tree.addChild (tree : Tree) (k : Nat) (path : List Nat) (page : U64) : Tree :=
  Function.update tree (k :: path) (some page)

theorem Tree.addChild_of_ne {other : List Nat} (ne : other ≠ k :: path) :
    tree.addChild k path page other = tree other := Function.update_of_ne ne _ _

theorem Tree.addChild_self : tree.addChild k path page (k :: path) = some page :=
  Function.update_self ..

theorem Tree.of_addChild {other : List Nat} {q : U64}
    (placed : tree.addChild k path page other = some q) :
    (other = k :: path ∧ q = page) ∨ (other ≠ k :: path ∧ tree other = some q) := by
  by_cases self : other = k :: path
  · subst self
    rw [Tree.addChild_self] at placed
    exact .inl ⟨rfl, (Option.some.inj placed).symm⟩
  · rw [Tree.addChild_of_ne self] at placed
    exact .inr ⟨self, placed⟩

/-- The tables have the same contents in both memories. -/
def Tree.Same (tree : Tree) (view : TableView) (mem mem' : Mem) : Prop :=
  ∀ path q, tree path = some q → mem.AgreeOn mem' (view.toPhys q).toNat (2 ^ 12)

theorem Tree.Same.entry_eq (same : tree.Same view mem mem') {q : U64} {path : List Nat}
    (placed : tree path = some q) (small : k < 512) :
    view.entry mem' ⟨q, k⟩ = view.entry mem ⟨q, k⟩ :=
  TableView.entry_congr small (same path q placed)

/-- Stores outside the tables leave the description valid, also among more tables. -/
theorem Tree.Same.repr (same : tree.Same view mem mem') (repr : tree.Repr view mem tables)
    {tables' : List U64} (more : tables ⊆ tables') : tree.Repr view mem' tables' := by
  refine ⟨repr.page, fun placed => more (repr.mem_tables placed), repr.inj, repr.depth,
    repr.parent, ?_, ?_⟩
  · intro k' path p q short small placed child
    rw [same.entry_eq placed small]
    exact repr.linked short small placed child
  · intro k' path p short small placed noChild
    rw [same.entry_eq placed small]
    exact repr.unlinked short small placed noChild

theorem Tree.Same.lookup_eq (same : tree.Same view mem mem') (o : Nat) :
    tree.lookup view mem' o = tree.lookup view mem o := by
  have second : o / 2 ^ 21 % 512 < 512 := Nat.mod_lt _ (by omega)
  have third : o / 2 ^ 12 % 512 < 512 := Nat.mod_lt _ (by omega)
  unfold Tree.lookup
  cases mid : tree [o / 2 ^ 30] with
  | none => rfl
  | some p =>
    simp only
    cases leaf : tree [o / 2 ^ 21 % 512, o / 2 ^ 30] with
    | none => simp only [same.entry_eq mid second]
    | some q => simp only [same.entry_eq leaf third]

/-- A page that `pt_alloc` may hand out next to `tables`: new, zeroed, and nothing
else in memory changed. -/
structure FreshPage (view : TableView) (tables : List U64) (mem mem' : Mem) (page : U64) :
    Prop where
  isPage : view.IsPage page
  notMem : page ∉ tables
  zero : ∀ k < 512, view.entry mem' ⟨page, k⟩ = 0
  frame : ∀ x, (x < (view.toPhys page).toNat ∨ (view.toPhys page).toNat + 2 ^ 12 ≤ x) →
    mem' x = mem x

theorem FreshPage.same (fresh : FreshPage view tables mem mem' page)
    (repr : tree.Repr view mem tables) : tree.Same view mem mem' := by
  intro path q placed x low high
  have ne : page ≠ q := by
    rintro rfl
    exact fresh.notMem (repr.mem_tables placed)
  have apart := fresh.isPage.apart (repr.page placed) ne
  exact fresh.frame x (by omega)

/-- Linking a zeroed page that the tree does not use yet to an empty entry. -/
theorem Tree.Repr.link (repr : tree.Repr view mem tables) (short : path.length < 2)
    (placed : tree path = some p) (empty : tree (k :: path) = none) (small : k < 512)
    (isPage : view.IsPage page) (mem_tables : page ∈ tables)
    (unused : ∀ other, tree other ≠ some page)
    (zero : ∀ k' < 512, view.entry mem ⟨page, k'⟩ = 0) :
    (tree.addChild k path page).Repr view
      (mem.store64 (Slot.phys view ⟨p, k⟩) (view.tableDesc page)) tables := by
  have apart : p ≠ page := by
    rintro rfl
    exact unused path placed
  refine ⟨?_, ?_, ?_, ?_, ?_, ?_, ?_⟩
  · intro other q there
    rcases Tree.of_addChild there with ⟨-, rfl⟩ | ⟨-, old⟩
    · exact isPage
    · exact repr.page old
  · intro other q there
    rcases Tree.of_addChild there with ⟨-, rfl⟩ | ⟨-, old⟩
    · exact mem_tables
    · exact repr.mem_tables old
  · intro other other' q there there'
    rcases Tree.of_addChild there with ⟨eq, new⟩ | ⟨-, old⟩
    · rcases Tree.of_addChild there' with ⟨eq', -⟩ | ⟨-, old'⟩
      · rw [eq, eq']
      · exact absurd (new ▸ old') (unused other')
    · rcases Tree.of_addChild there' with ⟨-, new'⟩ | ⟨-, old'⟩
      · exact absurd (new' ▸ old) (unused other)
      · exact repr.inj old old'
  · intro other q there
    rcases Tree.of_addChild there with ⟨rfl, -⟩ | ⟨-, old⟩
    · simpa using short
    · exact repr.depth old
  · intro k' other gone
    have neSelf : other ≠ k :: path := by
      rintro rfl
      rw [Tree.addChild_self] at gone
      cases gone
    rw [Tree.addChild_of_ne neSelf] at gone
    by_cases self : k' :: other = k :: path
    · rw [(List.cons.inj self).2, placed] at gone
      cases gone
    · rw [Tree.addChild_of_ne self, repr.parent gone]
  · intro k' other p' q' short' small' there child
    rcases Tree.of_addChild child with ⟨self, rfl⟩ | ⟨ne, oldChild⟩
    · obtain ⟨rfl, rfl⟩ := List.cons.inj self
      rw [Tree.addChild_of_ne List.ne_cons_self, placed] at there
      obtain rfl := Option.some.inj there
      exact TableView.entry_store_same
    · rcases Tree.of_addChild there with ⟨rfl, -⟩ | ⟨-, old⟩
      · -- the new page has no children
        rw [repr.parent empty] at oldChild
        cases oldChild
      · rw [repr.entry_store placed small old small' ne]
        exact repr.linked short' small' old oldChild
  · intro k' other p' short' small' there noChild
    have ne : k' :: other ≠ k :: path := by
      intro self
      rw [self, Tree.addChild_self] at noChild
      cases noChild
    rw [Tree.addChild_of_ne ne] at noChild
    rcases Tree.of_addChild there with ⟨-, rfl⟩ | ⟨-, old⟩
    · rw [TableView.entry_store_page (repr.page placed) isPage apart small small']
      exact .inl (zero k' small')
    · rw [repr.entry_store placed small old small' ne]
      exact repr.unlinked short' small' old noChild

/-- To link an empty table changes no translation. -/
theorem Tree.Repr.lookup_link (repr : tree.Repr view mem tables) (short : path.length < 2)
    (placed : tree path = some p) (empty : tree (k :: path) = none) (small : k < 512)
    (isPage : view.IsPage page) (unused : ∀ other, tree other ≠ some page)
    (entryZero : view.entry mem ⟨p, k⟩ = 0) (zero : ∀ k' < 512, view.entry mem ⟨page, k'⟩ = 0)
    (o : Nat) :
    (tree.addChild k path page).lookup view
      (mem.store64 (Slot.phys view ⟨p, k⟩) (view.tableDesc page)) o = tree.lookup view mem o := by
  have second : o / 2 ^ 21 % 512 < 512 := Nat.mod_lt _ (by omega)
  have third : o / 2 ^ 12 % 512 < 512 := Nat.mod_lt _ (by omega)
  have apart : p ≠ page := by
    rintro rfl
    exact unused path placed
  have pageZero : ∀ k' < 512, view.entry
      (mem.store64 (Slot.phys view ⟨p, k⟩) (view.tableDesc page)) ⟨page, k'⟩ = 0 := by
    intro k' small'
    rw [TableView.entry_store_page (repr.page placed) isPage apart small small', zero k' small']
  unfold Tree.lookup
  by_cases midNew : [o / 2 ^ 30] = k :: path
  · -- the new table is the middle one of `o`, which had none
    obtain ⟨rfl, rfl⟩ := List.cons.inj midNew
    have noLeaf := repr.parent (k := o / 2 ^ 21 % 512) empty
    rw [Tree.addChild_self, Tree.addChild_of_ne (by simp), noLeaf, empty]
    simp only [pageZero _ second, not_valid_zero, false_and, if_false]
  · rw [Tree.addChild_of_ne midNew]
    cases mid : tree [o / 2 ^ 30] with
    | none => rfl
    | some p' =>
      simp only
      by_cases leafNew : [o / 2 ^ 21 % 512, o / 2 ^ 30] = k :: path
      · -- the new table is the last one of `o`, whose entry was empty
        obtain ⟨rfl, rfl⟩ := List.cons.inj leafNew
        obtain rfl : p = p' := Option.some.inj (placed.symm.trans mid)
        rw [Tree.addChild_self, empty]
        simp only [pageZero _ third, entryZero, not_valid_zero, false_and, if_false]
      · rw [Tree.addChild_of_ne leafNew]
        cases leaf : tree [o / 2 ^ 21 % 512, o / 2 ^ 30] with
        | none => simp only [repr.entry_store placed small mid second leafNew]
        | some q' =>
          have ne : [o / 2 ^ 12 % 512, o / 2 ^ 21 % 512, o / 2 ^ 30] ≠ k :: path := by
            intro same
            rw [← (List.cons.inj same).2] at short
            simp at short
          simp only [repr.entry_store placed small leaf third ne]

end Link

end Chinos
