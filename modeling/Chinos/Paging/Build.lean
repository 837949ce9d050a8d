import Chinos.Paging.Paths

/-!
# What the builders do to a translation

Each builder either fails because `pt_alloc` did, or ends in a state whose walk is
the old one with a range of offsets overridden. Ranges compose, so the loops are
one induction. On the way the builder takes a page for each table that the range lacks,
and no more; it fails when one of them cannot be had.

Offsets are relative to a 512 GiB boundary `base`; a range may not reach the last
GiB below `2 ^ 64`, where the step of the PGD loop would wrap.
-/

namespace Chinos

/-- Physical address `x` is one of the 4096 bytes of a table page. -/
def TableView.InPage (view : TableView) (page : U64) (x : Nat) : Prop :=
  (view.toPhys page).toNat ≤ x ∧ x < (view.toPhys page).toNat + 2 ^ 12

/-- What the builders rely on: with the pages in `tables` in use, `pt_alloc` fails or
hands out a fresh zeroed page. `Good` is the allocator's own invariant. -/
structure AllocSpec {A : Type} (view : TableView) (alloc : PtAlloc A)
    (Good : A → List U64 → Prop) : Prop where
  step : ∀ {heap tables} (mem : Mem), Good heap tables →
    alloc heap mem = .error .null ∨
      ∃ page heap' mem', alloc heap mem = .ok (page, heap', mem') ∧
        FreshPage view tables mem mem' page ∧ Good heap' (page :: tables)

section Build

variable {A : Type} {view : TableView} {alloc : PtAlloc A} {Good : A → List U64 → Prop}
  {pgd : U64} {attr : U64}

/-- A state whose tables are the ones `tree` describes. -/
structure PtInv (view : TableView) (Good : A → List U64 → Prop) (pgd : U64) (tree : Tree)
    (s : PtState A) : Prop where
  repr : tree.Repr view s.mem s.tables
  root : tree [] = some pgd
  good : Good s.heap s.tables

/-- What a call asks for: the offsets `[lo, hi)` are to go to `paddr` on, with `attr`. -/
structure MapRange where
  lo : Nat
  hi : Nat
  paddr : U64
  attr : U64

/-- The physical address that offset `o` of the range is to go to. -/
def MapRange.paddrAt (r : MapRange) (o : Nat) : U64 := r.paddr + BitVec.ofNat 64 (o - r.lo)

/-- The range has all of the 2 MiB slot number `m`, at a physical address that a section can
have. -/
def MapRange.Section (r : MapRange) (m : Nat) : Prop :=
  r.lo ≤ m * 2 ^ 21 ∧ (m + 1) * 2 ^ 21 ≤ r.hi ∧ (r.paddrAt (m * 2 ^ 21)).toNat % 2 ^ 21 = 0

instance (r : MapRange) (m : Nat) : Decidable (r.Section m) := inferInstanceAs (Decidable (_ ∧ _))

/-- The leaf that a builder makes for offset `o`, which is part of a section or a page. -/
def MapRange.leaf (r : MapRange) (o : Nat) : Leaf :=
  if r.Section (o / 2 ^ 21) then
    .ofDesc 21 (sectDesc (r.paddrAt (o / 2 ^ 21 * 2 ^ 21)) r.attr) o
  else
    .ofDesc 12 (pageDesc (r.paddrAt (o / 2 ^ 12 * 2 ^ 12)) r.attr) o

/-- How many of the tables that `r` needs, mapped page by page, are missing. -/
def MapRange.missing (r : MapRange) (tree : Tree) : Nat := tree.missing r.lo r.hi

/-- From `s` to `s'`, tables that `r` needs were added where they were missing, each of them on
a page of its own. -/
structure TablesGrown (r : MapRange) (tree : Tree) (s : PtState A) (tree' : Tree) (s' : PtState A) :
    Prop where
  kept : ∀ {path}, tree.has path = true → tree'.has path = true
  only : ∀ {path}, tree'.has path = true → tree.has path = true ∨ path ∈ tablePaths r.lo r.hi
  paid : s'.tables.length + r.missing tree' = s.tables.length + r.missing tree

theorem TablesGrown.of_tree_eq {r : MapRange} {tree : Tree} {s s' : PtState A}
    (tables : s'.tables = s.tables) : TablesGrown r tree s tree s' :=
  ⟨id, .inl, by rw [tables]⟩

/-- From `s` to `s'`, offsets `[lo, hi)` got the leaves that `r` asks for; all else is as
before. Where `r` holds no section, the tables have grown by those that were missing. -/
structure Built (view : TableView) (Good : A → List U64 → Prop) (pgd : U64) (r : MapRange)
    (tree : Tree) (s : PtState A) (lo hi : Nat) (tree' : Tree) (s' : PtState A) : Prop where
  inv : PtInv view Good pgd tree' s'
  kept : ∀ {path p}, path.length < 2 → tree path = some p → tree' path = some p
  inside : ∀ o, lo ≤ o → o < hi → tree'.lookup view s'.mem o = some (r.leaf o)
  outside : ∀ o, o < lo ∨ hi ≤ o → tree'.lookup view s'.mem o = tree.lookup view s.mem o
  tables : s.tables ⊆ s'.tables
  frame : ∀ x, (∀ p ∈ s'.tables, ¬ view.InPage p x) → s'.mem x = s.mem x
  grown : (∀ m, ¬ r.Section m) → TablesGrown r tree s tree' s'

variable {r : MapRange} {tree tree₁ tree₂ : Tree} {s s₁ s₂ : PtState A} {lo mid hi : Nat}

theorem Built.refl (inv : PtInv view Good pgd tree s) (lo : Nat) :
    Built view Good pgd r tree s lo lo tree s where
  inv := inv
  kept _ placed := placed
  inside o low high := absurd high (by omega)
  outside _ _ := rfl
  tables := List.Subset.refl _
  frame _ _ := rfl
  grown _ := .of_tree_eq rfl

theorem TablesGrown.trans (first : TablesGrown r tree s tree₁ s₁)
    (second : TablesGrown r tree₁ s₁ tree₂ s₂) : TablesGrown r tree s tree₂ s₂ where
  kept has := second.kept (first.kept has)
  only has := (second.only has).elim first.only .inr
  paid := second.paid.trans first.paid

/-- Two adjacent parts that are built one after the other are built as one. -/
theorem Built.trans (first : Built view Good pgd r tree s lo mid tree₁ s₁)
    (second : Built view Good pgd r tree₁ s₁ mid hi tree₂ s₂) (low : lo ≤ mid) (high : mid ≤ hi) :
    Built view Good pgd r tree s lo hi tree₂ s₂ where
  inv := second.inv
  kept short placed := second.kept short (first.kept short placed)
  inside o above below := by
    by_cases early : o < mid
    · exact (second.outside o (.inl early)).trans (first.inside o above early)
    · exact second.inside o (by omega) below
  outside o out := by
    rw [second.outside o (by omega), first.outside o (by omega)]
  tables := List.Subset.trans first.tables second.tables
  frame x free := by
    rw [second.frame x free]
    exact first.frame x (fun p inTables => free p (second.tables inTables))
  grown pages := (first.grown pages).trans (second.grown pages)

/-- A builder that works from offset `lo` of `r` on gets to a table that is missing, and
`pt_alloc` has no page for it. -/
def Starves (view : TableView) (alloc : PtAlloc A) (Good : A → List U64 → Prop) (pgd : U64)
    (r : MapRange) (tree : Tree) (s : PtState A) (lo : Nat) : Prop :=
  ∃ mid tree' s' path, lo ≤ mid ∧ Built view Good pgd r tree s lo mid tree' s' ∧
    path ∈ tablePaths r.lo r.hi ∧ tree' path = none ∧ alloc s'.heap s'.mem = .error .null

/-- A builder that starves after it has built a part starves as a whole. -/
theorem Starves.prepend (low : lo ≤ mid) (first : Built view Good pgd r tree s lo mid tree₁ s₁)
    (starves : Starves view alloc Good pgd r tree₁ s₁ mid) :
    Starves view alloc Good pgd r tree s lo := by
  obtain ⟨mid', tree', s', path, low', second, needed, empty, failed⟩ := starves
  exact ⟨mid', tree', s', path, low.trans low', first.trans second low low', needed, empty, failed⟩

/-- The outcome of a builder: `pt_alloc` failed, or the range is built and the new tree
satisfies `keep`. -/
def Builds (view : TableView) (alloc : PtAlloc A) (Good : A → List U64 → Prop) (pgd : U64)
    (r : MapRange) (keep : Tree → Prop) (tree : Tree) (s : PtState A) (lo hi : Nat)
    (result : Except Fault (PtState A)) : Prop :=
  (result = .error .null ∧ Starves view alloc Good pgd r tree s lo) ∨
    ∃ tree' s', result = .ok s' ∧ Built view Good pgd r tree s lo hi tree' s' ∧ keep tree'

/-- The outcome of a builder that may fail in the ways `fails` says, of which a failure for want
of memory comes with the table that is missing. -/
def BuildsOr (fails : Fault → Prop) (view : TableView) (alloc : PtAlloc A)
    (Good : A → List U64 → Prop) (pgd : U64) (r : MapRange) (keep : Tree → Prop) (tree : Tree)
    (s : PtState A) (lo hi : Nat) (result : Except Fault (PtState A)) : Prop :=
  (∃ fault, fails fault ∧ result = .error fault ∧
      (fault = .null → Starves view alloc Good pgd r tree s lo)) ∨
    ∃ tree' s', result = .ok s' ∧ Built view Good pgd r tree s lo hi tree' s' ∧ keep tree'

variable {fails : Fault → Prop}

/-- Builders run one after the other build both parts. -/
theorem BuildsOr.bind {keep keep' : Tree → Prop} {first : Except Fault (PtState A)}
    {rest : PtState A → Except Fault (PtState A)} (low : lo ≤ mid) (high : mid ≤ hi)
    (run : BuildsOr fails view alloc Good pgd r keep tree s lo mid first)
    (next : ∀ {tree₁ s₁}, Built view Good pgd r tree s lo mid tree₁ s₁ → keep tree₁ →
      BuildsOr fails view alloc Good pgd r keep' tree₁ s₁ mid hi (rest s₁)) :
    BuildsOr fails view alloc Good pgd r keep' tree s lo hi (first >>= rest) := by
  rcases run with ⟨fault, may, failed, starves⟩ | ⟨tree₁, s₁, ok, built, kept⟩
  · exact .inl ⟨fault, may, by rw [failed]; rfl, starves⟩
  · rw [ok]
    rcases next built kept with ⟨fault, may, failed, starves⟩ | ⟨tree₂, s₂, ok₂, built₂, kept₂⟩
    · exact .inl ⟨fault, may, failed, fun null => (starves null).prepend low built⟩
    · exact .inr ⟨tree₂, s₂, ok₂, built.trans built₂ low high, kept₂⟩

/-- A step that builds nothing, such as the allocation of an empty table, may come first. -/
theorem BuildsOr.prepend {keep : Tree → Prop} {result : Except Fault (PtState A)}
    (built : Built view Good pgd r tree s lo lo tree₁ s₁) (high : lo ≤ hi)
    (builds : BuildsOr fails view alloc Good pgd r keep tree₁ s₁ lo hi result) :
    BuildsOr fails view alloc Good pgd r keep tree s lo hi result := by
  rcases builds with ⟨fault, may, failed, starves⟩ | ⟨tree₂, s₂, ok, built₂, kept⟩
  · exact .inl ⟨fault, may, failed, fun null => (starves null).prepend le_rfl built⟩
  · exact .inr ⟨tree₂, s₂, ok, built.trans built₂ le_rfl high, kept⟩

theorem BuildsOr.weaken {keep keep' : Tree → Prop} {result : Except Fault (PtState A)}
    (builds : BuildsOr fails view alloc Good pgd r keep tree s lo hi result)
    (weaker : ∀ {tree'}, keep tree' → keep' tree') :
    BuildsOr fails view alloc Good pgd r keep' tree s lo hi result := by
  rcases builds with failed | ⟨tree', s', ok, built, kept⟩
  · exact .inl failed
  · exact .inr ⟨tree', s', ok, built, weaker kept⟩

/-- In `[lo, hi)`, no block is in the way of the pages that `r` asks for. -/
def MapRange.Clear (r : MapRange) (view : TableView) (tree : Tree) (mem : Mem) (lo hi : Nat) :
    Prop :=
  ∀ o, lo ≤ o → o < hi → ¬ r.Section (o / 2 ^ 21) → ∀ leaf, tree.lookup view mem o = some leaf →
    leaf.shift = 12

/-- In `[lo, hi)`, a block in the way of the pages that `r` asks for, if there may be one, has
a descriptor that cannot be taken for a table's: it has a bit above the addresses. -/
def MapRange.Free (r : MapRange) (fails : Fault → Prop) (view : TableView) (tree : Tree)
    (mem : Mem) (lo hi : Nat) : Prop :=
  ∀ o, lo ≤ o → o < hi → ¬ r.Section (o / 2 ^ 21) → ∀ leaf, tree.lookup view mem o = some leaf →
    leaf.shift = 12 ∨ fails .wild ∧ 2 ^ 48 ≤ leaf.attr.toNat

theorem MapRange.Free.mono {lo' hi' : Nat} {mem : Mem} (free : r.Free fails view tree mem lo hi)
    (low : lo ≤ lo') (high : hi' ≤ hi) : r.Free fails view tree mem lo' hi' :=
  fun o above below => free o (by omega) (by omega)

theorem MapRange.Free.after (free : r.Free fails view tree s.mem lo hi) (low : lo ≤ mid)
    (built : Built view Good pgd r tree s lo mid tree₁ s₁) :
    r.Free fails view tree₁ s₁.mem mid hi := by
  intro o above below pages leaf found
  rw [built.outside o (by omega)] at found
  exact free o (by omega) below pages leaf found

/-- What makes a builder stop at such a block: the pointer it makes of the descriptor is not
one of the pages of the table. -/
structure Strict (view : TableView) (Good : A → List U64 → Prop) : Prop where
  forth : ∀ x, view.toPhys (view.ofPhys x) = x
  pages : ∀ {heap tables}, Good heap tables → ∀ q ∈ tables, view.IsPage q

/-! ## Stores and links -/

theorem ptLoad_of_owns {slot : Slot} (owns : s.Owns slot) :
    ptLoad view s slot = .ok (view.entry s.mem slot) := by
  unfold ptLoad
  rw [require_bind_of_pos owns]
  rfl

theorem ptStore_of_owns {slot : Slot} {value : U64} (owns : s.Owns slot) :
    ptStore view s slot value =
      .ok { s with mem := s.mem.store64 (slot.phys view) value } := by
  unfold ptStore
  rw [require_bind_of_pos owns]
  rfl

theorem store_frame {p value : U64} {k x : Nat} {mem : Mem} (small : k < 512)
    (free : ¬ view.InPage p x) :
    mem.store64 (Slot.phys view ⟨p, k⟩) value x = mem x := by
  refine Mem.store64_of_outside ?_
  unfold TableView.InPage at free
  simp only [Slot.phys]
  omega

/-- One turn of the loop of `pte_map` builds a page. -/
theorem Built.page {p q paddr : U64} {o : Nat} (inv : PtInv view Good pgd tree s)
    (middle : tree [o / 2 ^ 30] = some p)
    (leaf : tree [o / 2 ^ 21 % 512, o / 2 ^ 30] = some q) (aligned : o % 2 ^ 12 = 0)
    (pAligned : paddr.toNat % 2 ^ 12 = 0) (pages : ¬ r.Section (o / 2 ^ 21))
    (paddr_eq : paddr = r.paddrAt o) :
    Built view Good pgd r tree s o (o + 2 ^ 12) tree
      { s with
        mem := s.mem.store64 (Slot.phys view ⟨q, o / 2 ^ 12 % 512⟩) (pageDesc paddr r.attr) } := by
  have third : o / 2 ^ 12 % 512 < 512 := Nat.mod_lt _ (by omega)
  have look := inv.repr.lookup_setPage middle leaf third (valid_pageDesc r.attr pAligned)
    (table_pageDesc r.attr pAligned)
  refine ⟨⟨inv.repr.setPage leaf third, inv.root, inv.good⟩, fun _ placed => placed, ?_, ?_,
    List.Subset.refl _, ?_, fun _ => .of_tree_eq rfl⟩
  · intro o' low high
    have sameSlot : o' / 2 ^ 21 = o / 2 ^ 21 := by omega
    have start : o' / 2 ^ 12 * 2 ^ 12 = o := by omega
    unfold MapRange.leaf
    rw [look o', if_pos (by omega), sameSlot, if_neg pages, start, ← paddr_eq]
  · intro o' out
    rw [look o', if_neg (by omega)]
  · intro x free
    exact store_frame third (free q (inv.repr.mem_tables leaf))

/-- One turn of the loop of `pmd_map` that stores a section builds 2 MiB at once. -/
theorem Built.section {p paddr : U64} {o : Nat} (inv : PtInv view Good pgd tree s)
    (middle : tree [o / 2 ^ 30] = some p) (aligned : o % 2 ^ 21 = 0)
    (pAligned : paddr.toNat % 2 ^ 21 = 0) (isSection : r.Section (o / 2 ^ 21))
    (paddr_eq : paddr = r.paddrAt o) :
    Built view Good pgd r tree s o (o + 2 ^ 21)
      (tree.dropLeaf (o / 2 ^ 30) (o / 2 ^ 21 % 512))
      { s with
        mem := s.mem.store64 (Slot.phys view ⟨p, o / 2 ^ 21 % 512⟩) (sectDesc paddr r.attr) } := by
  have second : o / 2 ^ 21 % 512 < 512 := Nat.mod_lt _ (by omega)
  have valid := valid_sectDesc r.attr pAligned
  have noTable := not_table_sectDesc r.attr pAligned
  have look := inv.repr.lookup_setSection middle second valid noTable
  refine ⟨⟨inv.repr.setSection middle second valid noTable, ?_, inv.good⟩, ?_, ?_, ?_,
    List.Subset.refl _, ?_, fun pages => absurd isSection (pages _)⟩
  · rw [Tree.dropLeaf_of_ne (by simp)]
    exact inv.root
  · intro path p' short placed
    rw [Tree.dropLeaf_of_ne]
    · exact placed
    · rintro rfl
      simp at short
  · intro o' low high
    have sameSlot : o' / 2 ^ 21 = o / 2 ^ 21 := by omega
    have start : o / 2 ^ 21 * 2 ^ 21 = o := by omega
    unfold MapRange.leaf
    rw [look o', if_pos (by omega), sameSlot, if_pos isSection, start, ← paddr_eq]
  · intro o' out
    rw [look o', if_neg (by omega)]
  · intro x free
    exact store_frame second (free p (inv.repr.mem_tables middle))

theorem descend_of_ne {slot : Slot} (owns : s.Owns slot) (ne : view.entry s.mem slot ≠ 0) :
    descend view alloc s slot =
      .ok (view.ofPhys (view.entry s.mem slot &&& pteAddrMask), s) := by
  unfold descend
  rw [ptLoad_of_owns owns, ok_bind, if_neg ne]
  rfl

theorem descend_of_failed {slot : Slot} (owns : s.Owns slot) (zero : view.entry s.mem slot = 0)
    (failed : alloc s.heap s.mem = .error .null) :
    descend view alloc s slot = .error .null := by
  unfold descend ptAllocPage
  rw [ptLoad_of_owns owns, ok_bind, if_pos zero, failed]
  rfl

theorem descend_of_fresh {p page : U64} {k : Nat} {heap' : A} {mem' : Mem}
    (owns : s.Owns ⟨p, k⟩) (zero : view.entry s.mem ⟨p, k⟩ = 0)
    (ok : alloc s.heap s.mem = .ok (page, heap', mem')) (ne : page ≠ 0) :
    descend view alloc s ⟨p, k⟩ = .ok (page,
      ⟨mem'.store64 (Slot.phys view ⟨p, k⟩) (view.tableDesc page), heap', page :: s.tables⟩) := by
  have owns' : PtState.Owns (A := A) ⟨mem', heap', page :: s.tables⟩ ⟨p, k⟩ :=
    ⟨.tail _ owns.1, owns.2⟩
  have allocated : ptAllocPage alloc s = .ok (page, ⟨mem', heap', page :: s.tables⟩) := by
    unfold ptAllocPage
    rw [ok]
    rfl
  unfold descend
  rw [ptLoad_of_owns owns, ok_bind, if_pos zero, allocated, ok_bind]
  simp only [require_bind_of_pos ne]
  rw [ptStore_of_owns owns', ok_bind]
  rfl

/-- Linking a fresh page to an empty entry maps nothing, and pays for the table there. -/
theorem Built.link {path : List Nat} {k : Nat} {p page : U64} {heap' : A} {mem' : Mem}
    (inv : PtInv view Good pgd tree s) (short : path.length < 2) (small : k < 512)
    (placed : tree path = some p) (empty : tree (k :: path) = none)
    (needed : k :: path ∈ tablePaths r.lo r.hi)
    (zero : view.entry s.mem ⟨p, k⟩ = 0) (fresh : FreshPage view s.tables s.mem mem' page)
    (good : Good heap' (page :: s.tables)) (lo : Nat) :
    Built view Good pgd r tree s lo lo (tree.addChild k path page)
      ⟨mem'.store64 (Slot.phys view ⟨p, k⟩) (view.tableDesc page), heap',
        page :: s.tables⟩ := by
  have same := fresh.same inv.repr
  have repr' := same.repr inv.repr (List.subset_cons_self page _)
  have unused : ∀ other, tree other ≠ some page :=
    fun other there => fresh.notMem (inv.repr.mem_tables there)
  have zero' : view.entry mem' ⟨p, k⟩ = 0 := by
    rw [same.entry_eq placed small, zero]
  have kept : ∀ {other q}, tree other = some q → tree.addChild k path page other = some q := by
    intro other q there
    rw [Tree.addChild_of_ne]
    · exact there
    · rintro rfl
      rw [empty] at there
      cases there
  refine ⟨⟨repr'.link short placed empty small fresh.isPage (.head _) unused fresh.zero,
    kept inv.root, good⟩, fun _ => kept, ?_, ?_, List.subset_cons_self _ _, ?_, fun _ => ?_⟩
  · intro o low high
    omega
  · intro o _
    rw [repr'.lookup_link short placed empty small fresh.isPage unused zero' fresh.zero,
      same.lookup_eq]
  · intro x free
    have out := free page (.head _)
    unfold TableView.InPage at out
    exact (store_frame small (free p (.tail _ (inv.repr.mem_tables placed)))).trans
      (fresh.frame x (by omega))
  · have has_eq : ∀ {other}, (tree.addChild k path page).has other = true ↔
        other = k :: path ∨ tree.has other = true := by
      intro other
      unfold Tree.has
      by_cases self : other = k :: path
      · simp [self, Tree.addChild_self]
      · simp [self, Tree.addChild_of_ne self]
    have fewer : (tree.addChild k path page).missing r.lo r.hi + 1 = tree.missing r.lo r.hi :=
      Tree.missing_addChild needed empty
    refine ⟨fun has => has_eq.mpr (.inr has), fun has => ?_, ?_⟩
    · rcases has_eq.mp has with rfl | old
      · exact .inr needed
      · exact .inl old
    · unfold MapRange.missing
      rw [List.length_cons]
      omega

/-- Descending to the table of an entry that is not a block, linking one if needed; it fails
only where a table is missing. -/
theorem descend_spec (r : MapRange) (spec : AllocSpec view alloc Good)
    (inv : PtInv view Good pgd tree s) {path : List Nat} {k : Nat} {p : U64}
    (short : path.length < 2) (small : k < 512)
    (placed : tree path = some p) (needed : k :: path ∈ tablePaths r.lo r.hi)
    (noBlock : tree (k :: path) = none → view.entry s.mem ⟨p, k⟩ = 0) (lo : Nat) :
    (descend view alloc s ⟨p, k⟩ = .error .null ∧ Starves view alloc Good pgd r tree s lo) ∨
      ∃ page tree' s', descend view alloc s ⟨p, k⟩ = .ok (page, s') ∧
        Built view Good pgd r tree s lo lo tree' s' ∧ tree' (k :: path) = some page := by
  have owns : s.Owns ⟨p, k⟩ := ⟨inv.repr.mem_tables placed, small⟩
  cases child : tree (k :: path) with
  | some q =>
    have isPage := inv.repr.page child
    have entry := inv.repr.linked short small placed child
    refine .inr ⟨q, tree, s, ?_, Built.refl inv lo, child⟩
    rw [descend_of_ne owns (entry ▸ isPage.tableDesc_ne_zero), entry, isPage.ofPhys_tableDesc]
  | none =>
    have zero := noBlock child
    rcases spec.step s.mem inv.good with failed | ⟨page, heap', mem', ok, fresh, good⟩
    · exact .inl ⟨descend_of_failed owns zero failed,
        lo, tree, s, _, le_rfl, Built.refl inv lo, needed, child, failed⟩
    · exact .inr ⟨page, _, _, descend_of_fresh owns zero ok fresh.isPage.ne_zero,
        Built.link inv short small placed child needed zero fresh good lo, Tree.addChild_self⟩

/-! ## The shared loop -/

theorem tableIndex_eq (shift : Nat) (vaddr : U64) :
    tableIndex shift vaddr = vaddr.toNat / 2 ^ shift % 512 := by
  have mask : (511 : U64) = BitVec.allOnes 64 >>> (64 - 9) := by decide
  unfold tableIndex
  rw [mask, toNat_and_ones_ushiftRight _ (by omega), BitVec.toNat_ushiftRight,
    Nat.shiftRight_eq_div_pow]
  norm_num

/-- The index of an address in a table does not depend on the bits above the lower 39. -/
theorem tableIndex_of_mod {shift : Nat} {vaddr vaddr' : U64} (le : shift ≤ 30)
    (low : vaddr'.toNat = vaddr.toNat % 2 ^ 39) :
    tableIndex shift vaddr' = tableIndex shift vaddr := by
  have inside : 2 ^ shift * 512 ∣ 2 ^ 39 := by
    rw [show 512 = 2 ^ 9 from rfl, ← pow_add]
    exact pow_dvd_pow 2 (by omega)
  rw [tableIndex_eq, tableIndex_eq, low, ← Nat.mod_mul_right_div_self,
    ← Nat.mod_mul_right_div_self, Nat.mod_mod_of_dvd _ inside]

/-- `~(size - 1)` for the three sizes the loops use. -/
structure LoopSize (size : U64) (shift : Nat) : Prop where
  toNat : size.toNat = 2 ^ shift
  mask : ~~~(size - 1) = BitVec.allOnes 64 <<< shift
  low : 12 ≤ shift
  high : shift ≤ 30

theorem loopSize_page : LoopSize pageSize 12 := ⟨by decide, by decide, by omega, by omega⟩

theorem loopSize_pmd : LoopSize pmdSize 21 := ⟨by decide, by decide, by omega, by omega⟩

theorem loopSize_pgdir : LoopSize pgdirSize 30 := ⟨by decide, by decide, by omega, by omega⟩

/-- A step that does not wrap stops at the next boundary or at the end. -/
theorem nextAddr_eq {size vaddr stop : U64} {shift : Nat} (isSize : LoopSize size shift)
    (room : vaddr.toNat + 2 ^ shift < 2 ^ 64) :
    (nextAddr size vaddr stop).toNat =
      min ((vaddr.toNat / 2 ^ shift + 1) * 2 ^ shift) stop.toNat := by
  have next : ((vaddr + size) &&& ~~~(size - 1)).toNat =
      (vaddr.toNat / 2 ^ shift + 1) * 2 ^ shift := by
    rw [isSize.mask, toNat_and_ones_shiftLeft, BitVec.toNat_add, isSize.toNat,
      Nat.mod_eq_of_lt room, Nat.add_div_right _ (Nat.two_pow_pos shift)]
  unfold nextAddr
  simp only
  split
  · rename_i less
    have less := BitVec.lt_def.mp less
    rw [next] at less ⊢
    omega
  · rename_i notLess
    have past : stop.toNat ≤ (vaddr.toNat / 2 ^ shift + 1) * 2 ^ shift := by
      rw [← next]
      exact Nat.le_of_not_lt (fun less => notLess (BitVec.lt_def.mpr less))
    exact (min_eq_right past).symm

/-- A turn of a loop over entries of size `2 ^ shift` starts at offset `o`: either where the
whole range does, or at the start of an entry. -/
structure LoopAt (base : Nat) (r : MapRange) (shift : Nat) (vaddr paddr : U64) (o : Nat) :
    Prop where
  vaddr_eq : vaddr.toNat = base + o
  paddr_eq : paddr = r.paddrAt o
  aligned : o % 2 ^ 12 = 0
  low : r.lo ≤ o
  start : o < r.hi → o = r.lo ∨ o % 2 ^ shift = 0

/-- The range that a loop still has to do: it ends at `base + e`, well before the
addresses wrap, and inside the 512 entries of the table from entry number `first` on. -/
structure LoopRange (base : Nat) (r : MapRange) (stop : U64) (shift first e : Nat) : Prop where
  aligned : base % 2 ^ 39 = 0
  stop_eq : stop.toNat = base + e
  stop_aligned : e % 2 ^ 12 = 0
  room : base + e + 2 ^ 30 ≤ 2 ^ 64
  top : e ≤ (first + 512) * 2 ^ shift
  within : e ≤ r.hi
  last : e = r.hi ∨ e % 2 ^ shift = 0

theorem nextAddr_offset {size vaddr stop : U64} {base shift first o e : Nat}
    (isSize : LoopSize size shift) (range : LoopRange base r stop shift first e)
    (vaddr_eq : vaddr.toNat = base + o) (before : o < e) :
    (nextAddr size vaddr stop).toNat = base + min ((o / 2 ^ shift + 1) * 2 ^ shift) e := by
  have stop_eq := range.stop_eq
  have room := range.room
  have shiftLe : 2 ^ shift ≤ 2 ^ 30 := Nat.pow_le_pow_right (by omega) isSize.high
  have divides : 2 ^ shift ∣ base :=
    (pow_dvd_pow 2 (isSize.high.trans (by omega))).trans (Nat.dvd_of_mod_eq_zero range.aligned)
  rw [nextAddr_eq isSize (by omega), vaddr_eq, stop_eq,
    Nat.add_div_of_dvd_right divides, Nat.add_assoc, Nat.add_mul, Nat.div_mul_cancel divides,
    Nat.add_min_add_left]

/-- One turn of a loop gets past the offset it is at, and to a page boundary again. -/
theorem loop_turn {o e shift : Nat} (low : 12 ≤ shift) (before : o < e)
    (aligned : e % 2 ^ 12 = 0) :
    o < min ((o / 2 ^ shift + 1) * 2 ^ shift) e ∧
      min ((o / 2 ^ shift + 1) * 2 ^ shift) e % 2 ^ 12 = 0 := by
  have above := Nat.lt_mul_div_succ o (Nat.two_pow_pos shift)
  rw [Nat.mul_comm] at above
  have boundary : (o / 2 ^ shift + 1) * 2 ^ shift % 2 ^ 12 = 0 :=
    Nat.mod_eq_zero_of_dvd ((pow_dvd_pow 2 low).mul_left _)
  constructor
  · exact lt_min above before
  · rcases min_choice ((o / 2 ^ shift + 1) * 2 ^ shift) e with eq | eq
    · rw [eq, boundary]
    · rw [eq, aligned]

theorem LoopAt.advance {base shift o n : Nat} {vaddr next paddr : U64}
    (here : LoopAt base r shift vaddr paddr o) (next_eq : next.toNat = base + n) (low : o ≤ n)
    (aligned : n % 2 ^ 12 = 0) (start : n < r.hi → n % 2 ^ shift = 0) :
    LoopAt base r shift next (paddr + (next - vaddr)) n where
  vaddr_eq := next_eq
  paddr_eq := by
    have bound := next.isLt
    have vaddr_eq := here.vaddr_eq
    have first := here.low
    rw [here.paddr_eq]
    unfold MapRange.paddrAt
    rw [BitVec.add_assoc]
    congr 1
    apply BitVec.eq_of_toNat_eq
    rw [BitVec.toNat_add, BitVec.toNat_sub_of_le (BitVec.le_def.mpr (by omega)),
      BitVec.toNat_ofNat, BitVec.toNat_ofNat, next_eq, vaddr_eq]
    omega
  aligned := aligned
  low := here.low.trans low
  start inside := .inr (start inside)

/-- An entry of a higher level starts where one of a lower level does. -/
theorem LoopAt.finer {base shift shift' o : Nat} {vaddr paddr : U64}
    (here : LoopAt base r shift vaddr paddr o) (le : shift' ≤ shift) :
    LoopAt base r shift' vaddr paddr o :=
  ⟨here.vaddr_eq, here.paddr_eq, here.aligned, here.low, fun inside => (here.start inside).imp_right
    (fun entry => Nat.mod_eq_zero_of_dvd
      ((pow_dvd_pow 2 le).trans (Nat.dvd_of_mod_eq_zero entry)))⟩

/-- The loop builds what its body builds entry by entry. The induction is on the entries
left; at each turn `o` is in entry `512 - left` unless the range is done. -/
theorem tableLoop_builds (keep : Tree → Prop) {size stop : U64} {base shift first e : Nat}
    {body : Nat → U64 → U64 → U64 → PtState A → Except Fault (PtState A)}
    (isSize : LoopSize size shift) (range : LoopRange base r stop shift first e)
    (step : ∀ {k o n : Nat} {vaddr next paddr : U64} {s : PtState A} {tree : Tree},
      k < 512 → o / 2 ^ shift = first + k → o < n → n = min ((first + k + 1) * 2 ^ shift) e →
      n % 2 ^ 12 = 0 → LoopAt base r shift vaddr paddr o → next.toNat = base + n →
      PtInv view Good pgd tree s → keep tree → r.Free fails view tree s.mem o n →
      BuildsOr fails view alloc Good pgd r keep tree s o n (body k vaddr next paddr s)) :
    ∀ {left o : Nat} {vaddr paddr : U64} {s : PtState A} {tree : Tree}, left ≤ 512 →
      o ≤ e → (o < e → o / 2 ^ shift + left = first + 512) → LoopAt base r shift vaddr paddr o →
      PtInv view Good pgd tree s → keep tree → r.Free fails view tree s.mem o e →
      BuildsOr fails view alloc Good pgd r keep tree s o e
        (tableLoop size stop body left vaddr paddr s) := by
  intro left
  induction left with
  | zero =>
    intro o vaddr paddr s tree _ upTo position here inv kept free
    have done : o = e := by
      by_contra notDone
      have entry := position (by omega)
      have low := Nat.div_mul_le_self o (2 ^ shift)
      have top := range.top
      rw [show o / 2 ^ shift = first + 512 by omega] at low
      omega
    have same : vaddr = stop :=
      BitVec.eq_of_toNat_eq (by rw [here.vaddr_eq, range.stop_eq, done])
    unfold tableLoop
    rw [if_pos same, ← done]
    exact .inr ⟨tree, s, rfl, Built.refl inv o, kept⟩
  | succ left ih =>
    intro o vaddr paddr s tree bound upTo position here inv kept free
    unfold tableLoop
    by_cases done : o = e
    · have same : vaddr = stop :=
        BitVec.eq_of_toNat_eq (by rw [here.vaddr_eq, range.stop_eq, done])
      rw [if_pos same, ← done]
      exact .inr ⟨tree, s, rfl, Built.refl inv o, kept⟩
    · have before : o < e := by omega
      have going : vaddr ≠ stop := by
        intro same
        have eq := congrArg BitVec.toNat same
        rw [here.vaddr_eq, range.stop_eq] at eq
        omega
      have entry := position before
      have place : o / 2 ^ shift = first + (511 - left) := by omega
      obtain ⟨progress, nAligned⟩ := loop_turn isSize.low before range.stop_aligned
      have next_eq := nextAddr_offset isSize range here.vaddr_eq before
      rw [place] at progress nAligned next_eq
      have within := range.within
      have upToStop := min_le_right ((first + (511 - left) + 1) * 2 ^ shift) e
      have boundary : min ((first + (511 - left) + 1) * 2 ^ shift) e < e →
          min ((first + (511 - left) + 1) * 2 ^ shift) e =
            (first + (511 - left) + 1) * 2 ^ shift := by
        intro short
        exact min_eq_left (by omega)
      generalize turn : min ((first + (511 - left) + 1) * 2 ^ shift) e = n at *
      have start : n < r.hi → n % 2 ^ shift = 0 := by
        intro inside
        by_cases short : n < e
        · rw [boundary short]
          exact Nat.mul_mod_left _ _
        · rcases range.last with last | last
          · omega
          · rw [show n = e by omega]
            exact last
      rw [if_neg going]
      refine BuildsOr.bind (by omega) upToStop (step (by omega) place progress turn.symm nAligned
        here next_eq inv kept (free.mono le_rfl upToStop)) ?_
      intro tree₁ s₁ built kept₁
      refine ih (by omega) upToStop (fun short => ?_)
        (here.advance next_eq (by omega) nAligned start) built.inv kept₁
        (free.after (by omega) built)
      rw [boundary short, Nat.mul_div_cancel _ (Nat.two_pow_pos shift)]
      omega

/-! ## The three levels -/

theorem LoopAt.tableIndex_eq {base o shift shift' : Nat} {vaddr paddr : U64} (high : shift' ≤ 30)
    (here : LoopAt base r shift vaddr paddr o) (aligned : base % 2 ^ 39 = 0) :
    tableIndex shift' vaddr = o / 2 ^ shift' % 512 := by
  obtain ⟨q, hq⟩ := Nat.dvd_of_mod_eq_zero aligned
  have split : base = 2 ^ shift' * (512 * (2 ^ (30 - shift') * q)) := by
    have power : 2 ^ shift' * 2 ^ (30 - shift') = 2 ^ 30 := by
      rw [← pow_add, show shift' + (30 - shift') = 30 by omega]
    calc base = 2 ^ 30 * (512 * q) := by omega
      _ = 2 ^ shift' * (512 * (2 ^ (30 - shift') * q)) := by rw [← power]; ring
  rw [Chinos.tableIndex_eq, here.vaddr_eq, split, Nat.mul_add_div (Nat.two_pow_pos shift'),
    Nat.mul_add_mod]

/-- The entry of an offset, in terms of the entry number at a lower level. -/
theorem entry_split {o i j k : Nat} (jSmall : j < 512) (kSmall : k < 512)
    (place : o / 2 ^ 12 = (i * 512 + j) * 512 + k) :
    o / 2 ^ 30 = i ∧ o / 2 ^ 21 % 512 = j ∧ o / 2 ^ 12 % 512 = k := by
  omega

/-- The range starts at a page and asks for pages. -/
structure MapRange.PageAligned (r : MapRange) : Prop where
  lo : r.lo % 2 ^ 12 = 0
  paddr : r.paddr.toNat % 2 ^ 12 = 0

theorem MapRange.PageAligned.paddrAt (aligned : r.PageAligned) {o : Nat} (page : o % 2 ^ 12 = 0)
    (low : r.lo ≤ o) : (r.paddrAt o).toNat % 2 ^ 12 = 0 := by
  have first := aligned.lo
  have second := aligned.paddr
  unfold MapRange.paddrAt
  rw [BitVec.toNat_add, BitVec.toNat_ofNat]
  omega

/-- The loop of `pte_map` builds the rest of its range in one leaf table. -/
theorem pteLoop_builds (isAligned : r.PageAligned) {base i j o n : Nat}
    {p q vaddr next paddr : U64} (small : j < 512) (place : o / 2 ^ 21 = i * 512 + j)
    (progress : o < n) (range : LoopRange base r next 12 ((i * 512 + j) * 512) n)
    (here : LoopAt base r 12 vaddr paddr o) (pages : ¬ r.Section (i * 512 + j))
    (inv : PtInv view Good pgd tree s) (middle : tree [i] = some p)
    (leaf : tree [j, i] = some q) (free : r.Free fails view tree s.mem o n) :
    BuildsOr fails view alloc Good pgd r
      (fun tree => tree [i] = some p ∧ tree [j, i] = some q) tree s o n
      (pteLoop view q next r.attr (512 - tableIndex 12 vaddr) vaddr paddr s) := by
  have left : o / 2 ^ 12 + (512 - tableIndex 12 vaddr) = (i * 512 + j) * 512 + 512 := by
    rw [here.tableIndex_eq (by omega) range.aligned]
    omega
  refine tableLoop_builds _ loopSize_page range ?_ (Nat.sub_le _ _) progress.le (fun _ => left)
    here inv ⟨middle, leaf⟩ free
  intro k o n' vaddr next paddr s tree kSmall place progress turn nAligned here next_eq inv kept _
  obtain ⟨iEq, jEq, kEq⟩ := entry_split small kSmall place
  have aligned := here.aligned
  have onePage : n' = o + 2 ^ 12 := by omega
  subst onePage
  have pAligned := isAligned.paddrAt aligned here.low
  rw [← here.paddr_eq] at pAligned
  have slot : o / 2 ^ 21 = i * 512 + j := by omega
  have built := Built.page inv (iEq ▸ kept.1) (iEq ▸ jEq ▸ kept.2) aligned pAligned
    (slot ▸ pages) here.paddr_eq
  rw [kEq] at built
  exact .inr ⟨tree, _, ptStore_of_owns ⟨inv.repr.mem_tables kept.2, kSmall⟩, built, kept⟩

/-- The pointer that a builder makes of a block's descriptor. -/
theorem Strict.notMem (strict : Strict view Good) (inv : PtInv view Good pgd tree s) {desc : U64}
    (high : 2 ^ 48 ≤ (descAttr desc).toNat) : view.ofPhys (desc &&& pteAddrMask) ∉ s.tables := by
  intro inside
  have small := (strict.pages inv.good _ inside).small
  rw [strict.forth, show pteAddrMask = BitVec.allOnes 64 <<< 12 by decide,
    toNat_and_ones_shiftLeft] at small
  have le : (descAttr desc).toNat ≤ desc.toNat := by
    unfold descAttr
    rw [BitVec.toNat_and]
    exact Nat.and_le_left
  omega

/-- `pte_map` stops at a pointer that is not to a page of the table. -/
theorem pteLoop_of_notMem {q vaddr next paddr : U64} (going : vaddr ≠ next)
    (outside : q ∉ s.tables) :
    pteLoop view q next attr (512 - tableIndex 12 vaddr) vaddr paddr s = .error .wild := by
  have small : tableIndex 12 vaddr < 512 := by
    rw [Chinos.tableIndex_eq]
    omega
  obtain ⟨left, count⟩ : ∃ left, 512 - tableIndex 12 vaddr = left + 1 :=
    ⟨511 - tableIndex 12 vaddr, by omega⟩
  have stray : ∀ k, ¬ s.Owns ⟨q, k⟩ := fun k owns => outside owns.1
  unfold pteLoop
  rw [count, tableLoop, if_neg going]
  unfold ptStore
  simp only [require_bind_of_neg (stray _)]
  rfl

theorem section_aligned_iff {a b c : U64} :
    (a ||| b ||| c) &&& (pmdSize - 1) = 0 ↔
      a.toNat % 2 ^ 21 = 0 ∧ b.toNat % 2 ^ 21 = 0 ∧ c.toNat % 2 ^ 21 = 0 := by
  have mask : (pmdSize - 1 : U64) = BitVec.allOnes 64 >>> (64 - 21) := by decide
  have single : ∀ x : U64, x &&& (pmdSize - 1) = 0 ↔ x.toNat % 2 ^ 21 = 0 := by
    intro x
    rw [← BitVec.toNat_inj, mask, toNat_and_ones_ushiftRight x (by omega)]
    rfl
  rw [← single a, ← single b, ← single c, show (0 : U64) = 0#64 from rfl]
  simp only [and_eq_zero_iff_getLsbD, BitVec.getLsbD_or, Bool.or_eq_false_iff]
  constructor
  · intro all
    exact ⟨fun j inside set => (all j inside set).1.1, fun j inside set => (all j inside set).1.2,
      fun j inside set => (all j inside set).2⟩
  · rintro ⟨first, second, third⟩ j inside set
    exact ⟨⟨first j inside set, second j inside set⟩, third j inside set⟩

/-- `pmd_map` stores a section exactly in the slots where the range as a whole has one. -/
theorem LoopAt.section_iff {base o m n e : Nat} {vaddr next paddr : U64}
    (here : LoopAt base r 21 vaddr paddr o) (baseAligned : base % 2 ^ 39 = 0)
    (next_eq : next.toNat = base + n) (place : o / 2 ^ 21 = m) (progress : o < n)
    (turn : n = min ((m + 1) * 2 ^ 21) e) (within : e ≤ r.hi)
    (last : e = r.hi ∨ e % 2 ^ 21 = 0) :
    (vaddr ||| next ||| paddr) &&& (pmdSize - 1) = 0 ↔ r.Section m := by
  have vaddr_eq := here.vaddr_eq
  have low := here.low
  have start := here.start (by omega)
  rw [section_aligned_iff, here.paddr_eq]
  unfold MapRange.Section
  constructor
  · rintro ⟨vAligned, nextAligned, pAligned⟩
    have whole : o = m * 2 ^ 21 := by omega
    exact ⟨by omega, by omega, whole ▸ pAligned⟩
  · rintro ⟨first, upTo, pAligned⟩
    have whole : o = m * 2 ^ 21 := by omega
    exact ⟨by omega, by omega, whole ▸ pAligned⟩

section Levels

variable (spec : AllocSpec view alloc Good) (null : fails .null)
  (strict : fails .wild → Strict view Good) (isAligned : r.PageAligned)
include spec null strict isAligned

/-- `pte_map`, for the part of a range in entry `j` of the table at `[i]`. -/
theorem pteMapWith_builds {base i j o n : Nat} {p vaddr next paddr : U64} (small : j < 512)
    (place : o / 2 ^ 21 = i * 512 + j) (progress : o < n)
    (range : LoopRange base r next 12 ((i * 512 + j) * 512) n)
    (here : LoopAt base r 12 vaddr paddr o) (pages : ¬ r.Section (i * 512 + j))
    (inv : PtInv view Good pgd tree s) (middle : tree [i] = some p)
    (free : r.Free fails view tree s.mem o n) :
    BuildsOr fails view alloc Good pgd r (fun tree => tree [i] = some p) tree s o n
      (pteMapWith view alloc ⟨p, j⟩ vaddr next paddr r.attr s) := by
  have iEq : o / 2 ^ 30 = i := by omega
  have jEq : o / 2 ^ 21 % 512 = j := by omega
  have block : tree [j, i] = none → view.entry s.mem ⟨p, j⟩ ≠ 0 →
      fails .wild ∧ 2 ^ 48 ≤ (descAttr (view.entry s.mem ⟨p, j⟩)).toNat := by
    intro empty ne
    rcases inv.repr.unlinked (by simp) small middle empty with zero | ⟨-, valid, noTable⟩
    · exact absurd zero ne
    · -- a section is seen by the walk of `o`
      have found : tree.lookup view s.mem o =
          some (.ofDesc 21 (view.entry s.mem ⟨p, j⟩) o) := by
        unfold Tree.lookup
        simp only [iEq, jEq, middle, empty, valid, noTable, not_false_eq_true, and_self, if_true]
      rcases free o le_rfl progress (place ▸ pages) _ found with shift | stuck
      · simp [Leaf.ofDesc] at shift
      · exact stuck
  unfold pteMapWith
  by_cases stuck : tree [j, i] = none ∧ view.entry s.mem ⟨p, j⟩ ≠ 0
  · obtain ⟨empty, ne⟩ := stuck
    obtain ⟨wild, high⟩ := block empty ne
    have going : vaddr ≠ next := by
      intro same
      have eq := congrArg BitVec.toNat same
      rw [here.vaddr_eq, range.stop_eq] at eq
      omega
    rw [descend_of_ne ⟨inv.repr.mem_tables middle, small⟩ ne, ok_bind]
    exact .inl ⟨.wild, wild, pteLoop_of_notMem going ((strict wild).notMem inv high),
      fun null => by cases null⟩
  · have noBlock : tree [j, i] = none → view.entry s.mem ⟨p, j⟩ = 0 := fun empty =>
      not_not.mp fun ne => stuck ⟨empty, ne⟩
    have needed : [j, i] ∈ tablePaths r.lo r.hi := by
      rw [← jEq, ← iEq]
      exact leaf_mem_tablePaths here.low (by have := range.within; omega)
    rcases descend_spec r spec inv (by simp) small middle needed noBlock o with
      ⟨failed, starves⟩ | ⟨q, tree₁, s₁, ok, built, leaf⟩
    · rw [failed]
      exact .inl ⟨.null, null, rfl, fun _ => starves⟩
    · rw [ok, ok_bind]
      refine BuildsOr.prepend built progress.le ((pteLoop_builds isAligned small place progress
        range here pages built.inv (built.kept (by simp) middle) leaf
        (free.after le_rfl built)).weaken And.left)

/-- The loop of `pmd_map` builds the rest of its range in one middle table. -/
theorem pmdLoop_builds {base i o n : Nat} {p vaddr next paddr : U64} (place : o / 2 ^ 30 = i)
    (progress : o < n) (range : LoopRange base r next 21 (i * 512) n)
    (here : LoopAt base r 21 vaddr paddr o)
    (inv : PtInv view Good pgd tree s) (middle : tree [i] = some p)
    (free : r.Free fails view tree s.mem o n) :
    BuildsOr fails view alloc Good pgd r (fun tree => tree [i] = some p) tree s o n
      (pmdLoop view alloc p next r.attr (512 - tableIndex 21 vaddr) vaddr paddr s) := by
  have left : o / 2 ^ 21 + (512 - tableIndex 21 vaddr) = i * 512 + 512 := by
    rw [here.tableIndex_eq (by omega) range.aligned]
    omega
  have baseAligned := range.aligned
  have room := range.room
  have within := range.within
  refine tableLoop_builds _ loopSize_pmd range ?_ (Nat.sub_le _ _) progress.le (fun _ => left)
    here inv middle free
  intro k o n' vaddr next paddr s tree kSmall place progress turn nAligned here next_eq inv middle
    free
  have isSection := here.section_iff baseAligned next_eq place progress turn within range.last
  have inEntry : n' ≤ (i * 512 + k + 1) * 2 ^ 21 := turn.le.trans (min_le_left _ _)
  have upTo : n' ≤ n := turn.le.trans (min_le_right _ _)
  clear turn
  by_cases pages : (vaddr ||| next ||| paddr) &&& (pmdSize - 1) ≠ 0
  · rw [if_pos pages]
    have top : n' ≤ ((i * 512 + k) * 512 + 512) * 2 ^ 12 := by
      calc n' ≤ (i * 512 + k + 1) * 2 ^ 21 := inEntry
        _ = ((i * 512 + k) * 512 + 512) * 2 ^ 12 := by ring
    exact pteMapWith_builds spec null strict isAligned kSmall place progress
      ⟨baseAligned, next_eq, nAligned, by omega, top, by omega, .inr nAligned⟩
      (here.finer (by omega)) (fun sect => pages (isSection.mpr sect)) inv middle free
  · rw [if_neg pages]
    have sect := isSection.mp (not_not.mp pages)
    obtain ⟨vAligned, nextAligned, pAligned⟩ := section_aligned_iff.mp (not_not.mp pages)
    rw [here.vaddr_eq] at vAligned
    rw [next_eq] at nextAligned
    have wholeEntry : n' = o + 2 ^ 21 := by omega
    subst wholeEntry
    have iEq : o / 2 ^ 30 = i := by omega
    have kEq : o / 2 ^ 21 % 512 = k := by omega
    have built := Built.section inv (iEq ▸ middle) (by omega) pAligned (place ▸ sect)
      here.paddr_eq
    rw [kEq, iEq] at built
    exact .inr ⟨_, _, ptStore_of_owns ⟨inv.repr.mem_tables middle, kSmall⟩, built,
      built.kept (by simp) middle⟩

/-- `pmd_map`, for the part of a range in entry `i` of the PGD. -/
theorem pmdMapWith_builds {base i o n : Nat} {vaddr next paddr : U64} (small : i < 512)
    (place : o / 2 ^ 30 = i) (progress : o < n)
    (range : LoopRange base r next 21 (i * 512) n)
    (here : LoopAt base r 21 vaddr paddr o) (inv : PtInv view Good pgd tree s)
    (free : r.Free fails view tree s.mem o n) :
    BuildsOr fails view alloc Good pgd r (fun _ => True) tree s o n
      (pmdMapWith view alloc ⟨pgd, i⟩ vaddr next paddr r.attr s) := by
  have noBlock : tree [i] = none → view.entry s.mem ⟨pgd, i⟩ = 0 := by
    intro empty
    rcases inv.repr.unlinked (by simp) small inv.root empty with zero | ⟨impossible, -⟩
    · exact zero
    · simp at impossible
  unfold pmdMapWith
  have needed : [i] ∈ tablePaths r.lo r.hi := by
    rw [← place]
    exact middle_mem_tablePaths here.low (by have := range.within; omega)
  rcases descend_spec r spec inv (by simp) small inv.root needed noBlock o with
    ⟨failed, starves⟩ | ⟨p, tree₁, s₁, ok, built, middle⟩
  · rw [failed]
    exact .inl ⟨.null, null, rfl, fun _ => starves⟩
  · rw [ok, ok_bind]
    exact BuildsOr.prepend built progress.le ((pmdLoop_builds spec null strict isAligned place
      progress range here built.inv middle (free.after le_rfl built)).weaken (fun _ => trivial))

/-- The loop of `pt_map` builds the rest of its range in the PGD. -/
theorem pgdLoop_builds {base o e : Nat} {vaddr stop paddr : U64} (progress : o < e)
    (range : LoopRange base r stop 30 0 e) (here : LoopAt base r 30 vaddr paddr o)
    (inv : PtInv view Good pgd tree s) (free : r.Free fails view tree s.mem o e) :
    BuildsOr fails view alloc Good pgd r (fun _ => True) tree s o e
      (pgdLoop view alloc pgd stop r.attr (512 - tableIndex 30 vaddr) vaddr paddr s) := by
  have top := range.top
  have left : o / 2 ^ 30 + (512 - tableIndex 30 vaddr) = 0 + 512 := by
    rw [here.tableIndex_eq (by omega) range.aligned]
    omega
  have baseAligned := range.aligned
  have room := range.room
  have within := range.within
  refine tableLoop_builds _ loopSize_pgdir range ?_ (Nat.sub_le _ _) progress.le (fun _ => left)
    here inv trivial free
  intro k o n vaddr next paddr s tree kSmall place progress turn nAligned here next_eq inv _ free
  have inEntry : n ≤ (0 + k + 1) * 2 ^ 30 := turn.le.trans (min_le_left _ _)
  have upTo : n ≤ e := turn.le.trans (min_le_right _ _)
  have top : n ≤ (k * 512 + 512) * 2 ^ 21 := by
    calc n ≤ (0 + k + 1) * 2 ^ 30 := inEntry
      _ = (k * 512 + 512) * 2 ^ 21 := by ring
  have whole : n = r.hi ∨ n % 2 ^ 21 = 0 := by
    have finer : 2 ^ 21 ∣ 2 ^ 30 := pow_dvd_pow 2 (by decide)
    rcases min_choice ((0 + k + 1) * 2 ^ 30) e with eq | eq
    · rw [turn, eq]
      exact .inr (Nat.mod_eq_zero_of_dvd (finer.mul_left _))
    · rw [turn, eq]
      exact range.last.imp_right
        (fun last => Nat.mod_eq_zero_of_dvd (finer.trans (Nat.dvd_of_mod_eq_zero last)))
  clear turn
  exact pmdMapWith_builds spec null strict isAligned kSmall (by omega) progress
    ⟨baseAligned, next_eq, nAligned, by omega, top, by omega, whole⟩ (here.finer (by omega)) inv
    free

end Levels

/-! ## `pt_map` -/

/-- The number `x` rounded up to pages, as `ALIGN(x, 4096)` does it without the wrap-around. -/
def pageUp (x : Nat) : Nat := (x + 4095) / 2 ^ 12 * 2 ^ 12

theorem alignPage_eq {x : U64} (noWrap : pageUp x.toNat < 2 ^ 64) :
    (alignPage x).toNat = pageUp x.toNat := by
  have size : pageSize.toNat = 2 ^ 12 := by decide
  have sum : (x + pageSize - 1).toNat = x.toNat + 4095 := by
    have bound := x.isLt
    unfold pageUp at noWrap
    rw [BitVec.toNat_sub, BitVec.toNat_add, size, show (1 : U64).toNat = 1 from rfl]
    omega
  unfold alignPage
  rw [BitVec.toNat_mul, BitVec.toNat_udiv, sum, size]
  exact Nat.mod_eq_of_lt noWrap

theorem page_aligned_iff {x : U64} : x &&& (pageSize - 1) = 0 ↔ x.toNat % 2 ^ 12 = 0 := by
  have mask : (pageSize - 1 : U64) = BitVec.allOnes 64 >>> (64 - 12) := by decide
  rw [← BitVec.toNat_inj, mask, toNat_and_ones_ushiftRight x (by omega)]
  rfl

/-- `r` is what a `pt_map` call asks for that passes the assertions: its range, page rounded,
is `[base + r.lo, base + r.hi)`. -/
structure MapRange.Asked (r : MapRange) (base : Nat) (vaddr size : U64) : Prop where
  vAligned : vaddr.toNat % 2 ^ 12 = 0
  pAligned : r.paddr.toNat % 2 ^ 12 = 0
  pos : 0 < size.toNat
  le : size.toNat ≤ 2 ^ 39
  vaddr_eq : vaddr.toNat = base + r.lo
  stop_eq : pageUp (vaddr.toNat + size.toNat) = base + r.hi
  baseAligned : base % 2 ^ 39 = 0
  top : r.hi ≤ 2 ^ 39

section Asked

variable {base : Nat} {vaddr size : U64}

theorem MapRange.Asked.before (asked : r.Asked base vaddr size) : r.lo < r.hi := by
  have pos := asked.pos
  have stop_eq := asked.stop_eq
  have vaddr_eq := asked.vaddr_eq
  unfold pageUp at stop_eq
  omega

/-- A call that passes the assertions gets to the loop. -/
theorem ptMapWith_eq {paddr attr : U64} (ne : pgd ≠ 0) (vAligned : vaddr.toNat % 2 ^ 12 = 0)
    (pAligned : paddr.toNat % 2 ^ 12 = 0) (pos : 0 < size.toNat) (le : size.toNat ≤ 2 ^ 39) :
    ptMapWith view alloc pgd vaddr paddr size attr s =
      pgdLoop view alloc pgd (alignPage (vaddr + size)) attr (512 - tableIndex 30 vaddr) vaddr
        paddr s := by
  have sizeNe : size ≠ 0 := by
    intro zero
    rw [zero] at pos
    exact absurd pos (by decide)
  have sizeLe : size ≤ 1 <<< 39 := BitVec.le_def.mpr (by simpa using le)
  unfold ptMapWith
  rw [require_bind_of_pos ne, require_bind_of_pos (page_aligned_iff.mpr vAligned),
    require_bind_of_pos (page_aligned_iff.mpr pAligned), require_bind_of_pos sizeNe,
    require_bind_of_pos sizeLe]

theorem MapRange.Asked.toNat_stop (asked : r.Asked base vaddr size)
    (noWrap : base + r.hi < 2 ^ 64) : (alignPage (vaddr + size)).toNat = base + r.hi := by
  have stop_eq := asked.stop_eq
  have sum : (vaddr + size).toNat = vaddr.toNat + size.toNat := by
    unfold pageUp at stop_eq
    rw [BitVec.toNat_add]
    omega
  rw [alignPage_eq (by rw [sum]; omega), sum, stop_eq]

/-- `pt_map` builds the leaves that it is asked for, or fails. -/
theorem ptMapWith_buildsOr (spec : AllocSpec view alloc Good) (null : fails .null)
    (strict : fails .wild → Strict view Good) (asked : r.Asked base vaddr size)
    (room : base + r.hi + 2 ^ 30 ≤ 2 ^ 64) (inv : PtInv view Good pgd tree s)
    (free : r.Free fails view tree s.mem r.lo r.hi) :
    BuildsOr fails view alloc Good pgd r (fun _ => True) tree s r.lo r.hi
      (ptMapWith view alloc pgd vaddr r.paddr size r.attr s) := by
  have vAligned := asked.vAligned
  have vaddr_eq := asked.vaddr_eq
  have baseAligned := asked.baseAligned
  have stop_eq := asked.stop_eq
  have lowAligned : r.lo % 2 ^ 12 = 0 := by omega
  have highAligned : r.hi % 2 ^ 12 = 0 := by
    unfold pageUp at stop_eq
    omega
  have top : r.hi ≤ (0 + 512) * 2 ^ 30 := asked.top
  have start : r.paddr = r.paddrAt r.lo := by
    unfold MapRange.paddrAt
    rw [Nat.sub_self, BitVec.add_zero]
  rw [ptMapWith_eq (inv.repr.page inv.root).ne_zero asked.vAligned asked.pAligned asked.pos
    asked.le]
  exact pgdLoop_builds spec null strict ⟨lowAligned, asked.pAligned⟩ asked.before
    ⟨baseAligned, asked.toNat_stop (by omega), highAligned, room, top, le_rfl, .inl rfl⟩
    ⟨vaddr_eq, start, lowAligned, le_rfl, fun _ => .inl rfl⟩ inv free

/-- Where no block is in the way, it fails only with `pt_alloc`. -/
theorem ptMapWith_builds (spec : AllocSpec view alloc Good) (asked : r.Asked base vaddr size)
    (room : base + r.hi + 2 ^ 30 ≤ 2 ^ 64) (inv : PtInv view Good pgd tree s)
    (clear : r.Clear view tree s.mem r.lo r.hi) :
    Builds view alloc Good pgd r (fun _ => True) tree s r.lo r.hi
      (ptMapWith view alloc pgd vaddr r.paddr size r.attr s) := by
  have free : r.Free (Eq .null) view tree s.mem r.lo r.hi := fun o low high pages leaf found =>
    .inl (clear o low high pages leaf found)
  rcases ptMapWith_buildsOr spec rfl (fun wild => by cases wild) asked room inv free with
    ⟨fault, rfl, failed, starves⟩ | built
  · exact .inl ⟨failed, starves rfl⟩
  · exact .inr built

end Asked

/-! ## Ranges below `2 ^ 48` -/

/-- From `s` to `s'`, offsets `[lo, hi)` were mapped to `pa` on with `attr`; all else is
as before. -/
structure Mapped (view : TableView) (Good : A → List U64 → Prop) (pgd attr : U64)
    (tree : Tree) (s : PtState A) (lo hi pa : Nat) (tree' : Tree) (s' : PtState A) : Prop where
  inv : PtInv view Good pgd tree' s'
  kept : ∀ {path p}, path.length < 2 → tree path = some p → tree' path = some p
  inside : ∀ o, lo ≤ o → o < hi → ∃ shift,
    tree'.lookup view s'.mem o = some ⟨pa + (o - lo), descAttr attr, shift⟩ ∧
      (shift = 12 ∨ 2 ^ 21 ≤ hi - lo)
  outside : ∀ o, o < lo ∨ hi ≤ o → tree'.lookup view s'.mem o = tree.lookup view s.mem o
  tables : s.tables ⊆ s'.tables
  frame : ∀ x, (∀ p ∈ s'.tables, ¬ view.InPage p x) → s'.mem x = s.mem x

/-- The outcome of a builder: `pt_alloc` failed, or the range is mapped and the new tree
satisfies `keep`. -/
def Maps (view : TableView) (Good : A → List U64 → Prop) (pgd attr : U64) (keep : Tree → Prop)
    (tree : Tree) (s : PtState A) (lo hi pa : Nat) (result : Except Fault (PtState A)) : Prop :=
  result = .error .null ∨
    ∃ tree' s', result = .ok s' ∧ Mapped view Good pgd attr tree s lo hi pa tree' s' ∧ keep tree'

/-- Pages cannot be mapped where a block is in the way. -/
def NoBlocks (view : TableView) (tree : Tree) (mem : Mem) (lo hi : Nat) : Prop :=
  ∀ o, lo ≤ o → o < hi → ∀ leaf, tree.lookup view mem o = some leaf → leaf.shift = 12

/-- The arguments of a `pt_map` call that passes the assertions and whose range, page
rounded, is `[base + o, base + e)`. -/
structure MapArgs (vaddr paddr size attr : U64) (base o e : Nat) : Prop where
  vAligned : vaddr.toNat % 2 ^ 12 = 0
  pAligned : paddr.toNat % 2 ^ 12 = 0
  pos : 0 < size.toNat
  le : size.toNat ≤ 2 ^ 39
  vaddr_eq : vaddr.toNat = base + o
  stop_eq : pageUp (vaddr.toNat + size.toNat) = base + e
  baseAligned : base % 2 ^ 39 = 0
  top : e ≤ 2 ^ 39
  pSmall : paddr.toNat + (e - o) ≤ 2 ^ 48
  attrOk : AttrOk attr

section Args

variable {vaddr paddr size : U64} {base o e : Nat}

theorem MapArgs.asked (args : MapArgs vaddr paddr size attr base o e) :
    MapRange.Asked ⟨o, e, paddr, attr⟩ base vaddr size :=
  ⟨args.vAligned, args.pAligned, args.pos, args.le, args.vaddr_eq, args.stop_eq, args.baseAligned,
    args.top⟩

theorem leaf_ofDesc {desc paddr : U64} {shift o : Nat} (leaf : LeafDesc desc paddr attr)
    (page : 12 ≤ shift) (aligned : paddr.toNat % 2 ^ shift = 0) (small : paddr.toNat < 2 ^ 48) :
    Leaf.ofDesc shift desc o = ⟨paddr.toNat + o % 2 ^ shift, descAttr attr, shift⟩ := by
  unfold Leaf.ofDesc
  rw [leaf.descAddr_eq page aligned small, leaf.descAttr_eq]

/-- An address that fits a descriptor, and attributes that are no address bits, come out of
the walk as they went in. -/
theorem MapArgs.leaf_eq (args : MapArgs vaddr paddr size attr base o e) {o' : Nat} (low : o ≤ o')
    (high : o' < e) :
    ∃ shift, MapRange.leaf ⟨o, e, paddr, attr⟩ o' =
      ⟨paddr.toNat + (o' - o), descAttr attr, shift⟩ ∧ (shift = 12 ∨ 2 ^ 21 ≤ e - o) := by
  have pSmall := args.pSmall
  have vAligned := args.vAligned
  have vaddr_eq := args.vaddr_eq
  have baseAligned := args.baseAligned
  have pAligned := args.pAligned
  have paddrAt : ∀ {x}, o ≤ x → x < e →
      (MapRange.paddrAt ⟨o, e, paddr, attr⟩ x).toNat = paddr.toNat + (x - o) := by
    intro x above below
    unfold MapRange.paddrAt
    rw [BitVec.toNat_add, BitVec.toNat_ofNat]
    simp only
    omega
  unfold MapRange.leaf
  split
  · rename_i sect
    obtain ⟨first, upTo, aligned⟩ := sect
    simp only at first upTo
    have value := paddrAt first (by omega)
    refine ⟨21, ?_, .inr (by omega)⟩
    rw [leaf_ofDesc (leafDesc_sectDesc aligned (by omega) args.attrOk) (by omega) aligned
      (by omega),
      value]
    congr 1
    omega
  · have value := paddrAt (x := o' / 2 ^ 12 * 2 ^ 12) (by omega) (by omega)
    have aligned :
        (MapRange.paddrAt ⟨o, e, paddr, attr⟩ (o' / 2 ^ 12 * 2 ^ 12)).toNat % 2 ^ 12 = 0 := by
      rw [value]
      omega
    refine ⟨12, ?_, .inl rfl⟩
    rw [leaf_ofDesc (leafDesc_pageDesc aligned (by omega) args.attrOk) le_rfl aligned (by omega),
      value]
    congr 1
    omega

/-- `pt_map` overrides the walk on the range it is given, or fails with `pt_alloc`. -/
theorem ptMapWith_maps (spec : AllocSpec view alloc Good)
    (args : MapArgs vaddr paddr size attr base o e) (room : base + e + 2 ^ 30 ≤ 2 ^ 64)
    (inv : PtInv view Good pgd tree s) (free : NoBlocks view tree s.mem o e) :
    Maps view Good pgd attr (fun _ => True) tree s o e paddr.toNat
      (ptMapWith view alloc pgd vaddr paddr size attr s) := by
  rcases ptMapWith_builds spec args.asked room inv (fun o low high _ => free o low high) with
    ⟨failed, -⟩ | ⟨tree', s', ok, built, kept⟩
  · exact .inl failed
  · refine .inr ⟨tree', s', ok, ⟨built.inv, built.kept, ?_, built.outside, built.tables,
      built.frame⟩, kept⟩
    intro o' low high
    obtain ⟨shift, leaf, size⟩ := args.leaf_eq low high
    exact ⟨shift, leaf ▸ built.inside o' low high, size⟩

end Args

end Build

end Chinos
