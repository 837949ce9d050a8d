import Chinos.Paging.Exact

/-!
# Any sequence of calls

The calls of a run may overlap and repeat. As long as no call asks for pages in a 2 MiB
slot that holds a section, the table of the run is a function of the calls alone: every
offset has the leaf of the last call that covers it. So the two builders, which differ in
how they reach the tables, agree; and they store nowhere but in their own tables.

With pages in the slot of a section, a builder takes the section for a table and stores
into the memory it maps; and with a range that leaves its 512 GiB window, the loop over
the PGD runs past its end.
-/

namespace Chinos

/-! ## What calls ask for -/

/-- The boundary of 512 GiB below the range, where the window of the table that it starts in
begins. -/
def MapCall.base (call : MapCall) : Nat := call.vaddr.toNat / 2 ^ 39 * 2 ^ 39

/-- What the call asks for, in offsets from there. -/
def MapCall.range (call : MapCall) : MapRange :=
  ⟨call.vaddr.toNat - call.base, call.stop - call.base, call.paddr, call.attr⟩

/-- The call passes the assertions that `pt_map` makes about its arguments. -/
structure MapCall.Asserts (call : MapCall) : Prop where
  vAligned : call.vaddr.toNat % 2 ^ 12 = 0
  pAligned : call.paddr.toNat % 2 ^ 12 = 0
  pos : 0 < call.size.toNat
  le : call.size.toNat ≤ 2 ^ 39

/-- The range stays in its 512 GiB window and does not reach the last GiB of the address
space. -/
structure MapCall.Fits (call : MapCall) : Prop extends call.Asserts where
  window : call.stop ≤ call.base + 2 ^ 39
  room : call.stop + 2 ^ 30 ≤ 2 ^ 64

/-- The range has an offset in the 2 MiB slot number `m`. -/
def MapRange.Meets (r : MapRange) (m : Nat) : Prop := r.lo < (m + 1) * 2 ^ 21 ∧ m * 2 ^ 21 < r.hi

/-- After `earlier`, the call `later` asks for no pages in the slot of a section. -/
def MapCall.SparesSections (earlier later : MapCall) : Prop :=
  ∀ m, earlier.range.Section m → later.range.Meets m → later.range.Section m

/-- The leaf of the last call that covers `o`. -/
def leafOf (calls : List MapCall) (o : Nat) : Option Leaf :=
  calls.foldl (fun found call =>
    if call.range.lo ≤ o ∧ o < call.range.hi then some (call.range.leaf o) else found) none

theorem leafOf_concat (calls : List MapCall) (call : MapCall) (o : Nat) :
    leafOf (calls ++ [call]) o =
      if call.range.lo ≤ o ∧ o < call.range.hi then some (call.range.leaf o)
      else leafOf calls o := by
  unfold leafOf
  rw [List.foldl_append, List.foldl_cons, List.foldl_nil]

theorem MapRange.leaf_shift (r : MapRange) (o : Nat) :
    (r.leaf o).shift = 12 ∨ r.Section (o / 2 ^ 21) := by
  unfold MapRange.leaf
  split
  · rename_i sect
    exact .inr sect
  · exact .inl rfl

/-- A leaf that the calls ask for is the leaf of one of the calls, which covers the address. -/
theorem of_leafOf {calls : List MapCall} {o : Nat} {leaf : Leaf}
    (found : leafOf calls o = some leaf) :
    ∃ call ∈ calls, call.range.lo ≤ o ∧ o < call.range.hi ∧ call.range.leaf o = leaf := by
  induction calls using List.reverseRecOn with
  | nil => cases found
  | append_singleton calls call ih =>
    rw [leafOf_concat] at found
    split at found
    · rename_i inside
      cases found
      exact ⟨call, by simp, inside.1, inside.2, rfl⟩
    · obtain ⟨earlier, inCalls, here⟩ := ih found
      exact ⟨earlier, by simp [inCalls], here⟩

/-- A block is a section of one of the calls. -/
theorem leafOf_shift {calls : List MapCall} {o : Nat} {leaf : Leaf}
    (found : leafOf calls o = some leaf) :
    leaf.shift = 12 ∨ ∃ call ∈ calls, call.range.Section (o / 2 ^ 21) := by
  obtain ⟨call, inCalls, -, -, rfl⟩ := of_leafOf found
  exact (call.range.leaf_shift o).imp_right fun sect => ⟨call, inCalls, sect⟩

theorem MapCall.le_stop (call : MapCall) : call.vaddr.toNat ≤ call.stop := by
  unfold MapCall.stop pageUp
  omega

theorem MapCall.base_le (call : MapCall) : call.base ≤ call.vaddr.toNat :=
  Nat.div_mul_le_self _ _

theorem MapCall.Asserts.asked {call : MapCall} (asserts : call.Asserts)
    (window : call.stop ≤ call.base + 2 ^ 39) :
    call.range.Asked call.base call.vaddr call.size := by
  have low := call.base_le
  have high := call.le_stop
  refine ⟨asserts.vAligned, asserts.pAligned, asserts.pos, asserts.le, ?_, ?_, ?_, ?_⟩
  · exact (Nat.add_sub_of_le low).symm
  · exact (Nat.add_sub_of_le (low.trans high)).symm
  · exact Nat.mul_mod_left _ _
  · exact Nat.sub_le_iff_le_add'.mpr window

/-! ## Runs -/

section Runs

variable {A : Type} {view : TableView} {alloc : PtAlloc A} {Good : A → List U64 → Prop}
  {pgd : U64} {tree : Tree} {s : PtState A}

/-- The table in `s` holds the leaves of `calls`. -/
structure Holding (view : TableView) (Good : A → List U64 → Prop) (pgd : U64)
    (calls : List MapCall) (tree : Tree) (s : PtState A) : Prop where
  inv : PtInv view Good pgd tree s
  lookup : ∀ o, tree.lookup view s.mem o = leafOf calls o

/-- Stores outside the tables, and whatever the allocator does, leave the leaves alone. -/
theorem Holding.frame {calls : List MapCall} {Good' : A → List U64 → Prop} {s' : PtState A}
    (holding : Holding view Good pgd calls tree s) (tables : s'.tables = s.tables)
    (same : ∀ q ∈ s.tables, s.mem.AgreeOn s'.mem (view.toPhys q).toNat (2 ^ 12))
    (good : Good' s'.heap s'.tables) : Holding view Good' pgd calls tree s' := by
  have sameTree : tree.Same view s.mem s'.mem := fun path q placed =>
    same q (holding.inv.repr.mem_tables placed)
  refine ⟨⟨sameTree.repr holding.inv.repr ?_, holding.inv.root, good⟩, fun o => ?_⟩
  · rw [tables]
    exact List.Subset.refl _
  · rw [sameTree.lookup_eq, holding.lookup]

/-- A run of calls has kept its table pages, and has written to nothing but table pages. -/
structure Confined (view : TableView) (s s' : PtState A) : Prop where
  tables : s.tables ⊆ s'.tables
  frame : ∀ x, (∀ p ∈ s'.tables, ¬ view.InPage p x) → s'.mem x = s.mem x

theorem Holding.clear {done : List MapCall} {call : MapCall}
    (holding : Holding view Good pgd done tree s)
    (spares : ∀ earlier ∈ done, earlier.SparesSections call) :
    call.range.Clear view tree s.mem call.range.lo call.range.hi := by
  intro o low high pages leaf found
  rw [holding.lookup] at found
  rcases leafOf_shift found with small | ⟨earlier, inDone, sect⟩
  · exact small
  · refine absurd (spares earlier inDone _ sect ⟨?_, ?_⟩) pages
    · omega
    · omega

/-- One more call builds what it asks for, unless `pt_alloc` fails. -/
theorem Holding.builds (spec : AllocSpec view alloc Good) {done : List MapCall} {call : MapCall}
    (holding : Holding view Good pgd done tree s) (fits : call.Fits)
    (spares : ∀ earlier ∈ done, earlier.SparesSections call) :
    Builds view alloc Good pgd call.range (fun _ => True) tree s call.range.lo call.range.hi
      (ptMapWith view alloc pgd call.vaddr call.paddr call.size call.attr s) := by
  have low := call.base_le
  have high := call.le_stop
  have room : call.base + call.range.hi + 2 ^ 30 ≤ 2 ^ 64 := by
    have := fits.room
    simp only [MapCall.range]
    omega
  exact ptMapWith_builds spec (fits.asked fits.window) room holding.inv (holding.clear spares)

/-- The leaves after a call are those of the calls before, overridden by its own. -/
theorem Holding.concat {done : List MapCall} {call : MapCall} {tree' : Tree} {s' : PtState A}
    (holding : Holding view Good pgd done tree s)
    (built : Built view Good pgd call.range tree s call.range.lo call.range.hi tree' s') :
    Holding view Good pgd (done ++ [call]) tree' s' ∧ Confined view s s' := by
  refine ⟨⟨built.inv, fun o => ?_⟩, built.tables, built.frame⟩
  rw [leafOf_concat]
  split
  · rename_i inside
    exact built.inside o inside.1 inside.2
  · rename_i outside
    rw [built.outside o (by omega), holding.lookup]

theorem Holding.step (spec : AllocSpec view alloc Good) {done : List MapCall} {call : MapCall}
    (holding : Holding view Good pgd done tree s) (fits : call.Fits)
    (spares : ∀ earlier ∈ done, earlier.SparesSections call) :
    ptMapWith view alloc pgd call.vaddr call.paddr call.size call.attr s = .error .null ∨
      ∃ tree' s',
        ptMapWith view alloc pgd call.vaddr call.paddr call.size call.attr s = .ok s' ∧
        Holding view Good pgd (done ++ [call]) tree' s' ∧ Confined view s s' := by
  rcases holding.builds spec fits spares with ⟨failed, -⟩ | ⟨tree', s', ok, built, -⟩
  · exact .inl failed
  · exact .inr ⟨tree', s', ok, holding.concat built⟩

/-- A whole run of calls builds what they ask for, unless `pt_alloc` fails. -/
theorem Holding.run (spec : AllocSpec view alloc Good) {calls : List MapCall} :
    ∀ {done : List MapCall} {tree : Tree} {s : PtState A}, Holding view Good pgd done tree s →
      (∀ call ∈ calls, call.Fits) → (done ++ calls).Pairwise MapCall.SparesSections →
      ptMapsWith view alloc pgd calls s = .error .null ∨
        ∃ tree' s', ptMapsWith view alloc pgd calls s = .ok s' ∧
          Holding view Good pgd (done ++ calls) tree' s' ∧ Confined view s s' := by
  induction calls with
  | nil =>
    intro done tree s holding _ _
    refine .inr ⟨tree, s, rfl, ?_, List.Subset.refl _, fun _ _ => rfl⟩
    rw [List.append_nil]
    exact holding
  | cons call rest ih =>
    intro done tree s holding fits spares
    have earlier : ∀ d ∈ done, d.SparesSections call := fun d inDone =>
      (List.pairwise_append.mp spares).2.2 d inDone call (.head _)
    unfold ptMapsWith
    rcases holding.step spec (fits call (.head _)) earlier with
      failed | ⟨tree₁, s₁, ok, holding₁, confined₁⟩
    · rw [failed]
      exact .inl rfl
    · rw [ok, ok_bind]
      rw [show done ++ call :: rest = done ++ [call] ++ rest by simp] at spares ⊢
      rcases ih holding₁ (fun c inRest => fits c (.tail _ inRest)) spares with
        failed | ⟨tree₂, s₂, ok₂, holding₂, confined₂⟩
      · exact .inl failed
      · refine .inr ⟨tree₂, s₂, ok₂, holding₂, ?_, ?_⟩
        · exact List.Subset.trans confined₁.tables confined₂.tables
        · intro x free
          rw [confined₂.frame x free]
          exact confined₁.frame x (fun p inTables => free p (confined₂.tables inTables))

/-- The state in which the first call is made. -/
def FreshTable.start (table : FreshTable view A) : PtState A :=
  ⟨table.mem, table.heap, [table.pgd]⟩

theorem FreshTable.run (table : FreshTable view A) {calls : List MapCall}
    (fits : ∀ call ∈ calls, call.Fits) (spares : calls.Pairwise MapCall.SparesSections) :
    ptMapsWith view table.alloc table.pgd calls table.start = .error .null ∨
      ∃ tree s, ptMapsWith view table.alloc table.pgd calls table.start = .ok s ∧
        Holding view table.Good table.pgd calls tree s ∧ Confined view table.start s := by
  have empty : Holding view table.Good table.pgd [] (Tree.single table.pgd) table.start :=
    ⟨table.inv, fun _ => Tree.lookup_single⟩
  exact empty.run table.spec fits spares

/-- `pt_map` stores nowhere but in the PGD and the pages that `pt_alloc` returned for it:
a run whose calls fit and spare the sections never faults, other than by `pt_alloc`, and
changes no byte outside these pages. -/
theorem ptMaps_confined (table : FreshTable linearView A) {calls : List MapCall}
    (fits : ∀ call ∈ calls, call.Fits) (spares : calls.Pairwise MapCall.SparesSections) :
    ptMaps table.alloc table.pgd calls table.start = .error .null ∨
      ∃ s, ptMaps table.alloc table.pgd calls table.start = .ok s ∧
        Confined linearView table.start s := by
  rw [ptMaps_eq]
  rcases table.run fits spares with failed | ⟨tree, s, ok, -, confined⟩
  · exact .inl failed
  · exact .inr ⟨s, ok, confined⟩

end Runs

/-! ## What a run keeps

A builder changes its state by stores to its own tables and by new pages. So what these
two keep, every call that returns keeps, whatever it maps.
-/

section Keeps

variable {A : Type} {view : TableView} {alloc : PtAlloc A} {Inv : PtState A → Prop}

/-- Stores to the tables and new pages keep `Inv`. -/
structure PtKeeps (view : TableView) (alloc : PtAlloc A) (Inv : PtState A → Prop) : Prop where
  store : ∀ {s s' slot value}, Inv s → ptStore view s slot value = .ok s' → Inv s'
  page : ∀ {s s' page}, Inv s → ptAllocPage alloc s = .ok (page, s') → Inv s'

theorem PtKeeps.descend (keeps : PtKeeps view alloc Inv) {s s' : PtState A} {slot : Slot}
    {page : U64} (inv : Inv s) (run : descend view alloc s slot = .ok (page, s')) : Inv s' := by
  unfold Chinos.descend at run
  obtain ⟨entry, -, run⟩ := of_bind_ok run
  split at run
  · obtain ⟨⟨p, s₁⟩, alloc, run⟩ := of_bind_ok run
    obtain ⟨-, run⟩ := of_require_bind_ok run
    obtain ⟨s₂, store, run⟩ := of_bind_ok run
    cases run
    exact keeps.store (keeps.page inv alloc) store
  · cases run
    exact inv

theorem tableLoop_keeps {size stop : U64}
    {body : (index : Nat) → (vaddr next paddr : U64) → PtState A → Except Fault (PtState A)}
    (keeps : ∀ {index vaddr next paddr s s'}, Inv s → body index vaddr next paddr s = .ok s' →
      Inv s') : ∀ {left : Nat} {vaddr paddr : U64} {s s' : PtState A}, Inv s →
      tableLoop size stop body left vaddr paddr s = .ok s' → Inv s' := by
  intro left
  induction left with
  | zero =>
    intro vaddr paddr s s' inv run
    unfold tableLoop at run
    split at run
    · cases run
      exact inv
    · cases run
  | succ left ih =>
    intro vaddr paddr s s' inv run
    unfold tableLoop at run
    split at run
    · cases run
      exact inv
    · obtain ⟨s₁, turn, rest⟩ := of_bind_ok run
      exact ih (keeps inv turn) rest

theorem PtKeeps.pteMapWith (keeps : PtKeeps view alloc Inv) {s s' : PtState A} {pmd : Slot}
    {vaddr stop paddr attr : U64} (inv : Inv s)
    (run : pteMapWith view alloc pmd vaddr stop paddr attr s = .ok s') : Inv s' := by
  obtain ⟨⟨pte, s₁⟩, table, loop⟩ := of_bind_ok run
  exact tableLoop_keeps keeps.store (keeps.descend inv table) loop

theorem PtKeeps.pmdMapWith (keeps : PtKeeps view alloc Inv) {s s' : PtState A} {pud : Slot}
    {vaddr stop paddr attr : U64} (inv : Inv s)
    (run : pmdMapWith view alloc pud vaddr stop paddr attr s = .ok s') : Inv s' := by
  obtain ⟨⟨pmd, s₁⟩, table, loop⟩ := of_bind_ok run
  refine tableLoop_keeps (fun {index vaddr next paddr s s'} inv turn => ?_)
    (keeps.descend inv table) loop
  split at turn
  · exact keeps.pteMapWith inv turn
  · exact keeps.store inv turn

theorem PtKeeps.ptMapWith (keeps : PtKeeps view alloc Inv) {s s' : PtState A}
    {pgd vaddr paddr size attr : U64} (inv : Inv s)
    (run : ptMapWith view alloc pgd vaddr paddr size attr s = .ok s') : Inv s' := by
  unfold Chinos.ptMapWith at run
  obtain ⟨-, run⟩ := of_require_bind_ok run
  obtain ⟨-, run⟩ := of_require_bind_ok run
  obtain ⟨-, run⟩ := of_require_bind_ok run
  obtain ⟨-, run⟩ := of_require_bind_ok run
  obtain ⟨-, loop⟩ := of_require_bind_ok run
  exact tableLoop_keeps keeps.pmdMapWith inv loop

/-- What one call keeps, every run of calls keeps. -/
theorem PtKeeps.ptMaps (keeps : PtKeeps linearView alloc Inv) {pgd : U64} {calls : List MapCall} :
    ∀ {s s' : PtState A}, Inv s → ptMaps alloc pgd calls s = .ok s' → Inv s' := by
  induction calls with
  | nil =>
    intro s s' inv run
    cases run
    exact inv
  | cons call rest ih =>
    intro s s' inv run
    unfold Chinos.ptMaps at run
    obtain ⟨s₁, first, run⟩ := of_bind_ok run
    exact ih (keeps.ptMapWith inv first) run

end Keeps

/-! ## The boot builder and the kernel's -/

section Builders

variable {A B : Type}

/-- `idmap_pt_map` for each of the calls in turn, as `setup.c` makes them before the MMU is on. -/
def idmapPtMaps (alloc : PtAlloc A) (pgd : U64) :
    List MapCall → PtState A → Except Fault (PtState A)
  | [], s => .ok s
  | call :: rest, s => do
    let s ← idmapPtMap alloc pgd call.vaddr call.paddr call.size call.attr s
    idmapPtMaps alloc pgd rest s

theorem idmapPtMaps_eq (alloc : PtAlloc A) (pgd : U64) (calls : List MapCall) :
    ∀ s, idmapPtMaps alloc pgd calls s = ptMapsWith identView alloc pgd calls s := by
  induction calls with
  | nil => exact fun _ => rfl
  | cons call rest ih =>
    intro s
    unfold idmapPtMaps ptMapsWith
    simp only [ih]
    rfl

/-- The call passes the assertions, and its range lies in `half` and does not wrap. -/
structure MapCall.InHalf (half : Half) (call : MapCall) : Prop extends call.Asserts where
  low : half.base ≤ call.vaddr.toNat
  high : call.stop ≤ half.base + 2 ^ 39
  noWrap : call.stop < 2 ^ 64

theorem MapCall.InHalf.base_eq {half : Half} {call : MapCall} (inHalf : call.InHalf half) :
    call.base = half.base := by
  have low := inHalf.low
  have high := inHalf.high
  have pos := inHalf.pos
  unfold MapCall.stop pageUp at high
  unfold MapCall.base
  cases half with
  | lower =>
    simp only [Half.base] at *
    omega
  | upper =>
    simp only [Half.base] at *
    omega

theorem MapCall.InHalf.window {half : Half} {call : MapCall} (inHalf : call.InHalf half) :
    call.stop ≤ call.base + 2 ^ 39 := by
  rw [inHalf.base_eq]
  exact inHalf.high

theorem MapCall.InHalf.fits {half : Half} {call : MapCall} (inHalf : call.InHalf half)
    (room : call.stop + 2 ^ 30 ≤ 2 ^ 64) : call.Fits :=
  ⟨inHalf.toAsserts, inHalf.window, room⟩

/-- What the MMU sees of the leaves of a run. -/
theorem Holding.translate_eq {view : TableView} {Good : A → List U64 → Prop} {pgd : U64}
    {calls : List MapCall} {tree : Tree} {s : PtState A}
    (holding : Holding view Good pgd calls tree s) (half : Half) (v : Nat) :
    translate s.mem (view.toPhys pgd).toNat half v =
      if half.base ≤ v ∧ v < half.base + 2 ^ 39 then leafOf calls (v - half.base) else none := by
  split
  · rename_i inside
    rw [holding.inv.translate_view inside.1 inside.2, holding.lookup]
  · rename_i outside
    exact translate_outside (by omega)

/-- A call that reaches the last GiB never returns. -/
theorem MapCall.InHalf.ne_ok {view : TableView} {alloc : PtAlloc A} {pgd : U64} {half : Half}
    {call : MapCall} (inHalf : call.InHalf half) (late : 2 ^ 64 < call.stop + 2 ^ 30)
    (ne : pgd ≠ 0) (s s' : PtState A) :
    ptMapWith view alloc pgd call.vaddr call.paddr call.size call.attr s ≠ .ok s' := by
  have low := call.base_le
  have high := call.le_stop
  have noWrap := inHalf.noWrap
  have stop_eq : call.base + call.range.hi = call.stop := Nat.add_sub_of_le (low.trans high)
  exact ptMapWith_ne_ok (inHalf.asked inHalf.window) (by omega) (by omega) ne

/-- Unless a `pt_alloc` runs out of pages, both builders return with tables that the MMU
cannot tell apart if and only if no range reaches the last GiB of the address space. -/
theorem builders_agree_iff (boot : FreshTable identView A) (kernel : FreshTable linearView B)
    {half : Half} {calls : List MapCall} (inHalf : ∀ call ∈ calls, call.InHalf half)
    (spares : calls.Pairwise MapCall.SparesSections) :
    idmapPtMaps boot.alloc boot.pgd calls boot.start = .error .null ∨
    ptMaps kernel.alloc kernel.pgd calls kernel.start = .error .null ∨
      ((∃ s s', idmapPtMaps boot.alloc boot.pgd calls boot.start = .ok s ∧
          ptMaps kernel.alloc kernel.pgd calls kernel.start = .ok s' ∧
          ∀ v, translate s.mem boot.pgd.toNat half v =
            translate s'.mem (vbaseToPbase kernel.pgd).toNat half v) ↔
        ∀ call ∈ calls, call.stop + 2 ^ 30 ≤ 2 ^ 64) := by
  rw [idmapPtMaps_eq, ptMaps_eq]
  by_cases early : ∀ call ∈ calls, call.stop + 2 ^ 30 ≤ 2 ^ 64
  · have fits : ∀ call ∈ calls, call.Fits :=
      fun call inCalls => (inHalf call inCalls).fits (early call inCalls)
    rcases boot.run fits spares with failed | ⟨tree, s, ok, holding, -⟩
    · exact .inl failed
    rcases kernel.run fits spares with failed | ⟨tree', s', ok', holding', -⟩
    · exact .inr (.inl failed)
    refine .inr (.inr ⟨fun _ => early, fun _ => ⟨s, s', ok, ok', fun v => ?_⟩⟩)
    exact (holding.translate_eq half v).trans (holding'.translate_eq half v).symm
  · refine .inr (.inr ⟨?_, fun holds => absurd holds early⟩)
    rintro ⟨s, s', ok, -⟩
    push Not at early
    obtain ⟨call, inCalls, late⟩ := early
    exact absurd ok (ptMapsWith_ne_ok inCalls
      ((inHalf call inCalls).ne_ok late boot.isPage.ne_zero))

end Builders

/-! ## Concrete tables -/

theorem identView_isPage {page : U64} (ne : page ≠ 0) (aligned : page.toNat % 2 ^ 12 = 0)
    (small : page.toNat < 2 ^ 48) : identView.IsPage page :=
  ⟨ne, aligned, small, rfl, rfl⟩

/-- A `pt_alloc` for the boot builder, which hands out physical pages one after the other. -/
def earlyAlloc : PtAlloc Nat := fun next mem =>
  if next < 2 ^ 19 then
    let page := ramPbase + BitVec.ofNat 64 (next * 2 ^ 12)
    .ok (page, next + 1, mem.fill page.toNat (2 ^ 12) 0)
  else
    .error .null

theorem toNat_earlyPage {next : Nat} (room : next < 2 ^ 19) :
    (ramPbase + BitVec.ofNat 64 (next * 2 ^ 12)).toNat = 0x40000000 + next * 2 ^ 12 := by
  have base : ramPbase.toNat = 0x40000000 := by decide
  rw [BitVec.toNat_add, BitVec.toNat_ofNat, base]
  omega

/-- An empty boot table in the first page of RAM. -/
def bootPgd : FreshTable identView Nat where
  alloc := earlyAlloc
  Good next tables := ∀ page ∈ tables, page.toNat < 0x40000000 + next * 2 ^ 12
  spec :=
    { step := by
        intro next tables mem below
        unfold earlyAlloc
        by_cases room : next < 2 ^ 19
        · rw [if_pos room]
          have value := toNat_earlyPage room
          have isPage : identView.IsPage (ramPbase + BitVec.ofNat 64 (next * 2 ^ 12)) := by
            refine identView_isPage ?_ (by omega) (by omega)
            intro zero
            rw [zero] at value
            simp at value
            omega
          refine .inr ⟨_, _, _, rfl, ⟨isPage, ?_, ?_, ?_⟩, ?_⟩
          · intro inTables
            have lower := below _ inTables
            omega
          · intro k small
            exact entry_eq_zero (fun x inside => Mem.fill_of_inside inside.1 inside.2) small
          · intro x out
            exact Mem.fill_of_outside out
          · intro page inTables
            rcases List.mem_cons.mp inTables with rfl | old
            · omega
            · exact (below page old).trans (by omega)
        · rw [if_neg room]
          exact .inl rfl }
  pgd := ramPbase
  isPage := identView_isPage (by decide) (by decide) (by decide)
  mem := fun _ => 0
  zero _ _ := rfl
  heap := 1
  good page inTables := by
    rw [List.mem_singleton.mp inTables]
    decide

/-- Two calls that do not meet: a section, and the page behind it. -/
def sectionThenPage : List MapCall :=
  [⟨0, 0x80000000, 0x200000, 0⟩, ⟨0x200000, 0x40001000, 0x1000, 0⟩]

theorem sectionThenPage_inHalf : ∀ call ∈ sectionThenPage, call.InHalf .lower := by
  intro call inCalls
  simp only [sectionThenPage, List.mem_cons, List.not_mem_nil, or_false] at inCalls
  rcases inCalls with rfl | rfl
  · exact ⟨⟨by decide, by decide, by decide, by decide⟩, by decide, by decide, by decide⟩
  · exact ⟨⟨by decide, by decide, by decide, by decide⟩, by decide, by decide, by decide⟩

theorem sectionThenPage_early : ∀ call ∈ sectionThenPage, call.stop + 2 ^ 30 ≤ 2 ^ 64 := by
  decide

theorem sectionThenPage_spares : sectionThenPage.Pairwise MapCall.SparesSections := by
  refine List.pairwise_pair.mpr ?_
  rintro m ⟨-, upTo, -⟩ ⟨low, -⟩
  have first : (m + 1) * 2 ^ 21 ≤ 0x200000 := upTo
  have second : 0x200000 < (m + 1) * 2 ^ 21 := low
  omega

theorem sectionThenPage_confined :
    ∃ s, ptMaps bumpTable.alloc bumpTable.pgd sectionThenPage bumpTable.fresh.start = .ok s ∧
      Confined linearView bumpTable.fresh.start s := by
  have room : ¬ Stops (ptMaps bumpTable.alloc bumpTable.pgd sectionThenPage
      bumpTable.fresh.start) .null := by
    decide +kernel
  rcases ptMaps_confined bumpTable.fresh
    (fun call inCalls => (sectionThenPage_inHalf call inCalls).fits
      (sectionThenPage_early call inCalls)) sectionThenPage_spares with stops | confined
  · exact absurd stops room
  · exact confined

theorem sectionThenPage_agree :
    ∃ s s', idmapPtMaps bootPgd.alloc bootPgd.pgd sectionThenPage bootPgd.start = .ok s ∧
      ptMaps bumpTable.alloc bumpTable.pgd sectionThenPage bumpTable.fresh.start = .ok s' ∧
      ∀ v, translate s.mem bootPgd.pgd.toNat .lower v =
        translate s'.mem (vbaseToPbase bumpTable.pgd).toNat .lower v := by
  have room : ¬ Stops (idmapPtMaps bootPgd.alloc bootPgd.pgd sectionThenPage bootPgd.start) .null ∧
      ¬ Stops (ptMaps bumpTable.alloc bumpTable.pgd sectionThenPage bumpTable.fresh.start)
        .null := by
    decide +kernel
  rcases builders_agree_iff bootPgd bumpTable.fresh sectionThenPage_inHalf
    sectionThenPage_spares with stops | stops | agree
  · exact absurd stops room.1
  · exact absurd stops room.2
  · exact agree.mpr sectionThenPage_early

/-- Two calls that do: a section, and then a page inside it. -/
def pageInSection : List MapCall :=
  [⟨0, 0x80000000, 0x200000, 0⟩, ⟨0x1000, 0x40001000, 0x1000, 0⟩]

/-- For a page inside a section, `pte_map` takes the section for a table, and its store is outside
the tables. -/
theorem pageInSection_not_confined :
    (∀ call ∈ pageInSection, call.Asserts) ∧
      ptMaps bumpTable.alloc bumpTable.pgd pageInSection bumpTable.fresh.start = .error .wild := by
  refine ⟨?_, rfl⟩
  intro call inCalls
  simp only [pageInSection, List.mem_cons, List.not_mem_nil, or_false] at inCalls
  rcases inCalls with rfl | rfl
  · exact ⟨by decide, by decide, by decide, by decide⟩
  · exact ⟨by decide, by decide, by decide, by decide⟩

/-- Neither builder gets past a range in the last GiB, since the step to its end wraps around. -/
theorem lastGiBPage_not_built :
    (∀ call ∈ lastGiBPage.calls, call.InHalf .upper) ∧
      lastGiBPage.calls.Pairwise MapCall.SparesSections ∧
      idmapPtMaps bootPgd.alloc bootPgd.pgd lastGiBPage.calls bootPgd.start =
        .error .wild ∧
      ptMaps bumpTable.alloc bumpTable.pgd lastGiBPage.calls bumpTable.fresh.start =
        .error .wild := by
  refine ⟨?_, List.pairwise_singleton _ _, rfl, rfl⟩
  intro call inCalls
  rw [List.mem_singleton.mp inCalls]
  exact ⟨⟨by decide, by decide, by decide, by decide⟩, by decide, by decide, by decide⟩

end Chinos
