import Chinos.Mm.Frames

/-!
# The memory invariant of a task

A `Mapping` records one call of `as_map`: the range it got to, the protection asked for,
and the allocation behind it. `MemInv` says that the user table holds exactly the leaves
of the recorded mappings, and that the allocations behind them, the table pages and all
else the kernel holds are live and apart. The steps of the kernel are then four: an
allocation, a call of `as_map`, a release, and a store into an allocation.
-/

namespace Chinos

/-! ## Permissions -/

/-- EL0 may access the page, which is what AP[1] says. -/
def Leaf.User (leaf : Leaf) : Prop := leaf.attr.getLsbD 6 = true

/-- The page is writable, at the levels that may access it: AP[2] is clear. -/
def Leaf.Writable (leaf : Leaf) : Prop := leaf.attr.getLsbD 7 = false

/-- EL0 may execute the page: UXN is clear. -/
def Leaf.Executable (leaf : Leaf) : Prop := leaf.attr.getLsbD 54 = false

/-- The kernel may execute the page: PXN is clear. -/
def Leaf.PrivilegedExecutable (leaf : Leaf) : Prop := leaf.attr.getLsbD 53 = false

/-- The attribute index of the page is that of normal memory, and not of a device. -/
def Leaf.Normal (leaf : Leaf) : Prop := (leaf.attr >>> 2) &&& 7 = mtNormal

/-- `attr` has no bit in 12..47, as a test. -/
theorem attrOk_of_and {attr : U64} (clear : attr &&& 0x0000fffffffff000 = 0) : AttrOk attr := by
  intro j low high
  have all : ∀ k : Fin 64, 12 ≤ k.val → k.val < 48 →
      (0x0000fffffffff000 : U64).getLsbD k = true := by decide
  have bit : (attr &&& 0x0000fffffffff000).getLsbD j = false := by
    rw [clear]
    exact BitVec.getLsbD_zero
  rw [BitVec.getLsbD_and, all ⟨j, by omega⟩ low high, Bool.and_true] at bit
  exact bit

/-- The attributes that `as_map` computes have no address bits, and what they allow EL0 depends on
the protection as `Ok.leaf_allows` says it for a mapping. -/
theorem asAttr_spec (prot : BitVec 32) (type : RamType) :
    asAttr prot type &&& 0x0000fffffffff000 = 0 ∧
      (descAttr (asAttr prot type)).getLsbD 6 = true ∧
      ((descAttr (asAttr prot type)).getLsbD 7 = false ↔
        prot &&& protWrite ≠ 0 ∨ prot &&& protRead = 0) ∧
      ((descAttr (asAttr prot type)).getLsbD 54 = false ↔ prot &&& protExec ≠ 0) ∧
      ((descAttr (asAttr prot type) >>> 2) &&& 7 = mtNormal ↔ type = .normal) := by
  unfold asAttr
  by_cases read : prot &&& protRead = 0 <;> by_cases exec : prot &&& protExec = 0 <;>
    by_cases write : prot &&& protWrite = 0 <;> cases type <;>
    simp only [read, exec, write, ne_eq, not_true_eq_false, not_false_eq_true, if_true, if_false,
      or_true, or_false, or_self, iff_true, iff_false] <;> decide

/-! ## Mappings -/

/-- What a mapping leads to: an allocation, the device page, or where `vbase_to_pbase` sends
a null pointer, which is beyond RAM. -/
inductive Source
  | block (b : Block)
  | uart
  | null

/-- The physical address at which the source begins. -/
def Source.paddr : Source → U64
  | .block b => vbaseToPbase (BitVec.ofNat 64 b.addr)
  | .uart => uartPbase
  | .null => vbaseToPbase 0

/-- The kind of memory that the source is mapped as. -/
def Source.type : Source → RamType
  | .block _ => .normal
  | .uart => .device
  | .null => .normal

/-- The allocation of the granule heap that the source is, if it is one. -/
def Source.alloc : Source → Option Block
  | .block b => some b
  | .uart => none
  | .null => none

/-- A call of `as_map` that returned: the range it landed in, the protection asked for, and
what it leads to. -/
structure Mapping where
  vaddr : U64
  size : U64
  prot : BitVec 32
  source : Source

namespace Mapping

/-- The allocation of the granule heap that a mapping leads to, if it leads to one. -/
def block (m : Mapping) : Option Block := m.source.alloc

/-- The physical address that a mapping leads to. -/
def paddr (m : Mapping) : U64 := m.source.paddr

/-- The kind of memory that a mapping leads to. -/
def type (m : Mapping) : RamType := m.source.type

/-- The call of `pt_map` that `as_map` makes for a mapping. -/
def call (m : Mapping) : MapCall := ⟨m.vaddr, m.paddr, m.size, asAttr m.prot m.type⟩

/-- Offset `o` of the table is in the rounded range of the mapping. -/
def Covers (m : Mapping) (o : Nat) : Prop := m.call.range.lo ≤ o ∧ o < m.call.range.hi

instance (m : Mapping) (o : Nat) : Decidable (m.Covers o) := inferInstanceAs (Decidable (_ ∧ _))

/-- A mapping stays in its window and in its allocation. -/
structure Ok (layout : Layout) (m : Mapping) : Prop where
  small : m.call.Small
  fits : m.call.Fits
  backed : ∀ b, m.block = some b → layout.Placed b ∧ m.size.toNat ≤ pageUp b.size
  unbacked : m.block = none → m.size.toNat ≤ 2 ^ 13

variable {layout : Layout} {m : Mapping} {o : Nat}

theorem source_eq {b : Block} (block : m.block = some b) : m.source = .block b := by
  unfold Mapping.block at block
  cases source : m.source with
  | block b' =>
    rw [source] at block
    exact congrArg Source.block (Option.some.inj block)
  | uart =>
    rw [source] at block
    cases block
  | null =>
    rw [source] at block
    cases block

theorem Ok.paddr_low (ok : m.Ok layout) : m.paddr.toNat + 2 ^ 17 ≤ 2 ^ 48 := by
  unfold paddr
  cases source : m.source with
  | block b =>
    obtain ⟨-, -, -, top⟩ := (ok.backed b (by unfold block; rw [source]; rfl)).1.toNat_addr
    rw [toNat_ramPbase] at top
    change b.phys + _ ≤ _
    omega
  | uart => decide
  | null => decide

/-- The leaf of a page of a mapping has the address that is as far into the source as the page is
into the range, with the attributes of `as_map`. -/
theorem Ok.leaf_eq (ok : m.Ok layout) (covers : m.Covers o) :
    m.call.range.leaf o =
      ⟨m.paddr.toNat + (o - m.call.range.lo), descAttr (asAttr m.prot m.type), 12⟩ :=
  ok.small.leaf_eq (attrOk_of_and (asAttr_spec m.prot m.type).1) ok.paddr_low covers.1 covers.2

/-- EL0 may access every page of a mapping. It may write the page if it asked to, or did not ask
to read, and execute it if it asked to. -/
theorem Ok.leaf_allows (ok : m.Ok layout) (covers : m.Covers o) :
    (m.call.range.leaf o).User ∧
      ((m.call.range.leaf o).Writable ↔ m.prot &&& protWrite ≠ 0 ∨ m.prot &&& protRead = 0) ∧
      ((m.call.range.leaf o).Executable ↔ m.prot &&& protExec ≠ 0) ∧
      ((m.call.range.leaf o).Normal ↔ m.type = .normal) := by
  rw [ok.leaf_eq covers]
  exact (asAttr_spec m.prot m.type).2

theorem Ok.offset_lt (ok : m.Ok layout) (covers : m.Covers o) :
    o - m.call.range.lo < pageUp m.size.toNat := by
  obtain ⟨low, high⟩ := covers
  have stop := MapCall.stop_eq_add ok.small.vAligned
  have base := m.call.base_le
  simp only [MapCall.range] at low high ⊢
  have size : m.call.size = m.size := rfl
  rw [size] at stop
  omega

/-- The physical address that a mapping gives is one of its allocation. -/
theorem Ok.has (ok : m.Ok layout) {b : Block} (block : m.block = some b) (covers : m.Covers o) :
    b.Has (m.call.range.leaf o).pa := by
  have inside := ok.offset_lt covers
  obtain ⟨-, le⟩ := ok.backed b block
  have pages : pageUp m.size.toNat ≤ pageUp b.size := by
    unfold pageUp at le ⊢
    omega
  have paddr_eq : m.paddr.toNat = b.phys := by
    unfold paddr
    rw [source_eq block]
    rfl
  rw [ok.leaf_eq covers]
  unfold Block.Has
  simp only
  omega

/-! ### Asking for a mapping -/

/-- The region that is passed to `as_map` for the mapping. -/
def region (m : Mapping) : MemRegion := ⟨m.paddr, m.vaddr, m.size⟩

/-- What becomes of a request for a mapping once addresses are cut down to the 39 bits that the
table translates. -/
def landed (m : Mapping) : Mapping :=
  { m with vaddr := m.call.landed.vaddr, size := m.call.landed.size }

/-- A request for a page-aligned range that its allocation can fill, or for two pages. -/
structure Asked (layout : Layout) (m : Mapping) : Prop where
  aligned : m.vaddr.toNat % 2 ^ 12 = 0
  pos : 0 < m.size.toNat
  backed : ∀ b, m.block = some b → layout.Placed b ∧ m.size.toNat ≤ pageUp b.size
  unbacked : m.block = none → m.size.toNat ≤ 2 ^ 13

theorem asMap_eq (addrspace : U64) (s : PtState MmGran) :
    asMap addrspace m.region m.prot m.type s =
      ptMapWith linearView ptCalloc addrspace m.call.vaddr m.call.paddr m.call.size m.call.attr s :=
  rfl

theorem landed_call (m : Mapping) : m.landed.call = m.call.landed := by
  unfold landed MapCall.landed
  split <;> rfl

theorem Asked.paddr_aligned (asked : m.Asked layout) : m.paddr.toNat % 2 ^ 12 = 0 := by
  unfold paddr
  cases source : m.source with
  | block b => exact (asked.backed b (by unfold block; rw [source]; rfl)).1.toNat_addr.2.2.1
  | uart => decide
  | null => decide

theorem Asked.size_le (asked : m.Asked layout) : m.size.toNat ≤ 2 ^ 17 := by
  cases block : m.block with
  | none => exact (asked.unbacked block).trans (by decide)
  | some b =>
    obtain ⟨placed, le⟩ := asked.backed b block
    have top : pageUp b.size ≤ pageUp (2 ^ 17) := pageUp_mono placed.le
    have full : pageUp (2 ^ 17) = 2 ^ 17 := by decide
    omega

theorem Asked.small (asked : m.Asked layout) : m.call.Small := by
  have le := asked.size_le
  exact ⟨⟨asked.aligned, asked.paddr_aligned, asked.pos, le.trans (by decide)⟩, le⟩

/-- A call that does not end with the address space lands as it is. -/
theorem landed_of_ne (ne : m.call.stop ≠ 2 ^ 64) : m.landed = m := by
  unfold landed
  rw [MapCall.landed_of_ne ne]
  rfl

/-- A call lands with no more than it asks for. -/
theorem landed_size_le (asked : m.Asked layout) :
    pageUp m.landed.size.toNat ≤ pageUp m.size.toNat := by
  by_cases top : m.call.stop = 2 ^ 64
  · have size_eq : m.landed.size.toNat = 2 ^ 12 := (MapCall.toNat_landed top).2.1
    have one : pageUp (2 ^ 12) = 2 ^ 12 := by decide
    rw [size_eq, one]
    exact pageUp_pos asked.pos
  · have same : m.landed.size = m.size := congrArg MapCall.size (MapCall.landed_of_ne top)
    rw [same]

theorem Asked.landed_ok (asked : m.Asked layout) (lands : m.call.Lands) : m.landed.Ok layout := by
  obtain ⟨small, fits⟩ := asked.small.landed_fits lands
  refine ⟨m.landed_call ▸ small, m.landed_call ▸ fits, fun b block => ?_, fun none => ?_⟩
  · obtain ⟨placed, le⟩ := asked.backed b block
    have shorter := landed_size_le asked
    have bound := le_pageUp m.landed.size.toNat
    refine ⟨placed, bound.trans (shorter.trans ?_)⟩
    unfold pageUp at le ⊢
    omega
  · have le := asked.unbacked none
    have shorter := landed_size_le asked
    have bound := le_pageUp m.landed.size.toNat
    unfold pageUp at shorter bound
    omega

end Mapping

/-! ## The invariant -/

/-- The allocations of the granule heap that the mappings lead to. -/
def blocksOf (maps : List Mapping) : List Block := maps.filterMap Mapping.block

theorem blocksOf_concat {maps : List Mapping} {m : Mapping} {b : Block} (block : m.block = some b) :
    blocksOf (maps ++ [m]) = blocksOf maps ++ [b] := by
  unfold blocksOf
  rw [List.filterMap_append, List.filterMap_cons_some block]
  rfl

theorem mem_blocksOf_concat {maps : List Mapping} {m : Mapping} {b : Block}
    (block : m.block = some b) : b ∈ blocksOf (maps ++ [m]) := by
  rw [blocksOf_concat block]
  exact List.mem_append_right _ (.head _)

/-- What is live stays so when there is one more mapping. -/
theorem live_concat {maps : List Mapping} {others : List Block} (m : Mapping) {b : Block}
    (live : b ∈ blocksOf maps ++ others) : b ∈ blocksOf (maps ++ [m]) ++ others := by
  unfold blocksOf at live ⊢
  rw [List.filterMap_append]
  rcases List.mem_append.mp live with inMaps | inOthers
  · exact List.mem_append_left _ (List.mem_append_left _ inMaps)
  · exact List.mem_append_right _ inOthers

/-- The user table holds the leaves of `maps`; live are its pages, what backs `maps`, and
`others`. -/
structure MemInv (layout : Layout) (others : List Block) (maps : List Mapping)
    (s : PtState MmGran) : Prop where
  ok : ∀ m ∈ maps, m.Ok layout
  table : ∃ tree, Holding linearView (layout.Good layout.userPgd (blocksOf maps ++ others))
    layout.userPgd (maps.map Mapping.call) tree s

theorem Layout.userPgd_lt (layout : Layout) : layout.userPgd.toNat < layout.geo.heapstart := by
  have image := layout.userPgd_image
  have user := layout.user_le
  have heap := layout.heap_le
  omega

section Good

variable {layout : Layout} {pgd : U64} {rest rest' : List Block} {heap : MmGran}
  {tables : List U64} {b : Block} {q : U64} {x : Nat}

theorem Layout.Good.perm (good : layout.Good pgd rest heap tables) (perm : rest.Perm rest') :
    layout.Good pgd rest' heap tables := by
  obtain ⟨pages, tables_eq, inv⟩ := good
  exact ⟨pages, tables_eq, inv.perm (perm.append_left _)⟩

theorem Layout.Good.placed (good : layout.Good pgd rest heap tables) (inRest : b ∈ rest) :
    layout.Placed b := by
  obtain ⟨pages, -, inv⟩ := good
  exact inv.placed (List.mem_append_right _ inRest)

/-- A table page is the PGD or a placed allocation. -/
theorem Layout.Good.table (good : layout.Good pgd rest heap tables) (inTables : q ∈ tables) :
    q = pgd ∨ layout.Placed (pageBlock q) ∧ ∀ b ∈ rest, (pageBlock q).Apart b := by
  obtain ⟨pages, tables_eq, inv⟩ := good
  rw [tables_eq] at inTables
  rcases List.mem_append.mp inTables with inPages | isPgd
  · have inMap := List.mem_map_of_mem (f := pageBlock) inPages
    refine .inr ⟨inv.placed (List.mem_append_left _ inMap), fun b inRest => ?_⟩
    exact (List.pairwise_append.mp inv.apart).2.2 _ inMap b inRest
  · exact .inl (List.mem_singleton.mp isPgd)

/-- An allocation that is in use is apart from all the others. -/
theorem Layout.Good.apart (good : layout.Good pgd rest heap tables)
    (perm : rest.Perm (b :: rest')) : ∀ b' ∈ rest', b.Apart b' := by
  obtain ⟨pages, -, inv⟩ := good.perm perm
  have pairwise := (List.pairwise_append.mp inv.apart).2.1
  exact (List.pairwise_cons.mp pairwise).1

/-- What backs the last mapping is apart from everything else that is live. -/
theorem Layout.Good.apart_concat {maps : List Mapping} {others : List Block} {m : Mapping}
    (good : layout.Good pgd (blocksOf (maps ++ [m]) ++ others) heap tables)
    (block : m.block = some b) : ∀ b' ∈ blocksOf maps ++ others, b.Apart b' := by
  refine good.apart ?_
  rw [blocksOf_concat block, List.append_assoc]
  exact List.perm_middle

/-- Two allocations that are apart have no byte in common. -/
theorem Block.Apart.not_has {a b : Block} (apart : a.Apart b) (placedA : layout.Placed a)
    (placedB : layout.Placed b) (has : a.Has x) : ¬ b.Has x := by
  obtain ⟨-, physA, -, -⟩ := placedA.toNat_addr
  obtain ⟨-, physB, -, -⟩ := placedB.toNat_addr
  have ramA := placedA.ram
  have ramB := placedB.ram
  rintro ⟨low, high⟩
  obtain ⟨low', high'⟩ := has
  unfold Block.Apart at apart
  omega

/-- An allocation takes up whole pages, so it has all of a page or none of it. -/
theorem Block.Has.page {y : Nat} (has : b.Has x) (placed : layout.Placed b)
    (same : x / 2 ^ 12 = y / 2 ^ 12) : b.Has y := by
  obtain ⟨-, -, aligned, -⟩ := placed.toNat_addr
  obtain ⟨low, high⟩ := has
  unfold pageUp at high
  refine ⟨by omega, ?_⟩
  unfold pageUp
  omega

theorem pageBlock_has : (pageBlock q).Has x ↔ linearView.InPage q x := by
  unfold Block.Has TableView.InPage
  have full : pageUp (2 ^ 12) = 2 ^ 12 := by decide
  rw [Block.phys_eq_toPhys, show (pageBlock q).size = 2 ^ 12 from rfl, full]

/-- The user PGD lies in the kernel image, below the heap. -/
theorem Layout.Placed.not_userPgd (placed : layout.Placed b) (has : b.Has x) :
    ¬ linearView.InPage layout.userPgd x := by
  obtain ⟨-, blockPhys, -, -⟩ := placed.toNat_addr
  have low := placed.low
  have ram := BitVec.le_def.mp layout.userPgd_ram
  have image := layout.userPgd_image
  have user := layout.user_le
  have heapLow := layout.heap_le
  have pgd_eq : (linearView.toPhys layout.userPgd).toNat =
      layout.userPgd.toNat - ramVbase.toNat + ramPbase.toNat := phys_eq ram
  rintro ⟨-, high⟩
  obtain ⟨low', -⟩ := has
  omega

/-- No table page has a byte of another allocation. -/
theorem Layout.Good.not_inPage (good : layout.Good layout.userPgd rest heap tables)
    (inRest : b ∈ rest) (has : b.Has x) (inTables : q ∈ tables) : ¬ linearView.InPage q x := by
  have placed := good.placed inRest
  rcases good.table inTables with rfl | ⟨placedQ, apart⟩
  · exact placed.not_userPgd has
  · intro inPage
    exact (apart b inRest).not_has placedQ placed (pageBlock_has.mpr inPage) has

end Good

/-! ## What the steps take from the heap -/

/-- The requests of `pt_map` for page tables: one granule for each that the range needs and
that is not at a position of `has`. -/
def tableRequests (has : List Nat → Bool) (vaddr size : U64) : List Nat :=
  List.replicate ((⟨vaddr, 0, size, 0⟩ : MapCall).landed.lacking has) 1

/-- The positions of tables once the range is mapped. -/
def addTables (has : List Nat → Bool) (vaddr size : U64) : List Nat → Bool :=
  (⟨vaddr, 0, size, 0⟩ : MapCall).landed.addTables has

theorem Mapping.landed_range (m : Mapping) :
    m.call.landed.range.lo = (⟨m.vaddr, 0, m.size, 0⟩ : MapCall).landed.range.lo ∧
      m.call.landed.range.hi = (⟨m.vaddr, 0, m.size, 0⟩ : MapCall).landed.range.hi := by
  have stop : m.call.stop = (⟨m.vaddr, 0, m.size, 0⟩ : MapCall).stop := rfl
  unfold MapCall.landed
  rw [stop]
  split <;> exact ⟨rfl, rfl⟩

theorem Mapping.tableRequests_eq (m : Mapping) (has : List Nat → Bool) :
    tableRequests has m.vaddr m.size = List.replicate (m.call.landed.lacking has) 1 := by
  unfold tableRequests MapCall.lacking
  rw [m.landed_range.1, m.landed_range.2]

theorem Mapping.addTables_eq (m : Mapping) (has : List Nat → Bool) :
    m.call.landed.addTables has = addTables has m.vaddr m.size := by
  unfold addTables MapCall.addTables
  rw [m.landed_range.1, m.landed_range.2]

/-- The positions at which the user table has tables. -/
def Layout.has (layout : Layout) (mem : Mem) : List Nat → Bool :=
  linearView.has mem layout.userPgd

/-- Between `s` and `s'` the requests were served from the heap, and the user table has come
to have tables at the positions `has`. -/
structure Spends (layout : Layout) (s : PtState MmGran) (requests : List Nat)
    (has : List Nat → Bool) (s' : PtState MmGran) : Prop where
  after : s.heap.After requests s'.heap
  tables : TablesAt linearView layout.userPgd s'.mem has

/-- The requests of two steps are served one after the other, if the second step leaves the tables
alone. -/
theorem Spends.trans {layout : Layout} {s s₁ s₂ : PtState MmGran} {requests more : List Nat}
    {has : List Nat → Bool} (first : Spends layout s requests has s₁)
    (second : Spends layout s₁ more (layout.has s₁.mem) s₂) :
    Spends layout s (requests ++ more) has s₂ :=
  ⟨first.after.trans second.after, first.tables.trans second.tables⟩

/-! ## The steps -/

section Steps

variable {layout : Layout} {others others' : List Block} {maps : List Mapping}
  {s s' : PtState MmGran} {b : Block} {x : Nat}

theorem MemInv.good (inv : MemInv layout others maps s) :
    layout.Good layout.userPgd (blocksOf maps ++ others) s.heap s.tables := by
  obtain ⟨tree, holding⟩ := inv.table
  exact holding.inv.good

/-- Less than 2 GiB are mapped from the heap. -/
theorem MemInv.sum_size_lt (inv : MemInv layout others maps s) :
    ((blocksOf maps).map Block.size).sum < 2 ^ 31 := by
  obtain ⟨pages, -, heapInv⟩ := inv.good
  have total := heapInv.sum_size_lt
  simp only [List.map_append, List.sum_append] at total
  omega

/-- The table of a user PGD that is clear. -/
theorem MemInv.start {mem : Mem} {heap : MmGran} (heapInv : HeapInv layout.geo ⟨heap, others⟩)
    (clear : ∀ x, linearView.InPage layout.userPgd x → mem x = 0) :
    MemInv layout others [] ⟨mem, heap, [layout.userPgd]⟩ := by
  let table : FreshTable linearView MmGran :=
    { alloc := ptCalloc
      Good := layout.Good layout.userPgd others
      spec := ptCalloc_spec layout.userPgd_lt
      pgd := layout.userPgd
      isPage := linearView_isPage layout.userPgd_aligned layout.userPgd_ram
      mem := mem
      zero := clear
      heap := heap
      good := ⟨[], rfl, heapInv⟩ }
  refine ⟨fun m inside => ?_, Tree.single layout.userPgd, table.inv, fun _ => Tree.lookup_single⟩
  cases inside

theorem MemInv.perm (inv : MemInv layout others maps s) (perm : others.Perm others') :
    MemInv layout others' maps s := by
  obtain ⟨tree, holding⟩ := inv.table
  exact ⟨inv.ok, tree, holding.frame rfl (fun _ _ => Mem.AgreeOn.refl _ _ _)
    (holding.inv.good.perm (perm.append_left _))⟩

theorem MemInv.placed (inv : MemInv layout others maps s) (inOthers : b ∈ others) :
    layout.Placed b :=
  inv.good.placed (List.mem_append_right _ inOthers)

theorem MemInv.pieces (inv : MemInv layout others maps s) :
    ∀ earlier ∈ maps.map Mapping.call, earlier.size.toNat ≤ 2 ^ 17 := by
  intro earlier inside
  obtain ⟨m, inMaps, rfl⟩ := List.mem_map.mp inside
  exact (inv.ok m inMaps).small.small

/-- Stores outside the tables keep the memory invariant, which is about their bytes only. -/
theorem MemInv.withMem (inv : MemInv layout others maps s) {mem : Mem}
    (same : ∀ q ∈ s.tables, ∀ x, linearView.InPage q x → mem x = s.mem x) :
    MemInv layout others maps { s with mem } := by
  obtain ⟨tree, holding⟩ := inv.table
  refine ⟨inv.ok, tree, holding.frame rfl (fun q inTables x low high => ?_) holding.inv.good⟩
  exact same q inTables x ⟨low, high⟩

/-- An allocation that is not a table has no byte of one. -/
theorem MemInv.same_of_live (inv : MemInv layout others maps s)
    (live : b ∈ blocksOf maps ++ others) {mem : Mem}
    (frame : ∀ x, ¬ b.Has x → mem x = s.mem x) :
    ∀ q ∈ s.tables, ∀ x, linearView.InPage q x → mem x = s.mem x :=
  fun _ inTables x inPage => frame x fun has => inv.good.not_inPage live has inTables inPage

/-- The kernel may write to an allocation that is not a table. -/
theorem MemInv.store (inv : MemInv layout others maps s)
    (live : b ∈ blocksOf maps ++ others) {mem : Mem}
    (frame : ∀ x, ¬ b.Has x → mem x = s.mem x) :
    MemInv layout others maps { s with mem } :=
  inv.withMem (inv.same_of_live live frame)

/-- Memory that agrees on the pages of the table has its tables at the same positions. -/
theorem MemInv.tablesAt (inv : MemInv layout others maps s) {mem : Mem}
    (same : ∀ q ∈ s.tables, ∀ x, linearView.InPage q x → mem x = s.mem x) :
    TablesAt linearView layout.userPgd mem (layout.has s.mem) := by
  obtain ⟨tree, holding⟩ := inv.table
  have holding' : Holding linearView (layout.Good layout.userPgd (blocksOf maps ++ others))
      layout.userPgd (maps.map Mapping.call) tree { s with mem } :=
    holding.frame rfl (fun q inTables x low high => same q inTables x ⟨low, high⟩)
      holding.inv.good
  exact holding.tablesAt holding' inv.pieces

/-- `gran_alloc` finds nothing, or hands out a block that is new. -/
theorem MemInv.alloc (inv : MemInv layout others maps s) (size : Nat) (pos : 0 < size)
    (le : size ≤ 2 ^ 17) :
    (granAlloc s.heap size = .ok (0, s.heap) ∧ ¬ s.heap.Serves [granules size]) ∨
      ∃ b heap, b.size = size ∧ b.addr ≠ 0 ∧ granAlloc s.heap size = .ok (b.addr, heap) ∧
        MemInv layout (b :: others) maps { s with heap } ∧
        s.heap.After [granules size] heap := by
  obtain ⟨tree, holding⟩ := inv.table
  obtain ⟨pages, tables_eq, heapInv⟩ := holding.inv.good
  rcases granAlloc_block size heapInv pos le with
    failed | ⟨b, heap', size_eq, found, run, heapInv', after⟩
  · exact .inl failed
  · have good : layout.Good layout.userPgd (blocksOf maps ++ b :: others) heap' s.tables :=
      ⟨pages, tables_eq, heapInv'.perm (by
        rw [← List.append_assoc, ← List.append_assoc]
        exact List.perm_middle.symm)⟩
    exact .inr ⟨b, heap', size_eq, found, run, ⟨inv.ok, tree,
      holding.frame rfl (fun _ _ => Mem.AgreeOn.refl _ _ _) good⟩, after⟩

/-- `mmap_calloc` runs out of memory, or hands out a block that is cleared and new. -/
theorem MemInv.calloc (inv : MemInv layout others maps s) (size : Nat) (pos : 0 < size)
    (le : size ≤ 2 ^ 17) :
    (mmapCalloc s size = .error .null ∧ ¬ s.heap.Serves [granules size]) ∨
      ∃ b s', b.size = size ∧ mmapCalloc s size = .ok (BitVec.ofNat 64 b.addr, s') ∧
        MemInv layout (b :: others) maps s' ∧ s'.tables = s.tables ∧
        s'.mem = s.mem.fill b.phys size 0 ∧
        Spends layout s [granules size] (layout.has s.mem) s' := by
  unfold mmapCalloc granCalloc
  rcases inv.alloc size pos le with ⟨run, full⟩ | ⟨b, heap, size_eq, found, run, inv', after⟩
  · rw [run, ok_bind]
    simp only
    rw [require_bind_of_neg (by omega)]
    exact .inl ⟨rfl, full⟩
  · rw [run, ok_bind]
    simp only
    rw [require_bind_of_pos (.inl found), show phys (BitVec.ofNat 64 b.addr) = b.phys from rfl]
    have cleared : ∀ x, ¬ b.Has x → s.mem.fill b.phys size 0 x = s.mem x := fun x outside =>
      Mem.fill_of_outside (Block.outside_of_not_has size_eq.ge outside)
    obtain ⟨mem, mem_eq⟩ : ∃ mem, mem = s.mem.fill b.phys size 0 := ⟨_, rfl⟩
    rw [← mem_eq] at cleared ⊢
    have live : b ∈ blocksOf maps ++ b :: others := List.mem_append_right _ (.head _)
    exact .inr ⟨b, ⟨mem, heap, s.tables⟩, size_eq, rfl, inv'.store live cleared, rfl, mem_eq,
      after, inv'.tablesAt (inv'.same_of_live live cleared)⟩

/-- `gran_free` takes back an allocation that is not mapped. -/
theorem MemInv.free (inv : MemInv layout (b :: others) maps s) :
    ∃ heap, granFree s.heap b.addr b.size = .ok heap ∧
      MemInv layout others maps { s with heap } := by
  obtain ⟨tree, holding⟩ := inv.table
  obtain ⟨pages, tables_eq, heapInv⟩ := holding.inv.good
  have front : (pages.map pageBlock ++ (blocksOf maps ++ b :: others)).Perm
      (b :: (pages.map pageBlock ++ (blocksOf maps ++ others))) := by
    rw [← List.append_assoc, ← List.append_assoc]
    exact List.perm_middle
  have heapInv₁ := heapInv.perm front
  have log2gran : layout.geo.log2gran ≤ 26 := by
    rw [layout.log2gran]
    decide
  obtain ⟨heap, run, -⟩ := granFree_owned heapInv₁.geometry log2gran
    (heapInv₁.request b (.head _)) (heapInv₁.start b (.head _)) (heapInv₁.room b (.head _))
    (fun i owned => (heapInv₁.bit_iff i).mpr ⟨b, .head _, owned⟩)
  have heapInv₂ := heapInv₁.free log2gran (.head _) run
  rw [List.erase_cons_head] at heapInv₂
  exact ⟨heap, run, inv.ok, tree, holding.frame rfl (fun _ _ => Mem.AgreeOn.refl _ _ _)
    ⟨pages, tables_eq, heapInv₂⟩⟩

/-- A call of `as_map` that lands runs out of table pages, or becomes part of the table. -/
theorem MemInv.map {m : Mapping} (inv : MemInv layout (m.block.toList ++ others) maps s)
    (asked : m.Asked layout) (lands : m.call.Lands) :
    (asMap layout.userPgd m.region m.prot m.type s = .error .null ∧
      ¬ s.heap.Serves (tableRequests (layout.has s.mem) m.vaddr m.size)) ∨
      ∃ s', asMap layout.userPgd m.region m.prot m.type s = .ok s' ∧
        MemInv layout others (maps ++ [m.landed]) s' ∧ Confined linearView s s' ∧
        Spends layout s (tableRequests (layout.has s.mem) m.vaddr m.size)
          (addTables (layout.has s.mem) m.vaddr m.size) s' := by
  obtain ⟨tree, holding⟩ := inv.table
  have good := holding.inv.good
  have same : ∀ q ∈ s.tables, s.mem.AgreeOn s.mem (linearView.toPhys q).toNat (2 ^ 12) :=
    fun _ _ => Mem.AgreeOn.refl _ _ _
  -- from here on every granule that is taken for a table is counted
  have metered : layout.Metered layout.userPgd (blocksOf maps ++ (m.block.toList ++ others)) s.heap
      s.tables.length s.heap s.tables :=
    ⟨good, le_rfl, by rw [Nat.sub_self]; exact MmGran.After.refl _⟩
  have counting := holding.frame rfl same metered
  rw [Mapping.asMap_eq, m.tableRequests_eq]
  rcases counting.land (ptCalloc_metered layout.userPgd_lt) inv.pieces asked.small lands with
    ⟨failed, s', metered', exhausted, fewer⟩ | ⟨tree', s', run, holding', confined, pages, tables⟩
  · exact .inl ⟨failed, metered'.not_serves layout.userPgd_lt exhausted fewer⟩
  · have metered' := holding'.inv.good
    have after := metered'.after
    rw [pages, Nat.add_sub_cancel_left] at after
    rw [m.addTables_eq] at tables
    refine .inr ⟨s', run, ⟨fun m' inside => ?_, tree', ?_⟩, confined, after, tables⟩
    · rcases List.mem_append.mp inside with old | new
      · exact inv.ok m' old
      · rw [List.mem_singleton.mp new]
        exact asked.landed_ok lands
    · have blocks : blocksOf (maps ++ [m.landed]) = blocksOf maps ++ m.block.toList := by
        unfold blocksOf
        rw [List.filterMap_append]
        have same : m.landed.block = m.block := rfl
        cases block : m.block with
        | none => simp [same, block]
        | some b => simp [same, block]
      rw [List.map_append, List.map_singleton, Mapping.landed_call, blocks, List.append_assoc]
      exact holding'.frame rfl (fun _ _ => Mem.AgreeOn.refl _ _ _) metered'.good

/-- A call of `as_map` that does not land never returns. -/
theorem MemInv.map_ne_ok {m : Mapping} (asked : m.Asked layout) (off : ¬ m.call.Lands) :
    asMap layout.userPgd m.region m.prot m.type s ≠ .ok s' := by
  rw [Mapping.asMap_eq]
  refine asked.small.ne_ok off ?_
  have ram := BitVec.le_def.mp layout.userPgd_ram
  intro zero
  rw [zero] at ram
  exact absurd ram (by decide)

/-- `as_map` stops the kernel at an address that is not page aligned. -/
theorem asMap_of_unaligned {addrspace : U64} {region : MemRegion} {prot : BitVec 32}
    {type : RamType} (unaligned : region.vbase.toNat % 2 ^ 12 ≠ 0) :
    asMap addrspace region prot type s = .error .assertion := by
  unfold asMap ptMap ptMapWith
  by_cases null : addrspace = 0
  · rw [require_bind_of_neg (not_not_intro null)]
  · rw [require_bind_of_pos null, require_bind_of_neg (page_aligned_iff.not.mpr unaligned)]

end Steps

end Chinos
