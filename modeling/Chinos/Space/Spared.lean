import Chinos.Boot.Root

/-!
# What the kernel leaves alone

While the kernel loads the root task and serves its memory calls, it stores into memory
that it has just allocated, into the user table, and nowhere else. So the kernel image and
every allocation that was live before keep their bytes: the tables of the kernel, the ASID
bitmap, and the saved registers of the tasks.
-/

namespace Chinos

/-- The byte at physical address `x` is the kernel's to keep: it is in one of the allocations
`others`, or below the heap and not in the user PGD. -/
inductive Spared (layout : Layout) (others : List Block) (x : Nat) : Prop
  | live (b : Block) (inOthers : b ∈ others) (has : b.Has x)
  | image (low : ramPbase.toNat ≤ x)
      (high : x < layout.geo.heapstart - ramVbase.toNat + ramPbase.toNat)
      (notPgd : ¬ linearView.InPage layout.userPgd x)

section Frames

variable {layout : Layout} {others others' : List Block} {maps : List Mapping}
  {s s' : PtState MmGran} {b : Block} {x : Nat}

theorem Spared.mono (spared : Spared layout others x) (more : others ⊆ others') :
    Spared layout others' x := by
  cases spared with
  | live b inOthers has => exact .live b (more inOthers) has
  | image low high notPgd => exact .image low high notPgd

/-- An allocation of the heap lies above the kernel image. -/
theorem Layout.Placed.not_below (placed : layout.Placed b)
    (high : x < layout.geo.heapstart - ramVbase.toNat + ramPbase.toNat) : ¬ b.Has x := by
  obtain ⟨-, phys_eq, -, -⟩ := placed.toNat_addr
  have low := placed.low
  rintro ⟨first, -⟩
  omega

/-- No page of the user table has such a byte. -/
theorem Spared.not_inPage (spared : Spared layout others x) (inv : MemInv layout others maps s)
    {q : U64} (inTables : q ∈ s.tables) : ¬ linearView.InPage q x := by
  cases spared with
  | live b inOthers has =>
    exact inv.good.not_inPage (List.mem_append_right _ inOthers) has inTables
  | image low high notPgd =>
    rcases inv.good.table inTables with rfl | ⟨placed, -⟩
    · exact notPgd
    · intro inPage
      exact placed.not_below high (pageBlock_has.mpr inPage)

/-- The memory of a mapping is not spared, as it belongs to the task. -/
theorem Spared.not_has (spared : Spared layout others x) (inv : MemInv layout others maps s)
    (inMaps : b ∈ blocksOf maps) : ¬ b.Has x := by
  have good := inv.good
  have placed := good.placed (List.mem_append_left _ inMaps)
  cases spared with
  | live b' inOthers has =>
    intro has'
    obtain ⟨pages, -, heapInv⟩ := good
    have apart := (List.pairwise_append.mp (List.pairwise_append.mp heapInv.apart).2.1).2.2
    exact (apart b inMaps b' inOthers).not_has placed (inv.placed inOthers) has' has
  | image low high notPgd => exact placed.not_below high

/-- The memory of a new allocation is not spared, as it was free. -/
theorem Spared.not_new (spared : Spared layout others x)
    (inv : MemInv layout (b :: others) maps s) : ¬ b.Has x := by
  have placed : layout.Placed b := inv.placed (.head _)
  cases spared with
  | live b' inOthers has =>
    intro has'
    have front : (blocksOf maps ++ b :: others).Perm (b :: (blocksOf maps ++ others)) :=
      List.perm_middle
    have apart := inv.good.apart front
    exact (apart b' (List.mem_append_right _ inOthers)).not_has placed
      (inv.placed (.tail _ inOthers)) has' has
  | image low high notPgd => exact placed.not_below high

/-! ## Memory and mappings -/

/-- `mmap_calloc` clears the memory that it hands out, and no other. -/
theorem MemInv.of_calloc (inv : MemInv layout others maps s) {size : Nat} {v : U64}
    (pos : 0 < size) (le : size ≤ 2 ^ 17) (run : mmapCalloc s size = .ok (v, s')) :
    ∃ b, v = BitVec.ofNat 64 b.addr ∧ b.size = size ∧ MemInv layout (b :: others) maps s' ∧
      ∀ x, Spared layout others x → s'.mem x = s.mem x := by
  rcases inv.calloc size pos le with
    ⟨failed, -⟩ | ⟨b, s₁, size_eq, ok, inv', -, mem_eq, -⟩
  · cases failed.symm.trans run
  cases ok.symm.trans run
  refine ⟨b, rfl, size_eq, inv', fun x spared => ?_⟩
  rw [mem_eq]
  exact Mem.fill_of_outside (Block.outside_of_not_has size_eq.ge (spared.not_new inv'))

/-- `as_map` stores into the user table, and nowhere else. -/
theorem MemInv.of_map {m : Mapping} (inv : MemInv layout (m.block.toList ++ others) maps s)
    (asked : m.Asked layout) (run : asMap layout.userPgd m.region m.prot m.type s = .ok s') :
    MemInv layout others (maps ++ [m.landed]) s' ∧
      ∀ x, Spared layout others x → s'.mem x = s.mem x := by
  by_cases lands : m.call.Lands
  · rcases inv.map asked lands with ⟨failed, -⟩ | ⟨s₁, ok, inv', confined, -⟩
    · cases failed.symm.trans run
    cases ok.symm.trans run
    exact ⟨inv', fun x spared => confined.frame x fun q => spared.not_inPage inv'⟩
  · exact absurd run (MemInv.map_ne_ok asked lands)

/-- The allocation of memory and its mapping together store into that memory and the user
table. -/
theorem MemInv.of_allocMap (inv : MemInv layout others maps s) {vaddr size v : U64}
    {prot : BitVec 32} (run : Chinos.allocMap layout.userPgd vaddr size prot s = .ok (v, s')) :
    ∃ b, v = BitVec.ofNat 64 b.addr ∧ b.size = size.toNat ∧
      MemInv layout others (maps ++ [(backing vaddr size prot b).landed]) s' ∧
      ∀ x, Spared layout others x → s'.mem x = s.mem x := by
  by_cases backable : Backable vaddr size
  swap
  · exact absurd run (inv.allocMap_ne_ok backable _)
  rcases inv.allocMap prot backable with
    ⟨failed, -⟩ | ⟨b, s₁, size_eq, ok, inv', -, frame, -⟩
  · cases failed.symm.trans run
  cases ok.symm.trans run
  refine ⟨b, rfl, size_eq, inv', fun x spared => ?_⟩
  have live : b ∈ blocksOf (maps ++ [(backing vaddr size prot b).landed]) :=
    mem_blocksOf_concat rfl
  rw [frame x fun q => spared.not_inPage inv']
  exact Mem.fill_of_outside (Block.outside_of_not_has size_eq.ge (spared.not_has inv' live))

end Frames

/-! ## The memory calls of a task -/

section Calls

variable {layout : Layout} {others : List Block} {maps : List Mapping} {p p' : Process} {ret : U64}
  {x : Nat}

/-- What `sys_brk` and `sys_mmap` are given is a live allocation more, not one less. -/
theorem Spared.of_mm (spared : Spared layout others x) (p : Process) :
    Spared layout (p.mm.areas.map recordBlock ++ others) x :=
  spared.mono (List.subset_append_right _ _)

theorem sysBrk_spares (inv : MmInv layout others maps p) {brk : U64}
    (run : sysBrk p brk = .ok (ret, p')) (spared : Spared layout others x) :
    p'.pt.mem x = p.pt.mem x := by
  by_cases idle : BrkIdle p brk
  · rw [sysBrk_of_idle idle] at run
    cases run
    rfl
  · rw [sysBrk_of_grow idle, inv.addrspace] at run
    obtain ⟨⟨v, pt⟩, alloc, run⟩ := of_bind_ok run
    cases run
    obtain ⟨b, -, -, -, frame⟩ := inv.mem.of_allocMap alloc
    exact frame x (spared.of_mm p)

theorem sysMmap_spares (inv : MmInv layout others maps p) {start len prot flags fd off : U64}
    (run : sysMmap p start len prot flags fd off = .ok (ret, p'))
    (spared : Spared layout others x) :
    p'.pt.mem x = p.pt.mem x := by
  by_cases idle : MmapIdle len flags
  · rw [sysMmap_of_idle fd off idle] at run
    cases run
    rfl
  · rw [sysMmap_of_area fd off idle, inv.addrspace] at run
    obtain ⟨⟨record, pt₁⟩, alloc, run⟩ := of_bind_ok run
    obtain ⟨⟨v, pt₂⟩, mapped, run⟩ := of_bind_ok run
    cases run
    obtain ⟨b, -, -, inv₁, frame₁⟩ := inv.mem.of_calloc (by decide) (by decide) alloc
    obtain ⟨b', -, -, -, frame₂⟩ := inv₁.of_allocMap mapped
    have spared' := spared.of_mm p
    rw [frame₂ x (spared'.mono (List.subset_cons_self _ _)), frame₁ x spared']

/-- A memory call that returns leaves what is spared alone. -/
theorem MmCall.run_spares {c : MmCall} (inv : MmInv layout others maps p)
    (run : c.run p = .ok (ret, p')) (spared : Spared layout others x) :
    p'.pt.mem x = p.pt.mem x := by
  cases c with
  | brk addr => exact sysBrk_spares inv run spared
  | mmap start len prot flags fd off =>
    have run : sysMmap p start len prot flags fd off = .ok (ret, p') := run
    exact sysMmap_spares inv run spared

end Calls

/-! ## Loading the root task -/

section Loading

variable {layout : Layout} {others : List Block} {maps : List Mapping} {s s' : PtState MmGran}
  {elf : ChinElf} {segs segs' : List Segment} {p p' : Process}

/-- From `s` to `s'` the loader has allocated, and has left alone what was there. -/
structure Grown (layout : Layout) (others : List Block) (maps : List Mapping)
    (segs' : List Segment) (s s' : PtState MmGran) : Prop where
  live : ∃ others', others ⊆ others' ∧ MemInv layout (segs'.map segBlock ++ others') maps s'
  spares : ∀ x, Spared layout others x → s'.mem x = s.mem x

theorem addSegment_grown {ph : Elf64Phdr}
    (inv : MemInv layout (segs.map segBlock ++ others) maps s)
    (run : addSegment ph segs s = .ok (segs', s')) :
    Grown layout others maps segs' s s' := by
  unfold addSegment elfCalloc at run
  obtain ⟨⟨v, s₁⟩, alloc, run⟩ := of_bind_ok run
  obtain ⟨b, rfl, size_eq, inv₁, frame⟩ := inv.of_calloc (by decide) (by decide) alloc
  have spares : ∀ x, Spared layout others x → s₁.mem x = s.mem x := fun x spared =>
    frame x (spared.mono (List.subset_append_right _ _))
  simp only at run
  split at run
  · -- the record is left behind
    cases run
    exact ⟨⟨b :: others, List.subset_cons_self _ _, inv₁.perm List.perm_middle.symm⟩, spares⟩
  · cases run
    refine ⟨⟨others, List.Subset.refl _, ?_⟩, spares⟩
    have record_eq : segBlock ⟨BitVec.ofNat 64 b.addr, ph⟩ = b := by
      have addr_eq := (inv₁.placed (.head _)).toNat_addr.1
      unfold segBlock
      simp only [addr_eq]
      exact congrArg (Block.mk b.addr) size_eq.symm
    rw [List.map_cons, record_eq]
    exact inv₁

theorem loadSegments_grown {phoff : Nat} {left : Nat} : ∀ {n : Nat} {segs : List Segment}
    {s : PtState MmGran} {others : List Block},
    MemInv layout (segs.map segBlock ++ others) maps s →
    loadSegments elf phoff left n segs s = .ok (segs', s') →
    Grown layout others maps segs' s s' := by
  induction left with
  | zero =>
    intro n segs s others inv run
    cases run
    exact ⟨⟨others, List.Subset.refl _, inv⟩, fun _ _ => rfl⟩
  | succ left ih =>
    intro n segs s others inv run
    rw [loadSegments] at run
    obtain ⟨⟨segs₁, s₁⟩, turn, run⟩ := of_bind_ok run
    have first : Grown layout others maps segs₁ s s₁ := by
      unfold loadSegment at turn
      obtain ⟨-, turn⟩ := of_require_bind_ok turn
      obtain ⟨-, turn⟩ := of_require_bind_ok turn
      split at turn
      · obtain ⟨-, turn⟩ := of_require_bind_ok turn
        exact addSegment_grown inv turn
      · cases turn
        exact ⟨⟨others, List.Subset.refl _, inv⟩, fun _ _ => rfl⟩
    obtain ⟨others₁, more₁, inv₁⟩ := first.live
    have rest := ih inv₁ run
    obtain ⟨others₂, more₂, inv₂⟩ := rest.live
    refine ⟨⟨others₂, List.Subset.trans more₁ more₂, inv₂⟩, fun x spared => ?_⟩
    rw [rest.spares x (spared.mono more₁), first.spares x spared]

/-- A segment is copied into memory of its own, so what is spared stays as it is. -/
theorem populateSegment_spares {ph : Elf64Phdr} (addrspace : p.addrspace = layout.userPgd)
    (inv : MemInv layout others maps p.pt) (run : populateSegment elf ph p = .ok p') :
    p'.addrspace = layout.userPgd ∧ (∃ maps', MemInv layout others maps' p'.pt) ∧
      ∀ x, Spared layout others x → p'.pt.mem x = p.pt.mem x := by
  unfold populateSegment at run
  split at run
  swap
  · cases run
    exact ⟨addrspace, ⟨maps, inv⟩, fun _ _ => rfl⟩
  obtain ⟨mm, -, run⟩ := of_bind_ok run
  obtain ⟨⟨addr, p₁⟩, mapped, run⟩ := of_bind_ok run
  rw [elfMap_eq] at mapped
  obtain ⟨⟨v, pt⟩, alloc, mapped⟩ := of_bind_ok mapped
  cases mapped
  simp only at alloc
  rw [addrspace] at alloc
  obtain ⟨b, rfl, size_eq, inv₁, frame⟩ := inv.of_allocMap alloc
  obtain ⟨⟨code, pt'⟩, copied, run⟩ := of_bind_ok run
  cases run
  have inMaps : b ∈ blocksOf (maps ++ [(backing (ph.pVaddr / ph.pAlign * ph.pAlign)
      (alignTo (ph.pVaddr % ph.pAlign + ph.pMemsz) ph.pAlign) (elfProt ph.pFlags) b).landed]) :=
    mem_blocksOf_concat rfl
  -- the copy stays in the new block
  have stays : ∃ mem, pt' = { pt with mem } ∧ ∀ x, ¬ b.Has x → mem x = pt.mem x := by
    unfold copySegment at copied
    simp only at copied
    split at copied
    · cases copied
      exact ⟨pt.mem, rfl, fun _ _ => rfl⟩
    rename_i fileLe
    split at copied
    · cases copied
      exact ⟨pt.mem, rfl, fun _ _ => rfl⟩
    obtain ⟨-, copied⟩ := of_require_bind_ok copied
    obtain ⟨room, copied⟩ := of_require_bind_ok copied
    rw [copied_eq (by omega)] at copied
    cases copied
    exact ⟨_, rfl, fun x outside =>
      Mem.blit_of_outside (Block.outside_of_not_has (room.trans size_eq.ge) outside)⟩
  obtain ⟨mem, rfl, kept⟩ := stays
  refine ⟨addrspace, ⟨_, inv₁.store (List.mem_append_left _ inMaps) kept⟩, fun x spared => ?_⟩
  exact (kept x (spared.not_has inv₁ inMaps)).trans (frame x spared)

theorem populateSegments_spares {segs : List Segment} : ∀ {maps : List Mapping} {p : Process},
    p.addrspace = layout.userPgd → MemInv layout others maps p.pt →
    populateSegments elf segs p = .ok p' →
    p'.addrspace = layout.userPgd ∧ (∃ maps', MemInv layout others maps' p'.pt) ∧
      ∀ x, Spared layout others x → p'.pt.mem x = p.pt.mem x := by
  induction segs with
  | nil =>
    intro maps p addrspace inv run
    cases run
    exact ⟨addrspace, ⟨maps, inv⟩, fun _ _ => rfl⟩
  | cons seg segs ih =>
    intro maps p addrspace inv run
    rw [populateSegments] at run
    obtain ⟨p₁, turn, run⟩ := of_bind_ok run
    obtain ⟨addrspace₁, ⟨maps₁, inv₁⟩, frame₁⟩ := populateSegment_spares addrspace inv turn
    obtain ⟨addrspace₂, inv₂, frame₂⟩ := ih addrspace₁ inv₁ run
    exact ⟨addrspace₂, inv₂, fun x spared => (frame₂ x spared).trans (frame₁ x spared)⟩

/-- `elf_initialize` leaves the memory alone that was in use before it. -/
theorem elfInitialize_spares {ret : Int} (addrspace : p.addrspace = layout.userPgd)
    (inv : MemInv layout others maps p.pt) (run : elfInitialize p elf = .ok (ret, p')) {x : Nat}
    (spared : Spared layout others x) : p'.pt.mem x = p.pt.mem x := by
  unfold elfInitialize at run
  obtain ⟨-, run⟩ := of_require_bind_ok run
  obtain ⟨-, run⟩ := of_require_bind_ok run
  simp only at run
  split at run
  · cases run
    rfl
  split at run
  · cases run
    rfl
  obtain ⟨⟨segs, pt⟩, load, run⟩ := of_bind_ok run
  obtain ⟨q, populate, run⟩ := of_bind_ok run
  obtain ⟨heap, -, run⟩ := of_bind_ok run
  cases run
  have nothing : MemInv layout ([].map segBlock ++ others) maps p.pt := inv
  have grown := loadSegments_grown nothing load
  obtain ⟨others', more, inv₁⟩ := grown.live
  obtain ⟨p₁, p₁_eq⟩ : ∃ p₁, p₁ = { p with
    pt, entry := BitVec.ofNat 64 (elf.ehdr p.pt.mem).eEntry } := ⟨_, rfl⟩
  have pt_eq : p₁.pt = pt := by rw [p₁_eq]
  simp only [← p₁_eq] at populate
  rw [← pt_eq] at inv₁ grown
  obtain ⟨-, -, frame⟩ := populateSegments_spares (by rw [p₁_eq]; exact addrspace) inv₁ populate
  simp only
  rw [frame x ((spared.mono more).mono (List.subset_append_right _ _)), grown.spares x spared]

/-- `root_task_create` leaves the memory alone that was in use before it. -/
theorem rootTaskCreate_spares (inv : MemInv layout others [] s)
    (run : rootTaskCreate layout s = .ok p) {x : Nat} (spared : Spared layout others x) :
    p.pt.mem x = s.mem x := by
  unfold rootTaskCreate at run
  obtain ⟨p₁, boot, run⟩ := of_bind_ok run
  obtain ⟨-, loads, others', more, -, inv₁, addrspace, -, -⟩ := bootUserElf_ok inv boot
  have loaded : p₁.pt.mem x = s.mem x := by
    unfold bootUserElf at boot
    obtain ⟨⟨ret, p'⟩, init, boot⟩ := of_bind_ok boot
    obtain ⟨-, boot⟩ := of_require_bind_ok boot
    cases boot
    exact elfInitialize_spares (p := rootTask layout s) rfl inv init spared
  obtain ⟨pt₂, dev, run⟩ := of_bind_ok run
  obtain ⟨⟨stack, heap⟩, alloc, run⟩ := of_bind_ok run
  obtain ⟨pt₃, mapped, run⟩ := of_bind_ok run
  cases run
  rw [addrspace] at dev mapped
  obtain ⟨inv₂, frame₂⟩ := MemInv.of_map (m := devMapping) inv₁ devMapping_asked dev
  obtain ⟨source, -, paddr_eq, type_eq, asked, inv₃⟩ := stack_source inv₂ alloc
  have region_eq : (stackMapping source).region =
      ⟨vbaseToPbase (BitVec.ofNat 64 stack), userStackTop, defaultTaskStacksize⟩ := by
    unfold Mapping.region Mapping.paddr
    rw [show (stackMapping source).source = source from rfl, paddr_eq]
    rfl
  have kind_eq : (stackMapping source).type = .normal := type_eq
  rw [← region_eq, ← kind_eq] at mapped
  obtain ⟨-, frame₃⟩ := MemInv.of_map inv₃ asked mapped
  have spared' := spared.mono more
  exact (frame₃ x spared').trans ((frame₂ x spared').trans loaded)

end Loading

end Chinos
