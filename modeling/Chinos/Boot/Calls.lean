import Chinos.Boot.Safety

/-!
# What a memory call leaves

An area that `sys_mmap` returns is backed by cleared frames that were free, and nothing else
is mapped differently, as long as it lies below `2 ^ 39`. The address is not compared with
that bound: an area above it is recorded and returned as well, but what is mapped are the
addresses `2 ^ 39` below it, or a multiple of that.

When the heap is exhausted no call fails in order. Every `calloc` of the kernel clears what
`gran_alloc` returned before anyone looks at it.
-/

namespace Chinos

/-! ## Frames that are free -/

/-- The frame of physical address `x` is a free granule of the heap. -/
def MmGran.FreeAt (gran : MmGran) (x : Nat) : Prop :=
  ∃ i < gran.ngranules, gran.bit i = false ∧
    phys (BitVec.ofNat 64 (gran.addr i)) / 2 ^ 12 = x / 2 ^ 12

section Free

variable {layout : Layout} {others others' live : List Block} {maps : List Mapping}
  {s s' : PtState MmGran} {heap : MmGran} {m : Mapping} {b : Block} {x : Nat}

/-- A frame of the heap that no live allocation has is free. -/
theorem HeapInv.freeAt (inv : HeapInv layout.geo ⟨heap, live⟩) (placed : layout.Placed b)
    (has : b.Has x) (unused : ∀ c ∈ live, ¬ c.Has x) : heap.FreeAt x := by
  obtain ⟨-, phys_b, -, -⟩ := placed.toNat_addr
  obtain ⟨low, high⟩ := has
  have ram := placed.ram
  have above := placed.low
  have below := placed.high
  have aligned := placed.aligned
  have heapAligned := layout.heap_aligned
  -- the granule of the frame
  obtain ⟨i, i_eq⟩ : ∃ i, i = (b.addr + (x - b.phys) - layout.geo.heapstart) / 2 ^ 12 := ⟨_, rfl⟩
  have inHeap : i < layout.geo.ngranules := by omega
  have addr_eq : heap.addr i = layout.geo.heapstart + i * 2 ^ 12 := by
    rw [inv.geometry.addr_eq inHeap, layout.granule_eq]
  have top := layout.heap_ram
  have addr_fits : (BitVec.ofNat 64 (heap.addr i)).toNat = heap.addr i := by
    rw [toNat_ramVbase] at top
    rw [BitVec.toNat_ofNat]
    omega
  refine ⟨i, by rw [inv.geometry.ngranules]; exact inHeap, ?_, ?_⟩
  · by_contra used
    obtain ⟨c, inLive, first, last⟩ := (inv.bit_iff i).mp (by simpa using used)
    have start := inv.start c inLive
    have pages := layout.count_mul c.size
    have placed_c := inv.placed inLive
    obtain ⟨-, phys_c, -, -⟩ := placed_c.toNat_addr
    have ram_c := placed_c.ram
    rw [layout.granule_eq] at start
    exact unused c inLive ⟨by omega, by omega⟩
  · rw [phys_eq (by rw [addr_fits]; omega), addr_fits, addr_eq]
    rw [toNat_ramVbase, toNat_ramPbase] at *
    omega

/-- The memory of a new mapping was not in use before the call, so that nothing else is found
through it. -/
theorem MemInv.freeAt (inv : MemInv layout others maps s)
    (inv' : MemInv layout others' (maps ++ [m]) s') (tables : s.tables ⊆ s'.tables)
    (more : others ⊆ others') (block : m.block = some b) (has : b.Has x) : s.heap.FreeAt x := by
  have live : b ∈ blocksOf (maps ++ [m]) ++ others' :=
    List.mem_append_left _ (mem_blocksOf_concat block)
  have placed := inv'.good.placed live
  have apart : ∀ c ∈ blocksOf maps ++ others', b.Apart c := inv'.good.apart_concat block
  obtain ⟨pages, tables_eq, heapInv⟩ := inv.good
  refine heapInv.freeAt placed has fun c inLive => ?_
  rcases List.mem_append.mp inLive with isPage | isBlock
  · obtain ⟨q, inPages, rfl⟩ := List.mem_map.mp isPage
    rw [pageBlock_has]
    refine inv'.good.not_inPage live has (tables ?_)
    rw [tables_eq]
    exact List.mem_append_left _ inPages
  · have inside : c ∈ blocksOf maps ++ others' := by
      rcases List.mem_append.mp isBlock with inMaps | inOthers
      · exact List.mem_append_left _ inMaps
      · exact List.mem_append_right _ (more inOthers)
    exact (apart c inside).not_has placed (heapInv.placed inLive) has

end Free

/-! ## The area of `sys_mmap` -/

/-- Between `p` and `p'` the `size` bytes at `r` have been mapped, each page to a frame of its
own that was free and is clear, and nothing else is translated differently. -/
structure AreaOnly (p p' : Process) (r : U64) (size : Nat) : Prop where
  mapped : ∀ v, r.toNat ≤ v → v < r.toNat + size → ∃ leaf, p'.translate v = some leaf ∧
    p.pt.heap.FreeAt leaf.pa ∧ p'.pt.mem leaf.pa = 0
  distinct : ∀ v w leaf leaf', (r.toNat ≤ v ∧ v < r.toNat + size) →
    (r.toNat ≤ w ∧ w < r.toNat + size) → p'.translate v = some leaf →
    p'.translate w = some leaf' → leaf.pa / 2 ^ 12 = leaf'.pa / 2 ^ 12 → v / 2 ^ 12 = w / 2 ^ 12
  frame : ∀ v, ¬ (r.toNat ≤ v ∧ v < r.toNat + size) → p'.translate v = p.translate v

section Mmap

variable {layout : Layout} {others : List Block} {maps : List Mapping} {p p' : Process}
  {start len prot flags fd off r : U64}

/-- A range that is in reach of the table and begins in the lower half ends there. -/
theorem Backable.fits {vaddr size : U64} (backable : Backable vaddr size)
    (low : vaddr.toNat < 2 ^ 39) : vaddr.toNat + pageUp size.toNat ≤ 2 ^ 39 := by
  have stop : (⟨vaddr, 0, size, 0⟩ : MapCall).stop = vaddr.toNat + pageUp size.toNat :=
    MapCall.stop_eq_add backable.aligned
  have base : (⟨vaddr, 0, size, 0⟩ : MapCall).base = 0 := by
    unfold MapCall.base
    simp only
    omega
  have near : pageUp size.toNat ≤ pageUp (2 ^ 17) := pageUp_mono backable.le
  have full : pageUp (2 ^ 17) = 2 ^ 17 := by decide
  rcases backable.mappable with top | ⟨inside, -⟩
  · omega
  · omega

theorem pageUp_alignPage (len : U64) : pageUp (alignPage len).toNat = (alignPage len).toNat := by
  have aligned := alignPage_aligned len
  unfold pageUp
  omega

/-- A length that is not rounded up to 0 is rounded up without a wrap. -/
theorem toNat_alignPage_of_pos {len : U64} (pos : 0 < (alignPage len).toNat) :
    (alignPage len).toNat = pageUp len.toNat := by
  have bound := len.isLt
  have rounded : pageUp len.toNat ≤ 2 ^ 64 := by
    unfold pageUp
    omega
  rw [toNat_alignPage] at pos ⊢
  omega

/-- A call of `sys_mmap` that returns an address: where its area is, and what backs it. -/
theorem sysMmap_ok (inv : MmInv layout others maps p)
    (call : sysMmap p start len prot flags fd off = .ok (r, p')) (accepted : ¬ IsErrValue r) :
    r = mmapStart p start len ∧ Backable r (alignPage len) ∧
      ∃ b others', MmInv layout others' (maps ++ [(backing r (alignPage len)
          (prot.setWidth 32) b).landed]) p' ∧
        (∀ x, b.Has x → p.pt.heap.FreeAt x) ∧
        ∀ i < (alignPage len).toNat, p'.pt.mem (b.phys + i) = 0 := by
  have valid : ¬ MmapIdle len flags := by
    intro idle
    cases (sysMmap_of_idle fd off idle).symm.trans call
    exact accepted (by decide)
  have backable : Backable (mmapStart p start len) (alignPage len) := by
    by_contra refused
    exact sysMmap_ne_ok fd off inv (not_or.mpr ⟨valid, refused⟩) _ call
  rcases sysMmap_backed fd off inv valid backable with
    ⟨failed, -⟩ | ⟨record, pt, b, run, inv', tables, size_eq, clear, -⟩
  · cases failed.symm.trans call
  cases run.symm.trans call
  have answer : mmapAnswer (mmapStart p start len) = mmapStart p start len := by
    unfold mmapAnswer at accepted ⊢
    split at accepted
    · exact absurd (by decide) accepted
    · rename_i regular
      exact if_neg regular
  rw [answer]
  refine ⟨rfl, backable, b, others, inv', fun x has => ?_, clear⟩
  refine inv.mem.freeAt inv'.mem tables ?_ rfl has
  exact List.subset_cons_self _ _

end Mmap

section Area

variable {boot : Boot} {k : Booted} {p p' : Process} {start len prot flags fd off r : U64}

/-- In every state that is reached, a call of `sys_mmap` that returns an address has mapped
its area and nothing else exactly if the range that was asked for lies wholly below `2 ^ 39`:
the hint with the length, or the range below the area recorded last. -/
theorem mmap_area_only_iff (run : initKernel boot = .ok k) (runs : MmRuns anyCall k.root p)
    (call : sysMmap p start len prot flags fd off = .ok (r, p')) (accepted : ¬ IsErrValue r) :
    AreaOnly p p' r (alignPage len).toNat ↔
      p.mm.low start len + pageUp len.toNat ≤ 2 ^ 39 := by
  obtain ⟨others, maps, reached⟩ := reached run runs
  have inv := reached.inv
  obtain ⟨start_eq, backable, b, others', inv', free, clear⟩ := sysMmap_ok inv call accepted
  have pos := backable.pos
  rw [← toNat_mmapStart, ← start_eq, ← toNat_alignPage_of_pos pos]
  constructor
  · intro area
    -- the first page of the area is translated
    obtain ⟨leaf, found, -⟩ := area.mapped r.toNat le_rfl (Nat.lt_add_of_pos_right pos)
    have fits := backable.fits (inv'.of_translate found).1
    rwa [pageUp_alignPage] at fits
  · intro whole
    have low : r.toNat < 2 ^ 39 := by omega
    have fits := backable.fits low
    rw [backing_landed backable.aligned fits] at inv'
    obtain ⟨m, m_eq⟩ : ∃ m, m = backing r (alignPage len) (prot.setWidth 32) b := ⟨_, rfl⟩
    rw [← m_eq] at inv'
    have covers : ∀ v, m.Covers v ↔ r.toNat ≤ v ∧ v < r.toNat + (alignPage len).toNat := by
      intro v
      rw [m_eq, backing_covers backable.aligned low, pageUp_alignPage]
    have ok := inv'.mem.ok m (List.mem_append_right _ (.head _))
    have inside : ∀ v, m.Covers v → p'.translate v = some (m.call.range.leaf v) := by
      intro v isCovered
      have below := ((covers v).mp isCovered).2
      rw [pageUp_alignPage] at fits
      rw [inv'.translate_eq, if_pos (by omega), leafOf_maps_concat, if_pos isCovered]
    have pa_eq : ∀ v, m.Covers v → (m.call.range.leaf v).pa = b.phys + (v - r.toNat) := by
      intro v isCovered
      have lo : m.call.range.lo = r.toNat := by
        rw [MapCall.lo_eq, m_eq]
        exact Nat.mod_eq_of_lt low
      have frame : m.paddr.toNat = b.phys := by
        rw [m_eq]
        rfl
      rw [ok.leaf_eq isCovered, lo, frame]
    refine ⟨fun v above below => ?_, fun v w leaf leaf' inV inW found found' same => ?_,
      fun v outside => ?_⟩
    · have isCovered := (covers v).mpr ⟨above, below⟩
      refine ⟨_, inside v isCovered, free _ ?_, ?_⟩
      · exact ok.has (by rw [m_eq]; rfl) isCovered
      · rw [pa_eq v isCovered]
        exact clear _ (by omega)
    · cases (inside v ((covers v).mpr inV)).symm.trans found
      cases (inside w ((covers w).mpr inW)).symm.trans found'
      exact ok.page_eq ((covers v).mpr inV) ((covers w).mpr inW) same
    · rw [inv'.translate_eq, inv.translate_eq, leafOf_maps_concat,
        if_neg fun isCovered => outside ((covers v).mp isCovered)]

/-- A page at a low hint is mapped and nothing else; the page above the lower half is not. -/
theorem mmap_area_only_iff_sample : ∃ k p p' r p₁ r₁,
    initKernel (sampleBoot sampleFile) = .ok k ∧ runCalls sampleCalls k.root = .ok p ∧
    sysMmap p 0x500000 100 3 0x22 0 0 = .ok (r, p') ∧ AreaOnly p p' r (alignPage 100).toNat ∧
    sysMmap p 0x8000000000 100 3 0x22 0 0 = .ok (r₁, p₁) ∧
    ¬ AreaOnly p p₁ r₁ (alignPage 100).toNat := by
  have evaluated : Returns (initKernel (sampleBoot sampleFile)) fun k =>
      Returns (runCalls sampleCalls k.root) fun p =>
        Returns (sysMmap p 0x500000 100 3 0x22 0 0) (fun result =>
          ¬ IsErrValue result.1 ∧ p.mm.low 0x500000 100 + pageUp 100 ≤ 2 ^ 39) ∧
        Returns (sysMmap p 0x8000000000 100 3 0x22 0 0) fun result =>
          ¬ IsErrValue result.1 ∧ ¬ p.mm.low 0x8000000000 100 + pageUp 100 ≤ 2 ^ 39 := by
    decide +kernel
  obtain ⟨k, run, p, calls, ⟨⟨r, p'⟩, call, accepted, below⟩, ⟨r₁, p₁⟩, call₁, accepted₁, above⟩ :=
    evaluated
  have runs := MmRuns.start.of_runCalls calls
  exact ⟨k, p, p', r, p₁, r₁, run, calls, call,
    (mmap_area_only_iff run runs call accepted).mpr below, call₁,
    fun only => above ((mmap_area_only_iff run runs call₁ accepted₁).mp only)⟩

/-- With a hint of `2 ^ 39 + 0x400000`, the area that is returned is not mapped, and the code
at `0x400000` is replaced. -/
theorem high_area_replaces_code : Returns (initKernel (sampleBoot sampleFile)) fun k =>
    Returns (sysMmap k.root 0x8000400000 0x1000 3 0x22 0 0) fun result =>
      result.1 = 0x8000400000 ∧ result.2.translate 0x8000400000 = none ∧
      ∃ leaf ∈ k.root.translate 0x400000, ∃ leaf' ∈ result.2.translate 0x400000,
        leaf.pa ≠ leaf'.pa := by
  decide +kernel

end Area

/-! ## A heap that is exhausted -/

/-- `pt_calloc`, with `fault` for what comes of a `NULL` from `gran_alloc`. -/
def ptCallocOr (fault : Fault) : PtAlloc MmGran := fun heap mem => do
  let (p, heap) ← granAlloc heap 4096
  require (p ≠ 0) fault
  return (BitVec.ofNat 64 p, heap, mem.fill (phys (BitVec.ofNat 64 p)) 4096 0)

/-- While a range is backed, a `gran_alloc` returns `NULL`: the one for its memory, or one for
a page of the table. The latter is where the call ends, whatever comes of it. -/
inductive BackingNull (addrspace vaddr size : U64) (prot : BitVec 32) (s : PtState MmGran) : Prop
  | memory {heap : MmGran} (none : granAlloc s.heap size.toNat = .ok (0, heap))
  | table {v : U64} {s' : PtState MmGran} (alloc : mmapCalloc s size.toNat = .ok (v, s'))
      (none : ∀ fault, ptMap (ptCallocOr fault) addrspace vaddr (vbaseToPbase v) size
        (asAttr prot .normal) s' = .error fault)

/-- During the call a `gran_alloc` returns `NULL`: for the growth of the heap, for the record
of an area, or for the area. -/
inductive MmCall.AllocNull (p : Process) : MmCall → Prop
  | brk {addr : U64} (grow : ¬ BrkIdle p addr)
      (null : BackingNull p.addrspace p.mm.brk (BitVec.ofInt 64 (p.growth addr))
        (protRead ||| protWrite) p.pt) : AllocNull p (.brk addr)
  | record {start len prot flags fd off : U64} {heap : MmGran} (valid : ¬ MmapIdle len flags)
      (none : granAlloc p.pt.heap sizeofVmArea = .ok (0, heap)) :
      AllocNull p (.mmap start len prot flags fd off)
  | area {start len prot flags fd off record : U64} {pt : PtState MmGran}
      (valid : ¬ MmapIdle len flags) (alloc : mmapCalloc p.pt sizeofVmArea = .ok (record, pt))
      (null : BackingNull p.addrspace (mmapStart p start len) (alignPage len)
        (prot.setWidth 32) pt) : AllocNull p (.mmap start len prot flags fd off)

/-- The value that says that a call has failed. -/
def MmCall.FailsWith (p : Process) (ret : U64) : MmCall → Prop
  | .brk _ => ret = p.mm.brk
  | .mmap .. => IsErrValue ret

/-- The call fails and leaves the task as it was. -/
def MmCall.Undone (p : Process) (c : MmCall) : Prop :=
  Returns (c.run p) fun result => c.FailsWith p result.1 ∧ result.2.mm.brk = p.mm.brk ∧
    result.2.mm.areas = p.mm.areas ∧ ∀ v, result.2.translate v = p.translate v

section Null

variable {p : Process} {c : MmCall} {s : PtState MmGran} {addrspace vaddr size : U64}
  {prot : BitVec 32}

theorem ptCalloc_eq : ptCalloc = ptCallocOr .null := by
  funext heap mem
  unfold ptCalloc granCalloc ptCallocOr
  refine bind_congr fun (v, heap) => ?_
  simp

theorem mmapCalloc_of_null {n : Nat} {heap : MmGran} (none : granAlloc s.heap n = .ok (0, heap))
    (pos : 0 < n) : mmapCalloc s n = .error .null := by
  unfold mmapCalloc granCalloc
  rw [none, ok_bind]
  simp only
  rw [require_bind_of_neg (by omega)]
  rfl

/-- `pt_map` asserts that the size is positive, so a range that is empty stops the kernel. -/
theorem asMap_of_empty {v : U64} (empty : size.toNat = 0) :
    asMap addrspace ⟨v, vaddr, size⟩ prot .normal s = .error .assertion := by
  have zero : ¬ size ≠ 0 := not_not_intro (BitVec.eq_of_toNat_eq empty)
  unfold asMap ptMap ptMapWith
  simp only [require_bind_of_neg zero]
  unfold require
  split
  · split
    · split
      · rfl
      · rfl
    · rfl
  · rfl

/-- A range with an allocation that failed is not backed: the kernel writes through `NULL`, or
there was nothing to back and an assertion stops it. -/
theorem allocMap_of_null (null : BackingNull addrspace vaddr size prot s) :
    allocMap addrspace vaddr size prot s = .error .null ∨
      allocMap addrspace vaddr size prot s = .error .assertion := by
  unfold allocMap
  cases null with
  | memory none =>
    rcases Nat.eq_zero_or_pos size.toNat with empty | pos
    · unfold mmapCalloc granCalloc
      rw [none, ok_bind]
      simp only
      rw [require_bind_of_pos (.inr empty)]
      refine .inr ?_
      simp only [pure_bind, asMap_of_empty empty]
      rfl
    · rw [mmapCalloc_of_null none pos]
      exact .inl rfl
  | table alloc none =>
    rw [alloc, ok_bind]
    simp only
    unfold asMap
    rw [ptCalloc_eq, none .null]
    exact .inl rfl

theorem MmCall.AllocNull.stops (null : c.AllocNull p) :
    Stops (c.run p) .null ∨ Stops (c.run p) .assertion := by
  cases null with
  | brk grow null =>
    unfold Stops MmCall.run
    simp only
    rw [sysBrk_of_grow grow]
    rcases allocMap_of_null null with failed | failed
    · rw [failed]
      exact .inl rfl
    · rw [failed]
      exact .inr rfl
  | record valid none =>
    unfold Stops MmCall.run
    simp only
    rw [sysMmap_of_area _ _ valid, mmapCalloc_of_null none (by decide)]
    exact .inl rfl
  | area valid alloc null =>
    unfold Stops MmCall.run
    simp only
    rw [sysMmap_of_area _ _ valid, alloc, ok_bind]
    rcases allocMap_of_null null with failed | failed
    · simp only [failed]
      exact .inl rfl
    · simp only [failed]
      exact .inr rfl

/-- A call during which a `gran_alloc` returns `NULL` never fails in order: the kernel stops. -/
theorem out_of_memory_not_undone (null : c.AllocNull p) :
    ¬ c.Undone p ∧ (Stops (c.run p) .null ∨ Stops (c.run p) .assertion) := by
  have stops := null.stops
  refine ⟨?_, stops⟩
  rintro ⟨result, run, -⟩
  rcases stops with failed | failed
  · cases failed.symm.trans run
  · cases failed.symm.trans run

end Null

/-- Four areas of 32 granules, which leave 15 of them. -/
def fourAreas : List MmCall := List.replicate 4 (.mmap 0 0x20000 3 0x22 0 0)

theorem out_of_memory_not_undone_sample : ∃ k p, initKernel (sampleBoot sampleFile) = .ok k ∧
    runCalls fourAreas k.root = .ok p ∧ ¬ (MmCall.brk 0x431000).Undone p := by
  have evaluated : Returns (initKernel (sampleBoot sampleFile)) fun k =>
      Returns (runCalls fourAreas k.root) fun p =>
        (¬ 0x431000 < p.mm.startBrk ∧ ¬ p.growth 0x431000 ≤ 0) ∧
        Returns (granAlloc p.pt.heap (BitVec.ofInt 64 (p.growth 0x431000)).toNat) fun r =>
          r.1 = 0 := by
    decide +kernel
  obtain ⟨k, run, p, calls, grow, ⟨v, heap⟩, alloc, none⟩ := evaluated
  rw [show v = 0 from none] at alloc
  exact ⟨k, p, run, calls,
    (out_of_memory_not_undone (.brk (not_or.mpr grow) (.memory alloc))).1⟩

/-- With these, a break that is raised by 32 granules and one more area each end in a write
through `NULL`. -/
theorem exhausted_heap_stops_kernel : Returns (initKernel (sampleBoot sampleFile)) fun k =>
    Returns (runCalls fourAreas k.root) fun p =>
      (Returns (granAlloc p.pt.heap 0x20000) fun r => r.1 = 0) ∧ p.mm.brk = 0x411000 ∧
      Stops ((MmCall.brk 0x431000).run p) .null ∧
      Stops ((MmCall.mmap 0 0x20000 3 0x22 0 0).run p) .null := by
  decide +kernel

end Chinos
