import Chinos.Gran.FirstFit
import Chinos.Mm.Model
import Chinos.Paging.Small

/-!
# Who owns physical memory

Every page that a user table maps is either a device page or part of an allocation of
its own, and every table page is an allocation too. So the invariant of the granule heap,
that live allocations are apart, is what keeps frames, tables and kernel records apart.
The invariant here ties the three together: the list of live allocations, the history of
mappings, and the table in memory.
-/

namespace Chinos

/-! ## Where things are -/

/-- The addresses that the linker and `gran_initialize` settle: the kernel image with the
two static PGDs, the user ELF file behind it, and then the heap of 4 KiB granules, all
inside the 2 GiB of RAM. -/
structure Layout where
  geo : GranGeometry
  kernelPgd : U64
  userPgd : U64
  userStart : Nat
  userEnd : Nat
  log2gran : geo.log2gran = 12
  kernelPgd_aligned : kernelPgd.toNat % 2 ^ 12 = 0
  kernelPgd_ram : ramVbase ≤ kernelPgd
  userPgd_aligned : userPgd.toNat % 2 ^ 12 = 0
  userPgd_ram : ramVbase ≤ userPgd
  pgds_apart : kernelPgd ≠ userPgd
  kernelPgd_image : kernelPgd.toNat + 2 ^ 12 ≤ userStart
  userPgd_image : userPgd.toNat + 2 ^ 12 ≤ userStart
  user_le : userStart ≤ userEnd
  heap_le : userEnd ≤ geo.heapstart
  heap_aligned : geo.heapstart % 2 ^ 12 = 0
  heap_ram : geo.heapstart + geo.ngranules * 2 ^ 12 ≤ ramVbase.toNat + 2 ^ 31

theorem toNat_ramVbase : ramVbase.toNat = 0xffffff8000000000 := rfl

theorem toNat_ramPbase : ramPbase.toNat = 0x40000000 := rfl

/-- An address at or above `RAM_VBASE` lies in the linear map, which moves all of RAM by one
distance. -/
theorem phys_eq {v : U64} (ram : ramVbase.toNat ≤ v.toNat) :
    phys v = v.toNat - ramVbase.toNat + ramPbase.toNat := by
  have bound := v.isLt
  unfold phys vbaseToPbase
  rw [BitVec.toNat_add, BitVec.toNat_sub]
  rw [toNat_ramVbase] at *
  rw [toNat_ramPbase]
  omega

/-! ## Allocations -/

/-- The two allocations have no page in common. -/
def Block.Apart (a b : Block) : Prop :=
  a.addr + pageUp a.size ≤ b.addr ∨ b.addr + pageUp b.size ≤ a.addr

/-- The physical address at which an allocation begins. -/
def Block.phys (b : Block) : Nat := Chinos.phys (BitVec.ofNat 64 b.addr)

/-- Physical address `x` is in a page of the allocation. -/
def Block.Has (b : Block) (x : Nat) : Prop := b.phys ≤ x ∧ x < b.phys + pageUp b.size

theorem pageUp_pos {n : Nat} (pos : 0 < n) : 2 ^ 12 ≤ pageUp n := by
  unfold pageUp
  omega

theorem le_pageUp (n : Nat) : n ≤ pageUp n := by
  unfold pageUp
  omega

/-- The bytes that were asked for are in the pages of the allocation. -/
theorem Block.has_add {b : Block} {i : Nat} (lt : i < b.size) : b.Has (b.phys + i) := by
  have bound := le_pageUp b.size
  exact ⟨by omega, by omega⟩

/-- An address in no page of an allocation is in front of the bytes that were asked for, or
behind them. -/
theorem Block.outside_of_not_has {b : Block} {n x : Nat} (le : n ≤ b.size) (out : ¬ b.Has x) :
    x < b.phys ∨ b.phys + n ≤ x := by
  by_contra inside
  have bound := le_pageUp b.size
  exact out ⟨by omega, by omega⟩

theorem pageUp_mono {m n : Nat} (le : m ≤ n) : pageUp m ≤ pageUp n := by
  unfold pageUp
  omega

/-- The number of 4 KiB granules that `size` bytes take. -/
def granules (size : Nat) : Nat := (size + 4095) / 2 ^ 12

namespace Layout

variable (layout : Layout)

/-- The allocation lies in the heap up to the end of its last page, begins on a page boundary, and
is of a size that `gran_alloc` serves. -/
structure Placed (b : Block) : Prop where
  low : layout.geo.heapstart ≤ b.addr
  aligned : b.addr % 2 ^ 12 = 0
  high : b.addr + pageUp b.size ≤ layout.geo.heapstart + layout.geo.ngranules * 2 ^ 12
  pos : 0 < b.size
  le : b.size ≤ 2 ^ 17

theorem granule_eq : layout.geo.granule = 2 ^ 12 := by
  unfold GranGeometry.granule
  rw [layout.log2gran]

theorem count_mul (size : Nat) : layout.geo.count size * 2 ^ 12 = pageUp size := by
  unfold GranGeometry.count pageUp
  rw [granule_eq]
  rfl

/-- The number of granules of an allocation, for granules of one page. -/
theorem count_eq (size : Nat) : layout.geo.count size = granules size := by
  unfold GranGeometry.count granules
  rw [granule_eq]
  rfl

theorem request_iff {size : Nat} : layout.geo.Request size ↔ 0 < size ∧ size ≤ 2 ^ 17 := by
  unfold GranGeometry.Request
  rw [granule_eq]
  omega

variable {layout}

theorem Placed.ram {b : Block} (placed : layout.Placed b) : ramVbase.toNat ≤ b.addr := by
  have image := layout.userPgd_image
  have ram := BitVec.le_def.mp layout.userPgd_ram
  have user := layout.user_le
  have heap := layout.heap_le
  have low := placed.low
  omega

/-- Allocations are in the RAM that the kernel maps linearly. -/
theorem Placed.toNat_addr {b : Block} (placed : layout.Placed b) :
    (BitVec.ofNat 64 b.addr).toNat = b.addr ∧
      b.phys = b.addr - ramVbase.toNat + ramPbase.toNat ∧ b.phys % 2 ^ 12 = 0 ∧
      b.phys + pageUp b.size ≤ ramPbase.toNat + 2 ^ 31 := by
  have ram := placed.ram
  have high := placed.high
  have aligned := placed.aligned
  have pages := pageUp_pos placed.pos
  have top := layout.heap_ram
  have addr_eq : (BitVec.ofNat 64 b.addr).toNat = b.addr := by
    rw [toNat_ramVbase] at top
    rw [BitVec.toNat_ofNat]
    omega
  have phys_eq : b.phys = b.addr - ramVbase.toNat + ramPbase.toNat := by
    unfold Block.phys
    rw [Chinos.phys_eq (by omega), addr_eq]
  rw [toNat_ramVbase, toNat_ramPbase] at *
  exact ⟨addr_eq, phys_eq, by omega, by omega⟩

end Layout

/-- The order of the live allocations is of no account. -/
theorem HeapInv.perm {geo : GranGeometry} {gran : MmGran} {live live' : List Block}
    (inv : HeapInv geo ⟨gran, live⟩) (perm : live.Perm live') : HeapInv geo ⟨gran, live'⟩ where
  geometry := inv.geometry
  bit_iff i := by
    rw [inv.bit_iff i]
    simp only [perm.mem_iff]
  start block inside := inv.start block (perm.mem_iff.mpr inside)
  room block inside := inv.room block (perm.mem_iff.mpr inside)
  request block inside := inv.request block (perm.mem_iff.mpr inside)
  disjoint := (perm.pairwise_iff fun {a b} apart i both => apart i ⟨both.2, both.1⟩).mp inv.disjoint

section Alloc

variable {layout : Layout} {heap start : MmGran} {live rest : List Block} {mem : Mem}
  {size paid : Nat} {b : Block} {pgd : U64} {tables : List U64}

theorem HeapInv.placed (inv : HeapInv layout.geo ⟨heap, live⟩) (inLive : b ∈ live) :
    layout.Placed b := by
  have start := inv.start b inLive
  have room := Nat.mul_le_mul_right (2 ^ 12) (inv.room b inLive)
  have heapAligned := layout.heap_aligned
  obtain ⟨pos, le⟩ := layout.request_iff.mp (inv.request b inLive)
  rw [layout.granule_eq] at start
  rw [Nat.add_mul, layout.count_mul] at room
  exact ⟨by omega, by omega, by omega, pos, le⟩

theorem HeapInv.apart (inv : HeapInv layout.geo ⟨heap, live⟩) : live.Pairwise Block.Apart := by
  refine inv.disjoint.imp_of_mem fun {a b} inA inB disjoint => ?_
  have startA := inv.start a inA
  have startB := inv.start b inB
  have posA := GranGeometry.count_pos (inv.request a inA)
  have posB := GranGeometry.count_pos (inv.request b inB)
  have pagesA := layout.count_mul a.size
  have pagesB := layout.count_mul b.size
  rw [layout.granule_eq] at startA startB
  -- the later of the two first granules would be in both runs
  have runs := disjoint (max (layout.geo.index a.addr) (layout.geo.index b.addr))
  unfold GranGeometry.Owns at runs
  unfold Block.Apart
  omega

/-- `gran_alloc` finds nothing, if the free granules do not serve the request, or a new block
is live. -/
theorem granAlloc_block (size : Nat) (inv : HeapInv layout.geo ⟨heap, live⟩) (pos : 0 < size)
    (le : size ≤ 2 ^ 17) :
    (granAlloc heap size = .ok (0, heap) ∧ ¬ heap.Serves [granules size]) ∨
      ∃ b heap', b.size = size ∧ b.addr ≠ 0 ∧ granAlloc heap size = .ok (b.addr, heap') ∧
        HeapInv layout.geo ⟨heap', b :: live⟩ ∧ heap.After [granules size] heap' := by
  have request := layout.request_iff.mpr ⟨pos, le⟩
  have gran : layout.geo.log2gran ≤ 26 := by rw [layout.log2gran]; decide
  rw [← layout.count_eq]
  rcases granAlloc_serves inv.geometry gran request with
    failed | ⟨i, heap', run, fits, same, bits, after⟩
  · exact .inl failed
  · have start := layout.geo.heapstart_pos
    exact .inr ⟨⟨layout.geo.heapstart + i * layout.geo.granule, size⟩, heap', rfl,
      by simp only; omega, run, inv.insert request fits same bits, after⟩

/-- With a cleared block: it runs out of memory, or a new block is live. -/
theorem granCalloc_spec (size : Nat) (inv : HeapInv layout.geo ⟨heap, live⟩) (pos : 0 < size)
    (le : size ≤ 2 ^ 17) (mem : Mem) :
    (granCalloc size heap mem = .error .null ∧ ¬ heap.Serves [granules size]) ∨
      ∃ b heap', b.size = size ∧ HeapInv layout.geo ⟨heap', b :: live⟩ ∧
        granCalloc size heap mem =
          .ok (BitVec.ofNat 64 b.addr, heap', mem.fill b.phys size 0) ∧
        heap.After [granules size] heap' := by
  unfold granCalloc
  rcases granAlloc_block size inv pos le with
    ⟨run, full⟩ | ⟨b, heap', size_eq, found, run, inv', after⟩
  · rw [run, ok_bind]
    simp only
    rw [require_bind_of_neg (by omega)]
    exact .inl ⟨rfl, full⟩
  · rw [run, ok_bind]
    simp only
    rw [require_bind_of_pos (.inl found)]
    exact .inr ⟨b, heap', size_eq, inv', rfl, after⟩

/-- More than 32 granules at once stop the kernel. -/
theorem granCalloc_of_large (inv : HeapInv layout.geo ⟨heap, live⟩) (large : 2 ^ 17 < size) :
    granCalloc size heap mem = .error .assertion := by
  have limit : ¬ size ≤ granLimit heap.log2gran := by
    rw [inv.geometry.log2gran, layout.log2gran, show granLimit 12 = 2 ^ 17 by decide]
    omega
  unfold granCalloc granAlloc
  rw [require_bind_of_neg limit]
  rfl

/-! ## Table pages -/

/-- A table page as an allocation of the granule heap. -/
def pageBlock (page : U64) : Block := ⟨page.toNat, 2 ^ 12⟩

/-- The tables are the PGD, which is static, and allocations; `rest` is what else is live. -/
def Layout.Good (layout : Layout) (pgd : U64) (rest : List Block) (heap : MmGran)
    (tables : List U64) : Prop :=
  ∃ pages, tables = pages ++ [pgd] ∧ HeapInv layout.geo ⟨heap, pages.map pageBlock ++ rest⟩

theorem Block.phys_eq_toPhys (page : U64) :
    (pageBlock page).phys = (linearView.toPhys page).toNat := by
  unfold Block.phys pageBlock Chinos.phys
  rw [BitVec.ofNat_toNat, BitVec.setWidth_eq]
  rfl

/-- `pt_calloc` takes the lowest free granule and clears it. -/
theorem ptCalloc_step (below : pgd.toNat < layout.geo.heapstart)
    (good : layout.Good pgd rest heap tables) (mem : Mem) :
    (ptCalloc heap mem = .error .null ∧ ¬ heap.Serves [1]) ∨
      ∃ page heap' mem', ptCalloc heap mem = .ok (page, heap', mem') ∧
        FreshPage linearView tables mem mem' page ∧ layout.Good pgd rest heap' (page :: tables) ∧
        heap.After [1] heap' := by
  obtain ⟨pages, tables_eq, inv⟩ := good
  rcases granCalloc_spec 4096 inv (by omega) (by omega) mem with
    failed | ⟨b, heap', size_eq, inv', run, after⟩
  · exact .inl failed
  refine .inr ⟨_, heap', _, run, ?_, ?_, after⟩
  · have placed := inv'.placed (.head _)
    obtain ⟨addr_eq, phys_eq, -, -⟩ := placed.toNat_addr
    have phys_eq' : (linearView.toPhys (BitVec.ofNat 64 b.addr)).toNat = b.phys := rfl
    refine ⟨linearView_isPage (by rw [addr_eq]; exact placed.aligned)
      (BitVec.le_def.mpr (by rw [addr_eq]; exact placed.ram)), ?_, ?_, ?_⟩
    · rw [tables_eq]
      intro inside
      rcases List.mem_append.mp inside with old | isPgd
      · have apart := (List.pairwise_cons.mp inv'.apart).1 (pageBlock (BitVec.ofNat 64 b.addr))
          (List.mem_append_left _ (List.mem_map_of_mem old))
        have pages := pageUp_pos placed.pos
        simp only [Block.Apart, pageBlock, addr_eq] at apart
        have full : pageUp (2 ^ 12) = 2 ^ 12 := by decide
        omega
      · rw [List.mem_singleton] at isPgd
        have low := placed.low
        rw [← isPgd, addr_eq] at below
        omega
    · intro k small
      refine entry_eq_zero ?_ small
      rintro x ⟨low, high⟩
      rw [phys_eq'] at low high
      exact Mem.fill_of_inside low high
    · intro x outside
      rw [phys_eq'] at outside
      exact Mem.fill_of_outside outside
  · refine ⟨BitVec.ofNat 64 b.addr :: pages, by rw [tables_eq]; rfl, ?_⟩
    have same : pageBlock (BitVec.ofNat 64 b.addr) = b := by
      unfold pageBlock
      rw [(inv'.placed (.head _)).toNat_addr.1]
      exact congrArg (Block.mk b.addr) size_eq.symm
    rw [List.map_cons, same]
    exact inv'

/-- `pt_calloc` is an allocator that `pt_map` can work with. -/
theorem ptCalloc_spec (below : pgd.toNat < layout.geo.heapstart) :
    AllocSpec linearView ptCalloc (layout.Good pgd rest) := by
  refine ⟨fun mem good => ?_⟩
  rcases ptCalloc_step below good mem with
    ⟨failed, -⟩ | ⟨page, heap', mem', run, fresh, good', -⟩
  · exact .inl failed
  · exact .inr ⟨page, heap', mem', run, fresh, good'⟩

/-- The invariant of an allocator whose use is metered: every page beyond the first `paid` is a
granule that was taken from `start`. -/
structure Layout.Metered (layout : Layout) (pgd : U64) (rest : List Block) (start : MmGran)
    (paid : Nat) (heap : MmGran) (tables : List U64) : Prop where
  good : layout.Good pgd rest heap tables
  le : paid ≤ tables.length
  after : start.After (List.replicate (tables.length - paid) 1) heap

theorem ptCalloc_metered (below : pgd.toNat < layout.geo.heapstart) :
    AllocSpec linearView ptCalloc (layout.Metered pgd rest start paid) := by
  refine ⟨fun {heap tables} mem metered => ?_⟩
  rcases ptCalloc_step below metered.good mem with
    ⟨failed, -⟩ | ⟨page, heap', mem', run, fresh, good', after⟩
  · exact .inl failed
  · have le := metered.le
    have count : (page :: tables).length - paid = tables.length - paid + 1 := by
      rw [List.length_cons]
      omega
    refine .inr ⟨page, heap', mem', run, fresh, good', ?_, ?_⟩
    · rw [List.length_cons]
      omega
    · rw [count]
      exact metered.after.succ after

/-- With fewer pages than are needed and no granule left, the heap did not have enough. -/
theorem Layout.Metered.not_serves (metered : layout.Metered pgd rest start paid heap tables)
    (below : pgd.toNat < layout.geo.heapstart) (failed : ptCalloc heap mem = .error .null)
    {n : Nat} (fewer : tables.length < paid + n) : ¬ start.Serves (List.replicate n 1) := by
  have le := metered.le
  rcases ptCalloc_step below metered.good mem with ⟨-, full⟩ | ⟨page, heap', mem', run, -⟩
  · exact metered.after.not_serves full (by omega)
  · cases failed.symm.trans run

end Alloc

end Chinos
