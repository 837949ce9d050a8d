import Chinos.Mm.Inv

/-!
# What `sys_brk` and `sys_mmap` do

For each call, a condition on its arguments and the state before it says when it is
served, and a list of requests says what it takes from the heap. A call that is served
returns and keeps the memory invariant if the free granules are enough for its requests; if
they are not, it uses a null pointer. One that is not served never returns: an assertion
fails, or `pt_map` runs past the end of the PGD. What the processor does at a null pointer
or with the word behind the PGD is not modelled; the run ends there.
-/

namespace Chinos

/-- The record of an area as an allocation of the granule heap. -/
def recordBlock (area : VmArea) : Block := ⟨area.addr.toNat, sizeofVmArea⟩

/-- The memory invariant of a task: next to `others`, the records of its areas are live. -/
structure MmInv (layout : Layout) (others : List Block) (maps : List Mapping) (p : Process) :
    Prop where
  addrspace : p.addrspace = layout.userPgd
  mem : MemInv layout (p.mm.areas.map recordBlock ++ others) maps p.pt
  base_aligned : p.mm.mmapBase.toNat % 2 ^ 12 = 0
  areas_aligned : ∀ area ∈ p.mm.areas, area.vmStart.toNat % 2 ^ 12 = 0

/-- `pt_map` can map the range: the call for it is one that returns if there is memory for its
tables. -/
def Mappable (vaddr size : U64) : Prop := (⟨vaddr, 0, size, 0⟩ : MapCall).Lands

instance (vaddr size : U64) : Decidable (Mappable vaddr size) :=
  inferInstanceAs (Decidable (MapCall.Lands _))

theorem Mapping.lands_iff (m : Mapping) : m.call.Lands ↔ Mappable m.vaddr m.size := by
  unfold Mappable MapCall.Lands MapCall.stop MapCall.base
  exact Iff.rfl

section Calls

variable {layout : Layout} {others : List Block} {maps : List Mapping} {p p' : Process}
  {s s' : PtState MmGran}

theorem mmapCalloc_of_large {size : Nat} (inv : MemInv layout others maps s)
    (large : 2 ^ 17 < size) : mmapCalloc s size = .error .assertion := by
  obtain ⟨pages, -, heapInv⟩ := inv.good
  unfold mmapCalloc
  rw [granCalloc_of_large heapInv large]
  rfl

/-! ## Memory of its own for a range -/

/-- What `sys_brk`, `mmap_region` and `elf_map` do to back a range: cleared memory from the
heap, mapped there. -/
def allocMap (addrspace vaddr size : U64) (prot : BitVec 32) (s : PtState MmGran) :
    Except Fault (U64 × PtState MmGran) := do
  let (v, s) ← mmapCalloc s size.toNat
  let s ← asMap addrspace ⟨vbaseToPbase v, vaddr, size⟩ prot .normal s
  return (v, s)

/-- The range can be backed: 1 to 32 granules from a page boundary on, in reach of the
table. -/
structure Backable (vaddr size : U64) : Prop where
  pos : 0 < size.toNat
  le : size.toNat ≤ 2 ^ 17
  aligned : vaddr.toNat % 2 ^ 12 = 0
  mappable : Mappable vaddr size

instance (vaddr size : U64) : Decidable (Backable vaddr size) :=
  decidable_of_iff (0 < size.toNat ∧ size.toNat ≤ 2 ^ 17 ∧ vaddr.toNat % 2 ^ 12 = 0 ∧
      Mappable vaddr size)
    ⟨fun ⟨pos, le, aligned, mappable⟩ => ⟨pos, le, aligned, mappable⟩,
      fun backable => ⟨backable.pos, backable.le, backable.aligned, backable.mappable⟩⟩

variable {vaddr size : U64} {prot : BitVec 32}

/-- The mapping that a range gets when it is backed by the block `b`. -/
def backing (vaddr size : U64) (prot : BitVec 32) (b : Block) : Mapping :=
  ⟨vaddr, size, prot, .block b⟩

theorem backing_asked {b : Block} (placed : layout.Placed b) (size_eq : b.size = size.toNat)
    (pos : 0 < size.toNat) (aligned : vaddr.toNat % 2 ^ 12 = 0) :
    (backing vaddr size prot b).Asked layout where
  aligned := aligned
  pos := pos
  backed b' same := by
    obtain rfl : b = b' := Option.some.inj same
    exact ⟨placed, size_eq ▸ le_pageUp _⟩
  unbacked impossible := by cases impossible

/-- The requests that backing a range makes of the heap: its own granules in one run, and then
those for page tables. -/
def backRequests (has : List Nat → Bool) (vaddr size : U64) : List Nat :=
  granules size.toNat :: tableRequests has vaddr size

/-- A range that can be backed asks for tables inside its window. -/
theorem Backable.landed_fits (backable : Backable vaddr size) :
    (⟨vaddr, 0, size, 0⟩ : MapCall).landed.Fits := by
  have le := backable.le
  have small : (⟨vaddr, 0, size, 0⟩ : MapCall).Small :=
    ⟨⟨backable.aligned, rfl, backable.pos, le.trans (by decide)⟩, le⟩
  exact (small.landed_fits backable.mappable).2

/-- The requests for tables depend only on where there are tables. -/
theorem Backable.tableRequests_eq (backable : Backable vaddr size) {mem : Mem}
    {has : List Nat → Bool} (tables : TablesAt linearView layout.userPgd mem has) :
    tableRequests (layout.has mem) vaddr size = tableRequests has vaddr size :=
  congrArg (List.replicate · 1) (tables.lacking_eq backable.landed_fits)

theorem Backable.backRequests_eq (backable : Backable vaddr size) {mem : Mem}
    {has : List Nat → Bool} (tables : TablesAt linearView layout.userPgd mem has) :
    backRequests (layout.has mem) vaddr size = backRequests has vaddr size :=
  congrArg (granules size.toNat :: ·) (backable.tableRequests_eq tables)

/-- A range that can be backed is, if the heap has the granules that it needs. -/
theorem MemInv.allocMap (inv : MemInv layout others maps s) (prot : BitVec 32)
    (backable : Backable vaddr size) :
    (allocMap layout.userPgd vaddr size prot s = .error .null ∧
      ¬ s.heap.Serves (backRequests (layout.has s.mem) vaddr size)) ∨
      ∃ b s', b.size = size.toNat ∧
        allocMap layout.userPgd vaddr size prot s = .ok (BitVec.ofNat 64 b.addr, s') ∧
        MemInv layout others (maps ++ [(backing vaddr size prot b).landed]) s' ∧
        s.tables ⊆ s'.tables ∧ (∀ x, (∀ q ∈ s'.tables, ¬ linearView.InPage q x) →
          s'.mem x = s.mem.fill b.phys size.toNat 0 x) ∧
        Spends layout s (backRequests (layout.has s.mem) vaddr size)
          (addTables (layout.has s.mem) vaddr size) s' := by
  unfold Chinos.allocMap
  rcases inv.calloc size.toNat backable.pos backable.le with
    ⟨failed, full⟩ | ⟨b, s₁, size_eq, run, inv₁, tables_eq, mem_eq, spends⟩
  · rw [failed]
    exact .inl ⟨rfl, MmGran.not_serves_append full⟩
  · have asked : (backing vaddr size prot b).Asked layout :=
      backing_asked (inv₁.placed (.head _)) size_eq backable.pos backable.aligned
    rw [run, ok_bind]
    have lands := (backing vaddr size prot b).lands_iff.mpr backable.mappable
    have requests : tableRequests (layout.has s₁.mem) vaddr size =
        tableRequests (layout.has s.mem) vaddr size := backable.tableRequests_eq spends.tables
    rcases MemInv.map (m := backing vaddr size prot b) inv₁ asked lands with
      ⟨failed, full⟩ | ⟨s₂, run₂, inv₂, confined, spends₂⟩
    · refine .inl ⟨by simp only; exact congrArg (· >>= _) failed, ?_⟩
      rw [show (backing vaddr size prot b).vaddr = vaddr from rfl,
        show (backing vaddr size prot b).size = size from rfl, requests] at full
      exact spends.after.serves_append.not.mpr full
    · refine .inr ⟨b, s₂, size_eq, ?_, inv₂, ?_, fun x outside => ?_, ?_, ?_⟩
      · exact congrArg (· >>= _) run₂
      · rw [← tables_eq]
        exact confined.tables
      · rw [confined.frame x outside, mem_eq]
      · have after := spends₂.after
        rw [show (backing vaddr size prot b).vaddr = vaddr from rfl,
          show (backing vaddr size prot b).size = size from rfl, requests] at after
        exact spends.after.trans after
      · exact spends.tables.addTables spends₂.tables

/-- A range that cannot be backed never is, whatever memory there is. -/
theorem MemInv.allocMap_ne_ok (inv : MemInv layout others maps s)
    (refused : ¬ Backable vaddr size) (result : U64 × PtState MmGran) :
    Chinos.allocMap layout.userPgd vaddr size prot s ≠ .ok result := by
  intro run
  unfold Chinos.allocMap at run
  obtain ⟨⟨v, s₁⟩, alloc, run⟩ := of_bind_ok run
  obtain ⟨s₂, mapped, -⟩ := of_bind_ok run
  by_cases large : 2 ^ 17 < size.toNat
  · rw [mmapCalloc_of_large inv large] at alloc
    cases alloc
  by_cases aligned : vaddr.toNat % 2 ^ 12 = 0
  swap
  · rw [asMap_of_unaligned aligned] at mapped
    cases mapped
  by_cases zero : size.toNat = 0
  · -- no memory is needed, and `pt_map` stops at the size
    have empty : ¬ size ≠ 0 := not_not_intro (BitVec.eq_of_toNat_eq zero)
    unfold asMap ptMap ptMapWith at mapped
    obtain ⟨-, mapped⟩ := of_require_bind_ok mapped
    obtain ⟨-, mapped⟩ := of_require_bind_ok mapped
    obtain ⟨-, mapped⟩ := of_require_bind_ok mapped
    exact empty (of_require_bind_ok mapped).1
  · have pos : 0 < size.toNat := Nat.pos_of_ne_zero zero
    rcases inv.calloc size.toNat pos (by omega) with
      ⟨failed, -⟩ | ⟨b, s₁', size_eq, run', inv₁, -⟩
    · rw [failed] at alloc
      cases alloc
    · cases alloc.symm.trans run'
      have asked : (backing vaddr size prot b).Asked layout :=
        backing_asked (inv₁.placed (.head _)) size_eq pos aligned
      have off : ¬ (backing vaddr size prot b).call.Lands := fun lands =>
        refused ⟨pos, by omega, aligned, (backing vaddr size prot b).lands_iff.mp lands⟩
      exact MemInv.map_ne_ok asked off mapped

/-- If only the table has room for it, the kernel stops at an assertion. -/
theorem MemInv.allocMap_stops (inv : MemInv layout others maps s) (prot : BitVec 32)
    (pos : 0 < size.toNat) (refused : ¬ Backable vaddr size)
    (mappable : vaddr.toNat % 2 ^ 12 = 0 → size.toNat ≤ 2 ^ 17 → Mappable vaddr size) :
    Chinos.allocMap layout.userPgd vaddr size prot s = .error .null ∨
      Chinos.allocMap layout.userPgd vaddr size prot s = .error .assertion := by
  unfold Chinos.allocMap
  by_cases large : 2 ^ 17 < size.toNat
  · rw [mmapCalloc_of_large inv large]
    exact .inr rfl
  have le : size.toNat ≤ 2 ^ 17 := Nat.le_of_not_lt large
  have unaligned : vaddr.toNat % 2 ^ 12 ≠ 0 := fun aligned =>
    refused ⟨pos, le, aligned, mappable aligned le⟩
  rcases inv.calloc size.toNat pos le with ⟨failed, -⟩ | ⟨b, s₁, -, run, -⟩
  · rw [failed]
    exact .inl rfl
  · rw [run, ok_bind]
    simp only
    rw [asMap_of_unaligned unaligned]
    exact .inr rfl

/-! ## `sys_brk` -/

/-- The growth that `sys_brk` computes, as the `int` it is stored in. -/
def Process.growth (p : Process) (brk : U64) : Int := cInt (brk - p.mm.brk).toNat

/-- A break that is refused, or that does not grow the heap. -/
def BrkIdle (p : Process) (brk : U64) : Prop := brk < p.mm.startBrk ∨ p.growth brk ≤ 0

/-- `sys_brk` is served: it has nothing to map, or a growth that can be backed. -/
def BrkServed (p : Process) (brk : U64) : Prop :=
  BrkIdle p brk ∨ Backable p.mm.brk (BitVec.ofInt 64 (p.growth brk))

instance (p : Process) (brk : U64) : Decidable (BrkIdle p brk) :=
  inferInstanceAs (Decidable (brk < p.mm.startBrk ∨ p.growth brk ≤ 0))

/-- The positions at which the task has page tables. -/
def Process.has (p : Process) : List Nat → Bool := linearView.has p.pt.mem p.addrspace

/-- The requests that `sys_brk` makes of the granule heap, computed from the state before the
call. -/
def brkRequests (p : Process) (brk : U64) : List Nat :=
  if BrkIdle p brk then [] else backRequests p.has p.mm.brk (BitVec.ofInt 64 (p.growth brk))

theorem MmInv.has_eq (inv : MmInv layout others maps p) : p.has = layout.has p.pt.mem := by
  unfold Process.has Layout.has
  rw [inv.addrspace]

/-- The areas of the task after `sys_brk`, of which only the break can be new. -/
def brkMm (p : Process) (brk : U64) : MmArea :=
  if brk < p.mm.startBrk then p.mm else { p.mm with brk }

theorem sysBrk_of_idle {brk : U64} (idle : BrkIdle p brk) :
    sysBrk p brk = .ok ((brkMm p brk).brk, { p with mm := brkMm p brk }) := by
  unfold sysBrk brkMm
  by_cases refused : brk < p.mm.startBrk
  · rw [if_pos refused, if_pos refused]
    rfl
  · have still : ¬ cInt (brk - p.mm.brk).toNat > 0 := by
      have := idle.resolve_left refused
      unfold Process.growth at this
      omega
    rw [if_neg refused, if_neg refused]
    simp only [still, if_false]
    rfl

theorem Process.growth_lt (p : Process) (brk : U64) : p.growth brk < 2 ^ 31 := by
  have := Int.bmod_lt (x := ((brk - p.mm.brk).toNat : Int)) (m := 2 ^ 32) (by decide)
  unfold Process.growth cInt
  omega

theorem Process.toNat_growth {brk : U64} (pos : 0 < p.growth brk) :
    (BitVec.ofInt 64 (p.growth brk)).toNat = (p.growth brk).toNat := by
  have lt := p.growth_lt brk
  rw [BitVec.toNat_ofInt]
  omega

/-- A `sys_brk` that is not idle backs the growth and records the break. -/
theorem sysBrk_of_grow {brk : U64} (grow : ¬ BrkIdle p brk) :
    sysBrk p brk = (do
      let (_, pt) ← allocMap p.addrspace p.mm.brk (BitVec.ofInt 64 (p.growth brk))
        (protRead ||| protWrite) p.pt
      return (brk, { p with pt, mm := { p.mm with brk } })) := by
  obtain ⟨accepted, pos⟩ := not_or.mp grow
  have lt := p.growth_lt brk
  have positive : cInt (brk - p.mm.brk).toNat > 0 := by
    unfold Process.growth at pos
    omega
  have size_eq : cU64 (cInt (brk - p.mm.brk).toNat) =
      (BitVec.ofInt 64 (p.growth brk)).toNat := by
    rw [Process.toNat_growth (by omega)]
    unfold cU64
    unfold Process.growth at lt ⊢
    omega
  unfold sysBrk allocMap
  rw [if_neg accepted]
  simp only [positive, if_true, size_eq]
  simp only [bind_assoc, pure_bind]
  rfl

/-- A break that is served is set, if the heap has the granules that it needs. -/
theorem sysBrk_served {brk : U64} (inv : MmInv layout others maps p) (served : BrkServed p brk) :
    (sysBrk p brk = .error .null ∧ ¬ p.pt.heap.Serves (brkRequests p brk)) ∨
      ∃ pt maps', sysBrk p brk = .ok ((brkMm p brk).brk, { p with pt, mm := brkMm p brk }) ∧
        MmInv layout others maps' { p with pt, mm := brkMm p brk } ∧
        p.pt.heap.Serves (brkRequests p brk) ∧
        (BrkIdle p brk ∧ maps' = maps ∨ ¬ BrkIdle p brk ∧ ∃ b,
          b.size = (BitVec.ofInt 64 (p.growth brk)).toNat ∧ maps' =
          maps ++ [(backing p.mm.brk (BitVec.ofInt 64 (p.growth brk)) (protRead ||| protWrite)
            b).landed]) := by
  have kept : (brkMm p brk).areas = p.mm.areas ∧ (brkMm p brk).mmapBase = p.mm.mmapBase := by
    unfold brkMm
    split <;> exact ⟨rfl, rfl⟩
  have lift : ∀ {pt maps'}, MemInv layout (p.mm.areas.map recordBlock ++ others) maps' pt →
      MmInv layout others maps' { p with pt, mm := brkMm p brk } := by
    intro pt maps' mem
    exact ⟨inv.addrspace, by rw [kept.1]; exact mem, by rw [kept.2]; exact inv.base_aligned,
      by rw [kept.1]; exact inv.areas_aligned⟩
  by_cases idle : BrkIdle p brk
  · refine .inr ⟨p.pt, maps, sysBrk_of_idle idle, lift inv.mem, ?_, .inl ⟨idle, rfl⟩⟩
    unfold brkRequests
    rw [if_pos idle]
    exact (MmGran.After.refl _).serves
  · have accepted : ¬ brk < p.mm.startBrk := fun refused => idle (.inl refused)
    have mm_eq : brkMm p brk = { p.mm with brk } := if_neg accepted
    unfold brkRequests
    rw [sysBrk_of_grow idle, if_neg idle, inv.has_eq]
    rcases inv.mem.allocMap (protRead ||| protWrite) (served.resolve_left idle) with
      ⟨failed, full⟩ | ⟨b, pt, size_eq, run, mem, -, -, spends⟩
    · rw [inv.addrspace, failed]
      exact .inl ⟨rfl, full⟩
    · rw [← inv.addrspace] at run
      rw [run]
      refine .inr ⟨pt, _, ?_, lift mem, spends.after.serves, .inr ⟨idle, b, size_eq, rfl⟩⟩
      rw [mm_eq]
      rfl

/-- A `sys_brk` that is not served does not return, whatever memory there is. -/
theorem sysBrk_ne_ok {brk : U64} (inv : MmInv layout others maps p) (refused : ¬ BrkServed p brk)
    (result : U64 × Process) : sysBrk p brk ≠ .ok result := by
  obtain ⟨grow, notBackable⟩ := not_or.mp refused
  rw [sysBrk_of_grow grow, inv.addrspace]
  intro run
  obtain ⟨r, alloc, -⟩ := of_bind_ok run
  exact inv.mem.allocMap_ne_ok notBackable r alloc

/-! ## `sys_mmap` -/

/-- The request is one that `sys_mmap` answers with `-EINVAL`. -/
def MmapIdle (len flags : U64) : Prop :=
  (flags &&& mapPrivate = 0 ∧ flags &&& mapShared = 0) ∨ len = 0

/-- Where an area that is asked for without a hint ends: at the start of the area recorded
last, or at `mmap_base` if there is none. -/
def MmArea.top (mm : MmArea) : Nat :=
  match mm.areas with
  | [] => mm.mmapBase.toNat
  | last :: _ => last.vmStart.toNat

/-- Where the area of a request begins, as a number and without the functions of `mmap.c`: at
the hint rounded up to a page, or its own length below `top`. Both wrap at `2 ^ 64`, so a hint
in the last page of the address space counts as none. -/
def MmArea.low (mm : MmArea) (start len : U64) : Nat :=
  let hint := pageUp start.toNat % 2 ^ 64
  if hint = 0 then (mm.top + 2 ^ 64 - pageUp len.toNat) % 2 ^ 64 else hint

/-- The address of the area that a request gets. -/
def mmapStart (p : Process) (start len : U64) : U64 := BitVec.ofNat 64 (p.mm.low start len)

/-- `sys_mmap` is served: it is invalid, or its area can be backed. -/
def MmapServed (p : Process) (start len flags : U64) : Prop :=
  MmapIdle len flags ∨ Backable (mmapStart p start len) (alignPage len)

instance (len flags : U64) : Decidable (MmapIdle len flags) :=
  inferInstanceAs (Decidable ((flags &&& mapPrivate = 0 ∧ flags &&& mapShared = 0) ∨ len = 0))

/-- The requests that `sys_mmap` makes of the heap: a granule for the record of the area, and
then what backs it. -/
def mmapRequests (p : Process) (start len flags : U64) : List Nat :=
  if MmapIdle len flags then []
  else granules sizeofVmArea :: backRequests p.has (mmapStart p start len) (alignPage len)

/-- The area of a request, with its record at `record`. -/
def mmapArea (p : Process) (record start len prot flags : U64) : VmArea :=
  ⟨record, mmapStart p start len, mmapStart p start len + alignPage len, prot, flags,
    vmNameOf flags⟩

/-- The answer to a request whose area begins at `addr`. -/
def mmapAnswer (addr : U64) : U64 := if IsErrValue addr then negEnomem else addr

variable {start len prot' flags : U64} (fd off : U64)

theorem sysMmap_of_idle (idle : MmapIdle len flags) :
    sysMmap p start len prot' flags fd off = .ok (negEinval, p) := by
  unfold sysMmap
  by_cases invalid : flags &&& mapPrivate = 0 ∧ flags &&& mapShared = 0
  · rw [if_pos invalid]
    rfl
  · rw [if_neg invalid]
    simp only [idle.resolve_left invalid, if_true]
    rfl

/-- `PAGE_ALIGN` in numbers, which wraps around at `2 ^ 64`. -/
theorem toNat_alignPage (x : U64) : (alignPage x).toNat = pageUp x.toNat % 2 ^ 64 := by
  have bound := x.isLt
  unfold alignPage pageUp
  rw [BitVec.toNat_mul, BitVec.toNat_udiv, BitVec.toNat_sub, BitVec.toNat_add,
    show pageSize.toNat = 2 ^ 12 from by decide, show (1 : U64).toNat = 1 from rfl]
  omega

theorem toNat_mmapStart (p : Process) (start len : U64) :
    (mmapStart p start len).toNat = p.mm.low start len := by
  have small : p.mm.low start len < 2 ^ 64 := by
    unfold MmArea.low
    simp only
    split <;> exact Nat.mod_lt _ (by decide)
  unfold mmapStart
  rw [BitVec.toNat_ofNat]
  exact Nat.mod_eq_of_lt small

/-- The area that `do_mmap` makes has the start and the length that the definitions above give in
numbers. -/
theorem placeVma_eq (p : Process) (start len : U64) :
    placeVma p.mm (alignPage start) (alignPage len) =
      (mmapStart p start len, mmapStart p start len + alignPage len) := by
  have hint_iff : alignPage start = 0 ↔ pageUp start.toNat % 2 ^ 64 = 0 := by
    rw [← toNat_alignPage, ← BitVec.toNat_inj]
    rfl
  have below : ∀ top : U64, (top.toNat + 2 ^ 64 - pageUp len.toNat) % 2 ^ 64 = p.mm.low start len →
      (top - alignPage len, top) =
        (mmapStart p start len, mmapStart p start len + alignPage len) := by
    intro top low
    have first : top - alignPage len = mmapStart p start len := by
      have bound := len.isLt
      have rounded : pageUp len.toNat ≤ 2 ^ 64 := by
        unfold pageUp
        omega
      apply BitVec.eq_of_toNat_eq
      rw [toNat_mmapStart, ← low, BitVec.toNat_sub, toNat_alignPage]
      omega
    rw [← first, BitVec.sub_add_cancel]
  unfold placeVma
  by_cases none : alignPage start = 0
  · have low : p.mm.low start len = (p.mm.top + 2 ^ 64 - pageUp len.toNat) % 2 ^ 64 :=
      if_pos (hint_iff.mp none)
    rw [if_pos none]
    unfold findFreeVma
    unfold MmArea.top at low
    split
    · rename_i empty
      rw [empty] at low
      exact below _ low.symm
    · rename_i last rest areas
      rw [areas] at low
      exact below _ low.symm
  · have first : alignPage start = mmapStart p start len := by
      apply BitVec.eq_of_toNat_eq
      rw [toNat_mmapStart, toNat_alignPage]
      exact (if_neg (hint_iff.not.mp none)).symm
    rw [if_neg none, first]

/-- A request that is not refused with `-EINVAL` records an area and backs it. -/
theorem sysMmap_of_area (valid : ¬ MmapIdle len flags) :
    sysMmap p start len prot' flags fd off = (do
      let (record, pt) ← mmapCalloc p.pt sizeofVmArea
      let (_, pt) ← allocMap p.addrspace (mmapStart p start len) (alignPage len)
        (prot'.setWidth 32) pt
      return (mmapAnswer (mmapStart p start len), { p with
        pt,
        mm := { p.mm with areas := mmapArea p record start len prot' flags :: p.mm.areas } })) := by
  obtain ⟨accepted, pos⟩ := not_or.mp valid
  unfold sysMmap
  rw [if_neg accepted]
  simp only [pos, if_false]
  unfold doMmap mmapRegion allocMap mmapAnswer
  simp only [bind_assoc, pure_bind, placeVma_eq]
  refine bind_congr fun (record, pt) => ?_
  refine bind_congr fun (vaddr, pt) => ?_
  refine bind_congr fun pt => ?_
  split <;> rfl

theorem alignPage_aligned (x : U64) : (alignPage x).toNat % 2 ^ 12 = 0 := by
  unfold alignPage
  rw [BitVec.toNat_mul, show pageSize.toNat = 2 ^ 12 from by decide]
  omega

/-- Areas begin on a page boundary, since hints and lengths are rounded and the areas before them
did. -/
theorem MmInv.mmapStart_aligned (inv : MmInv layout others maps p) (start len : U64) :
    (mmapStart p start len).toNat % 2 ^ 12 = 0 := by
  have top : p.mm.top % 2 ^ 12 = 0 := by
    unfold MmArea.top
    split
    · exact inv.base_aligned
    · rename_i last rest areas
      exact inv.areas_aligned last (areas ▸ List.mem_cons_self ..)
  rw [toNat_mmapStart]
  unfold MmArea.low pageUp
  simp only
  split <;> omega

/-- The process once an area is recorded and backed. -/
def withArea (p : Process) (pt : PtState MmGran) (area : VmArea) : Process :=
  { p with pt, mm := { p.mm with areas := area :: p.mm.areas } }

/-- An area that can be backed is recorded and backed, if the heap has the granules for it; its
memory is clear. -/
theorem sysMmap_backed (inv : MmInv layout others maps p) (valid : ¬ MmapIdle len flags)
    (backable : Backable (mmapStart p start len) (alignPage len)) :
    (sysMmap p start len prot' flags fd off = .error .null ∧
      ¬ p.pt.heap.Serves (mmapRequests p start len flags)) ∨
      ∃ record pt b, let p' := withArea p pt (mmapArea p record start len prot' flags)
        sysMmap p start len prot' flags fd off = .ok (mmapAnswer (mmapStart p start len), p') ∧
        MmInv layout others (maps ++ [(backing (mmapStart p start len) (alignPage len)
          (prot'.setWidth 32) b).landed]) p' ∧
        p.pt.tables ⊆ pt.tables ∧ b.size = (alignPage len).toNat ∧
        (∀ i < (alignPage len).toNat, pt.mem (b.phys + i) = 0) ∧
        p.pt.heap.Serves (mmapRequests p start len flags) := by
  unfold mmapRequests
  rw [sysMmap_of_area fd off valid, if_neg valid, inv.has_eq]
  rcases inv.mem.calloc sizeofVmArea (by decide) (by decide) with
    ⟨failed, full⟩ | ⟨record, pt₁, size_eq, alloc, mem₁, tables_eq, -, spends₁⟩
  · rw [failed]
    exact .inl ⟨rfl, MmGran.not_serves_append full⟩
  rw [alloc, ok_bind]
  have record_eq : recordBlock (mmapArea p (BitVec.ofNat 64 record.addr) start len prot' flags) =
      record := by
    have addr_eq := (mem₁.placed (.head _)).toNat_addr.1
    unfold recordBlock mmapArea
    simp only [addr_eq]
    exact congrArg (Block.mk record.addr) size_eq.symm
  have requests := backable.backRequests_eq spends₁.tables
  rcases mem₁.allocMap (prot'.setWidth 32) backable with
    ⟨failed, full⟩ | ⟨b, pt₂, b_size, run, mem₂, tables, frame, spends₂⟩
  · rw [← inv.addrspace] at failed
    rw [requests] at full
    exact .inl ⟨congrArg (· >>= _) failed, spends₁.after.serves_append.not.mpr full⟩
  · rw [← inv.addrspace] at run
    have served := spends₂.after.serves
    rw [requests] at served
    refine .inr ⟨BitVec.ofNat 64 record.addr, pt₂, b, congrArg (· >>= _) run, ?_,
      tables_eq ▸ tables, b_size, fun i inside => ?_, spends₁.after.serves_append.mpr served⟩
    · refine ⟨inv.addrspace, ?_, inv.base_aligned, ?_⟩
      · unfold withArea
        rw [List.map_cons, record_eq]
        exact mem₂
      · intro area inside
        rcases List.mem_cons.mp inside with rfl | old
        · exact inv.mmapStart_aligned start len
        · exact inv.areas_aligned area old
    · have live : b ∈ blocksOf (maps ++ [(backing (mmapStart p start len) (alignPage len)
          (prot'.setWidth 32) b).landed]) ++
            (record :: (p.mm.areas.map recordBlock ++ others)) :=
        List.mem_append_left _ (mem_blocksOf_concat rfl)
      have has : b.Has (b.phys + i) := Block.has_add (by omega)
      rw [frame _ fun q => mem₂.good.not_inPage live has, Mem.fill_of_inside (by omega) (by omega)]

theorem sysMmap_served (inv : MmInv layout others maps p) (valid : ¬ MmapIdle len flags)
    (served : MmapServed p start len flags) :
    (sysMmap p start len prot' flags fd off = .error .null ∧
      ¬ p.pt.heap.Serves (mmapRequests p start len flags)) ∨
      ∃ record pt b, let p' := withArea p pt (mmapArea p record start len prot' flags)
        sysMmap p start len prot' flags fd off = .ok (mmapAnswer (mmapStart p start len), p') ∧
        MmInv layout others (maps ++ [(backing (mmapStart p start len) (alignPage len)
          (prot'.setWidth 32) b).landed]) p' ∧
        p.pt.heap.Serves (mmapRequests p start len flags) := by
  rcases sysMmap_backed fd off inv valid (served.resolve_left valid) with
    failed | ⟨record, pt, b, run, inv', -, -, -, serves⟩
  · exact .inl failed
  · exact .inr ⟨record, pt, b, run, inv', serves⟩

/-- A `sys_mmap` that is not served does not return, whatever memory there is. -/
theorem sysMmap_ne_ok (inv : MmInv layout others maps p) (refused : ¬ MmapServed p start len flags)
    (result : U64 × Process) : sysMmap p start len prot' flags fd off ≠ .ok result := by
  obtain ⟨valid, notBackable⟩ := not_or.mp refused
  rw [sysMmap_of_area fd off valid]
  intro run
  obtain ⟨⟨record, pt₁⟩, alloc, run⟩ := of_bind_ok run
  obtain ⟨r, mapped, -⟩ := of_bind_ok run
  rcases inv.mem.calloc sizeofVmArea (by decide) (by decide) with
    ⟨failed, -⟩ | ⟨record', pt₁', size_eq, alloc', mem₁, -⟩
  · rw [failed] at alloc
    cases alloc
  · cases alloc.symm.trans alloc'
    rw [inv.addrspace] at mapped
    exact mem₁.allocMap_ne_ok notBackable r mapped

end Calls

end Chinos
