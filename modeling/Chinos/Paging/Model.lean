import Chinos.Machine.Basic
import Chinos.Machine.Memory

/-!
# Page-table construction of `os/arch/arm64/pagetable.c`

Three nested loops fill a three-level table with 4 KiB pages and, where the
virtual and physical addresses allow it, 2 MiB sections. Tables are reached
through pointers of the running code, while descriptors hold physical addresses;
the two builders of the source differ only in how they go from one to the other,
which is the `TableView` here.
-/

namespace Chinos

abbrev U64 := BitVec 64

/-! ## Constants of the configuration: 4 KiB pages, 3 levels, 39-bit addresses -/

/-- `PAGE_SIZE`, the 4 KiB that an entry of a leaf table maps. -/
def pageSize : U64 := 1 <<< 12

/-- `PMD_SIZE`, also `SECTION_SIZE`, the 2 MiB that an entry of a middle table maps. -/
def pmdSize : U64 := 1 <<< 21

/-- `PGDIR_SIZE`, the 1 GiB that an entry of the PGD maps. -/
def pgdirSize : U64 := 1 <<< 30

/-- `PMD_TYPE_TABLE` and `PTE_TYPE_PAGE`, which have the same two bits. -/
def typeTable : U64 := 3

/-- `PMD_TYPE_SECT`, the type of a section. -/
def typeSect : U64 := 1

/-- `PTE_TABLE_BIT`, which tells a table or a page from a section. -/
def tableBit : U64 := 2

/-- `PTE_ADDR_MASK`, which is everything above the page offset, the upper attributes included. -/
def pteAddrMask : U64 := ~~~(pageSize - 1)

/-- `RAM_VBASE`, where the kernel's linear map of RAM begins. -/
def ramVbase : U64 := 0xffffff8000000000

/-- `RAM_PBASE`, where RAM begins. -/
def ramPbase : U64 := 0x40000000

/-- `vbase_to_pbase`, from a pointer of the linear map to the physical address. -/
def vbaseToPbase (vbase : U64) : U64 := vbase - ramVbase + ramPbase

/-- `pbase_to_vbase`, from a physical address to a pointer of the linear map. -/
def pbaseToVbase (pbase : U64) : U64 := pbase - ramPbase + ramVbase

/-- How running code names physical memory: `toPhys` of a pointer is the physical
address it accesses, and `ofPhys` goes back. -/
structure TableView where
  toPhys : U64 → U64
  ofPhys : U64 → U64

/-- The kernel's linear map, by which `pt_map` accesses its tables. -/
def linearView : TableView := ⟨vbaseToPbase, pbaseToVbase⟩

/-- Physical addresses used as pointers, as before the MMU is on. -/
def identView : TableView := ⟨id, id⟩

/-! ## State -/

/-- What the builders work on: physical memory, the state of `pt_alloc`, and the
pages that make up this table, its PGD included. -/
structure PtState (A : Type) where
  mem : Mem
  heap : A
  tables : List U64

/-- `pt_alloc(PAGE_SIZE)`: the pointer returned with the state and memory after it. -/
abbrev PtAlloc (A : Type) := A → Mem → Except Fault (U64 × A × Mem)

/-- A pointer to a descriptor: entry `index` of the table page at `table`. -/
structure Slot where
  table : U64
  index : Nat

variable {A : Type}

/-- The entry lies in one of the table's own pages. -/
def PtState.Owns (s : PtState A) (slot : Slot) : Prop :=
  slot.table ∈ s.tables ∧ slot.index < 512

instance (s : PtState A) (slot : Slot) : Decidable (s.Owns slot) :=
  inferInstanceAs (Decidable (_ ∧ _))

/-- The physical address of the descriptor that a slot points to. -/
def Slot.phys (view : TableView) (slot : Slot) : Nat :=
  (view.toPhys slot.table).toNat + 8 * slot.index

/-- The load `*slot`. The run ends with `.wild` at an entry that is not one of the table's own.
The machine may go on with the word that it finds there, and such runs are not modelled. -/
def ptLoad (view : TableView) (s : PtState A) (slot : Slot) : Except Fault U64 := do
  require (s.Owns slot) .wild
  return s.mem.load64 (slot.phys view)

/-- The store `*slot = value`, which ends the run with `.wild` at an entry that is not one of the
table's own. -/
def ptStore (view : TableView) (s : PtState A) (slot : Slot) (value : U64) :
    Except Fault (PtState A) := do
  require (s.Owns slot) .wild
  return { s with mem := s.mem.store64 (slot.phys view) value }

/-- `pt_alloc(PAGE_SIZE)`; the page becomes one of the table's pages. -/
def ptAllocPage (alloc : PtAlloc A) (s : PtState A) : Except Fault (U64 × PtState A) := do
  let (page, heap, mem) ← alloc s.heap s.mem
  return (page, ⟨mem, heap, page :: s.tables⟩)

/-! ## The builders -/

/-- `next = (next + size) & mask; next = next < end ? next : end`, the step all
three loops take. -/
def nextAddr (size vaddr stop : U64) : U64 :=
  let next := (vaddr + size) &&& ~~~(size - 1)
  if next < stop then next else stop

/-- The table that an entry points to, which is allocated and linked first when
the entry is empty: the head of `pte_map` and of `pmd_map`. -/
def descend (view : TableView) (alloc : PtAlloc A) (s : PtState A) (slot : Slot) :
    Except Fault (U64 × PtState A) := do
  let entry ← ptLoad view s slot
  if entry = 0 then
    let (page, s) ← ptAllocPage alloc s
    require (page ≠ 0) .assertion
    let s ← ptStore view s slot (view.toPhys (page ||| typeTable))
    return (page, s)
  else
    return (view.ofPhys (entry &&& pteAddrMask), s)

/-- The page descriptor that `pte_map` stores for a page of the range. -/
def pageDesc (paddr attr : U64) : U64 := (paddr >>> 12) <<< 12 ||| typeTable ||| attr

/-- The section descriptor that `pmd_map` stores for 2 MiB of the range. -/
def sectDesc (paddr attr : U64) : U64 :=
  (paddr >>> 21) <<< 21 ||| typeSect ||| (attr &&& ~~~tableBit)

/-- The loop that `pte_map`, `pmd_map` and `pt_map` share: it walks the entries of one
table while `next` moves in steps of `size` towards `stop`. `left` entries of the
table remain. The pointer never stops at the end of the table by itself, so going on
after the last entry is an access outside it, at which the run ends with `.wild`. The
machine may go on with the word behind the table, and such runs are not modelled. -/
def tableLoop (size stop : U64)
    (body : (index : Nat) → (vaddr next paddr : U64) → PtState A → Except Fault (PtState A)) :
    (left : Nat) → (vaddr paddr : U64) → PtState A → Except Fault (PtState A)
  | 0, vaddr, _, s => if vaddr = stop then .ok s else .error .wild
  | left + 1, vaddr, paddr, s =>
    if vaddr = stop then
      .ok s
    else do
      let next := nextAddr size vaddr stop
      let s ← body (511 - left) vaddr next paddr s
      tableLoop size stop body left next (paddr + (next - vaddr)) s

/-- The index `(vaddr >> shift) & (PTRS_PER_PTE - 1)` of an address in a table. -/
def tableIndex (shift : Nat) (vaddr : U64) : Nat := ((vaddr >>> shift) &&& 511).toNat

/-- The loop of `pte_map`, which stores one page descriptor after another. -/
def pteLoop (view : TableView) (table stop attr : U64) :
    (left : Nat) → (vaddr paddr : U64) → PtState A → Except Fault (PtState A) :=
  tableLoop pageSize stop fun index _ _ paddr s =>
    ptStore view s ⟨table, index⟩ (pageDesc paddr attr)

/-- `pte_map`, for either view of the tables. An entry of the middle table that is not empty is
taken for a leaf table. -/
def pteMapWith (view : TableView) (alloc : PtAlloc A) (pmd : Slot)
    (vaddr stop paddr attr : U64) (s : PtState A) : Except Fault (PtState A) := do
  let (pte, s) ← descend view alloc s pmd
  pteLoop view pte stop attr (512 - tableIndex 12 vaddr) vaddr paddr s

/-- The loop of `pmd_map`: pages, unless all three addresses are section aligned. -/
def pmdLoop (view : TableView) (alloc : PtAlloc A) (table stop attr : U64) :
    (left : Nat) → (vaddr paddr : U64) → PtState A → Except Fault (PtState A) :=
  tableLoop pmdSize stop fun index vaddr next paddr s =>
    if (vaddr ||| next ||| paddr) &&& (pmdSize - 1) ≠ 0 then
      pteMapWith view alloc ⟨table, index⟩ vaddr next paddr attr s
    else
      ptStore view s ⟨table, index⟩ (sectDesc paddr attr)

/-- `pmd_map`, for either view of the tables. -/
def pmdMapWith (view : TableView) (alloc : PtAlloc A) (pud : Slot)
    (vaddr stop paddr attr : U64) (s : PtState A) : Except Fault (PtState A) := do
  let (pmd, s) ← descend view alloc s pud
  pmdLoop view alloc pmd stop attr (512 - tableIndex 21 vaddr) vaddr paddr s

/-- The loop of `pt_map` over the entries of the PGD. -/
def pgdLoop (view : TableView) (alloc : PtAlloc A) (pgd stop attr : U64) :
    (left : Nat) → (vaddr paddr : U64) → PtState A → Except Fault (PtState A) :=
  tableLoop pgdirSize stop fun index vaddr next paddr s =>
    pmdMapWith view alloc ⟨pgd, index⟩ vaddr next paddr attr s

/-- `ALIGN(size, PAGE_SIZE)`, which wraps around for the last page. -/
def alignPage (size : U64) : U64 := (size + pageSize - 1) / pageSize * pageSize

/-- `pt_map`, for either view of the tables: its assertions, and then the loop over the PGD up to
the rounded end of the range. -/
def ptMapWith (view : TableView) (alloc : PtAlloc A) (pgd vaddr paddr size attr : U64)
    (s : PtState A) : Except Fault (PtState A) := do
  require (pgd ≠ 0) .assertion
  require (vaddr &&& (pageSize - 1) = 0) .assertion
  require (paddr &&& (pageSize - 1) = 0) .assertion
  require (size ≠ 0) .assertion
  require (size ≤ 1 <<< 39) .assertion
  pgdLoop view alloc pgd (alignPage (vaddr + size)) attr (512 - tableIndex 30 vaddr) vaddr paddr s

/-- `pt_map`, which works on tables in the linear map. -/
def ptMap (alloc : PtAlloc A) (pgd vaddr paddr size attr : U64) (s : PtState A) :
    Except Fault (PtState A) :=
  ptMapWith linearView alloc pgd vaddr paddr size attr s

/-- `idmap_pt_map`, which works on tables at their physical addresses. -/
def idmapPtMap (alloc : PtAlloc A) (pgd vaddr paddr size attr : U64) (s : PtState A) :
    Except Fault (PtState A) :=
  ptMapWith identView alloc pgd vaddr paddr size attr s

end Chinos
