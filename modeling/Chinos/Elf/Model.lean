import Chinos.Mm.Model

/-!
# The ELF loader of `os/lib/libelf`

The file lies in memory behind the kernel image. `load_segments` copies the program
headers that matter into records on the heap; `populate_segments` gives every loadable
segment memory of its own, maps it and fills it; `remove_segments` frees the records.
A read outside the file, or a write outside the memory of a segment, is a wild access.
-/

namespace Chinos

/-! ## The file -/

/-- The fields `buffer` and `size` of `struct chin_elf`, which say where the file lies. -/
structure ChinElf where
  buffer : U64
  size : U64

/-- The byte of the file at `offset`, without a test against its size. -/
def ChinElf.byte (elf : ChinElf) (mem : Mem) (offset : Nat) : BitVec 8 :=
  mem (phys elf.buffer + offset)

/-- The little-endian field of `n` bytes at `offset`, without a test against the size of the
file. -/
def ChinElf.field (elf : ChinElf) (mem : Mem) (offset n : Nat) : Nat :=
  mem.loadLe (phys elf.buffer + offset) n

/-- The file has the `n` bytes from `offset` on. -/
def ChinElf.Has (elf : ChinElf) (offset n : Nat) : Prop := offset + n ≤ elf.size.toNat

instance (elf : ChinElf) (offset n : Nat) : Decidable (elf.Has offset n) :=
  inferInstanceAs (Decidable (_ ≤ _))

/-- `Elf64_Ehdr`, without the fields that the loader only prints. -/
structure Elf64Ehdr where
  eIdent : Nat → Nat
  eType : Nat
  eMachine : Nat
  eEntry : Nat
  ePhoff : Nat
  ePhentsize : Nat
  ePhnum : Nat
  eShentsize : Nat
  eShnum : Nat
  eShstrndx : Nat

def sizeofElf64Ehdr : Nat := 64

def sizeofElf64Phdr : Nat := 56

def sizeofElf64Shdr : Nat := 64

/-- The ELF header `*(Elf64_Ehdr *)(elf->buffer)` at the start of the file. -/
def ChinElf.ehdr (elf : ChinElf) (mem : Mem) : Elf64Ehdr where
  eIdent i := elf.field mem i 1
  eType := elf.field mem 16 2
  eMachine := elf.field mem 18 2
  eEntry := elf.field mem 24 8
  ePhoff := elf.field mem 32 8
  ePhentsize := elf.field mem 54 2
  ePhnum := elf.field mem 56 2
  eShentsize := elf.field mem 58 2
  eShnum := elf.field mem 60 2
  eShstrndx := elf.field mem 62 2

/-- `elf64_header_check`, which tests the magic number, the class, the type and the sizes and
numbers of the table entries, but no offset. -/
def elf64HeaderCheck (hdr : Elf64Ehdr) : Int :=
  if hdr.eIdent 0 ≠ 0x7f ∨ hdr.eIdent 1 ≠ 'E'.toNat ∨ hdr.eIdent 2 ≠ 'L'.toNat ∨
      hdr.eIdent 3 ≠ 'F'.toNat then -1
  else if hdr.eIdent 4 ≠ 2 then -1
  else if hdr.eType ≠ 3 ∧ hdr.eType ≠ 1 ∧ hdr.eType ≠ 2 then -1
  else if hdr.ePhentsize ≠ sizeofElf64Phdr then -1
  else if hdr.ePhnum < 1 ∨ hdr.ePhnum > 65536 / sizeofElf64Phdr then -1
  else if hdr.eShentsize ≠ sizeofElf64Shdr then -1
  else if hdr.eShnum < 1 then -1
  else if hdr.eShstrndx ≥ hdr.eShnum then -1
  else 0

/-- `elf_arch_check`, which takes little-endian files for AArch64 only. -/
def elfArchCheck (hdr : Elf64Ehdr) : Int :=
  if hdr.eIdent 4 ≠ 2 then -1
  else if hdr.eIdent 5 ≠ 1 then -1
  else if hdr.eIdent 6 ≠ 1 then -1
  else if hdr.eMachine ≠ 183 then -1
  else 0

/-- `PT_NULL`, the type of an unused program header, at which `load_segments` panics. -/
def pTypeNull : Nat := 0

/-- `PT_LOAD`, the type of a segment that is mapped. -/
def pTypeLoad : Nat := 1

/-- `PT_DYNAMIC`, the type of a segment that is recorded and not mapped. -/
def pTypeDynamic : Nat := 2

def pfX : BitVec 32 := 1

def pfW : BitVec 32 := 2

def pfR : BitVec 32 := 4

/-- `Elf64_Phdr`, without `p_paddr`, which the loader does not use. -/
structure Elf64Phdr where
  pType : Nat
  pFlags : BitVec 32
  pOffset : U64
  pVaddr : U64
  pFilesz : U64
  pMemsz : U64
  pAlign : U64

/-- Entry `n` of the program header table at `phoff`. -/
def ChinElf.phdr (elf : ChinElf) (mem : Mem) (phoff n : Nat) : Elf64Phdr :=
  let field (offset size : Nat) := elf.field mem (phoff + sizeofElf64Phdr * n + offset) size
  { pType := field 0 4
    pFlags := BitVec.ofNat 32 (field 4 4)
    pOffset := BitVec.ofNat 64 (field 8 8)
    pVaddr := BitVec.ofNat 64 (field 16 8)
    pFilesz := BitVec.ofNat 64 (field 32 8)
    pMemsz := BitVec.ofNat 64 (field 40 8)
    pAlign := BitVec.ofNat 64 (field 48 8) }

/-! ## Segments -/

/-- `struct segment`: the record at `addr`, with the header it is made from. -/
structure Segment where
  addr : U64
  header : Elf64Phdr

/-- `sizeof(struct segment)`, which is what `add_segment` asks the heap for. -/
def sizeofSegment : Nat := 80

/-- `elf_calloc`, which is written like `mmap_calloc` and clears the memory before it is tested
for `NULL`. -/
def elfCalloc (s : PtState MmGran) (size : Nat) : Except Fault (U64 × PtState MmGran) :=
  mmapCalloc s size

/-- `add_segment`. A header whose file part is the larger one leaves its record behind. The
test of the record for `NULL` comes after it has been cleared. -/
def addSegment (ph : Elf64Phdr) (segs : List Segment) (s : PtState MmGran) :
    Except Fault (List Segment × PtState MmGran) := do
  let (seg, s) ← elfCalloc s sizeofSegment
  if ph.pMemsz < ph.pFilesz then return (segs, s)
  return (⟨seg, ph⟩ :: segs, s)

/-- One turn of the loop of `load_segments`, for header `n`. The type is read before the rest of
the header is used. -/
def loadSegment (elf : ChinElf) (phoff n : Nat) (segs : List Segment) (s : PtState MmGran) :
    Except Fault (List Segment × PtState MmGran) := do
  require (elf.Has (phoff + sizeofElf64Phdr * n) 4) .wild
  let ph := elf.phdr s.mem phoff n
  require (ph.pType ≠ pTypeNull) .panic
  if ph.pType = pTypeLoad ∨ ph.pType = pTypeDynamic then do
    require (elf.Has (phoff + sizeofElf64Phdr * n) sizeofElf64Phdr) .wild
    addSegment ph segs s
  else return (segs, s)

/-- `load_segments`, with `left` headers to go from number `n` on. -/
def loadSegments (elf : ChinElf) (phoff : Nat) :
    (left n : Nat) → List Segment → PtState MmGran → Except Fault (List Segment × PtState MmGran)
  | 0, _, segs, s => .ok (segs, s)
  | left + 1, n, segs, s => do
    let (segs, s) ← loadSegment elf phoff n segs s
    loadSegments elf phoff left (n + 1) segs s

/-- The part of `populate_segments` that sets the fields of `mm`. -/
def segmentMm (p : Process) (ph : Elf64Phdr) : Except Fault MmArea :=
  if ph.pFlags = pfR ||| pfX then
    .ok { p.mm with
      startCode := ph.pVaddr
      endCode := ph.pVaddr + ph.pMemsz
      startStack := p.stack
      endStack := p.stack + p.stackSize
      mmapBase := p.stack }
  else if ph.pFlags = pfR ||| pfW then
    let endBss := ph.pVaddr + ph.pMemsz
    .ok { p.mm with
      startData := ph.pVaddr
      endData := ph.pVaddr + ph.pFilesz
      startBss := ph.pVaddr + ph.pFilesz
      endBss := endBss
      startBrk := alignPage endBss
      brk := alignPage endBss }
  else .error .panic

/-- The protection that `elf_map` asks for, which has the flags of the segment one by one. -/
def elfProt (flags : BitVec 32) : BitVec 32 :=
  let prot := if flags &&& pfR ≠ 0 then protRead else 0
  let prot := if flags &&& pfW ≠ 0 then prot ||| protWrite else prot
  if flags &&& pfX ≠ 0 then prot ||| protExec else prot

/-- `elf_map`: the address of the memory, as the kernel has it. -/
def elfMap (p : Process) (vaddr size : U64) (flags : BitVec 32) : Except Fault (U64 × Process) := do
  let (addr, pt) ← elfCalloc p.pt size.toNat
  let pt ← asMap p.addrspace ⟨vbaseToPbase addr, vaddr, size⟩ (elfProt flags) .normal pt
  return (addr, { p with pt })

/-- `copy_segment`, into the `room` bytes at `addr`. Bytes outside the file or the room are
accesses outside of what the loader was given. -/
def copySegment (elf : ChinElf) (ph : Elf64Phdr) (addr : U64) (room : Nat) (s : PtState MmGran) :
    Except Fault (Int × PtState MmGran) := do
  let filesz := ph.pFilesz.toNat
  let memsz := ph.pMemsz.toNat
  if memsz < filesz then return (-22, s)
  if ph.pFlags ≠ pfR ||| pfX ∧ ph.pFlags ≠ pfR ||| pfW then return (-22, s)
  require (filesz = 0 ∨ elf.Has ph.pOffset.toNat filesz) .wild
  require (memsz ≤ room) .wild
  let mem := s.mem.blit (phys addr) filesz fun i => elf.byte s.mem (ph.pOffset.toNat + i)
  let mem := if memsz > filesz then mem.fill (phys addr + filesz) (memsz - filesz) 0 else mem
  return (0, { s with mem })

/-- `ALIGN(size, align)`; the processor divides by zero with result zero. -/
def alignTo (size align : U64) : U64 := (size + align - 1) / align * align

/-- One turn of the loop of `populate_segments`. The result of `copy_segment` is ignored. -/
def populateSegment (elf : ChinElf) (ph : Elf64Phdr) (p : Process) : Except Fault Process :=
  if ph.pType = pTypeLoad then do
    let mm ← segmentMm p ph
    let alignAddr := ph.pVaddr / ph.pAlign * ph.pAlign
    let alignSize := alignTo (ph.pVaddr % ph.pAlign + ph.pMemsz) ph.pAlign
    let (addr, p) ← elfMap { p with mm } alignAddr alignSize ph.pFlags
    let (_, pt) ← copySegment elf ph addr alignSize.toNat p.pt
    return { p with pt }
  else .ok p

/-- `populate_segments`, over the recorded segments in the order of the list. -/
def populateSegments (elf : ChinElf) : List Segment → Process → Except Fault Process
  | [], p => .ok p
  | seg :: segs, p => do
    let p ← populateSegment elf seg.header p
    populateSegments elf segs p

/-- `remove_segments`, with the `elf_free` of each record. -/
def removeSegments : List Segment → MmGran → Except Fault MmGran
  | [], heap => .ok heap
  | seg :: segs, heap => do
    let heap ← granFree heap seg.addr.toNat sizeofSegment
    removeSegments segs heap

/-- `-ENOEXEC`, the answer to a file whose header is not accepted. -/
def negEnoexec : Int := -8

/-- `elf_initialize`. Both checks of the header come first, and nothing that follows them has a
way to fail other than to stop the kernel. -/
def elfInitialize (p : Process) (elf : ChinElf) : Except Fault (Int × Process) := do
  require (elf.buffer ≠ 0 ∧ elf.size ≠ 0) .assertion
  require (elf.Has 0 sizeofElf64Ehdr) .wild
  let hdr := elf.ehdr p.pt.mem
  if elf64HeaderCheck hdr < 0 then return (negEnoexec, p)
  if elfArchCheck hdr < 0 then return (negEnoexec, p)
  let (segs, pt) ← loadSegments elf hdr.ePhoff hdr.ePhnum 0 [] p.pt
  let p ← populateSegments elf segs { p with pt, entry := BitVec.ofNat 64 hdr.eEntry }
  let heap ← removeSegments segs p.pt.heap
  return (0, { p with pt := { p.pt with heap } })

end Chinos
