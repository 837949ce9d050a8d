import Chinos.Elf.Model
import Chinos.Mm.Syscalls

/-!
# What the loader does

The file is outside the heap, so nothing the loader writes changes it, and every header
and byte can be read off the memory that the loader starts from. The loader returns
exactly if all headers can be read, none is null, and every segment to load fits; then
each of these segments has memory of its own that is mapped and holds its image. Memory
that runs out is the one failure that does not depend on the file.
-/

namespace Chinos

/-! ## The file in memory -/

/-- The file that `boot_user_elf` passes to the loader, which is linked into the kernel image
between `userStart` and `userEnd`. -/
def Layout.elf (layout : Layout) : ChinElf :=
  ⟨BitVec.ofNat 64 layout.userStart, BitVec.ofNat 64 (layout.userEnd - layout.userStart)⟩

/-- Physical address `x` holds a byte of the file. -/
def Layout.InFile (layout : Layout) (x : Nat) : Prop :=
  phys layout.elf.buffer ≤ x ∧ x < phys layout.elf.buffer + layout.elf.size.toNat

/-- The file is the same in both memories, so that what is read of it is. -/
def Layout.SameFile (layout : Layout) (mem mem' : Mem) : Prop :=
  ∀ x, layout.InFile x → mem' x = mem x

section File

variable {layout : Layout} {mem mem' : Mem} {x : Nat} {b : Block} {rest : List Block}
  {heap : MmGran} {tables : List U64} {q : U64}

theorem Layout.toNat_elf (layout : Layout) :
    layout.elf.buffer.toNat = layout.userStart ∧
      layout.elf.size.toNat = layout.userEnd - layout.userStart ∧
      ramVbase.toNat + 2 ^ 12 ≤ layout.userStart := by
  have ram := BitVec.le_def.mp layout.userPgd_ram
  have image := layout.userPgd_image
  have user := layout.user_le
  have heap := layout.heap_le
  have top := layout.heap_ram
  rw [toNat_ramVbase] at *
  unfold Layout.elf
  simp only [BitVec.toNat_ofNat]
  omega

theorem Layout.phys_elf (layout : Layout) :
    phys layout.elf.buffer = layout.userStart - ramVbase.toNat + ramPbase.toNat := by
  obtain ⟨start_eq, -, ram⟩ := layout.toNat_elf
  have inRam : ramVbase.toNat ≤ layout.elf.buffer.toNat := by
    rw [start_eq]
    exact (Nat.le_add_right _ _).trans ram
  rw [phys_eq inRam, start_eq]

theorem Layout.InFile.not_has (inFile : layout.InFile x) (placed : layout.Placed b) :
    ¬ b.Has x := by
  have file_eq := layout.phys_elf
  obtain ⟨-, size_eq, ram⟩ := layout.toNat_elf
  obtain ⟨-, phys_eq, -, -⟩ := placed.toNat_addr
  have low := placed.low
  have heapLow := layout.heap_le
  obtain ⟨fileLow, fileHigh⟩ := inFile
  rintro ⟨has, -⟩
  omega

theorem Layout.InFile.not_inPage (inFile : layout.InFile x)
    (good : layout.Good layout.userPgd rest heap tables) (inTables : q ∈ tables) :
    ¬ linearView.InPage q x := by
  rcases good.table inTables with rfl | ⟨placed, -⟩
  · have file_eq := layout.phys_elf
    have ram := BitVec.le_def.mp layout.userPgd_ram
    have image := layout.userPgd_image
    have pgd_eq : (linearView.toPhys layout.userPgd).toNat =
        layout.userPgd.toNat - ramVbase.toNat + ramPbase.toNat := phys_eq ram
    rintro ⟨-, high⟩
    have fileLow := inFile.1
    omega
  · intro inPage
    exact inFile.not_has placed (pageBlock_has.mpr inPage)

theorem Layout.SameFile.trans {mem'' : Mem} (first : layout.SameFile mem mem')
    (second : layout.SameFile mem' mem'') : layout.SameFile mem mem'' :=
  fun x inFile => (second x inFile).trans (first x inFile)

/-- A byte of the file is read alike in two memories with the same file. -/
theorem Layout.SameFile.byte_eq (same : layout.SameFile mem mem') {offset : Nat}
    (inside : offset < layout.elf.size.toNat) :
    layout.elf.byte mem' offset = layout.elf.byte mem offset :=
  same _ ⟨by omega, by omega⟩

/-- A field that lies in the file is read alike in two memories with the same file. -/
theorem Layout.SameFile.field_eq (same : layout.SameFile mem mem') {offset n : Nat}
    (inside : layout.elf.Has offset n) :
    layout.elf.field mem' offset n = layout.elf.field mem offset n := by
  unfold ChinElf.Has at inside
  exact Mem.loadLe_congr fun x low high => same x ⟨by omega, by omega⟩

/-- The type of a program header takes its first four bytes to be in the file, and the whole
header takes all of them. -/
theorem Layout.SameFile.pType_eq (same : layout.SameFile mem mem') {phoff n : Nat}
    (inside : layout.elf.Has (phoff + sizeofElf64Phdr * n) 4) :
    (layout.elf.phdr mem' phoff n).pType = (layout.elf.phdr mem phoff n).pType :=
  same.field_eq inside

theorem Layout.SameFile.phdr_eq (same : layout.SameFile mem mem') {phoff n : Nat}
    (inside : layout.elf.Has (phoff + sizeofElf64Phdr * n) sizeofElf64Phdr) :
    layout.elf.phdr mem' phoff n = layout.elf.phdr mem phoff n := by
  have fields : ∀ offset size, offset + size ≤ sizeofElf64Phdr →
      layout.elf.field mem' (phoff + sizeofElf64Phdr * n + offset) size =
        layout.elf.field mem (phoff + sizeofElf64Phdr * n + offset) size := by
    intro offset size le
    refine same.field_eq ?_
    unfold ChinElf.Has at inside ⊢
    omega
  unfold ChinElf.phdr
  simp only
  rw [fields 0 4 (by decide), fields 4 4 (by decide), fields 8 8 (by decide),
    fields 16 8 (by decide), fields 32 8 (by decide), fields 40 8 (by decide),
    fields 48 8 (by decide)]

end File

/-! ## `load_segments` -/

/-- `load_segments` gets past header `n`: it can read what it needs of it. -/
structure EntryOk (elf : ChinElf) (mem : Mem) (phoff n : Nat) : Prop where
  type : elf.Has (phoff + sizeofElf64Phdr * n) 4
  notNull : (elf.phdr mem phoff n).pType ≠ pTypeNull
  entry : (elf.phdr mem phoff n).pType = pTypeLoad ∨ (elf.phdr mem phoff n).pType = pTypeDynamic →
    elf.Has (phoff + sizeofElf64Phdr * n) sizeofElf64Phdr

instance (elf : ChinElf) (mem : Mem) (phoff n : Nat) : Decidable (EntryOk elf mem phoff n) :=
  decidable_of_iff (elf.Has (phoff + sizeofElf64Phdr * n) 4 ∧
      (elf.phdr mem phoff n).pType ≠ pTypeNull ∧
      ((elf.phdr mem phoff n).pType = pTypeLoad ∨ (elf.phdr mem phoff n).pType = pTypeDynamic →
        elf.Has (phoff + sizeofElf64Phdr * n) sizeofElf64Phdr))
    ⟨fun ⟨type, notNull, entry⟩ => ⟨type, notNull, entry⟩,
      fun ok => ⟨ok.type, ok.notNull, ok.entry⟩⟩

/-- The header becomes a segment: it is of a type that `load_segments` looks for, and its part of
the file is not the larger one. -/
def Elf64Phdr.Recorded (ph : Elf64Phdr) : Prop :=
  (ph.pType = pTypeLoad ∨ ph.pType = pTypeDynamic) ∧ ¬ ph.pMemsz < ph.pFilesz

instance (ph : Elf64Phdr) : Decidable ph.Recorded := inferInstanceAs (Decidable (_ ∧ _))

/-- The headers that `load_segments` makes segments of, `left` of them looked at from number
`n` on. The last comes first. -/
def recorded (elf : ChinElf) (mem : Mem) (phoff n left : Nat) : List Elf64Phdr :=
  (((List.range' n left).map (elf.phdr mem phoff)).filter fun ph => decide ph.Recorded).reverse

/-- The request that `add_segment` makes of the heap for a header: a granule for the record of
each segment and of each dynamic one, also if the record is left behind. -/
def Elf64Phdr.recordRequests (ph : Elf64Phdr) : List Nat :=
  if ph.pType = pTypeLoad ∨ ph.pType = pTypeDynamic then [granules sizeofSegment] else []

/-- The requests of `load_segments`, with `left` headers to go from number `n` on. -/
def recordRequests (elf : ChinElf) (mem : Mem) (phoff n left : Nat) : List Nat :=
  (List.range' n left).flatMap fun k => (elf.phdr mem phoff k).recordRequests

/-- The record of a segment as an allocation of the granule heap. -/
def segBlock (seg : Segment) : Block := ⟨seg.addr.toNat, sizeofSegment⟩

section Load

variable {layout : Layout} {mem : Mem} {maps : List Mapping} {phoff : Nat}

theorem recorded_succ (elf : ChinElf) (n left : Nat) :
    recorded elf mem phoff n (left + 1) = recorded elf mem phoff (n + 1) left ++
      if (elf.phdr mem phoff n).Recorded then [elf.phdr mem phoff n] else [] := by
  unfold recorded
  rw [List.range'_succ, List.map_cons, List.filter_cons]
  by_cases keep : (elf.phdr mem phoff n).Recorded
  · simp [keep]
  · simp [keep]

theorem recordRequests_succ (elf : ChinElf) (n left : Nat) :
    recordRequests elf mem phoff n (left + 1) =
      (elf.phdr mem phoff n).recordRequests ++ recordRequests elf mem phoff (n + 1) left := by
  unfold recordRequests
  rw [List.range'_succ, List.flatMap_cons]

/-- A memory that differs in a heap block only has the same file. -/
theorem sameFile_fill {s : PtState MmGran} {b : Block} {size : Nat} (placed : layout.Placed b)
    (le : size ≤ b.size) : layout.SameFile s.mem (s.mem.fill b.phys size 0) := by
  intro x inFile
  exact Mem.fill_of_outside (Block.outside_of_not_has le (inFile.not_has placed))

/-- `add_segment` runs out of memory, or has a record for the header, which is a segment
unless it is left behind. -/
theorem addSegment_spec {segs : List Segment} {s : PtState MmGran} {others : List Block}
    (inv : MemInv layout (segs.map segBlock ++ others) maps s) (ph : Elf64Phdr)
    (kind : ph.pType = pTypeLoad ∨ ph.pType = pTypeDynamic) :
    (addSegment ph segs s = .error .null ∧ ¬ s.heap.Serves [granules sizeofSegment]) ∨
      ∃ segs' s' others', addSegment ph segs s = .ok (segs', s') ∧
        MemInv layout (segs'.map segBlock ++ others') maps s' ∧ layout.SameFile s.mem s'.mem ∧
        others ⊆ others' ∧
        segs'.map Segment.header =
          (if ph.Recorded then [ph] else []) ++ segs.map Segment.header ∧
        Spends layout s [granules sizeofSegment] (layout.has s.mem) s' := by
  unfold addSegment elfCalloc
  rcases inv.calloc sizeofSegment (by decide) (by decide) with
    ⟨failed, full⟩ | ⟨b, s₁, size_eq, run, inv₁, -, mem_eq, spends⟩
  · rw [failed]
    exact .inl ⟨rfl, full⟩
  rw [run, ok_bind]
  have placed := inv₁.placed (.head _)
  have same : layout.SameFile s.mem s₁.mem := by
    rw [mem_eq]
    exact sameFile_fill placed size_eq.ge
  simp only
  refine .inr ?_
  by_cases short : ph.pMemsz < ph.pFilesz
  · refine ⟨segs, s₁, b :: others, if_pos short, inv₁.perm List.perm_middle.symm, same,
      List.subset_cons_self _ _, ?_, spends⟩
    rw [if_neg fun keep => keep.2 short]
    rfl
  · refine ⟨⟨BitVec.ofNat 64 b.addr, ph⟩ :: segs, s₁, others, if_neg short, ?_, same,
      List.Subset.refl _, ?_, spends⟩
    · have record_eq : segBlock ⟨BitVec.ofNat 64 b.addr, ph⟩ = b := by
        unfold segBlock
        simp only [placed.toNat_addr.1]
        exact congrArg (Block.mk b.addr) size_eq.symm
      rw [List.map_cons, record_eq]
      exact inv₁
    · rw [if_pos ⟨kind, short⟩]
      rfl

/-- One turn of the loop of `load_segments` at a header that is in order. It runs out of memory if
the heap does not serve the record, and otherwise adds the segment, with the invariant and the
file as before. -/
theorem loadSegment_spec {n : Nat} {segs : List Segment} {s : PtState MmGran}
    {others : List Block} (inv : MemInv layout (segs.map segBlock ++ others) maps s)
    (same : layout.SameFile mem s.mem) (entry : EntryOk layout.elf mem phoff n) :
    (loadSegment layout.elf phoff n segs s = .error .null ∧
      ¬ s.heap.Serves (layout.elf.phdr mem phoff n).recordRequests) ∨
      ∃ segs' s' others', loadSegment layout.elf phoff n segs s = .ok (segs', s') ∧
        MemInv layout (segs'.map segBlock ++ others') maps s' ∧ layout.SameFile mem s'.mem ∧
        others ⊆ others' ∧ segs'.map Segment.header =
          (if (layout.elf.phdr mem phoff n).Recorded then [layout.elf.phdr mem phoff n] else []) ++
            segs.map Segment.header ∧
        Spends layout s (layout.elf.phdr mem phoff n).recordRequests (layout.has s.mem) s' := by
  have type_eq := same.pType_eq entry.type
  unfold loadSegment
  rw [require_bind_of_pos entry.type]
  simp only [type_eq]
  rw [require_bind_of_pos entry.notNull]
  by_cases kind : (layout.elf.phdr mem phoff n).pType = pTypeLoad ∨
      (layout.elf.phdr mem phoff n).pType = pTypeDynamic
  · have requests : (layout.elf.phdr mem phoff n).recordRequests = [granules sizeofSegment] :=
      if_pos kind
    rw [if_pos kind, require_bind_of_pos (entry.entry kind), same.phdr_eq (entry.entry kind),
      requests]
    rcases addSegment_spec inv _ kind with
      failed | ⟨segs', s', others', run, inv', same', more, headers, spends⟩
    · exact .inl failed
    · exact .inr ⟨segs', s', others', run, inv', same.trans same', more, headers, spends⟩
  · have requests : (layout.elf.phdr mem phoff n).recordRequests = [] := if_neg kind
    rw [if_neg kind, if_neg fun keep => kind keep.1, requests]
    exact .inr ⟨segs, s, others, rfl, inv, same, List.Subset.refl _, rfl, MmGran.After.refl _,
      TablesAt.refl _ _ _⟩

theorem loadSegment_ne_ok {n : Nat} {segs : List Segment} {s : PtState MmGran}
    (same : layout.SameFile mem s.mem) (bad : ¬ EntryOk layout.elf mem phoff n)
    (result : List Segment × PtState MmGran) :
    loadSegment layout.elf phoff n segs s ≠ .ok result := by
  intro run
  unfold loadSegment at run
  obtain ⟨type, run⟩ := of_require_bind_ok run
  obtain ⟨notNull, run⟩ := of_require_bind_ok run
  simp only [same.pType_eq type] at notNull run
  refine bad ⟨type, notNull, fun kind => ?_⟩
  rw [if_pos kind] at run
  exact (of_require_bind_ok run).1

/-- All of `load_segments`, by induction on the headers that are left. It runs out of memory
exactly if the heap does not serve all the records. -/
theorem loadSegments_spec {left : Nat} : ∀ {n : Nat} {segs : List Segment} {s : PtState MmGran}
    {others : List Block}, MemInv layout (segs.map segBlock ++ others) maps s →
    layout.SameFile mem s.mem → (∀ k, n ≤ k → k < n + left → EntryOk layout.elf mem phoff k) →
    (loadSegments layout.elf phoff left n segs s = .error .null ∧
      ¬ s.heap.Serves (recordRequests layout.elf mem phoff n left)) ∨
      ∃ segs' s' others', loadSegments layout.elf phoff left n segs s = .ok (segs', s') ∧
        MemInv layout (segs'.map segBlock ++ others') maps s' ∧ layout.SameFile mem s'.mem ∧
        others ⊆ others' ∧ segs'.map Segment.header =
          recorded layout.elf mem phoff n left ++ segs.map Segment.header ∧
        Spends layout s (recordRequests layout.elf mem phoff n left) (layout.has s.mem) s' := by
  induction left with
  | zero =>
    intro n segs s others inv same _
    exact .inr ⟨segs, s, others, rfl, inv, same, List.Subset.refl _, rfl, MmGran.After.refl _,
      TablesAt.refl _ _ _⟩
  | succ left ih =>
    intro n segs s others inv same entries
    rw [loadSegments, recordRequests_succ]
    rcases loadSegment_spec inv same (entries n le_rfl (by omega)) with
      ⟨failed, full⟩ | ⟨segs₁, s₁, others₁, run₁, inv₁, same₁, more₁, headers₁, spends₁⟩
    · rw [failed]
      exact .inl ⟨rfl, MmGran.not_serves_append full⟩
    rw [run₁, ok_bind]
    rcases ih (n := n + 1) inv₁ same₁ (fun k low high => entries k (by omega) (by omega)) with
      ⟨failed, full⟩ | ⟨segs₂, s₂, others₂, run₂, inv₂, same₂, more₂, headers₂, spends₂⟩
    · exact .inl ⟨failed, spends₁.after.serves_append.not.mpr full⟩
    · refine .inr ⟨segs₂, s₂, others₂, run₂, inv₂, same₂, List.Subset.trans more₁ more₂, ?_,
        spends₁.trans spends₂⟩
      rw [headers₂, headers₁, recorded_succ, List.append_assoc]

theorem loadSegments_ne_ok {left : Nat} : ∀ {n : Nat} {segs : List Segment} {s : PtState MmGran}
    {others : List Block}, MemInv layout (segs.map segBlock ++ others) maps s →
    layout.SameFile mem s.mem →
    (¬ ∀ k, n ≤ k → k < n + left → EntryOk layout.elf mem phoff k) →
    ∀ result, loadSegments layout.elf phoff left n segs s ≠ .ok result := by
  induction left with
  | zero =>
    intro n segs s others _ _ bad
    exact absurd (fun k low high => absurd low (by omega)) bad
  | succ left ih =>
    intro n segs s others inv same bad result run
    rw [loadSegments] at run
    obtain ⟨r, turn, rest⟩ := of_bind_ok run
    by_cases entry : EntryOk layout.elf mem phoff n
    · rcases loadSegment_spec inv same entry with
        ⟨failed, -⟩ | ⟨segs₁, s₁, others₁, run₁, inv₁, same₁, -⟩
      · cases failed.symm.trans turn
      · cases run₁.symm.trans turn
        refine ih (n := n + 1) inv₁ same₁ (fun later => bad fun k low high => ?_) result rest
        by_cases first : k = n
        · exact first ▸ entry
        · exact later k (by omega) (by omega)
    · exact loadSegment_ne_ok same entry r turn

end Load

/-! ## `populate_segments` -/

/-- The address that a segment is mapped at, which is rounded down to its alignment, and the size
of what is mapped there, which is rounded up. -/
def Elf64Phdr.loadAddr (ph : Elf64Phdr) : U64 := ph.pVaddr / ph.pAlign * ph.pAlign

def Elf64Phdr.loadSize (ph : Elf64Phdr) : U64 :=
  alignTo (ph.pVaddr % ph.pAlign + ph.pMemsz) ph.pAlign

/-- The segment can be loaded: its flags are those of code or data, its rounded range can be
backed, its part of the file is in the file, and it fits in its rounded range. -/
structure LoadOk (elf : ChinElf) (ph : Elf64Phdr) : Prop where
  flags : ph.pFlags = pfR ||| pfX ∨ ph.pFlags = pfR ||| pfW
  backable : Backable ph.loadAddr ph.loadSize
  file : ph.pFilesz.toNat = 0 ∨ elf.Has ph.pOffset.toNat ph.pFilesz.toNat
  room : ph.pMemsz.toNat ≤ ph.loadSize.toNat

instance (elf : ChinElf) (ph : Elf64Phdr) : Decidable (LoadOk elf ph) :=
  decidable_of_iff ((ph.pFlags = pfR ||| pfX ∨ ph.pFlags = pfR ||| pfW) ∧
      Backable ph.loadAddr ph.loadSize ∧
      (ph.pFilesz.toNat = 0 ∨ elf.Has ph.pOffset.toNat ph.pFilesz.toNat) ∧
      ph.pMemsz.toNat ≤ ph.loadSize.toNat)
    ⟨fun ⟨flags, backable, file, room⟩ => ⟨flags, backable, file, room⟩,
      fun ok => ⟨ok.flags, ok.backable, ok.file, ok.room⟩⟩

/-- What the memory of a segment holds: its part of the file, and then zeros. -/
def Elf64Phdr.image (ph : Elf64Phdr) (elf : ChinElf) (mem : Mem) (i : Nat) : BitVec 8 :=
  if i < ph.pFilesz.toNat then elf.byte mem (ph.pOffset.toNat + i) else 0

/-- The mapping of a segment, as `pt_map` makes it for the block that backs it. -/
def Elf64Phdr.mapping (ph : Elf64Phdr) (b : Block) : Mapping :=
  (backing ph.loadAddr ph.loadSize (elfProt ph.pFlags) b).landed

/-- What the loader keeps true of the task's `mm`. -/
structure LoadMm (p : Process) : Prop where
  areas : p.mm.areas = []
  brk : p.mm.brk = p.mm.startBrk
  base : p.mm.mmapBase = 0 ∨ p.mm.mmapBase = p.stack

section Populate

variable {layout : Layout} {mem : Mem} {maps : List Mapping} {others : List Block} {p p' : Process}
  {ph : Elf64Phdr}

theorem elfMap_eq (p : Process) (vaddr size : U64) (flags : BitVec 32) :
    elfMap p vaddr size flags =
      allocMap p.addrspace vaddr size (elfProt flags) p.pt >>= fun r =>
        pure (r.1, { p with pt := r.2 }) := by
  unfold elfMap allocMap elfCalloc
  simp only [bind_assoc, pure_bind]

theorem segmentMm_spec (flags : ph.pFlags = pfR ||| pfX ∨ ph.pFlags = pfR ||| pfW) :
    ∃ mm, segmentMm p ph = .ok mm ∧ (LoadMm p → ∀ pt, LoadMm { p with pt, mm }) := by
  unfold segmentMm
  by_cases code : ph.pFlags = pfR ||| pfX
  · rw [if_pos code]
    exact ⟨_, rfl, fun inv pt => ⟨inv.areas, inv.brk, .inr rfl⟩⟩
  · rw [if_neg code, if_pos (flags.resolve_left code)]
    exact ⟨_, rfl, fun inv pt => ⟨inv.areas, rfl, inv.base⟩⟩

theorem segmentMm_ne_ok (flags : ¬ (ph.pFlags = pfR ||| pfX ∨ ph.pFlags = pfR ||| pfW)) :
    segmentMm p ph = .error .panic := by
  obtain ⟨code, data⟩ := not_or.mp flags
  unfold segmentMm
  rw [if_neg code, if_neg data]

/-- The copy and the clearing of `copy_segment`, as one store. -/
theorem copied_eq {elf : ChinElf} {m : Mem} {a : Nat} (le : ph.pFilesz.toNat ≤ ph.pMemsz.toNat) :
    (if ph.pMemsz.toNat > ph.pFilesz.toNat then
      (m.blit a ph.pFilesz.toNat fun i => elf.byte mem (ph.pOffset.toNat + i)).fill
        (a + ph.pFilesz.toNat) (ph.pMemsz.toNat - ph.pFilesz.toNat) 0
    else m.blit a ph.pFilesz.toNat fun i => elf.byte mem (ph.pOffset.toNat + i)) =
      m.blit a ph.pMemsz.toNat (ph.image elf mem) := by
  funext x
  by_cases inside : a ≤ x ∧ x < a + ph.pMemsz.toNat
  · rw [Mem.blit_of_inside inside.1 inside.2]
    unfold Elf64Phdr.image
    by_cases inFile : x - a < ph.pFilesz.toNat
    · rw [if_pos inFile]
      split
      · rw [Mem.fill_of_outside (by omega), Mem.blit_of_inside inside.1 (by omega)]
      · rw [Mem.blit_of_inside inside.1 (by omega)]
    · rw [if_neg inFile, if_pos (by omega), Mem.fill_of_inside (by omega) (by omega)]
  · rw [Mem.blit_of_outside (by omega)]
    split
    · rw [Mem.fill_of_outside (by omega), Mem.blit_of_outside (by omega)]
    · rw [Mem.blit_of_outside (by omega)]

/-- `copy_segment` writes the image of the segment, up to its size in memory. -/
theorem copySegment_spec {elf : ChinElf} {addr : U64} {room : Nat} {s : PtState MmGran}
    (flags : ph.pFlags = pfR ||| pfX ∨ ph.pFlags = pfR ||| pfW)
    (le : ph.pFilesz.toNat ≤ ph.pMemsz.toNat)
    (file : ph.pFilesz.toNat = 0 ∨ elf.Has ph.pOffset.toNat ph.pFilesz.toNat)
    (fits : ph.pMemsz.toNat ≤ room) :
    copySegment elf ph addr room s = .ok (0, { s with
      mem := s.mem.blit (phys addr) ph.pMemsz.toNat (ph.image elf s.mem) }) := by
  have known : ¬ (ph.pFlags ≠ pfR ||| pfX ∧ ph.pFlags ≠ pfR ||| pfW) := by
    rintro ⟨code, data⟩
    exact flags.elim code data
  unfold copySegment
  simp only [Nat.not_lt.mpr le, if_false]
  rw [if_neg known, require_bind_of_pos file, require_bind_of_pos fits, copied_eq le]
  rfl

/-- A segment that `copy_segment` has copied is in the file, and fits in the memory it was copied
to. -/
theorem of_copySegment_ok {elf : ChinElf} {addr : U64} {room : Nat} {s : PtState MmGran}
    {result : Int × PtState MmGran}
    (flags : ph.pFlags = pfR ||| pfX ∨ ph.pFlags = pfR ||| pfW)
    (le : ph.pFilesz.toNat ≤ ph.pMemsz.toNat)
    (run : copySegment elf ph addr room s = .ok result) :
    (ph.pFilesz.toNat = 0 ∨ elf.Has ph.pOffset.toNat ph.pFilesz.toNat) ∧
      ph.pMemsz.toNat ≤ room := by
  have known : ¬ (ph.pFlags ≠ pfR ||| pfX ∧ ph.pFlags ≠ pfR ||| pfW) := by
    rintro ⟨code, data⟩
    exact flags.elim code data
  unfold copySegment at run
  simp only [Nat.not_lt.mpr le, if_false] at run
  rw [if_neg known] at run
  obtain ⟨file, run⟩ := of_require_bind_ok run
  exact ⟨file, (of_require_bind_ok run).1⟩

theorem Layout.SameFile.image_eq (same : layout.SameFile mem p.pt.mem)
    (file : ph.pFilesz.toNat = 0 ∨ layout.elf.Has ph.pOffset.toNat ph.pFilesz.toNat) :
    ph.image layout.elf p.pt.mem = ph.image layout.elf mem := by
  funext i
  unfold Elf64Phdr.image
  by_cases inFile : i < ph.pFilesz.toNat
  · unfold ChinElf.Has at file
    rw [if_pos inFile, if_pos inFile, same.byte_eq (by omega)]
  · rw [if_neg inFile, if_neg inFile]

theorem populateSegment_eq {mm : MmArea} (addrspace : p.addrspace = layout.userPgd)
    (load : ph.pType = pTypeLoad) (mmRun : segmentMm p ph = .ok mm) :
    populateSegment layout.elf ph p =
      allocMap layout.userPgd ph.loadAddr ph.loadSize (elfProt ph.pFlags) p.pt >>= fun r =>
        copySegment layout.elf ph r.1 ph.loadSize.toNat r.2 >>= fun c =>
          pure { p with pt := c.2, mm } := by
  unfold populateSegment
  simp only [load, if_true]
  rw [mmRun, ok_bind]
  simp only [elfMap_eq, bind_assoc, pure_bind, addrspace]
  rfl

/-- One segment: memory runs out, or it is mapped and holds its image, and everything else
that is live is as before. -/
theorem populateSegment_spec (addrspace : p.addrspace = layout.userPgd)
    (inv : MemInv layout others maps p.pt) (same : layout.SameFile mem p.pt.mem)
    (load : ph.pType = pTypeLoad) (le : ph.pFilesz.toNat ≤ ph.pMemsz.toNat)
    (ok : LoadOk layout.elf ph) :
    (populateSegment layout.elf ph p = .error .null ∧
      ¬ p.pt.heap.Serves (backRequests (layout.has p.pt.mem) ph.loadAddr ph.loadSize)) ∨
      ∃ b pt mm, populateSegment layout.elf ph p = .ok { p with pt, mm } ∧
        segmentMm p ph = .ok mm ∧ MemInv layout others (maps ++ [ph.mapping b]) pt ∧
        layout.SameFile mem pt.mem ∧ b.size = ph.loadSize.toNat ∧
        (∀ i < ph.loadSize.toNat, pt.mem (b.phys + i) = ph.image layout.elf mem i) ∧
        (∀ b' ∈ blocksOf maps ++ others, ∀ x, b'.Has x → pt.mem x = p.pt.mem x) ∧
        Spends layout p.pt (backRequests (layout.has p.pt.mem) ph.loadAddr ph.loadSize)
          (addTables (layout.has p.pt.mem) ph.loadAddr ph.loadSize) pt := by
  obtain ⟨mm, mmRun, -⟩ := segmentMm_spec (p := p) ok.flags
  rw [populateSegment_eq addrspace load mmRun]
  rcases inv.allocMap (elfProt ph.pFlags) ok.backable with
    ⟨failed, full⟩ | ⟨b, s₁, size_eq, run₁, inv₁, -, frame₁, spends₁⟩
  · rw [failed]
    exact .inl ⟨rfl, full⟩
  rw [run₁, ok_bind]
  have live : b ∈ blocksOf (maps ++ [ph.mapping b]) ++ others :=
    List.mem_append_left _ (mem_blocksOf_concat rfl)
  have placed : layout.Placed b := inv₁.good.placed live
  have room := ok.room
  -- outside the tables and the new block nothing has changed so far
  have kept₁ : ∀ x, ¬ b.Has x → (∀ q ∈ s₁.tables, ¬ linearView.InPage q x) →
      s₁.mem x = p.pt.mem x := by
    intro x outside free
    rw [frame₁ x free]
    exact Mem.fill_of_outside (Block.outside_of_not_has size_eq.ge outside)
  have file₁ : layout.SameFile mem s₁.mem := fun x inFile =>
    (kept₁ x (inFile.not_has placed) fun q => inFile.not_inPage inv₁.good).trans (same x inFile)
  have image₁ := file₁.image_eq (p := { p with pt := s₁ }) ok.file
  simp only at image₁
  rw [copySegment_spec ok.flags le ok.file ok.room, ok_bind, image₁]
  simp only
  obtain ⟨mem₂, mem₂_eq⟩ : ∃ mem₂, mem₂ =
    s₁.mem.blit b.phys ph.pMemsz.toNat (ph.image layout.elf mem) := ⟨_, rfl⟩
  have copied : ∀ x, ¬ b.Has x → mem₂ x = s₁.mem x := by
    intro x outside
    rw [mem₂_eq]
    exact Mem.blit_of_outside (Block.outside_of_not_has (by omega) outside)
  rw [show phys (BitVec.ofNat 64 b.addr) = b.phys from rfl, ← mem₂_eq]
  refine .inr ⟨b, { s₁ with mem := mem₂ }, mm, rfl, mmRun, inv₁.store live copied, ?_, size_eq,
    ?_, ?_, spends₁.after,
    spends₁.tables.trans (inv₁.tablesAt (inv₁.same_of_live live copied))⟩
  · intro x inFile
    exact (copied x (inFile.not_has placed)).trans (file₁ x inFile)
  · intro i inside
    simp only
    rw [mem₂_eq]
    by_cases inMem : i < ph.pMemsz.toNat
    · rw [Mem.blit_of_inside (by omega) (by omega), Nat.add_sub_cancel_left]
    · -- past the segment the pages are clear from the start
      have has : b.Has (b.phys + i) := Block.has_add (by omega)
      rw [Mem.blit_of_outside (by omega), frame₁ _ fun q => inv₁.good.not_inPage live has,
        Mem.fill_of_inside (by omega) (by omega)]
      unfold Elf64Phdr.image
      rw [if_neg (by omega)]
  · intro b' live' x has
    have apart : b.Apart b' := inv₁.good.apart_concat rfl b' live'
    have outside : ¬ b.Has x := fun has' =>
      apart.not_has placed (inv.good.placed live') has' has
    exact (copied x outside).trans (kept₁ x outside fun q =>
      inv₁.good.not_inPage (live_concat _ live') has)

/-- A turn of `populate_segments` at a segment that cannot be loaded does not return, whatever
memory there is. -/
theorem populateSegment_ne_ok (addrspace : p.addrspace = layout.userPgd)
    (inv : MemInv layout others maps p.pt) (load : ph.pType = pTypeLoad)
    (le : ph.pFilesz.toNat ≤ ph.pMemsz.toNat) (bad : ¬ LoadOk layout.elf ph) (p' : Process) :
    populateSegment layout.elf ph p ≠ .ok p' := by
  intro run
  by_cases flags : ph.pFlags = pfR ||| pfX ∨ ph.pFlags = pfR ||| pfW
  · obtain ⟨mm, mmRun, -⟩ := segmentMm_spec (p := p) flags
    rw [populateSegment_eq addrspace load mmRun] at run
    obtain ⟨r, alloc, run⟩ := of_bind_ok run
    obtain ⟨c, copy, -⟩ := of_bind_ok run
    by_cases backable : Backable ph.loadAddr ph.loadSize
    · obtain ⟨file, room⟩ := of_copySegment_ok flags le copy
      exact bad ⟨flags, backable, file, room⟩
    · exact inv.allocMap_ne_ok backable r alloc
  · unfold populateSegment at run
    rw [if_pos load, segmentMm_ne_ok flags] at run
    cases run

/-- The recorded headers that `populate_segments` maps, which passes over those for dynamic
linking. -/
def loadsOf (headers : List Elf64Phdr) : List Elf64Phdr :=
  headers.filter (·.pType = pTypeLoad)

theorem loadsOf_cons_of_load (load : ph.pType = pTypeLoad) (headers : List Elf64Phdr) :
    loadsOf (ph :: headers) = ph :: loadsOf headers :=
  List.filter_cons_of_pos (by simpa using load)

theorem loadsOf_cons_of_not_load (other : ph.pType ≠ pTypeLoad) (headers : List Elf64Phdr) :
    loadsOf (ph :: headers) = loadsOf headers :=
  List.filter_cons_of_neg (by simpa using other)

/-- The mappings of segments, each to the block that backs it. -/
def loadMaps (loads : List (Elf64Phdr × Block)) : List Mapping :=
  loads.map fun load => load.1.mapping load.2

/-- What the loader has done between `p` and `p'`: the segments of `loads` are mapped next to
`maps`, and their memory holds what the file has in `mem`. -/
structure Loaded (layout : Layout) (mem : Mem) (others : List Block) (maps : List Mapping)
    (loads : List (Elf64Phdr × Block)) (p p' : Process) : Prop where
  table : MemInv layout others (maps ++ loadMaps loads) p'.pt
  file : layout.SameFile mem p'.pt.mem
  images : ∀ load ∈ loads, load.2.size = load.1.loadSize.toNat ∧
    ∀ i < load.1.loadSize.toNat, p'.pt.mem (load.2.phys + i) = load.1.image layout.elf mem i
  addrspace : p'.addrspace = p.addrspace
  entry : p'.entry = p.entry
  stack : p'.stack = p.stack ∧ p'.stackSize = p.stackSize
  mm : LoadMm p → LoadMm p'

theorem Loaded.nil (inv : MemInv layout others maps p.pt) (same : layout.SameFile mem p.pt.mem) :
    Loaded layout mem others maps [] p p where
  table := by
    rw [loadMaps, List.map_nil, List.append_nil]
    exact inv
  file := same
  images load inside := by cases inside
  addrspace := rfl
  entry := rfl
  stack := ⟨rfl, rfl⟩
  mm := id

/-- One segment and those after it are loaded together, if the block of the first one is left
alone by the others. -/
theorem Loaded.cons {b : Block} {pt : PtState MmGran} {mm : MmArea}
    {loads : List (Elf64Phdr × Block)} (ok : LoadOk layout.elf ph) (mmRun : segmentMm p ph = .ok mm)
    (size_eq : b.size = ph.loadSize.toNat)
    (image : ∀ i < ph.loadSize.toNat, pt.mem (b.phys + i) = ph.image layout.elf mem i)
    (kept : ∀ x, b.Has x → p'.pt.mem x = pt.mem x)
    (rest : Loaded layout mem others (maps ++ [ph.mapping b]) loads { p with pt, mm } p') :
    Loaded layout mem others maps ((ph, b) :: loads) p p' where
  table := by
    have maps_eq : maps ++ loadMaps ((ph, b) :: loads) =
        maps ++ [ph.mapping b] ++ loadMaps loads := by
      rw [List.append_assoc]
      rfl
    rw [maps_eq]
    exact rest.table
  file := rest.file
  images := List.forall_mem_cons.mpr ⟨⟨size_eq, fun i inside =>
    (kept _ (Block.has_add (size_eq ▸ inside))).trans (image i inside)⟩, rest.images⟩
  addrspace := rest.addrspace
  entry := rest.entry
  stack := rest.stack
  mm start := by
    obtain ⟨mm', mmRun', keeps⟩ := segmentMm_spec (p := p) ok.flags
    cases mmRun.symm.trans mmRun'
    exact rest.mm (keeps start pt)

/-- The requests of `populate_segments`: what backs one segment after the other. The tables
that a segment brings are there for those that follow. -/
def loadRequests (has : List Nat → Bool) : List Elf64Phdr → List Nat
  | [] => []
  | ph :: rest => backRequests has ph.loadAddr ph.loadSize ++
      loadRequests (addTables has ph.loadAddr ph.loadSize) rest

/-- The loop: memory runs out, or all segments are loaded. -/
theorem populateSegments_spec {segs : List Segment} : ∀ {maps : List Mapping} {p : Process}
    {has : List Nat → Bool}, p.addrspace = layout.userPgd → MemInv layout others maps p.pt →
    layout.SameFile mem p.pt.mem → TablesAt linearView layout.userPgd p.pt.mem has →
    (∀ ph ∈ segs.map Segment.header, ph.pFilesz.toNat ≤ ph.pMemsz.toNat) →
    (∀ ph ∈ loadsOf (segs.map Segment.header), LoadOk layout.elf ph) →
    (populateSegments layout.elf segs p = .error .null ∧
      ¬ p.pt.heap.Serves (loadRequests has (loadsOf (segs.map Segment.header)))) ∨
      ∃ loads p', populateSegments layout.elf segs p = .ok p' ∧
        loads.map Prod.fst = loadsOf (segs.map Segment.header) ∧
        Loaded layout mem others maps loads p p' ∧
        (∀ b ∈ blocksOf maps ++ others, ∀ x, b.Has x → p'.pt.mem x = p.pt.mem x) ∧
        p.pt.heap.Serves (loadRequests has (loadsOf (segs.map Segment.header))) := by
  induction segs with
  | nil =>
    intro maps p has addrspace inv same tables _ _
    exact .inr ⟨[], p, rfl, rfl, .nil inv same, fun _ _ _ _ => rfl, (MmGran.After.refl _).serves⟩
  | cons seg segs ih =>
    intro maps p has addrspace inv same tables sizes oks
    obtain ⟨le, sizes⟩ := List.forall_mem_cons.mp sizes
    rw [populateSegments]
    by_cases load : seg.header.pType = pTypeLoad
    · rw [List.map_cons, loadsOf_cons_of_load load] at oks ⊢
      obtain ⟨ok, oks⟩ := List.forall_mem_cons.mp oks
      have requests := ok.backable.backRequests_eq tables
      rw [loadRequests]
      rcases populateSegment_spec addrspace inv same load le ok with
        ⟨failed, full⟩ |
          ⟨b, pt₁, mm₁, run₁, mmRun, inv₁, same₁, size_eq, image₁, kept₁, after₁, tables₁⟩
      · rw [failed]
        rw [requests] at full
        exact .inl ⟨rfl, MmGran.not_serves_append full⟩
      rw [run₁, ok_bind]
      rw [requests] at after₁
      rcases ih (p := { p with pt := pt₁, mm := mm₁ }) addrspace inv₁ same₁
          (tables.addTables tables₁) sizes oks with
        ⟨failed, full⟩ | ⟨loads, p', run₂, headers, loaded, kept₂, serves₂⟩
      · exact .inl ⟨failed, after₁.serves_append.not.mpr full⟩
      have live : b ∈ blocksOf (maps ++ [seg.header.mapping b]) ++ others :=
        List.mem_append_left _ (mem_blocksOf_concat rfl)
      refine .inr ⟨(seg.header, b) :: loads, p', run₂, congrArg (seg.header :: ·) headers,
        .cons ok mmRun size_eq image₁ (kept₂ b live) loaded, fun b' live' x has => ?_,
        after₁.serves_append.mpr serves₂⟩
      exact (kept₂ b' (live_concat _ live') x has).trans (kept₁ b' live' x has)
    · rw [List.map_cons, loadsOf_cons_of_not_load load] at oks ⊢
      have skip : populateSegment layout.elf seg.header p = .ok p := if_neg load
      rw [skip, ok_bind]
      exact ih addrspace inv same tables sizes oks

/-- If one of the segments cannot be loaded, `populate_segments` does not return. -/
theorem populateSegments_ne_ok {segs : List Segment} : ∀ {maps : List Mapping} {p : Process},
    p.addrspace = layout.userPgd → MemInv layout others maps p.pt →
    layout.SameFile mem p.pt.mem →
    (∀ ph ∈ segs.map Segment.header, ph.pFilesz.toNat ≤ ph.pMemsz.toNat) →
    (¬ ∀ ph ∈ loadsOf (segs.map Segment.header), LoadOk layout.elf ph) →
    ∀ p', populateSegments layout.elf segs p ≠ .ok p' := by
  induction segs with
  | nil =>
    intro maps p _ _ _ _ bad
    refine absurd (fun ph inside => ?_) bad
    cases inside
  | cons seg segs ih =>
    intro maps p addrspace inv same sizes bad p' run
    obtain ⟨le, sizes⟩ := List.forall_mem_cons.mp sizes
    rw [populateSegments] at run
    obtain ⟨p₁, turn, rest⟩ := of_bind_ok run
    by_cases load : seg.header.pType = pTypeLoad
    · by_cases ok : LoadOk layout.elf seg.header
      · rcases populateSegment_spec addrspace inv same load le ok with
          ⟨failed, -⟩ | ⟨b, pt₁, mm₁, run₁, -, inv₁, same₁, -⟩
        · cases failed.symm.trans turn
        · cases run₁.symm.trans turn
          refine ih (p := { p with pt := pt₁, mm := mm₁ }) addrspace inv₁ same₁ sizes
            (fun oks => bad fun ph inside => ?_) p' rest
          rw [List.map_cons, loadsOf_cons_of_load load] at inside
          rcases List.mem_cons.mp inside with rfl | later
          · exact ok
          · exact oks ph later
      · exact populateSegment_ne_ok addrspace inv load le ok p₁ turn
    · have skip : populateSegment layout.elf seg.header p = .ok p := if_neg load
      cases skip.symm.trans turn
      refine ih addrspace inv same sizes (fun oks => bad fun ph inside => oks ph ?_) p' rest
      rw [List.map_cons, loadsOf_cons_of_not_load load] at inside
      exact inside

/-- `remove_segments` gives the records back to the heap, and keeps the invariant for the rest. -/
theorem removeSegments_spec {segs : List Segment} : ∀ {s : PtState MmGran},
    MemInv layout (segs.map segBlock ++ others) maps s →
    ∃ heap, removeSegments segs s.heap = .ok heap ∧ MemInv layout others maps { s with heap } := by
  induction segs with
  | nil =>
    intro s inv
    exact ⟨s.heap, rfl, inv⟩
  | cons seg segs ih =>
    intro s inv
    obtain ⟨heap₁, run₁, inv₁⟩ := MemInv.free inv
    obtain ⟨heap₂, run₂, inv₂⟩ := ih inv₁
    refine ⟨heap₂, ?_, inv₂⟩
    rw [removeSegments]
    exact (congrArg (· >>= _) run₁).trans run₂

end Populate

/-! ## `elf_initialize` -/

/-- The headers of the file that `load_segments` records, the last one first. -/
def Layout.headers (layout : Layout) (mem : Mem) : List Elf64Phdr :=
  recorded layout.elf mem (layout.elf.ehdr mem).ePhoff 0 (layout.elf.ehdr mem).ePhnum

/-- The requests that `elf_initialize` makes of the granule heap: the records of the segments,
and then what backs those that are loaded. They are computed from the memory before the
call. -/
def Layout.elfRequests (layout : Layout) (mem : Mem) : List Nat :=
  recordRequests layout.elf mem (layout.elf.ehdr mem).ePhoff 0 (layout.elf.ehdr mem).ePhnum ++
    loadRequests (layout.has mem) (loadsOf (layout.headers mem))

/-- The loader can read the file and load every segment of it. -/
structure Loadable (layout : Layout) (mem : Mem) : Prop where
  ehdr : layout.elf.Has 0 sizeofElf64Ehdr
  header : ¬ elf64HeaderCheck (layout.elf.ehdr mem) < 0
  arch : ¬ elfArchCheck (layout.elf.ehdr mem) < 0
  entries : ∀ k < (layout.elf.ehdr mem).ePhnum,
    EntryOk layout.elf mem (layout.elf.ehdr mem).ePhoff k
  loads : ∀ ph ∈ loadsOf (layout.headers mem), LoadOk layout.elf ph

section Initialize

variable {layout : Layout} {maps : List Mapping} {others : List Block} {p p' : Process}

theorem filesz_le_of_mem {mem : Mem} {ph : Elf64Phdr} (inside : ph ∈ layout.headers mem) :
    ph.pFilesz.toNat ≤ ph.pMemsz.toNat := by
  unfold Layout.headers recorded at inside
  obtain ⟨-, kept⟩ := List.mem_filter.mp (List.mem_reverse.mp inside)
  exact BitVec.le_def.mp (BitVec.not_lt.mp (of_decide_eq_true kept).2)

theorem Layout.elf_ne (layout : Layout) (has : layout.elf.Has 0 sizeofElf64Ehdr) :
    layout.elf.buffer ≠ 0 ∧ layout.elf.size ≠ 0 := by
  obtain ⟨buffer_eq, -, ram⟩ := layout.toNat_elf
  constructor
  · intro zero
    rw [zero] at buffer_eq
    have null : (0 : U64).toNat = 0 := rfl
    omega
  · intro zero
    unfold ChinElf.Has at has
    rw [zero] at has
    exact absurd has (by decide)

/-- What `elf_initialize` does once it has accepted the headers. -/
theorem elfInitialize_of_header (ehdr : layout.elf.Has 0 sizeofElf64Ehdr)
    (header : ¬ elf64HeaderCheck (layout.elf.ehdr p.pt.mem) < 0)
    (arch : ¬ elfArchCheck (layout.elf.ehdr p.pt.mem) < 0) :
    elfInitialize p layout.elf =
      loadSegments layout.elf (layout.elf.ehdr p.pt.mem).ePhoff (layout.elf.ehdr p.pt.mem).ePhnum 0
        [] p.pt >>= fun r =>
      populateSegments layout.elf r.1 { p with
        pt := r.2, entry := BitVec.ofNat 64 (layout.elf.ehdr p.pt.mem).eEntry } >>= fun q =>
      removeSegments r.1 q.pt.heap >>= fun heap =>
        pure (0, { q with pt := { q.pt with heap } }) := by
  unfold elfInitialize
  rw [require_bind_of_pos (layout.elf_ne ehdr), require_bind_of_pos ehdr]
  simp only [header, arch, if_false]

/-- A file that can be loaded is, if the heap has the granules for it. -/
theorem elfInitialize_spec (addrspace : p.addrspace = layout.userPgd)
    (inv : MemInv layout others maps p.pt) (loadable : Loadable layout p.pt.mem) :
    (elfInitialize p layout.elf = .error .null ∧
      ¬ p.pt.heap.Serves (layout.elfRequests p.pt.mem)) ∨
      ∃ loads others' p', elfInitialize p layout.elf = .ok (0, p') ∧ others ⊆ others' ∧
        loads.map Prod.fst = loadsOf (layout.headers p.pt.mem) ∧
        Loaded layout p.pt.mem others' maps loads
          { p with entry := BitVec.ofNat 64 (layout.elf.ehdr p.pt.mem).eEntry } p' ∧
        p.pt.heap.Serves (layout.elfRequests p.pt.mem) := by
  rw [elfInitialize_of_header loadable.ehdr loadable.header loadable.arch]
  have entries : ∀ k, 0 ≤ k → k < 0 + (layout.elf.ehdr p.pt.mem).ePhnum →
      EntryOk layout.elf p.pt.mem (layout.elf.ehdr p.pt.mem).ePhoff k :=
    fun k _ high => loadable.entries k (by omega)
  have nothing : MemInv layout ([].map segBlock ++ others) maps p.pt := inv
  rcases loadSegments_spec nothing (fun _ _ => rfl) entries with
    ⟨failed, full⟩ | ⟨segs, s₁, others', run₁, inv₁, same₁, more, headers, spends₁⟩
  · rw [failed]
    exact .inl ⟨rfl, MmGran.not_serves_append full⟩
  rw [List.map_nil, List.append_nil] at headers
  have headers_eq : segs.map Segment.header = layout.headers p.pt.mem := headers
  rw [run₁, ok_bind]
  obtain ⟨p₁, p₁_eq⟩ : ∃ p₁, p₁ = { p with
    pt := s₁, entry := BitVec.ofNat 64 (layout.elf.ehdr p.pt.mem).eEntry } := ⟨_, rfl⟩
  have pt_eq : p₁.pt = s₁ := by rw [p₁_eq]
  simp only
  rw [← p₁_eq]
  rcases populateSegments_spec (p := p₁) (by rw [p₁_eq]; exact addrspace)
      (pt_eq ▸ inv₁) (pt_eq ▸ same₁) (pt_eq ▸ spends₁.tables)
      (fun ph inside => filesz_le_of_mem (headers_eq ▸ inside)) (headers_eq ▸ loadable.loads) with
    ⟨failed, full⟩ | ⟨loads, p₂, run₂, loads_eq, loaded, -, serves₂⟩
  · rw [failed]
    rw [pt_eq, headers_eq] at full
    exact .inl ⟨rfl, spends₁.after.serves_append.not.mpr full⟩
  obtain ⟨heap, run₃, inv₃⟩ := removeSegments_spec loaded.table
  rw [run₂, ok_bind, run₃, ok_bind]
  rw [headers_eq] at loads_eq
  rw [pt_eq, headers_eq] at serves₂
  refine .inr ⟨loads, others', _, rfl, more, loads_eq, ⟨inv₃, loaded.file, loaded.images, ?_, ?_,
    ?_, fun mm => ?_⟩, spends₁.after.serves_append.mpr serves₂⟩
  · rw [loaded.addrspace, p₁_eq]
  · rw [loaded.entry, p₁_eq]
  · simp only
    rw [loaded.stack.1, loaded.stack.2, p₁_eq]
    exact ⟨rfl, rfl⟩
  · have mm₂ := loaded.mm (by rw [p₁_eq]; exact ⟨mm.areas, mm.brk, mm.base⟩)
    exact ⟨mm₂.areas, mm₂.brk, mm₂.base⟩

/-- A file that cannot be loaded never is: the loader refuses it, or does not return. -/
theorem elfInitialize_of_not_loadable (addrspace : p.addrspace = layout.userPgd)
    (inv : MemInv layout others maps p.pt) (bad : ¬ Loadable layout p.pt.mem) {ret : Int}
    (run : elfInitialize p layout.elf = .ok (ret, p')) : ret = negEnoexec := by
  by_cases ehdr : layout.elf.Has 0 sizeofElf64Ehdr
  swap
  · unfold elfInitialize at run
    obtain ⟨-, run⟩ := of_require_bind_ok run
    exact absurd (of_require_bind_ok run).1 ehdr
  by_cases header : elf64HeaderCheck (layout.elf.ehdr p.pt.mem) < 0
  · unfold elfInitialize at run
    rw [require_bind_of_pos (layout.elf_ne ehdr), require_bind_of_pos ehdr] at run
    simp only [header, if_true] at run
    cases run
    rfl
  by_cases arch : elfArchCheck (layout.elf.ehdr p.pt.mem) < 0
  · unfold elfInitialize at run
    rw [require_bind_of_pos (layout.elf_ne ehdr), require_bind_of_pos ehdr] at run
    simp only [header, arch, if_true, if_false] at run
    cases run
    rfl
  rw [elfInitialize_of_header ehdr header arch] at run
  obtain ⟨⟨segs, s₁⟩, loadRun, run⟩ := of_bind_ok run
  obtain ⟨p₂, populateRun, -⟩ := of_bind_ok run
  have nothing : MemInv layout ([].map segBlock ++ others) maps p.pt := inv
  by_cases entries : ∀ k, 0 ≤ k → k < 0 + (layout.elf.ehdr p.pt.mem).ePhnum →
      EntryOk layout.elf p.pt.mem (layout.elf.ehdr p.pt.mem).ePhoff k
  swap
  · exact absurd loadRun (loadSegments_ne_ok nothing (fun _ _ => rfl) entries _)
  rcases loadSegments_spec nothing (fun _ _ => rfl) entries with
    ⟨failed, -⟩ | ⟨segs', s₁', others', run₁, inv₁, same₁, -, headers, -⟩
  · cases failed.symm.trans loadRun
  cases run₁.symm.trans loadRun
  rw [List.map_nil, List.append_nil] at headers
  have headers_eq : segs.map Segment.header = layout.headers p.pt.mem := headers
  refine absurd populateRun (populateSegments_ne_ok (p := { p with
      pt := s₁, entry := BitVec.ofNat 64 (layout.elf.ehdr p.pt.mem).eEntry }) addrspace inv₁ same₁
    (fun ph inside => filesz_le_of_mem (headers_eq ▸ inside)) (fun loads => bad ?_) p₂)
  exact ⟨ehdr, header, arch, fun k high => entries k (by omega) (by omega),
    headers_eq ▸ loads⟩

/-- A file for which `elf_initialize` has returned 0 is one that can be loaded. -/
theorem loadable_of_run (addrspace : p.addrspace = layout.userPgd)
    (inv : MemInv layout others maps p.pt) (run : elfInitialize p layout.elf = .ok (0, p')) :
    Loadable layout p.pt.mem := by
  by_contra bad
  have refused := elfInitialize_of_not_loadable addrspace inv bad run
  exact absurd refused (by decide)

end Initialize

end Chinos
