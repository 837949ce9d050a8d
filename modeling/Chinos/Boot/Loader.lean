import Chinos.Boot.Image

/-!
# Files that the loader is not meant for

`elf_initialize` tests the ELF header and trusts the rest of the file. The offsets and counts
in it are never compared with the size of the file, so what the loader reads is inside the
file only if the file itself keeps to its size. And a program header that cannot be loaded
has no way to fail: `add_segment` forgets it, or `populate_segments` stops the kernel.

What the loader does on the way is said in terms of the parts of its two loops that have
been run: up to the header that `load_segments` looks at, or up to the segment that
`populate_segments` loads.
-/

namespace Chinos

/-! ## Parts of the two loops -/

section Loops

variable {elf : ChinElf} {phoff : Nat}

theorem loadSegments_add (first rest : Nat) : ∀ (n : Nat) (segs : List Segment)
    (s : PtState MmGran), loadSegments elf phoff (first + rest) n segs s =
      loadSegments elf phoff first n segs s >>= fun r =>
        loadSegments elf phoff rest (n + first) r.1 r.2 := by
  induction first with
  | zero =>
    intro n segs s
    rw [Nat.zero_add]
    rfl
  | succ first ih =>
    intro n segs s
    rw [Nat.succ_add_eq_add_succ, Nat.add_succ, loadSegments, loadSegments, bind_assoc]
    congr 1
    funext r
    rw [show n + (first + 1) = n + 1 + first by omega]
    exact ih (n + 1) r.1 r.2

theorem populateSegments_append (before after : List Segment) : ∀ p : Process,
    populateSegments elf (before ++ after) p =
      populateSegments elf before p >>= populateSegments elf after := by
  induction before with
  | nil =>
    intro p
    rfl
  | cons seg before ih =>
    intro p
    rw [List.cons_append, populateSegments, populateSegments, bind_assoc]
    congr 1
    funext q
    exact ih q

theorem loadsOf_append (before after : List Elf64Phdr) :
    loadsOf (before ++ after) = loadsOf before ++ loadsOf after :=
  List.filter_append before after

/-- A list of segments, cut at one that is loaded. -/
theorem segments_cut {segs : List Segment} {before after : List Elf64Phdr} {ph : Elf64Phdr}
    (cut : loadsOf (segs.map Segment.header) = before ++ ph :: after) :
    ∃ front seg back, segs = front ++ seg :: back ∧ seg.header = ph ∧ ph.pType = pTypeLoad ∧
      loadsOf (front.map Segment.header) = before := by
  obtain ⟨headers₁, headers₂, split₁, first, second⟩ := List.filter_eq_append_iff.mp cut
  obtain ⟨skipped, headers₃, split₂, none, load, -⟩ := List.filter_eq_cons_iff.mp second
  rw [split₂, ← List.append_assoc] at split₁
  obtain ⟨front, tail, rfl, front_eq, tail_eq⟩ := List.map_eq_append_iff.mp split₁
  obtain ⟨seg, back, rfl, seg_eq, -⟩ := List.map_eq_cons_iff.mp tail_eq
  refine ⟨front, seg, back, rfl, seg_eq, of_decide_eq_true load, ?_⟩
  have skip : loadsOf skipped = [] := List.filter_eq_nil_iff.mpr none
  rw [front_eq, loadsOf_append, skip, List.append_nil]
  exact first

end Loops

/-- The ELF header is in the file and is accepted. -/
structure ChinElf.Accepted (elf : ChinElf) (mem : Mem) : Prop where
  ehdr : elf.Has 0 sizeofElf64Ehdr
  header : ¬ elf64HeaderCheck (elf.ehdr mem) < 0
  arch : ¬ elfArchCheck (elf.ehdr mem) < 0

/-- `load_segments` has looked at the first `n` headers and made `segs` of them. -/
structure LoadReaches (elf : ChinElf) (p : Process) (n : Nat) (segs : List Segment)
    (s : PtState MmGran) : Prop where
  accepted : elf.Accepted p.pt.mem
  run : loadSegments elf (elf.ehdr p.pt.mem).ePhoff n 0 [] p.pt = .ok (segs, s)

/-- `populate_segments` comes to the segment of header `ph`, one to load, with the task in
state `p₁`. -/
structure PopulateReaches (elf : ChinElf) (p : Process) (ph : Elf64Phdr) (p₁ : Process) :
    Prop where
  load : ph.pType = pTypeLoad
  run : ∃ s front seg back,
    LoadReaches elf p (elf.ehdr p.pt.mem).ePhnum (front ++ seg :: back) s ∧ seg.header = ph ∧
      populateSegments elf front
        { p with pt := s, entry := BitVec.ofNat 64 (elf.ehdr p.pt.mem).eEntry } = .ok p₁

section Reach

variable {layout : Layout} {others : List Block} {maps : List Mapping} {p p₁ : Process} {n : Nat}
  {segs : List Segment} {s : PtState MmGran} {ph : Elf64Phdr}

theorem LoadReaches.entries (reaches : LoadReaches layout.elf p n segs s)
    (inv : MemInv layout others maps p.pt) :
    ∀ k < n, EntryOk layout.elf p.pt.mem (layout.elf.ehdr p.pt.mem).ePhoff k := by
  have nothing : MemInv layout ([].map segBlock ++ others) maps p.pt := inv
  intro k high
  by_contra bad
  refine loadSegments_ne_ok nothing (fun _ _ => rfl) (fun all => bad ?_) _ reaches.run
  exact all k (Nat.zero_le k) (by omega)

/-- What `load_segments` has done so far: it has read the headers before the one it is at,
recorded those to load, and written nothing to the file. -/
theorem LoadReaches.spec (reaches : LoadReaches layout.elf p n segs s)
    (inv : MemInv layout others maps p.pt) :
    (∃ others', MemInv layout (segs.map segBlock ++ others') maps s) ∧
      layout.SameFile p.pt.mem s.mem ∧ segs.map Segment.header =
        recorded layout.elf p.pt.mem (layout.elf.ehdr p.pt.mem).ePhoff 0 n := by
  have nothing : MemInv layout ([].map segBlock ++ others) maps p.pt := inv
  have entries : ∀ k, 0 ≤ k → k < 0 + n →
      EntryOk layout.elf p.pt.mem (layout.elf.ehdr p.pt.mem).ePhoff k :=
    fun k _ high => reaches.entries inv k (by omega)
  rcases loadSegments_spec nothing (fun _ _ => rfl) entries with
    ⟨failed, -⟩ | ⟨segs', s', others', run, inv', same, -, headers, -⟩
  · cases failed.symm.trans reaches.run
  · cases run.symm.trans reaches.run
    rw [List.map_nil, List.append_nil] at headers
    exact ⟨⟨others', inv'⟩, same, headers⟩

theorem filesz_le_of_front {mem : Mem} {front back : List Segment}
    (headers : (front ++ back).map Segment.header = layout.headers mem) :
    ∀ ph ∈ front.map Segment.header, ph.pFilesz.toNat ≤ ph.pMemsz.toNat := by
  intro ph inside
  rw [List.map_append] at headers
  have inHeaders : ph ∈ layout.headers mem := headers ▸ List.mem_append_left _ inside
  exact filesz_le_of_mem inHeaders

/-- What `populate_segments` has done when it comes to a segment: it has loaded the ones
before it. -/
theorem PopulateReaches.spec (reaches : PopulateReaches layout.elf p ph p₁)
    (addrspace : p.addrspace = layout.userPgd) (inv : MemInv layout others maps p.pt) :
    (∀ k < (layout.elf.ehdr p.pt.mem).ePhnum,
      EntryOk layout.elf p.pt.mem (layout.elf.ehdr p.pt.mem).ePhoff k) ∧
    (∃ before after, loadsOf (layout.headers p.pt.mem) = before ++ ph :: after ∧
      ∀ ph' ∈ before, LoadOk layout.elf ph') ∧
    p₁.addrspace = layout.userPgd ∧ ∃ others' maps', MemInv layout others' maps' p₁.pt := by
  obtain ⟨s, front, seg, back, load, header_eq, run⟩ := reaches.run
  obtain ⟨⟨others', inv₁⟩, same, headers⟩ := load.spec inv
  have headers_eq : (front ++ seg :: back).map Segment.header = layout.headers p.pt.mem := headers
  have sizes := filesz_le_of_front headers_eq
  have oks : ∀ ph ∈ loadsOf (front.map Segment.header), LoadOk layout.elf ph := by
    by_contra bad
    exact populateSegments_ne_ok (p := { p with
      pt := s, entry := BitVec.ofNat 64 (layout.elf.ehdr p.pt.mem).eEntry })
      addrspace inv₁ same sizes bad p₁ run
  refine ⟨load.entries inv, ⟨_, loadsOf (back.map Segment.header), ?_, oks⟩, ?_⟩
  · have isLoad : seg.header.pType = pTypeLoad := header_eq ▸ reaches.load
    rw [← headers_eq, List.map_append, loadsOf_append, List.map_cons,
      loadsOf_cons_of_load isLoad, ← header_eq]
  · rcases populateSegments_spec (p := { p with
        pt := s, entry := BitVec.ofNat 64 (layout.elf.ehdr p.pt.mem).eEntry })
      addrspace inv₁ same (TablesAt.refl _ _ _) sizes oks with
      ⟨failed, -⟩ | ⟨loads, p', run', -, loaded, -⟩
    · cases failed.symm.trans run
    · cases run'.symm.trans run
      exact ⟨loaded.addrspace.trans addrspace, _, _, loaded.table⟩

theorem PopulateReaches.accepted (reaches : PopulateReaches layout.elf p ph p₁) :
    layout.elf.Accepted p.pt.mem := by
  obtain ⟨s, front, seg, back, load, -⟩ := reaches.run
  exact load.accepted

/-- If memory runs out at a segment that is reached, it does for the loader. -/
theorem PopulateReaches.out_of_memory (reaches : PopulateReaches layout.elf p ph p₁)
    (failed : populateSegment layout.elf ph p₁ = .error .null) :
    elfInitialize p layout.elf = .error .null := by
  have accepted := reaches.accepted
  obtain ⟨s, front, seg, back, load, header_eq, run⟩ := reaches.run
  rw [elfInitialize_of_header accepted.ehdr accepted.header accepted.arch, load.run, ok_bind,
    populateSegments_append, run, ok_bind, populateSegments, header_eq, failed]
  rfl

/-- With memory to load the file, `load_segments` gets past every header before which all are in
order. -/
theorem loadReaches_of_entries (inv : MemInv layout others maps p.pt)
    (accepted : layout.elf.Accepted p.pt.mem) (le : n ≤ (layout.elf.ehdr p.pt.mem).ePhnum)
    (entries : ∀ k < n, EntryOk layout.elf p.pt.mem (layout.elf.ehdr p.pt.mem).ePhoff k)
    (room : elfInitialize p layout.elf ≠ .error .null) :
    ∃ segs s, LoadReaches layout.elf p n segs s := by
  have nothing : MemInv layout ([].map segBlock ++ others) maps p.pt := inv
  have upTo : ∀ k, 0 ≤ k → k < 0 + n →
      EntryOk layout.elf p.pt.mem (layout.elf.ehdr p.pt.mem).ePhoff k :=
    fun k _ high => entries k (by omega)
  rcases loadSegments_spec nothing (fun _ _ => rfl) upTo with
    ⟨failed, -⟩ | ⟨segs, s, -, run, -⟩
  · refine absurd ?_ room
    rw [elfInitialize_of_header accepted.ehdr accepted.header accepted.arch,
      ← Nat.add_sub_cancel' le, loadSegments_add, failed]
    rfl
  · exact ⟨segs, s, accepted, run⟩

/-- With memory to load the file, `populate_segments` comes to every segment before which all can
be loaded. -/
theorem populateReaches_of_loads {before after : List Elf64Phdr}
    (addrspace : p.addrspace = layout.userPgd) (inv : MemInv layout others maps p.pt)
    (accepted : layout.elf.Accepted p.pt.mem)
    (entries : ∀ k < (layout.elf.ehdr p.pt.mem).ePhnum,
      EntryOk layout.elf p.pt.mem (layout.elf.ehdr p.pt.mem).ePhoff k)
    (cut : loadsOf (layout.headers p.pt.mem) = before ++ ph :: after)
    (oks : ∀ ph' ∈ before, LoadOk layout.elf ph')
    (room : elfInitialize p layout.elf ≠ .error .null) :
    ∃ p₁, PopulateReaches layout.elf p ph p₁ := by
  obtain ⟨segs, s, load⟩ := loadReaches_of_entries inv accepted le_rfl entries room
  obtain ⟨⟨others', inv₁⟩, same, headers⟩ := load.spec inv
  have headers_eq : segs.map Segment.header = layout.headers p.pt.mem := headers
  rw [← headers_eq] at cut
  obtain ⟨front, seg, back, rfl, header_eq, isLoad, front_eq⟩ := segments_cut cut
  have sizes := filesz_le_of_front headers_eq
  rcases populateSegments_spec (p := { p with
      pt := s, entry := BitVec.ofNat 64 (layout.elf.ehdr p.pt.mem).eEntry })
    addrspace inv₁ same (TablesAt.refl _ _ _) sizes (front_eq ▸ oks) with
    ⟨failed, -⟩ | ⟨-, p₁, run, -⟩
  · refine absurd ?_ room
    rw [elfInitialize_of_header accepted.ehdr accepted.header accepted.arch, load.run, ok_bind,
      populateSegments_append, failed]
    rfl
  · exact ⟨p₁, isLoad, s, front, seg, back, load, header_eq, run⟩

end Reach

/-! ## What is read of the file -/

/-- `elf_initialize` reads the `n` bytes at `offset` of the file: the ELF header, the type of
a program header, all of the header if the type makes a segment of it, or the part of the
file that `copy_segment` copies. -/
inductive ElfReads (elf : ChinElf) (p : Process) : (offset n : Nat) → Prop
  | ehdr (given : elf.buffer ≠ 0 ∧ elf.size ≠ 0) : ElfReads elf p 0 sizeofElf64Ehdr
  | type {n : Nat} {segs : List Segment} {s : PtState MmGran}
      (reaches : LoadReaches elf p n segs s) (lt : n < (elf.ehdr p.pt.mem).ePhnum) :
      ElfReads elf p ((elf.ehdr p.pt.mem).ePhoff + sizeofElf64Phdr * n) 4
  | entry {n : Nat} {segs : List Segment} {s : PtState MmGran}
      (reaches : LoadReaches elf p n segs s) (lt : n < (elf.ehdr p.pt.mem).ePhnum)
      (type : elf.Has ((elf.ehdr p.pt.mem).ePhoff + sizeofElf64Phdr * n) 4)
      (kind : (elf.phdr s.mem (elf.ehdr p.pt.mem).ePhoff n).pType = pTypeLoad ∨
        (elf.phdr s.mem (elf.ehdr p.pt.mem).ePhoff n).pType = pTypeDynamic) :
      ElfReads elf p ((elf.ehdr p.pt.mem).ePhoff + sizeofElf64Phdr * n) sizeofElf64Phdr
  -- every segment has the flags and the sizes that `copy_segment` tests before the copy
  | copy {ph : Elf64Phdr} {p₁ p₂ : Process} {mm : MmArea} {addr : U64}
      (reaches : PopulateReaches elf p ph p₁) (mmRun : segmentMm p₁ ph = .ok mm)
      (mapRun : elfMap { p₁ with mm } ph.loadAddr ph.loadSize ph.pFlags = .ok (addr, p₂)) :
      ElfReads elf p ph.pOffset.toNat ph.pFilesz.toNat

/-- Every byte that is read is in the file. -/
def ReadsInside (elf : ChinElf) (p : Process) : Prop :=
  ∀ offset n, ElfReads elf p offset n → ∀ i < n, offset + i < elf.size.toNat

/-- The file keeps to its size, as far as the loader looks at it: it holds an ELF header, the
program headers up to the first null one, and the file parts of the segments up to the first
one that stops the kernel. -/
structure FileHolds (layout : Layout) (mem : Mem) : Prop where
  ehdr : layout.elf.Has 0 sizeofElf64Ehdr
  entries : layout.elf.Accepted mem → ∀ k < (layout.elf.ehdr mem).ePhnum,
    (∀ j < k, (layout.phdr mem j).pType ≠ pTypeNull) →
    layout.elf.Has ((layout.elf.ehdr mem).ePhoff + sizeofElf64Phdr * k) 4 ∧
      ((layout.phdr mem k).pType = pTypeLoad ∨ (layout.phdr mem k).pType = pTypeDynamic →
        layout.elf.Has ((layout.elf.ehdr mem).ePhoff + sizeofElf64Phdr * k) sizeofElf64Phdr)
  segments : layout.elf.Accepted mem →
    (∀ k < (layout.elf.ehdr mem).ePhnum, (layout.phdr mem k).pType ≠ pTypeNull) →
    ∀ before ph after, loadsOf (layout.headers mem) = before ++ ph :: after →
      (∀ ph' ∈ before, LoadOk layout.elf ph') →
      (ph.pFlags = pfR ||| pfX ∨ ph.pFlags = pfR ||| pfW) → Backable ph.loadAddr ph.loadSize →
      ph.pFilesz.toNat = 0 ∨ layout.elf.Has ph.pOffset.toNat ph.pFilesz.toNat

section Reads

variable {layout : Layout} {others : List Block} {maps : List Mapping} {p : Process}

theorem ChinElf.has_iff {elf : ChinElf} {offset n : Nat} :
    (∀ i < n, offset + i < elf.size.toNat) ↔ n = 0 ∨ elf.Has offset n := by
  unfold ChinElf.Has
  constructor
  · intro inside
    rcases Nat.eq_zero_or_pos n with zero | pos
    · exact .inl zero
    · have last := inside (n - 1) (by omega)
      exact .inr (by omega)
  · rintro (rfl | inside) i lt
    · exact absurd lt (Nat.not_lt_zero i)
    · omega

/-- The flags of a segment that gets past the choice of `populate_segments`. -/
theorem flags_of_segmentMm {ph : Elf64Phdr} {mm : MmArea} (run : segmentMm p ph = .ok mm) :
    ph.pFlags = pfR ||| pfX ∨ ph.pFlags = pfR ||| pfW := by
  by_contra flags
  rw [segmentMm_ne_ok flags] at run
  cases run

/-- A file that keeps to its size is not read past its end. -/
theorem FileHolds.readsInside (holds : FileHolds layout p.pt.mem)
    (addrspace : p.addrspace = layout.userPgd) (inv : MemInv layout others maps p.pt) :
    ReadsInside layout.elf p := by
  intro offset n reads
  rw [ChinElf.has_iff]
  cases reads with
  | ehdr => exact .inr holds.ehdr
  | type reaches lt =>
    have entries := reaches.entries inv
    exact .inr (holds.entries reaches.accepted _ lt fun j lt => (entries j lt).notNull).1
  | entry reaches lt type kind =>
    have entries := reaches.entries inv
    obtain ⟨-, same, -⟩ := reaches.spec inv
    rw [same.pType_eq type] at kind
    exact .inr ((holds.entries reaches.accepted _ lt fun j lt => (entries j lt).notNull).2 kind)
  | copy reaches mmRun mapRun =>
    obtain ⟨entries, ⟨before, after, cut, oks⟩, addrspace₁, others₁, maps₁, inv₁⟩ :=
      reaches.spec addrspace inv
    refine holds.segments reaches.accepted (fun k lt => (entries k lt).notNull) before _ after cut
      oks
      (flags_of_segmentMm mmRun) ?_
    -- memory that is mapped was asked for with a range that can be backed
    by_contra refused
    rw [elfMap_eq] at mapRun
    obtain ⟨r, alloc, -⟩ := of_bind_ok mapRun
    simp only [addrspace₁] at alloc
    exact inv₁.allocMap_ne_ok refused r alloc

/-- A file that does not keep to its size is read past its end, unless memory runs out first. -/
theorem ReadsInside.fileHolds (inside : ReadsInside layout.elf p)
    (addrspace : p.addrspace = layout.userPgd) (inv : MemInv layout others maps p.pt)
    (size : layout.elf.size ≠ 0) (room : elfInitialize p layout.elf ≠ .error .null) :
    FileHolds layout p.pt.mem := by
  obtain ⟨buffer_eq, -, ram⟩ := layout.toNat_elf
  have buffer : layout.elf.buffer ≠ 0 := by
    intro zero
    rw [zero] at buffer_eq
    have null : (0 : U64).toNat = 0 := rfl
    omega
  have ehdr : layout.elf.Has 0 sizeofElf64Ehdr :=
    (ChinElf.has_iff.mp (inside _ _ (.ehdr ⟨buffer, size⟩))).resolve_left (by decide)
  -- header after header: what is read of each is in the file, so the loader gets to the next
  have entries : layout.elf.Accepted p.pt.mem → ∀ k, k < (layout.elf.ehdr p.pt.mem).ePhnum →
      (∀ j < k, (layout.phdr p.pt.mem j).pType ≠ pTypeNull) →
      layout.elf.Has ((layout.elf.ehdr p.pt.mem).ePhoff + sizeofElf64Phdr * k) 4 ∧
        ((layout.phdr p.pt.mem k).pType = pTypeLoad ∨
            (layout.phdr p.pt.mem k).pType = pTypeDynamic →
          layout.elf.Has ((layout.elf.ehdr p.pt.mem).ePhoff + sizeofElf64Phdr * k)
            sizeofElf64Phdr) := by
    intro accepted k
    induction k using Nat.strong_induction_on with
    | _ k ih =>
      intro lt notNull
      have before : ∀ j < k,
          EntryOk layout.elf p.pt.mem (layout.elf.ehdr p.pt.mem).ePhoff j := by
        intro j ltk
        obtain ⟨type, entry⟩ := ih j ltk (ltk.trans lt) fun i lti => notNull i (lti.trans ltk)
        exact ⟨type, notNull j ltk, entry⟩
      obtain ⟨segs, s, reaches⟩ := loadReaches_of_entries inv accepted lt.le before room
      obtain ⟨-, same, -⟩ := reaches.spec inv
      have type := (ChinElf.has_iff.mp (inside _ _ (.type reaches lt))).resolve_left (by decide)
      refine ⟨type, fun kind => ?_⟩
      have kind' := kind
      unfold Layout.phdr at kind'
      rw [← same.pType_eq type] at kind'
      exact (ChinElf.has_iff.mp (inside _ _ (.entry reaches lt type kind'))).resolve_left
        (by decide)
  refine ⟨ehdr, entries, fun accepted notNull before ph after cut oks flags backable => ?_⟩
  have all : ∀ k < (layout.elf.ehdr p.pt.mem).ePhnum,
      EntryOk layout.elf p.pt.mem (layout.elf.ehdr p.pt.mem).ePhoff k := by
    intro k lt
    obtain ⟨type, entry⟩ := entries accepted k lt fun j ltk => notNull j (ltk.trans lt)
    exact ⟨type, notNull k lt, entry⟩
  obtain ⟨p₁, reaches⟩ := populateReaches_of_loads addrspace inv accepted all cut oks room
  obtain ⟨-, -, addrspace₁, others₁, maps₁, inv₁⟩ := reaches.spec addrspace inv
  obtain ⟨mm, mmRun, -⟩ := segmentMm_spec (p := p₁) flags
  rcases inv₁.allocMap (elfProt ph.pFlags) backable with
    ⟨failed, -⟩ | ⟨b, s₂, -, mapped, -⟩
  · refine absurd (reaches.out_of_memory ?_) room
    rw [populateSegment_eq addrspace₁ reaches.load mmRun, failed]
    rfl
  · have mapRun : elfMap { p₁ with mm } ph.loadAddr ph.loadSize ph.pFlags =
        .ok (BitVec.ofNat 64 b.addr, { p₁ with mm, pt := s₂ }) := by
      rw [elfMap_eq]
      simp only [addrspace₁]
      rw [mapped]
      rfl
    exact ChinElf.has_iff.mp (inside _ _ (.copy reaches mmRun mapRun))

end Reads

/-- The loader reads inside the file exactly if the file keeps to its size. -/
theorem elf_reads_inside_iff {boot : Boot} {p : Process} (start : rootStart boot = .ok p)
    (size : boot.layout.elf.size ≠ 0) :
    (FileHolds boot.layout p.pt.mem → ReadsInside boot.layout.elf p) ∧
      (elfInitialize p boot.layout.elf ≠ .error .null →
        ReadsInside boot.layout.elf p → FileHolds boot.layout p.pt.mem) := by
  obtain ⟨addrspace, others, inv⟩ := rootStart_ok start
  constructor
  · intro holds
    exact holds.readsInside addrspace inv
  · intro room inside
    exact inside.fileHolds addrspace inv size room

instance (elf : ChinElf) (mem : Mem) : Decidable (elf.Accepted mem) :=
  decidable_of_iff (elf.Has 0 sizeofElf64Ehdr ∧ ¬ elf64HeaderCheck (elf.ehdr mem) < 0 ∧
      ¬ elfArchCheck (elf.ehdr mem) < 0)
    ⟨fun ⟨ehdr, header, arch⟩ => ⟨ehdr, header, arch⟩,
      fun accepted => ⟨accepted.ehdr, accepted.header, accepted.arch⟩⟩

/-- A file that holds all of its headers and segments keeps to its size. -/
theorem FileHolds.of_all {layout : Layout} {mem : Mem} (ehdr : layout.elf.Has 0 sizeofElf64Ehdr)
    (entries : ∀ k < (layout.elf.ehdr mem).ePhnum,
      layout.elf.Has ((layout.elf.ehdr mem).ePhoff + sizeofElf64Phdr * k) sizeofElf64Phdr)
    (segments : ∀ ph ∈ loadsOf (layout.headers mem),
      layout.elf.Has ph.pOffset.toNat ph.pFilesz.toNat) : FileHolds layout mem := by
  have short : 4 ≤ sizeofElf64Phdr := by decide
  refine ⟨ehdr, fun _ k lt _ => ⟨le_trans (Nat.add_le_add_left short _) (entries k lt),
    fun _ => entries k lt⟩, ?_⟩
  intro _ _ before ph after loads _ _ _
  refine .inr (segments ph ?_)
  rw [loads]
  exact List.mem_append_right before List.mem_cons_self

/-- If the file keeps to its size, it holds the file part of the segment that is loaded first,
when that one can be loaded. -/
theorem FileHolds.first {layout : Layout} {mem : Mem} {ph : Elf64Phdr}
    (holds : FileHolds layout mem) (accepted : layout.elf.Accepted mem)
    (notNull : ∀ k < (layout.elf.ehdr mem).ePhnum, (layout.phdr mem k).pType ≠ pTypeNull)
    (isFirst : ph ∈ (loadsOf (layout.headers mem)).head?)
    (flags : ph.pFlags = pfR ||| pfX ∨ ph.pFlags = pfR ||| pfW)
    (backable : Backable ph.loadAddr ph.loadSize) :
    ph.pFilesz.toNat = 0 ∨ layout.elf.Has ph.pOffset.toNat ph.pFilesz.toNat := by
  obtain ⟨after, loads⟩ := List.head?_eq_some_iff.mp isFirst
  exact holds.segments accepted notNull [] ph after loads (by simp) flags backable

/-- The small kernel's file with the data at offset 182, two bytes before its end. -/
def overrunFile : List Nat :=
  sampleEhdr ++ samplePhdr 1 5 176 [0, 0, 0x40] 4 4 ++ samplePhdr 1 6 182 [0, 0, 0x41] 4 8 ++
    [0xc0, 0x03, 0x5f, 0xd6, 1, 2, 3, 4]

/-- The small kernel's own file is read inside its size, and the file above is not. -/
theorem elf_reads_inside_iff_sample :
    (∃ p, rootStart (sampleBoot sampleFile) = .ok p ∧ ReadsInside sampleLayout.elf p) ∧
    ∃ p, rootStart (sampleBoot overrunFile) = .ok p ∧ ¬ ReadsInside sampleLayout.elf p := by
  have size : sampleLayout.elf.size ≠ 0 := by decide
  have good : Returns (rootStart (sampleBoot sampleFile)) fun p =>
      sampleLayout.elf.Has 0 sizeofElf64Ehdr ∧
      (∀ k < (sampleLayout.elf.ehdr p.pt.mem).ePhnum, sampleLayout.elf.Has
        ((sampleLayout.elf.ehdr p.pt.mem).ePhoff + sizeofElf64Phdr * k) sizeofElf64Phdr) ∧
      ∀ ph ∈ loadsOf (sampleLayout.headers p.pt.mem),
        sampleLayout.elf.Has ph.pOffset.toNat ph.pFilesz.toNat := by
    decide +kernel
  have bad : Returns (rootStart (sampleBoot overrunFile)) fun p =>
      ¬ Stops (elfInitialize p sampleLayout.elf) .null ∧
      sampleLayout.elf.Accepted p.pt.mem ∧
      (∀ k < (sampleLayout.elf.ehdr p.pt.mem).ePhnum,
        (sampleLayout.phdr p.pt.mem k).pType ≠ pTypeNull) ∧
      ∃ ph ∈ (loadsOf (sampleLayout.headers p.pt.mem)).head?,
        (ph.pFlags = pfR ||| pfX ∨ ph.pFlags = pfR ||| pfW) ∧
        Backable ph.loadAddr ph.loadSize ∧
        ¬ (ph.pFilesz.toNat = 0 ∨ sampleLayout.elf.Has ph.pOffset.toNat ph.pFilesz.toNat) := by
    decide +kernel
  obtain ⟨p, start, ehdr, entries, segments⟩ := good
  obtain ⟨p', start', room, accepted, notNull, ph, isFirst, flags, backable, overruns⟩ := bad
  have holds : FileHolds sampleLayout p.pt.mem := .of_all ehdr entries segments
  refine ⟨⟨p, start, (elf_reads_inside_iff start size).1 holds⟩, p', start', fun inside => ?_⟩
  have holds' := (elf_reads_inside_iff start' size).2 room inside
  exact overruns (holds'.first accepted notNull isFirst flags backable)

/-- The copy of its data ends two bytes behind the file. -/
theorem overrun_reads_outside : ∃ p, rootStart (sampleBoot overrunFile) = .ok p ∧
    sampleLayout.elf.size = 184 ∧ ElfReads sampleLayout.elf p 182 4 := by
  have evaluated : Returns (rootStart (sampleBoot overrunFile)) fun p =>
      sampleLayout.elf.Accepted p.pt.mem ∧
      Returns (loadSegments sampleLayout.elf (sampleLayout.elf.ehdr p.pt.mem).ePhoff
          (sampleLayout.elf.ehdr p.pt.mem).ePhnum 0 [] p.pt) fun r =>
        ∃ seg ∈ r.1.head?, seg.header.pType = pTypeLoad ∧ seg.header.pOffset = 182 ∧
          seg.header.pFilesz = 4 ∧
          Returns (segmentMm p seg.header) fun mm =>
            Returns (elfMap { p with
              pt := r.2, entry := BitVec.ofNat 64 (sampleLayout.elf.ehdr p.pt.mem).eEntry, mm }
              seg.header.loadAddr seg.header.loadSize seg.header.pFlags) fun _ => True := by
    decide +kernel
  obtain ⟨p, start, accepted, ⟨segs, s⟩, load, seg, first, isLoad, offset, filesz, mm, mmRun,
    result,
    mapRun, -⟩ := evaluated
  obtain ⟨back, rfl⟩ : ∃ back, segs = seg :: back := by
    cases segs with
    | nil => cases first
    | cons seg' back => exact ⟨back, congrArg (· :: back) (Option.some.inj first)⟩
  refine ⟨p, start, rfl, ?_⟩
  have reads : ElfReads sampleLayout.elf p seg.header.pOffset.toNat seg.header.pFilesz.toNat :=
    .copy ⟨isLoad, s, [], seg, back, ⟨accepted, load⟩, rfl, rfl⟩ mmRun mapRun
  rw [offset, filesz] at reads
  exact reads

/-! ## All or nothing -/

/-- On its way `populate_segments` rounds an address to `align`, by a division. -/
def ElfDivides (elf : ChinElf) (p : Process) (align : U64) : Prop :=
  ∃ ph p₁ mm, PopulateReaches elf p ph p₁ ∧ segmentMm p₁ ph = .ok mm ∧ ph.pAlign = align

/-- The loader has mapped and filled the segment of header `ph`: it has come through its turn
of `populate_segments`, and the task `p'` that it leaves has a mapping of the segment to
memory with its image. -/
structure SegmentLoaded (layout : Layout) (p : Process) (ph : Elf64Phdr) (p' : Process) :
    Prop where
  turn : ∃ p₁ p₂, PopulateReaches layout.elf p ph p₁ ∧ populateSegment layout.elf ph p₁ = .ok p₂
  image : ∃ b others maps, MemInv layout others maps p'.pt ∧ ph.mapping b ∈ maps ∧
    b.size = ph.loadSize.toNat ∧
      ∀ i < ph.loadSize.toNat, p'.pt.mem (b.phys + i) = ph.image layout.elf p.pt.mem i

/-- The loader comes back, without a division by zero, either with every segment loaded or
with an error. -/
def AllOrNothing (layout : Layout) (p : Process) : Prop :=
  ¬ ElfDivides layout.elf p 0 ∧ Returns (elfInitialize p layout.elf) fun result =>
    (result.1 = 0 ∧ ∀ k, layout.Loads p.pt.mem k →
      SegmentLoaded layout p (layout.phdr p.pt.mem k) result.2) ∨ result.1 < 0

/-- No program header is null, and each one to load has a file part that is not the larger
one and can be loaded. -/
structure SegmentsOk (layout : Layout) (mem : Mem) : Prop where
  notNull : ∀ k < (layout.elf.ehdr mem).ePhnum, (layout.phdr mem k).pType ≠ pTypeNull
  le : ∀ k, layout.Loads mem k →
    (layout.phdr mem k).pFilesz.toNat ≤ (layout.phdr mem k).pMemsz.toNat
  loads : ∀ k, layout.Loads mem k → LoadOk layout.elf (layout.phdr mem k)

instance (layout : Layout) (mem : Mem) : Decidable (SegmentsOk layout mem) :=
  decidable_of_iff (∀ k < (layout.elf.ehdr mem).ePhnum, (layout.phdr mem k).pType ≠ pTypeNull ∧
      ((layout.phdr mem k).pType = pTypeLoad →
        (layout.phdr mem k).pFilesz.toNat ≤ (layout.phdr mem k).pMemsz.toNat ∧
          LoadOk layout.elf (layout.phdr mem k)))
    ⟨fun all => ⟨fun k lt => (all k lt).1, fun k loads => ((all k loads.1).2 loads.2).1,
        fun k loads => ((all k loads.1).2 loads.2).2⟩,
      fun ok k lt => ⟨ok.notNull k lt, fun load => ⟨ok.le k ⟨lt, load⟩, ok.loads k ⟨lt, load⟩⟩⟩⟩

section All

variable {layout : Layout} {others : List Block} {maps : List Mapping} {p p' : Process}
  {ph : Elf64Phdr}

/-- Once the headers are accepted, the one value that is returned is 0. -/
theorem elfInitialize_ret {ret : Int} (accepted : layout.elf.Accepted p.pt.mem)
    (run : elfInitialize p layout.elf = .ok (ret, p')) : ret = 0 := by
  rw [elfInitialize_of_header accepted.ehdr accepted.header accepted.arch] at run
  obtain ⟨segs, loadRun, run⟩ := of_bind_ok run
  obtain ⟨q, populateRun, run⟩ := of_bind_ok run
  obtain ⟨heap, removeRun, run⟩ := of_bind_ok run
  cases run
  rfl

/-- A segment that `populate_segments` comes to is not one that `add_segment` forgot. -/
theorem PopulateReaches.mem_loads {p₁ : Process} (reaches : PopulateReaches layout.elf p ph p₁)
    (addrspace : p.addrspace = layout.userPgd) (inv : MemInv layout others maps p.pt) :
    ph ∈ loadsOf (layout.headers p.pt.mem) := by
  obtain ⟨-, ⟨before, after, cut, -⟩, -⟩ := reaches.spec addrspace inv
  rw [cut]
  simp

/-- A segment that can be loaded has an alignment other than zero: with zero, the rounded size
would be nothing to map. -/
theorem LoadOk.align_ne {elf : ChinElf} (ok : LoadOk elf ph) : ph.pAlign ≠ 0 := by
  intro zero
  have pos := ok.backable.pos
  unfold Elf64Phdr.loadSize alignTo at pos
  rw [show ph.pAlign = 0#64 from zero, BitVec.mul_zero] at pos
  exact absurd pos (Nat.lt_irrefl 0)

/-- If all segments to load are in order, and the headers are in the file, then the file can be
loaded. -/
theorem SegmentsOk.loadable (ok : SegmentsOk layout p.pt.mem)
    (accepted : layout.elf.Accepted p.pt.mem)
    (table : ∀ k < (layout.elf.ehdr p.pt.mem).ePhnum,
      layout.elf.Has ((layout.elf.ehdr p.pt.mem).ePhoff + sizeofElf64Phdr * k) sizeofElf64Phdr) :
    Loadable layout p.pt.mem := by
  refine ⟨accepted.ehdr, accepted.header, accepted.arch, fun k lt => ⟨?_, ok.notNull k lt,
    fun _ => table k lt⟩, fun ph inside => ?_⟩
  · have entry := table k lt
    unfold ChinElf.Has sizeofElf64Phdr at *
    omega
  · obtain ⟨k, isLoad, -, rfl⟩ := mem_loadsOf_headers.mp inside
    exact ok.loads k isLoad

/-- Each segment of a load that came back has had its turn. -/
theorem populated_of_run {result : Int × Process} (inv : MemInv layout others maps p.pt)
    (accepted : layout.elf.Accepted p.pt.mem) (run : elfInitialize p layout.elf = .ok result)
    (inside : ph ∈ loadsOf (layout.headers p.pt.mem)) :
    ∃ p₁ p₂, PopulateReaches layout.elf p ph p₁ ∧ populateSegment layout.elf ph p₁ = .ok p₂ := by
  rw [elfInitialize_of_header accepted.ehdr accepted.header accepted.arch] at run
  obtain ⟨⟨segs, s⟩, loadRun, run⟩ := of_bind_ok run
  obtain ⟨q, populateRun, -⟩ := of_bind_ok run
  have load : LoadReaches layout.elf p (layout.elf.ehdr p.pt.mem).ePhnum segs s :=
    ⟨accepted, loadRun⟩
  obtain ⟨-, -, headers⟩ := load.spec inv
  have headers_eq : segs.map Segment.header = layout.headers p.pt.mem := headers
  rw [← headers_eq] at inside
  obtain ⟨before, after, cut⟩ := List.append_of_mem inside
  obtain ⟨front, seg, back, rfl, header_eq, isLoad, -⟩ := segments_cut cut
  rw [populateSegments_append] at populateRun
  obtain ⟨p₁, frontRun, restRun⟩ := of_bind_ok populateRun
  rw [populateSegments, header_eq] at restRun
  obtain ⟨p₂, turn, -⟩ := of_bind_ok restRun
  exact ⟨p₁, p₂, ⟨isLoad, s, front, seg, back, load, header_eq, frontRun⟩, turn⟩

end All

/-- For a file with an ELF header that is accepted and a program header table inside it,
`elf_initialize` is all or nothing exactly if no program header is null, every segment to load
can be, and the granules that are free before the call serve its requests: a granule for the
record of each header to load or dynamic one, and then, for each segment to load from the last
to the first, a run of granules for its range and one for each page table that is new. -/
theorem elf_all_or_nothing_iff {boot : Boot} {p : Process} (start : rootStart boot = .ok p)
    (accepted : boot.layout.elf.Accepted p.pt.mem)
    (table : ∀ k < (boot.layout.elf.ehdr p.pt.mem).ePhnum, boot.layout.elf.Has
      ((boot.layout.elf.ehdr p.pt.mem).ePhoff + sizeofElf64Phdr * k) sizeofElf64Phdr) :
    AllOrNothing boot.layout p ↔ SegmentsOk boot.layout p.pt.mem ∧
      p.pt.heap.Serves (boot.layout.elfRequests p.pt.mem) := by
  obtain ⟨addrspace, others, inv⟩ := rootStart_ok start
  constructor
  · rintro ⟨-, ⟨ret, p'⟩, run, outcome⟩
    have success : ret = 0 := elfInitialize_ret accepted run
    have all : ∀ k, boot.layout.Loads p.pt.mem k →
        SegmentLoaded boot.layout p (boot.layout.phdr p.pt.mem k) p' := by
      rcases outcome with ⟨-, all⟩ | negative
      · exact all
      · rw [show (ret, p').1 = ret from rfl, success] at negative
        exact absurd negative (by decide)
    rw [success] at run
    have loadable := loadable_of_run addrspace inv run
    have inLoads : ∀ k, boot.layout.Loads p.pt.mem k →
        boot.layout.phdr p.pt.mem k ∈ loadsOf (boot.layout.headers p.pt.mem) := by
      intro k isLoad
      obtain ⟨p₁, p₂, reaches, -⟩ := (all k isLoad).turn
      exact reaches.mem_loads addrspace inv
    refine ⟨⟨fun k lt => (loadable.entries k lt).notNull, fun k isLoad => ?_,
      fun k isLoad => ?_⟩, ?_⟩
    · exact filesz_le_of_mem (List.mem_filter.mp (inLoads k isLoad)).1
    · exact loadable.loads _ (inLoads k isLoad)
    · rcases elfInitialize_spec addrspace inv loadable with
        ⟨failed, -⟩ | ⟨-, -, -, -, -, -, -, serves⟩
      · cases failed.symm.trans run
      · exact serves
  · rintro ⟨ok, serves⟩
    have loadable := ok.loadable accepted table
    constructor
    · rintro ⟨ph, p₁, mm, reaches, -, zero⟩
      exact (loadable.loads ph (reaches.mem_loads addrspace inv)).align_ne zero
    · rcases elfInitialize_spec addrspace inv loadable with
        ⟨-, full⟩ | ⟨loads, others', p', run, -, headers, loaded, -⟩
      · exact absurd serves full
      refine ⟨(0, p'), run, .inl ⟨rfl, fun k isLoad => ?_⟩⟩
      have inside : boot.layout.phdr p.pt.mem k ∈ loadsOf (boot.layout.headers p.pt.mem) :=
        mem_loadsOf_headers.mpr
          ⟨k, isLoad, BitVec.not_lt.mpr (BitVec.le_def.mpr (ok.le k isLoad)), rfl⟩
      refine ⟨populated_of_run inv accepted run inside, ?_⟩
      rw [← headers] at inside
      obtain ⟨⟨ph, b⟩, inLoads, header_eq⟩ := List.mem_map.mp inside
      rw [← header_eq]
      obtain ⟨size_eq, image⟩ := loaded.images _ inLoads
      refine ⟨b, others', _, loaded.table, ?_, size_eq, image⟩
      exact List.mem_map_of_mem (f := fun load => load.1.mapping load.2) inLoads

/-- The small kernel's file with a second program header of its own. -/
def secondFile (phdr : List Nat) : List Nat :=
  sampleEhdr ++ samplePhdr 1 5 176 [0, 0, 0x40] 4 4 ++ phdr ++
    [0xc0, 0x03, 0x5f, 0xd6, 1, 2, 3, 4]

/-- The small kernel's own file is loaded as a whole; with a null header in place of the data it
is not. -/
theorem elf_all_or_nothing_iff_sample :
    (∃ p, rootStart (sampleBoot sampleFile) = .ok p ∧ AllOrNothing sampleLayout p) ∧
    ∃ p, rootStart (sampleBoot (secondFile (samplePhdr 0 6 180 [0, 0, 0x41] 4 8))) = .ok p ∧
      ¬ AllOrNothing sampleLayout p := by
  have good : Returns (rootStart (sampleBoot sampleFile)) fun p =>
      sampleLayout.elf.Accepted p.pt.mem ∧
      (∀ k < (sampleLayout.elf.ehdr p.pt.mem).ePhnum, sampleLayout.elf.Has
        ((sampleLayout.elf.ehdr p.pt.mem).ePhoff + sizeofElf64Phdr * k) sizeofElf64Phdr) ∧
      SegmentsOk sampleLayout p.pt.mem ∧
      p.pt.heap.Serves (sampleLayout.elfRequests p.pt.mem) := by
    decide +kernel
  have bad : Returns (rootStart (sampleBoot (secondFile (samplePhdr 0 6 180 [0, 0, 0x41] 4 8))))
      fun p => sampleLayout.elf.Accepted p.pt.mem ∧
        (∀ k < (sampleLayout.elf.ehdr p.pt.mem).ePhnum, sampleLayout.elf.Has
          ((sampleLayout.elf.ehdr p.pt.mem).ePhoff + sizeofElf64Phdr * k) sizeofElf64Phdr) ∧
        ¬ SegmentsOk sampleLayout p.pt.mem := by
    decide +kernel
  obtain ⟨p, start, accepted, table, ok⟩ := good
  obtain ⟨p', start', accepted', table', notOk⟩ := bad
  exact ⟨⟨p, start, (elf_all_or_nothing_iff start accepted table).mpr ok⟩, p', start',
    fun all => notOk ((elf_all_or_nothing_iff start' accepted' table').mp all).1⟩

/-- A data segment with more bytes in the file than in memory is left out, and the loader
reports success; a null header and a read-only segment stop the kernel. -/
theorem segments_left_out :
    (Returns (rootStart (sampleBoot (secondFile (samplePhdr 1 6 180 [0, 0, 0x41] 4 2)))) fun p =>
      sampleLayout.elf.Accepted p.pt.mem ∧ sampleLayout.Loads p.pt.mem 1 ∧
      (sampleLayout.phdr p.pt.mem 1).pVaddr = 0x410000 ∧
      Returns (elfInitialize p sampleLayout.elf) fun result =>
        result.1 = 0 ∧ result.2.translate 0x410000 = none) ∧
    (Returns (rootStart (sampleBoot (secondFile (samplePhdr 0 6 180 [0, 0, 0x41] 4 8)))) fun p =>
      sampleLayout.elf.Accepted p.pt.mem ∧
      Stops (elfInitialize p sampleLayout.elf) .panic) ∧
    Returns (rootStart (sampleBoot (secondFile (samplePhdr 1 4 180 [0, 0, 0x41] 4 8)))) fun p =>
      sampleLayout.elf.Accepted p.pt.mem ∧
      Stops (elfInitialize p sampleLayout.elf) .panic := by
  decide +kernel

end Chinos
