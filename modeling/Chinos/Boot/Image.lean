import Chinos.Boot.Safety

/-!
# The image that is loaded

`populate_segments` maps a segment from the `p_align` boundary below `p_vaddr` on, and
`copy_segment` writes its part of the file to the start of that memory. The two agree if
`p_vaddr` is on the boundary. If not, user address `p_vaddr + i` holds what the file has
`p_vaddr % p_align` bytes later, so the image is the one that the file describes only if
this makes no difference.
-/

namespace Chinos

/-! ## Segments as the file describes them -/

namespace Elf64Phdr

variable (ph : Elf64Phdr)

/-- The page boundary at or below the start of the segment, where its mapping begins. -/
def start : Nat := ph.pVaddr.toNat / ph.pAlign.toNat * ph.pAlign.toNat

/-- How far above that boundary the segment itself begins. -/
def slack : Nat := ph.pVaddr.toNat % ph.pAlign.toNat

/-- The length from there to the boundary above the segment. -/
def span : Nat :=
  (ph.slack + ph.pMemsz.toNat + ph.pAlign.toNat - 1) / ph.pAlign.toNat * ph.pAlign.toNat

/-- The ranges of two segments, rounded to pages, have no address in common. -/
def Apart (ph ph' : Elf64Phdr) : Prop :=
  ∀ x, ¬ ((ph.start ≤ x ∧ x < ph.start + ph.span) ∧ ph'.start ≤ x ∧ x < ph'.start + ph'.span)

end Elf64Phdr

/-- A segment that the loader is meant for: flags that it knows, a file part that is in the
file and not the larger one, an alignment that is a power of two and not below a page, and a
rounded range of at most 32 granules below `2 ^ 39`. -/
structure SegmentOk (elf : ChinElf) (ph : Elf64Phdr) : Prop where
  flags : ph.pFlags = pfR ||| pfX ∨ ph.pFlags = pfR ||| pfW
  le : ph.pFilesz.toNat ≤ ph.pMemsz.toNat
  file : elf.Has ph.pOffset.toNat ph.pFilesz.toNat
  power : 2 ^ ph.pAlign.toNat.log2 = ph.pAlign.toNat
  page : 2 ^ 12 ≤ ph.pAlign.toNat
  span_le : ph.span ≤ 2 ^ 17
  low : ph.start + ph.span ≤ 2 ^ 39

/-- Program header `k` of the file, as it lies in memory. -/
def Layout.phdr (layout : Layout) (mem : Mem) (k : Nat) : Elf64Phdr :=
  layout.elf.phdr mem (layout.elf.ehdr mem).ePhoff k

/-- Header `k` is there and is one of a segment to load. -/
def Layout.Loads (layout : Layout) (mem : Mem) (k : Nat) : Prop :=
  k < (layout.elf.ehdr mem).ePhnum ∧ (layout.phdr mem k).pType = pTypeLoad

/-- A file that is accepted, with segments that the loader is meant for, apart from each
other. -/
structure ElfFile (layout : Layout) (mem : Mem) : Prop where
  ehdr : layout.elf.Has 0 sizeofElf64Ehdr
  header : elf64HeaderCheck (layout.elf.ehdr mem) = 0
  arch : elfArchCheck (layout.elf.ehdr mem) = 0
  segments : ∀ k, layout.Loads mem k → SegmentOk layout.elf (layout.phdr mem k)
  apart : ∀ k k', layout.Loads mem k → layout.Loads mem k' → k ≠ k' →
    (layout.phdr mem k).Apart (layout.phdr mem k')

/-- User memory holds the image that the file in `mem` describes. -/
def ImageLoaded (layout : Layout) (mem : Mem) (p : Process) : Prop :=
  ∀ k, layout.Loads mem k → ∀ i < (layout.phdr mem k).pMemsz.toNat,
    ∃ leaf, p.translate ((layout.phdr mem k).pVaddr.toNat + i) = some leaf ∧
      p.pt.mem leaf.pa = (layout.phdr mem k).image layout.elf mem i

/-- The headers can be read and none is null, no segment is empty, and the image of each is
the same from `slack` on. -/
structure ImageKept (layout : Layout) (mem : Mem) : Prop where
  entries : ∀ k < (layout.elf.ehdr mem).ePhnum,
    EntryOk layout.elf mem (layout.elf.ehdr mem).ePhoff k
  pos : ∀ k, layout.Loads mem k → 0 < (layout.phdr mem k).span
  shift : ∀ k, layout.Loads mem k → ∀ i < (layout.phdr mem k).pMemsz.toNat,
    (layout.phdr mem k).image layout.elf mem ((layout.phdr mem k).slack + i) =
      (layout.phdr mem k).image layout.elf mem i

section Segment

variable {elf : ChinElf} {ph : Elf64Phdr}

theorem Elf64Phdr.vaddr_eq (ph : Elf64Phdr) : ph.pVaddr.toNat = ph.start + ph.slack := by
  unfold Elf64Phdr.start Elf64Phdr.slack
  rw [Nat.mul_comm]
  exact (Nat.div_add_mod _ _).symm

theorem SegmentOk.memsz_le (ok : SegmentOk elf ph) : ph.slack + ph.pMemsz.toNat ≤ ph.span := by
  have page := ok.page
  unfold Elf64Phdr.span
  have split := Nat.div_add_mod (ph.slack + ph.pMemsz.toNat + ph.pAlign.toNat - 1) ph.pAlign.toNat
  have small := Nat.mod_lt (ph.slack + ph.pMemsz.toNat + ph.pAlign.toNat - 1)
    (show 0 < ph.pAlign.toNat by omega)
  rw [Nat.mul_comm] at split
  omega

theorem SegmentOk.dvd (ok : SegmentOk elf ph) : 2 ^ 12 ∣ ph.pAlign.toNat := by
  rw [← ok.power]
  refine Nat.pow_dvd_pow 2 ?_
  by_contra small
  have lt : 2 ^ ph.pAlign.toNat.log2 < 2 ^ 12 := Nat.pow_lt_pow_right (by decide) (by omega)
  have page := ok.page
  rw [ok.power] at lt
  omega

theorem SegmentOk.start_aligned (ok : SegmentOk elf ph) : ph.start % 2 ^ 12 = 0 :=
  Nat.mod_eq_zero_of_dvd (ok.dvd.mul_left _)

theorem SegmentOk.span_aligned (ok : SegmentOk elf ph) : ph.span % 2 ^ 12 = 0 :=
  Nat.mod_eq_zero_of_dvd (ok.dvd.mul_left _)

theorem SegmentOk.pageUp_span (ok : SegmentOk elf ph) : pageUp ph.span = ph.span := by
  have aligned := ok.span_aligned
  unfold pageUp
  omega

theorem toNat_loadAddr (ph : Elf64Phdr) : ph.loadAddr.toNat = ph.start := by
  have le : ph.start ≤ ph.pVaddr.toNat := Nat.div_mul_le_self _ _
  have bound := ph.pVaddr.isLt
  unfold Elf64Phdr.loadAddr
  rw [BitVec.toNat_mul, BitVec.toNat_udiv]
  exact Nat.mod_eq_of_lt (lt_of_le_of_lt le bound)

theorem SegmentOk.toNat_loadSize (ok : SegmentOk elf ph) : ph.loadSize.toNat = ph.span := by
  have memsz := ok.memsz_le
  have span_le := ok.span_le
  have page := ok.page
  have power : ph.pAlign.toNat ≤ 2 ^ 63 := by
    rw [← ok.power]
    refine Nat.pow_le_pow_right (by decide) ?_
    have := (Nat.log2_lt (show ph.pAlign.toNat ≠ 0 by omega)).mpr ph.pAlign.isLt
    omega
  have sum : (ph.pVaddr % ph.pAlign + ph.pMemsz + ph.pAlign - 1).toNat =
      ph.slack + ph.pMemsz.toNat + ph.pAlign.toNat - 1 := by
    have slack_eq : (ph.pVaddr % ph.pAlign).toNat = ph.slack := BitVec.toNat_umod
    rw [BitVec.toNat_sub, BitVec.toNat_add, BitVec.toNat_add, slack_eq,
      show (1 : U64).toNat = 1 from rfl]
    omega
  unfold Elf64Phdr.loadSize alignTo
  rw [BitVec.toNat_mul, BitVec.toNat_udiv, sum]
  exact Nat.mod_eq_of_lt (show ph.span < 2 ^ 64 by omega)

/-- A segment of this kind can be loaded exactly if it is not empty. -/
theorem SegmentOk.loadOk_iff (ok : SegmentOk elf ph) : LoadOk elf ph ↔ 0 < ph.span := by
  have size := ok.toNat_loadSize
  constructor
  · intro load
    exact size ▸ load.backable.pos
  · intro pos
    have aligned : ph.loadAddr.toNat % 2 ^ 12 = 0 := toNat_loadAddr ph ▸ ok.start_aligned
    have reach : ph.loadAddr.toNat + pageUp ph.loadSize.toNat ≤ 2 ^ 39 := by
      rw [size, ok.pageUp_span, toNat_loadAddr]
      exact ok.low
    refine ⟨ok.flags, ⟨size ▸ pos, size ▸ ok.span_le, aligned, mappable_of_le aligned reach⟩,
      .inr ok.file, ?_⟩
    have memsz := ok.memsz_le
    omega

/-- A segment that is in order is mapped as its header asks, without the wrap-around that `landed`
allows for. -/
theorem SegmentOk.mapping_eq (ok : SegmentOk elf ph) (b : Block) :
    ph.mapping b = backing ph.loadAddr ph.loadSize (elfProt ph.pFlags) b := by
  refine backing_landed (toNat_loadAddr ph ▸ ok.start_aligned) ?_
  rw [ok.toNat_loadSize, ok.pageUp_span, toNat_loadAddr]
  exact ok.low

/-- The addresses that the mapping of a segment covers are those of its rounded range. -/
theorem SegmentOk.covers_iff {b : Block} {o : Nat} (ok : SegmentOk elf ph) (pos : 0 < ph.span) :
    (ph.mapping b).Covers o ↔ ph.start ≤ o ∧ o < ph.start + ph.span := by
  have aligned : ph.loadAddr.toNat % 2 ^ 12 = 0 := toNat_loadAddr ph ▸ ok.start_aligned
  have low := ok.low
  rw [ok.mapping_eq, backing_covers aligned (by rw [toNat_loadAddr]; omega), ok.toNat_loadSize,
    ok.pageUp_span, toNat_loadAddr]

/-- The frames of a segment follow one another in its block, in the order of its pages. -/
theorem SegmentOk.leaf_pa {layout : Layout} {b : Block} {o : Nat} (ok : SegmentOk elf ph)
    (pos : 0 < ph.span) (mapped : (ph.mapping b).Ok layout) (covers : (ph.mapping b).Covers o) :
    ((ph.mapping b).call.range.leaf o).pa = b.phys + (o - ph.start) := by
  have low := ok.low
  have lo : (ph.mapping b).call.range.lo = ph.start := by
    rw [MapCall.lo_eq, ok.mapping_eq]
    change ph.loadAddr.toNat % 2 ^ 39 = ph.start
    rw [toNat_loadAddr]
    omega
  have frame : (ph.mapping b).paddr.toNat = b.phys := rfl
  rw [mapped.leaf_eq covers]
  simp only
  rw [lo, frame]

end Segment

/-! ## The headers of a file -/

section Headers

variable {layout : Layout} {mem : Mem} {ph : Elf64Phdr}

/-- The headers that are mapped: those to load, but for the ones that `add_segment` forgets. -/
theorem mem_loadsOf_headers : ph ∈ loadsOf (layout.headers mem) ↔
    ∃ k, layout.Loads mem k ∧ ¬ (layout.phdr mem k).pMemsz < (layout.phdr mem k).pFilesz ∧
      layout.phdr mem k = ph := by
  unfold loadsOf Layout.headers recorded
  simp only [List.mem_filter, List.mem_reverse, List.mem_map, List.mem_range'_1, decide_eq_true_eq]
  constructor
  · rintro ⟨⟨⟨k, inside, rfl⟩, -, le⟩, load⟩
    exact ⟨k, ⟨by omega, load⟩, le, rfl⟩
  · rintro ⟨k, loads, le, rfl⟩
    exact ⟨⟨⟨k, ⟨by omega, by have := loads.1; omega⟩, rfl⟩, .inl loads.2, le⟩, loads.2⟩

theorem ElfFile.mem_loadsOf (file : ElfFile layout mem) :
    ph ∈ loadsOf (layout.headers mem) ↔ ∃ k, layout.Loads mem k ∧ layout.phdr mem k = ph := by
  rw [mem_loadsOf_headers]
  constructor
  · rintro ⟨k, loads, -, header_eq⟩
    exact ⟨k, loads, header_eq⟩
  · rintro ⟨k, loads, header_eq⟩
    have le := (file.segments k loads).le
    exact ⟨k, loads, BitVec.not_lt.mpr (BitVec.le_def.mpr le), header_eq⟩

theorem Elf64Phdr.Apart.symm {ph' : Elf64Phdr} (apart : ph.Apart ph') : ph'.Apart ph :=
  fun x both => apart x ⟨both.2, both.1⟩

theorem ElfFile.pairwise (file : ElfFile layout mem) :
    (loadsOf (layout.headers mem)).Pairwise Elf64Phdr.Apart := by
  have recordedOnes : (layout.headers mem).Pairwise fun ph ph' =>
      ph.pType = pTypeLoad → ph'.pType = pTypeLoad → ph.Apart ph' := by
    unfold Layout.headers recorded
    rw [List.pairwise_reverse]
    refine List.Pairwise.filter _ ?_
    rw [List.pairwise_map]
    have numbers : (List.range' 0 (layout.elf.ehdr mem).ePhnum).Pairwise (· < ·) :=
      List.pairwise_lt_range'
    refine numbers.imp_of_mem fun {k k'} inside inside' lt load load' => ?_
    rw [List.mem_range'_1] at inside inside'
    exact file.apart k' k ⟨by omega, load⟩ ⟨by omega, load'⟩ (by omega)
  refine (recordedOnes.filter _).imp_of_mem fun {ph ph'} inside inside' apart => ?_
  exact apart (of_decide_eq_true (List.mem_filter.mp inside).2)
    (of_decide_eq_true (List.mem_filter.mp inside').2)

/-- Such a file can be loaded exactly if its headers can be read and no segment is empty. -/
theorem ElfFile.loadable_iff (file : ElfFile layout mem) :
    Loadable layout mem ↔
      (∀ k < (layout.elf.ehdr mem).ePhnum, EntryOk layout.elf mem (layout.elf.ehdr mem).ePhoff k) ∧
        ∀ k, layout.Loads mem k → 0 < (layout.phdr mem k).span := by
  constructor
  · intro loadable
    refine ⟨loadable.entries, fun k loads => ?_⟩
    exact (file.segments k loads).loadOk_iff.mp
      (loadable.loads _ (file.mem_loadsOf.mpr ⟨k, loads, rfl⟩))
  · rintro ⟨entries, pos⟩
    refine ⟨file.ehdr, by rw [file.header]; decide, by rw [file.arch]; decide, entries, ?_⟩
    intro ph inside
    obtain ⟨k, loads, rfl⟩ := file.mem_loadsOf.mp inside
    exact (file.segments k loads).loadOk_iff.mpr (pos k loads)

end Headers

/-! ## The loaded image -/

section Loaded

variable {layout : Layout} {mem : Mem} {others : List Block} {loads : List (Elf64Phdr × Block)}
  {p p' : Process}

/-- What user memory holds at the addresses of a segment. -/
theorem Loaded.image_at (loaded : Loaded layout mem others [] loads p p')
    (file : ElfFile layout mem) (addrspace : p.addrspace = layout.userPgd)
    (headers : loads.map Prod.fst = loadsOf (layout.headers mem))
    (pos : ∀ k, layout.Loads mem k → 0 < (layout.phdr mem k).span) {k i : Nat}
    (isLoad : layout.Loads mem k) (inside : i < (layout.phdr mem k).pMemsz.toNat) :
    ∃ leaf, p'.translate ((layout.phdr mem k).pVaddr.toNat + i) = some leaf ∧
      p'.pt.mem leaf.pa =
        (layout.phdr mem k).image layout.elf mem ((layout.phdr mem k).slack + i) := by
  have oks : ∀ load ∈ loads, SegmentOk layout.elf load.1 ∧ 0 < load.1.span := by
    intro load inLoads
    have isHeader := headers ▸ List.mem_map_of_mem (f := Prod.fst) inLoads
    obtain ⟨k, isLoad, header_eq⟩ := file.mem_loadsOf.mp isHeader
    exact header_eq ▸ ⟨file.segments k isLoad, pos k isLoad⟩
  have isHeader : layout.phdr mem k ∈ loads.map Prod.fst :=
    headers ▸ file.mem_loadsOf.mpr ⟨k, isLoad, rfl⟩
  obtain ⟨⟨ph, b⟩, inLoads, header_eq⟩ := List.mem_map.mp isHeader
  rw [← header_eq] at inside ⊢
  obtain ⟨ok, spanPos⟩ := oks _ inLoads
  simp only at ok spanPos inside ⊢
  have memsz := ok.memsz_le
  have low := ok.low
  have vaddr_eq := ph.vaddr_eq
  have covers : (ph.mapping b).Covers (ph.pVaddr.toNat + i) :=
    (ok.covers_iff spanPos).mpr ⟨by omega, by omega⟩
  have inMaps : ph.mapping b ∈ loadMaps loads := List.mem_map_of_mem (f := fun l => l.1.mapping l.2)
    inLoads
  -- no other segment is mapped there
  have unique : ∀ m ∈ loadMaps loads, m.Covers (ph.pVaddr.toNat + i) → m = ph.mapping b := by
    intro m inMaps' covers'
    obtain ⟨load', inLoads', rfl⟩ := List.mem_map.mp inMaps'
    obtain ⟨ok', spanPos'⟩ := oks _ inLoads'
    by_contra ne
    have apart : loads.Pairwise fun l l' => l.1.Apart l'.1 :=
      List.pairwise_map.mp (headers ▸ file.pairwise)
    have symmetric : Std.Symm fun l l' : Elf64Phdr × Block => l.1.Apart l'.1 :=
      ⟨fun l l' => Elf64Phdr.Apart.symm⟩
    refine apart.forall inLoads' inLoads (fun same => ne ?_) _
      ⟨(ok'.covers_iff spanPos').mp covers', (ok.covers_iff spanPos).mp covers⟩
    rw [same]
  have table := loaded.table
  rw [List.nil_append] at table
  refine ⟨(ph.mapping b).call.range.leaf (ph.pVaddr.toNat + i), ?_, ?_⟩
  · rw [table.translate_eq (loaded.addrspace.trans addrspace), if_pos (by omega),
      leafOf_of_unique inMaps covers unique]
  · obtain ⟨-, image⟩ := loaded.images _ inLoads
    rw [ok.leaf_pa spanPos (table.ok _ inMaps) covers,
      show ph.pVaddr.toNat + i - ph.start = ph.slack + i by omega]
    exact image _ (by rw [ok.toNat_loadSize]; omega)

end Loaded

/-- The root task as `boot_user_elf` finds it, before the file is loaded. -/
def rootStart (boot : Boot) : Except Fault Process := do
  let kernel ← asInitialize boot
  let (_, kernel) ← asidBitmapAlloc boot.mmfr0 kernel
  return rootTask boot.layout { kernel with tables := [boot.layout.userPgd] }

theorem rootStart_ok {boot : Boot} {p : Process} (start : rootStart boot = .ok p) :
    p.addrspace = boot.layout.userPgd ∧ ∃ others, MemInv boot.layout others [] p.pt := by
  unfold rootStart at start
  obtain ⟨kernel, init, start⟩ := of_bind_ok start
  obtain ⟨⟨bitmap, kernel'⟩, asid, start⟩ := of_bind_ok start
  cases start
  obtain ⟨pages, -, inv⟩ := asidBitmapAlloc_ok (asInitialize_ok init) asid
  exact ⟨rfl, _, inv⟩

/-- For a file that the loader is meant for, and with memory to load it, `elf_initialize`
succeeds with the image in user memory that the file describes exactly if the headers can be
read and none is null, no segment is empty, and the image of each segment is the same from
`p_vaddr % p_align` on. -/
theorem elf_image_iff {boot : Boot} {p : Process} (start : rootStart boot = .ok p)
    (file : ElfFile boot.layout p.pt.mem)
    (room : elfInitialize p boot.layout.elf ≠ .error .null) :
    (Returns (elfInitialize p boot.layout.elf) fun result =>
      result.1 = 0 ∧ ImageLoaded boot.layout p.pt.mem result.2) ↔
      ImageKept boot.layout p.pt.mem := by
  obtain ⟨addrspace, others, inv⟩ := rootStart_ok start
  constructor
  · rintro ⟨⟨ret, p'⟩, run, success, image⟩
    rw [show ret = 0 from success] at run
    have loadable := loadable_of_run addrspace inv run
    obtain ⟨entries, pos⟩ := file.loadable_iff.mp loadable
    rcases elfInitialize_spec addrspace inv loadable with
      ⟨failed, -⟩ | ⟨loads, others', p₁, ok, -, headers, loaded, -⟩
    · exact absurd failed room
    cases ok.symm.trans run
    refine ⟨entries, pos, fun k isLoad i inside => ?_⟩
    obtain ⟨leaf, found, holds⟩ := image k isLoad i inside
    obtain ⟨leaf', found', holds'⟩ := loaded.image_at file addrspace headers pos isLoad inside
    cases found.symm.trans found'
    exact holds'.symm.trans holds
  · intro kept
    have loadable := file.loadable_iff.mpr ⟨kept.entries, kept.pos⟩
    rcases elfInitialize_spec addrspace inv loadable with
      ⟨failed, -⟩ | ⟨loads, others', p', ok, -, headers, loaded, -⟩
    · exact absurd failed room
    refine ⟨_, ok, rfl, fun k isLoad i inside => ?_⟩
    obtain ⟨leaf, found, holds⟩ := loaded.image_at file addrspace headers kept.pos isLoad inside
    exact ⟨leaf, found, holds.trans (kept.shift k isLoad i inside)⟩

/-! ## Two files -/

instance Elf64Phdr.decidableApart (ph ph' : Elf64Phdr) : Decidable (ph.Apart ph') :=
  decidable_of_iff (min (ph.start + ph.span) (ph'.start + ph'.span) ≤ max ph.start ph'.start) (by
    constructor
    · rintro le x ⟨⟨low, high⟩, low', high'⟩
      omega
    · intro apart
      by_contra overlap
      exact apart (max ph.start ph'.start) ⟨⟨by omega, by omega⟩, by omega, by omega⟩)

instance (elf : ChinElf) (ph : Elf64Phdr) : Decidable (SegmentOk elf ph) :=
  decidable_of_iff ((ph.pFlags = pfR ||| pfX ∨ ph.pFlags = pfR ||| pfW) ∧
      ph.pFilesz.toNat ≤ ph.pMemsz.toNat ∧ elf.Has ph.pOffset.toNat ph.pFilesz.toNat ∧
      2 ^ ph.pAlign.toNat.log2 = ph.pAlign.toNat ∧ 2 ^ 12 ≤ ph.pAlign.toNat ∧
      ph.span ≤ 2 ^ 17 ∧ ph.start + ph.span ≤ 2 ^ 39)
    ⟨fun ⟨flags, le, file, power, page, span, low⟩ => ⟨flags, le, file, power, page, span, low⟩,
      fun ok => ⟨ok.flags, ok.le, ok.file, ok.power, ok.page, ok.span_le, ok.low⟩⟩

instance (layout : Layout) (mem : Mem) (k : Nat) : Decidable (layout.Loads mem k) :=
  inferInstanceAs (Decidable (_ ∧ _))

instance (layout : Layout) (mem : Mem) : Decidable (ElfFile layout mem) :=
  decidable_of_iff (layout.elf.Has 0 sizeofElf64Ehdr ∧
      elf64HeaderCheck (layout.elf.ehdr mem) = 0 ∧ elfArchCheck (layout.elf.ehdr mem) = 0 ∧
      (∀ k < (layout.elf.ehdr mem).ePhnum, layout.Loads mem k →
        SegmentOk layout.elf (layout.phdr mem k)) ∧
      ∀ k < (layout.elf.ehdr mem).ePhnum, ∀ k' < (layout.elf.ehdr mem).ePhnum,
        layout.Loads mem k → layout.Loads mem k' → k ≠ k' →
        (layout.phdr mem k).Apart (layout.phdr mem k'))
    ⟨fun ⟨ehdr, header, arch, segments, apart⟩ => ⟨ehdr, header, arch,
        fun k loads => segments k loads.1 loads, fun k k' loads loads' =>
          apart k loads.1 k' loads'.1 loads loads'⟩,
      fun file => ⟨file.ehdr, file.header, file.arch, fun k _ => file.segments k,
        fun k _ k' _ => file.apart k k'⟩⟩

instance (layout : Layout) (mem : Mem) : Decidable (ImageKept layout mem) :=
  decidable_of_iff ((∀ k < (layout.elf.ehdr mem).ePhnum,
        EntryOk layout.elf mem (layout.elf.ehdr mem).ePhoff k) ∧
      ∀ k < (layout.elf.ehdr mem).ePhnum, layout.Loads mem k → 0 < (layout.phdr mem k).span ∧
        ∀ i < (layout.phdr mem k).pMemsz.toNat,
          (layout.phdr mem k).image layout.elf mem ((layout.phdr mem k).slack + i) =
            (layout.phdr mem k).image layout.elf mem i)
    ⟨fun ⟨entries, loads⟩ => ⟨entries, fun k isLoad => (loads k isLoad.1 isLoad).1,
        fun k isLoad => (loads k isLoad.1 isLoad).2⟩,
      fun kept => ⟨kept.entries, fun k _ isLoad => ⟨kept.pos k isLoad, kept.shift k isLoad⟩⟩⟩

/-- The small kernel's file with the data at `0x410010`. -/
def shiftedFile : List Nat :=
  sampleEhdr ++ samplePhdr 1 5 176 [0, 0, 0x40] 4 4 ++ samplePhdr 1 6 180 [0x10, 0, 0x41] 4 8 ++
    [0xc0, 0x03, 0x5f, 0xd6, 1, 2, 3, 4]

/-- The image of the small kernel's own file is loaded, and with the data at `0x410010` it is
not. -/
theorem elf_image_iff_sample :
    (∃ p, rootStart (sampleBoot sampleFile) = .ok p ∧
      Returns (elfInitialize p sampleLayout.elf) fun result =>
        result.1 = 0 ∧ ImageLoaded sampleLayout p.pt.mem result.2) ∧
    ∃ p, rootStart (sampleBoot shiftedFile) = .ok p ∧
      ¬ Returns (elfInitialize p sampleLayout.elf) fun result =>
        result.1 = 0 ∧ ImageLoaded sampleLayout p.pt.mem result.2 := by
  have good : Returns (rootStart (sampleBoot sampleFile)) fun p =>
      ElfFile sampleLayout p.pt.mem ∧ ¬ Stops (elfInitialize p sampleLayout.elf) .null ∧
      ImageKept sampleLayout p.pt.mem := by
    decide +kernel
  have bad : Returns (rootStart (sampleBoot shiftedFile)) fun p =>
      ElfFile sampleLayout p.pt.mem ∧ ¬ Stops (elfInitialize p sampleLayout.elf) .null ∧
      ¬ ImageKept sampleLayout p.pt.mem := by
    decide +kernel
  obtain ⟨p, start, file, room, kept⟩ := good
  obtain ⟨p', start', file', room', notKept⟩ := bad
  exact ⟨⟨p, start, (elf_image_iff start file room).mpr kept⟩, p', start', fun loaded =>
    notKept ((elf_image_iff start' file' room').mp loaded)⟩

/-- Where the file has a 1, user memory has a 0. -/
theorem shifted_image_differs : Returns (rootStart (sampleBoot shiftedFile)) fun p =>
    ElfFile sampleLayout p.pt.mem ∧ sampleLayout.Loads p.pt.mem 1 ∧
    (sampleLayout.phdr p.pt.mem 1).pVaddr = 0x410010 ∧
    (sampleLayout.phdr p.pt.mem 1).image sampleLayout.elf p.pt.mem 0 = 1 ∧
    Returns (elfInitialize p sampleLayout.elf) fun result => result.1 = 0 ∧
      ∃ leaf ∈ result.2.translate 0x410010, result.2.pt.mem leaf.pa = 0 := by
  decide +kernel

end Chinos
