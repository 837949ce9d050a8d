import Chinos.Boot.Loader

/-!
# The break

`sys_brk` maps the difference between the old and the new break, computed as an `int`.
Where this is the true difference, and the break stays in the half of the address space
that the user table serves, every page below the break is mapped after every call that
returns. A break that is raised by 4 GiB, to the byte, is recorded with nothing mapped.

The heap starts where the loader puts the break, behind the data segment that comes first in
the file, wherever the others are.
-/

namespace Chinos

/-- The leaf maps memory that EL0 may read and write, which is what the pages of the heap should
be. -/
def Leaf.ReadWrite (leaf : Leaf) : Prop := leaf.User ∧ leaf.Writable ∧ leaf.Normal

/-- Address `v` is in a page with a byte of the heap. -/
def Process.InHeapPage (p : Process) (v : Nat) : Prop :=
  ∃ x, p.mm.startBrk.toNat ≤ x ∧ x < p.mm.brk.toNat ∧ x / 2 ^ 12 = v / 2 ^ 12

/-- The break is not below the start of the heap, and every page of the heap is mapped. -/
structure BreakBacked (p : Process) : Prop where
  le : p.mm.startBrk.toNat ≤ p.mm.brk.toNat
  mapped : ∀ v, p.InHeapPage v → ∃ leaf, p.translate v = some leaf ∧ leaf.ReadWrite

/-- The new break differs from the old one by an `int`, and is not raised beyond the user's
half of the address space. -/
structure BreakNear (p : Process) (brk : U64) : Prop where
  low : p.mm.brk.toNat < brk.toNat + 2 ^ 31
  high : brk.toNat < p.mm.brk.toNat + 2 ^ 31
  lower : brk.toNat ≤ p.mm.brk.toNat ∨ brk.toNat ≤ 2 ^ 39

/-- A call of `sys_brk` that is refused or near. -/
def MmCall.NearBreak (p : Process) : MmCall → Prop
  | .brk addr => addr < p.mm.startBrk ∨ BreakNear p addr
  | .mmap .. => False

section Break

variable {layout : Layout} {others : List Block} {maps : List Mapping} {p : Process} {brk : U64}

/-- Near the old break, the `int` is the difference. -/
theorem BreakNear.growth_eq (near : BreakNear p brk) :
    p.growth brk = (brk.toNat : Int) - p.mm.brk.toNat := by
  have low := near.low
  have high := near.high
  have bound := brk.isLt
  have bound' := p.mm.brk.isLt
  unfold Process.growth cInt
  rw [BitVec.toNat_sub, Int.bmod_def]
  split <;> omega

/-- Heap memory that is mapped stays mapped when more of it is. -/
theorem MmInv.readWrite_concat {p' : Process} {m : Mapping} {v : Nat} {leaf : Leaf}
    (inv : MmInv layout others maps p) (inv' : MmInv layout others (maps ++ [m]) p')
    (prot : m.prot = protRead ||| protWrite) (type : m.type = .normal)
    (found : p.translate v = some leaf) (rw' : leaf.ReadWrite) :
    ∃ leaf, p'.translate v = some leaf ∧ leaf.ReadWrite := by
  rw [inv.translate_eq] at found
  rw [inv'.translate_eq]
  split at found
  swap
  · cases found
  rename_i low
  rw [if_pos low, leafOf_maps_concat]
  by_cases covers : m.Covers v
  · rw [if_pos covers]
    have ok := inv'.mem.ok m (List.mem_append_right _ (.head _))
    obtain ⟨user, writable, -, normal⟩ := ok.leaf_allows covers
    refine ⟨_, rfl, user, writable.mpr (.inl ?_), normal.mpr type⟩
    rw [prot]
    decide
  · rw [if_neg covers]
    exact ⟨leaf, found, rw'⟩

/-- A break for which `sys_brk` maps nothing, since it is refused or in a page that is mapped
already, leaves the heap backed. -/
theorem BreakBacked.idle (backed : BreakBacked p) (near : brk < p.mm.startBrk ∨ BreakNear p brk)
    (idle : BrkIdle p brk) : BreakBacked { p with mm := brkMm p brk } := by
  by_cases refused : brk < p.mm.startBrk
  · have same : brkMm p brk = p.mm := if_pos refused
    rw [same]
    exact backed
  · have mm_eq : brkMm p brk = { p.mm with brk } := if_neg refused
    rw [mm_eq]
    have growth := (near.resolve_left refused).growth_eq
    have still := idle.resolve_left refused
    have accepted : p.mm.startBrk.toNat ≤ brk.toNat := BitVec.le_def.mp (BitVec.not_lt.mp refused)
    refine ⟨accepted, ?_⟩
    rintro v ⟨x, low, high, page⟩
    have high' : x < brk.toNat := high
    exact backed.mapped v ⟨x, low, by omega, page⟩

/-- A break that is raised, once its growth is mapped. -/
theorem BreakBacked.grow {pt : PtState MmGran} {b : Block} {size : U64}
    (backed : BreakBacked p) (inv : MmInv layout others maps p)
    (inv' : MmInv layout others
      (maps ++ [backing p.mm.brk size (protRead ||| protWrite) b])
      { p with pt, mm := { p.mm with brk } })
    (aligned : p.mm.brk.toNat % 2 ^ 12 = 0) (size_eq : p.mm.brk.toNat + size.toNat = brk.toNat)
    (lower : brk.toNat ≤ 2 ^ 39) (pos : 0 < size.toNat) :
    BreakBacked { p with pt, mm := { p.mm with brk } } := by
  have le := backed.le
  refine ⟨show p.mm.startBrk.toNat ≤ brk.toNat by omega, ?_⟩
  rintro v ⟨x, low, high, page⟩
  have high' : x < brk.toNat := high
  by_cases old : x < p.mm.brk.toNat
  · obtain ⟨leaf, found, readWrite⟩ := backed.mapped v ⟨x, low, old, page⟩
    exact inv.readWrite_concat inv' rfl rfl found readWrite
  · have covers : (backing p.mm.brk size (protRead ||| protWrite) b).Covers v := by
      refine (backing_covers aligned (by omega)).mpr ⟨by omega, ?_⟩
      unfold pageUp
      omega
    have ok := inv'.mem.ok _ (List.mem_append_right _ (.head _))
    obtain ⟨user, writable, -, normal⟩ := ok.leaf_allows covers
    refine ⟨(backing p.mm.brk size (protRead ||| protWrite) b).call.range.leaf v, ?_, user,
      writable.mpr (.inl (show (protRead ||| protWrite) &&& protWrite ≠ 0 by decide)),
      normal.mpr rfl⟩
    rw [inv'.translate_eq, if_pos (by omega), leafOf_maps_concat, if_pos covers]

/-- A break that is raised near the old one, by what can be backed, is set with the heap mapped
below it, unless memory runs out. -/
theorem sysBrk_raise (inv : MmInv layout others maps p) (backed : BreakBacked p)
    (grow : ¬ BrkIdle p brk) (near : BreakNear p brk)
    (backable : Backable p.mm.brk (BitVec.ofInt 64 (p.growth brk))) :
    sysBrk p brk = .error .null ∨ ∃ pt b,
      sysBrk p brk = .ok (brk, { p with pt, mm := { p.mm with brk } }) ∧
      b.size = brk.toNat - p.mm.brk.toNat ∧
      MmInv layout others (maps ++ [backing p.mm.brk (BitVec.ofInt 64 (p.growth brk))
        (protRead ||| protWrite) b]) { p with pt, mm := { p.mm with brk } } ∧
      BreakBacked { p with pt, mm := { p.mm with brk } } := by
  obtain ⟨accepted, pos⟩ := not_or.mp grow
  have growth := near.growth_eq
  have size : (BitVec.ofInt 64 (p.growth brk)).toNat = (p.growth brk).toNat :=
    Process.toNat_growth (by omega)
  have lower : brk.toNat ≤ 2 ^ 39 := near.lower.resolve_left (by omega)
  have mm_eq : brkMm p brk = { p.mm with brk } := if_neg accepted
  have aligned := backable.aligned
  have fits : p.mm.brk.toNat + pageUp (BitVec.ofInt 64 (p.growth brk)).toNat ≤ 2 ^ 39 := by
    unfold pageUp
    omega
  rcases sysBrk_served inv (.inr backable) with
    ⟨failed, -⟩ | ⟨pt, maps', run, inv', -, kind⟩
  · exact .inl failed
  · rcases kind with ⟨still, -⟩ | ⟨-, b, b_size, rfl⟩
    · exact absurd still grow
    · rw [backing_landed aligned fits, mm_eq] at inv'
      rw [mm_eq] at run
      exact .inr ⟨pt, b, run, by omega, inv',
        backed.grow inv inv' aligned (by omega) lower backable.pos⟩

/-- A near break is set with the heap mapped below it, or memory runs out, or an assertion
stops the kernel. -/
theorem sysBrk_near (inv : MmInv layout others maps p) (backed : BreakBacked p)
    (near : brk < p.mm.startBrk ∨ BreakNear p brk) :
    sysBrk p brk = .error .null ∨ sysBrk p brk = .error .assertion ∨
      ∃ p' maps', sysBrk p brk = .ok (p'.mm.brk, p') ∧ MmInv layout others maps' p' ∧
        BreakBacked p' := by
  by_cases idle : BrkIdle p brk
  · rcases sysBrk_served inv (.inl idle) with
    ⟨failed, -⟩ | ⟨pt, maps', run, inv', -, kind⟩
    · exact .inl failed
    · have quiet := sysBrk_of_idle idle
      cases quiet.symm.trans run
      exact .inr (.inr ⟨_, maps', run, inv', backed.idle near idle⟩)
  · obtain ⟨accepted, pos⟩ := not_or.mp idle
    have isNear := near.resolve_left accepted
    by_cases backable : Backable p.mm.brk (BitVec.ofInt 64 (p.growth brk))
    · rcases sysBrk_raise inv backed idle isNear backable with
        failed | ⟨pt, b, run, -, inv', backed'⟩
      · exact .inl failed
      · exact .inr (.inr ⟨_, _, run, inv', backed'⟩)
    · have growth := isNear.growth_eq
      have size : (BitVec.ofInt 64 (p.growth brk)).toNat = (p.growth brk).toNat :=
        Process.toNat_growth (by omega)
      have lower : brk.toNat ≤ 2 ^ 39 := isNear.lower.resolve_left (by omega)
      have fits : p.mm.brk.toNat % 2 ^ 12 = 0 →
          p.mm.brk.toNat + pageUp (BitVec.ofInt 64 (p.growth brk)).toNat ≤ 2 ^ 39 := by
        intro aligned
        unfold pageUp
        omega
      rw [sysBrk_of_grow idle, inv.addrspace]
      rcases inv.mem.allocMap_stops (protRead ||| protWrite) (by omega) backable
          (fun aligned _ => mappable_of_le aligned (fits aligned)) with failed | failed
      · rw [failed]
        exact .inl rfl
      · rw [failed]
        exact .inr (.inl rfl)

end Break

section Runs

variable {boot : Boot} {k : Booted} {p : Process}

/-- Every run of near breaks leaves the heap mapped. -/
theorem breakBacked_of_runs (run : initKernel boot = .ok k)
    (runs : MmRuns MmCall.NearBreak k.root p) :
    ∃ others maps, MmInv boot.layout others maps p ∧ BreakBacked p := by
  induction runs with
  | start =>
    obtain ⟨mem, loads, others, source, task, -⟩ := initKernel_ok run
    refine ⟨others, _, task.inv, ?_, ?_⟩
    · rw [task.brk]
    · rintro v ⟨x, low, high, -⟩
      rw [task.brk] at high
      omega
  | @call p p' c ret _ near call ih =>
    obtain ⟨others, maps, inv, backed⟩ := ih
    cases c with
    | brk addr =>
      rcases sysBrk_near inv backed near with failed | failed | ⟨p'', maps', ok, inv', backed'⟩
      · cases failed.symm.trans call
      · cases failed.symm.trans call
      · cases ok.symm.trans call
        exact ⟨others, maps', inv', backed'⟩
    | mmap start len prot flags fd off => exact near.elim

/-- Heap pages below the break are backed. In every run of calls of `sys_brk` with breaks that
are refused or near, the heap is mapped, and each further such call runs out of memory, stops
at an assertion, or returns the break it has set, with the heap mapped below it. -/
theorem break_stays_backed (run : initKernel boot = .ok k)
    (runs : MmRuns MmCall.NearBreak k.root p) {addr : U64}
    (near : (MmCall.brk addr).NearBreak p) :
    BreakBacked p ∧ (Stops (sysBrk p addr) .null ∨ Stops (sysBrk p addr) .assertion ∨
      Returns (sysBrk p addr) fun result =>
        result.1 = result.2.mm.brk ∧ BreakBacked result.2) := by
  obtain ⟨others, maps, inv, backed⟩ := breakBacked_of_runs run runs
  refine ⟨backed, ?_⟩
  rcases sysBrk_near inv backed near with failed | failed | ⟨p', maps', ok, -, backed'⟩
  · exact .inl failed
  · exact .inr (.inl failed)
  · exact .inr (.inr ⟨_, ok, rfl, backed'⟩)

/-- The first page of the heap of the small kernel's root task can be asked for: the call returns
the new break, and the page below it is mapped. -/
theorem break_stays_backed_sample : ∃ k, initKernel (sampleBoot sampleFile) = .ok k ∧
    k.root.mm.brk = 0x411000 ∧ Returns (sysBrk k.root 0x412000) fun result =>
      result.1 = result.2.mm.brk ∧ BreakBacked result.2 := by
  have evaluated : Returns (initKernel (sampleBoot sampleFile)) fun k =>
      k.root.mm.brk = 0x411000 ∧ ¬ Stops (sysBrk k.root 0x412000) .null ∧
      ¬ Stops (sysBrk k.root 0x412000) .assertion := by
    decide +kernel
  obtain ⟨k, run, brk_eq, notNull, notAsserted⟩ := evaluated
  have near : BreakNear k.root 0x412000 := by
    refine ⟨?_, ?_, .inr ?_⟩
    · rw [brk_eq]
      decide
    · rw [brk_eq]
      decide
    · decide
  refine ⟨k, run, brk_eq, ?_⟩
  rcases (break_stays_backed run .start (.inr near)).2 with stops | stops | returns
  · exact absurd stops notNull
  · exact absurd stops notAsserted
  · exact returns

/-- A break that is raised by 4 GiB is recorded, and the first page of the heap is not
mapped. -/
theorem far_break_not_backed : Returns (initKernel (sampleBoot sampleFile)) fun k =>
    Returns (sysBrk k.root 0x100411000) fun result =>
      result.2.mm.startBrk = 0x411000 ∧ result.2.mm.brk = 0x100411000 ∧
      (result.2.translate 0x411000).isNone := by
  decide +kernel

end Runs

/-! ## Where the heap starts -/

/-- The first address behind a segment. -/
def Elf64Phdr.stop (ph : Elf64Phdr) : Nat := ph.pVaddr.toNat + ph.pMemsz.toNat

/-- The data segment that comes first in the file, of segments in the order in which
`populate_segments` takes them. -/
def firstData (loads : List Elf64Phdr) : Option Elf64Phdr :=
  loads.reverse.find? (·.pFlags = pfR ||| pfW)

/-- The heap is empty and starts on a page boundary above all segments, so that none is in
its way. -/
structure HeapAbove (loads : List Elf64Phdr) (mm : MmArea) : Prop where
  aligned : mm.startBrk.toNat % 2 ^ 12 = 0
  brk : mm.brk = mm.startBrk
  above : ∀ ph ∈ loads, ph.stop ≤ mm.startBrk.toNat
  free : ∀ x, mm.startBrk.toNat ≤ x → ∀ ph ∈ loads, ¬ (ph.pVaddr.toNat ≤ x ∧ x < ph.stop)

/-- The first data segment of the file has no segment above its last page, and a page
boundary above it. -/
def DataOnTop (loads : List Elf64Phdr) : Prop :=
  ∃ data ∈ firstData loads, pageUp data.stop < 2 ^ 64 ∧ ∀ ph ∈ loads, ph.stop ≤ pageUp data.stop

instance (loads : List Elf64Phdr) : Decidable (DataOnTop loads) :=
  inferInstanceAs (Decidable (∃ data ∈ firstData loads, pageUp data.stop < 2 ^ 64 ∧
    ∀ ph ∈ loads, ph.stop ≤ pageUp data.stop))

section HeapStart

variable {layout : Layout} {elf : ChinElf} {segs : List Segment} {loads : List Elf64Phdr}
  {ph data : Elf64Phdr} {p p' : Process} {mm : MmArea}

theorem firstData_cons (ph : Elf64Phdr) (loads : List Elf64Phdr) :
    firstData (ph :: loads) =
      (firstData loads).or (if ph.pFlags = pfR ||| pfW then some ph else none) := by
  unfold firstData
  rw [List.reverse_cons, List.find?_append]
  by_cases isData : ph.pFlags = pfR ||| pfW
  · simp [isData]
  · simp [isData]

/-- The break that `segmentMm` sets for data, or else leaves. -/
theorem segmentMm_brk (run : segmentMm p ph = .ok mm) :
    (mm.startBrk, mm.brk) = if ph.pFlags = pfR ||| pfW then
      (alignPage (ph.pVaddr + ph.pMemsz), alignPage (ph.pVaddr + ph.pMemsz))
    else (p.mm.startBrk, p.mm.brk) := by
  have differ : pfR ||| pfX ≠ pfR ||| pfW := by decide
  unfold segmentMm at run
  by_cases code : ph.pFlags = pfR ||| pfX
  · rw [if_pos code] at run
    cases run
    rw [if_neg (by rw [code]; exact differ)]
  · rw [if_neg code] at run
    by_cases isData : ph.pFlags = pfR ||| pfW
    · rw [if_pos isData] at run
      cases run
      rw [if_pos isData]
    · rw [if_neg isData] at run
      cases run

/-- One turn of the loop of `populate_segments` sets no other fields of `mm` than `segmentMm`
does. -/
theorem populateSegment_mm (load : ph.pType = pTypeLoad)
    (run : populateSegment elf ph p = .ok p') : segmentMm p ph = .ok p'.mm := by
  unfold populateSegment at run
  rw [if_pos load] at run
  obtain ⟨mm, mmRun, run⟩ := of_bind_ok run
  obtain ⟨⟨addr, p₁⟩, mapRun, run⟩ := of_bind_ok run
  obtain ⟨⟨ret, pt⟩, copyRun, run⟩ := of_bind_ok run
  unfold elfMap at mapRun
  obtain ⟨⟨addr', pt₁⟩, callocRun, mapRun⟩ := of_bind_ok mapRun
  obtain ⟨pt₂, asRun, mapRun⟩ := of_bind_ok mapRun
  cases mapRun
  cases run
  exact mmRun

/-- The loop goes through the file backwards, so the data segment that comes first in it is
the last to set the break. -/
theorem populateSegments_brk : ∀ {segs : List Segment} {p : Process},
    populateSegments elf segs p = .ok p' →
    (p'.mm.startBrk, p'.mm.brk) =
      ((firstData (loadsOf (segs.map Segment.header))).map fun data =>
        (alignPage (data.pVaddr + data.pMemsz), alignPage (data.pVaddr + data.pMemsz))).getD
          (p.mm.startBrk, p.mm.brk) := by
  intro segs
  induction segs with
  | nil =>
    intro p run
    cases run
    rfl
  | cons seg segs ih =>
    intro p run
    rw [populateSegments] at run
    obtain ⟨p₁, turn, rest⟩ := of_bind_ok run
    have later := ih rest
    by_cases load : seg.header.pType = pTypeLoad
    · rw [later, List.map_cons, loadsOf_cons_of_load load, firstData_cons,
        segmentMm_brk (populateSegment_mm load turn)]
      cases firstData (loadsOf (segs.map Segment.header)) with
      | some data => rfl
      | none =>
        by_cases isData : seg.header.pFlags = pfR ||| pfW
        · rw [if_pos isData, if_pos isData]
          rfl
        · rw [if_neg isData, if_neg isData]
          rfl
    · have skip : populateSegment elf seg.header p = .ok p := if_neg load
      cases skip.symm.trans turn
      rw [later, List.map_cons, loadsOf_cons_of_not_load load]

theorem exists_firstData (hasData : ∃ ph ∈ loads, ph.pFlags = pfR ||| pfW) :
    ∃ data, firstData loads = some data ∧ data ∈ loads := by
  obtain ⟨ph, inside, isData⟩ := hasData
  cases found : firstData loads with
  | none =>
    have others := List.find?_eq_none.mp found ph (List.mem_reverse.mpr inside)
    exact absurd isData (by simpa using others)
  | some data => exact ⟨data, rfl, List.mem_reverse.mp (List.mem_of_find?_eq_some found)⟩

/-- A heap that starts behind segment `data` is above all segments exactly if none ends above
the last page of `data`, and there is a page above it. -/
theorem heapAbove_iff (found : firstData loads = some data) (inside : data ∈ loads)
    (brks : (mm.startBrk, mm.brk) =
      (alignPage (data.pVaddr + data.pMemsz), alignPage (data.pVaddr + data.pMemsz))) :
    HeapAbove loads mm ↔ DataOnTop loads := by
  obtain ⟨startBrk_eq, brk_eq⟩ := Prod.mk.inj brks
  have sum : data.stop < 2 ^ 64 → (data.pVaddr + data.pMemsz).toNat = data.stop := by
    intro small
    rw [BitVec.toNat_add]
    exact Nat.mod_eq_of_lt small
  have top : pageUp data.stop < 2 ^ 64 → mm.startBrk.toNat = pageUp data.stop := by
    intro noWrap
    have le := le_pageUp data.stop
    have stop_eq := sum (by omega)
    rw [startBrk_eq, alignPage_eq (by rw [stop_eq]; exact noWrap), stop_eq]
  constructor
  · intro heap
    have above := heap.above data inside
    have bound := mm.startBrk.isLt
    have noWrap : pageUp data.stop < 2 ^ 64 := by
      have aligned := heap.aligned
      unfold pageUp
      omega
    exact ⟨data, found, noWrap, fun ph inLoads => top noWrap ▸ heap.above ph inLoads⟩
  · rintro ⟨data', found', noWrap, highest⟩
    cases found.symm.trans found'
    have above : ∀ ph ∈ loads, ph.stop ≤ mm.startBrk.toNat := fun ph inLoads =>
      top noWrap ▸ highest ph inLoads
    refine ⟨startBrk_eq ▸ alignPage_aligned _, brk_eq.trans startBrk_eq.symm, above, ?_⟩
    intro x high ph inLoads within
    have stop_le := above ph inLoads
    omega

/-- Once a file with a data segment is loaded, the heap is above all of its segments exactly if
the first data segment in the file is the one on top. -/
theorem heap_above_segments_iff {boot : Boot} (start : rootStart boot = .ok p)
    (run : elfInitialize p boot.layout.elf = .ok (0, p'))
    (hasData : ∃ ph ∈ loadsOf (boot.layout.headers p.pt.mem), ph.pFlags = pfR ||| pfW) :
    HeapAbove (loadsOf (boot.layout.headers p.pt.mem)) p'.mm ↔
      DataOnTop (loadsOf (boot.layout.headers p.pt.mem)) := by
  obtain ⟨addrspace, others, inv⟩ := rootStart_ok start
  have loadable := loadable_of_run addrspace inv run
  rw [elfInitialize_of_header loadable.ehdr loadable.header loadable.arch] at run
  obtain ⟨⟨segs, s⟩, loadRun, run⟩ := of_bind_ok run
  obtain ⟨q, populateRun, run⟩ := of_bind_ok run
  obtain ⟨heap, removeRun, run⟩ := of_bind_ok run
  cases run
  have load : LoadReaches boot.layout.elf p (boot.layout.elf.ehdr p.pt.mem).ePhnum segs s :=
    ⟨⟨loadable.ehdr, loadable.header, loadable.arch⟩, loadRun⟩
  obtain ⟨-, -, headers⟩ := load.spec inv
  have headers_eq : segs.map Segment.header = boot.layout.headers p.pt.mem := headers
  have brks := populateSegments_brk populateRun
  obtain ⟨data, found, inside⟩ := exists_firstData hasData
  rw [headers_eq, found] at brks
  exact heapAbove_iff found inside brks

/-- The small kernel's file with two data segments, one at `0x400000` and one at `0x410000`. -/
def twoDataFile : List Nat :=
  sampleEhdr ++ samplePhdr 1 6 176 [0, 0, 0x40] 4 4 ++ samplePhdr 1 6 180 [0, 0, 0x41] 4 8 ++
    [0xc0, 0x03, 0x5f, 0xd6, 1, 2, 3, 4]

/-- The heap of the small kernel's own file is above its segments, and that of the file above is
not. -/
theorem heap_above_segments_iff_sample :
    (∃ p p', rootStart (sampleBoot sampleFile) = .ok p ∧
      elfInitialize p sampleLayout.elf = .ok (0, p') ∧
      HeapAbove (loadsOf (sampleLayout.headers p.pt.mem)) p'.mm) ∧
    ∃ p p', rootStart (sampleBoot twoDataFile) = .ok p ∧
      elfInitialize p sampleLayout.elf = .ok (0, p') ∧
      ¬ HeapAbove (loadsOf (sampleLayout.headers p.pt.mem)) p'.mm := by
  have good : Returns (rootStart (sampleBoot sampleFile)) fun p =>
      (∃ ph ∈ loadsOf (sampleLayout.headers p.pt.mem), ph.pFlags = pfR ||| pfW) ∧
      DataOnTop (loadsOf (sampleLayout.headers p.pt.mem)) ∧
      Returns (elfInitialize p sampleLayout.elf) fun result => result.1 = 0 := by
    decide +kernel
  have bad : Returns (rootStart (sampleBoot twoDataFile)) fun p =>
      (∃ ph ∈ loadsOf (sampleLayout.headers p.pt.mem), ph.pFlags = pfR ||| pfW) ∧
      ¬ DataOnTop (loadsOf (sampleLayout.headers p.pt.mem)) ∧
      Returns (elfInitialize p sampleLayout.elf) fun result => result.1 = 0 := by
    decide +kernel
  obtain ⟨p, start, hasData, onTop, ⟨_, p₁⟩, run, rfl⟩ := good
  obtain ⟨p', start', hasData', notOnTop, ⟨_, p₁'⟩, run', rfl⟩ := bad
  exact ⟨⟨p, p₁, start, run, (heap_above_segments_iff start run hasData).mpr onTop⟩,
    p', p₁', start', run', fun above =>
      notOnTop ((heap_above_segments_iff start' run' hasData').mp above)⟩

/-- The heap starts behind the first of two data segments, and so below the second. -/
theorem heap_below_second_data : Returns (rootStart (sampleBoot twoDataFile)) fun p =>
    ElfFile sampleLayout p.pt.mem ∧ sampleLayout.Loads p.pt.mem 1 ∧
    (sampleLayout.phdr p.pt.mem 1).pVaddr = 0x410000 ∧
    Returns (elfInitialize p sampleLayout.elf) fun result => result.1 = 0 ∧
      result.2.mm.startBrk = 0x401000 ∧ (result.2.translate 0x410000).isSome := by
  decide +kernel

end HeapStart

end Chinos
