import Chinos.Boot.Root
import Chinos.Mm.Runs

/-!
# What holds of the root task and after its calls

The root task meets the memory invariant, so every state that its calls lead to does.
Frames have one owner each; and a call returns exactly if it is served.
-/

namespace Chinos

/-! ## A small kernel

Two static pages, a user file of 184 bytes with a code and a data segment, and a heap of
160 granules; statements about single runs are evaluated on it.
-/

def sampleGeometry : GranGeometry where
  log2gran := 12
  ngranules := 160
  heapstart := 0xffffff8000004000
  log2gran_lt := smallHeap.log2gran_lt
  heapstart_pos := by decide
  heap_le := by decide
  span_lt := by decide

def sampleLayout : Layout where
  geo := sampleGeometry
  kernelPgd := 0xffffff8000000000
  userPgd := 0xffffff8000001000
  userStart := 0xffffff8000002000
  userEnd := 0xffffff80000020b8
  log2gran := rfl
  kernelPgd_aligned := by decide
  kernelPgd_ram := by decide
  userPgd_aligned := by decide
  userPgd_ram := by decide
  pgds_apart := by decide
  kernelPgd_image := by decide
  userPgd_image := by decide
  user_le := by decide
  heap_le := by decide
  heap_aligned := by decide
  heap_ram := by decide

/-- The ELF header of a file with two program headers. -/
def sampleEhdr : List Nat :=
  [0x7f, 0x45, 0x4c, 0x46, 2, 1, 1, 0, 0, 0, 0, 0, 0, 0, 0, 0,
   2, 0, 183, 0, 1, 0, 0, 0, 0, 0, 0x40, 0, 0, 0, 0, 0,
   64, 0, 0, 0, 0, 0, 0, 0, 0, 0, 0, 0, 0, 0, 0, 0,
   0, 0, 0, 0, 64, 0, 56, 0, 2, 0, 64, 0, 1, 0, 0, 0]

/-- A program header with one-byte fields, but for the address, which has three bytes. -/
def samplePhdr (type flags offset : Nat) (vaddr : List Nat) (filesz memsz : Nat) : List Nat :=
  [type, 0, 0, 0, flags, 0, 0, 0, offset, 0, 0, 0, 0, 0, 0, 0] ++
    vaddr ++ [0, 0, 0, 0, 0, 0, 0, 0, 0, 0, 0, 0, 0] ++
    [filesz, 0, 0, 0, 0, 0, 0, 0, memsz, 0, 0, 0, 0, 0, 0, 0, 0, 0x10, 0, 0, 0, 0, 0, 0]

/-- The file of the small kernel's root task, with four bytes of code at `0x400000` and eight of
data at `0x410000`, half of them in the file. -/
def sampleFile : List Nat :=
  sampleEhdr ++ samplePhdr 1 5 176 [0, 0, 0x40] 4 4 ++ samplePhdr 1 6 180 [0, 0, 0x41] 4 8 ++
    [0xc0, 0x03, 0x5f, 0xd6, 1, 2, 3, 4]

/-- RAM with a file behind the two static pages. -/
def sampleRam (file : List Nat) : Mem := fun x =>
  BitVec.ofNat 8 (if x < 0x40002000 then 0 else file.getD (x - 0x40002000) 0)

theorem sampleRam_clear {file : List Nat} (x : Nat)
    (inPage : linearView.InPage sampleLayout.userPgd x) : sampleRam file x = 0 := by
  have page : (linearView.toPhys sampleLayout.userPgd).toNat = 0x40001000 := by decide
  have high : x < (linearView.toPhys sampleLayout.userPgd).toNat + 2 ^ 12 := inPage.2
  rw [page] at high
  unfold sampleRam
  rw [if_pos (show x < 0x40002000 from high)]
  rfl

def sampleHeap : MmGran := ⟨12, 160, 0xffffff8000004000, fun _ => 0⟩

theorem sampleHeap_inv : HeapInv sampleGeometry ⟨sampleHeap, []⟩ :=
  HeapInv.init ⟨rfl, rfl, rfl⟩ fun i => by simp [MmGran.bit, sampleHeap]

/-- A small kernel that starts with the given user file. -/
def sampleBoot (file : List Nat) : Boot where
  layout := sampleLayout
  ram := sampleRam file
  heap := sampleHeap
  live := []
  heapInv := sampleHeap_inv
  userClear := sampleRam_clear
  regions := [⟨0xffffff8000000000, 0x40000000, 0x4000, 0x713⟩]
  mmfr0 := 0

/-- The root task moves its break by a page and maps another. -/
def sampleCalls : List MmCall := [.brk 0x412000, .mmap 0 100 3 0x22 0 0]

theorem sample_runs : Returns (initKernel (sampleBoot sampleFile)) fun k =>
    Returns (runCalls sampleCalls k.root) fun _ => True := by
  decide +kernel

section Safety

variable {boot : Boot} {k : Booted} {p p' : Process}

/-! ## Reached states -/

/-- A mapping without an allocation is one of the two that `root_task_create` makes. -/
def Unbacked (m : Mapping) : Prop := m = devMapping ∨ m = stackMapping .null

/-- Every mapping of the root task has an allocation behind it, but for the page of the UART and
a stack that is NULL. -/
theorem RootTask.unbacked {layout : Layout} {mem : Mem} {others : List Block}
    {loads : List (Elf64Phdr × Block)} {source : Source}
    (task : RootTask layout mem others loads source p) :
    ∀ m ∈ rootMaps loads source, m.block = none → Unbacked m := by
  intro m inside none
  rcases List.mem_append.mp inside with isLoad | isFixed
  · obtain ⟨load, -, rfl⟩ := List.mem_map.mp isLoad
    cases none
  · rcases List.mem_cons.mp isFixed with rfl | isStack
    · exact .inl rfl
    · rw [List.mem_singleton] at isStack
      subst isStack
      cases source with
      | block b => cases none
      | uart => exact absurd rfl task.isStack
      | null => exact .inr rfl

/-- What is known of every state that is reached. -/
structure Reached (boot : Boot) (k : Booted) (others : List Block) (maps : List Mapping)
    (p : Process) : Prop where
  inv : MmInv boot.layout others maps p
  unbacked : ∀ m ∈ maps, m.block = none → Unbacked m
  asidBitmap : k.asidBitmap ∈ others
  kernelTables : ∀ q ∈ k.kernelTables, q = boot.layout.kernelPgd ∨ pageBlock q ∈ others

theorem reached {legal : Process → MmCall → Prop} (run : initKernel boot = .ok k)
    (runs : MmRuns legal k.root p) : ∃ others maps, Reached boot k others maps p := by
  obtain ⟨mem, loads, others, source, task, bitmap, pages, tables_eq, live⟩ := initKernel_ok run
  obtain ⟨new, inv, blocks⟩ := task.inv.runs runs
  refine ⟨others, _, inv, fun m inside none => ?_, bitmap, fun q inTables => ?_⟩
  · rcases List.mem_append.mp inside with inRoot | inNew
    · exact task.unbacked m inRoot none
    · obtain ⟨b, source_eq⟩ := blocks m inNew
      unfold Mapping.block at none
      rw [source_eq] at none
      cases none
  · rw [tables_eq] at inTables
    rcases List.mem_append.mp inTables with inPages | isPgd
    · exact .inr (live q inPages)
    · exact .inl (List.mem_singleton.mp isPgd)

/-! ## Frames -/

/-- The kernel uses the byte at physical address `x`: it is in a page of the user table or
of the kernel's, in the record of an area, in the ASID bitmap, or below the heap, where the
kernel image, the user file and the granule table are. -/
inductive KernelUses (boot : Boot) (k : Booted) (p : Process) (x : Nat) : Prop
  | userTable (q : U64) (inTables : q ∈ p.pt.tables) (inPage : linearView.InPage q x)
  | kernelTable (q : U64) (inTables : q ∈ k.kernelTables) (inPage : linearView.InPage q x)
  | record (area : VmArea) (inAreas : area ∈ p.mm.areas) (has : (recordBlock area).Has x)
  | asidBitmap (has : k.asidBitmap.Has x)
  | image (low : ramPbase.toNat ≤ x)
      (high : x < phys (BitVec.ofNat 64 boot.layout.geo.heapstart))

variable {others : List Block} {maps : List Mapping} {x : Nat}

theorem Layout.phys_heapstart (layout : Layout) :
    phys (BitVec.ofNat 64 layout.geo.heapstart) =
      layout.geo.heapstart - ramVbase.toNat + ramPbase.toNat := by
  have ram := BitVec.le_def.mp layout.userPgd_ram
  have image := layout.userPgd_lt
  have top := layout.heap_ram
  have fits : (BitVec.ofNat 64 layout.geo.heapstart).toNat = layout.geo.heapstart := by
    rw [toNat_ramVbase] at top
    rw [BitVec.toNat_ofNat]
    omega
  rw [phys_eq (by rw [fits]; omega), fits]

/-- A page table that is part of the kernel image lies below the heap. -/
theorem Layout.pgd_below (layout : Layout) {pgd : U64} (ram : ramVbase ≤ pgd)
    (image : pgd.toNat + 2 ^ 12 ≤ layout.userStart) (inPage : linearView.InPage pgd x) :
    ramPbase.toNat ≤ x ∧ x < phys (BitVec.ofNat 64 layout.geo.heapstart) := by
  have low := BitVec.le_def.mp ram
  have user := layout.user_le
  have heap := layout.heap_le
  have pgd_eq : (linearView.toPhys pgd).toNat = pgd.toNat - ramVbase.toNat + ramPbase.toNat :=
    phys_eq low
  obtain ⟨first, last⟩ := inPage
  rw [layout.phys_heapstart]
  omega

/-- What the kernel uses is a live allocation that backs no mapping, a page of the user
table, or below the heap. -/
theorem Reached.uses (reached : Reached boot k others maps p) (uses : KernelUses boot k p x) :
    (∃ b ∈ p.mm.areas.map recordBlock ++ others, b.Has x) ∨
      (∃ q ∈ p.pt.tables, linearView.InPage q x) ∨
      (ramPbase.toNat ≤ x ∧ x < phys (BitVec.ofNat 64 boot.layout.geo.heapstart)) := by
  cases uses with
  | userTable q inTables inPage => exact .inr (.inl ⟨q, inTables, inPage⟩)
  | kernelTable q inTables inPage =>
    rcases reached.kernelTables q inTables with rfl | live
    · exact .inr (.inr (boot.layout.pgd_below boot.layout.kernelPgd_ram
        boot.layout.kernelPgd_image inPage))
    · exact .inl ⟨_, List.mem_append_right _ live, pageBlock_has.mpr inPage⟩
  | record area inAreas has =>
    exact .inl ⟨_, List.mem_append_left _ (List.mem_map_of_mem inAreas), has⟩
  | asidBitmap has => exact .inl ⟨_, List.mem_append_right _ reached.asidBitmap, has⟩
  | image low high => exact .inr (.inr ⟨low, high⟩)

/-- All the memory that the kernel uses is RAM, so that no device register counts as its own. -/
theorem Reached.uses_ram (reached : Reached boot k others maps p) (uses : KernelUses boot k p x) :
    ramPbase.toNat ≤ x ∧ x < ramPbase.toNat + 2 ^ 31 := by
  have heap := boot.layout.phys_heapstart
  have top := boot.layout.heap_ram
  have placedRam : ∀ {b : Block}, boot.layout.Placed b → b.Has x →
      ramPbase.toNat ≤ x ∧ x < ramPbase.toNat + 2 ^ 31 := by
    intro b placed has
    obtain ⟨-, block_eq, -, high⟩ := placed.toNat_addr
    obtain ⟨first, last⟩ := has
    omega
  have belowRam : x < phys (BitVec.ofNat 64 boot.layout.geo.heapstart) →
      x < ramPbase.toNat + 2 ^ 31 := by
    intro below
    omega
  rcases reached.uses uses with ⟨b, live, has⟩ | ⟨q, inTables, inPage⟩ | ⟨low, high⟩
  · exact placedRam (reached.inv.mem.placed live) has
  · rcases reached.inv.mem.good.table inTables with rfl | ⟨placed, -⟩
    · obtain ⟨low, high⟩ := boot.layout.pgd_below boot.layout.userPgd_ram
        boot.layout.userPgd_image inPage
      exact ⟨low, belowRam high⟩
    · exact placedRam placed (pageBlock_has.mpr inPage)
  · exact ⟨low, belowRam high⟩

/-- Memory that the kernel uses is in no block that backs a mapping of the task. -/
theorem Reached.not_uses {b : Block} (reached : Reached boot k others maps p)
    (inMaps : b ∈ blocksOf maps) (has : b.Has x) : ¬ KernelUses boot k p x := by
  intro uses
  have good := reached.inv.mem.good
  have live := List.mem_append_left (p.mm.areas.map recordBlock ++ others) inMaps
  have placed := good.placed live
  rcases reached.uses uses with ⟨b', live', has'⟩ | ⟨q, inTables, inPage⟩ | ⟨low, high⟩
  · obtain ⟨pages, -, heapInv⟩ := good
    have apart := (List.pairwise_append.mp (List.pairwise_append.mp heapInv.apart).2.1).2.2
    exact (apart b inMaps b' live').not_has placed (reached.inv.mem.placed live') has has'
  · exact good.not_inPage live has inTables inPage
  · obtain ⟨-, block_eq, -, -⟩ := placed.toNat_addr
    have bottom := placed.low
    rw [boot.layout.phys_heapstart] at high
    obtain ⟨first, -⟩ := has
    omega

/-- The frame of a mapping without an allocation is not RAM. -/
theorem Unbacked.pa {m : Mapping} {v : Nat} (unbacked : Unbacked m) (ok : m.Ok boot.layout)
    (covers : m.Covers v) :
    m = devMapping ∧ (m.call.range.leaf v).pa < ramPbase.toNat ∨
      m = stackMapping .null ∧ ramPbase.toNat + 2 ^ 31 ≤ (m.call.range.leaf v).pa := by
  have offset := ok.offset_lt covers
  rw [ok.leaf_eq covers]
  simp only
  rcases unbacked with rfl | rfl
  · have page : pageUp devMapping.size.toNat = 2 ^ 12 := by decide
    have uart : devMapping.paddr.toNat = 0x09000000 := by decide
    rw [page] at offset
    rw [uart, toNat_ramPbase]
    exact .inl ⟨rfl, by omega⟩
  · have beyond : ramPbase.toNat + 2 ^ 31 ≤ (stackMapping .null).paddr.toNat := by decide
    exact .inr ⟨rfl, by omega⟩

/-- Normal memory of the user that is mapped twice is mapped by one mapping. -/
theorem Reached.mapping_eq {m m' : Mapping} {v w : Nat} (reached : Reached boot k others maps p)
    (inMaps : m ∈ maps) (inMaps' : m' ∈ maps) (covers : m.Covers v) (covers' : m'.Covers w)
    (normal : m.type = .normal) (normal' : m'.type = .normal)
    (same : (m.call.range.leaf v).pa / 2 ^ 12 = (m'.call.range.leaf w).pa / 2 ^ 12) : m = m' := by
  have ok := reached.inv.mem.ok m inMaps
  have ok' := reached.inv.mem.ok m' inMaps'
  -- a frame in a block is RAM, and one without is not
  have mixed : ∀ {m m' : Mapping} {v w : Nat}, m ∈ maps → m' ∈ maps → m.Ok boot.layout →
      m'.Ok boot.layout → m.Covers v → m'.Covers w → m.type = .normal → ∀ {b}, m.block = none →
      m'.block = some b →
      (m.call.range.leaf v).pa / 2 ^ 12 ≠ (m'.call.range.leaf w).pa / 2 ^ 12 := by
    intro m m' v w inMaps inMaps' ok ok' covers covers' normal b none block same
    have placed := (ok'.backed b block).1
    obtain ⟨-, -, -, top⟩ := placed.toNat_addr
    obtain ⟨-, high⟩ := ok'.has block covers'
    rcases (reached.unbacked m inMaps none).pa ok covers with ⟨rfl, -⟩ | ⟨-, beyond⟩
    · cases normal
    · rw [toNat_ramPbase] at *
      omega
  by_contra ne
  cases block : m.block with
  | some b =>
    cases block' : m'.block with
    | some b' =>
      have apart := reached.inv.apart inMaps inMaps' ne block block'
      have placed := (ok.backed b block).1
      exact apart.not_has placed (ok'.backed b' block').1
        ((ok.has block covers).page placed same) (ok'.has block' covers')
    | none => exact mixed inMaps' inMaps ok' ok covers' covers normal' block' block same.symm
  | none =>
    cases block' : m'.block with
    | some b' => exact mixed inMaps inMaps' ok ok' covers covers' normal block block' same
    | none =>
      rcases reached.unbacked m inMaps block with rfl | rfl
      · cases normal
      · rcases reached.unbacked m' inMaps' block' with rfl | rfl
        · cases normal'
        · exact ne rfl

/-- Every frame has one owner. After any run of calls of the root task, no two user pages
lead to the same frame of normal memory, and no frame that the user table leads to is used
by the kernel. -/
theorem frames_owned (run : initKernel boot = .ok k) (runs : MmRuns anyCall k.root p) :
    (∀ v w leaf leaf', p.translate v = some leaf → p.translate w = some leaf' → leaf.Normal →
      leaf'.Normal → leaf.pa / 2 ^ 12 = leaf'.pa / 2 ^ 12 → v / 2 ^ 12 = w / 2 ^ 12) ∧
    ∀ v leaf, p.translate v = some leaf → ¬ KernelUses boot k p leaf.pa := by
  obtain ⟨others, maps, reached⟩ := reached run runs
  have inv := reached.inv
  constructor
  · intro v w leaf leaf' found found' normal normal' same
    obtain ⟨-, m, inMaps, ok, covers, rfl⟩ := inv.of_translate found
    obtain ⟨-, m', inMaps', ok', covers', rfl⟩ := inv.of_translate found'
    obtain ⟨-, -, -, isNormal⟩ := ok.leaf_allows covers
    obtain ⟨-, -, -, isNormal'⟩ := ok'.leaf_allows covers'
    obtain rfl := reached.mapping_eq inMaps inMaps' covers covers' (isNormal.mp normal)
      (isNormal'.mp normal') same
    exact ok.page_eq covers covers' same
  · intro v leaf found
    obtain ⟨-, m, inMaps, ok, covers, rfl⟩ := inv.of_translate found
    cases block : m.block with
    | some b =>
      exact reached.not_uses (List.mem_filterMap.mpr ⟨m, inMaps, block⟩) (ok.has block covers)
    | none =>
      intro uses
      have ram := reached.uses_ram uses
      rcases (reached.unbacked m inMaps block).pa ok covers with ⟨-, low⟩ | ⟨-, high⟩
      · omega
      · omega

theorem frames_owned_sample : ∃ k p, initKernel (sampleBoot sampleFile) = .ok k ∧
    runCalls sampleCalls k.root = .ok p ∧
    ∀ v leaf, p.translate v = some leaf → ¬ KernelUses (sampleBoot sampleFile) k p leaf.pa := by
  obtain ⟨k, run, returns⟩ := sample_runs
  obtain ⟨p, calls, -⟩ := returns
  exact ⟨k, p, run, calls, (frames_owned run (MmRuns.start.of_runCalls calls)).2⟩

/-! ## Calls that return -/

instance (leaf : Leaf) : Decidable leaf.User := inferInstanceAs (Decidable (_ = _))

instance (leaf : Leaf) : Decidable leaf.Writable := inferInstanceAs (Decidable (_ = _))

instance (leaf : Leaf) : Decidable leaf.Executable := inferInstanceAs (Decidable (_ = _))

/-- The EL0 code may write to the page and execute it. -/
def Leaf.WriteExecute (leaf : Leaf) : Prop := leaf.User ∧ leaf.Writable ∧ leaf.Executable

instance (leaf : Leaf) : Decidable leaf.WriteExecute := inferInstanceAs (Decidable (_ ∧ _))

theorem Mapping.Ok.writeExecute_iff {layout : Layout} {m : Mapping} {v : Nat} (ok : m.Ok layout)
    (covers : m.Covers v) : (m.call.range.leaf v).WriteExecute ↔
      (m.prot &&& protWrite ≠ 0 ∨ m.prot &&& protRead = 0) ∧ m.prot &&& protExec ≠ 0 := by
  obtain ⟨user, writable, executable, -⟩ := ok.leaf_allows covers
  unfold Leaf.WriteExecute
  rw [writable, executable]
  exact and_iff_right user

/-- No segment that is loaded is asked for with both. -/
theorem LoadOk.prot {elf : ChinElf} {ph : Elf64Phdr} (ok : LoadOk elf ph) :
    ¬ ((elfProt ph.pFlags &&& protWrite ≠ 0 ∨ elfProt ph.pFlags &&& protRead = 0) ∧
      elfProt ph.pFlags &&& protExec ≠ 0) := by
  rcases ok.flags with code | data
  · rw [code]
    decide
  · rw [data]
    decide

/-- Of all pages of the root task, the ones that EL0 may write and execute are those of the
stack: its protection `PF_R | PF_W` is `PROT_WRITE | PROT_EXEC` to `as_map`. -/
theorem root_writeExecute_iff (run : initKernel boot = .ok k) {v : Nat} {leaf : Leaf}
    (found : k.root.translate v = some leaf) : leaf.WriteExecute ↔ userStackTop.toNat ≤ v := by
  obtain ⟨mem, loads, others, source, task, -⟩ := initKernel_ok run
  have inv := task.inv
  have stack_lo : (stackMapping source).call.range.lo = userStackTop.toNat := by
    rw [MapCall.lo_eq]
    exact Nat.mod_eq_of_lt (show userStackTop.toNat < 2 ^ 39 by decide)
  constructor
  · intro both
    obtain ⟨-, m, inMaps, ok, covers, rfl⟩ := inv.of_translate found
    have prot := (ok.writeExecute_iff covers).mp both
    rcases List.mem_append.mp inMaps with isLoad | isFixed
    · obtain ⟨load, inLoads, rfl⟩ := List.mem_map.mp isLoad
      have header : load.1 ∈ loadsOf (boot.layout.headers mem) :=
        task.headers ▸ List.mem_map_of_mem inLoads
      exact absurd prot (task.loadable.loads _ header).prot
    · rcases List.mem_cons.mp isFixed with rfl | isStack
      · exact absurd prot (by decide)
      · rw [List.mem_singleton] at isStack
        subst isStack
        exact stack_lo ▸ covers.1
  · intro high
    rw [inv.translate_eq] at found
    split at found
    swap
    · cases found
    rename_i low
    have maps_eq : rootMaps loads source =
        (loadMaps loads ++ [devMapping]) ++ [stackMapping source] := by
      rw [List.append_assoc]
      rfl
    have covers : (stackMapping source).Covers v := by
      refine ⟨stack_lo ▸ high, lt_of_lt_of_le low (le_of_eq ?_)⟩
      have stop : (⟨userStackTop, 0, defaultTaskStacksize, 0⟩ : MapCall).range.hi = 2 ^ 39 := by
        decide
      exact stop.symm
    rw [maps_eq, leafOf_maps_concat, if_pos covers] at found
    cases found
    have ok := inv.mem.ok (stackMapping source) (by simp [rootMaps])
    have prot : ((pfR ||| pfW) &&& protWrite ≠ 0 ∨ (pfR ||| pfW) &&& protRead = 0) ∧
        (pfR ||| pfW) &&& protExec ≠ 0 := by
      decide
    exact (ok.writeExecute_iff covers).mpr prot

/-- The code of the small kernel's root task cannot be written, and its stack can be executed. -/
theorem root_writeExecute_iff_sample : ∃ k code stack,
    initKernel (sampleBoot sampleFile) = .ok k ∧ k.root.translate 0x400000 = some code ∧
    k.root.translate (userStackTop.toNat + 8) = some stack ∧
    ¬ code.WriteExecute ∧ stack.WriteExecute := by
  have evaluated : Returns (initKernel (sampleBoot sampleFile)) fun k =>
      (k.root.translate 0x400000).isSome ∧ (k.root.translate (userStackTop.toNat + 8)).isSome := by
    decide +kernel
  obtain ⟨k, run, codeMapped, stackMapped⟩ := evaluated
  obtain ⟨code, isCode⟩ := Option.isSome_iff_exists.mp codeMapped
  obtain ⟨stack, isStack⟩ := Option.isSome_iff_exists.mp stackMapped
  refine ⟨k, code, stack, run, isCode, isStack, fun both => ?_, ?_⟩
  · have high := (root_writeExecute_iff run isCode).mp both
    exact absurd high (by decide)
  · exact (root_writeExecute_iff run isStack).mpr (Nat.le_add_right _ _)

/-- The first page of the stack of the small kernel's root task is writable and executable. -/
theorem root_stack_writeExecute : Returns (initKernel (sampleBoot sampleFile)) fun k =>
    ∃ leaf ∈ k.root.translate userStackTop.toNat, leaf.WriteExecute := by
  decide +kernel

end Safety

end Chinos
