import Chinos.Space.Kernel

/-!
# User code and the kernel's memory

User code may store wherever a walk of TTBR0 or TTBR1 allows EL0 to write, and may make any
memory call. One invariant holds of all states that are reached this way: the user table
holds exactly the mappings that were made, and the kernel's table its zones. So what user
code can change is memory behind its own mappings, and the kernel's memory is not.
-/

namespace Chinos

/-- A store of user code may change the byte at physical address `x`: an address leads there,
and EL0 may write to it. The tables are at `ttbr0` and `ttbr1`. -/
def UserWritable (mem : Mem) (ttbr0 ttbr1 x : Nat) : Prop :=
  ∃ v leaf, (translate mem ttbr0 .lower v = some leaf ∨ translate mem ttbr1 .upper v = some leaf) ∧
    leaf.User ∧ leaf.Writable ∧ leaf.pa = x

/-- Memory `mem'` is what stores of user code may make of `mem`: it differs only where EL0 may
write. -/
def UserStores (mem : Mem) (ttbr0 ttbr1 : Nat) (mem' : Mem) : Prop :=
  ∀ x, ¬ UserWritable mem ttbr0 ttbr1 x → mem' x = mem x

/-- The process with other contents of memory, and everything else as it was. -/
def Process.withMem (p : Process) (mem : Mem) : Process := { p with pt := { p.pt with mem } }

@[simp] theorem Process.mem_withMem (p : Process) (mem : Mem) : (p.withMem mem).pt.mem = mem := rfl

@[simp] theorem Process.entry_withMem (p : Process) (mem : Mem) :
    (p.withMem mem).entry = p.entry := rfl

/-- The states of the root task: memory calls that return, with any arguments, and stores of
user code in between. A call that uses a NULL pointer or a word behind a page table does not
return here, so what the machine does after that is not a state of a run. -/
inductive UserRun (boot : KernelBoot) (k : Booted) : Process → Prop
  | start : UserRun boot k k.root
  | call {p p' : Process} {c : MmCall} {ret : U64} :
      UserRun boot k p → c.run p = .ok (ret, p') → UserRun boot k p'
  | store {p : Process} {mem : Mem} : UserRun boot k p →
      UserStores p.pt.mem (phys p.addrspace) (phys boot.layout.kernelPgd) mem →
      UserRun boot k (p.withMem mem)

/-- What holds of every state of such a run: the memory invariant of the task, and the kernel's
table in the memory as it is. -/
structure SpaceInv (boot : KernelBoot) (k : Booted) (others : List Block) (maps : List Mapping)
    (p : Process) : Prop extends Reached boot.toBoot k others maps p where
  table : KernelTable boot k.kernelTables p.pt.mem

section Steps

variable {boot : KernelBoot} {k : Booted} {others : List Block} {maps : List Mapping}
  {p p' : Process} {x : Nat} {mem : Mem}

/-- The kernel's PGD is spared by whatever the task does to its memory. -/
theorem Layout.kernelPgd_spared (layout : Layout) (others : List Block)
    (inPage : linearView.InPage layout.kernelPgd x) : Spared layout others x := by
  have below := layout.pgd_below layout.kernelPgd_ram layout.kernelPgd_image inPage
  rw [layout.phys_heapstart] at below
  refine .image below.1 below.2 fun inUser => ?_
  have isKernel := linearView_isPage layout.kernelPgd_aligned layout.kernelPgd_ram
  have isUser := linearView_isPage layout.userPgd_aligned layout.userPgd_ram
  have apart := isKernel.apart isUser layout.pgds_apart
  obtain ⟨low, high⟩ := inPage
  obtain ⟨low', high'⟩ := inUser
  omega

/-- The other tables of the kernel are spared as well, as allocations that stay in use. -/
theorem Reached.kernelTable_spared (reached : Reached boot.toBoot k others maps p) {q : U64}
    (inTables : q ∈ k.kernelTables) (inPage : linearView.InPage q x) :
    Spared boot.layout others x := by
  rcases reached.kernelTables q inTables with rfl | live
  · exact boot.layout.kernelPgd_spared others inPage
  · exact .live _ live (pageBlock_has.mpr inPage)

/-- Memory that is spared is RAM, so that no device register is meant. -/
theorem Reached.spared_ram (reached : Reached boot.toBoot k others maps p)
    (spared : Spared boot.layout others x) :
    ramPbase.toNat ≤ x ∧ x < ramPbase.toNat + 2 ^ 31 := by
  cases spared with
  | live b inOthers has =>
    obtain ⟨-, phys_eq, -, top⟩ :=
      (reached.inv.mem.placed (List.mem_append_right _ inOthers)).toNat_addr
    obtain ⟨low, high⟩ := has
    omega
  | image low high notPgd =>
    have top := boot.layout.heap_ram
    exact ⟨low, by omega⟩

/-- A byte that user code may change is in memory behind a mapping, or not in RAM. -/
theorem SpaceInv.of_userWritable (inv : SpaceInv boot k others maps p)
    (writable : UserWritable p.pt.mem (phys p.addrspace) (phys boot.layout.kernelPgd) x) :
    (∃ b ∈ blocksOf maps, b.Has x) ∨ x < ramPbase.toNat ∨ ramPbase.toNat + 2 ^ 31 ≤ x := by
  obtain ⟨v, leaf, found, user, -, rfl⟩ := writable
  rcases found with lower | upper
  · have found : p.translate v = some leaf := lower
    obtain ⟨-, m, inMaps, ok, covers, rfl⟩ := inv.inv.of_translate found
    cases block : m.block with
    | some b =>
      exact .inl ⟨b, List.mem_filterMap.mpr ⟨m, inMaps, block⟩, ok.has block covers⟩
    | none =>
      rcases (inv.unbacked m inMaps block).pa ok covers with ⟨-, low⟩ | ⟨-, high⟩
      · exact .inr (.inl low)
      · exact .inr (.inr high)
  · exact absurd user (inv.table.allows upper).1

/-- The kernel's memory is out of reach of user code. -/
theorem SpaceInv.not_userWritable (inv : SpaceInv boot k others maps p)
    (spared : Spared boot.layout others x) :
    ¬ UserWritable p.pt.mem (phys p.addrspace) (phys boot.layout.kernelPgd) x := by
  intro writable
  have ram := inv.spared_ram spared
  rcases inv.of_userWritable writable with ⟨b, inMaps, has⟩ | low | high
  · exact (spared.of_mm p).not_has inv.inv.mem inMaps has
  · omega
  · omega

/-- User code cannot write to the tables that it runs on. -/
theorem SpaceInv.table_not_userWritable (inv : SpaceInv boot k others maps p) {q : U64}
    (inTables : q ∈ p.pt.tables) (inPage : linearView.InPage q x) :
    ¬ UserWritable p.pt.mem (phys p.addrspace) (phys boot.layout.kernelPgd) x := by
  intro writable
  have ram := inv.uses_ram (.userTable q inTables inPage)
  rcases inv.of_userWritable writable with ⟨b, inMaps, has⟩ | low | high
  · exact inv.inv.mem.good.not_inPage (List.mem_append_left _ inMaps) has inTables inPage
  · omega
  · omega

theorem MmInv.withMem {layout : Layout} (inv : MmInv layout others maps p)
    (same : ∀ q ∈ p.pt.tables, ∀ x, linearView.InPage q x → mem x = p.pt.mem x) :
    MmInv layout others maps (p.withMem mem) :=
  ⟨inv.addrspace, inv.mem.withMem same, inv.base_aligned, inv.areas_aligned⟩

/-- Stores outside the tables do not change what a memory call needs of the heap. -/
theorem MmInv.requests_withMem {layout : Layout} {c : MmCall} (inv : MmInv layout others maps p)
    (same : ∀ q ∈ p.pt.tables, ∀ x, linearView.InPage q x → mem x = p.pt.mem x)
    (served : c.Served p) : c.requests (p.withMem mem) = c.requests p := by
  have agree : ∀ {vaddr size : U64}, Backable vaddr size →
      backRequests (p.withMem mem).has vaddr size = backRequests p.has vaddr size := by
    intro vaddr size backable
    rw [(inv.withMem same).has_eq, inv.has_eq]
    exact backable.backRequests_eq (inv.mem.tablesAt same)
  cases c with
  | brk addr =>
    by_cases idle : BrkIdle p addr
    · exact (if_pos idle).trans (if_pos idle).symm
    · exact (if_neg idle).trans ((agree (served.resolve_left idle)).trans (if_neg idle).symm)
  | mmap start len prot flags fd off =>
    by_cases idle : MmapIdle len flags
    · exact (if_pos idle).trans (if_pos idle).symm
    · have same_requests := agree (served.resolve_left idle)
      exact (if_neg idle).trans
        ((congrArg (granules sizeofVmArea :: ·) same_requests).trans (if_neg idle).symm)

/-- So a memory call is granted before such stores exactly if it is after them. -/
theorem MmInv.granted_withMem {layout : Layout} {c : MmCall} (inv : MmInv layout others maps p)
    (same : ∀ q ∈ p.pt.tables, ∀ x, linearView.InPage q x → mem x = p.pt.mem x) :
    c.Granted (p.withMem mem) ↔ c.Granted p := by
  have served : c.Served (p.withMem mem) ↔ c.Served p := by cases c <;> rfl
  unfold MmCall.Granted
  rw [served]
  refine and_congr_right fun ok => ?_
  rw [inv.requests_withMem same ok]
  rfl

/-- Stores outside the tables of the task and of the kernel keep the invariant. -/
theorem SpaceInv.withMem (inv : SpaceInv boot k others maps p)
    (user : ∀ q ∈ p.pt.tables, ∀ x, linearView.InPage q x → mem x = p.pt.mem x)
    (kernel : ∀ q ∈ k.kernelTables, ∀ x, linearView.InPage q x → mem x = p.pt.mem x) :
    SpaceInv boot k others maps (p.withMem mem) :=
  ⟨⟨inv.inv.withMem user, inv.unbacked, inv.asidBitmap, inv.kernelTables⟩, inv.table.keep kernel⟩

/-- Stores of user code keep the invariant, since they go to no table. -/
theorem SpaceInv.store (inv : SpaceInv boot k others maps p)
    (stores : UserStores p.pt.mem (phys p.addrspace) (phys boot.layout.kernelPgd) mem) :
    SpaceInv boot k others maps (p.withMem mem) := by
  refine inv.withMem (fun q inTables x inPage => ?_) (fun q inTables x inPage => ?_)
  · exact stores x (inv.table_not_userWritable inTables inPage)
  · exact stores x (inv.not_userWritable (inv.kernelTable_spared inTables inPage))

/-- A memory call keeps it, with at most one more mapping. -/
theorem SpaceInv.call (inv : SpaceInv boot k others maps p) {c : MmCall} {ret : U64}
    (run : c.run p = .ok (ret, p')) : ∃ new, SpaceInv boot k others (maps ++ new) p' := by
  obtain ⟨-, new, inv', kind⟩ := inv.inv.of_run run
  refine ⟨new, ⟨inv', fun m inside none => ?_, inv.asidBitmap, inv.kernelTables⟩,
    inv.table.keep fun q inTables x inPage => ?_⟩
  · rcases List.mem_append.mp inside with old | isNew
    · exact inv.unbacked m old none
    · rcases kind with rfl | ⟨m', rfl, maps⟩
      · cases isNew
      · rw [List.mem_singleton] at isNew
        subst isNew
        obtain ⟨b, source_eq⟩ := maps.block
        unfold Mapping.block at none
        rw [source_eq] at none
        cases none
  · exact MmCall.run_spares inv.inv run (inv.kernelTable_spared inTables inPage)

end Steps

/-! ## A small kernel

Its image, the user file and a heap of 32 granules fill the last pages of RAM.
-/

def kernelGeometry : GranGeometry where
  log2gran := 12
  ngranules := 32
  heapstart := 0xffffff807ffe0000
  log2gran_lt := smallHeap.log2gran_lt
  heapstart_pos := by decide
  heap_le := by decide
  span_lt := by decide

def kernelLayout : Layout where
  geo := kernelGeometry
  kernelPgd := 0xffffff807ffdc000
  userPgd := 0xffffff807ffdd000
  userStart := 0xffffff807ffdf000
  userEnd := 0xffffff807ffe0000
  log2gran := rfl
  kernelPgd_aligned := by decide
  kernelPgd_ram := by decide
  userPgd_aligned := by decide
  userPgd_ram := by decide
  pgds_apart := by decide
  kernelPgd_image := by decide
  userPgd_image := by decide
  user_le := by decide
  heap_le := by decide
  heap_aligned := by decide
  heap_ram := by decide

def kernelLinker : Linker kernelLayout where
  codeStart := 0xffffff807ffd7000
  codeEnd := 0xffffff807ffd8000
  rodataEnd := 0xffffff807ffd9000
  dataEnd := 0xffffff807ffdc000
  bssEnd := 0xffffff807ffdf000
  code_ram := by decide
  code_lt := by decide
  rodata_lt := by decide
  data_lt := by decide
  bss_lt := by decide
  bss_le := by decide
  user_lt := by decide
  code_aligned := by decide
  rodata_aligned := by decide
  data_aligned := by decide
  bss_aligned := by decide
  end_aligned := by decide
  user_aligned := by decide
  heap_aligned := by decide
  user_ram := by decide
  kernelPgd_bss := by decide
  userPgd_bss := by decide

/-- The RAM of the small kernel, which is clear but for the user file. -/
def kernelRam : Mem := fun x =>
  BitVec.ofNat 8 (if x < 0xbffdf000 then 0 else sampleFile.getD (x - 0xbffdf000) 0)

theorem kernelRam_clear {pgd : U64} (low : phys pgd + 2 ^ 12 ≤ 0xbffdf000) (x : Nat)
    (inPage : linearView.InPage pgd x) : kernelRam x = 0 := by
  have high : x < phys pgd + 2 ^ 12 := inPage.2
  unfold kernelRam
  rw [if_pos (show x < 0xbffdf000 by omega)]
  rfl

def kernelHeap : MmGran := ⟨12, 32, 0xffffff807ffe0000, fun _ => 0⟩

theorem kernelHeap_inv : HeapInv kernelGeometry ⟨kernelHeap, []⟩ :=
  HeapInv.init ⟨rfl, rfl, rfl⟩ fun i => by simp [MmGran.bit, kernelHeap]

/-- The small kernel, with the symbols of its linker script. -/
def kernelBoot : KernelBoot where
  layout := kernelLayout
  ram := kernelRam
  heap := kernelHeap
  live := []
  heapInv := kernelHeap_inv
  userClear := kernelRam_clear (by decide)
  regions := kernelLinker.regions
  mmfr0 := 0
  linker := kernelLinker
  regions_eq := rfl
  kernelClear := kernelRam_clear (by decide)

/-! ## From boot on -/

section Boot

variable {boot : KernelBoot} {k : Booted} {p : Process}

/-- The ASID bitmap is taken from free memory, so what is spared stays as it is. -/
theorem asidBitmapAlloc_spares {layout : Layout} {live : List Block} {s s' : PtState MmGran}
    {mmfr0 : U64} {bitmap : Block} (inv : KernelInv layout live s)
    (run : asidBitmapAlloc mmfr0 s = .ok (bitmap, s')) :
    s'.tables = s.tables ∧
      ∀ q ∈ s.tables, ∀ x, linearView.InPage q x → s'.mem x = s.mem x := by
  unfold asidBitmapAlloc at run
  obtain ⟨asidBits, bits, run⟩ := of_bind_ok run
  obtain ⟨⟨v, s₁⟩, alloc, run⟩ := of_bind_ok run
  cases run
  have size : 0 < numUserAsids asidBits ∧ numUserAsids asidBits ≤ 2 ^ 17 := by
    rcases getCpuAsidBits_ok bits with rfl | rfl <;> decide
  unfold mmapCalloc at alloc
  obtain ⟨⟨v', heap', mem'⟩, calloc, alloc⟩ := of_bind_ok alloc
  cases alloc
  obtain ⟨pages, tables_eq, heapInv⟩ := inv.good
  rcases granCalloc_spec _ heapInv size.1 size.2 s.mem with
    ⟨failed, -⟩ | ⟨b, heap'', size_eq, heapInv', ok, -⟩
  · cases failed.symm.trans calloc
  cases ok.symm.trans calloc
  have placed := heapInv'.placed (.head _)
  refine ⟨rfl, fun q inTables x inPage => ?_⟩
  simp only
  refine Mem.fill_of_outside (Block.outside_of_not_has size_eq.ge fun has => ?_)
  rw [tables_eq] at inTables
  rcases List.mem_append.mp inTables with inPages | isPgd
  · have listed : pageBlock q ∈ pages.map pageBlock ++ live :=
      List.mem_append_left _ (List.mem_map_of_mem inPages)
    have apart := (List.pairwise_cons.mp heapInv'.apart).1 _ listed
    exact apart.not_has placed (heapInv'.placed (.tail _ listed)) has (pageBlock_has.mpr inPage)
  · rw [List.mem_singleton.mp isPgd] at inPage
    have below := layout.pgd_below layout.kernelPgd_ram layout.kernelPgd_image inPage
    rw [layout.phys_heapstart] at below
    exact placed.not_below below.2 has

/-- The invariant holds once the root task has been created, whatever is in the rest of
memory. -/
theorem rootTaskCreate_spaceInv {s : PtState MmGran} {bitmap : Block} {tables pages : List U64}
    {live : List Block} (table : KernelTable boot tables s.mem)
    (tables_eq : tables = pages ++ [boot.layout.kernelPgd])
    (inv : MemInv boot.layout (bitmap :: (pages.map pageBlock ++ live)) [] s)
    (create : rootTaskCreate boot.layout s = .ok p) :
    ∃ others maps, SpaceInv boot ⟨tables, bitmap, p⟩ others maps p := by
  obtain ⟨loads, others, source, more, task⟩ := rootTaskCreate_ok inv create
  have listed : ∀ q ∈ pages, pageBlock q ∈ bitmap :: (pages.map pageBlock ++ live) :=
    fun q inPages => .tail _ (List.mem_append_left _ (List.mem_map_of_mem inPages))
  refine ⟨others, _, ⟨task.inv, task.unbacked, more (.head _), fun q inTables => ?_⟩,
    table.keep fun q inTables x inPage => ?_⟩
  · rw [tables_eq] at inTables
    rcases List.mem_append.mp inTables with inPages | isPgd
    · exact .inr (more (listed q inPages))
    · exact .inl (List.mem_singleton.mp isPgd)
  · refine rootTaskCreate_spares inv create ?_
    -- the pages of the kernel's table are live when the root task is created
    rw [tables_eq] at inTables
    rcases List.mem_append.mp inTables with inPages | isPgd
    · exact .live _ (listed q inPages) (pageBlock_has.mpr inPage)
    · rw [List.mem_singleton.mp isPgd] at inPage
      exact boot.layout.kernelPgd_spared _ inPage

/-- The kernel's table once the ASID bitmap is allocated. -/
theorem asidBitmapAlloc_table {s s' : PtState MmGran} {bitmap : Block}
    (init : asInitialize boot.toBoot = .ok s)
    (asid : asidBitmapAlloc boot.mmfr0 s = .ok (bitmap, s')) :
    KernelTable boot s'.tables s'.mem := by
  obtain ⟨sameTables, same⟩ := asidBitmapAlloc_spares (asInitialize_ok init) asid
  rw [sameTables]
  exact (asInitialize_table init).keep same

/-- The invariant holds once `init_kernel` has returned. -/
theorem initKernel_spaceInv (run : initKernel boot.toBoot = .ok k) :
    ∃ others maps, SpaceInv boot k others maps k.root := by
  unfold initKernel initKernelWith at run
  obtain ⟨kernel, init, run⟩ := of_bind_ok run
  obtain ⟨⟨bitmap, kernel'⟩, asid, run⟩ := of_bind_ok run
  obtain ⟨root, create, run⟩ := of_bind_ok run
  cases run
  obtain ⟨pages, tables_eq, inv⟩ := asidBitmapAlloc_ok (asInitialize_ok init) asid
  have table := asidBitmapAlloc_table init asid
  exact rootTaskCreate_spaceInv (s := { kernel' with tables := [boot.layout.userPgd] }) table
    tables_eq inv create

/-- The invariant holds in every state that calls and stores lead to. -/
theorem UserRun.inv (run : initKernel boot.toBoot = .ok k) (runs : UserRun boot k p) :
    ∃ others maps, SpaceInv boot k others maps p := by
  induction runs with
  | start => exact initKernel_spaceInv run
  | call _ call ih =>
    obtain ⟨others, maps, inv⟩ := ih
    obtain ⟨new, inv'⟩ := inv.call call
    exact ⟨others, _, inv'⟩
  | store _ stores ih =>
    obtain ⟨others, maps, inv⟩ := ih
    exact ⟨others, maps, inv.store stores⟩

/-- The kernel's address space, in every state that stores of user code and memory calls lead
to: TTBR1's table maps the zones of `as_initialize` and nothing else, leaves EL0 nothing and
EL1 no page to both write and execute; and no store of user code changes a byte that the kernel
uses. -/
theorem kernel_space_stays (run : initKernel boot.toBoot = .ok k) (runs : UserRun boot k p) :
    (∀ v pa attr,
      (∃ shift, translate p.pt.mem (phys boot.layout.kernelPgd) .upper v = some ⟨pa, attr, shift⟩) ↔
        Zone.Maps boot.linker.zones v pa attr) ∧
    (∀ v leaf, translate p.pt.mem (phys boot.layout.kernelPgd) .upper v = some leaf →
      ¬ leaf.User ∧ ¬ (leaf.Writable ∧ leaf.PrivilegedExecutable)) ∧
    ∀ x, KernelUses boot.toBoot k p x →
      ¬ UserWritable p.pt.mem (phys p.addrspace) (phys boot.layout.kernelPgd) x := by
  obtain ⟨others, maps, inv⟩ := runs.inv run
  refine ⟨fun v pa attr => inv.table.translate_iff, fun v leaf => inv.table.allows,
    fun x uses writable => ?_⟩
  have ram := inv.uses_ram uses
  rcases inv.of_userWritable writable with ⟨b, inMaps, has⟩ | low | high
  · exact inv.not_uses inMaps has uses
  · omega
  · omega

end Boot

/-- A page that the root task of the small kernel maps. -/
def smallPage : MmCall := .mmap 0x10000000 0x1000 3 0x22 0 0

/-- The root task maps a page and stores a byte there. It still cannot store into the BSS of
the kernel, and the kernel's table allows what it did. -/
theorem kernel_space_stays_small : ∃ k p ret x, initKernel kernelBoot.toBoot = .ok k ∧
    smallPage.run k.root = .ok (ret, p) ∧
    UserWritable p.pt.mem (phys p.addrspace) (phys kernelLayout.kernelPgd) x ∧
    UserRun kernelBoot k (p.withMem (Function.update p.pt.mem x 7)) ∧
    (∀ v leaf, translate (Function.update p.pt.mem x 7) (phys kernelLayout.kernelPgd) .upper v =
      some leaf → ¬ leaf.User ∧ ¬ (leaf.Writable ∧ leaf.PrivilegedExecutable)) ∧
    ¬ UserWritable (Function.update p.pt.mem x 7) (phys p.addrspace)
      (phys kernelLayout.kernelPgd) 0xbffde000 := by
  have evaluated : Returns (initKernel kernelBoot.toBoot) fun k =>
      Returns (smallPage.run k.root) fun result =>
        ((result.2.translate 0x10000000).any fun leaf =>
          decide (leaf.User ∧ leaf.Writable)) = true := by
    decide +kernel
  obtain ⟨k, run, ⟨ret, p⟩, call, mapped⟩ := evaluated
  obtain ⟨leaf, found, allowed⟩ := (Option.any_eq_true _ _).mp mapped
  obtain ⟨user, writable⟩ := of_decide_eq_true allowed
  have mine : UserWritable p.pt.mem (phys p.addrspace) (phys kernelLayout.kernelPgd) leaf.pa :=
    ⟨_, leaf, .inl found, user, writable, rfl⟩
  have stores : UserStores p.pt.mem (phys p.addrspace) (phys kernelLayout.kernelPgd)
      (Function.update p.pt.mem leaf.pa 7) := by
    intro x other
    refine Function.update_of_ne ?_ _ _
    rintro rfl
    exact other mine
  have runs : UserRun kernelBoot k (p.withMem (Function.update p.pt.mem leaf.pa 7)) :=
    .store (.call .start call) stores
  obtain ⟨-, allows, outOfReach⟩ := kernel_space_stays run runs
  exact ⟨k, p, ret, leaf.pa, run, call, mine, runs, allows,
    outOfReach _ (.image (by decide) (by decide))⟩

end Chinos
