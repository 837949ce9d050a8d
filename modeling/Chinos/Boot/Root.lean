import Chinos.Boot.Model

/-!
# The root task

While the kernel maps itself, it leaves the user PGD clear, and everything it allocates
stays live. So the memory invariant holds of the root task from the start, with the tables
of the kernel and the ASID bitmap among what is live. Of a root task that was created we
know the mappings: the segments of the file, the UART, and the stack.
-/

namespace Chinos

/-! ## The kernel's own allocations -/

/-- What holds while the kernel maps itself: the heap and the tables of the kernel are in order,
and the page for the PGD of the user is clear. -/
structure KernelInv (layout : Layout) (live : List Block) (s : PtState MmGran) : Prop where
  good : layout.Good layout.kernelPgd live s.heap s.tables
  userClear : ∀ x, linearView.InPage layout.userPgd x → s.mem x = 0

section Kernel

variable {layout : Layout} {live : List Block} {s s' : PtState MmGran} {q : U64}

theorem Layout.kernelPgd_lt (layout : Layout) : layout.kernelPgd.toNat < layout.geo.heapstart := by
  have image := layout.kernelPgd_image
  have user := layout.user_le
  have heap := layout.heap_le
  omega

theorem Layout.Good.kernel_table {heap : MmGran} {tables : List U64}
    (good : layout.Good layout.kernelPgd live heap tables) (inTables : q ∈ tables) :
    linearView.IsPage q ∧ q ≠ layout.userPgd := by
  rcases good.table inTables with rfl | ⟨placed, -⟩
  · exact ⟨linearView_isPage layout.kernelPgd_aligned layout.kernelPgd_ram, layout.pgds_apart⟩
  · have low : layout.geo.heapstart ≤ q.toNat := placed.low
    have user := layout.userPgd_lt
    refine ⟨linearView_isPage placed.aligned (BitVec.le_def.mpr placed.ram), fun same => ?_⟩
    rw [same] at low
    omega

theorem kernelInv_keeps (layout : Layout) (live : List Block) :
    PtKeeps linearView ptCalloc (KernelInv layout live) where
  store {s s' slot value} inv run := by
    unfold ptStore at run
    obtain ⟨⟨inTables, small⟩, run⟩ := of_require_bind_ok run
    cases run
    obtain ⟨isPage, ne⟩ := inv.good.kernel_table inTables
    have isUser := linearView_isPage layout.userPgd_aligned layout.userPgd_ram
    have same : s.mem.AgreeOn (s.mem.store64 (slot.phys linearView) value)
        (linearView.toPhys layout.userPgd).toNat (2 ^ 12) :=
      agreeOn_store_page isPage isUser ne small
    exact ⟨inv.good, fun x inUser => (same x inUser.1 inUser.2).trans (inv.userClear x inUser)⟩
  page {s s' page} inv run := by
    unfold ptAllocPage at run
    obtain ⟨⟨page', heap', mem'⟩, alloc, run⟩ := of_bind_ok run
    cases run
    rcases (ptCalloc_spec layout.kernelPgd_lt).step s.mem inv.good with
      failed | ⟨_, _, _, ok, fresh, good⟩
    · cases failed.symm.trans alloc
    · cases ok.symm.trans alloc
      obtain ⟨isPage, ne⟩ := good.kernel_table (.head _)
      have isUser := linearView_isPage layout.userPgd_aligned layout.userPgd_ram
      have apart := isPage.apart isUser ne
      refine ⟨good, fun x inUser => (fresh.frame x ?_).trans (inv.userClear x inUser)⟩
      obtain ⟨low, high⟩ := inUser
      omega

/-- If `as_initialize` returns, the kernel's own tables are in order, and the user table is still
empty. -/
theorem asInitialize_ok {boot : Boot} (run : asInitialize boot = .ok s) :
    KernelInv boot.layout boot.live s :=
  (kernelInv_keeps boot.layout boot.live).ptMaps
    ⟨⟨[], rfl, boot.heapInv⟩, boot.userClear⟩ run

theorem getCpuAsidBits_ok {mmfr0 : U64} {asidBits : Nat}
    (run : getCpuAsidBits mmfr0 = .ok asidBits) : asidBits = 8 ∨ asidBits = 16 := by
  unfold getCpuAsidBits at run
  split at run
  · cases run
    exact .inl rfl
  · split at run
    · cases run
      exact .inr rfl
    · cases run

/-- Once the ASID bitmap is allocated, the memory invariant holds, with an empty user table. -/
theorem asidBitmapAlloc_ok {mmfr0 : U64} {bitmap : Block} (inv : KernelInv layout live s)
    (run : asidBitmapAlloc mmfr0 s = .ok (bitmap, s')) :
    ∃ pages, s'.tables = pages ++ [layout.kernelPgd] ∧
      MemInv layout (bitmap :: (pages.map pageBlock ++ live)) []
        { s' with tables := [layout.userPgd] } := by
  unfold asidBitmapAlloc at run
  obtain ⟨asidBits, bits, run⟩ := of_bind_ok run
  obtain ⟨⟨v, s₁⟩, alloc, run⟩ := of_bind_ok run
  cases run
  have size : 0 < numUserAsids asidBits ∧ numUserAsids asidBits ≤ 2 ^ 17 := by
    rcases getCpuAsidBits_ok bits with rfl | rfl <;> decide
  obtain ⟨pages, tables_eq, heapInv⟩ := inv.good
  unfold mmapCalloc at alloc
  obtain ⟨⟨v', heap', mem'⟩, calloc, alloc⟩ := of_bind_ok alloc
  cases alloc
  rcases granCalloc_spec _ heapInv size.1 size.2 s.mem with
    ⟨failed, -⟩ | ⟨b, heap'', size_eq, heapInv', ok, -⟩
  · cases failed.symm.trans calloc
  cases ok.symm.trans calloc
  have placed := heapInv'.placed (.head _)
  have same : (⟨(BitVec.ofNat 64 b.addr).toNat, numUserAsids asidBits⟩ : Block) = b := by
    rw [placed.toNat_addr.1, ← size_eq]
  rw [same]
  refine ⟨pages, tables_eq, MemInv.start heapInv' fun x inUser => ?_⟩
  have outside : x < b.phys ∨ b.phys + numUserAsids asidBits ≤ x :=
    Block.outside_of_not_has size_eq.ge fun has => placed.not_userPgd has inUser
  simp only [Mem.fill_of_outside outside]
  exact inv.userClear x inUser

end Kernel

/-! ## The root task -/

/-- The mapping of the page of the UART. -/
def devMapping : Mapping := ⟨devRegion.vbase, devRegion.size, 0, .uart⟩

/-- The mapping of the stack, at `USER_STACK_TOP` and with the protection that `as_map` makes of
`PF_R | PF_W`. -/
def stackMapping (source : Source) : Mapping :=
  ⟨userStackTop, defaultTaskStacksize, pfR ||| pfW, source⟩

/-- The mappings of the root task: its segments, the page of the UART, and the stack. -/
def rootMaps (loads : List (Elf64Phdr × Block)) (source : Source) : List Mapping :=
  loadMaps loads ++ [devMapping, stackMapping source]

/-- A root task that was created from memory `mem`. -/
structure RootTask (layout : Layout) (mem : Mem) (others : List Block)
    (loads : List (Elf64Phdr × Block)) (source : Source) (p : Process) : Prop where
  loadable : Loadable layout mem
  headers : loads.map Prod.fst = loadsOf (layout.headers mem)
  inv : MmInv layout others (rootMaps loads source) p
  isStack : source ≠ .uart
  areas : p.mm.areas = []
  brk : p.mm.brk = p.mm.startBrk

section Root

variable {layout : Layout} {others : List Block} {s : PtState MmGran} {p : Process}

/-- If `boot_user_elf` returns, the file could be loaded, and the segments are all that is
mapped. -/
theorem bootUserElf_ok (inv : MemInv layout others [] s)
    (run : bootUserElf layout (rootTask layout s) = .ok p) :
    Loadable layout s.mem ∧ ∃ loads others', others ⊆ others' ∧
      loads.map Prod.fst = loadsOf (layout.headers s.mem) ∧
      MemInv layout others' (loadMaps loads) p.pt ∧ p.addrspace = layout.userPgd ∧
      p.stack = userStackTop ∧ LoadMm p := by
  unfold bootUserElf at run
  obtain ⟨⟨ret, p'⟩, init, run⟩ := of_bind_ok run
  obtain ⟨accepted, run⟩ := of_require_bind_ok run
  cases run
  by_cases loadable : Loadable layout s.mem
  swap
  · have refused := elfInitialize_of_not_loadable (p := rootTask layout s) rfl inv loadable init
    rw [refused] at accepted
    exact absurd (by decide) accepted
  rcases elfInitialize_spec (p := rootTask layout s) rfl inv loadable with
    ⟨failed, -⟩ | ⟨loads, others', p₁, ok, more, headers, loaded, -⟩
  · cases failed.symm.trans init
  cases ok.symm.trans init
  exact ⟨loadable, loads, others', more, headers, loaded.table, loaded.addrspace, loaded.stack.1,
    loaded.mm ⟨rfl, rfl, .inl rfl⟩⟩

theorem devMapping_asked : devMapping.Asked layout where
  aligned := by decide
  pos := by decide
  backed b impossible := by cases impossible
  unbacked _ := by decide

theorem stackMapping_asked {source : Source}
    (backed : ∀ b, source = .block b → layout.Placed b ∧ b.size = defaultTaskStacksize.toNat) :
    (stackMapping source).Asked layout where
  aligned := show userStackTop.toNat % 2 ^ 12 = 0 by decide
  pos := show 0 < defaultTaskStacksize.toNat by decide
  backed b block := by
    obtain ⟨placed, size_eq⟩ := backed b (Mapping.source_eq block)
    exact ⟨placed, size_eq ▸ le_pageUp _⟩
  unbacked _ := show defaultTaskStacksize.toNat ≤ 2 ^ 13 by decide

theorem stackMapping_lands (source : Source) : (stackMapping source).call.Lands := by
  have lands : Mappable userStackTop defaultTaskStacksize := by decide
  exact (stackMapping source).lands_iff.mpr lands

theorem stackMapping_landed (source : Source) :
    (stackMapping source).landed = stackMapping source := by
  have ne : (⟨userStackTop, 0, defaultTaskStacksize, 0⟩ : MapCall).stop ≠ 2 ^ 64 := by decide
  exact Mapping.landed_of_ne ne

/-- The stack: its memory is a new block, or none. -/
theorem stack_source {maps : List Mapping} {stack : Nat} {heap : MmGran}
    (inv : MemInv layout others maps s)
    (run : granAlloc s.heap defaultTaskStacksize.toNat = .ok (stack, heap)) :
    ∃ source : Source, source ≠ .uart ∧ source.paddr = vbaseToPbase (BitVec.ofNat 64 stack) ∧
      source.type = .normal ∧ (stackMapping source).Asked layout ∧
      MemInv layout ((stackMapping source).block.toList ++ others) maps { s with heap } := by
  rcases inv.alloc defaultTaskStacksize.toNat (by decide) (by decide) with
    ⟨none, -⟩ | ⟨b, heap', size_eq, -, ok, inv', -⟩
  · cases none.symm.trans run
    refine ⟨.null, nofun, rfl, rfl, stackMapping_asked fun b impossible => ?_, inv⟩
    cases impossible
  · cases ok.symm.trans run
    refine ⟨.block b, nofun, rfl, rfl, stackMapping_asked fun b' same => ?_, inv'⟩
    cases same
    exact ⟨inv'.placed (.head _), size_eq⟩

/-- Every root task that is created is as described. -/
theorem rootTaskCreate_ok (inv : MemInv layout others [] s)
    (run : rootTaskCreate layout s = .ok p) :
    ∃ loads others' source, others ⊆ others' ∧ RootTask layout s.mem others' loads source p := by
  unfold rootTaskCreate at run
  obtain ⟨p₁, boot, run⟩ := of_bind_ok run
  obtain ⟨loadable, loads, others', more, headers, inv₁, addrspace, stack_eq, mm⟩ :=
    bootUserElf_ok inv boot
  obtain ⟨pt₂, dev, run⟩ := of_bind_ok run
  obtain ⟨⟨stack, heap⟩, alloc, run⟩ := of_bind_ok run
  obtain ⟨pt₃, mapped, run⟩ := of_bind_ok run
  cases run
  rw [addrspace] at dev mapped
  -- the UART
  have lands : devMapping.call.Lands := devMapping.lands_iff.mpr (by decide)
  rcases MemInv.map (m := devMapping) inv₁ devMapping_asked lands with
    ⟨failed, -⟩ | ⟨s₂, ok₂, inv₂, -⟩
  · cases failed.symm.trans dev
  cases ok₂.symm.trans dev
  rw [Mapping.landed_of_ne (by decide)] at inv₂
  -- the stack
  obtain ⟨source, isStack, paddr_eq, type_eq, asked, inv₃⟩ := stack_source inv₂ alloc
  have region_eq : (stackMapping source).region =
      ⟨vbaseToPbase (BitVec.ofNat 64 stack), userStackTop, defaultTaskStacksize⟩ := by
    unfold Mapping.region Mapping.paddr
    rw [show (stackMapping source).source = source from rfl, paddr_eq]
    rfl
  have kind_eq : (stackMapping source).type = .normal := type_eq
  rcases inv₃.map asked (stackMapping_lands source) with ⟨failed, -⟩ | ⟨s₃, ok₃, inv₄, -⟩
  · rw [region_eq, kind_eq] at failed
    cases failed.symm.trans mapped
  rw [region_eq, kind_eq] at ok₃
  cases ok₃.symm.trans mapped
  rw [stackMapping_landed, List.append_assoc] at inv₄
  refine ⟨loads, others', source, more, loadable, headers, ⟨addrspace, ?_, ?_, ?_⟩, isStack,
    mm.areas, mm.brk⟩
  · rw [mm.areas]
    exact inv₄
  · rcases mm.base with zero | top
    · rw [zero]
      decide
    · rw [top, stack_eq]
      decide
  · rw [mm.areas]
    exact fun area inside => by cases inside

/-- The kernel once booted: what it holds is live. -/
theorem initKernel_ok {boot : Boot} {k : Booted} (run : initKernel boot = .ok k) :
    ∃ mem loads others source, RootTask boot.layout mem others loads source k.root ∧
      k.asidBitmap ∈ others ∧ ∃ pages, k.kernelTables = pages ++ [boot.layout.kernelPgd] ∧
        ∀ page ∈ pages, pageBlock page ∈ others := by
  unfold initKernel initKernelWith at run
  obtain ⟨kernel, init, run⟩ := of_bind_ok run
  obtain ⟨⟨bitmap, kernel'⟩, asid, run⟩ := of_bind_ok run
  obtain ⟨root, create, run⟩ := of_bind_ok run
  cases run
  obtain ⟨pages, tables_eq, inv⟩ := asidBitmapAlloc_ok (asInitialize_ok init) asid
  obtain ⟨loads, others, source, more, task⟩ := rootTaskCreate_ok inv create
  refine ⟨kernel'.mem, loads, others, source, task, more (.head _), pages, tables_eq, ?_⟩
  intro page inPages
  exact more (.tail _ (List.mem_append_left _ (List.mem_map_of_mem inPages)))

end Root

end Chinos
