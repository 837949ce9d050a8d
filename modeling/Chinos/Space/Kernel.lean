import Chinos.Boot.Safety
import Chinos.Space.Model
import Chinos.Space.Spared
import Chinos.Space.Zones

/-!
# What the kernel's table maps

`as_initialize` maps seven zones, and from then on nobody stores into its table: neither the
kernel, which spares it, nor user code, which reaches only memory of its own. So in every
state of every run the MMU sees exactly the seven zones in the upper half. None of them is
open to EL0, and none is both writable and executable.
-/

namespace Chinos

/-! ## The zones of `as_initialize` -/

/-- The physical address of a virtual one in the linear map of RAM. -/
def linearPhys (v : Nat) : Nat := v - ramVbase.toNat + ramPbase.toNat

/-- The zone of the linear map from `start` to `stop`, with its attributes. -/
def ramZone (start stop : Nat) (attr : U64) : Zone := ⟨start, stop, linearPhys start, attr⟩

/-- The zone of the devices, which is mapped at a distance of its own. -/
def mmioZone : Zone :=
  ⟨mmioVbase.toNat, mmioVbase.toNat + mmioSize.toNat, mmioPbase.toNat, protSectDeviceNGnRE⟩

section Zones

variable {layout : Layout}

/-- The zones of the kernel: its image section by section, the user file, the heap, and the
devices. -/
def Linker.zones (linker : Linker layout) : List Zone :=
  [ramZone linker.codeStart linker.codeEnd pageKernelRox,
    ramZone linker.codeEnd linker.rodataEnd pageKernelRo,
    ramZone linker.rodataEnd linker.dataEnd pageKernel,
    ramZone linker.dataEnd linker.bssEnd pageKernel,
    ramZone layout.userStart layout.userEnd pageKernel,
    ramZone layout.userEnd (ramVbase.toNat + ramSize.toNat) pageKernel,
    mmioZone]

theorem regionMap_symbolRegion {start stop : Nat} (ram : ramVbase.toNat ≤ start)
    (lt : start < stop) (top : stop ≤ ramVbase.toNat + 2 ^ 31) (attr : U64) :
    regionMap (symbolRegion start stop) attr = (ramZone start stop attr).call := by
  rw [toNat_ramVbase] at ram top
  have pbase : vbaseToPbase (BitVec.ofNat 64 start) = BitVec.ofNat 64 (linearPhys start) := by
    apply BitVec.eq_of_toNat_eq
    have value : phys (BitVec.ofNat 64 start) =
        (BitVec.ofNat 64 start).toNat - ramVbase.toNat + ramPbase.toNat := by
      refine phys_eq ?_
      rw [BitVec.toNat_ofNat, toNat_ramVbase]
      omega
    unfold phys at value
    rw [value]
    unfold linearPhys
    rw [BitVec.toNat_ofNat, BitVec.toNat_ofNat, toNat_ramVbase, toNat_ramPbase]
    omega
  have size : BitVec.ofNat 64 stop - BitVec.ofNat 64 start = BitVec.ofNat 64 (stop - start) := by
    apply BitVec.eq_of_toNat_eq
    rw [BitVec.toNat_sub, BitVec.toNat_ofNat, BitVec.toNat_ofNat, BitVec.toNat_ofNat]
    omega
  unfold regionMap symbolRegion
  rw [pbase, size]
  rfl

/-- The calls of `as_initialize` are those of the zones. -/
theorem Linker.regions_eq (linker : Linker layout) :
    linker.regions = linker.zones.map Zone.call := by
  have code := linker.code_ram
  have codeLt := linker.code_lt
  have rodataLt := linker.rodata_lt
  have dataLt := linker.data_lt
  have bssLt := linker.bss_lt
  have bssLe := linker.bss_le
  have userLt := linker.user_lt
  have userRam := linker.user_ram
  have heap : layout.kernelHeapRegion =
      symbolRegion layout.userEnd (ramVbase.toNat + ramSize.toNat) := rfl
  have devices : kernelAsDevMapping kernelDevRam = [mmioZone.call] := rfl
  have top : ramVbase.toNat + ramSize.toNat = ramVbase.toNat + 2 ^ 31 := by decide
  have heapLt : layout.userEnd < ramVbase.toNat + ramSize.toNat := by
    rw [top]
    exact userRam
  unfold Linker.regions kernelAsImageMapping kernelAsRamMapping Linker.kernelImage
    Layout.userElfRegion
  rw [heap, devices, regionMap_symbolRegion code codeLt (by omega),
    regionMap_symbolRegion (by omega) rodataLt (by omega),
    regionMap_symbolRegion (by omega) dataLt (by omega),
    regionMap_symbolRegion (by omega) bssLt (by omega),
    regionMap_symbolRegion (by omega) userLt (by omega),
    regionMap_symbolRegion (by omega) heapLt top.le]
  rfl

theorem ramZone_ok {start stop : Nat} {attr : U64} (ram : ramVbase.toNat ≤ start)
    (lt : start < stop) (top : stop ≤ ramVbase.toNat + 2 ^ 31) (aligned : start % 2 ^ 12 = 0)
    (stopAligned : stop % 2 ^ 12 = 0) (attrOk : attr &&& 0x0000fffffffff000 = 0) :
    (ramZone start stop attr).Ok .upper := by
  rw [toNat_ramVbase] at ram top
  refine ⟨lt, ram, ?_, ?_, aligned, stopAligned, ?_, ?_, attrOk_of_and attrOk⟩
  · change stop ≤ 0xffffff8000000000 + 2 ^ 39
    omega
  · change stop + 2 ^ 30 ≤ 2 ^ 64
    omega
  · change (start - 0xffffff8000000000 + 0x40000000) % 2 ^ 12 = 0
    omega
  · change start - 0xffffff8000000000 + 0x40000000 + (stop - start) ≤ 2 ^ 48
    omega

theorem mmioZone_ok : mmioZone.Ok .upper :=
  ⟨by decide, by decide, by decide, by decide, by decide, by decide, by decide, by decide,
    attrOk_of_and (by decide)⟩

theorem Linker.zones_ok (linker : Linker layout) : ∀ z ∈ linker.zones, z.Ok .upper := by
  have code := linker.code_ram
  have codeLt := linker.code_lt
  have rodataLt := linker.rodata_lt
  have dataLt := linker.data_lt
  have bssLt := linker.bss_lt
  have bssLe := linker.bss_le
  have userLt := linker.user_lt
  have userRam := linker.user_ram
  have top : ramVbase.toNat + ramSize.toNat = ramVbase.toNat + 2 ^ 31 := by decide
  have heapLt : layout.userEnd < ramVbase.toNat + ramSize.toNat := by
    rw [top]
    exact userRam
  intro z inZones
  simp only [Linker.zones, List.mem_cons, List.not_mem_nil, or_false] at inZones
  rcases inZones with rfl | rfl | rfl | rfl | rfl | rfl | rfl
  · exact ramZone_ok code codeLt (by omega) linker.code_aligned linker.rodata_aligned (by decide)
  · exact ramZone_ok (by omega) rodataLt (by omega) linker.rodata_aligned linker.data_aligned
      (by decide)
  · exact ramZone_ok (by omega) dataLt (by omega) linker.data_aligned linker.bss_aligned
      (by decide)
  · exact ramZone_ok (by omega) bssLt (by omega) linker.bss_aligned linker.end_aligned (by decide)
  · exact ramZone_ok (by omega) userLt (by omega) linker.user_aligned linker.heap_aligned
      (by decide)
  · exact ramZone_ok (by omega) heapLt top.le linker.heap_aligned (by decide) (by decide)
  · exact mmioZone_ok

theorem Linker.zones_apart (linker : Linker layout) : linker.zones.Pairwise Zone.Apart := by
  have codeLt := linker.code_lt
  have rodataLt := linker.rodata_lt
  have dataLt := linker.data_lt
  have bssLt := linker.bss_lt
  have bssLe := linker.bss_le
  have userLt := linker.user_lt
  have userRam := linker.user_ram
  have top : ramVbase.toNat + ramSize.toNat = ramVbase.toNat + 2 ^ 31 := by decide
  have mmio : ramVbase.toNat + 2 ^ 31 ≤ mmioVbase.toNat := by decide
  simp only [Linker.zones, List.pairwise_cons, List.mem_cons, List.not_mem_nil, or_false,
    forall_eq_or_imp, forall_eq, Zone.Apart, ramZone, mmioZone, IsEmpty.forall_iff,
    implies_true, List.Pairwise.nil, and_true]
  omega

end Zones

/-! ## The table -/

/-- The pages `tables` hold the kernel's table in `mem`. -/
def KernelTable (boot : KernelBoot) (tables : List U64) (mem : Mem) : Prop :=
  ∃ tree heap, Holding linearView (fun _ _ => True) boot.layout.kernelPgd
    (boot.linker.zones.map Zone.call) tree (⟨mem, heap, tables⟩ : PtState MmGran)

section Table

variable {boot : KernelBoot} {tables : List U64} {mem mem' : Mem}

/-- Stores outside the pages of the kernel's table leave the table as it is. -/
theorem KernelTable.keep (table : KernelTable boot tables mem)
    (same : ∀ q ∈ tables, ∀ x, linearView.InPage q x → mem' x = mem x) :
    KernelTable boot tables mem' := by
  obtain ⟨tree, heap, holding⟩ := table
  refine ⟨tree, heap, ?_⟩
  apply holding.frame
  · rfl
  · intro q inTables x low high
    exact same q inTables x ⟨low, high⟩
  · trivial

/-- The MMU translates the upper half exactly as the zones of the kernel say. -/
theorem KernelTable.translate_iff (table : KernelTable boot tables mem) {v pa : Nat} {attr : U64} :
    (∃ shift, translate mem (phys boot.layout.kernelPgd) .upper v = some ⟨pa, attr, shift⟩) ↔
      Zone.Maps boot.linker.zones v pa attr := by
  obtain ⟨tree, heap, holding⟩ := table
  exact holding.translate_zones boot.linker.zones_ok boot.linker.zones_apart

/-- What the zones allow: nothing to EL0, and never writing and executing. -/
theorem Zone.Maps.allows {layout : Layout} {linker : Linker layout} {v pa : Nat} {attr : U64}
    (maps : Zone.Maps linker.zones v pa attr) :
    attr.getLsbD 6 = false ∧ ¬ (attr.getLsbD 7 = false ∧ attr.getLsbD 53 = false) := by
  obtain ⟨z, inZones, -, -, rfl⟩ := maps
  simp only [Linker.zones, List.mem_cons, List.not_mem_nil, or_false] at inZones
  have known : z.attr = pageKernelRox ∨ z.attr = pageKernelRo ∨ z.attr = pageKernel ∨
      z.attr = protSectDeviceNGnRE := by
    rcases inZones with rfl | rfl | rfl | rfl | rfl | rfl | rfl
    · exact .inl rfl
    · exact .inr (.inl rfl)
    all_goals first | exact .inr (.inr (.inl rfl)) | exact .inr (.inr (.inr rfl))
  rcases known with eq | eq | eq | eq
  all_goals
    rw [eq]
    decide

theorem KernelTable.allows (table : KernelTable boot tables mem) {v : Nat} {leaf : Leaf}
    (found : translate mem (phys boot.layout.kernelPgd) .upper v = some leaf) :
    ¬ leaf.User ∧ ¬ (leaf.Writable ∧ leaf.PrivilegedExecutable) := by
  obtain ⟨noUser, noBoth⟩ := (table.translate_iff.mp ⟨leaf.shift, found⟩).allows
  refine ⟨fun user => ?_, noBoth⟩
  exact Bool.false_ne_true (noUser.symm.trans user)

/-- `as_initialize`, if it returns, has built the kernel's table. -/
theorem asInitialize_table {s : PtState MmGran} (run : asInitialize boot.toBoot = .ok s) :
    KernelTable boot s.tables s.mem := by
  let table : FreshTable linearView MmGran :=
    { alloc := ptCalloc
      Good := boot.layout.Good boot.layout.kernelPgd boot.live
      spec := ptCalloc_spec boot.layout.kernelPgd_lt
      pgd := boot.layout.kernelPgd
      isPage := linearView_isPage boot.layout.kernelPgd_aligned boot.layout.kernelPgd_ram
      mem := boot.ram
      zero := boot.kernelClear
      heap := boot.heap
      good := ⟨[], rfl, boot.heapInv⟩ }
  have built := table.run (Zone.fits_of_mem boot.linker.zones_ok)
    (Zone.sparesSections_pairwise boot.linker.zones_ok boot.linker.zones_apart)
  unfold asInitialize at run
  rw [boot.regions_eq, boot.linker.regions_eq, ptMaps_eq] at run
  rcases built with failed | ⟨tree, s', ok, holding, -⟩
  · cases failed.symm.trans run
  cases ok.symm.trans run
  exact ⟨tree, s.heap, holding.frame rfl (fun _ _ => Mem.AgreeOn.refl _ _ _) trivial⟩

end Table

end Chinos
