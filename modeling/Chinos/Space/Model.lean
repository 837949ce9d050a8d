import Chinos.Boot.Model

/-!
# The kernel's own address space: `init_image_info` and `as_initialize`

The linker script lays the kernel image out section by section, each on pages of its own.
`init_image_info` and `mm_initialize` turn its symbols into regions, and `as_initialize`
maps each region with the protection of its section before it switches TTBR1 over from the
boot table.
-/

namespace Chinos

/-! ## Protections of `pgtable-prot.h`

The bits of a section have the places of the bits of a page.
-/

/-- `PROT_NORMAL`, the attributes of normal memory that is neither user's nor executable. -/
def protNormal : U64 := protDefault ||| ptePxn ||| pteUxn ||| pteWrite ||| pteAttrindx mtNormal

/-- `PAGE_KERNEL`, for memory that the kernel reads and writes. -/
def pageKernel : U64 := protNormal

/-- `PAGE_KERNEL_RO`, for memory that the kernel only reads. -/
def pageKernelRo : U64 := (protNormal &&& ~~~pteWrite) ||| pteRdonly

/-- `PAGE_KERNEL_ROX`, for the code of the kernel. -/
def pageKernelRox : U64 := (protNormal &&& ~~~(pteWrite ||| ptePxn)) ||| pteRdonly

/-- `PROT_SECT_DEVICE_nGnRE`, for device registers. -/
def protSectDeviceNGnRE : U64 :=
  typeSect ||| pteAf ||| pteShared ||| pteNg ||| ptePxn ||| pteUxn ||| pteAttrindx mtDeviceNGnRE

/-! ## The board -/

/-- `RAM_SIZE`, the amount of RAM on the board. -/
def ramSize : U64 := 0x80000000

/-- `MMIO_PBASE`, where the device registers begin. -/
def mmioPbase : U64 := 0

/-- `MMIO_VBASE`, where the kernel maps the device registers. -/
def mmioVbase : U64 := 0xffffff8f00000000

/-- `MMIO_SIZE`, how much of the device registers the kernel maps. -/
def mmioSize : U64 := 0x40000000

/-! ## The image -/

/-- The symbols of `linker.lds`: a section ends where the next one begins, `boot_end` is
`kernel_code_start`, and `kernel_start` is `RAM_VBASE`. The two address spaces are objects
of the BSS. -/
structure Linker (layout : Layout) where
  codeStart : Nat
  codeEnd : Nat
  rodataEnd : Nat
  dataEnd : Nat
  bssEnd : Nat
  code_ram : ramVbase.toNat ≤ codeStart
  code_lt : codeStart < codeEnd
  rodata_lt : codeEnd < rodataEnd
  data_lt : rodataEnd < dataEnd
  bss_lt : dataEnd < bssEnd
  bss_le : bssEnd ≤ layout.userStart
  user_lt : layout.userStart < layout.userEnd
  code_aligned : codeStart % 2 ^ 12 = 0
  rodata_aligned : codeEnd % 2 ^ 12 = 0
  data_aligned : rodataEnd % 2 ^ 12 = 0
  bss_aligned : dataEnd % 2 ^ 12 = 0
  end_aligned : bssEnd % 2 ^ 12 = 0
  user_aligned : layout.userStart % 2 ^ 12 = 0
  heap_aligned : layout.userEnd % 2 ^ 12 = 0
  user_ram : layout.userEnd < ramVbase.toNat + 2 ^ 31
  kernelPgd_bss : dataEnd ≤ layout.kernelPgd.toNat ∧ layout.kernelPgd.toNat + 2 ^ 12 ≤ bssEnd
  userPgd_bss : dataEnd ≤ layout.userPgd.toNat ∧ layout.userPgd.toNat + 2 ^ 12 ≤ bssEnd

/-- `struct image_region`, the parts of the kernel image that get attributes of their own. -/
structure ImageRegion where
  code : MemRegion
  rodata : MemRegion
  data : MemRegion
  bss : MemRegion

section Regions

variable {layout : Layout}

/-- The region of memory between two symbols of the linker script. -/
def symbolRegion (start stop : Nat) : MemRegion :=
  ⟨vbaseToPbase (BitVec.ofNat 64 start), BitVec.ofNat 64 start,
    BitVec.ofNat 64 stop - BitVec.ofNat 64 start⟩

/-- `kernel_image`, as `init_image_info` sets it from the symbols of the linker script. -/
def Linker.kernelImage (linker : Linker layout) : ImageRegion where
  code := symbolRegion linker.codeStart linker.codeEnd
  rodata := symbolRegion linker.codeEnd linker.rodataEnd
  data := symbolRegion linker.rodataEnd linker.dataEnd
  bss := symbolRegion linker.dataEnd linker.bssEnd

/-- `user_elf_region`, as `init_image_info` sets it from the symbols of the linker script. -/
def Layout.userElfRegion (layout : Layout) : MemRegion :=
  symbolRegion layout.userStart layout.userEnd

/-- `kernel_heap_region`, as `mm_initialize` sets it: from `user_end` to the end of RAM. -/
def Layout.kernelHeapRegion (layout : Layout) : MemRegion :=
  let heapstart := BitVec.ofNat 64 layout.userEnd
  let heapend := ramSize + ramVbase
  ⟨vbaseToPbase heapstart, heapstart, heapend - heapstart⟩

/-- `kernel_dev_ram`, with the entry of size 0 that ends it. -/
def kernelDevRam : List MemRegion := [⟨mmioPbase, mmioVbase, mmioSize⟩, ⟨0, 0, 0⟩]

/-- The call of `pt_map` that `region_map` makes for a region. -/
def regionMap (region : MemRegion) (prot : U64) : MapCall :=
  ⟨region.vbase, region.pbase, region.size, prot⟩

/-- `kernel_as_image_mapping`, as the calls of `pt_map` for the parts of the image. -/
def kernelAsImageMapping (image : ImageRegion) : List MapCall :=
  [regionMap image.code pageKernelRox, regionMap image.rodata pageKernelRo,
    regionMap image.data pageKernel, regionMap image.bss pageKernel]

/-- `kernel_as_ram_mapping`, as its call of `pt_map`. -/
def kernelAsRamMapping (region : MemRegion) : List MapCall := [regionMap region pageKernel]

/-- `kernel_as_dev_mapping`, as its calls of `pt_map` up to the entry of size 0. -/
def kernelAsDevMapping : List MemRegion → List MapCall
  | [] => []
  | region :: rest =>
    if region.size ≠ 0 then regionMap region protSectDeviceNGnRE :: kernelAsDevMapping rest else []

/-- The calls of `pt_map` that `as_initialize` makes, in their order. -/
def Linker.regions (linker : Linker layout) : List MapCall :=
  kernelAsImageMapping linker.kernelImage ++ kernelAsRamMapping layout.userElfRegion ++
    kernelAsRamMapping layout.kernelHeapRegion ++ kernelAsDevMapping kernelDevRam

end Regions

/-- A boot of this kernel: `as_initialize` maps the linker's regions, and `kernel_addrspace`,
which is in the BSS and written by nobody before, is clear. -/
structure KernelBoot extends Boot where
  linker : Linker layout
  regions_eq : regions = linker.regions
  kernelClear : ∀ x, linearView.InPage layout.kernelPgd x → ram x = 0

end Chinos
