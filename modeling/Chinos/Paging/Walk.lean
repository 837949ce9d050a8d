import Chinos.Machine.Bits
import Chinos.Paging.Model

/-!
# The hardware walk

The MMU reads a table through physical addresses only. `walk` is the three-level
walk with a 4 KiB granule and 39-bit addresses: at each level the descriptor may be
invalid, a block, or the next table, and the last level holds pages. The rest of
the module says what the walk sees in the three descriptors that the builders
write.
-/

namespace Chinos

/-- A leaf as the MMU sees it: where the address goes, with which attributes, and
the log2 of the size of the leaf. -/
structure Leaf where
  pa : Nat
  attr : U64
  shift : Nat
  deriving DecidableEq

/-- Bits 47 down to `shift`: an output or next-table address. -/
def descAddr (shift : Nat) (desc : U64) : Nat := desc.toNat % 2 ^ 48 / 2 ^ shift * 2 ^ shift

/-- What is left of a descriptor without its two type bits and bits 12 to 47. -/
def descAttr (desc : U64) : U64 := desc &&& 0xffff000000000ffc

/-- The leaf of size `2 ^ shift` that `desc` maps offset `o` to. -/
def Leaf.ofDesc (shift : Nat) (desc : U64) (o : Nat) : Leaf :=
  ⟨descAddr shift desc + o % 2 ^ shift, descAttr desc, shift⟩

/-- The descriptor is valid, which is what its bit 0 says. -/
def Valid (desc : U64) : Prop := desc.getLsbD 0 = true

/-- Bit 1: a table at the first two levels, a page at the last. -/
def Table (desc : U64) : Prop := desc.getLsbD 1 = true

instance (desc : U64) : Decidable (Valid desc) := inferInstanceAs (Decidable (_ = _))

instance (desc : U64) : Decidable (Table desc) := inferInstanceAs (Decidable (_ = _))

/-- The last level of the walk, in the table at physical address `table`. -/
def walkPte (mem : Mem) (table o : Nat) : Option Leaf :=
  let pte := mem.load64 (table + 8 * (o / 2 ^ 12 % 512))
  if Valid pte ∧ Table pte then some (.ofDesc 12 pte o) else none

/-- The walk of the MMU from the middle level on. -/
def walkPmd (mem : Mem) (table o : Nat) : Option Leaf :=
  let pmd := mem.load64 (table + 8 * (o / 2 ^ 21 % 512))
  if ¬ Valid pmd then none
  else if ¬ Table pmd then some (.ofDesc 21 pmd o)
  else walkPte mem (descAddr 12 pmd) o

/-- The walk of the table at physical address `root`, for the 39-bit offset `o`. -/
def walk (mem : Mem) (root o : Nat) : Option Leaf :=
  let pgd := mem.load64 (root + 8 * (o / 2 ^ 30))
  if ¬ Valid pgd then none
  else if ¬ Table pgd then some (.ofDesc 30 pgd o)
  else walkPmd mem (descAddr 12 pgd) o

/-- Which of the two translated regions a table serves: `lower` starts at 0 and
`upper` ends at `2 ^ 64`. -/
inductive Half
  | lower
  | upper
  deriving DecidableEq

/-- The first address of one of the two halves of the address space. -/
def Half.base : Half → Nat
  | lower => 0
  | upper => 2 ^ 64 - 2 ^ 39

/-- Translation of `v` by a table that serves `half`. Addresses outside the half do
not use the table. -/
def translate (mem : Mem) (root : Nat) (half : Half) (v : Nat) : Option Leaf :=
  if half.base ≤ v ∧ v < half.base + 2 ^ 39 then walk mem root (v - half.base) else none

/-! ## Descriptors -/

section Descriptors

variable {paddr attr : U64} {shift : Nat}

/-- The attributes have no bit among those of the address, which are 12 to 47. -/
def AttrOk (attr : U64) : Prop := ∀ j, 12 ≤ j → j < 48 → attr.getLsbD j = false

theorem getLsbD_attrMask (j : Nat) :
    (0xffff000000000ffc : U64).getLsbD j = decide ((2 ≤ j ∧ j < 12) ∨ (48 ≤ j ∧ j < 64)) := by
  by_cases inside : j < 64
  · have all : ∀ k : Fin 64, (0xffff000000000ffc : U64).getLsbD k =
        decide ((2 ≤ k.val ∧ k.val < 12) ∨ (48 ≤ k.val ∧ k.val < 64)) := by decide
    exact all ⟨j, inside⟩
  · rw [BitVec.getLsbD_of_ge _ _ (by omega)]
    exact (decide_eq_false (by omega)).symm

/-- A leaf descriptor: the bits of an address, of attributes, and a type. -/
structure LeafDesc (desc paddr attr : U64) : Prop where
  addr : ∀ j, 12 ≤ j → j < 48 → desc.getLsbD j = paddr.getLsbD j
  attrs : ∀ j, (2 ≤ j ∧ j < 12) ∨ 48 ≤ j → desc.getLsbD j = attr.getLsbD j

theorem LeafDesc.descAddr_eq {desc : U64} (leaf : LeafDesc desc paddr attr)
    (page : 12 ≤ shift) (aligned : paddr.toNat % 2 ^ shift = 0) (small : paddr.toNat < 2 ^ 48) :
    descAddr shift desc = paddr.toNat := by
  apply Nat.eq_of_testBit_eq
  intro j
  unfold descAddr
  rw [Nat.testBit_mul_two_pow, Nat.testBit_div_two_pow, Nat.testBit_mod_two_pow]
  simp only [BitVec.testBit_toNat]
  by_cases low : shift ≤ j
  · rw [Nat.sub_add_cancel low]
    by_cases high : j < 48
    · rw [leaf.addr j (by omega) high]
      simp [low, high]
    · rw [getLsbD_eq_false_of_lt small (by omega)]
      simp [high]
  · rw [getLsbD_eq_false_of_mod aligned (by omega)]
    simp [low]

theorem LeafDesc.descAttr_eq {desc : U64} (leaf : LeafDesc desc paddr attr) :
    descAttr desc = descAttr attr := by
  apply BitVec.eq_of_getLsbD_eq
  intro j inside
  unfold descAttr
  rw [BitVec.getLsbD_and, BitVec.getLsbD_and, getLsbD_attrMask]
  by_cases kept : (2 ≤ j ∧ j < 12) ∨ (48 ≤ j ∧ j < 64)
  · rw [leaf.attrs j (by omega)]
  · simp [kept]

/-- Attributes without address bits lose only the type bits. -/
theorem AttrOk.descAttr_eq (ok : AttrOk attr) : descAttr attr = attr &&& ~~~3 := by
  apply BitVec.eq_of_getLsbD_eq
  intro j inside
  unfold descAttr
  have typeBits : (~~~3 : U64).getLsbD j = decide (2 ≤ j) := by
    have all : ∀ k : Fin 64, (~~~3 : U64).getLsbD k = decide (2 ≤ k.val) := by decide
    exact all ⟨j, inside⟩
  rw [BitVec.getLsbD_and, BitVec.getLsbD_and, getLsbD_attrMask, typeBits]
  by_cases address : 12 ≤ j ∧ j < 48
  · rw [ok j address.1 address.2, Bool.false_and, Bool.false_and]
  · congr 1
    simp only [decide_eq_decide]
    omega

/-- `(paddr >> shift) << shift` is an aligned `paddr`. -/
theorem shift_back_of_aligned (aligned : paddr.toNat % 2 ^ shift = 0) :
    (paddr >>> shift) <<< shift = paddr := by
  apply BitVec.eq_of_getLsbD_eq
  intro j inside
  rw [BitVec.getLsbD_shiftLeft, BitVec.getLsbD_ushiftRight]
  by_cases low : j < shift
  · simp [low, getLsbD_eq_false_of_mod aligned low]
  · simp [low, inside, show shift + (j - shift) = j by omega]

theorem getLsbD_three (j : Nat) : (3 : U64).getLsbD j = decide (j < 2) := by
  by_cases inside : j < 64
  · have all : ∀ k : Fin 64, (3 : U64).getLsbD k = decide (k.val < 2) := by decide
    exact all ⟨j, inside⟩
  · rw [BitVec.getLsbD_of_ge _ _ (by omega)]
    exact (decide_eq_false (by omega)).symm

theorem getLsbD_pageDesc (aligned : paddr.toNat % 2 ^ 12 = 0) (j : Nat) :
    (pageDesc paddr attr).getLsbD j =
      (paddr.getLsbD j || decide (j < 2) || attr.getLsbD j) := by
  unfold pageDesc typeTable
  rw [shift_back_of_aligned aligned, BitVec.getLsbD_or, BitVec.getLsbD_or, getLsbD_three]

theorem leafDesc_pageDesc (aligned : paddr.toNat % 2 ^ 12 = 0) (small : paddr.toNat < 2 ^ 48)
    (ok : AttrOk attr) : LeafDesc (pageDesc paddr attr) paddr attr := by
  constructor
  · intro j low high
    rw [getLsbD_pageDesc aligned]
    simp [ok j low high, show ¬ j < 2 by omega]
  · intro j kept
    have clear : paddr.getLsbD j = false := by
      rcases kept with inPage | above
      · exact getLsbD_eq_false_of_mod aligned inPage.2
      · exact getLsbD_eq_false_of_lt small above
    rw [getLsbD_pageDesc aligned]
    simp [clear, show ¬ j < 2 by omega]

theorem valid_pageDesc (attr : U64) (aligned : paddr.toNat % 2 ^ 12 = 0) :
    Valid (pageDesc paddr attr) := by
  unfold Valid
  rw [getLsbD_pageDesc aligned]
  simp

theorem table_pageDesc (attr : U64) (aligned : paddr.toNat % 2 ^ 12 = 0) :
    Table (pageDesc paddr attr) := by
  unfold Table
  rw [getLsbD_pageDesc aligned]
  simp

theorem getLsbD_notTableBit {j : Nat} (inside : j < 64) :
    (~~~tableBit : U64).getLsbD j = decide (j ≠ 1) := by
  have all : ∀ k : Fin 64, (~~~tableBit : U64).getLsbD k = decide (k.val ≠ 1) := by decide
  exact all ⟨j, inside⟩

theorem getLsbD_typeSect {j : Nat} (inside : j < 64) :
    typeSect.getLsbD j = decide (j = 0) := by
  have all : ∀ k : Fin 64, typeSect.getLsbD k = decide (k.val = 0) := by decide
  exact all ⟨j, inside⟩

theorem getLsbD_sectDesc (aligned : paddr.toNat % 2 ^ 21 = 0) {j : Nat} (inside : j < 64) :
    (sectDesc paddr attr).getLsbD j =
      (paddr.getLsbD j || decide (j = 0) || (attr.getLsbD j && decide (j ≠ 1))) := by
  unfold sectDesc
  rw [shift_back_of_aligned aligned, BitVec.getLsbD_or, BitVec.getLsbD_or, BitVec.getLsbD_and,
    getLsbD_notTableBit inside, getLsbD_typeSect inside]

theorem leafDesc_sectDesc (aligned : paddr.toNat % 2 ^ 21 = 0) (small : paddr.toNat < 2 ^ 48)
    (ok : AttrOk attr) : LeafDesc (sectDesc paddr attr) paddr attr := by
  constructor
  · intro j low high
    rw [getLsbD_sectDesc aligned (by omega)]
    simp [ok j low high, show j ≠ 0 by omega]
  · intro j kept
    by_cases inside : j < 64
    · have clear : paddr.getLsbD j = false := by
        rcases kept with inPage | above
        · exact getLsbD_eq_false_of_mod aligned (by omega)
        · exact getLsbD_eq_false_of_lt small above
      rw [getLsbD_sectDesc aligned inside]
      simp [clear, show j ≠ 0 by omega, show j ≠ 1 by omega]
    · rw [BitVec.getLsbD_of_ge _ _ (by omega), BitVec.getLsbD_of_ge _ _ (by omega)]

theorem valid_sectDesc (attr : U64) (aligned : paddr.toNat % 2 ^ 21 = 0) :
    Valid (sectDesc paddr attr) := by
  unfold Valid
  rw [getLsbD_sectDesc aligned (by omega)]
  simp

theorem not_table_sectDesc (attr : U64) (aligned : paddr.toNat % 2 ^ 21 = 0) :
    ¬ Table (sectDesc paddr attr) := by
  unfold Table
  rw [getLsbD_sectDesc aligned (by omega), getLsbD_eq_false_of_mod aligned (by omega)]
  simp

end Descriptors

/-! ## Table pages -/

/-- `page` can serve as a table under `view`: it is a page, the view goes back and
forth, and its physical address fits a descriptor. -/
structure TableView.IsPage (view : TableView) (page : U64) : Prop where
  ne_zero : page ≠ 0
  aligned : (view.toPhys page).toNat % 2 ^ 12 = 0
  small : (view.toPhys page).toNat < 2 ^ 48
  desc : view.toPhys (page ||| 3) = view.toPhys page ||| 3
  back : view.ofPhys (view.toPhys page) = page

/-- The descriptor that links a table page. -/
def TableView.tableDesc (view : TableView) (page : U64) : U64 := view.toPhys (page ||| typeTable)

section TablePages

variable {view : TableView} {page page' : U64}

theorem TableView.IsPage.toNat_tableDesc (isPage : view.IsPage page) :
    (view.tableDesc page).toNat = (view.toPhys page).toNat + 3 := by
  unfold TableView.tableDesc typeTable
  rw [isPage.desc]
  exact toNat_or_of_aligned isPage.aligned (by decide)

theorem TableView.IsPage.descAddr_tableDesc (isPage : view.IsPage page) :
    descAddr 12 (view.tableDesc page) = (view.toPhys page).toNat := by
  unfold descAddr
  rw [isPage.toNat_tableDesc]
  have aligned := isPage.aligned
  have small := isPage.small
  omega

theorem TableView.IsPage.getLsbD_tableDesc (isPage : view.IsPage page) {j : Nat} (low : j < 2) :
    (view.tableDesc page).getLsbD j = true := by
  unfold TableView.tableDesc typeTable
  rw [isPage.desc, BitVec.getLsbD_or, getLsbD_three, decide_eq_true low, Bool.or_true]

theorem TableView.IsPage.tableDesc_ne_zero (isPage : view.IsPage page) :
    view.tableDesc page ≠ 0 := by
  intro zero
  have bit := isPage.getLsbD_tableDesc (j := 0) (by omega)
  rw [zero] at bit
  cases bit

/-- The builders find a table that they have linked again. -/
theorem TableView.IsPage.ofPhys_tableDesc (isPage : view.IsPage page) :
    view.ofPhys (view.tableDesc page &&& pteAddrMask) = page := by
  have mask : pteAddrMask = BitVec.allOnes 64 <<< 12 := by decide
  have masked : view.tableDesc page &&& pteAddrMask = view.toPhys page := by
    apply BitVec.eq_of_toNat_eq
    rw [mask, toNat_and_ones_shiftLeft, isPage.toNat_tableDesc]
    have aligned := isPage.aligned
    omega
  rw [masked, isPage.back]

/-- Two different table pages do not overlap. -/
theorem TableView.IsPage.apart (isPage : view.IsPage page) (isPage' : view.IsPage page')
    (ne : page ≠ page') :
    (view.toPhys page).toNat + 2 ^ 12 ≤ (view.toPhys page').toNat ∨
      (view.toPhys page').toNat + 2 ^ 12 ≤ (view.toPhys page).toNat := by
  have physNe : (view.toPhys page).toNat ≠ (view.toPhys page').toNat := by
    intro same
    apply ne
    rw [← isPage.back, ← isPage'.back, BitVec.eq_of_toNat_eq same]
  have aligned := isPage.aligned
  have aligned' := isPage'.aligned
  omega

/-- Page-aligned addresses of the kernel's linear map are table pages. -/
theorem linearView_isPage (aligned : page.toNat % 2 ^ 12 = 0) (low : ramVbase ≤ page) :
    linearView.IsPage page := by
  have base : ramVbase.toNat = 0xffffff8000000000 := by decide
  have pbase : ramPbase.toNat = 0x40000000 := by decide
  have lowNat : 0xffffff8000000000 ≤ page.toNat := by
    rw [← base]
    exact BitVec.le_def.mp low
  have bound := page.isLt
  have phys : (vbaseToPbase page).toNat = page.toNat - 0xffffff8000000000 + 0x40000000 := by
    unfold vbaseToPbase
    rw [BitVec.toNat_add, BitVec.toNat_sub, base, pbase]
    omega
  have physLow : (vbaseToPbase (page ||| 3)).toNat = (vbaseToPbase page).toNat + 3 := by
    unfold vbaseToPbase
    rw [BitVec.toNat_add, BitVec.toNat_sub, toNat_or_of_aligned aligned (by decide),
      BitVec.toNat_add, BitVec.toNat_sub, base, pbase, show (3 : U64).toNat = 3 from rfl]
    omega
  have physAligned : (vbaseToPbase page).toNat % 2 ^ 12 = 0 := by omega
  constructor
  · intro zero
    rw [zero] at lowNat
    simp at lowNat
  · exact physAligned
  · show (vbaseToPbase page).toNat < 2 ^ 48
    omega
  · apply BitVec.eq_of_toNat_eq
    show (vbaseToPbase (page ||| 3)).toNat = (vbaseToPbase page ||| 3).toNat
    rw [physLow, toNat_or_of_aligned physAligned (by decide)]
    rfl
  · show pbaseToVbase (vbaseToPbase page) = page
    unfold pbaseToVbase vbaseToPbase
    rw [BitVec.add_sub_cancel, BitVec.sub_add_cancel]

end TablePages

end Chinos
