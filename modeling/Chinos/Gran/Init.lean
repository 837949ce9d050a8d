import Chinos.Gran.Heap
import Chinos.Gran.Info
import Chinos.Machine.Bits
import Chinos.Machine.Memory

/-!
# Setting up the granule heap

`gran_initialize` puts the `mm_gran` structure and its table at the start of the region
that it is given and the granules behind them. It counts the granules of the whole region
first, for the size of the table, and again behind the header. The counts are cut down to
32 bits, and a region in which the header leaves no room makes the second one wrap around.
The table is not written: the heap is as free as the memory happens to be clear.
-/

namespace Chinos

/-- `(1 << log2) - 1`, an `int`, as the `unsigned long` that it is assigned to. -/
def granUnitMask (log2 : Nat) : BitVec 64 := BitVec.ofInt 64 (cInt (cInt (2 ^ log2) - 1))

/-- The aligned start of `[heapstart, heapstart + heapsize)` and the number of granules from
there on. -/
def granRegion (heapstart heapsize : BitVec 64) (log2gran log2align : Nat) :
    BitVec 64 × BitVec 32 :=
  let mask := granUnitMask log2align
  let alignedstart := (heapstart + mask) &&& ~~~mask
  let mask := granUnitMask log2gran
  let heapend := heapstart + heapsize
  let alignedsize := (heapend - alignedstart) &&& ~~~mask
  (alignedstart, (alignedsize >>> log2gran).setWidth 32)

/-- `SIZEOF_MM_GRAN(n)`, assigned to an `unsigned int`. The structure has 24 bytes, of which the
first table word is at offset 16. -/
def sizeofMmGran (n : BitVec 32) : BitVec 32 :=
  (24#64 + 4#64 * (((n + 31) >>> 5) - 1).setWidth 64).setWidth 32

/-- `gran_initialize`: the handle, and memory with its fields set. -/
def granInitialize (mem : Mem) (heapstart heapsize : BitVec 64) (log2gran log2align : Nat) :
    Except Fault (BitVec 64 × Mem) := do
  require (heapstart ≠ 0 ∧ heapsize > 0 ∧ log2gran > 0 ∧ log2gran < 32 ∧ log2gran ≥ log2align)
    .assertion
  let (_, ngranules) := granRegion heapstart heapsize log2gran log2align
  let gran := heapstart
  let granHead := (sizeofMmGran ngranules).setWidth 64
  let (alignedstart, ngranules) :=
    granRegion (heapstart + granHead) (heapsize - granHead) log2gran log2align
  if gran ≠ 0 then
    let mem := mem.storeLe gran.toNat 1 (BitVec.ofNat 8 log2gran)
    let mem := mem.storeLe (gran.toNat + 4) 4 ngranules
    return (gran, mem.storeLe (gran.toNat + 8) 8 alignedstart)
  else return (gran, mem)

/-- The structure that lies in memory at `gran`, field by field and with the words around its
table. -/
def granAt (mem : Mem) (gran : BitVec 64) : MmGran where
  log2gran := mem.loadLe gran.toNat 1
  ngranules := mem.loadLe (gran.toNat + 4) 4
  heapstart := mem.loadLe (gran.toNat + 8) 8
  gat i := BitVec.ofNat 32 (mem.loadLe (gran.toNat + 16 + 4 * i).toNat 4)

/-! ## The layout -/

/-- The bytes of the header with the table for `n` granules. -/
def granHeader (n : Nat) : Nat := 20 + 4 * sizeofGat n

/-- The heap is laid out inside `[start, stop)`: the header, the aligned granules, and less
than a granule that is left over. -/
structure LaidOut (start stop log2gran log2align : Nat) (gran : MmGran) : Prop where
  aligned : gran.heapstart % 2 ^ log2align = 0
  header : start + granHeader gran.ngranules ≤ gran.heapstart
  inside : gran.heapstart + gran.ngranules * 2 ^ log2gran ≤ stop
  left : stop - (gran.heapstart + gran.ngranules * 2 ^ log2gran) < 2 ^ log2gran

/-- The number of granules that fit in between `first` and `stop`. -/
def granulesFrom (first stop log2gran : Nat) : Nat := (stop - first) / 2 ^ log2gran

/-- The bytes that are set aside for the header when `n` granules fit in: the count is cut down
to 32 bits, and rounded up to words in 32 bits. -/
def granSetAside (n : Nat) : Nat := 20 + 4 * ((n % 2 ^ 32 + 31) % 2 ^ 32 / 32)

/-- Where the granules start: behind what is set aside for the header. -/
def granFirst (start stop log2gran log2align : Nat) : Nat :=
  roundUp (start + granSetAside (granulesFrom (roundUp start log2align) stop log2gran)) log2align

/-- The number of granules, cut down to 32 bits. -/
def granuleCount (start stop log2gran log2align : Nat) : Nat :=
  granulesFrom (granFirst start stop log2gran log2align) stop log2gran % 2 ^ 32

/-- The region has room for the header, and the number of granules is no problem for a table
that is counted in 32 bits, or at least the table ends below the granules. -/
structure RoomForHeap (start stop log2gran log2align : Nat) : Prop where
  aligned : roundUp start log2align ≤ stop
  header : granFirst start stop log2gran log2align ≤ stop
  count : granulesFrom (roundUp start log2align) stop log2gran + 31 < 2 ^ 32 ∨
    granulesFrom (granFirst start stop log2gran log2align) stop log2gran < 2 ^ 32 ∧
    start + granHeader (granulesFrom (granFirst start stop log2gran log2align) stop log2gran) ≤
      granFirst start stop log2gran log2align

section Layout

variable {mem : Mem} {heapstart heapsize : BitVec 64} {log2gran log2align start stop : Nat}

theorem granUnitMask_spec {k : Nat} (small : k < 32) :
    (granUnitMask k).toNat = 2 ^ k - 1 ∧ ~~~(granUnitMask k) = BitVec.allOnes 64 <<< k := by
  interval_cases k <;> decide

/-- `granRegion` in numbers: where the granules start, and how many of them there are in 32
bits. -/
theorem granRegion_spec (granSmall : log2gran < 32) (alignSmall : log2align < 32)
    (stop_eq : (heapstart + heapsize).toNat = stop) :
    (granRegion heapstart heapsize log2gran log2align).1.toNat =
        (heapstart.toNat + (2 ^ log2align - 1)) % 2 ^ 64 / 2 ^ log2align * 2 ^ log2align ∧
      (granRegion heapstart heapsize log2gran log2align).2.toNat =
        (2 ^ 64 - (granRegion heapstart heapsize log2gran log2align).1.toNat + stop) % 2 ^ 64 /
          2 ^ log2gran % 2 ^ 32 := by
  obtain ⟨alignMask, alignNot⟩ := granUnitMask_spec alignSmall
  obtain ⟨-, granNot⟩ := granUnitMask_spec granSmall
  unfold granRegion
  simp only [alignNot, granNot]
  constructor
  · rw [toNat_and_ones_shiftLeft, BitVec.toNat_add, alignMask]
  · rw [BitVec.toNat_setWidth, BitVec.toNat_ushiftRight, Nat.shiftRight_eq_div_pow,
      toNat_and_ones_shiftLeft, Nat.mul_div_cancel _ (Nat.two_pow_pos _), BitVec.toNat_sub, stop_eq]

theorem sizeofMmGran_toNat (n : BitVec 32) :
    (sizeofMmGran n).toNat = 20 + 4 * ((n.toNat + 31) % 2 ^ 32 / 32) := by
  unfold sizeofMmGran
  have bound := n.isLt
  have words : ((n + 31) >>> 5).toNat = (n.toNat + 31) % 2 ^ 32 / 32 := by
    rw [BitVec.toNat_ushiftRight, BitVec.toNat_add, Nat.shiftRight_eq_div_pow]
    rfl
  have less : (((n + 31) >>> 5) - 1).toNat = (2 ^ 32 - 1 + ((n + 31) >>> 5).toNat) % 2 ^ 32 :=
    BitVec.toNat_sub ..
  simp only [BitVec.toNat_setWidth, BitVec.toNat_add, BitVec.toNat_mul, BitVec.toNat_ofNat, less,
    words]
  omega

theorem noWrap_of_roundUp {x k : Nat} (small : k ≤ 64) (bound : roundUp x k < 2 ^ 64) :
    x + (2 ^ k - 1) < 2 ^ 64 := by
  by_contra wraps
  have whole : 2 ^ 64 / 2 ^ k * 2 ^ k = 2 ^ 64 := Nat.div_mul_cancel (pow_dvd_pow 2 small)
  have le : 2 ^ 64 / 2 ^ k * 2 ^ k ≤ roundUp x k :=
    Nat.mul_le_mul_right _ (Nat.div_le_div_right (Nat.le_of_not_lt wraps))
  omega

/-- Without a wrap, the region starts at the next multiple. -/
theorem granRegion_fits (granSmall : log2gran < 32) (alignSmall : log2align < 32)
    (stop_eq : (heapstart + heapsize).toNat = stop)
    (fits : roundUp heapstart.toNat log2align ≤ stop) :
    (granRegion heapstart heapsize log2gran log2align).1.toNat =
        roundUp heapstart.toNat log2align ∧
      (granRegion heapstart heapsize log2gran log2align).2.toNat =
        granulesFrom (roundUp heapstart.toNat log2align) stop log2gran % 2 ^ 32 := by
  obtain ⟨first, count⟩ := granRegion_spec granSmall alignSmall stop_eq
  have stopLt : stop < 2 ^ 64 := stop_eq ▸ (heapstart + heapsize).isLt
  have noWrap := noWrap_of_roundUp (by omega) (lt_of_le_of_lt fits stopLt)
  rw [Nat.mod_eq_of_lt noWrap] at first
  have first_eq : (granRegion heapstart heapsize log2gran log2align).1.toNat =
      roundUp heapstart.toNat log2align := first
  refine ⟨first_eq, ?_⟩
  have sum : (2 ^ 64 - roundUp heapstart.toNat log2align + stop) % 2 ^ 64 =
      stop - roundUp heapstart.toNat log2align := by
    omega
  rw [count, first_eq, sum]
  rfl

/-- The second call has the same end as the first. -/
theorem granRegion_stop {head : BitVec 64} :
    (heapstart + head + (heapsize - head)) = heapstart + heapsize := by
  rw [BitVec.add_assoc, BitVec.add_comm head, BitVec.sub_add_cancel]

/-- What `gran_initialize` makes of arguments that pass its assertion. -/
structure GranArgs (heapstart heapsize : BitVec 64) (log2gran log2align : Nat) : Prop where
  heapstart_ne : heapstart ≠ 0
  heapsize_pos : heapsize > 0
  log2gran_pos : log2gran > 0
  log2gran_lt : log2gran < 32
  log2align_le : log2gran ≥ log2align

/-- The bytes that `gran_initialize` sets aside in front of the granules for `struct mm_gran` with
its table. -/
def granHead (heapstart heapsize : BitVec 64) (log2gran log2align : Nat) : BitVec 64 :=
  (sizeofMmGran (granRegion heapstart heapsize log2gran log2align).2).setWidth 64

/-- The start and the number of the granules that come behind the bytes set aside. -/
def granBehind (heapstart heapsize : BitVec 64) (log2gran log2align : Nat) :
    BitVec 64 × BitVec 32 :=
  let head := granHead heapstart heapsize log2gran log2align
  granRegion (heapstart + head) (heapsize - head) log2gran log2align

/-- The fields that are set, and the table that is not. -/
theorem granInitialize_spec (mem : Mem) (args : GranArgs heapstart heapsize log2gran log2align) :
    ∃ mem', granInitialize mem heapstart heapsize log2gran log2align = .ok (heapstart, mem') ∧
      (granAt mem' heapstart).log2gran = log2gran ∧
      (granAt mem' heapstart).ngranules =
        (granBehind heapstart heapsize log2gran log2align).2.toNat ∧
      (granAt mem' heapstart).heapstart =
        (granBehind heapstart heapsize log2gran log2align).1.toNat ∧
      ∀ i, (granAt mem' heapstart).bit i = (granAt mem heapstart).bit i := by
  obtain ⟨first, count, behind_eq⟩ : ∃ first count,
      granBehind heapstart heapsize log2gran log2align = (first, count) := ⟨_, _, rfl⟩
  have run : granInitialize mem heapstart heapsize log2gran log2align =
      .ok (heapstart, ((mem.storeLe heapstart.toNat 1 (BitVec.ofNat 8 log2gran)).storeLe
        (heapstart.toNat + 4) 4 count).storeLe (heapstart.toNat + 8) 8 first) := by
    unfold granInitialize
    rw [require_bind_of_pos ⟨args.heapstart_ne, args.heapsize_pos, args.log2gran_pos,
      args.log2gran_lt, args.log2align_le⟩]
    have second := behind_eq
    unfold granBehind granHead at second
    simp only at second
    simp only [second, args.heapstart_ne, ne_eq, not_false_eq_true, if_true]
    rfl
  refine ⟨_, run, ?_, ?_, ?_, fun i => ?_⟩
  · have small := args.log2gran_lt
    show Mem.loadLe _ heapstart.toNat 1 = log2gran
    rw [Mem.loadLe_congr (Mem.agreeOn_storeLe (by omega)),
      Mem.loadLe_congr (Mem.agreeOn_storeLe (by omega)), Mem.loadLe_storeLe, BitVec.toNat_ofNat]
    omega
  · show Mem.loadLe _ (heapstart.toNat + 4) 4 = _
    rw [Mem.loadLe_congr (Mem.agreeOn_storeLe (by omega)), Mem.loadLe_storeLe, behind_eq]
    exact Nat.mod_eq_of_lt count.isLt
  · show Mem.loadLe _ (heapstart.toNat + 8) 8 = _
    rw [Mem.loadLe_storeLe, behind_eq]
    exact Nat.mod_eq_of_lt first.isLt
  · unfold granAt MmGran.bit
    simp only
    rw [Mem.loadLe_congr (Mem.agreeOn_storeLe (by omega)),
      Mem.loadLe_congr (Mem.agreeOn_storeLe (by omega)),
      Mem.loadLe_congr (Mem.agreeOn_storeLe (by omega))]

theorem granSetAside_le (n : Nat) : granSetAside n ≤ 20 + 2 ^ 29 := by
  unfold granSetAside
  omega

theorem granSetAside_of_few {n : Nat} (few : n + 31 < 2 ^ 32) :
    granSetAside n = granHeader n := by
  unfold granSetAside granHeader sizeofGat
  rw [Nat.shiftRight_eq_div_pow]
  omega

/-- In a region that has an aligned start, the header takes what is set aside for it. -/
theorem granHead_toNat (args : GranArgs heapstart heapsize log2gran log2align)
    (stop_eq : (heapstart + heapsize).toNat = stop)
    (fits : roundUp heapstart.toNat log2align ≤ stop) :
    (granHead heapstart heapsize log2gran log2align).toNat =
      granSetAside (granulesFrom (roundUp heapstart.toNat log2align) stop log2gran) := by
  have alignSmall := lt_of_le_of_lt args.log2align_le args.log2gran_lt
  obtain ⟨-, count⟩ := granRegion_fits args.log2gran_lt alignSmall stop_eq fits
  have bound := (sizeofMmGran (granRegion heapstart heapsize log2gran log2align).2).isLt
  unfold granHead granSetAside
  rw [BitVec.toNat_setWidth, Nat.mod_eq_of_lt (by omega), sizeofMmGran_toNat, count]

/-- If the header fits in as well, the granules are where they should be, in a number that is
cut down to 32 bits. -/
theorem granBehind_of_fits (args : GranArgs heapstart heapsize log2gran log2align)
    (stop_eq : (heapstart + heapsize).toNat = stop)
    (fits : roundUp heapstart.toNat log2align ≤ stop)
    (header : granFirst heapstart.toNat stop log2gran log2align ≤ stop) :
    (granBehind heapstart heapsize log2gran log2align).1.toNat =
        granFirst heapstart.toNat stop log2gran log2align ∧
      (granBehind heapstart heapsize log2gran log2align).2.toNat =
        granuleCount heapstart.toNat stop log2gran log2align := by
  have alignSmall := lt_of_le_of_lt args.log2align_le args.log2gran_lt
  have stopLt : stop < 2 ^ 64 := stop_eq ▸ (heapstart + heapsize).isLt
  have head_eq := granHead_toNat args stop_eq fits
  have le : heapstart.toNat + (granHead heapstart heapsize log2gran log2align).toNat ≤
      granFirst heapstart.toNat stop log2gran log2align := by
    rw [head_eq]
    exact le_roundUp _ _
  have start_eq : (heapstart + granHead heapstart heapsize log2gran log2align).toNat =
      heapstart.toNat + granSetAside
        (granulesFrom (roundUp heapstart.toNat log2align) stop log2gran) := by
    rw [BitVec.toNat_add, Nat.mod_eq_of_lt (by omega), head_eq]
  have stop_eq' : (heapstart + granHead heapstart heapsize log2gran log2align +
      (heapsize - granHead heapstart heapsize log2gran log2align)).toNat = stop := by
    rw [granRegion_stop, stop_eq]
  have fits' : roundUp (heapstart + granHead heapstart heapsize log2gran log2align).toNat
      log2align ≤ stop := by
    rw [start_eq]
    exact header
  have region := granRegion_fits args.log2gran_lt alignSmall stop_eq' fits'
  rw [start_eq] at region
  exact region

/-- Granules that are laid out behind the start did not come from a sum that wrapped. -/
theorem fits_of_le (args : GranArgs heapstart heapsize log2gran log2align)
    (stop_eq : (heapstart + heapsize).toNat = stop)
    (low : heapstart.toNat + 20 ≤ (granBehind heapstart heapsize log2gran log2align).1.toNat)
    (high : (granBehind heapstart heapsize log2gran log2align).1.toNat ≤ stop) :
    roundUp heapstart.toNat log2align ≤ stop ∧
      granFirst heapstart.toNat stop log2gran log2align ≤ stop := by
  have alignSmall := lt_of_le_of_lt args.log2align_le args.log2gran_lt
  have stop_eq' : (heapstart + granHead heapstart heapsize log2gran log2align +
      (heapsize - granHead heapstart heapsize log2gran log2align)).toNat = stop := by
    rw [granRegion_stop, stop_eq]
  have first : (granBehind heapstart heapsize log2gran log2align).1.toNat = _ :=
    (granRegion_spec args.log2gran_lt alignSmall stop_eq').1
  have multiple : (granBehind heapstart heapsize log2gran log2align).1.toNat % 2 ^ log2align =
      0 := by
    rw [first]
    exact Nat.mul_mod_left _ _
  have fits : roundUp heapstart.toNat log2align ≤ stop :=
    (roundUp_least (by omega) multiple).trans high
  refine ⟨fits, ?_⟩
  have head_eq := granHead_toNat args stop_eq fits
  have headLe := granSetAside_le
    (granulesFrom (roundUp heapstart.toNat log2align) stop log2gran)
  have unitLe : 2 ^ log2align ≤ 2 ^ 31 := Nat.pow_le_pow_right (by decide) (by omega)
  have startLt := heapstart.isLt
  have below := Nat.div_mul_le_self
    (((heapstart + granHead heapstart heapsize log2gran log2align).toNat + (2 ^ log2align - 1)) %
      2 ^ 64) (2 ^ log2align)
  rw [BitVec.toNat_add, head_eq, Nat.mod_add_mod] at below first
  unfold granFirst roundUp
  obtain ⟨head, isHead⟩ : ∃ head, head =
    granSetAside (granulesFrom (roundUp heapstart.toNat log2align) stop log2gran) := ⟨_, rfl⟩
  rw [show granSetAside (granulesFrom ((heapstart.toNat + (2 ^ log2align - 1)) / 2 ^ log2align *
    2 ^ log2align) stop log2gran) = head from isHead.symm]
  rw [← isHead] at below first headLe
  have noWrap : heapstart.toNat + head + (2 ^ log2align - 1) < 2 ^ 64 := by
    omega
  rw [Nat.mod_eq_of_lt noWrap] at first
  rw [← first]
  exact high

/-- With room for the heap, the number of granules has 32 bits and the table ends below them. -/
theorem RoomForHeap.few_header (room : RoomForHeap start stop log2gran log2align) :
    granulesFrom (granFirst start stop log2gran log2align) stop log2gran < 2 ^ 32 ∧
      start + granHeader
          (granulesFrom (granFirst start stop log2gran log2align) stop log2gran) ≤
        granFirst start stop log2gran log2align := by
  rcases room.count with few | enough
  · have first_le : roundUp start log2align ≤ granFirst start stop log2gran log2align :=
      roundUp_mono (Nat.le_add_right _ _)
    have fewer : granulesFrom (granFirst start stop log2gran log2align) stop log2gran ≤
        granulesFrom (roundUp start log2align) stop log2gran :=
      Nat.div_le_div_right (Nat.sub_le_sub_left first_le stop)
    have le : start + granSetAside (granulesFrom (roundUp start log2align) stop log2gran) ≤
        granFirst start stop log2gran log2align := le_roundUp _ _
    rw [granSetAside_of_few few] at le
    have smaller : granHeader
        (granulesFrom (granFirst start stop log2gran log2align) stop log2gran) ≤
          granHeader (granulesFrom (roundUp start log2align) stop log2gran) := by
      unfold granHeader sizeofGat
      rw [Nat.shiftRight_eq_div_pow, Nat.shiftRight_eq_div_pow]
      omega
    exact ⟨by omega, by omega⟩
  · exact enough

/-- For arguments that pass the assertion and a region that does not wrap around, the heap is
laid out inside the region exactly if there is room for it. -/
theorem gran_laid_out_iff (mem : Mem) (args : GranArgs heapstart heapsize log2gran log2align)
    (noWrap : heapstart.toNat + heapsize.toNat < 2 ^ 64) :
    ∃ mem', granInitialize mem heapstart heapsize log2gran log2align = .ok (heapstart, mem') ∧
      (LaidOut heapstart.toNat (heapstart.toNat + heapsize.toNat) log2gran log2align
          (granAt mem' heapstart) ↔
        RoomForHeap heapstart.toNat (heapstart.toNat + heapsize.toNat) log2gran log2align) := by
  have stop_eq : (heapstart + heapsize).toNat = heapstart.toNat + heapsize.toNat := by
    rw [BitVec.toNat_add, Nat.mod_eq_of_lt noWrap]
  obtain ⟨mem', run, -, count_eq, first_eq, -⟩ := granInitialize_spec mem args
  refine ⟨mem', run, ?_⟩
  constructor
  · intro laid
    have header := laid.header
    have inside := laid.inside
    have left := laid.left
    rw [first_eq] at header inside left
    obtain ⟨fits, first⟩ := fits_of_le args stop_eq
      (by unfold granHeader at header; omega) (by omega)
    obtain ⟨first_is, count_is⟩ := granBehind_of_fits args stop_eq fits first
    rw [first_is] at header inside left
    rw [← count_eq, granuleCount] at count_is
    have whole : granulesFrom (granFirst heapstart.toNat (heapstart.toNat + heapsize.toNat)
        log2gran log2align) (heapstart.toNat + heapsize.toNat) log2gran =
          (granAt mem' heapstart).ngranules := by
      refine Nat.div_eq_of_lt_le (by omega) ?_
      rw [Nat.succ_mul]
      omega
    refine ⟨fits, first, .inr ⟨?_, ?_⟩⟩
    · rw [whole, count_is]
      exact Nat.mod_lt _ (by decide)
    · rw [whole]
      exact header
  · intro room
    obtain ⟨first_is, count_is⟩ := granBehind_of_fits args stop_eq room.aligned room.header
    obtain ⟨few, header⟩ := room.few_header
    rw [← count_eq, granuleCount, Nat.mod_eq_of_lt few] at count_is
    rw [← first_eq] at first_is
    have multiple := roundUp_mod (heapstart.toNat + granSetAside (granulesFrom
      (roundUp heapstart.toNat log2align) (heapstart.toNat + heapsize.toNat) log2gran)) log2align
    have room_le := room.header
    have below := Nat.div_mul_le_self (heapstart.toNat + heapsize.toNat -
      granFirst heapstart.toNat (heapstart.toNat + heapsize.toNat) log2gran log2align)
      (2 ^ log2gran)
    have above := Nat.lt_div_mul_add (Nat.two_pow_pos log2gran)
      (a := heapstart.toNat + heapsize.toNat -
        granFirst heapstart.toNat (heapstart.toNat + heapsize.toNat) log2gran log2align)
    unfold granulesFrom at count_is header
    rw [← count_is, ← first_is] at below above header
    rw [← first_is] at room_le
    refine ⟨first_is ▸ multiple, header, by omega, by omega⟩

instance (start stop log2gran log2align : Nat) (gran : MmGran) :
    Decidable (LaidOut start stop log2gran log2align gran) :=
  decidable_of_iff (gran.heapstart % 2 ^ log2align = 0 ∧
      start + granHeader gran.ngranules ≤ gran.heapstart ∧
      gran.heapstart + gran.ngranules * 2 ^ log2gran ≤ stop ∧
      stop - (gran.heapstart + gran.ngranules * 2 ^ log2gran) < 2 ^ log2gran)
    ⟨fun ⟨aligned, header, inside, left⟩ => ⟨aligned, header, inside, left⟩,
      fun laid => ⟨laid.aligned, laid.header, laid.inside, laid.left⟩⟩

/-- In a region of 16 bytes the granules start behind its end, and there are `2 ^ 32 - 1` of
them. -/
theorem tiny_region_overruns : Returns (granInitialize (fun _ => 0) 0x1000 16 12 12) fun result =>
    (granAt result.2 0x1000).heapstart = 0x2000 ∧
      (granAt result.2 0x1000).ngranules = 2 ^ 32 - 1 ∧
      ¬ LaidOut 0x1000 0x1010 12 12 (granAt result.2 0x1000) := by
  decide +kernel

/-- A region of 64 KiB has room for its heap, and one of 16 bytes has not. -/
theorem gran_laid_out_iff_sample :
    (∃ mem', granInitialize (fun _ => 0) 0x1000 0x10000 12 12 = .ok (0x1000, mem') ∧
      LaidOut 0x1000 0x11000 12 12 (granAt mem' 0x1000)) ∧
    ∃ mem', granInitialize (fun _ => 0) 0x1000 16 12 12 = .ok (0x1000, mem') ∧
      ¬ LaidOut 0x1000 0x1010 12 12 (granAt mem' 0x1000) := by
  have args : GranArgs 0x1000 0x10000 12 12 :=
    ⟨by decide, by decide, by decide, by decide, by decide⟩
  have tiny : GranArgs 0x1000 16 12 12 := ⟨by decide, by decide, by decide, by decide, by decide⟩
  have room : RoomForHeap 0x1000 0x11000 12 12 := ⟨by decide, by decide, .inl (by decide)⟩
  obtain ⟨mem, run, laid_iff⟩ := gran_laid_out_iff (fun _ => 0) args (by decide)
  obtain ⟨mem', run', laid_iff'⟩ := gran_laid_out_iff (fun _ => 0) tiny (by decide)
  refine ⟨⟨mem, run, laid_iff.mpr room⟩, mem', run', fun laid => ?_⟩
  have header : granFirst 0x1000 0x1010 12 12 ≤ 0x1010 := (laid_iff'.mp laid).header
  exact absurd header (by decide)

end Layout

/-! ## The first allocation -/

/-- Nothing is allocated: `gran_dump` reports one run of all granules, and an allocation of up
to 32 of them gets the first ones. -/
structure FreshHeap (gran : MmGran) : Prop where
  dump : Returns (granDump gran) fun info =>
    info.nfree = gran.ngranules ∧ info.mxfree = gran.ngranules
  alloc : ∀ size, 0 < size → size ≤ min 32 gran.ngranules * 2 ^ gran.log2gran →
    Returns (granAlloc gran size) fun result => result.1 = gran.heapstart

section Fresh

variable {gran : MmGran} {size k : Nat}

/-- From `2 ^ 32 - 31` granules on, `granidx` starts over before it gets to their number. -/
theorem granDumpLoop_diverges (many : 2 ^ 32 ≤ gran.ngranules + 31) (rounds : Nat) :
    ∀ {granidx mxfree : Nat} {info : GranInfo}, granidx + 32 * rounds = 2 ^ 32 →
      0 < rounds → granDumpLoop gran rounds granidx info mxfree = .error .diverge := by
  induction rounds with
  | zero =>
    intro granidx mxfree info _ pos
    exact absurd pos (Nat.lt_irrefl 0)
  | succ rounds ih =>
    intro granidx mxfree info total _
    rw [granDumpLoop, if_pos (by omega)]
    simp only
    by_cases last : rounds = 0
    · have wrapped : cU32 ((granidx : Int) + 32) = 0 := by
        unfold cU32
        omega
      rw [wrapped, last, granDumpLoop, if_pos (by omega)]
    · have next : cU32 ((granidx : Int) + 32) = granidx + 32 := cU32_add (y := 32) (by omega)
      rw [next]
      exact ih (by omega) (by omega)

/-- The number of free granules is the number of granules only if all are free. -/
theorem freeTable_count_eq_iff {n : Nat} :
    (gran.freeTable n).count true = n ↔ ∀ i < n, gran.bit i = false := by
  have length := gran.length_freeTable n
  rw [show (gran.freeTable n).count true = n ↔
    (gran.freeTable n).count true = (gran.freeTable n).length by rw [length],
    List.count_eq_length]
  unfold MmGran.freeTable
  simp

theorem freeTable_eq_replicate {n : Nat} (clear : ∀ i < n, gran.bit i = false) :
    gran.freeTable n = List.replicate n true := by
  rw [List.eq_replicate_iff]
  refine ⟨gran.length_freeTable n, fun b inside => ?_⟩
  obtain ⟨i, below, rfl⟩ := List.mem_map.mp inside
  rw [clear i (List.mem_range.mp below)]
  rfl

/-- What `gran_dump` reports of a table with `2 ^ 32 - 32` granules at most. -/
theorem dump_fresh_iff (small : gran.ngranules + 31 < 2 ^ 32) :
    (Returns (granDump gran) fun info =>
        info.nfree = gran.ngranules ∧ info.mxfree = gran.ngranules) ↔
      ∀ i < gran.ngranules, gran.bit i = false := by
  obtain ⟨info, mxfree, run, tally, -⟩ := @granDump_tally gran (by omega)
  constructor
  · rintro ⟨info', run', nfree, -⟩
    cases run.symm.trans run'
    rw [GranInfo.note_nfree, tally.nfree] at nfree
    exact freeTable_count_eq_iff.mp nfree
  · intro clear
    refine ⟨_, run, ?_, ?_⟩
    · rw [GranInfo.note_nfree, tally.nfree]
      exact freeTable_count_eq_iff.mpr clear
    · rw [GranInfo.note_mxfree, tally.mxfree, freeTable_eq_replicate clear, longest_replicate_true]

/-- The number of granules that `gran_alloc` looks for is positive, and no larger than the room
that the size was given. -/
theorem granAllocCount_le {log2gran : Nat} (le : log2gran ≤ 26) (pos : 0 < size)
    (limit : size ≤ k * 2 ^ log2gran) (small : k ≤ 32) :
    0 < granAllocCount log2gran size ∧ granAllocCount log2gran size ≤ k := by
  obtain ⟨geo, rfl⟩ : ∃ geo : GranGeometry, geo.log2gran = log2gran :=
    ⟨⟨log2gran, 0, 1, by omega, by decide, by simp, by simp⟩, rfl⟩
  have request : geo.Request size := ⟨pos, limit.trans (Nat.mul_le_mul_right _ small)⟩
  rw [granAllocCount_eq le request]
  refine ⟨GranGeometry.count_pos request, ?_⟩
  refine Nat.lt_succ_iff.mp ((Nat.div_lt_iff_lt_mul geo.granule_pos).mpr ?_)
  have unit := geo.granule_pos
  rw [Nat.succ_mul]
  show size + (geo.granule - 1) < k * 2 ^ geo.log2gran + geo.granule
  omega

/-- A run of free granules at the start of the table is found at once. -/
theorem granSearch_first (unit : gran.log2gran ≤ 26) (pos : 0 < k) (le : k ≤ 32)
    (room : k ≤ gran.ngranules) (start : gran.heapstart < 2 ^ 64) (free : gran.FreeRun 0 k) :
    granSearch gran k (sizeofGat gran.ngranules) 0 = .ok (some gran.heapstart) := by
  have first : gran.FirstFit k 0 gran.ngranules (some 0) :=
    ⟨le_rfl, by omega, ⟨by omega, free⟩, fun j _ before => by omega⟩
  have addr : gran.foundAddr 0 = gran.heapstart := by
    rw [MmGran.foundAddr_eq (by simp), MmGran.addr, Nat.cast_zero, Int.zero_mul, Int.add_zero]
    exact cU64_natCast start
  rw [granSearch_eq unit _ (by decide), granSearchRun_found pos le (by decide) first, ← addr]
  rfl

theorem alloc_fresh (le : gran.log2gran ≤ 26) (start : gran.heapstart < 2 ^ 64)
    (clear : ∀ i < gran.ngranules, gran.bit i = false) (pos : 0 < size)
    (limit : size ≤ min 32 gran.ngranules * 2 ^ gran.log2gran) :
    Returns (granAlloc gran size) fun result => result.1 = gran.heapstart := by
  obtain ⟨some, count_le⟩ := granAllocCount_le le pos limit (Nat.min_le_left _ _)
  have allowed : size ≤ granLimit gran.log2gran :=
    (limit.trans (Nat.mul_le_mul_right _ (Nat.min_le_left _ _))).trans (granLimit_of_le le)
  have few := count_le.trans (Nat.min_le_left _ _)
  have room := count_le.trans (Nat.min_le_right _ _)
  have free : gran.FreeRun 0 (granAllocCount gran.log2gran size) := by
    intro j inside
    exact clear _ (by omega)
  have first : granNo gran gran.heapstart = 0 := by
    unfold granNo
    rw [Int.sub_self]
    show cU32 ((0 >>> gran.log2gran : Nat) : Int) = 0
    rw [Nat.zero_shiftRight]
    rfl
  obtain ⟨gran', mark, -⟩ := granMarkAllocated_spec first few free
  refine ⟨(gran.heapstart, gran'), ?_, rfl⟩
  unfold granAlloc
  rw [require_bind_of_pos allowed]
  simp only [pos, if_true]
  rw [require_bind_of_pos few, granSearch_first le some few room start free, ok_bind]
  simp only [mark, ok_bind]
  rfl

/-- A heap is fresh if it has no granules, or has them all free, in a number and of a size that
the code can cope with. -/
theorem freshHeap_iff (log2gran_lt : gran.log2gran < 32) (count_lt : gran.ngranules < 2 ^ 32)
    (start : gran.heapstart < 2 ^ 64) :
    FreshHeap gran ↔ gran.ngranules = 0 ∨ gran.ngranules + 31 < 2 ^ 32 ∧ gran.log2gran ≤ 26 ∧
      ∀ i < gran.ngranules, gran.bit i = false := by
  by_cases none : gran.ngranules = 0
  · refine iff_of_true ⟨?_, fun size pos limit => ?_⟩ (.inl none)
    · rw [dump_fresh_iff (by omega)]
      intro i below
      omega
    · rw [none, Nat.min_zero, Nat.zero_mul] at limit
      omega
  · rw [or_iff_right none]
    constructor
    · intro fresh
      have few : gran.ngranules + 31 < 2 ^ 32 := by
        by_contra many
        obtain ⟨info, run, -⟩ := fresh.dump
        have rounds : sizeofGat gran.ngranules = 2 ^ 27 := by
          unfold sizeofGat
          rw [Nat.shiftRight_eq_div_pow]
          omega
        have diverges : granDumpLoop gran (sizeofGat gran.ngranules) 0
            ⟨gran.log2gran, gran.ngranules, 0, 0⟩ 0 = .error .diverge :=
          granDumpLoop_diverges (by omega) _ (by omega) (by omega)
        obtain ⟨totals, loop, -⟩ := of_bind_ok run
        cases diverges.symm.trans loop
      refine ⟨few, ?_, (dump_fresh_iff few).mp fresh.dump⟩
      by_contra big
      -- the limit on the size is 0
      have unit := Nat.two_pow_pos gran.log2gran
      have one : 2 ^ gran.log2gran ≤ min 32 gran.ngranules * 2 ^ gran.log2gran :=
        Nat.le_mul_of_pos_left _ (by omega)
      obtain ⟨result, run, -⟩ := fresh.alloc _ unit one
      unfold granAlloc at run
      have allowed := (of_require_bind_ok run).1
      rw [granLimit_eq_zero (by omega) log2gran_lt] at allowed
      omega
    · rintro ⟨few, le, clear⟩
      exact ⟨(dump_fresh_iff few).mpr clear, fun size pos limit =>
        alloc_fresh le start clear pos limit⟩

end Fresh

section Initialized

variable {heapstart heapsize : BitVec 64} {log2gran log2align : Nat}

theorem granSetAside_le_header (n : Nat) : granSetAside n ≤ granHeader n := by
  unfold granSetAside granHeader sizeofGat
  rw [Nat.shiftRight_eq_div_pow]
  omega

/-- In a region that holds the header and a granule, the new heap is fresh exactly if it has no
more than `2 ^ 32 - 32` granules of at most `2 ^ 26` bytes, and memory was clear where the table
lies (or if the number of its granules has been cut down to 0). -/
theorem gran_fresh_iff (mem : Mem) (args : GranArgs heapstart heapsize log2gran log2align)
    (noWrap : heapstart.toNat + heapsize.toNat < 2 ^ 64)
    (room : roundUp (heapstart.toNat + granHeader (granulesFrom
        (roundUp heapstart.toNat log2align) (heapstart.toNat + heapsize.toNat) log2gran))
      log2align + 2 ^ log2gran ≤ heapstart.toNat + heapsize.toNat) :
    ∃ mem', granInitialize mem heapstart heapsize log2gran log2align = .ok (heapstart, mem') ∧
      ∀ n, n = granuleCount heapstart.toNat (heapstart.toNat + heapsize.toNat) log2gran
          log2align →
        (FreshHeap (granAt mem' heapstart) ↔ n = 0 ∨ n + 31 < 2 ^ 32 ∧ log2gran ≤ 26 ∧
          ∀ i < n, (granAt mem heapstart).bit i = false) := by
  have stop_eq : (heapstart + heapsize).toNat = heapstart.toNat + heapsize.toNat := by
    rw [BitVec.toNat_add, Nat.mod_eq_of_lt noWrap]
  have aligned : roundUp heapstart.toNat log2align ≤ heapstart.toNat + heapsize.toNat :=
    (roundUp_mono (Nat.le_add_right _ _)).trans ((Nat.le_add_right _ _).trans room)
  have header : granFirst heapstart.toNat (heapstart.toNat + heapsize.toNat) log2gran log2align ≤
      heapstart.toNat + heapsize.toNat :=
    (roundUp_mono (Nat.add_le_add_left (granSetAside_le_header _) _)).trans
      ((Nat.le_add_right _ _).trans room)
  obtain ⟨-, count_is⟩ := granBehind_of_fits args stop_eq aligned header
  obtain ⟨mem', run, log2gran_eq, count_eq, first_eq, bits⟩ := granInitialize_spec mem args
  refine ⟨mem', run, ?_⟩
  rintro n rfl
  rw [freshHeap_iff (log2gran_eq.trans_lt args.log2gran_lt)
    (count_eq.trans_lt (granBehind heapstart heapsize log2gran log2align).2.isLt)
    (first_eq.trans_lt (granBehind heapstart heapsize log2gran log2align).1.isLt),
    log2gran_eq, count_eq, count_is]
  simp only [bits]

/-- The heap in a clear region is fresh, and with one bit set where the table comes to lie it is
not. -/
theorem gran_fresh_iff_sample :
    (∃ mem', granInitialize (fun _ => 0) 0x1000 0x10000 12 12 = .ok (0x1000, mem') ∧
      FreshHeap (granAt mem' 0x1000)) ∧
    ∃ mem', granInitialize (fun x => if x = 0x1010 then 1 else 0) 0x1000 0x10000 12 12 =
        .ok (0x1000, mem') ∧
      ¬ FreshHeap (granAt mem' 0x1000) := by
  have args : GranArgs 0x1000 0x10000 12 12 :=
    ⟨by decide, by decide, by decide, by decide, by decide⟩
  have count : granuleCount 0x1000 0x11000 12 12 = 15 := by decide
  have clear : ∀ i < 15, (granAt (fun _ => 0) 0x1000).bit i = false := by decide +kernel
  have set : (granAt (fun x => if x = 0x1010 then 1 else 0) 0x1000).bit 0 = true := by
    decide +kernel
  obtain ⟨mem, run, fresh_iff⟩ := gran_fresh_iff (fun _ => 0) args (by decide) (by decide)
  obtain ⟨mem', run', fresh_iff'⟩ :=
    gran_fresh_iff (fun x => if x = 0x1010 then 1 else 0) args (by decide) (by decide)
  refine ⟨⟨mem, run, (fresh_iff 15 count.symm).mpr (.inr ⟨by decide, by decide, clear⟩)⟩,
    mem', run', fun fresh => ?_⟩
  rcases (fresh_iff' 15 count.symm).mp fresh with none | ⟨-, -, clear'⟩
  · cases none
  · cases set.symm.trans (clear' 0 (by decide))

/-- One bit is set in memory where the table comes to lie: the first of 15 granules is lost, and
the first allocation gets the second one. -/
theorem leftover_bit_hides_granule :
    Returns (granInitialize (fun x => if x = 0x1010 then 1 else 0) 0x1000 0x10000 12 12)
      fun result => (granAt result.2 0x1000).heapstart = 0x2000 ∧
        (Returns (granDump (granAt result.2 0x1000)) fun info =>
          info.ngranules = 15 ∧ info.nfree = 14 ∧ info.mxfree = 14) ∧
        Returns (granAlloc (granAt result.2 0x1000) 0x1000) fun alloc => alloc.1 = 0x3000 := by
  decide +kernel

end Initialized

end Chinos
