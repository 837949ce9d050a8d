import Chinos.Gran.Init

/-!
# The address arithmetic of the granule heap

`gran_alloc` multiplies the number of a table word's first granule by the granule size in
`int`, adds the result to the 64-bit start of the heap, and moves on from there granule by
granule. `gran_mark_allocated` and `gran_free` divide the offset of an address by the granule
size and keep 32 bits. `gran_initialize` admits heaps of up to `2 ^ 63` bytes; the product
overflows from the first word on that is `2 ^ 31` bytes into the heap. `granLanding` says for
which granule the address of a run is then taken.
-/

namespace Chinos

/-- A heap that the assertion of `gran_initialize` and the fields of `struct mm_gran` admit. -/
structure AdmittedHeap where
  log2gran : Nat
  ngranules : Nat
  heapstart : Nat
  log2gran_pos : 0 < log2gran
  log2gran_lt : log2gran < 32
  ngranules_lt : ngranules < 2 ^ 32
  heapstart_lt : heapstart < 2 ^ 64

/-- The heap with `gat` for the memory around its table. -/
def AdmittedHeap.heap (geo : AdmittedHeap) (gat : Int → BitVec 32) : MmGran :=
  ⟨geo.log2gran, geo.ngranules, geo.heapstart, gat⟩

/-- What `gran_initialize` sets up with arguments that pass its assertion is an admitted heap. -/
theorem granInitialize_admitted {heapstart heapsize : BitVec 64} {log2gran log2align : Nat}
    (mem : Mem) (args : GranArgs heapstart heapsize log2gran log2align) :
    ∃ mem' geo, granInitialize mem heapstart heapsize log2gran log2align = .ok (heapstart, mem') ∧
      granAt mem' heapstart = AdmittedHeap.heap geo (granAt mem' heapstart).gat := by
  obtain ⟨mem', run, unit, count, start, -⟩ := granInitialize_spec mem args
  let behind := granBehind heapstart heapsize log2gran log2align
  refine ⟨mem', ⟨log2gran, behind.2.toNat, behind.1.toNat, args.log2gran_pos, args.log2gran_lt,
    behind.2.isLt, behind.1.isLt⟩, run, ?_⟩
  have fields : granAt mem' heapstart = ⟨(granAt mem' heapstart).log2gran,
      (granAt mem' heapstart).ngranules, (granAt mem' heapstart).heapstart,
      (granAt mem' heapstart).gat⟩ := rfl
  rw [unit, count, start] at fields
  exact fields

/-- No granule of an admitted heap is `2 ^ 63` bytes or more into it. -/
theorem AdmittedHeap.offset_lt (geo : AdmittedHeap) {i : Nat} (lt : i < 2 ^ 32) :
    i * 2 ^ geo.log2gran < 2 ^ 63 := by
  have small := geo.log2gran_lt
  have unit : 2 ^ geo.log2gran ≤ 2 ^ 31 := Nat.pow_le_pow_right (by decide) (by omega)
  have offset : i * 2 ^ geo.log2gran ≤ (2 ^ 32 - 1) * 2 ^ 31 := Nat.mul_le_mul (by omega) unit
  omega

/-! ## Addresses and granule numbers -/

section Arithmetic

variable {gran : MmGran} {i size : Nat}

/-- The address of a granule is right iff the offset of its table word is an `int`. -/
theorem MmGran.foundAddr_eq_iff (offset : i * 2 ^ gran.log2gran < 2 ^ 63) :
    gran.foundAddr i = gran.addr i ↔ i / 32 * 32 * 2 ^ gran.log2gran < 2 ^ 31 := by
  refine ⟨fun same => ?_, MmGran.foundAddr_eq⟩
  have word_le : i / 32 * 32 * 2 ^ gran.log2gran ≤ i * 2 ^ gran.log2gran :=
    Nat.mul_le_mul_right _ (by omega)
  rw [MmGran.foundAddr, MmGran.addr_eq_word, natCast_mul_two_pow (i / 32 * 32)] at same
  generalize ((i % 32 : Nat) : Int) * 2 ^ gran.log2gran = rest at same
  generalize i / 32 * 32 * 2 ^ gran.log2gran = x at same word_le ⊢
  have low : -(((2 ^ 32 : Nat) : Int) / 2) ≤ cInt x := Int.le_bmod (by decide)
  have high : cInt x < (((2 ^ 32 : Nat) : Int) + 1) / 2 := Int.bmod_lt (by decide)
  generalize cInt x = y at same low high
  unfold cU64 at same
  omega

/-- `gran_alloc` and `gran_free` count the same number of granules for a size, although they
compute it in different types. -/
theorem granFreeCount_eq_alloc (le : gran.log2gran ≤ 26) :
    granFreeCount gran.log2gran size = granAllocCount gran.log2gran size := by
  have bound := two_pow_le_of_le le
  have mask : cU32 (2 ^ gran.log2gran - 1 : Nat) = cU64 (2 ^ gran.log2gran - 1 : Nat) := by
    rw [cU32_natCast (by omega), cU64_natCast (by omega)]
  rw [granFreeCount, granAllocCount, cInt_two_pow_sub_one le, mask]

end Arithmetic

/-! ## Where the bits of a run end up -/

/-- The granule number that `gran_mark_allocated` has for the run at granule `i`: the offset is
an `int`, so what is left of `i` is a signed number of `32 - log2gran` bits. -/
def granLanding (log2gran i : Nat) : Nat := cU32 ((i : Int).bmod (2 ^ (32 - log2gran)))

section Landing

variable {gran : MmGran} {i : Nat}

/-- An offset of `y` granules, in 64 bits, is divided and cut down to `y`, in 32 bits. -/
theorem granNo_of_offset {memory : Nat} {y : Int} (unit : gran.log2gran ≤ 26)
    (offset : cU64 (memory - gran.heapstart) = cU64 (y * 2 ^ gran.log2gran)) :
    granNo gran memory = cU32 y := by
  have range : (2 : Int) ^ 64 = 2 ^ gran.log2gran * 2 ^ (64 - gran.log2gran) := by
    rw [← pow_add, show gran.log2gran + (64 - gran.log2gran) = 64 by omega]
  have factor : (0 : Int) < 2 ^ gran.log2gran := by positivity
  have whole : 0 ≤ y % 2 ^ (64 - gran.log2gran) := Int.emod_nonneg _ (by positivity)
  have shifted : cU64 (y * 2 ^ gran.log2gran) =
      2 ^ gran.log2gran * (y % 2 ^ (64 - gran.log2gran)).toNat := by
    unfold cU64
    rw [range, Int.mul_comm y, Int.mul_emod_mul_of_pos _ _ factor,
      Int.toNat_mul (Int.le_of_lt factor) whole]
    norm_cast
  have narrow : (2 : Int) ^ 32 ∣ 2 ^ (64 - gran.log2gran) := pow_dvd_pow 2 (by omega)
  rw [granNo, offset, shifted, Nat.shiftRight_eq_div_pow, Nat.mul_div_cancel_left _
    (Nat.two_pow_pos _)]
  unfold cU32
  rw [Int.toNat_of_nonneg whole, Int.emod_emod_of_dvd _ narrow]

theorem cInt_add_mul (x c : Int) : cInt (x + 2 ^ 32 * c) = cInt x :=
  Int.add_mul_bmod_self_left x (2 ^ 32) c

/-- The offset of a table word keeps the signed part of its first granule's number. -/
theorem cInt_word_offset {l : Nat} (unit : l ≤ 26) (i : Nat) :
    cInt ((i / 32 * 32 : Nat) * 2 ^ l) + (i % 32 : Nat) * 2 ^ l =
      (i : Int).bmod (2 ^ (32 - l)) * 2 ^ l := by
  have range : (2 ^ (32 - l) : Nat) = 64 * 2 ^ (26 - l) := by
    rw [show 32 - l = 6 + (26 - l) by omega, Nat.pow_add]
  have product : (2 : Int) ^ (26 - l) * 2 ^ l = 2 ^ 26 := by
    rw [← pow_add, show 26 - l + l = 26 by omega]
  have factor : (0 : Int) < 2 ^ l := by positivity
  have low := Int.le_bmod (x := i) (Nat.two_pow_pos (32 - l))
  have high := Int.bmod_lt (x := i) (Nat.two_pow_pos (32 - l))
  obtain ⟨c, multiple⟩ := Int.dvd_bmod_sub_self (x := i) (m := 2 ^ (32 - l))
  generalize (i : Int).bmod (2 ^ (32 - l)) = y at low high multiple ⊢
  rw [range] at low high multiple
  push_cast at low high multiple
  generalize (2 : Int) ^ (26 - l) = h at low high multiple product
  -- the word of `i` is the word of `y`, up to a multiple of the range
  have granule : (i : Int) = y - 64 * (h * c) := by
    linarith
  have rest : y % 32 = (i % 32 : Nat) := by
    generalize h * c = d at granule
    omega
  have word : ((i / 32 * 32 : Nat) : Int) * 2 ^ l = 32 * (y / 32 * 2 ^ l) + 2 ^ 32 * -c := by
    have first : ((i / 32 * 32 : Nat) : Int) = 32 * (y / 32) - 64 * (h * c) := by
      generalize h * c = d at granule
      omega
    rw [first]
    linear_combination (-64 * c) * product
  have above : -h * 2 ^ l ≤ y / 32 * 2 ^ l := by
    apply Int.mul_le_mul_of_nonneg_right _ (Int.le_of_lt factor)
    omega
  have below : y / 32 * 2 ^ l < h * 2 ^ l := by
    apply Int.mul_lt_mul_of_pos_right _ factor
    omega
  rw [Int.neg_mul, product] at above
  rw [product] at below
  have exact_word : cInt (((i / 32 * 32 : Nat) : Int) * 2 ^ l) = 32 * (y / 32 * 2 ^ l) := by
    rw [word, cInt_add_mul, cInt_of_range (by omega) (by omega)]
  rw [exact_word, ← rest]
  have whole : y = 32 * (y / 32) + y % 32 := by omega
  linear_combination (-(2 : Int) ^ l) * whole

theorem granNo_foundAddr (unit : gran.log2gran ≤ 26) :
    granNo gran (gran.foundAddr i) = granLanding gran.log2gran i := by
  apply granNo_of_offset unit
  rw [MmGran.foundAddr, Int.add_assoc, cInt_word_offset unit]
  generalize (i : Int).bmod (2 ^ (32 - gran.log2gran)) * 2 ^ gran.log2gran = x
  unfold cU64
  omega

/-- Where the offset is an `int`, the bits of a run end up where they belong. -/
theorem granLanding_eq {l : Nat} (lt : l < 32) (offset : i * 2 ^ l < 2 ^ 31) :
    granLanding l i = i := by
  have range : (2 ^ (32 - l) : Nat) = 2 * 2 ^ (31 - l) := by
    rw [show 32 - l = 31 - l + 1 by omega, Nat.pow_succ, Nat.mul_comm]
  have low : i < 2 ^ (31 - l) := by
    apply Nat.lt_of_mul_lt_mul_right (a := 2 ^ l)
    rwa [← Nat.pow_add, show 31 - l + l = 31 by omega]
  have bound : (2 : Nat) ^ (31 - l) ≤ 2 ^ 31 := Nat.pow_le_pow_right (by decide) (by omega)
  have same : (i : Int).bmod (2 ^ (32 - l)) = i := by
    rw [range]
    exact Int.bmod_eq_of_le (by omega) (by omega)
  rw [granLanding, same]
  exact cU32_natCast (by omega)

end Landing

/-! ## What the search finds -/

/-- `gran_alloc` gets past its assertions with a run to look for, and the search finds a run at
granule `i`. -/
structure GranFinds (gran : MmGran) (size i : Nat) : Prop where
  limit : size ≤ granLimit gran.log2gran
  size_pos : 0 < size
  count_pos : 0 < granAllocCount gran.log2gran size
  count_le : granAllocCount gran.log2gran size ≤ 32
  found : granSearchRun gran (granAllocCount gran.log2gran size) (sizeofGat gran.ngranules) 0 =
    .ok (some i)

/-- The run at granule `i` is handed out under its own address, which is taken for granule `i`
again: exactly its granules are marked, and `gran_free` gives back exactly these. -/
structure GranExact (gran : MmGran) (size i : Nat) : Prop where
  granno : granNo gran (gran.addr i) = i
  alloc : ∃ gran', granAlloc gran size = .ok (gran.addr i, gran') ∧
    (∀ j, gran'.bit j = (gran.bit j || runBit i (granAllocCount gran.log2gran size) j)) ∧
    (gran.addr i ≠ 0 → ∃ gran'', granFree gran' (gran.addr i) size = .ok gran'' ∧
      ∀ j, gran''.bit j = gran.bit j)

section Finds

variable {gran : MmGran} {i size : Nat}

/-- A request is found only in granules of at most 64 MiB, since for larger ones the assertion on
the size refuses every request. -/
theorem GranFinds.log2gran_le (finds : GranFinds gran size i) (lt : gran.log2gran < 32) :
    gran.log2gran ≤ 26 := by
  by_contra large
  have limit := finds.limit
  have pos := finds.size_pos
  rw [granLimit_eq_zero (by omega) lt] at limit
  omega

/-- What `gran_alloc` does with a run that it has found. -/
theorem GranFinds.granAlloc_eq (finds : GranFinds gran size i) (le : gran.log2gran ≤ 26) :
    granAlloc gran size =
      (granMarkAllocated gran (gran.foundAddr i) (granAllocCount gran.log2gran size)).map
        (gran.foundAddr i, ·) := by
  have search : granSearch gran (granAllocCount gran.log2gran size) (sizeofGat gran.ngranules) 0 =
      .ok (some (gran.foundAddr i)) := by
    rw [granSearch_eq le _ (by decide), finds.found]
    rfl
  unfold granAlloc
  rw [require_bind_of_pos finds.limit, if_pos finds.size_pos]
  simp only
  rw [require_bind_of_pos finds.count_le, search, ok_bind]
  simp only
  cases granMarkAllocated gran (gran.foundAddr i) (granAllocCount gran.log2gran size) with
  | ok gran' => rfl
  | error fault => rfl

/-- A free run whose offset is an `int` is handed out exactly. -/
theorem GranFinds.exact (finds : GranFinds gran size i) (le : gran.log2gran ≤ 26)
    (fits : gran.Fits (granAllocCount gran.log2gran size) i) (i_lt : i < 2 ^ 32)
    (offset : i * 2 ^ gran.log2gran < 2 ^ 31) : GranExact gran size i := by
  have granno : granNo gran (gran.addr i) = i := granNo_addr i_lt (by omega)
  have addr : gran.foundAddr i = gran.addr i :=
    MmGran.foundAddr_eq (lt_of_le_of_lt (Nat.mul_le_mul_right _ (by omega)) offset)
  obtain ⟨gran', mark, same, bits⟩ := granMarkAllocated_spec granno finds.count_le fits.2
  refine ⟨granno, gran', by rw [finds.granAlloc_eq le, addr, mark]; rfl, bits, fun nonNull => ?_⟩
  have granno' : granNo gran' (gran.addr i) = i := by
    rw [same.granNo, granno]
  have used : ∀ j < granAllocCount gran.log2gran size, gran'.bit (i + j) = true := by
    intro j inRun
    rw [bits, runBit, decide_eq_true ⟨by omega, by omega⟩, Bool.or_true]
  have limit' : size ≤ granLimit gran'.log2gran := by
    rw [same.log2gran]
    exact finds.limit
  have counted : granFreeCount gran'.log2gran size = granAllocCount gran.log2gran size := by
    rw [same.log2gran]
    exact granFreeCount_eq_alloc le
  obtain ⟨gran'', freed, -, cleared⟩ :=
    granFree_spec nonNull limit' granno' counted finds.count_le used
  refine ⟨gran'', freed, fun j => ?_⟩
  rw [cleared, bits]
  by_cases inRun : i ≤ j ∧ j < i + granAllocCount gran.log2gran size
  · have free := fits.2 (j - i) (by omega)
    rw [show i + (j - i) = j by omega] at free
    rw [runBit, decide_eq_true inRun, free]
    rfl
  · rw [runBit, decide_eq_false inRun, Bool.or_false, Bool.not_false, Bool.and_true]

end Finds

/-! ## Heaps of more than two gigabytes -/

section Overflow

variable (geo : AdmittedHeap)

/-- The first granule whose offset is not an `int`. -/
def AdmittedHeap.beyond : Nat := 2 ^ (31 - geo.log2gran)

/-- A table in which everything up to that granule is taken. -/
def AdmittedHeap.filled : MmGran :=
  geo.heap fun w => if w < (geo.beyond / 32 : Nat) then BitVec.allOnes 32 else 0

variable {geo}

theorem AdmittedHeap.beyond_mul (geo : AdmittedHeap) : geo.beyond * 2 ^ geo.log2gran = 2 ^ 31 := by
  have lt := geo.log2gran_lt
  rw [AdmittedHeap.beyond, ← Nat.pow_add, show 31 - geo.log2gran + geo.log2gran = 31 by omega]

theorem AdmittedHeap.beyond_eq (le : geo.log2gran ≤ 26) :
    geo.beyond = 32 * 2 ^ (26 - geo.log2gran) := by
  rw [AdmittedHeap.beyond, show 31 - geo.log2gran = 5 + (26 - geo.log2gran) by omega, Nat.pow_add]

theorem AdmittedHeap.beyond_lt (geo : AdmittedHeap) : geo.beyond < 2 ^ 31 := by
  have pos := geo.log2gran_pos
  exact Nat.pow_lt_pow_right (by decide) (by omega)

theorem AdmittedHeap.filled_bit (le : geo.log2gran ≤ 26) (j : Nat) :
    geo.filled.bit j = decide (j < geo.beyond) := by
  have words := geo.beyond_eq le
  simp only [MmGran.bit, AdmittedHeap.filled, AdmittedHeap.heap, Nat.cast_lt]
  split
  · next low =>
    rw [BitVec.getLsbD_allOnes, decide_eq_decide]
    omega
  · next high =>
    rw [show (0 : BitVec 32) = 0#32 from rfl, BitVec.getLsbD_zero, eq_comm, decide_eq_false_iff_not]
    omega

/-- In the heap that is filled up to the first granule which overflows, the search for one granule
goes on to that one. -/
theorem AdmittedHeap.filled_finds (le : geo.log2gran ≤ 26) (more : geo.beyond < geo.ngranules) :
    GranFinds geo.filled 1 geo.beyond := by
  have unit : 0 < 2 ^ geo.log2gran := Nat.two_pow_pos _
  obtain ⟨pos, count_le⟩ := granAllocCount_le (k := 1) le Nat.one_pos (by omega) (by decide)
  have one : granAllocCount geo.log2gran 1 = 1 := by omega
  have first : geo.filled.FirstFit 1 0 geo.ngranules (some geo.beyond) := by
    refine ⟨Nat.zero_le _, more, ⟨more, fun j inRun => ?_⟩, fun j _ before => ?_⟩
    · rw [geo.filled_bit le, decide_eq_false (by omega)]
    · exact MmGran.not_fits_of_bit Nat.one_pos (by rw [geo.filled_bit le, decide_eq_true before])
  have limit := granLimit_of_le le
  refine ⟨?_, Nat.one_pos, ?_, ?_, ?_⟩
  · show 1 ≤ granLimit geo.log2gran
    omega
  · exact pos
  · show granAllocCount geo.log2gran 1 ≤ 32
    omega
  · show granSearchRun geo.filled (granAllocCount geo.log2gran 1) _ 0 = _
    rw [one]
    exact granSearchRun_found Nat.one_pos (by decide) geo.beyond_lt first

/-- The first granule which overflows is not handed out under its own address. -/
theorem AdmittedHeap.filled_not_exact (le : geo.log2gran ≤ 26)
    (more : geo.beyond < geo.ngranules) : ¬ GranExact geo.filled 1 geo.beyond := by
  intro isExact
  obtain ⟨gran', run, -⟩ := isExact.alloc
  rw [(AdmittedHeap.filled_finds le more).granAlloc_eq le] at run
  have offset := geo.offset_lt (i := geo.beyond) (by have lt := geo.beyond_lt; omega)
  have words := geo.beyond_eq le
  have aligned : geo.beyond / 32 * 32 = geo.beyond := by omega
  have addr : geo.filled.foundAddr geo.beyond = geo.filled.addr geo.beyond := by
    cases mark : granMarkAllocated geo.filled (geo.filled.foundAddr geo.beyond)
        (granAllocCount geo.filled.log2gran 1) with
    | error fault =>
      rw [mark] at run
      cases run
    | ok marked =>
      rw [mark] at run
      exact (Prod.mk.inj (Except.ok.inj run)).1
  rw [MmGran.foundAddr_eq_iff offset, aligned] at addr
  have reached := geo.beyond_mul
  change geo.beyond * 2 ^ geo.log2gran < 2 ^ 31 at addr
  omega

end Overflow

/-- The addresses of an admitted heap are exact, whatever its table holds, iff the heap has at
most `2 ^ 31` bytes, or granules so large that `gran_alloc` refuses every request. -/
theorem granule_addresses_exact_iff (geo : AdmittedHeap) :
    (∀ gat size i, GranFinds (geo.heap gat) size i → GranExact (geo.heap gat) size i) ↔
      geo.ngranules * 2 ^ geo.log2gran ≤ 2 ^ 31 ∨ 27 ≤ geo.log2gran := by
  have unit : 0 < 2 ^ geo.log2gran := Nat.two_pow_pos _
  constructor
  · intro allExact
    by_contra neither
    push Not at neither
    obtain ⟨large, small⟩ := neither
    have more : geo.beyond < geo.ngranules := by
      have reached := geo.beyond_mul
      exact Nat.lt_of_mul_lt_mul_right (reached.trans_lt large)
    exact AdmittedHeap.filled_not_exact (by omega) more
      (allExact _ 1 geo.beyond (AdmittedHeap.filled_finds (by omega) more))
  · intro cond gat size i finds
    have le := finds.log2gran_le geo.log2gran_lt
    have span : geo.ngranules * 2 ^ geo.log2gran ≤ 2 ^ 31 := by
      rcases cond with span | large
      · exact span
      · change geo.log2gran ≤ 26 at le
        omega
    have few : geo.ngranules * 1 ≤ geo.ngranules * 2 ^ geo.log2gran :=
      Nat.mul_le_mul_left _ unit
    have count : (geo.heap gat).ngranules ≤ 2 ^ 31 := by
      show geo.ngranules ≤ 2 ^ 31
      omega
    obtain ⟨result, first, run⟩ := granSearchRun_firstFit finds.count_pos finds.count_le count
    rw [finds.found] at run
    cases run
    obtain ⟨-, below, fits, -⟩ := first
    change i < geo.ngranules at below
    have offset : i * 2 ^ geo.log2gran < geo.ngranules * 2 ^ geo.log2gran :=
      Nat.mul_lt_mul_of_pos_right below unit
    exact finds.exact le fits (by omega) (lt_of_lt_of_le offset span)

/-- A heap of 33 granules of 64 MiB, the last of which starts 2 GiB into it. -/
def bigGranules : AdmittedHeap where
  log2gran := 26
  ngranules := 33
  heapstart := 2 ^ 32
  log2gran_pos := by decide
  log2gran_lt := by decide
  ngranules_lt := by decide
  heapstart_lt := by decide

/-- After one allocation of 32 granules the next one is granule 32. It is handed out below the
heap, and taken for a granule that does not exist. -/
theorem bigGranules_below_heap :
    Returns (granAlloc (bigGranules.heap fun _ => 0) (2 ^ 31)) fun first =>
      first.1 = 2 ^ 32 ∧
      granSearchRun first.2 (granAllocCount 26 1) (sizeofGat 33) 0 = .ok (some 32) ∧
      first.2.addr 32 = 2 ^ 32 + 2 ^ 31 ∧
      Returns (granAlloc first.2 1) fun second =>
        second.1 = 2 ^ 32 - 2 ^ 31 ∧ granNo second.2 second.1 = 2 ^ 32 - 32 := by
  decide +kernel

end Chinos
