import Chinos.Gran.Mark

/-!
# Runs of the granule heap

A run starts from an all-zero table and makes `granAlloc` calls of at most 32
granules and `granFree` calls of live allocations. The invariant `HeapInv` ties
the table to the list of live allocations; it holds in every state reached, and
no assertion fails on the way, exactly when the limit `32 * (1 << log2gran)` that
both functions compare sizes with does not overflow to zero.
-/

namespace Chinos

/-- The fixed fields of a granule heap. `gran_initialize` asserts the bound on
`log2gran` and a non-null start; the heap lies inside the address space and
spans less than `2 ^ 31` bytes, as the heap of `mm_initialize` does. -/
structure GranGeometry where
  log2gran : Nat
  ngranules : Nat
  heapstart : Nat
  log2gran_lt : log2gran < 32
  heapstart_pos : 0 < heapstart
  heap_le : heapstart + ngranules * 2 ^ log2gran ≤ 2 ^ 64
  span_lt : ngranules * 2 ^ log2gran < 2 ^ 31

/-- `gran` is a heap of geometry `geo`, with any contents of its table. -/
structure MmGran.HasGeometry (gran : MmGran) (geo : GranGeometry) : Prop where
  log2gran : gran.log2gran = geo.log2gran
  ngranules : gran.ngranules = geo.ngranules
  heapstart : gran.heapstart = geo.heapstart

theorem MmGran.HasGeometry.of_sameShape {gran gran' : MmGran} {geo : GranGeometry}
    (has : gran.HasGeometry geo) (same : gran.SameShape gran') : gran'.HasGeometry geo :=
  ⟨same.log2gran.trans has.log2gran, same.ngranules.trans has.ngranules,
    same.heapstart.trans has.heapstart⟩

/-- An allocation handed out by `gran_alloc`: its address and requested size. -/
structure Block where
  addr : Nat
  size : Nat
  deriving DecidableEq

/-- The heap, together with the allocations that are live. -/
structure HeapState where
  gran : MmGran
  live : List Block

namespace GranGeometry

variable (geo : GranGeometry)

/-- The size of a granule in bytes. -/
def granule : Nat := 2 ^ geo.log2gran

/-- The number of granules of an allocation of `size` bytes. -/
def count (size : Nat) : Nat := (size + (geo.granule - 1)) / geo.granule

/-- The number of the granule that an address of the heap lies in. -/
def index (addr : Nat) : Nat := (addr - geo.heapstart) / geo.granule

/-- Granule `i` is one of those that the allocation takes up. -/
def Owns (block : Block) (i : Nat) : Prop :=
  geo.index block.addr ≤ i ∧ i < geo.index block.addr + geo.count block.size

/-- A request that callers make of `gran_alloc`: it is not empty, and takes 32 granules at
most. -/
def Request (size : Nat) : Prop := 0 < size ∧ size ≤ 32 * geo.granule

end GranGeometry

/-- The states reached from an all-zero table. A null result leaves the list of
live allocations as it is. -/
inductive HeapReach (geo : GranGeometry) : HeapState → Prop
  | init {gran : MmGran} :
    gran.HasGeometry geo → (∀ i, gran.bit i = false) → HeapReach geo ⟨gran, []⟩
  | alloc {s : HeapState} {size addr : Nat} {gran' : MmGran} :
    HeapReach geo s → geo.Request size → granAlloc s.gran size = .ok (addr, gran') →
    HeapReach geo ⟨gran', if addr = 0 then s.live else ⟨addr, size⟩ :: s.live⟩
  | free {s : HeapState} {block : Block} {gran' : MmGran} :
    HeapReach geo s → block ∈ s.live → granFree s.gran block.addr block.size = .ok gran' →
    HeapReach geo ⟨gran', s.live.erase block⟩

/-- The working invariant: the table is the union of the live allocations, which
are runs of whole granules inside the heap and share no granule. -/
structure HeapInv (geo : GranGeometry) (s : HeapState) : Prop where
  geometry : s.gran.HasGeometry geo
  bit_iff : ∀ i, s.gran.bit i = true ↔ ∃ block ∈ s.live, geo.Owns block i
  start : ∀ block ∈ s.live, block.addr = geo.heapstart + geo.index block.addr * geo.granule
  room : ∀ block ∈ s.live, geo.index block.addr + geo.count block.size ≤ geo.ngranules
  request : ∀ block ∈ s.live, geo.Request block.size
  disjoint : s.live.Pairwise fun a b => ∀ i, ¬ (geo.Owns a i ∧ geo.Owns b i)

/-! ## The size arithmetic -/

theorem granLimit_of_le {l : Nat} (le : l ≤ 26) : 32 * 2 ^ l ≤ granLimit l := by
  interval_cases l <;> decide

/-- From `log2gran` 27 on the limit overflows to zero. -/
theorem granLimit_eq_zero {l : Nat} (ge : 27 ≤ l) (lt : l < 32) : granLimit l = 0 := by
  interval_cases l <;> decide

theorem two_pow_le_of_le {l : Nat} (le : l ≤ 26) : 2 ^ l ≤ 67108864 :=
  Nat.pow_le_pow_right (n := 2) (by decide) le

theorem cInt_two_pow_sub_one {l : Nat} (le : l ≤ 26) :
    cInt (cInt (2 ^ l) - 1) = (2 ^ l - 1 : Nat) := by
  have bound := two_pow_le_of_le le
  have pos : 0 < 2 ^ l := Nat.two_pow_pos l
  have cast : (2 ^ l : Int) = (2 ^ l : Nat) := by push_cast; rfl
  rw [cast]
  generalize 2 ^ l = p at *
  rw [cInt_natCast (by omega), show (p : Int) - 1 = (p - 1 : Nat) by omega,
    cInt_natCast (by omega)]

section Counts

variable {geo : GranGeometry} {size : Nat}

theorem GranGeometry.granule_pos (geo : GranGeometry) : 0 < geo.granule := Nat.two_pow_pos _

theorem GranGeometry.count_pos (request : geo.Request size) : 0 < geo.count size := by
  have pos := geo.granule_pos
  obtain ⟨nonzero, _⟩ := request
  exact Nat.div_pos (by omega) pos

theorem GranGeometry.count_le (request : geo.Request size) : geo.count size ≤ 32 := by
  have pos := geo.granule_pos
  obtain ⟨_, le⟩ := request
  unfold GranGeometry.count
  have lt : (size + (geo.granule - 1)) / geo.granule < 33 := by
    rw [Nat.div_lt_iff_lt_mul pos]
    omega
  omega

/-- The bytes that are asked for fit in the granules that are counted for them. -/
theorem GranGeometry.size_le_count (geo : GranGeometry) (size : Nat) :
    size ≤ geo.count size * geo.granule := by
  have pos := geo.granule_pos
  unfold GranGeometry.count
  have rem := Nat.div_add_mod (size + (geo.granule - 1)) geo.granule
  have lt := Nat.mod_lt (size + (geo.granule - 1)) pos
  rw [Nat.mul_comm]
  omega

theorem granCount_eq (le : geo.log2gran ≤ 26) (request : geo.Request size) :
    cU32 (cU64 (size + (2 ^ geo.log2gran - 1 : Nat)) >>> geo.log2gran : Nat) =
      geo.count size := by
  have bound := two_pow_le_of_le le
  have small := GranGeometry.count_le request
  obtain ⟨_, limit⟩ := request
  unfold GranGeometry.granule at limit
  rw [show (size + (2 ^ geo.log2gran - 1 : Nat) : Int) = (size + (2 ^ geo.log2gran - 1) : Nat) by
    push_cast; rfl, cU64_natCast (by omega), Nat.shiftRight_eq_div_pow]
  exact cU32_natCast (lt_of_le_of_lt small (by decide))

theorem granAllocCount_eq (le : geo.log2gran ≤ 26) (request : geo.Request size) :
    granAllocCount geo.log2gran size = geo.count size := by
  have bound := two_pow_le_of_le le
  rw [granAllocCount, cInt_two_pow_sub_one le, cU64_natCast (by omega)]
  exact granCount_eq le request

theorem granFreeCount_eq (le : geo.log2gran ≤ 26) (request : geo.Request size) :
    granFreeCount geo.log2gran size = geo.count size := by
  have bound := two_pow_le_of_le le
  rw [granFreeCount, cInt_two_pow_sub_one le,
    cU32_natCast (n := 2 ^ geo.log2gran - 1) (by omega)]
  exact granCount_eq le request

end Counts

/-! ## One operation -/

section Operations

variable {geo : GranGeometry} {gran : MmGran} {size i : Nat}

theorem MmGran.HasGeometry.small (has : gran.HasGeometry geo) (le : geo.log2gran ≤ 26) :
    gran.Small where
  span := by rw [has.ngranules, has.log2gran]; exact geo.span_lt
  log2gran_le := by rw [has.log2gran]; exact le

theorem GranGeometry.ngranules_lt (geo : GranGeometry) : geo.ngranules < 2 ^ 31 := by
  have span := geo.span_lt
  have le : geo.ngranules * 1 ≤ geo.ngranules * 2 ^ geo.log2gran :=
    Nat.mul_le_mul_left _ (Nat.two_pow_pos _)
  omega

/-- The end of a run of whole granules inside the heap is in the address space. -/
theorem GranGeometry.addr_le (geo : GranGeometry) (le : i ≤ geo.ngranules) :
    geo.heapstart + i * geo.granule ≤ 2 ^ 64 := by
  have heap := geo.heap_le
  have mul : i * geo.granule ≤ geo.ngranules * geo.granule := Nat.mul_le_mul_right _ le
  unfold GranGeometry.granule at mul ⊢
  omega

theorem MmGran.HasGeometry.addr_eq (has : gran.HasGeometry geo) (lt : i < geo.ngranules) :
    gran.addr i = geo.heapstart + i * geo.granule := by
  have pos := geo.granule_pos
  have next := geo.addr_le (i := i + 1) lt
  rw [Nat.add_mul, Nat.one_mul] at next
  unfold MmGran.addr
  rw [has.heapstart, has.log2gran]
  rw [show (geo.heapstart + i * 2 ^ geo.log2gran : Int) =
    (geo.heapstart + i * geo.granule : Nat) by unfold GranGeometry.granule; push_cast; rfl]
  exact cU64_natCast (by omega)

theorem GranGeometry.index_addr (geo : GranGeometry) (i : Nat) :
    geo.index (geo.heapstart + i * geo.granule) = i := by
  unfold GranGeometry.index
  rw [Nat.add_sub_cancel_left, Nat.mul_div_cancel _ geo.granule_pos]

theorem MmGran.HasGeometry.granNo_addr (has : gran.HasGeometry geo) (lt : i < geo.ngranules) :
    granNo gran (geo.heapstart + i * geo.granule) = i := by
  have bound := geo.ngranules_lt
  have le := geo.addr_le (i := i) (by omega)
  have start := geo.heapstart_pos
  rw [← has.addr_eq lt]
  apply Chinos.granNo_addr (by omega)
  rw [has.log2gran]
  unfold GranGeometry.granule at le
  omega

/-- `gran_alloc` is first fit: it returns null and changes nothing when no run
fits, and otherwise marks and returns the lowest one. -/
theorem granAlloc_spec (has : gran.HasGeometry geo) (le : geo.log2gran ≤ 26)
    (request : geo.Request size) :
    (granAlloc gran size = .ok (0, gran) ∧ ∀ i, ¬ gran.Fits (geo.count size) i) ∨
      ∃ i gran', granAlloc gran size = .ok (geo.heapstart + i * geo.granule, gran') ∧
        gran.Fits (geo.count size) i ∧ (∀ j < i, ¬ gran.Fits (geo.count size) j) ∧
        gran.SameShape gran' ∧ ∀ j, gran'.bit j = (gran.bit j || runBit i (geo.count size) j) := by
  have pos := GranGeometry.count_pos request
  have count_le := GranGeometry.count_le request
  have limit : size ≤ granLimit gran.log2gran := by
    rw [has.log2gran]
    exact request.2.trans (granLimit_of_le le)
  have counted : granAllocCount gran.log2gran size = geo.count size := by
    rw [has.log2gran]
    exact granAllocCount_eq le request
  obtain ⟨result, first, run⟩ := granSearch_firstFit (has.small le) pos count_le
  unfold granAlloc
  rw [require_bind_of_pos limit]
  simp only [request.1, if_true, counted]
  rw [require_bind_of_pos count_le, run]
  cases result with
  | none =>
    refine Or.inl ⟨rfl, fun i fits => ?_⟩
    have room := fits.1
    exact first i (by omega) (by omega) fits
  | some i =>
    obtain ⟨_, below, fits, least⟩ := first
    rw [has.ngranules] at below
    obtain ⟨gran', mark, same, bits⟩ :=
      granMarkAllocated_spec (has.granNo_addr below) count_le fits.2
    refine Or.inr ⟨i, gran', ?_, fits, fun j lt => least j (by omega) lt, same, bits⟩
    simp only [Option.map_some, bind, Except.bind, has.addr_eq below, mark, pure, Except.pure]

/-- A live run is freed without a failing assertion. -/
theorem granFree_owned (has : gran.HasGeometry geo) (le : geo.log2gran ≤ 26) {block : Block}
    (request : geo.Request block.size)
    (start : block.addr = geo.heapstart + geo.index block.addr * geo.granule)
    (room : geo.index block.addr + geo.count block.size ≤ geo.ngranules)
    (used : ∀ i, geo.Owns block i → gran.bit i = true) :
    ∃ gran', granFree gran block.addr block.size = .ok gran' ∧ gran.SameShape gran' ∧
      ∀ j, gran'.bit j =
        (gran.bit j && !runBit (geo.index block.addr) (geo.count block.size) j) := by
  have pos := GranGeometry.count_pos request
  have heapPos := geo.heapstart_pos
  have limit : block.size ≤ granLimit gran.log2gran := by
    rw [has.log2gran]
    exact request.2.trans (granLimit_of_le le)
  have granno : granNo gran block.addr = geo.index block.addr := by
    have at_index := has.granNo_addr (i := geo.index block.addr) (by omega)
    rwa [← start] at at_index
  have counted : granFreeCount gran.log2gran block.size = geo.count block.size := by
    rw [has.log2gran]
    exact granFreeCount_eq le request
  exact granFree_spec (by omega) limit granno counted (GranGeometry.count_le request)
    fun j inRun => used _ ⟨by omega, by omega⟩

end Operations

/-! ## Runs -/

section Runs

variable {geo : GranGeometry} {s : HeapState}

theorem HeapInv.init {gran : MmGran} (has : gran.HasGeometry geo)
    (zero : ∀ i, gran.bit i = false) : HeapInv geo ⟨gran, []⟩ where
  geometry := has
  bit_iff i := by simp [zero i]
  start := by simp
  room := by simp
  request := by simp
  disjoint := .nil

/-- Marking a free run and recording it keeps the invariant. -/
theorem HeapInv.insert (inv : HeapInv geo s) {size i : Nat} {gran' : MmGran}
    (request : geo.Request size) (fits : s.gran.Fits (geo.count size) i)
    (same : s.gran.SameShape gran')
    (bits : ∀ j, gran'.bit j = (s.gran.bit j || runBit i (geo.count size) j)) :
    HeapInv geo ⟨gran', ⟨geo.heapstart + i * geo.granule, size⟩ :: s.live⟩ := by
  have owns : ∀ j, geo.Owns ⟨geo.heapstart + i * geo.granule, size⟩ j ↔
      i ≤ j ∧ j < i + geo.count size := by
    intro j
    simp only [GranGeometry.Owns, geo.index_addr]
  have room := fits.1
  rw [inv.geometry.ngranules] at room
  constructor
  · exact inv.geometry.of_sameShape same
  · intro j
    rw [bits, Bool.or_eq_true, inv.bit_iff, runBit, decide_eq_true_eq]
    simp only [List.mem_cons, exists_eq_or_imp, owns]
    exact or_comm
  · intro block mem
    rcases List.mem_cons.mp mem with rfl | old
    · simp only [geo.index_addr]
    · exact inv.start block old
  · intro block mem
    rcases List.mem_cons.mp mem with rfl | old
    · simp only [geo.index_addr]
      exact room
    · exact inv.room block old
  · intro block mem
    rcases List.mem_cons.mp mem with rfl | old
    · exact request
    · exact inv.request block old
  · refine List.pairwise_cons.mpr ⟨fun block old j both => ?_, inv.disjoint⟩
    -- a granule of the new run was free, so no older allocation owns it
    obtain ⟨new, owned⟩ := both
    rw [owns] at new
    have used := (inv.bit_iff j).mpr ⟨block, old, owned⟩
    have free := fits.2 (j - i) (by omega)
    rw [show i + (j - i) = j by omega, used] at free
    cases free

theorem HeapInv.alloc (inv : HeapInv geo s) (le : geo.log2gran ≤ 26) {size addr : Nat}
    {gran' : MmGran} (request : geo.Request size)
    (run : granAlloc s.gran size = .ok (addr, gran')) :
    HeapInv geo ⟨gran', if addr = 0 then s.live else ⟨addr, size⟩ :: s.live⟩ := by
  rcases granAlloc_spec inv.geometry le request with
    ⟨null, _⟩ | ⟨i, marked, found, fits, _, same, bits⟩
  · rw [null] at run
    cases run
    exact inv
  · rw [found] at run
    cases run
    have start := geo.heapstart_pos
    rw [if_neg (by omega)]
    exact inv.insert request fits same bits

theorem HeapInv.free (inv : HeapInv geo s) (le : geo.log2gran ≤ 26) {block : Block}
    {gran' : MmGran} (live : block ∈ s.live)
    (run : granFree s.gran block.addr block.size = .ok gran') :
    HeapInv geo ⟨gran', s.live.erase block⟩ := by
  obtain ⟨cleared, freed, same, bits⟩ := granFree_owned inv.geometry le (inv.request block live)
    (inv.start block live) (inv.room block live)
    (fun i owned => (inv.bit_iff i).mpr ⟨block, live, owned⟩)
  rw [freed] at run
  cases run
  have perm : s.live.Perm (block :: s.live.erase block) := List.perm_cons_erase live
  have pairwise := (perm.pairwise_iff
    (fun {a b} apart i both => apart i ⟨both.2, both.1⟩)).mp inv.disjoint
  obtain ⟨apart, rest⟩ := List.pairwise_cons.mp pairwise
  have old : ∀ other ∈ s.live.erase block, other ∈ s.live := fun _ mem => List.mem_of_mem_erase mem
  constructor
  · exact inv.geometry.of_sameShape same
  · intro j
    rw [bits, Bool.and_eq_true, inv.bit_iff]
    simp only [runBit, Bool.not_eq_true', decide_eq_false_iff_not]
    constructor
    · rintro ⟨⟨other, mem, owned⟩, outside⟩
      rcases List.mem_cons.mp (perm.mem_iff.mp mem) with rfl | kept
      · exact absurd owned outside
      · exact ⟨other, kept, owned⟩
    · rintro ⟨other, kept, owned⟩
      exact ⟨⟨other, old other kept, owned⟩, fun inside => apart other kept j ⟨inside, owned⟩⟩
  · exact fun other kept => inv.start other (old other kept)
  · exact fun other kept => inv.room other (old other kept)
  · exact fun other kept => inv.request other (old other kept)
  · exact rest

/-- Every state that calls lead to satisfies the invariant, for granules of at most 64 MiB. -/
theorem HeapReach.inv (le : geo.log2gran ≤ 26) (reach : HeapReach geo s) : HeapInv geo s := by
  induction reach with
  | init has zero => exact .init has zero
  | alloc _ request run ih => exact ih.alloc le request run
  | free _ live run ih => exact ih.free le live run

/-- Intervals below `n` that do not overlap have no more than `n` elements together. -/
theorem sum_length_le {α : Type} {l : List α} {start length : α → Nat} {n : Nat}
    (below : ∀ a ∈ l, start a + length a ≤ n)
    (disjoint : l.Pairwise fun a b => ∀ i, ¬ ((start a ≤ i ∧ i < start a + length a) ∧
      start b ≤ i ∧ i < start b + length b)) : (l.map length).sum ≤ n := by
  have union : ∃ u : Finset Nat, u.card = (l.map length).sum ∧
      ∀ i ∈ u, ∃ a ∈ l, start a ≤ i ∧ i < start a + length a := by
    induction l with
    | nil => exact ⟨∅, rfl, by simp⟩
    | cons a l ih =>
      obtain ⟨apart, rest⟩ := List.pairwise_cons.mp disjoint
      obtain ⟨u, card, mem⟩ := ih (fun b inside => below b (.tail _ inside)) rest
      have separate : Disjoint (Finset.Ico (start a) (start a + length a)) u := by
        rw [Finset.disjoint_left]
        intro i inA inU
        obtain ⟨b, inside, owned⟩ := mem i inU
        exact apart b inside i ⟨Finset.mem_Ico.mp inA, owned⟩
      refine ⟨Finset.Ico (start a) (start a + length a) ∪ u, ?_, fun i inside => ?_⟩
      · rw [Finset.card_union_of_disjoint separate, Nat.card_Ico, card, List.map_cons,
          List.sum_cons, Nat.add_sub_cancel_left]
      · rcases Finset.mem_union.mp inside with inA | inU
        · exact ⟨a, .head _, Finset.mem_Ico.mp inA⟩
        · obtain ⟨b, inL, owned⟩ := mem i inU
          exact ⟨b, .tail _ inL, owned⟩
  obtain ⟨u, card, mem⟩ := union
  have inside : u ⊆ Finset.range n := by
    intro i inU
    obtain ⟨a, inL, -, less⟩ := mem i inU
    exact Finset.mem_range.mpr (less.trans_le (below a inL))
  have le := Finset.card_le_card inside
  rwa [card, Finset.card_range] at le

/-- The live allocations have no more bytes than the heap. -/
theorem HeapInv.sum_size_lt (inv : HeapInv geo s) : (s.live.map Block.size).sum < 2 ^ 31 := by
  have counts : (s.live.map fun b => geo.count b.size).sum ≤ geo.ngranules :=
    sum_length_le inv.room inv.disjoint
  have sizes : (s.live.map Block.size).sum ≤
      (s.live.map fun b => geo.count b.size * geo.granule).sum := by
    refine List.sum_le_sum fun b _ => ?_
    have pos : 0 < geo.granule := Nat.two_pow_pos _
    have ceil := Nat.lt_div_mul_add (a := b.size + (geo.granule - 1)) pos
    unfold GranGeometry.count
    omega
  have scale : (s.live.map fun b => geo.count b.size * geo.granule).sum ≤
      geo.ngranules * 2 ^ geo.log2gran := by
    rw [List.sum_map_mul_right]
    exact Nat.mul_le_mul_right _ counts
  exact (sizes.trans scale).trans_lt geo.span_lt

end Runs

/-! ## What the invariant says about addresses -/

/-- The byte at `x` belongs to the granules of the allocation. -/
def GranGeometry.Covers (geo : GranGeometry) (block : Block) (x : Nat) : Prop :=
  block.addr ≤ x ∧ x < block.addr + geo.count block.size * geo.granule

/-- The allocator's guarantee in one state: the table records exactly the live
granules and nothing past the heap, live allocations start on a granule, lie
inside the heap and share no byte, and the next operation fails no assertion. -/
structure HeapSafe (geo : GranGeometry) (s : HeapState) : Prop where
  bit_iff : ∀ i, s.gran.bit i = true ↔ ∃ block ∈ s.live, geo.Owns block i
  bit_lt : ∀ i, s.gran.bit i = true → i < geo.ngranules
  placed : ∀ block ∈ s.live, ∃ k, block.addr = geo.heapstart + k * geo.granule ∧
    block.size ≤ geo.count block.size * geo.granule ∧
    block.addr + geo.count block.size * geo.granule ≤
      geo.heapstart + geo.ngranules * geo.granule
  disjoint : s.live.Pairwise fun a b => ∀ x, ¬ (geo.Covers a x ∧ geo.Covers b x)
  alloc_ok : ∀ size, geo.Request size → ∃ result, granAlloc s.gran size = .ok result
  free_ok : ∀ block ∈ s.live, ∃ gran', granFree s.gran block.addr block.size = .ok gran'

section Safe

variable {geo : GranGeometry} {s : HeapState}

/-- A byte of an allocation lies in a granule that the allocation owns. -/
theorem GranGeometry.owns_of_covers {block : Block} {x : Nat}
    (start : block.addr = geo.heapstart + geo.index block.addr * geo.granule)
    (covers : geo.Covers block x) : geo.Owns block (geo.index x) := by
  have pos := geo.granule_pos
  obtain ⟨low, high⟩ := covers
  rw [start] at low high
  constructor
  · exact (Nat.le_div_iff_mul_le pos).mpr (by omega)
  · refine (Nat.div_lt_iff_lt_mul pos).mpr ?_
    rw [Nat.add_mul]
    omega

theorem HeapInv.safe (inv : HeapInv geo s) (le : geo.log2gran ≤ 26) : HeapSafe geo s where
  bit_iff := inv.bit_iff
  bit_lt i used := by
    obtain ⟨block, live, owned⟩ := (inv.bit_iff i).mp used
    exact lt_of_lt_of_le owned.2 (inv.room block live)
  placed block live := by
    refine ⟨geo.index block.addr, inv.start block live, geo.size_le_count block.size, ?_⟩
    have room := Nat.mul_le_mul_right geo.granule (inv.room block live)
    rw [Nat.add_mul] at room
    have start := inv.start block live
    omega
  disjoint := inv.disjoint.imp_of_mem fun liveA liveB apart x both =>
    apart (geo.index x) ⟨geo.owns_of_covers (inv.start _ liveA) both.1,
      geo.owns_of_covers (inv.start _ liveB) both.2⟩
  alloc_ok size request := by
    rcases granAlloc_spec inv.geometry le request with ⟨null, _⟩ | ⟨i, marked, found, _⟩
    · exact ⟨_, null⟩
    · exact ⟨_, found⟩
  free_ok block live := by
    obtain ⟨cleared, freed, _⟩ := granFree_owned inv.geometry le (inv.request block live)
      (inv.start block live) (inv.room block live)
      (fun i owned => (inv.bit_iff i).mpr ⟨block, live, owned⟩)
    exact ⟨cleared, freed⟩

end Safe

/-- The table that `gran_initialize` starts from: no granule is taken. -/
def GranGeometry.emptyHeap (geo : GranGeometry) : MmGran :=
  ⟨geo.log2gran, geo.ngranules, geo.heapstart, fun _ => 0⟩

theorem GranGeometry.reach_emptyHeap (geo : GranGeometry) :
    HeapReach geo ⟨geo.emptyHeap, []⟩ :=
  .init ⟨rfl, rfl, rfl⟩ fun i => by simp [MmGran.bit, GranGeometry.emptyHeap]

/-- Every state of every run is safe exactly when a granule has at most `2 ^ 26`
bytes. With larger granules `32 * (1 << log2gran)` wraps to zero, and the first
request already fails the size assertion. -/
theorem heapSafe_iff_log2gran_le (geo : GranGeometry) :
    (∀ s, HeapReach geo s → HeapSafe geo s) ↔ geo.log2gran ≤ 26 := by
  constructor
  · intro safe
    by_contra large
    have zero := granLimit_eq_zero (l := geo.log2gran) (by omega) geo.log2gran_lt
    obtain ⟨result, run⟩ := (safe _ geo.reach_emptyHeap).alloc_ok 1
      ⟨by decide, by have := geo.granule_pos; omega⟩
    obtain ⟨limit, _⟩ := of_require_bind_ok run
    rw [show geo.emptyHeap.log2gran = geo.log2gran from rfl, zero] at limit
    omega
  · intro le s reach
    exact (reach.inv le).safe le

/-- A heap of one granule of 128 MiB, for which the limit on the size of a request is 0. -/
def hugeGranule : GranGeometry :=
  ⟨27, 1, 4096, by decide, by decide, by decide, by decide⟩

/-- On a heap of one 128 MiB granule the request of a single byte stops at the
size assertion. -/
theorem hugeGranule_not_safe :
    hugeGranule.Request 1 ∧ granAlloc hugeGranule.emptyHeap 1 = .error .assertion ∧
      ¬ ∀ s, HeapReach hugeGranule s → HeapSafe hugeGranule s := by
  have request : hugeGranule.Request 1 := ⟨by decide, by decide⟩
  have stops : granAlloc hugeGranule.emptyHeap 1 = .error .assertion := by
    rw [granAlloc, require_bind_of_neg (by decide)]
  refine ⟨request, stops, fun safe => ?_⟩
  obtain ⟨result, run⟩ := (safe _ hugeGranule.reach_emptyHeap).alloc_ok 1 request
  rw [stops] at run
  cases run

/-! ## First fit -/

/-- What an exact first-fit search for `size` bytes answers on a table with any
contents: null iff no long enough run of granules is free, and otherwise the lowest
such run, whose bits it sets and no others. -/
structure FirstFitAlloc (geo : GranGeometry) (gran : MmGran) (size addr : Nat) (gran' : MmGran) :
    Prop where
  null_iff : addr = 0 ↔ ∀ i, ¬ gran.Fits (geo.count size) i
  null_same : addr = 0 → gran' = gran
  lowest : ∀ i, gran.Fits (geo.count size) i → (∀ j < i, ¬ gran.Fits (geo.count size) j) →
    addr = geo.heapstart + i * geo.granule ∧
      ∀ j, gran'.bit j = (gran.bit j || runBit i (geo.count size) j)
  shape : gran.SameShape gran'

section FirstFit

variable {geo : GranGeometry} {gran : MmGran} {size : Nat}

theorem granAlloc_of_large (has : gran.HasGeometry geo) (request : geo.Request size)
    (large : 27 ≤ geo.log2gran) : granAlloc gran size = .error .assertion := by
  have limit : ¬ size ≤ granLimit gran.log2gran := by
    rw [has.log2gran, granLimit_eq_zero large geo.log2gran_lt]
    have pos := request.1
    omega
  rw [granAlloc, require_bind_of_neg limit]

/-- On any table, `gran_alloc` of up to 32 granules is an exact first-fit search iff a
granule has at most `2 ^ 26` bytes; with larger ones it stops at its size assertion. -/
theorem granAlloc_firstFit_iff (has : gran.HasGeometry geo) (request : geo.Request size) :
    (∃ addr gran', granAlloc gran size = .ok (addr, gran') ∧
      FirstFitAlloc geo gran size addr gran') ↔ geo.log2gran ≤ 26 := by
  constructor
  · rintro ⟨addr, gran', run, -⟩
    by_contra large
    rw [granAlloc_of_large has request (by omega)] at run
    cases run
  · intro le
    rcases granAlloc_spec has le request with
      ⟨run, nothing⟩ | ⟨i, gran', run, fits, least, same, bits⟩
    · refine ⟨0, gran, run, ⟨⟨fun _ => nothing, fun _ => rfl⟩, fun _ => rfl, ?_, .refl gran⟩⟩
      intro i fits
      exact absurd fits (nothing i)
    · have start := geo.heapstart_pos
      refine ⟨_, gran', run, ⟨⟨fun null => ?_, fun nothing => ?_⟩, fun null => ?_, ?_, same⟩⟩
      · omega
      · exact absurd fits (nothing i)
      · omega
      · intro j fits' least'
        obtain rfl : i = j := by
          rcases Nat.lt_trichotomy i j with lt | eq | gt
          · exact absurd fits (least' i lt)
          · exact eq
          · exact absurd fits' (least j gt)
        exact ⟨rfl, bits⟩

end FirstFit

/-- A heap of 64 pages, whose table takes two words. -/
def smallHeap : GranGeometry :=
  ⟨12, 64, 4096, by decide, by decide, by decide, by decide⟩

/-- A request of 32 pages on a table whose first word has every second granule taken. -/
theorem smallHeap_firstFit :
    ∃ addr gran', granAlloc (smallHeap.emptyHeap.setGat 0 0x55555555) 131072 = .ok (addr, gran') ∧
      FirstFitAlloc smallHeap (smallHeap.emptyHeap.setGat 0 0x55555555) 131072 addr gran' :=
  (granAlloc_firstFit_iff ⟨rfl, rfl, rfl⟩ ⟨by decide, by decide⟩).mpr (by decide)

/-- In a heap of one free granule of 128 MiB, a request of one byte fits and is refused by the
assertion. -/
theorem hugeGranule_not_firstFit :
    hugeGranule.emptyHeap.Fits (hugeGranule.count 1) 0 ∧
      granAlloc hugeGranule.emptyHeap 1 = .error .assertion := by
  refine ⟨⟨by decide, fun j _ => ?_⟩, ?_⟩
  · simp [MmGran.bit, GranGeometry.emptyHeap]
  · exact granAlloc_of_large ⟨rfl, rfl, rfl⟩ ⟨by decide, by decide⟩ (by decide)

end Chinos
