import Chinos.Paging.Agree

/-!
# Small calls at any address

The kernel maps user memory in pieces of at most 128 KiB, at addresses that may come
from anywhere. A piece never holds a section, so pieces may overlap freely. One that
stays in its 512 GiB window lands there as a whole. One that ends with the address space
lands with its first page alone, since the end is then 0 and every loop goes straight to
it. In all other cases the loop over the PGD passes the end of the table, and the call
does not return.
-/

namespace Chinos

/-- A call that passes the assertions, for at most 128 KiB. -/
structure MapCall.Small (call : MapCall) : Prop extends call.Asserts where
  small : call.size.toNat ≤ 2 ^ 17

/-- The calls that return if there is memory for their tables: the range ends at the end of the
address space, or it stays in its window and clear of the last GiB. -/
def MapCall.Lands (call : MapCall) : Prop :=
  call.stop = 2 ^ 64 ∨ (call.stop ≤ call.base + 2 ^ 39 ∧ call.stop + 2 ^ 30 ≤ 2 ^ 64)

/-- The call that has the effect of `call` and stays in its window. -/
def MapCall.landed (call : MapCall) : MapCall :=
  if call.stop = 2 ^ 64 then
    ⟨BitVec.ofNat 64 (call.vaddr.toNat % 2 ^ 39), call.paddr, pageSize, call.attr⟩
  else call

instance (call : MapCall) : Decidable call.Lands := inferInstanceAs (Decidable (_ ∨ _))

section Small

variable {call earlier : MapCall}

theorem MapCall.stop_eq_add (aligned : call.vaddr.toNat % 2 ^ 12 = 0) :
    call.stop = call.vaddr.toNat + pageUp call.size.toNat := by
  unfold MapCall.stop pageUp
  omega

theorem MapCall.Small.stop_le (small : call.Small) : call.stop ≤ call.vaddr.toNat + 2 ^ 17 := by
  have vAligned := small.vAligned
  have le := small.small
  unfold MapCall.stop pageUp
  omega

theorem MapCall.Small.lt_stop (small : call.Small) : call.vaddr.toNat < call.stop := by
  have pos := small.pos
  unfold MapCall.stop pageUp
  omega

/-- A call for at most 128 KiB asks for no section. -/
theorem MapCall.not_section (le : call.size.toNat ≤ 2 ^ 17) (m : Nat) :
    ¬ call.range.Section m := by
  rintro ⟨low, high, -⟩
  have base := call.base_le
  simp only [MapCall.range, MapCall.stop, pageUp] at low high
  generalize call.base = b at *
  omega

theorem MapCall.sparesSections (le : earlier.size.toNat ≤ 2 ^ 17) :
    earlier.SparesSections call :=
  fun m sect _ => absurd sect (MapCall.not_section le m)

/-- The first offset of the range is the address in its window. -/
theorem MapCall.lo_eq (call : MapCall) : call.range.lo = call.vaddr.toNat % 2 ^ 39 := by
  simp only [MapCall.range, MapCall.base]
  omega

/-- The leaves of a small call: pages one after the other. -/
theorem MapCall.Small.leaf_eq (small : call.Small) (attrOk : AttrOk call.attr)
    (ram : call.paddr.toNat + 2 ^ 17 ≤ 2 ^ 48) {o : Nat} (low : call.range.lo ≤ o)
    (high : o < call.range.hi) :
    call.range.leaf o = ⟨call.paddr.toNat + (o - call.range.lo), descAttr call.attr, 12⟩ := by
  have pAligned := small.pAligned
  have vAligned := small.vAligned
  have start := call.lo_eq
  have stop := small.stop_le
  have span : call.range.hi ≤ call.range.lo + 2 ^ 17 := by
    simp only [MapCall.range]
    omega
  have loAligned : call.range.lo % 2 ^ 12 = 0 := by omega
  have paddr : (call.range.paddrAt (o / 2 ^ 12 * 2 ^ 12)).toNat =
      call.paddr.toNat + (o / 2 ^ 12 * 2 ^ 12 - call.range.lo) := by
    have below : o / 2 ^ 12 * 2 ^ 12 ≤ o := Nat.div_mul_le_self _ _
    unfold MapRange.paddrAt
    change (call.paddr + BitVec.ofNat 64 _).toNat = _
    rw [BitVec.toNat_add, BitVec.toNat_ofNat]
    omega
  have aligned : (call.range.paddrAt (o / 2 ^ 12 * 2 ^ 12)).toNat % 2 ^ 12 = 0 := by
    rw [paddr]
    omega
  have bound : (call.range.paddrAt (o / 2 ^ 12 * 2 ^ 12)).toNat < 2 ^ 48 := by
    have below : o / 2 ^ 12 * 2 ^ 12 ≤ o := Nat.div_mul_le_self _ _
    rw [paddr]
    omega
  have desc := leafDesc_pageDesc aligned bound attrOk
  unfold MapRange.leaf
  rw [if_neg (MapCall.not_section small.small _)]
  change Leaf.ofDesc 12 (pageDesc _ call.attr) o = _
  unfold Leaf.ofDesc
  rw [desc.descAttr_eq, desc.descAddr_eq le_rfl aligned bound, paddr]
  congr 1
  omega

end Small

/-! ## Calls that do not return -/

section Outcomes

variable {A : Type} {view : TableView} {alloc : PtAlloc A} {Good : A → List U64 → Prop}
  {pgd : U64} {tree : Tree} {s s' : PtState A} {call : MapCall}

/-- A loop at the last entry of a table has to reach its end in one step. -/
theorem tableLoop_one_ne_ok {size stop vaddr paddr : U64}
    {body : Nat → U64 → U64 → U64 → PtState A → Except Fault (PtState A)} (going : vaddr ≠ stop)
    (short : nextAddr size vaddr stop ≠ stop) :
    tableLoop size stop body 1 vaddr paddr s ≠ .ok s' := by
  intro run
  unfold tableLoop at run
  rw [if_neg going] at run
  obtain ⟨s₁, -, rest⟩ := of_bind_ok run
  unfold tableLoop at rest
  rw [if_neg short] at rest
  cases rest

/-- The end of the range as the loops see it. -/
theorem MapCall.Small.toNat_stop (small : call.Small) :
    (alignPage (call.vaddr + call.size)).toNat = call.stop % 2 ^ 64 := by
  have vAligned := small.vAligned
  have le := small.small
  have bound := call.vaddr.isLt
  have size : pageSize.toNat = 2 ^ 12 := by decide
  unfold alignPage MapCall.stop pageUp
  rw [BitVec.toNat_mul, BitVec.toNat_udiv, BitVec.toNat_sub, BitVec.toNat_add, BitVec.toNat_add,
    size, show (1 : U64).toNat = 1 from rfl]
  omega

/-- A small call that does not land never returns. -/
theorem MapCall.Small.ne_ok (small : call.Small) (off : ¬ call.Lands) (ne : pgd ≠ 0) :
    ptMapWith view alloc pgd call.vaddr call.paddr call.size call.attr s ≠ .ok s' := by
  have above := small.lt_stop
  have near := small.stop_le
  have toNat_stop := small.toNat_stop
  have low := call.base_le
  have bound := call.vaddr.isLt
  unfold MapCall.Lands at off
  by_cases inside : call.stop ≤ call.base + 2 ^ 39
  · -- the range reaches the last GiB
    have asked := small.asked inside
    have stop_eq : call.base + call.range.hi = call.stop := by
      simp only [MapCall.range]
      omega
    have top : call.base + 2 ^ 39 ≤ 2 ^ 64 := by
      unfold MapCall.base
      omega
    exact ptMapWith_ne_ok asked (by omega) (by omega) ne
  · -- the range crosses the end of its window, which entry 511 stands for
    have window : call.base = call.vaddr.toNat / 2 ^ 39 * 2 ^ 39 := rfl
    have last : tableIndex 30 call.vaddr = 511 := by
      rw [tableIndex_eq]
      omega
    have going : call.vaddr ≠ alignPage (call.vaddr + call.size) := by
      intro same
      have := congrArg BitVec.toNat same
      omega
    rw [ptMapWith_eq ne small.vAligned small.pAligned small.pos small.le, last]
    refine tableLoop_one_ne_ok going ?_
    intro reached
    have reached := congrArg BitVec.toNat reached
    by_cases wrap : call.base + 2 ^ 39 = 2 ^ 64
    · rw [nextAddr_wrap (by omega) (by omega)] at reached
      simp only [BitVec.ofNat_eq_ofNat, BitVec.toNat_ofNat] at reached
      omega
    · rw [nextAddr_eq loopSize_pgdir (by omega), toNat_stop] at reached
      have boundary : (call.vaddr.toNat / 2 ^ 30 + 1) * 2 ^ 30 = call.base + 2 ^ 39 := by omega
      rw [boundary] at reached
      omega

/-! ## Calls that return -/

/-- The last step of the loop over one table. -/
theorem tableLoop_last {size stop vaddr paddr : U64} {left : Nat}
    {body : Nat → U64 → U64 → U64 → PtState A → Except Fault (PtState A)} (going : vaddr ≠ stop)
    (last : nextAddr size vaddr stop = stop) :
    tableLoop size stop body (left + 1) vaddr paddr s = body (511 - left) vaddr stop paddr s := by
  have done : ∀ {paddr' : U64} (s' : PtState A),
      tableLoop size stop body left stop paddr' s' = .ok s' := by
    intro paddr' s'
    cases left with
    | zero => exact if_pos rfl
    | succ left => exact if_pos rfl
  rw [tableLoop, if_neg going]
  simp only [last, done]
  exact bind_pure _

/-- A loop that has one step to go, at the entry of `vaddr`. -/
theorem tableLoop_at {size stop vaddr paddr : U64} {shift : Nat}
    {body : Nat → U64 → U64 → U64 → PtState A → Except Fault (PtState A)} (going : vaddr ≠ stop)
    (last : nextAddr size vaddr stop = stop) :
    tableLoop size stop body (512 - tableIndex shift vaddr) vaddr paddr s =
      body (tableIndex shift vaddr) vaddr stop paddr s := by
  have small : tableIndex shift vaddr < 512 := by
    rw [tableIndex_eq]
    omega
  obtain ⟨left, count⟩ : ∃ left, 512 - tableIndex shift vaddr = left + 1 :=
    ⟨511 - tableIndex shift vaddr, by omega⟩
  rw [count, tableLoop_last going last, show 511 - left = tableIndex shift vaddr by omega]

/-- The stores of one page: the entry of the page, in tables that are linked on the way. -/
def mapPage (view : TableView) (alloc : PtAlloc A) (pgd vaddr paddr attr : U64) (s : PtState A) :
    Except Fault (PtState A) := do
  let (pmd, s) ← descend view alloc s ⟨pgd, tableIndex 30 vaddr⟩
  let (pte, s) ← descend view alloc s ⟨pmd, tableIndex 21 vaddr⟩
  ptStore view s ⟨pte, tableIndex 12 vaddr⟩ (pageDesc paddr attr)

/-- A call all of whose loops go straight to the end maps one page. -/
theorem pgdLoop_eq_mapPage {stop vaddr paddr attr : U64} (going : vaddr ≠ stop)
    (last : ∀ size ∈ [pgdirSize, pmdSize, pageSize], nextAddr size vaddr stop = stop)
    (page : (vaddr ||| stop ||| paddr) &&& (pmdSize - 1) ≠ 0) :
    pgdLoop view alloc pgd stop attr (512 - tableIndex 30 vaddr) vaddr paddr s =
      mapPage view alloc pgd vaddr paddr attr s := by
  unfold pgdLoop mapPage
  rw [tableLoop_at going (last _ (by simp))]
  unfold pmdMapWith pmdLoop
  refine bind_congr fun (pmd, s) => ?_
  simp only
  rw [tableLoop_at going (last _ (by simp)), if_pos page]
  unfold pteMapWith pteLoop
  refine bind_congr fun (pte, s) => ?_
  simp only
  rw [tableLoop_at going (last _ (by simp))]

/-- Where a call that ends with the address space lands. -/
theorem MapCall.toNat_landed (top : call.stop = 2 ^ 64) :
    call.landed.vaddr.toNat = call.vaddr.toNat % 2 ^ 39 ∧ call.landed.size.toNat = 2 ^ 12 ∧
      call.landed.paddr = call.paddr ∧ call.landed.attr = call.attr := by
  unfold MapCall.landed
  rw [if_pos top]
  refine ⟨?_, loopSize_page.toNat, rfl, rfl⟩
  simp only [BitVec.toNat_ofNat]
  omega

theorem MapCall.landed_of_ne (below : call.stop ≠ 2 ^ 64) : call.landed = call := if_neg below

/-- What a call lands with is a small call in its window. -/
theorem MapCall.Small.landed_fits (small : call.Small) (lands : call.Lands) :
    call.landed.Small ∧ call.landed.Fits := by
  have vAligned := small.vAligned
  by_cases top : call.stop = 2 ^ 64
  · obtain ⟨vaddr_eq, size_eq, paddr_eq, -⟩ := MapCall.toNat_landed top
    have asserts : call.landed.Asserts :=
      ⟨by omega, paddr_eq ▸ small.pAligned, by omega, by omega⟩
    have stop_eq := MapCall.stop_eq_add asserts.vAligned
    have page : pageUp call.landed.size.toNat = 2 ^ 12 := by rw [size_eq]; decide
    have below : call.landed.vaddr.toNat < 2 ^ 39 := by omega
    have base : call.landed.base = 0 := by
      unfold MapCall.base
      omega
    exact ⟨⟨asserts, by omega⟩, ⟨asserts, by omega, by omega⟩⟩
  · rw [MapCall.landed_of_ne top]
    rcases lands with impossible | ⟨window, room⟩
    · exact absurd impossible top
    · exact ⟨small, small.toAsserts, window, room⟩

theorem nextAddr_zero (size vaddr : U64) : nextAddr size vaddr 0 = 0 := by
  unfold nextAddr
  exact if_neg (by simp [BitVec.lt_def])

theorem MapCall.Small.ptMapWith_landed (small : call.Small) (ne : pgd ≠ 0) :
    ptMapWith view alloc pgd call.vaddr call.paddr call.size call.attr s =
      ptMapWith view alloc pgd call.landed.vaddr call.landed.paddr call.landed.size
        call.landed.attr s := by
  by_cases top : call.stop = 2 ^ 64
  · obtain ⟨vaddr_eq, size_eq, paddr_eq, attr_eq⟩ := MapCall.toNat_landed top
    have near := small.stop_le
    have above := small.lt_stop
    have vAligned := small.vAligned
    have bound := call.vaddr.isLt
    obtain ⟨small', -⟩ := small.landed_fits (.inl top)
    have stop_eq : alignPage (call.vaddr + call.size) = 0 := by
      apply BitVec.eq_of_toNat_eq
      rw [small.toNat_stop, top]
      rfl
    have stop_eq' : (alignPage (call.landed.vaddr + call.landed.size)).toNat =
        call.landed.vaddr.toNat + 2 ^ 12 := by
      have page : pageUp call.landed.size.toNat = 2 ^ 12 := by rw [size_eq]; decide
      rw [small'.toNat_stop, MapCall.stop_eq_add small'.vAligned, page]
      omega
    have going : call.landed.vaddr ≠ alignPage (call.landed.vaddr + call.landed.size) := by
      intro same
      have := congrArg BitVec.toNat same
      omega
    rw [ptMapWith_eq ne small.vAligned small.pAligned small.pos small.le,
      ptMapWith_eq ne small'.vAligned small'.pAligned small'.pos small'.le, stop_eq,
      pgdLoop_eq_mapPage, pgdLoop_eq_mapPage going]
    · unfold mapPage
      rw [tableIndex_of_mod (by omega) vaddr_eq, tableIndex_of_mod (by omega) vaddr_eq,
        tableIndex_of_mod (by omega) vaddr_eq, paddr_eq, attr_eq]
    · intro size inList
      apply BitVec.eq_of_toNat_eq
      simp only [List.mem_cons, List.not_mem_nil, or_false] at inList
      rcases inList with rfl | rfl | rfl
      · rw [nextAddr_eq loopSize_pgdir (by omega)]
        omega
      · rw [nextAddr_eq loopSize_pmd (by omega)]
        omega
      · rw [nextAddr_eq loopSize_page (by omega)]
        omega
    · intro aligned
      have := (section_aligned_iff.mp aligned).1
      omega
    · intro zero
      rw [zero] at above near
      simp at near
      omega
    · exact fun size _ => nextAddr_zero size _
    · intro aligned
      have := (section_aligned_iff.mp aligned).1
      omega
  · rw [MapCall.landed_of_ne top]

/-- How many tables a call needs that are not at a position `has` has one for. -/
def MapCall.lacking (call : MapCall) (has : List Nat → Bool) : Nat :=
  Chinos.lacking has call.range.lo call.range.hi

/-- The positions with a table once the call has been made. -/
def MapCall.addTables (call : MapCall) (has : List Nat → Bool) (path : List Nat) : Bool :=
  has path || decide (path ∈ tablePaths call.range.lo call.range.hi)

/-- A table that holds the leaves of small calls has no sections, so the positions of its
tables can be read off the memory. -/
theorem Holding.has_eq {done : List MapCall} (holding : Holding view Good pgd done tree s)
    (pieces : ∀ earlier ∈ done, earlier.size.toNat ≤ 2 ^ 17) (fits : call.Fits) {path : List Nat}
    (needed : path ∈ tablePaths call.range.lo call.range.hi) :
    view.has s.mem pgd path = tree.has path := by
  have asked := fits.asked fits.window
  refine holding.inv.repr.has_eq holding.inv.root asked.before asked.top ?_ needed
  intro o leaf found
  rw [holding.lookup] at found
  rcases leafOf_shift found with page | ⟨earlier, inDone, sect⟩
  · exact page
  · exact absurd sect (MapCall.not_section (pieces earlier inDone) _)

/-- A small call that is built has a table for everything it needs. -/
theorem MapCall.Small.missing_eq_zero {tree' : Tree} (small : call.Small) (fits : call.Fits)
    (built : Built view Good pgd call.range tree s call.range.lo call.range.hi tree' s') :
    call.range.missing tree' = 0 := by
  have mapped : ∀ o, call.range.lo ≤ o → o < call.range.hi →
      ∃ leaf, tree'.lookup view s'.mem o = some leaf ∧ leaf.shift = 12 := fun o low high =>
    ⟨_, built.inside o low high,
      (call.range.leaf_shift o).resolve_right (MapCall.not_section small.small _)⟩
  exact Tree.missing_eq_zero (fits.asked fits.window).before mapped

/-- As far as the calls of `pt_map` get, the memory has tables at the positions `has`. -/
def TablesAt (view : TableView) (pgd : U64) (mem : Mem) (has : List Nat → Bool) : Prop :=
  ∀ call : MapCall, call.Fits → ∀ path ∈ tablePaths call.range.lo call.range.hi,
    view.has mem pgd path = has path

theorem TablesAt.lacking_eq {mem : Mem} {has : List Nat → Bool} (tables : TablesAt view pgd mem has)
    (fits : call.Fits) : call.lacking (view.has mem pgd) = call.lacking has :=
  lacking_congr (tables call fits)

theorem TablesAt.refl (view : TableView) (pgd : U64) (mem : Mem) :
    TablesAt view pgd mem (view.has mem pgd) := fun _ _ _ _ => rfl

theorem TablesAt.trans {mem mem' : Mem} {has : List Nat → Bool}
    (tables : TablesAt view pgd mem has) (after : TablesAt view pgd mem' (view.has mem pgd)) :
    TablesAt view pgd mem' has := fun later fits path needed =>
  (after later fits path needed).trans (tables later fits path needed)

theorem TablesAt.addTables {mem mem' : Mem} {has : List Nat → Bool}
    (tables : TablesAt view pgd mem has)
    (after : TablesAt view pgd mem' (call.addTables (view.has mem pgd))) :
    TablesAt view pgd mem' (call.addTables has) := by
  intro later fits path needed
  rw [after later fits path needed]
  unfold MapCall.addTables
  rw [tables later fits path needed]

/-- Memory that has the same tables has them at the same positions. -/
theorem Holding.tablesAt {done : List MapCall} {Good' : A → List U64 → Prop}
    (holding : Holding view Good pgd done tree s) (holding' : Holding view Good' pgd done tree s')
    (pieces : ∀ earlier ∈ done, earlier.size.toNat ≤ 2 ^ 17) :
    TablesAt view pgd s'.mem (view.has s.mem pgd) := by
  intro later fits path needed
  rw [holding'.has_eq pieces fits needed, holding.has_eq pieces fits needed]

/-- One more small call, at any address: it takes a page for every table that it lacks, and it
fails if `pt_alloc` does before it has them all. -/
theorem Holding.land (spec : AllocSpec view alloc Good) {done : List MapCall}
    (holding : Holding view Good pgd done tree s)
    (pieces : ∀ earlier ∈ done, earlier.size.toNat ≤ 2 ^ 17) (small : call.Small)
    (lands : call.Lands) :
    (ptMapWith view alloc pgd call.vaddr call.paddr call.size call.attr s = .error .null ∧
      ∃ s' : PtState A, Good s'.heap s'.tables ∧ alloc s'.heap s'.mem = .error .null ∧
        s'.tables.length < s.tables.length + call.landed.lacking (view.has s.mem pgd)) ∨
      ∃ tree' s',
        ptMapWith view alloc pgd call.vaddr call.paddr call.size call.attr s = .ok s' ∧
        Holding view Good pgd (done ++ [call.landed]) tree' s' ∧ Confined view s s' ∧
        s'.tables.length = s.tables.length + call.landed.lacking (view.has s.mem pgd) ∧
        TablesAt view pgd s'.mem (call.landed.addTables (view.has s.mem pgd)) := by
  have ne : pgd ≠ 0 := (holding.inv.repr.page holding.inv.root).ne_zero
  obtain ⟨small', fits⟩ := small.landed_fits lands
  have pages := MapCall.not_section small'.small
  have lacking_eq : call.landed.lacking (view.has s.mem pgd) = call.landed.range.missing tree :=
    lacking_congr fun path needed => holding.has_eq pieces fits needed
  rw [small.ptMapWith_landed ne]
  rcases holding.builds spec fits fun earlier inDone =>
      MapCall.sparesSections (pieces earlier inDone) with
    ⟨failed, starves⟩ | ⟨tree', s', ok, built, -⟩
  · obtain ⟨mid, tree', s', path, -, built, needed, empty, exhausted⟩ := starves
    have paid := (built.grown pages).paid
    have lacks : 0 < call.landed.range.missing tree' := Tree.missing_pos needed empty
    exact .inl ⟨failed, s', built.inv.good, exhausted, by omega⟩
  · obtain ⟨holding', confined⟩ := holding.concat built
    have grown := built.grown pages
    have complete := small'.missing_eq_zero fits built
    have pieces' : ∀ earlier ∈ done ++ [call.landed], earlier.size.toNat ≤ 2 ^ 17 := by
      intro earlier inside
      rcases List.mem_append.mp inside with old | new
      · exact pieces earlier old
      · rw [List.mem_singleton.mp new]
        exact small'.small
    refine .inr ⟨tree', s', ok, holding', confined, ?_, fun later fits' path needed => ?_⟩
    · have paid := grown.paid
      omega
    · unfold MapCall.addTables
      rw [holding'.has_eq pieces' fits' needed, holding.has_eq pieces fits' needed,
        Bool.eq_iff_iff, Bool.or_eq_true, decide_eq_true_eq]
      constructor
      · exact grown.only
      · rintro (old | new)
        · exact grown.kept old
        · by_contra lacks
          have empty : tree' path = none := by
            simpa [Tree.has] using lacks
          have pos : 0 < call.landed.range.missing tree' := Tree.missing_pos new empty
          omega

end Outcomes

end Chinos
