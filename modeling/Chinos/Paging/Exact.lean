import Chinos.Paging.Build

/-!
# The mappings of a run of `pt_map` calls

A table starts empty and `pt_map` is called any number of times. The walk of the
result takes every address of a requested range where it was asked to go, and
faults everywhere else, exactly when no range reaches the last GiB of the address
space. There `next` wraps to 0 in the loop over the PGD, and the loop runs past the
end of the table.
-/

namespace Chinos

/-- The arguments of a call of `pt_map`, but for the table. -/
structure MapCall where
  vaddr : U64
  paddr : U64
  size : U64
  attr : U64

/-- The end of the range, rounded up to pages. -/
def MapCall.stop (call : MapCall) : Nat := pageUp (call.vaddr.toNat + call.size.toNat)

/-- Address `v` is in the range, with its end rounded up to pages. -/
def MapCall.Covers (call : MapCall) (v : Nat) : Prop := call.vaddr.toNat ≤ v ∧ v < call.stop

/-- The call passes the assertions, its range lies in `half` and does not wrap, its
physical range fits 48 bits, and its attributes are no address bits. -/
structure MapCall.Admissible (half : Half) (call : MapCall) : Prop where
  vAligned : call.vaddr.toNat % 2 ^ 12 = 0
  pAligned : call.paddr.toNat % 2 ^ 12 = 0
  pos : 0 < call.size.toNat
  le : call.size.toNat ≤ 2 ^ 39
  low : half.base ≤ call.vaddr.toNat
  high : call.stop ≤ half.base + 2 ^ 39
  noWrap : call.stop < 2 ^ 64
  pSmall : call.paddr.toNat + (call.stop - call.vaddr.toNat) ≤ 2 ^ 48
  attrOk : AttrOk call.attr

/-- A sequence of calls with pairwise disjoint ranges in one half. -/
structure MapRequests (half : Half) where
  calls : List MapCall
  admissible : ∀ call ∈ calls, call.Admissible half
  disjoint : calls.Pairwise fun c d => c.stop ≤ d.vaddr.toNat ∨ d.stop ≤ c.vaddr.toNat

/-- A `pt_alloc` and what it promises: with the pages in `tables` in use, it fails or
returns another page-aligned page of the linear map, zeroed, and touches nothing else.
`Good heap tables` says that `heap` is a state in which `tables` are in use. -/
structure PtAllocator (A : Type) where
  alloc : PtAlloc A
  Good : A → List U64 → Prop
  promise : ∀ {heap tables} (mem : Mem), Good heap tables →
    alloc heap mem = .error .null ∨ ∃ page heap' mem', alloc heap mem = .ok (page, heap', mem') ∧
      page.toNat % 2 ^ 12 = 0 ∧ ramVbase ≤ page ∧ page ∉ tables ∧
      (∀ x, linearView.InPage page x → mem' x = 0) ∧
      (∀ x, ¬ linearView.InPage page x → mem' x = mem x) ∧ Good heap' (page :: tables)

/-- An all-zero PGD in the linear map, next to a `pt_alloc`. -/
structure EmptyTable (A : Type) extends PtAllocator A where
  pgd : U64
  aligned : pgd.toNat % 2 ^ 12 = 0
  linear : ramVbase ≤ pgd
  mem : Mem
  zero : ∀ x, linearView.InPage pgd x → mem x = 0
  heap : A
  good : Good heap [pgd]

section Run

variable {A : Type}

/-- `pt_map` for each of the calls in turn, on one table. -/
def ptMaps (alloc : PtAlloc A) (pgd : U64) :
    List MapCall → PtState A → Except Fault (PtState A)
  | [], s => .ok s
  | call :: rest, s => do
    let s ← ptMap alloc pgd call.vaddr call.paddr call.size call.attr s
    ptMaps alloc pgd rest s

/-- The calls in turn on one table, for either view of the tables. -/
def ptMapsWith (view : TableView) (alloc : PtAlloc A) (pgd : U64) :
    List MapCall → PtState A → Except Fault (PtState A)
  | [], s => .ok s
  | call :: rest, s => do
    let s ← ptMapWith view alloc pgd call.vaddr call.paddr call.size call.attr s
    ptMapsWith view alloc pgd rest s

theorem ptMaps_eq (alloc : PtAlloc A) (pgd : U64) (calls : List MapCall) :
    ∀ s, ptMaps alloc pgd calls s = ptMapsWith linearView alloc pgd calls s := by
  induction calls with
  | nil => exact fun _ => rfl
  | cons call rest ih =>
    intro s
    unfold ptMaps ptMapsWith
    simp only [ih]
    rfl

/-- The outcome of the calls on the empty table. -/
def EmptyTable.run (table : EmptyTable A) (calls : List MapCall) : Except Fault (PtState A) :=
  ptMaps table.alloc table.pgd calls ⟨table.mem, table.heap, [table.pgd]⟩

/-- The walk takes every address of every range in `calls` to its place, with the
attributes asked for up to the type bits, and faults on all others. -/
def Realises (half : Half) (calls : MapCall → Prop) (mem : Mem) (root : Nat) : Prop :=
  ∀ v, (∀ call, calls call → call.Covers v → ∃ shift, translate mem root half v =
      some ⟨call.paddr.toNat + (v - call.vaddr.toNat), call.attr &&& ~~~3, shift⟩) ∧
    ((∀ call, calls call → ¬ call.Covers v) → translate mem root half v = none)

theorem entry_eq_zero {view : TableView} {page : U64} {mem : Mem}
    (zero : ∀ x, view.InPage page x → mem x = 0) {k : Nat} (small : k < 512) :
    view.entry mem ⟨page, k⟩ = 0 := by
  refine Mem.load64_eq_zero (fun x low high => zero x ?_)
  simp only [Slot.phys] at low high
  exact ⟨by omega, by omega⟩

/-- The promise that an allocator makes is what the builders rely on. -/
theorem PtAllocator.spec (allocator : PtAllocator A) :
    AllocSpec linearView allocator.alloc allocator.Good where
  step mem good := by
    rcases allocator.promise mem good with
      failed | ⟨page, heap', mem', ok, aligned, linear, notMem, zero, frame, good'⟩
    · exact .inl failed
    · refine .inr ⟨page, heap', mem', ok, ⟨linearView_isPage aligned linear, notMem, ?_, ?_⟩,
        good'⟩
      · exact fun k small => entry_eq_zero zero small
      · intro x out
        exact frame x (by unfold TableView.InPage; omega)

/-- The tree of a table without any entry, which has the PGD only. -/
def Tree.single (pgd : U64) : Tree := fun path => if path = [] then some pgd else none

theorem Tree.of_single {pgd p : U64} {path : List Nat} (placed : Tree.single pgd path = some p) :
    path = [] ∧ p = pgd := by
  unfold Tree.single at placed
  split at placed
  · rename_i empty
    exact ⟨empty, (Option.some.inj placed).symm⟩
  · cases placed

/-- An all-zero PGD next to a `pt_alloc`, for either view of the tables. -/
structure FreshTable (view : TableView) (A : Type) where
  alloc : PtAlloc A
  Good : A → List U64 → Prop
  spec : AllocSpec view alloc Good
  pgd : U64
  isPage : view.IsPage pgd
  mem : Mem
  zero : ∀ x, view.InPage pgd x → mem x = 0
  heap : A
  good : Good heap [pgd]

theorem FreshTable.inv {view : TableView} (table : FreshTable view A) :
    PtInv view table.Good table.pgd (Tree.single table.pgd)
      ⟨table.mem, table.heap, [table.pgd]⟩ where
  root := rfl
  good := table.good
  repr := by
    refine ⟨?_, ?_, ?_, ?_, fun _ => rfl, ?_, ?_⟩
    · intro path p placed
      rw [(Tree.of_single placed).2]
      exact table.isPage
    · intro path p placed
      rw [(Tree.of_single placed).2]
      exact .head _
    · intro path path' p placed placed'
      rw [(Tree.of_single placed).1, (Tree.of_single placed').1]
    · intro path p placed
      rw [(Tree.of_single placed).1]
      simp
    · intro k path p q _ _ _ child
      cases (Tree.of_single child).1
    · intro k path p _ small placed _
      rw [(Tree.of_single placed).2]
      exact .inl (entry_eq_zero table.zero small)

/-- An empty table of the kernel, seen as a fresh table in the linear map. -/
def EmptyTable.fresh (table : EmptyTable A) : FreshTable linearView A where
  alloc := table.alloc
  Good := table.Good
  spec := table.spec
  pgd := table.pgd
  isPage := linearView_isPage table.aligned table.linear
  mem := table.mem
  zero := table.zero
  heap := table.heap
  good := table.good

theorem EmptyTable.inv (table : EmptyTable A) :
    PtInv linearView table.Good table.pgd (Tree.single table.pgd)
      ⟨table.mem, table.heap, [table.pgd]⟩ :=
  table.fresh.inv

theorem Tree.lookup_single {view : TableView} {pgd : U64} {mem : Mem} {o : Nat} :
    (Tree.single pgd).lookup view mem o = none := rfl

theorem Half.base_aligned (half : Half) : half.base % 2 ^ 39 = 0 := by
  cases half <;> decide

theorem MapCall.Admissible.args {half : Half} {call : MapCall} (ok : call.Admissible half) :
    MapArgs call.vaddr call.paddr call.size call.attr half.base
      (call.vaddr.toNat - half.base) (call.stop - half.base) := by
  have low := ok.low
  have high := ok.high
  have pSmall := ok.pSmall
  have after : call.vaddr.toNat ≤ call.stop := by
    unfold MapCall.stop pageUp
    omega
  refine ⟨ok.vAligned, ok.pAligned, ok.pos, ok.le, by omega, ?_, half.base_aligned, by omega,
    by omega, ok.attrOk⟩
  change call.stop = _
  omega

section Steps

variable {Good : A → List U64 → Prop} {alloc : PtAlloc A} {pgd : U64} {tree : Tree}
  {s : PtState A} {half : Half} {call : MapCall}

theorem PtInv.translate_view {view : TableView} (inv : PtInv view Good pgd tree s) {v : Nat}
    (low : half.base ≤ v) (high : v < half.base + 2 ^ 39) :
    translate s.mem (view.toPhys pgd).toNat half v = tree.lookup view s.mem (v - half.base) := by
  unfold translate
  rw [if_pos ⟨low, high⟩]
  exact inv.repr.walk_eq inv.root (by omega)

theorem PtInv.translate_eq (inv : PtInv linearView Good pgd tree s) {v : Nat}
    (low : half.base ≤ v) (high : v < half.base + 2 ^ 39) :
    translate s.mem (vbaseToPbase pgd).toNat half v =
      tree.lookup linearView s.mem (v - half.base) :=
  inv.translate_view low high

theorem translate_outside {mem : Mem} {root v : Nat}
    (out : v < half.base ∨ half.base + 2 ^ 39 ≤ v) :
    translate mem root half v = none := by
  unfold translate
  rw [if_neg (by omega)]

/-- A range that none of the earlier calls touches holds no leaf at all. -/
theorem Realises.noBlocks {done : MapCall → Prop} (inv : PtInv linearView Good pgd tree s)
    (realised : Realises half done s.mem (vbaseToPbase pgd).toNat) (ok : call.Admissible half)
    (apart : ∀ d, done d → call.stop ≤ d.vaddr.toNat ∨ d.stop ≤ call.vaddr.toNat) :
    NoBlocks linearView tree s.mem (call.vaddr.toNat - half.base) (call.stop - half.base) := by
  intro o above below leaf found
  have low := ok.low
  have high := ok.high
  have uncovered : ∀ d, done d → ¬ d.Covers (half.base + o) := by
    intro d isDone covers
    have separate := apart d isDone
    unfold MapCall.Covers at covers
    omega
  have fault := (realised (half.base + o)).2 uncovered
  rw [inv.translate_eq (by omega) (by omega), Nat.add_sub_cancel_left, found] at fault
  cases fault

/-- One more call adds its range to what is mapped, unless `pt_alloc` fails. -/
theorem Realises.step {done : MapCall → Prop} (spec : AllocSpec linearView alloc Good)
    (inv : PtInv linearView Good pgd tree s)
    (realised : Realises half done s.mem (vbaseToPbase pgd).toNat) (ok : call.Admissible half)
    (room : call.stop + 2 ^ 30 ≤ 2 ^ 64)
    (apart : ∀ d, done d → call.stop ≤ d.vaddr.toNat ∨ d.stop ≤ call.vaddr.toNat) :
    ptMap alloc pgd call.vaddr call.paddr call.size call.attr s = .error .null ∨
      ∃ tree' s', ptMap alloc pgd call.vaddr call.paddr call.size call.attr s = .ok s' ∧
        PtInv linearView Good pgd tree' s' ∧
        Realises half (fun d => d = call ∨ done d) s'.mem (vbaseToPbase pgd).toNat := by
  have args := ok.args
  have low := ok.low
  have high := ok.high
  have before : _ - half.base < _ - half.base := args.asked.before
  rcases ptMapWith_maps spec args (by omega) inv (realised.noBlocks inv ok apart) with
    failed | ⟨tree', s', run, mapped, -⟩
  · exact .inl failed
  refine .inr ⟨tree', s', run, mapped.inv, fun v => ?_⟩
  by_cases inHalf : half.base ≤ v ∧ v < half.base + 2 ^ 39
  · have old := realised v
    rw [inv.translate_eq inHalf.1 inHalf.2] at old
    rw [mapped.inv.translate_eq inHalf.1 inHalf.2]
    by_cases covered : call.Covers v
    · have separate : ∀ d, done d → ¬ d.Covers v := by
        intro d isDone covers
        have := apart d isDone
        unfold MapCall.Covers at covers covered
        omega
      obtain ⟨shift, found, -⟩ := mapped.inside (v - half.base)
        (by unfold MapCall.Covers at covered; omega) (by unfold MapCall.Covers at covered; omega)
      rw [ok.attrOk.descAttr_eq, show v - half.base - (call.vaddr.toNat - half.base) =
        v - call.vaddr.toNat by omega] at found
      constructor
      · rintro d (rfl | isDone) covers
        · exact ⟨shift, found⟩
        · exact absurd covers (separate d isDone)
      · intro none
        exact absurd covered (none call (.inl rfl))
    · rw [mapped.outside (v - half.base) (by unfold MapCall.Covers at covered; omega)]
      constructor
      · rintro d (rfl | isDone) covers
        · exact absurd covers covered
        · exact old.1 d isDone covers
      · intro none
        exact old.2 (fun d isDone => none d (.inr isDone))
  · have out : v < half.base ∨ half.base + 2 ^ 39 ≤ v := by omega
    have old := realised v
    rw [translate_outside out] at old ⊢
    constructor
    · rintro d (rfl | isDone) covers
      · unfold MapCall.Covers at covers
        omega
      · exact old.1 d isDone covers
    · exact fun _ => rfl

/-- A whole run of calls adds all of their ranges to what is mapped, unless `pt_alloc` fails. -/
theorem Realises.run (spec : AllocSpec linearView alloc Good) {calls : List MapCall} :
    ∀ {done : MapCall → Prop} {tree : Tree} {s : PtState A},
      PtInv linearView Good pgd tree s → Realises half done s.mem (vbaseToPbase pgd).toNat →
      (∀ call ∈ calls, call.Admissible half) → (∀ call ∈ calls, call.stop + 2 ^ 30 ≤ 2 ^ 64) →
      calls.Pairwise (fun c d => c.stop ≤ d.vaddr.toNat ∨ d.stop ≤ c.vaddr.toNat) →
      (∀ call ∈ calls, ∀ d, done d → call.stop ≤ d.vaddr.toNat ∨ d.stop ≤ call.vaddr.toNat) →
      ptMaps alloc pgd calls s = .error .null ∨
        ∃ s', ptMaps alloc pgd calls s = .ok s' ∧
          Realises half (fun d => d ∈ calls ∨ done d) s'.mem (vbaseToPbase pgd).toNat := by
  induction calls with
  | nil =>
    intro done tree s inv realised _ _ _ _
    refine .inr ⟨s, rfl, ?_⟩
    simpa using realised
  | cons call rest ih =>
    intro done tree s inv realised ok room disjoint apart
    obtain ⟨first, later⟩ := List.pairwise_cons.mp disjoint
    unfold ptMaps
    rcases Realises.step spec inv realised (ok call (.head _)) (room call (.head _))
      (apart call (.head _)) with failed | ⟨tree', s', run, inv', realised'⟩
    · rw [failed]
      exact .inl rfl
    · rw [run, ok_bind]
      have apart' : ∀ c ∈ rest, ∀ d, d = call ∨ done d →
          c.stop ≤ d.vaddr.toNat ∨ d.stop ≤ c.vaddr.toNat := by
        rintro c inRest d (rfl | isDone)
        · exact (first c inRest).symm
        · exact apart c (.tail _ inRest) d isDone
      rcases ih inv' realised' (fun c inRest => ok c (.tail _ inRest))
        (fun c inRest => room c (.tail _ inRest)) later apart' with failed | ⟨s₂, run₂, final⟩
      · exact .inl failed
      · refine .inr ⟨s₂, run₂, ?_⟩
        have same : (fun d => d ∈ call :: rest ∨ done d) =
            fun d => d ∈ rest ∨ d = call ∨ done d := by
          funext d
          simp only [List.mem_cons, eq_iff_iff]
          tauto
        rw [same]
        exact final

end Steps

/-! ## Ranges that reach the last GiB -/

section LastGiB

variable {view : TableView} {alloc : PtAlloc A} {pgd attr : U64}

/-- From the last GiB, `next` wraps to 0 and stays there. -/
theorem nextAddr_wrap {vaddr stop : U64} (last : 2 ^ 64 ≤ vaddr.toNat + 2 ^ 30)
    (ne : stop.toNat ≠ 0) : nextAddr pgdirSize vaddr stop = 0 := by
  have bound := vaddr.isLt
  have wrapped : (vaddr + pgdirSize) &&& ~~~(pgdirSize - 1) = 0 := by
    apply BitVec.eq_of_toNat_eq
    rw [loopSize_pgdir.mask, toNat_and_ones_shiftLeft, BitVec.toNat_add, loopSize_pgdir.toNat]
    show _ = 0
    omega
  have before : (0 : U64) < stop := BitVec.lt_def.mpr (by show 0 < _; omega)
  unfold nextAddr
  simp only
  rw [wrapped, if_pos before]

/-- A loop that has to end in the last GiB never ends well: from entry 511 it goes on
with address 0 and entry 512. -/
theorem pgdLoop_ne_ok {stop : U64} (late : 2 ^ 64 < stop.toNat + 2 ^ 30) {left : Nat} :
    ∀ {vaddr paddr : U64} {s s' : PtState A}, vaddr.toNat / 2 ^ 30 + left = 2 ^ 34 →
      vaddr.toNat < stop.toNat → pgdLoop view alloc pgd stop attr left vaddr paddr s ≠ .ok s' := by
  induction left with
  | zero =>
    intro vaddr paddr s s' position _
    have bound := vaddr.isLt
    omega
  | succ left ih =>
    intro vaddr paddr s s' position before run
    have bound := vaddr.isLt
    have going : vaddr ≠ stop := by
      rintro rfl
      omega
    unfold pgdLoop tableLoop at run
    rw [if_neg going] at run
    obtain ⟨s₁, -, rest⟩ := of_bind_ok run
    cases left with
    | zero =>
      rw [nextAddr_wrap (by omega) (by omega)] at rest
      unfold tableLoop at rest
      rw [if_neg] at rest
      · cases rest
      · rintro rfl
        simp at late
    | succ left =>
      have short : (vaddr.toNat / 2 ^ 30 + 1) * 2 ^ 30 < stop.toNat := by omega
      have next_eq : (nextAddr pgdirSize vaddr stop).toNat =
          (vaddr.toNat / 2 ^ 30 + 1) * 2 ^ 30 := by
        rw [nextAddr_eq loopSize_pgdir (by omega), min_eq_left short.le]
      exact ih (by omega) (by omega) rest

theorem ptMapWith_ne_ok {r : MapRange} {base : Nat} {vaddr size : U64}
    (asked : r.Asked base vaddr size) (noWrap : base + r.hi < 2 ^ 64)
    (late : 2 ^ 64 < base + r.hi + 2 ^ 30) (ne : pgd ≠ 0) {s s' : PtState A} :
    ptMapWith view alloc pgd vaddr r.paddr size r.attr s ≠ .ok s' := by
  have stop_eq := asked.toNat_stop noWrap
  have before := asked.before
  have vaddr_eq := asked.vaddr_eq
  have baseAligned := asked.baseAligned
  have top := asked.top
  have upper : base = 2 ^ 64 - 2 ^ 39 := by omega
  rw [ptMapWith_eq ne asked.vAligned asked.pAligned asked.pos asked.le]
  refine pgdLoop_ne_ok (by omega) ?_ (by omega)
  rw [tableIndex_eq]
  omega

/-- A run does not return if one of its calls never does. -/
theorem ptMapsWith_ne_ok {calls : List MapCall} {call : MapCall} (inCalls : call ∈ calls)
    (never : ∀ s s' : PtState A,
      ptMapWith view alloc pgd call.vaddr call.paddr call.size call.attr s ≠ .ok s') :
    ∀ {s s' : PtState A}, ptMapsWith view alloc pgd calls s ≠ .ok s' := by
  induction inCalls with
  | head rest =>
    intro s s' run
    obtain ⟨s₁, first, -⟩ := of_bind_ok run
    exact never s s₁ first
  | tail other _ ih =>
    intro s s' run
    obtain ⟨s₁, -, rest⟩ := of_bind_ok run
    exact ih rest

end LastGiB

/-- Unless `pt_alloc` runs out of pages, the calls return with exactly the requested
mappings if and only if no range reaches the last GiB of the address space. -/
theorem ptMaps_realises_iff (table : EmptyTable A) (half : Half) (requests : MapRequests half) :
    table.run requests.calls = .error .null ∨
      ((∃ s, table.run requests.calls = .ok s ∧
          Realises half (· ∈ requests.calls) s.mem (vbaseToPbase table.pgd).toNat) ↔
        ∀ call ∈ requests.calls, call.stop + 2 ^ 30 ≤ 2 ^ 64) := by
  have nothing : Realises half (fun _ => False) table.mem (vbaseToPbase table.pgd).toNat := by
    intro v
    refine ⟨fun _ impossible => impossible.elim, fun _ => ?_⟩
    by_cases inHalf : half.base ≤ v ∧ v < half.base + 2 ^ 39
    · exact (table.inv.translate_eq inHalf.1 inHalf.2).trans Tree.lookup_single
    · exact translate_outside (by omega)
  by_cases early : ∀ call ∈ requests.calls, call.stop + 2 ^ 30 ≤ 2 ^ 64
  · rcases Realises.run table.spec table.inv nothing requests.admissible early requests.disjoint
      (fun _ _ _ impossible => impossible.elim) with failed | ⟨s, run, realised⟩
    · exact .inl failed
    · refine .inr ⟨fun _ => early, fun _ => ⟨s, run, ?_⟩⟩
      simpa using realised
  · refine .inr ⟨?_, fun holds => absurd holds early⟩
    rintro ⟨s, run, -⟩
    push Not at early
    obtain ⟨call, inCalls, late⟩ := early
    have ok := requests.admissible call inCalls
    have low := ok.low
    have noWrap := ok.noWrap
    have before : _ - half.base < _ - half.base := ok.args.asked.before
    unfold EmptyTable.run at run
    rw [ptMaps_eq] at run
    refine absurd run (ptMapsWith_ne_ok inCalls (fun s s' => ?_))
    exact ptMapWith_ne_ok ok.args.asked (by simp only; omega) (by simp only; omega)
      table.fresh.isPage.ne_zero

end Run

/-- A `pt_alloc` that hands out the pages of the linear map one after the other. -/
def bumpAlloc : PtAlloc Nat := fun next mem =>
  if next < 2 ^ 19 then
    let page := ramVbase + BitVec.ofNat 64 (next * 2 ^ 12)
    .ok (page, next + 1, mem.fill (vbaseToPbase page).toNat (2 ^ 12) 0)
  else
    .error .null

theorem toNat_bumpPage {next : Nat} (room : next < 2 ^ 19) :
    (ramVbase + BitVec.ofNat 64 (next * 2 ^ 12)).toNat =
      0xffffff8000000000 + next * 2 ^ 12 := by
  have base : ramVbase.toNat = 0xffffff8000000000 := by decide
  rw [BitVec.toNat_add, BitVec.toNat_ofNat, base]
  omega

/-- `bumpAlloc` keeps the promise: every page in use lies below the next one. -/
def bumpAllocator : PtAllocator Nat where
  alloc := bumpAlloc
  Good next tables := ∀ page ∈ tables, page.toNat < 0xffffff8000000000 + next * 2 ^ 12
  promise {next tables} mem below := by
    unfold bumpAlloc
    by_cases room : next < 2 ^ 19
    · rw [if_pos room]
      have value := toNat_bumpPage room
      refine .inr ⟨_, _, _, rfl, by omega, BitVec.le_def.mpr ?_, ?_, ?_, ?_, ?_⟩
      · rw [value]
        show 0xffffff8000000000 ≤ _
        omega
      · intro inTables
        have lower := below _ inTables
        omega
      · exact fun x inside => Mem.fill_of_inside inside.1 inside.2
      · intro x outside
        unfold TableView.InPage at outside
        exact Mem.fill_of_outside (by simp only [linearView] at outside; omega)
      · intro page inTables
        rcases List.mem_cons.mp inTables with rfl | old
        · omega
        · exact (below page old).trans (by omega)
    · rw [if_neg room]
      exact .inl rfl

/-- An empty table in the first page of RAM. -/
def bumpTable : EmptyTable Nat where
  toPtAllocator := bumpAllocator
  pgd := ramVbase
  aligned := by decide
  linear := BitVec.le_refl _
  mem := fun _ => 0
  zero _ _ := rfl
  heap := 1
  good page inTables := by
    rw [List.mem_singleton.mp inTables]
    decide

/-- A request for one page of RAM at the start of the last GiB. -/
def lastGiBPage : MapRequests .upper where
  calls := [⟨0xffffffffc0000000, 0x40001000, 0x1000, 0⟩]
  admissible call inCalls := by
    rw [List.mem_singleton.mp inCalls]
    exact ⟨by decide, by decide, by decide, by decide, by decide, by decide, by decide, by decide,
      fun j _ _ => BitVec.getLsbD_zero⟩
  disjoint := List.pairwise_singleton _ _

theorem lastGiBPage_not_mapped : bumpTable.run lastGiBPage.calls = .error .wild := rfl

end Chinos
