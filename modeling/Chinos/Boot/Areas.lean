import Chinos.Boot.Safety

/-!
# The areas of a task

`do_mmap` records an area where it is asked to, or below the area that was recorded last,
and looks at nothing else; `sys_brk` looks at no area. So what keeps the areas apart from
one another and from the rest of the task is up to the calls: a run keeps them apart as
long as every call leaves them so, and the first that does not breaks it.
-/

namespace Chinos

/-- The addresses from `start` on, up to `stop` and without it. -/
structure AddrRange where
  start : Nat
  stop : Nat

/-- The address lies in the range. -/
def AddrRange.Has (r : AddrRange) (x : Nat) : Prop := r.start ≤ x ∧ x < r.stop

/-- The two ranges have no address in common. -/
def AddrRange.Apart (r r' : AddrRange) : Prop := ∀ x, ¬ (r.Has x ∧ r'.Has x)

theorem AddrRange.apart_iff (r r' : AddrRange) :
    r.Apart r' ↔ min r.stop r'.stop ≤ max r.start r'.start := by
  constructor
  · intro apart
    by_contra overlap
    exact apart (max r.start r'.start) ⟨⟨by omega, by omega⟩, ⟨by omega, by omega⟩⟩
  · rintro le x ⟨⟨low, high⟩, ⟨low', high'⟩⟩
    omega

instance AddrRange.decidableApart (r r' : AddrRange) : Decidable (r.Apart r') :=
  decidable_of_iff' _ (r.apart_iff r')

/-- The range from one address to another, as the fields of `struct vm_area` give it. -/
def AddrRange.of (start stop : U64) : AddrRange := ⟨start.toNat, stop.toNat⟩

/-- The range that the record of an area holds. -/
def VmArea.range (area : VmArea) : AddrRange := .of area.vmStart area.vmEnd

/-- The heap of a task, from where it starts up to the break. -/
def MmArea.heap (mm : MmArea) : AddrRange := .of mm.startBrk mm.brk

/-- The code, data, BSS and stack of a task. -/
def MmArea.image (mm : MmArea) : List AddrRange :=
  [.of mm.startCode mm.endCode, .of mm.startData mm.endData, .of mm.startBss mm.endBss,
    .of mm.startStack mm.endStack]

/-- The range is apart from all that the task has. -/
def MmArea.Free (mm : MmArea) (r : AddrRange) : Prop :=
  (∀ area ∈ mm.areas, r.Apart area.range) ∧ r.Apart mm.heap ∧ ∀ part ∈ mm.image, r.Apart part

/-- The areas are apart from one another and from the rest of the task. -/
structure AreasApart (mm : MmArea) : Prop where
  areas : mm.areas.Pairwise fun area area' => area.range.Apart area'.range
  heap : ∀ area ∈ mm.areas, area.range.Apart mm.heap
  image : ∀ area ∈ mm.areas, ∀ part ∈ mm.image, area.range.Apart part

/-- The range for which a call of `sys_mmap` asks. It is given by the hint, the length and the
area recorded last alone, in numbers: it says where the caller has to look, and
`sysMmap_mm` shows that it is what `do_mmap` records. An end at `2 ^ 64` is stored as 0. -/
def MmArea.requested (mm : MmArea) (start len : U64) : AddrRange :=
  ⟨mm.low start len, (mm.low start len + pageUp len.toNat) % 2 ^ 64⟩

/-- A call after which the areas are still apart: a break that stays below `start_brk` or has
no area between `start_brk` and itself; a request that is refused, or one for a range in
which the task has nothing. -/
def MmCall.KeepsApart (p : Process) : MmCall → Prop
  | .brk addr => addr < p.mm.startBrk ∨
      ∀ area ∈ p.mm.areas, area.range.Apart (.of p.mm.startBrk addr)
  | .mmap start len _ flags _ _ => MmapIdle len flags ∨ p.mm.Free (p.mm.requested start len)

instance (mm : MmArea) (r : AddrRange) : Decidable (mm.Free r) :=
  inferInstanceAs (Decidable ((∀ area ∈ mm.areas, r.Apart area.range) ∧ r.Apart mm.heap ∧
    ∀ part ∈ mm.image, r.Apart part))

instance (p : Process) (c : MmCall) : Decidable (c.KeepsApart p) :=
  match c with
  | .brk addr => inferInstanceAs (Decidable (addr < p.mm.startBrk ∨
      ∀ area ∈ p.mm.areas, area.range.Apart (.of p.mm.startBrk addr)))
  | .mmap start len _ flags _ _ => inferInstanceAs (Decidable
      (((flags &&& mapPrivate = 0 ∧ flags &&& mapShared = 0) ∨ len = 0) ∨
        p.mm.Free (p.mm.requested start len)))

section Areas

variable {p p' : Process} {c : MmCall} {ret : U64}

/-! ## One call -/

theorem sysBrk_mm {brk : U64} (run : sysBrk p brk = .ok (ret, p')) : p'.mm = brkMm p brk := by
  by_cases idle : BrkIdle p brk
  · cases (sysBrk_of_idle idle).symm.trans run
    rfl
  · have accepted : ¬ brk < p.mm.startBrk := fun refused => idle (.inl refused)
    rw [sysBrk_of_grow idle] at run
    obtain ⟨⟨v, pt⟩, -, run⟩ := of_bind_ok run
    cases run
    exact (if_neg accepted).symm

theorem sysMmap_mm {start len prot flags : U64} (fd off : U64) (valid : ¬ MmapIdle len flags)
    (run : sysMmap p start len prot flags fd off = .ok (ret, p')) :
    ∃ area, area.range = p.mm.requested start len ∧
      p'.mm = { p.mm with areas := area :: p.mm.areas } := by
  rw [sysMmap_of_area fd off valid] at run
  obtain ⟨⟨record, pt⟩, -, run⟩ := of_bind_ok run
  obtain ⟨⟨v, pt'⟩, -, run⟩ := of_bind_ok run
  cases run
  refine ⟨mmapArea p record start len prot flags, ?_, rfl⟩
  unfold VmArea.range AddrRange.of mmapArea MmArea.requested
  simp only [BitVec.toNat_add, toNat_mmapStart, toNat_alignPage, Nat.add_mod_mod]

/-- Setting the break keeps the areas apart if the new heap is. -/
theorem AreasApart.brk_iff {mm : MmArea} (apart : AreasApart mm) (brk : U64) :
    AreasApart { mm with brk } ↔ ∀ area ∈ mm.areas, area.range.Apart (.of mm.startBrk brk) :=
  ⟨fun apart' => apart'.heap, fun heap => ⟨apart.areas, heap, apart.image⟩⟩

/-- Recording an area keeps them apart if its range is free. -/
theorem AreasApart.cons_iff {mm : MmArea} (apart : AreasApart mm) (area : VmArea) :
    AreasApart { mm with areas := area :: mm.areas } ↔ mm.Free area.range := by
  constructor
  · intro apart'
    exact ⟨(List.pairwise_cons.mp apart'.areas).1, apart'.heap area (.head _),
      apart'.image area (.head _)⟩
  · rintro ⟨areas, heap, image⟩
    exact ⟨List.pairwise_cons.mpr ⟨areas, apart.areas⟩,
      List.forall_mem_cons.mpr ⟨heap, apart.heap⟩, List.forall_mem_cons.mpr ⟨image, apart.image⟩⟩

/-- A call that returns keeps the areas apart exactly if it is one that does. -/
theorem AreasApart.call_iff (apart : AreasApart p.mm) (run : c.run p = .ok (ret, p')) :
    AreasApart p'.mm ↔ c.KeepsApart p := by
  cases c with
  | brk addr =>
    rw [sysBrk_mm run]
    unfold brkMm
    by_cases refused : addr < p.mm.startBrk
    · rw [if_pos refused]
      exact ⟨fun _ => .inl refused, fun _ => apart⟩
    · rw [if_neg refused, apart.brk_iff]
      exact ⟨.inr, fun keeps => keeps.resolve_left refused⟩
  | mmap start len prot flags fd off =>
    by_cases idle : MmapIdle len flags
    · cases (sysMmap_of_idle fd off idle).symm.trans run
      exact ⟨fun _ => .inl idle, fun _ => apart⟩
    · obtain ⟨area, range_eq, mm_eq⟩ := sysMmap_mm fd off idle run
      rw [mm_eq, apart.cons_iff, range_eq]
      exact ⟨.inr, fun keeps => keeps.resolve_left idle⟩

/-! ## Whole runs -/

variable {boot : Boot} {k : Booted}

theorem areasApart_of_runs (run : initKernel boot = .ok k)
    (runs : MmRuns MmCall.KeepsApart k.root p) : AreasApart p.mm := by
  induction runs with
  | start =>
    obtain ⟨mem, loads, others, source, task, -⟩ := initKernel_ok run
    have none : ∀ area, area ∉ k.root.mm.areas := by
      rw [task.areas]
      exact fun _ => List.not_mem_nil
    refine ⟨?_, fun area inside => absurd inside (none area),
      fun area inside => absurd inside (none area)⟩
    rw [task.areas]
    exact .nil
  | call _ allowed returned ih => exact (ih.call_iff returned).mpr allowed

/-- In every run of calls that keep the areas apart, they are; and a further call that returns
keeps them so exactly if it is such a call. -/
theorem areas_apart_iff (run : initKernel boot = .ok k)
    (runs : MmRuns MmCall.KeepsApart k.root p) (call : c.run p = .ok (ret, p')) :
    AreasApart p.mm ∧ (AreasApart p'.mm ↔ c.KeepsApart p) :=
  have apart := areasApart_of_runs run runs
  ⟨apart, apart.call_iff call⟩

/-- A page of private memory, wherever there is room. -/
def samplePage : MmCall := .mmap 0 100 3 0x22 0 0

/-- A page of private memory at an address, without `MAP_FIXED`. -/
def hintedPage (start : U64) : MmCall := .mmap start 0x1000 3 0x22 0 0

/-- After an area at a hint of its own, a page without a hint keeps the areas apart, and a page
at the address of the code does not. -/
theorem areas_apart_iff_sample : ∃ k p p₁ p₂ r r₁ r₂,
    initKernel (sampleBoot sampleFile) = .ok k ∧
    (hintedPage 0x10000000).run k.root = .ok (r, p) ∧ samplePage.run p = .ok (r₁, p₁) ∧
    (hintedPage 0x400000).run p = .ok (r₂, p₂) ∧ AreasApart p₁.mm ∧ ¬ AreasApart p₂.mm := by
  have evaluated : Returns (initKernel (sampleBoot sampleFile)) fun k =>
      (hintedPage 0x10000000).KeepsApart k.root ∧
      Returns ((hintedPage 0x10000000).run k.root) fun first =>
        Returns (samplePage.run first.2) (fun _ => samplePage.KeepsApart first.2) ∧
        Returns ((hintedPage 0x400000).run first.2) fun _ =>
          ¬ (hintedPage 0x400000).KeepsApart first.2 := by
    decide +kernel
  obtain ⟨k, run, allowed, ⟨r, p⟩, first, ⟨⟨r₁, p₁⟩, good, keeps⟩, ⟨r₂, p₂⟩, bad, breaks⟩ :=
    evaluated
  have runs : MmRuns MmCall.KeepsApart k.root p := .call .start allowed first
  exact ⟨k, p, p₁, p₂, r, r₁, r₂, run, first, good, bad,
    (areas_apart_iff run runs good).2.mpr keeps,
    fun apart => breaks ((areas_apart_iff run runs bad).2.mp apart)⟩

/-- An area that is asked for at the address of the code is recorded over it. One for which
no address is asked goes below the area recorded last, over the one that is there. -/
theorem hinted_areas_overlap : Returns (initKernel (sampleBoot sampleFile)) fun k =>
    Returns (runCalls [hintedPage 0x400000] k.root) (fun p =>
      ∃ area ∈ p.mm.areas, ∃ part ∈ p.mm.image, ¬ area.range.Apart part) ∧
    Returns (runCalls [hintedPage 0x10000000, hintedPage 0x10001000, samplePage] k.root) fun p =>
      ¬ p.mm.areas.Pairwise fun area area' => area.range.Apart area'.range := by
  decide +kernel

end Areas

end Chinos
