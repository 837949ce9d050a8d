import Chinos.Mm.Syscalls

/-!
# Runs of memory calls

A task makes calls of `sys_brk` and `sys_mmap` one after the other. A call that returns
was one that is served, and adds at most one mapping, backed by an allocation of its own;
so the memory invariant holds after every run.
-/

namespace Chinos

/-- The call is served: it has nothing to map, or a range that can be backed. -/
def MmCall.Served (p : Process) : MmCall → Prop
  | .brk addr => BrkServed p addr
  | .mmap start len _ flags _ _ => MmapServed p start len flags

instance (p : Process) (c : MmCall) : Decidable (c.Served p) :=
  match c with
  | .brk addr => inferInstanceAs (Decidable (BrkIdle p addr ∨ Backable _ _))
  | .mmap _ len _ flags _ _ => inferInstanceAs (Decidable (MmapIdle len flags ∨ Backable _ _))

/-- The requests that a call makes of the granule heap, as numbers of granules in a row and in
the order in which they are made. They are computed from the state before the call. -/
def MmCall.requests (p : Process) : MmCall → List Nat
  | .brk addr => brkRequests p addr
  | .mmap start len _ flags _ _ => mmapRequests p start len flags

/-- The call is granted: it is served, and the free granules are enough for its requests. -/
def MmCall.Granted (p : Process) (c : MmCall) : Prop :=
  c.Served p ∧ p.pt.heap.Serves (c.requests p)

/-- The states that a task gets to from `p₀`: it makes calls that `legal` allows, and all
of them return. -/
inductive MmRuns (legal : Process → MmCall → Prop) (p₀ : Process) : Process → Prop
  | start : MmRuns legal p₀ p₀
  | call {p p' : Process} {c : MmCall} {ret : U64} (before : MmRuns legal p₀ p)
      (allowed : legal p c) (run : c.run p = .ok (ret, p')) : MmRuns legal p₀ p'

/-- The condition on runs in which any call may be made. -/
def anyCall (_ : Process) (_ : MmCall) : Prop := True

/-- The calls of the list, made by the task one after the other. -/
def runCalls : List MmCall → Process → Except Fault Process
  | [], p => .ok p
  | c :: rest, p => do
    let (_, p) ← c.run p
    runCalls rest p

theorem MmRuns.of_runCalls {p₀ : Process} {calls : List MmCall} : ∀ {p p' : Process},
    MmRuns anyCall p₀ p → runCalls calls p = .ok p' → MmRuns anyCall p₀ p' := by
  induction calls with
  | nil =>
    intro p p' runs run
    cases run
    exact runs
  | cons c rest ih =>
    intro p p' runs run
    unfold runCalls at run
    obtain ⟨⟨ret, p₁⟩, first, run⟩ := of_bind_ok run
    exact ih (runs.call trivial first) run

section Runs

variable {layout : Layout} {others : List Block} {maps : List Mapping} {p p' : Process}
  {c : MmCall} {ret : U64}

/-! ## One call -/

/-- The range that a call maps, and with which protection; none if it is idle. -/
def MmCall.Maps (p : Process) (m : Mapping) : MmCall → Prop
  | .brk addr => ¬ BrkIdle p addr ∧ ∃ b, m =
      (backing p.mm.brk (BitVec.ofInt 64 (p.growth addr)) (protRead ||| protWrite) b).landed
  | .mmap start len prot flags _ _ => ¬ MmapIdle len flags ∧ ∃ b, m =
      (backing (mmapStart p start len) (alignPage len) (prot.setWidth 32) b).landed

/-- A call that is served returns and adds at most one mapping, if the heap serves its
requests; if not, it uses a null pointer. -/
theorem MmInv.served (inv : MmInv layout others maps p) (served : c.Served p) :
    (c.run p = .error .null ∧ ¬ p.pt.heap.Serves (c.requests p)) ∨
      ∃ ret p' new, c.run p = .ok (ret, p') ∧ MmInv layout others (maps ++ new) p' ∧
        p.pt.heap.Serves (c.requests p) ∧ (new = [] ∨ ∃ m, new = [m] ∧ c.Maps p m) := by
  cases c with
  | brk addr =>
    rcases sysBrk_served inv served with failed | ⟨pt, maps', run, inv', serves, kind⟩
    · exact .inl failed
    · rcases kind with ⟨-, rfl⟩ | ⟨grow, b, -, rfl⟩
      · refine .inr ⟨_, _, [], run, ?_, serves, .inl rfl⟩
        rw [List.append_nil]
        exact inv'
      · exact .inr ⟨_, _, _, run, inv', serves, .inr ⟨_, rfl, grow, b, rfl⟩⟩
  | mmap start len prot flags fd off =>
    by_cases idle : MmapIdle len flags
    · refine .inr ⟨_, _, [], sysMmap_of_idle fd off idle, ?_, ?_, .inl rfl⟩
      · rw [List.append_nil]
        exact inv
      · have nothing : (MmCall.mmap start len prot flags fd off).requests p = [] := if_pos idle
        rw [nothing]
        exact (MmGran.After.refl _).serves
    · rcases sysMmap_served fd off inv idle served with
        failed | ⟨record, pt, b, run, inv', serves⟩
      · exact .inl failed
      · exact .inr ⟨_, _, _, run, inv', serves, .inr ⟨_, rfl, idle, b, rfl⟩⟩

/-- A call that is not served does not return, whatever memory there is. -/
theorem MmInv.run_ne_ok (inv : MmInv layout others maps p) (refused : ¬ c.Served p)
    (result : U64 × Process) : c.run p ≠ .ok result := by
  cases c with
  | brk addr => exact sysBrk_ne_ok inv refused result
  | mmap start len prot flags fd off => exact sysMmap_ne_ok fd off inv refused result

/-- A call that returns was served, and has left the invariant with the mappings it added. -/
theorem MmInv.of_run (inv : MmInv layout others maps p) (run : c.run p = .ok (ret, p')) :
    c.Served p ∧ ∃ new, MmInv layout others (maps ++ new) p' ∧
      (new = [] ∨ ∃ m, new = [m] ∧ c.Maps p m) := by
  by_cases served : c.Served p
  · rcases inv.served served with ⟨failed, -⟩ | ⟨ret', p'', new, ok, inv', -, kind⟩
    · cases failed.symm.trans run
    · cases ok.symm.trans run
      exact ⟨served, new, inv', kind⟩
  · exact absurd run (inv.run_ne_ok served _)

/-- So a call returns exactly if it is served and the heap serves its requests. -/
theorem MmInv.returns_iff (inv : MmInv layout others maps p) (c : MmCall) :
    (∃ ret p', c.run p = .ok (ret, p')) ↔ c.Served p ∧ p.pt.heap.Serves (c.requests p) := by
  constructor
  · rintro ⟨ret, p', run⟩
    have served := (inv.of_run run).1
    rcases inv.served served with ⟨failed, -⟩ | ⟨-, -, -, -, -, serves, -⟩
    · cases failed.symm.trans run
    · exact ⟨served, serves⟩
  · rintro ⟨served, serves⟩
    rcases inv.served served with ⟨-, full⟩ | ⟨ret, p', -, run, -⟩
    · exact absurd serves full
    · exact ⟨ret, p', run⟩

theorem MmCall.Maps.block {m : Mapping} (maps : c.Maps p m) : ∃ b, m.source = .block b := by
  cases c with
  | brk addr =>
    obtain ⟨-, b, rfl⟩ := maps
    exact ⟨b, rfl⟩
  | mmap start len prot flags fd off =>
    obtain ⟨-, b, rfl⟩ := maps
    exact ⟨b, rfl⟩

/-! ## Whole runs -/

/-- The invariant holds after every run, and what the run mapped has memory of its own. -/
theorem MmInv.runs {legal : Process → MmCall → Prop} {p₀ : Process}
    (inv : MmInv layout others maps p₀) (runs : MmRuns legal p₀ p) :
    ∃ new, MmInv layout others (maps ++ new) p ∧ ∀ m ∈ new, ∃ b, m.source = .block b := by
  induction runs with
  | start =>
    refine ⟨[], ?_, fun m inside => ?_⟩
    · rw [List.append_nil]
      exact inv
    · cases inside
  | call _ _ run ih =>
    obtain ⟨new, inv₁, blocks⟩ := ih
    obtain ⟨-, more, inv₂, kind⟩ := inv₁.of_run run
    refine ⟨new ++ more, ?_, fun m inside => ?_⟩
    · rw [← List.append_assoc]
      exact inv₂
    · rcases List.mem_append.mp inside with old | isNew
      · exact blocks m old
      · rcases kind with rfl | ⟨m', rfl, mapped⟩
        · cases isNew
        · rw [List.mem_singleton.mp isNew]
          exact mapped.block

end Runs

/-! ## What the MMU sees -/

/-- Translation of user address `v` by the table of the task. -/
def Process.translate (p : Process) (v : Nat) : Option Leaf :=
  Chinos.translate p.pt.mem (phys p.addrspace) .lower v

section Translate

variable {layout : Layout} {others : List Block} {maps : List Mapping} {p : Process}
  {v w : Nat} {leaf leaf' : Leaf} {m m' : Mapping} {b b' : Block}

theorem MemInv.translate_eq (inv : MemInv layout others maps p.pt)
    (addrspace : p.addrspace = layout.userPgd) (v : Nat) :
    p.translate v = if v < 2 ^ 39 then leafOf (maps.map Mapping.call) v else none := by
  obtain ⟨tree, holding⟩ := inv.table
  have seen := holding.translate_eq .lower v
  simp only [Half.base, Nat.zero_le, true_and, Nat.zero_add, Nat.sub_zero] at seen
  unfold Process.translate
  rw [addrspace]
  exact seen

theorem MmInv.translate_eq (inv : MmInv layout others maps p) (v : Nat) :
    p.translate v = if v < 2 ^ 39 then leafOf (maps.map Mapping.call) v else none :=
  inv.mem.translate_eq inv.addrspace v

/-- Where two mappings cover an address, the last one that was made counts. -/
theorem leafOf_maps_concat (maps : List Mapping) (m : Mapping) (o : Nat) :
    leafOf ((maps ++ [m]).map Mapping.call) o =
      if m.Covers o then some (m.call.range.leaf o) else leafOf (maps.map Mapping.call) o := by
  rw [List.map_append, List.map_singleton, leafOf_concat]
  rfl

/-- Where one mapping covers an offset, its leaf is there. -/
theorem leafOf_of_unique {maps : List Mapping} {m : Mapping} {o : Nat} (inMaps : m ∈ maps)
    (covers : m.Covers o) (unique : ∀ m' ∈ maps, m'.Covers o → m' = m) :
    leafOf (maps.map Mapping.call) o = some (m.call.range.leaf o) := by
  induction maps using List.reverseRecOn with
  | nil => cases inMaps
  | append_singleton maps m' ih =>
    rw [leafOf_maps_concat]
    by_cases last : m'.Covers o
    · rw [if_pos last, unique m' (by simp) last]
    · rw [if_neg last]
      refine ih ?_ fun m'' inside => unique m'' (List.mem_append_left _ inside)
      rcases List.mem_append.mp inMaps with early | isLast
      · exact early
      · rw [List.mem_singleton.mp isLast] at covers
        exact absurd covers last

/-- What is seen at an address is the leaf of a mapping that covers it. -/
theorem MmInv.of_translate (inv : MmInv layout others maps p)
    (found : p.translate v = some leaf) :
    v < 2 ^ 39 ∧ ∃ m ∈ maps, m.Ok layout ∧ m.Covers v ∧ m.call.range.leaf v = leaf := by
  rw [inv.translate_eq] at found
  split at found
  · rename_i low
    obtain ⟨call, inCalls, lo, hi, leaf_eq⟩ := of_leafOf found
    obtain ⟨m, inMaps, rfl⟩ := List.mem_map.mp inCalls
    exact ⟨low, m, inMaps, inv.mem.ok m inMaps, ⟨lo, hi⟩, leaf_eq⟩
  · cases found

/-- Two different mappings lead to allocations that are apart. -/
theorem MmInv.apart (inv : MmInv layout others maps p) (inMaps : m ∈ maps) (inMaps' : m' ∈ maps)
    (ne : m ≠ m') (block : m.block = some b) (block' : m'.block = some b') : b.Apart b' := by
  obtain ⟨pages, -, heapInv⟩ := inv.mem.good
  have live := (List.pairwise_append.mp (List.pairwise_append.mp heapInv.apart).2.1).1
  have pairwise := List.pairwise_filterMap.mp live
  have symmetric : Std.Symm fun x y : Mapping =>
      ∀ c, x.block = some c → ∀ c', y.block = some c' → c.Apart c' :=
    ⟨fun x y apart c isC c' isC' => (apart c' isC' c isC).symm⟩
  exact pairwise.forall inMaps inMaps' ne b block b' block'

/-- Under one mapping, the pages of a range have different frames. -/
theorem Mapping.Ok.page_eq (ok : m.Ok layout) (covers : m.Covers v) (covers' : m.Covers w)
    (same : (m.call.range.leaf v).pa / 2 ^ 12 = (m.call.range.leaf w).pa / 2 ^ 12) :
    v / 2 ^ 12 = w / 2 ^ 12 := by
  rw [ok.leaf_eq covers, ok.leaf_eq covers'] at same
  simp only at same
  have frame : m.paddr.toNat % 2 ^ 12 = 0 := ok.small.pAligned
  have page : m.call.range.lo % 2 ^ 12 = 0 := by
    have aligned := ok.small.vAligned
    rw [MapCall.lo_eq]
    omega
  obtain ⟨low, -⟩ := covers
  obtain ⟨low', -⟩ := covers'
  omega

/-! ## Ranges in the lower half -/

/-- Where a range in the lower half is mapped. -/
theorem backing_covers {vaddr size : U64} {prot : BitVec 32} {b : Block} {o : Nat}
    (aligned : vaddr.toNat % 2 ^ 12 = 0) (low : vaddr.toNat < 2 ^ 39) :
    (backing vaddr size prot b).Covers o ↔
      vaddr.toNat ≤ o ∧ o < vaddr.toNat + pageUp size.toNat := by
  have base : (backing vaddr size prot b).call.base = 0 := by
    unfold MapCall.base
    rw [show (backing vaddr size prot b).call.vaddr = vaddr from rfl]
    omega
  have stop : (backing vaddr size prot b).call.stop = vaddr.toNat + pageUp size.toNat :=
    MapCall.stop_eq_add aligned
  unfold Mapping.Covers MapCall.range
  rw [base, stop]
  exact Iff.rfl

/-- A range that ends in the lower half lands where it is asked for. -/
theorem backing_landed {vaddr size : U64} {prot : BitVec 32} {b : Block}
    (aligned : vaddr.toNat % 2 ^ 12 = 0) (fits : vaddr.toNat + pageUp size.toNat ≤ 2 ^ 39) :
    (backing vaddr size prot b).landed = backing vaddr size prot b := by
  refine Mapping.landed_of_ne ?_
  rw [show (backing vaddr size prot b).call.stop = vaddr.toNat + pageUp size.toNat from
    MapCall.stop_eq_add aligned]
  omega

/-- A range of the lower half is in reach of the table. -/
theorem mappable_of_le {vaddr size : U64} (aligned : vaddr.toNat % 2 ^ 12 = 0)
    (fits : vaddr.toNat + pageUp size.toNat ≤ 2 ^ 39) : Mappable vaddr size := by
  have stop : (⟨vaddr, 0, size, 0⟩ : MapCall).stop = vaddr.toNat + pageUp size.toNat :=
    MapCall.stop_eq_add aligned
  refine .inr ⟨?_, ?_⟩
  · rw [stop]
    exact fits.trans (Nat.le_add_left _ _)
  · rw [stop]
    omega

end Translate

end Chinos
