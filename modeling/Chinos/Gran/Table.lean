import Chinos.Gran.Access

/-!
# Sequences of calls and the granule table

Any sequence of `gran_alloc`, `gran_free` of live allocations and `gran_dump` keeps to the table
iff every `gran_alloc` of it does. What is live has been marked inside the table, so giving it
back needs no condition.
-/

namespace Chinos

/-! ## Sequences of calls -/

/-- One of the three calls on the heap, with its argument. -/
inductive GranCall
  | alloc (size : Nat)
  | free (block : Block)
  | dump

/-- The call in a state, with the table words that it reads and writes. -/
def GranCall.run (s : HeapState) : GranCall → Traced Fault Int HeapState
  | .alloc size => do
    let (addr, gran) ← granAllocTraced s.gran size
    return ⟨gran, if addr = 0 then s.live else ⟨addr, size⟩ :: s.live⟩
  | .free block => do
    let gran ← granFreeTraced s.gran block.addr block.size
    return ⟨gran, s.live.erase block⟩
  | .dump => do
    let _ ← granDumpTraced s.gran
    return s

/-- The call in a state, by the functions of the model. -/
def GranCall.step (s : HeapState) : GranCall → Except Fault HeapState
  | .alloc size => do
    let (addr, gran) ← granAlloc s.gran size
    return ⟨gran, if addr = 0 then s.live else ⟨addr, size⟩ :: s.live⟩
  | .free block => do
    let gran ← granFree s.gran block.addr block.size
    return ⟨gran, s.live.erase block⟩
  | .dump => do
    let _ ← granDump s.gran
    return s

/-- Without the record of its accesses a call is what the model says. -/
theorem GranCall.run_outcome (s : HeapState) (call : GranCall) :
    (call.run s).outcome = call.step s := by
  cases call with
  | alloc size =>
    rw [GranCall.run, GranCall.step, Traced.outcome_bind, granAllocTraced_outcome]
    rfl
  | free block =>
    rw [GranCall.run, GranCall.step, Traced.outcome_bind, granFreeTraced_outcome]
    rfl
  | dump =>
    rw [GranCall.run, GranCall.step, Traced.outcome_bind, granDumpTraced_outcome]
    rfl

/-- A sequence of calls without the record is the sequence of the model. -/
theorem GranCall.calls_outcome (calls : List GranCall) :
    ∀ s, (calls.foldlM GranCall.run s).outcome = calls.foldlM GranCall.step s := by
  induction calls with
  | nil =>
    intro s
    rfl
  | cons call calls ih =>
    intro s
    rw [List.foldlM_cons, List.foldlM_cons, Traced.outcome_bind, GranCall.run_outcome]
    simp only [ih]

/-- Only live allocations are freed. A request of which 32 bits count no granule at all would
shift the mask by its whole width, which C does not define. -/
def GranCall.Legal (s : HeapState) : GranCall → Prop
  | .alloc size => 0 < size → size ≤ granLimit s.gran.log2gran →
    0 < granAllocCount s.gran.log2gran size
  | .free block => block ∈ s.live
  | .dump => True

/-- The condition under which a call keeps to the table. -/
def GranCall.StaysInside (s : HeapState) : GranCall → Prop
  | .alloc size => s.gran.StaysInside size
  | .free _ => True
  | .dump => True

/-- Every call of a sequence satisfies `Q` in the state in which it is made. -/
def EachCall (Q : HeapState → GranCall → Prop) : HeapState → List GranCall → Prop
  | _, [] => True
  | s, call :: calls => Q s call ∧
    match (call.run s).outcome with
    | .ok s' => EachCall Q s' calls
    | .error _ => True

instance (s : HeapState) (call : GranCall) : Decidable (call.Legal s) :=
  match call with
  | .alloc _ => inferInstanceAs (Decidable (_ → _ → _))
  | .free block => inferInstanceAs (Decidable (block ∈ s.live))
  | .dump => isTrue trivial

instance decidableEachCall (Q : HeapState → GranCall → Prop) [∀ s call, Decidable (Q s call)] :
    ∀ s calls, Decidable (EachCall Q s calls)
  | _, [] => isTrue trivial
  | s, call :: calls =>
    have : Decidable (match (call.run s).outcome with
        | .ok s' => EachCall Q s' calls
        | .error _ => True) :=
      match (call.run s).outcome with
      | .ok s' => decidableEachCall Q s' calls
      | .error _ => isTrue trivial
    inferInstanceAs (Decidable (_ ∧ _))

/-- Live allocations can be given back inside the table. -/
structure TableInv (s : HeapState) : Prop where
  log2gran_lt : s.gran.log2gran < 32
  ngranules_pos : 1 ≤ s.gran.ngranules
  live : ∀ block ∈ s.live,
    s.gran.RunInTable (granNo s.gran block.addr) (granFreeCount s.gran.log2gran block.size)

section Calls

variable {s s' : HeapState} {call : GranCall}

/-- The invariant depends on the table only through its size. -/
theorem TableInv.of_sameShape (inv : TableInv s) (same : s.gran.SameShape s'.gran)
    (live : ∀ block ∈ s'.live, block ∈ s.live ∨
      s.gran.RunInTable (granNo s.gran block.addr) (granFreeCount s.gran.log2gran block.size)) :
    TableInv s' := by
  refine ⟨?_, ?_, fun block mem => ?_⟩
  · rw [same.log2gran]
    exact inv.log2gran_lt
  · rw [same.ngranules]
    exact inv.ngranules_pos
  · rw [same.granNo, same.log2gran]
    apply same.runInTable
    rcases live block mem with old | new
    · exact inv.live block old
    · exact new

/-- One call keeps to the table exactly if the condition on it holds. -/
theorem TableInv.run_within (inv : TableInv s) (legal : call.Legal s) :
    (call.run s).Within s.gran.InTable ↔ call.StaysInside s := by
  cases call with
  | alloc size =>
    show (_ >>= _ : Traced Fault Int HeapState).Within _ ↔ s.gran.StaysInside size
    rw [Traced.within_bind, ← granAllocTraced_within inv.log2gran_lt inv.ngranules_pos legal]
    exact and_iff_left fun _ _ => Traced.within_pure _
  | free block =>
    refine iff_of_true ?_ trivial
    show (_ >>= _ : Traced Fault Int HeapState).Within _
    rw [Traced.within_bind]
    exact ⟨granFreeTraced_within (inv.live block legal), fun _ _ => Traced.within_pure _⟩
  | dump =>
    refine iff_of_true ?_ trivial
    show (_ >>= _ : Traced Fault Int HeapState).Within _
    rw [Traced.within_bind]
    exact ⟨granDumpTraced_within, fun _ _ => Traced.within_pure _⟩

/-- A call that keeps to the table keeps the invariant, and the size of the table. -/
theorem TableInv.run_ok (inv : TableInv s) (within : (call.run s).Within s.gran.InTable)
    (ok : (call.run s).outcome = .ok s') : TableInv s' ∧ s.gran.SameShape s'.gran := by
  cases call with
  | alloc size =>
    obtain ⟨⟨addr, gran'⟩, alloc, done⟩ := Traced.of_bind_ok ok
    obtain ⟨same, run⟩ :=
      granAllocTraced_ok inv.log2gran_lt (Traced.within_bind.mp within).1 alloc
    rw [← Except.ok.inj done]
    refine ⟨inv.of_sameShape same fun block mem => ?_, same⟩
    by_cases null : addr = 0
    · rw [if_pos null] at mem
      exact Or.inl mem
    · rw [if_neg null] at mem
      rcases List.mem_cons.mp mem with new | old
      · rw [new]
        exact Or.inr (run null)
      · exact Or.inl old
  | free block =>
    obtain ⟨gran', free, done⟩ := Traced.of_bind_ok ok
    have same := granFreeTraced_ok free
    rw [← Except.ok.inj done]
    exact ⟨inv.of_sameShape same fun _ mem => Or.inl (List.mem_of_mem_erase mem), same⟩
  | dump =>
    obtain ⟨info, -, done⟩ := Traced.of_bind_ok ok
    rw [← Except.ok.inj done]
    exact ⟨inv, MmGran.SameShape.refl _⟩

/-- A sequence of calls keeps to the table iff every call of it does. -/
theorem TableInv.calls_within (calls : List GranCall) :
    ∀ {s : HeapState}, TableInv s → EachCall GranCall.Legal s calls →
      ((calls.foldlM GranCall.run s).Within s.gran.InTable ↔
        EachCall GranCall.StaysInside s calls) := by
  induction calls with
  | nil =>
    intro s _ _
    exact iff_of_true (Traced.within_pure _) trivial
  | cons call calls ih =>
    intro s inv legal
    rw [EachCall] at legal ⊢
    obtain ⟨now, later⟩ := legal
    rw [List.foldlM_cons, Traced.within_bind, inv.run_within now]
    refine and_congr_right fun stays => ?_
    cases ok : (call.run s).outcome with
    | error fault => exact iff_of_true nofun trivial
    | ok s' =>
      rw [ok] at later
      obtain ⟨inv', same⟩ := inv.run_ok ((inv.run_within now).mpr stays) ok
      have rest := ih inv' later
      rw [same.inTable] at rest
      simp only [Except.ok.injEq, forall_eq']
      exact rest

end Calls

/-- For every admitted heap with at least one granule, whatever its table holds, a sequence of
calls accesses only words of the table iff every `gran_alloc` of it meets its condition. -/
theorem gat_accesses_inside_iff (geo : AdmittedHeap) (gat : Int → BitVec 32)
    (nonempty : 1 ≤ geo.ngranules) (calls : List GranCall)
    (legal : EachCall GranCall.Legal ⟨geo.heap gat, []⟩ calls) :
    (calls.foldlM GranCall.run ⟨geo.heap gat, []⟩).Within (geo.heap gat).InTable ↔
      EachCall GranCall.StaysInside ⟨geo.heap gat, []⟩ calls := by
  have inv : TableInv ⟨geo.heap gat, []⟩ := ⟨geo.log2gran_lt, nonempty, nofun⟩
  exact inv.calls_within calls legal

/-- A heap of 64 pages, whose table takes two words. -/
def twoWords : AdmittedHeap where
  log2gran := 12
  ngranules := 64
  heapstart := 0x40000000
  log2gran_pos := by decide
  log2gran_lt := smallHeap.log2gran_lt
  ngranules_lt := by decide
  heapstart_lt := by decide

/-- While the first of two table words has room for the request, the second one is the last
that is read. -/
theorem gat_accesses_inside_sample :
    ([.alloc 8192, .alloc 1, .free ⟨0x40000000, 8192⟩, .dump].foldlM GranCall.run
        ⟨twoWords.heap fun _ => 0, []⟩).Within (twoWords.heap fun _ => 0).InTable ∧
      EachCall GranCall.StaysInside ⟨twoWords.heap fun _ => 0, []⟩
        [.alloc 8192, .alloc 1, .free ⟨0x40000000, 8192⟩, .dump] := by
  have legal : EachCall GranCall.Legal ⟨twoWords.heap fun _ => 0, []⟩
      [.alloc 8192, .alloc 1, .free ⟨0x40000000, 8192⟩, .dump] := by decide +kernel
  have within : ([.alloc 8192, .alloc 1, .free ⟨0x40000000, 8192⟩, .dump].foldlM GranCall.run
      ⟨twoWords.heap fun _ => 0, []⟩).Within (twoWords.heap fun _ => 0).InTable := by
    unfold Traced.Within
    decide +kernel
  exact ⟨within, (gat_accesses_inside_iff twoWords _ (by decide) _ legal).mp within⟩

/-- A heap of 32 pages, whose table takes one word. -/
def oneWord : AdmittedHeap := { twoWords with ngranules := 32, ngranules_lt := by decide }

/-- The table of 32 granules has one word. The first request of all reads the second one. -/
theorem oneWord_read_behind :
    sizeofGat oneWord.ngranules = 1 ∧
      EachCall GranCall.Legal ⟨oneWord.heap fun _ => 0, []⟩ [.alloc 1] ∧
      ([.alloc 1].foldlM GranCall.run ⟨oneWord.heap fun _ => 0, []⟩).accesses = [0, 1, 0, 0, 0] ∧
      ¬ ([.alloc 1].foldlM GranCall.run ⟨oneWord.heap fun _ => 0, []⟩).Within
        (oneWord.heap fun _ => 0).InTable := by
  unfold Traced.Within
  decide +kernel

end Chinos
