import Chinos.Gran.Info
import Chinos.Machine.Traced

/-!
# The accesses to the granule table

The functions of `mm_gran.c` and `gran_dump` once more, with every access to `gran->gat`
recorded. Without the record they are the functions of the model.
-/

namespace Chinos

/-! ## The accesses -/

/-- The read of `gran->gat[index]`, with its index recorded. -/
def MmGran.readGat (gran : MmGran) (index : Int) : Traced Fault Int (BitVec 32) :=
  .access index (gran.gat index)

/-- The assignment `gran->gat[index] = word`, with its index recorded. -/
def MmGran.writeGat (gran : MmGran) (index : Int) (word : BitVec 32) : Traced Fault Int MmGran :=
  .access index (gran.setGat index word)

/-- The bits of `gatmask` are checked in a table word, and the word is changed. -/
def updateWordTraced (gran : MmGran) (index : Int) (gatmask expected : BitVec 32)
    (update : BitVec 32 → BitVec 32) : Traced Fault Int MmGran := do
  let word ← gran.readGat index
  require (word &&& gatmask = expected) .assertion
  let word ← gran.readGat index
  gran.writeGat index (update word)

/-- The bits of `gatmask` are clear and get set. -/
def markWordTraced (gran : MmGran) (index : Int) (gatmask : BitVec 32) : Traced Fault Int MmGran :=
  updateWordTraced gran index gatmask 0 (· ||| gatmask)

/-- The bits of `gatmask` are set and get cleared. -/
def clearWordTraced (gran : MmGran) (index : Int) (gatmask : BitVec 32) :
    Traced Fault Int MmGran :=
  updateWordTraced gran index gatmask gatmask (· &&& ~~~gatmask)

/-- The one or two words of a run of `ngranules` granules at `granno`. -/
def granWordsTraced (word : MmGran → Int → BitVec 32 → Traced Fault Int MmGran) (gran : MmGran)
    (granno ngranules : Nat) : Traced Fault Int MmGran :=
  let gatidx : Int := (granno >>> 5 : Nat)
  let gatbit := granno % 32
  let avail := 32 - gatbit
  if ngranules > avail then do
    let gran ← word gran gatidx (BitVec.allOnes 32 <<< gatbit)
    word gran (gatidx + 1) (granMask (ngranules - avail))
  else
    word gran gatidx (granMask ngranules <<< gatbit)

/-- `gran_mark_allocated`, with its accesses to the table. -/
def granMarkAllocatedTraced (gran : MmGran) (alloc ngranules : Nat) : Traced Fault Int MmGran :=
  granWordsTraced markWordTraced gran (granNo gran alloc) ngranules

/-- `gran_free`, with its accesses to the table. -/
def granFreeTraced (gran : MmGran) (memory size : Nat) : Traced Fault Int MmGran := do
  require (memory ≠ 0 ∧ size ≤ granLimit gran.log2gran) .assertion
  granWordsTraced clearWordTraced gran (granNo gran memory) (granFreeCount gran.log2gran size)

/-- `next`: the source tests `granidx` once more, so the all-ones arm is dead. -/
def MmGran.nextTraced (gran : MmGran) (granidx : Int) : Traced Fault Int (BitVec 32) :=
  if cU32 granidx < gran.ngranules then gran.readGat (granidx >>> (5 : Nat) + 1)
  else pure (BitVec.allOnes 32)

/-- The outer loop of `gran_alloc`, with its accesses to the table. -/
def granSearchTraced (gran : MmGran) (ngranules : Nat) :
    Nat → (granidx : Int) → Traced Fault Int (Option Nat)
  | 0, granidx => if cU32 granidx < gran.ngranules then .fail .diverge else pure none
  | rounds + 1, granidx =>
    if cU32 granidx < gran.ngranules then do
      let curr ← gran.readGat (granidx >>> (5 : Nat))
      if curr = BitVec.allOnes 32 then
        granSearchTraced gran ngranules rounds (cInt (granidx + 32))
      else do
        let next ← gran.nextTraced granidx
        let alloc := cU64 (gran.heapstart + cInt (granidx * 2 ^ gran.log2gran))
        match granScan gran ngranules granidx 33 0 alloc curr next with
        | some alloc => pure (some alloc)
        | none => granSearchTraced gran ngranules rounds (cInt (granidx + 32))
    else
      pure none

/-- What `gran_alloc` does with the outcome of the search. -/
def granTakeTraced (gran : MmGran) (ngranules : Nat) :
    Option Nat → Traced Fault Int (Nat × MmGran)
  | some alloc => do
    let gran ← granMarkAllocatedTraced gran alloc ngranules
    return (alloc, gran)
  | none => return (0, gran)

/-- `gran_alloc`, with its accesses to the table. -/
def granAllocTraced (gran : MmGran) (size : Nat) : Traced Fault Int (Nat × MmGran) := do
  require (size ≤ granLimit gran.log2gran) .assertion
  if size > 0 then do
    let ngranules := granAllocCount gran.log2gran size
    require (ngranules ≤ 32) .assertion
    let found ← granSearchTraced gran ngranules (sizeofGat gran.ngranules) 0
    granTakeTraced gran ngranules found
  else
    return (0, gran)

/-- What the loop of `gran_dump` makes of the table word at `granidx`. -/
def granDumpValue (gran : MmGran) (granidx value : Nat) (info : GranInfo) (mxfree : Nat) :
    GranInfo × Nat :=
  if cU32 (granidx + 32) > gran.ngranules then
    let nbits := gran.ngranules - granidx
    let mask := 2 ^ nbits - 1
    granDumpWord (value &&& mask) nbits mask info mxfree
  else granDumpWord value 32 0xffffffff info mxfree

/-- The loop of `gran_dump`, with its accesses to the table. -/
def granDumpLoopTraced (gran : MmGran) :
    (rounds granidx : Nat) → GranInfo → (mxfree : Nat) → Traced Fault Int (GranInfo × Nat)
  | 0, granidx, info, mxfree =>
    if granidx < gran.ngranules then .fail .diverge else pure (info, mxfree)
  | rounds + 1, granidx, info, mxfree =>
    if granidx < gran.ngranules then do
      let value ← gran.readGat (granidx >>> 5 : Nat)
      let result := granDumpValue gran granidx value.toNat info mxfree
      granDumpLoopTraced gran rounds (cU32 (granidx + 32)) result.1 result.2
    else
      pure (info, mxfree)

/-- `gran_dump`, with its accesses to the table. -/
def granDumpTraced (gran : MmGran) : Traced Fault Int GranInfo := do
  let info : GranInfo := ⟨gran.log2gran, gran.ngranules, 0, 0⟩
  let (info, mxfree) ← granDumpLoopTraced gran (sizeofGat gran.ngranules) 0 info 0
  return info.note mxfree

/-! ## The same functions -/

section Erasure

variable (gran : MmGran)

theorem updateWordTraced_outcome (index : Int) (gatmask expected : BitVec 32)
    (update : BitVec 32 → BitVec 32) :
    (updateWordTraced gran index gatmask expected update).outcome = (do
      require (gran.gat index &&& gatmask = expected) .assertion
      return gran.setGat index (update (gran.gat index))) := by
  simp only [updateWordTraced, MmGran.readGat, MmGran.writeGat, Traced.outcome_bind,
    Traced.outcome_access, Traced.outcome_lift, ok_bind]
  rfl

theorem granMarkAllocatedTraced_outcome (alloc ngranules : Nat) :
    (granMarkAllocatedTraced gran alloc ngranules).outcome =
      granMarkAllocated gran alloc ngranules := by
  unfold granMarkAllocatedTraced granWordsTraced granMarkAllocated
  simp only
  split
  · simp only [markWordTraced, Traced.outcome_bind, updateWordTraced_outcome, bind_assoc, pure_bind]
  · exact updateWordTraced_outcome gran _ _ _ _

/-- The end of `gran_free`, for any granule number and count. -/
theorem clearWordsTraced_outcome (granno ngranules : Nat) :
    (granWordsTraced clearWordTraced gran granno ngranules).outcome = (do
      let gatidx : Int := (granno >>> 5 : Nat)
      let gatbit := granno % 32
      let avail := 32 - gatbit
      if ngranules > avail then
        let gatmask := BitVec.allOnes 32 <<< gatbit
        require (gran.gat gatidx &&& gatmask = gatmask) .assertion
        let gran := gran.setGat gatidx (gran.gat gatidx &&& ~~~gatmask)
        let gatmask := granMask (ngranules - avail)
        require (gran.gat (gatidx + 1) &&& gatmask = gatmask) .assertion
        return gran.setGat (gatidx + 1) (gran.gat (gatidx + 1) &&& ~~~gatmask)
      else
        let gatmask := granMask ngranules <<< gatbit
        require (gran.gat gatidx &&& gatmask = gatmask) .assertion
        return gran.setGat gatidx (gran.gat gatidx &&& ~~~gatmask)) := by
  unfold granWordsTraced
  simp only
  split
  · simp only [clearWordTraced, Traced.outcome_bind, updateWordTraced_outcome, bind_assoc,
      pure_bind]
  · exact updateWordTraced_outcome gran _ _ _ _

theorem granFreeTraced_outcome (memory size : Nat) :
    (granFreeTraced gran memory size).outcome = granFree gran memory size := by
  unfold granFreeTraced granFree
  by_cases valid : memory ≠ 0 ∧ size ≤ granLimit gran.log2gran
  · rw [Traced.check_bind_of_ok (require_of_pos valid), require_bind_of_pos valid,
      clearWordsTraced_outcome]
  · rw [Traced.check_bind_of_error (require_of_neg valid), require_bind_of_neg valid,
      Traced.outcome_fail]

theorem granSearchTraced_outcome (k rounds : Nat) :
    ∀ granidx, (granSearchTraced gran k rounds granidx).outcome =
      granSearch gran k rounds granidx := by
  induction rounds with
  | zero =>
    intro granidx
    rw [granSearchTraced, granSearch]
    split <;> rfl
  | succ rounds ih =>
    intro granidx
    rw [granSearchTraced, granSearch]
    by_cases inHeap : cU32 granidx < gran.ngranules
    · rw [if_pos inHeap, if_pos inHeap]
      simp only [Traced.outcome_bind, MmGran.readGat, Traced.outcome_access, ok_bind,
        MmGran.nextTraced, if_pos inHeap]
      split
      · exact ih _
      · simp only [Traced.outcome_bind, Traced.outcome_access, ok_bind]
        cases granScan gran k granidx 33 0
            (cU64 (gran.heapstart + cInt (granidx * 2 ^ gran.log2gran)))
            (gran.gat (granidx >>> (5 : Nat))) (gran.gat (granidx >>> (5 : Nat) + 1)) with
        | none => exact ih _
        | some alloc => rfl
    · rw [if_neg inHeap, if_neg inHeap]
      rfl

theorem granAllocTraced_outcome (size : Nat) :
    (granAllocTraced gran size).outcome = granAlloc gran size := by
  unfold granAllocTraced granAlloc
  simp only [Traced.outcome_bind, Traced.outcome_lift]
  congr 1
  funext _
  split
  · simp only [Traced.outcome_bind, Traced.outcome_lift, granSearchTraced_outcome]
    congr 1
    funext _
    congr 1
    funext found
    cases found with
    | none => rfl
    | some alloc =>
      simp only [granTakeTraced, Traced.outcome_bind, granMarkAllocatedTraced_outcome]
      rfl
  · rfl

theorem granDumpLoopTraced_outcome (rounds : Nat) :
    ∀ granidx info mxfree, (granDumpLoopTraced gran rounds granidx info mxfree).outcome =
      granDumpLoop gran rounds granidx info mxfree := by
  induction rounds with
  | zero =>
    intro granidx info mxfree
    rw [granDumpLoopTraced, granDumpLoop]
    split <;> rfl
  | succ rounds ih =>
    intro granidx info mxfree
    rw [granDumpLoopTraced, granDumpLoop]
    split
    · simp only [Traced.outcome_bind, MmGran.readGat, Traced.outcome_access, ok_bind, ih]
      rfl
    · rfl

theorem granDumpTraced_outcome : (granDumpTraced gran).outcome = granDump gran := by
  unfold granDumpTraced granDump
  simp only [Traced.outcome_bind, granDumpLoopTraced_outcome]
  rfl

end Erasure

end Chinos
