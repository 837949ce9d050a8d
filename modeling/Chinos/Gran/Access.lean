import Chinos.Gran.Exact
import Chinos.Gran.Trace

/-!
# Which words of the granule table are accessed

The table has `SIZEOF_GAT(ngranules)` words. `gran_dump` keeps to it, and so does `gran_free` for
a run whose words were marked. `gran_alloc` does not: the search takes the word behind the one it
looks at for the upper half of its window, and the test that is meant to stop it at the last word
repeats the condition of the loop, so there it reads on behind the table.
-/

namespace Chinos

/-! ## Inside the table -/

/-- The index names a word of the table, and not of the memory around it. -/
def MmGran.InTable (gran : MmGran) (index : Int) : Prop :=
  0 ≤ index ∧ index < sizeofGat gran.ngranules

instance (gran : MmGran) : DecidablePred gran.InTable := fun _ =>
  inferInstanceAs (Decidable (_ ∧ _))

theorem lt_sizeofGat {a n : Nat} : a < sizeofGat n ↔ 32 * a < n := by
  rw [sizeofGat, Nat.shiftRight_eq_div_pow]
  omega

theorem MmGran.inTable_natCast {gran : MmGran} {a : Nat} :
    gran.InTable a ↔ a < sizeofGat gran.ngranules := by
  unfold MmGran.InTable
  omega

theorem MmGran.inTable_succ {gran : MmGran} {a : Nat} :
    gran.InTable (a + 1) ↔ a + 1 < sizeofGat gran.ngranules := by
  unfold MmGran.InTable
  omega

theorem MmGran.SameShape.inTable {gran gran' : MmGran} (same : gran.SameShape gran') :
    gran'.InTable = gran.InTable := by
  funext index
  rw [MmGran.InTable, MmGran.InTable, same.ngranules]

/-- The words of a run of `k` granules at `granno` are in the table. -/
structure MmGran.RunInTable (gran : MmGran) (granno k : Nat) : Prop where
  first : granno / 32 < sizeofGat gran.ngranules
  second : 32 - granno % 32 < k → granno / 32 + 1 < sizeofGat gran.ngranules

theorem MmGran.SameShape.runInTable {gran gran' : MmGran} (same : gran.SameShape gran')
    {granno k : Nat} (inside : gran.RunInTable granno k) : gran'.RunInTable granno k := by
  constructor
  · rw [same.ngranules]
    exact inside.first
  · rw [same.ngranules]
    exact inside.second

section Words

variable {gran gran' : MmGran} {P : Int → Prop} {index : Int} {gatmask expected : BitVec 32}
  {update : BitVec 32 → BitVec 32} {granno k : Nat}

theorem updateWordTraced_within :
    (updateWordTraced gran index gatmask expected update).Within P ↔ P index := by
  simp only [updateWordTraced, MmGran.readGat, MmGran.writeGat, Traced.within_bind,
    Traced.within_access, Traced.within_lift, true_and]
  exact ⟨fun within => within.1, fun inside => ⟨inside, fun _ _ _ _ => ⟨inside, fun _ _ => inside⟩⟩⟩

theorem markWordTraced_within : (markWordTraced gran index gatmask).Within P ↔ P index :=
  updateWordTraced_within

theorem clearWordTraced_within : (clearWordTraced gran index gatmask).Within P ↔ P index :=
  updateWordTraced_within

theorem updateWordTraced_ok
    (ok : (updateWordTraced gran index gatmask expected update).outcome = .ok gran') :
    gran.gat index &&& gatmask = expected ∧ gran.SameShape gran' := by
  rw [updateWordTraced_outcome] at ok
  obtain ⟨checked, done⟩ := of_require_bind_ok ok
  rw [← Except.ok.inj done]
  exact ⟨checked, gran.sameShape_setGat _ _⟩

theorem updateWordTraced_of_check (checked : gran.gat index &&& gatmask = expected) :
    (updateWordTraced gran index gatmask expected update).outcome =
      .ok (gran.setGat index (update (gran.gat index))) := by
  rw [updateWordTraced_outcome, require_bind_of_pos checked]
  rfl

/-- The words that `gran_mark_allocated` and `gran_free` access for a run. The second one is
reached if the run needs it and the check of the first one passes. -/
theorem granWordsTraced_within {word : MmGran → Int → BitVec 32 → Traced Fault Int MmGran}
    (one : ∀ gran index gatmask, (word gran index gatmask).Within P ↔ P index) :
    (granWordsTraced word gran granno k).Within P ↔
      P (granno / 32 : Nat) ∧ (32 - granno % 32 < k → ∀ gran',
        (word gran (granno / 32 : Nat) (BitVec.allOnes 32 <<< (granno % 32))).outcome =
          .ok gran' → P ((granno / 32 : Nat) + 1)) := by
  unfold granWordsTraced
  simp only [Nat.shiftRight_eq_div_pow, Nat.reducePow]
  split
  · next two =>
    rw [Traced.within_bind, one]
    simp only [one]
    exact and_congr_right fun _ => ⟨fun second _ => second, fun second => second two⟩
  · next single =>
    rw [one]
    exact ⟨fun inside => ⟨inside, fun two => absurd two single⟩, fun both => both.1⟩

theorem granWordsTraced_ok {word : MmGran → Int → BitVec 32 → Traced Fault Int MmGran}
    (shape : ∀ {gran index gatmask gran'}, (word gran index gatmask).outcome = .ok gran' →
      gran.SameShape gran')
    (ok : (granWordsTraced word gran granno k).outcome = .ok gran') :
    gran.SameShape gran' ∧ (32 - granno % 32 < k → ∃ gran'',
      (word gran (granno / 32 : Nat) (BitVec.allOnes 32 <<< (granno % 32))).outcome =
        .ok gran'') := by
  unfold granWordsTraced at ok
  simp only [Nat.shiftRight_eq_div_pow, Nat.reducePow] at ok
  split at ok
  · obtain ⟨gran'', first, second⟩ := Traced.of_bind_ok ok
    exact ⟨(shape first).trans (shape second), fun _ => ⟨gran'', first⟩⟩
  · next single => exact ⟨shape ok, fun two => absurd two single⟩

end Words

/-! ## `gran_free` and `gran_dump` -/

section FreeDump

variable {gran gran' : MmGran} {memory size : Nat}

theorem granFreeTraced_within
    (inside : gran.RunInTable (granNo gran memory) (granFreeCount gran.log2gran size)) :
    (granFreeTraced gran memory size).Within gran.InTable := by
  unfold granFreeTraced
  rw [Traced.within_bind]
  refine ⟨Traced.within_lift _, fun _ _ => ?_⟩
  rw [granWordsTraced_within fun _ _ _ => clearWordTraced_within]
  exact ⟨MmGran.inTable_natCast.mpr inside.first, fun two _ _ =>
    MmGran.inTable_succ.mpr (inside.second two)⟩

theorem granFreeTraced_ok (ok : (granFreeTraced gran memory size).outcome = .ok gran') :
    gran.SameShape gran' := by
  unfold granFreeTraced at ok
  have words := Traced.of_check_bind_ok ok
  exact (granWordsTraced_ok (fun one => (updateWordTraced_ok one).2) words).1

theorem granDumpLoopTraced_within (rounds : Nat) :
    ∀ granidx info mxfree,
      (granDumpLoopTraced gran rounds granidx info mxfree).Within gran.InTable := by
  induction rounds with
  | zero =>
    intro granidx info mxfree
    rw [granDumpLoopTraced]
    split
    · exact Traced.within_fail _
    · exact Traced.within_pure _
  | succ rounds ih =>
    intro granidx info mxfree
    rw [granDumpLoopTraced]
    split
    · next inHeap =>
      rw [Traced.within_bind]
      refine ⟨Traced.within_access.mpr (MmGran.inTable_natCast.mpr ?_), fun _ _ => ih _ _ _⟩
      rw [lt_sizeofGat, Nat.shiftRight_eq_div_pow]
      omega
    · exact Traced.within_pure _

theorem granDumpTraced_within : (granDumpTraced gran).Within gran.InTable := by
  unfold granDumpTraced
  rw [Traced.within_bind]
  exact ⟨granDumpLoopTraced_within _ _ _ _, fun _ _ => Traced.within_pure _⟩

end FreeDump

/-! ## The search -/

section Search

variable {gran : MmGran} {k g : Nat}

/-- Past the end of the heap nothing more is accessed. -/
theorem granSearchTraced_done {P : Int → Prop} (rounds : Nat) (past : gran.ngranules ≤ g)
    (small : g < 2 ^ 32) : (granSearchTraced gran k rounds (cInt g)).Within P := by
  cases rounds with
  | zero =>
    rw [granSearchTraced, cU32_cInt, cU32_natCast small, if_neg (by omega)]
    exact Traced.within_pure _
  | succ rounds =>
    rw [granSearchTraced, cU32_cInt, cU32_natCast small, if_neg (by omega)]
    exact Traced.within_pure _

/-- The accesses of one round: the word of `g`, and the next one unless the word is full. -/
theorem granSearchTraced_word {P : Int → Prop} (unit : gran.log2gran ≤ 26) (pos : 0 < k)
    (le : k ≤ 32) (aligned : g % 32 = 0) (low : g < 2 ^ 31) (inHeap : g < gran.ngranules)
    (rounds : Nat) :
    ∃ result, gran.FirstFit k g (g + 32) result ∧
      ((granSearchTraced gran k (rounds + 1) (cInt g)).Within P ↔
        P (g / 32 : Nat) ∧
        (gran.gat (g / 32 : Nat) ≠ BitVec.allOnes 32 → P ((g / 32 : Nat) + 1)) ∧
        (result = none → (granSearchTraced gran k rounds (cInt (g + 32 : Nat))).Within P)) := by
  have granidx : cInt (g : Int) = g := cInt_natCast low
  have unsigned : cU32 (g : Int) = g := cU32_natCast (by omega)
  have next : (g : Int) + 32 = (g + 32 : Nat) := by push_cast; rfl
  rw [granSearchTraced, granidx, unsigned, if_pos inHeap, Traced.within_bind, shiftRight_five]
  simp only [MmGran.readGat, Traced.within_access, Traced.outcome_access, Except.ok.injEq,
    forall_eq']
  by_cases full : gran.gat (g / 32 : Nat) = BitVec.allOnes 32
  · refine ⟨none, MmGran.firstFit_of_full pos aligned full, ?_⟩
    simp only [full, if_true, ne_eq, not_true_eq_false, false_implies, true_and, true_implies, next]
  · refine ⟨_, granScanBit_firstFit pos le low 33 0 (by omega) fun _ => gran.windowAt_zero aligned,
      ?_⟩
    simp only [full, if_false, ne_eq, not_false_eq_true, true_implies, Traced.within_bind,
      MmGran.nextTraced, unsigned, inHeap, if_true, shiftRight_five, MmGran.readGat,
      Traced.within_access, Traced.outcome_access, Except.ok.injEq, forall_eq']
    rw [granScan_eq unit (g : Int) (gran.heapstart + cInt (g * 2 ^ gran.log2gran)) 33
      (by rw [Nat.cast_zero, Int.zero_mul, Int.add_zero])]
    cases granScanBit gran k g 33 0 (gran.gat (g / 32 : Nat)) (gran.gat ((g / 32 : Nat) + 1)) with
    | none => simp only [Option.map_none, true_implies, next]
    | some bit =>
      simp only [Option.map_some, Traced.within_pure, reduceCtorEq, false_implies]

/-- The search keeps to the table from granule `g` on: it finds a run in front of the last word,
and before an `int` has counted too far, or it finds none and skips the last word. -/
inductive MmGran.SearchInside (gran : MmGran) (k g : Nat) : Prop
  | found (i : Nat) : gran.FirstFit k g gran.ngranules (some i) →
    i / 32 + 1 < sizeofGat gran.ngranules → i < 2 ^ 31 → gran.SearchInside k g
  | skipped : gran.FirstFit k g gran.ngranules none → gran.ngranules ≤ 2 ^ 31 →
    gran.gat (sizeofGat gran.ngranules - 1 : Nat) = BitVec.allOnes 32 → gran.SearchInside k g

theorem MmGran.searchInside_next (none : gran.FirstFit k g (g + 32) none) :
    gran.SearchInside k g ↔ gran.SearchInside k (g + 32) := by
  constructor
  · intro inside
    cases inside with
    | found i first word low => exact .found i (first.after_skip none (by omega)) word low
    | skipped first few full => exact .skipped (first.after_skip none (by omega)) few full
  · intro inside
    cases inside with
    | found i first word low => exact .found i (first.of_skip none (by omega)) word low
    | skipped first few full => exact .skipped (first.of_skip none (by omega)) few full

/-- In the last word the search keeps to the table iff the word is full. -/
theorem MmGran.searchInside_last (pos : 0 < k) (aligned : g % 32 = 0) (low : g < 2 ^ 31)
    (inHeap : g < gran.ngranules) (last : gran.ngranules ≤ g + 32) :
    gran.SearchInside k g ↔ gran.gat (g / 32 : Nat) = BitVec.allOnes 32 := by
  have words : sizeofGat gran.ngranules = g / 32 + 1 := by
    rw [sizeofGat, Nat.shiftRight_eq_div_pow]
    omega
  constructor
  · intro inside
    cases inside with
    | found i first word =>
      have above := first.1
      omega
    | skipped _ _ full =>
      rw [words] at full
      exact full
  · intro full
    have none := MmGran.firstFit_of_full pos aligned full
    refine .skipped (fun i above below => none i above (by omega)) (by omega) ?_
    rw [words]
    exact full

/-- From granule `2 ^ 31` on the `int` has wrapped around, and the index is negative. -/
theorem granSearchTraced_wrapped (inHeap : 2 ^ 31 < gran.ngranules) (rounds : Nat) :
    ¬ (granSearchTraced gran k (rounds + 1) (cInt (2 ^ 31 : Nat))).Within gran.InTable := by
  have index : cInt (2 ^ 31 : Nat) >>> (5 : Nat) = -2 ^ 26 := by decide
  have unsigned : cU32 (cInt (2 ^ 31 : Nat)) < gran.ngranules := by
    rw [cU32_cInt, cU32_natCast (by decide)]
    exact inHeap
  intro within
  rw [granSearchTraced, if_pos unsigned, Traced.within_bind, index] at within
  have negative := (Traced.within_access.mp within.1).1
  omega

theorem MmGran.not_searchInside_wrapped (inHeap : 2 ^ 31 < gran.ngranules) :
    ¬ gran.SearchInside k (2 ^ 31) := by
  intro inside
  cases inside with
  | found i first _ low =>
    have above := first.1
    omega
  | skipped _ few => omega

/-- The accesses of the search, from any word on that an `int` can count up to or nearly so. -/
theorem granSearchTraced_within (unit : gran.log2gran ≤ 26) (pos : 0 < k) (le : k ≤ 32)
    (rounds : Nat) :
    ∀ {g : Nat}, g % 32 = 0 → g ≤ 2 ^ 31 → g < gran.ngranules →
      gran.ngranules ≤ g + 32 * rounds →
      ((granSearchTraced gran k rounds (cInt g)).Within gran.InTable ↔
        gran.SearchInside k g) := by
  induction rounds with
  | zero =>
    intro g _ _ inHeap enough
    omega
  | succ rounds ih =>
    intro g aligned bound inHeap enough
    rcases Nat.lt_or_eq_of_le bound with low | top
    · obtain ⟨result, first, accesses⟩ :=
        granSearchTraced_word (P := gran.InTable) unit pos le aligned low inHeap rounds
      have here : gran.InTable (g / 32 : Nat) := by
        rw [MmGran.inTable_natCast, lt_sizeofGat]
        omega
      rw [accesses]
      by_cases more : g + 32 < gran.ngranules
      · have there : gran.InTable ((g / 32 : Nat) + 1) := by
          rw [MmGran.inTable_succ, lt_sizeofGat]
          omega
        simp only [here, there, true_and, implies_true]
        cases result with
        | none =>
          rw [MmGran.searchInside_next first, ← ih (by omega) (by omega) more (by omega)]
          simp only [true_implies]
        | some i =>
          obtain ⟨above, below, fits, least⟩ := first
          have room := fits.1
          refine iff_of_true nofun (.found i ⟨above, by omega, fits, least⟩ ?_ (by omega))
          rw [lt_sizeofGat]
          omega
      · -- the last word: the read behind it is outside the table
        have outside : ¬ gran.InTable ((g / 32 : Nat) + 1) := by
          rw [MmGran.inTable_succ, lt_sizeofGat]
          omega
        have rest : (granSearchTraced gran k rounds (cInt (g + 32 : Nat))).Within gran.InTable :=
          granSearchTraced_done rounds (by omega) (by omega)
        rw [MmGran.searchInside_last pos aligned low inHeap (by omega)]
        simp only [here, outside, rest, true_and, implies_true, and_true, imp_false, ne_eq,
          not_not]
    · rw [top] at inHeap ⊢
      exact iff_of_false (granSearchTraced_wrapped inHeap rounds)
        (MmGran.not_searchInside_wrapped inHeap)

end Search

/-! ## `gran_alloc` -/

/-- The request does not get as far as the table. -/
def MmGran.Refuses (gran : MmGran) (size : Nat) : Prop :=
  granLimit gran.log2gran < size ∨ size = 0 ∨ 32 < granAllocCount gran.log2gran size

/-- What `gran_mark_allocated` accesses for a run of `k` granules at `granno` is in the table:
the first word, and the second one if the run needs it and the first one is clear. -/
structure MmGran.MarkInTable (gran : MmGran) (granno k : Nat) : Prop where
  first : granno / 32 < sizeofGat gran.ngranules
  second : 32 - granno % 32 < k →
    gran.gat (granno / 32 : Nat) &&& (BitVec.allOnes 32 <<< (granno % 32)) = 0 →
    granno / 32 + 1 < sizeofGat gran.ngranules

/-- `gran_alloc` keeps to the table: it refuses the request, or finds a run in front of the last
word and marks it inside the table, or finds none and skips a full last word. -/
inductive MmGran.StaysInside (gran : MmGran) (size : Nat) : Prop
  | refused : gran.Refuses size → gran.StaysInside size
  | found (i : Nat) :
    gran.FirstFit (granAllocCount gran.log2gran size) 0 gran.ngranules (some i) →
    i / 32 + 1 < sizeofGat gran.ngranules → i < 2 ^ 31 →
    gran.MarkInTable (granLanding gran.log2gran i) (granAllocCount gran.log2gran size) →
    gran.StaysInside size
  | skipped :
    gran.FirstFit (granAllocCount gran.log2gran size) 0 gran.ngranules none →
    gran.ngranules ≤ 2 ^ 31 →
    gran.gat (sizeofGat gran.ngranules - 1 : Nat) = BitVec.allOnes 32 → gran.StaysInside size

section Alloc

variable {gran gran' : MmGran} {size alloc addr k : Nat}

theorem granMarkAllocatedTraced_within :
    (granMarkAllocatedTraced gran alloc k).Within gran.InTable ↔
      gran.MarkInTable (granNo gran alloc) k := by
  unfold granMarkAllocatedTraced
  rw [granWordsTraced_within fun _ _ _ => markWordTraced_within, MmGran.inTable_natCast,
    MmGran.inTable_succ]
  constructor
  · rintro ⟨first, second⟩
    exact ⟨first, fun two clear => second two _ (updateWordTraced_of_check clear)⟩
  · intro inside
    exact ⟨inside.first, fun two _ ok => inside.second two (updateWordTraced_ok ok).1⟩

theorem granMarkAllocatedTraced_ok (ok : (granMarkAllocatedTraced gran alloc k).outcome = .ok gran')
    (within : (granMarkAllocatedTraced gran alloc k).Within gran.InTable) :
    gran.SameShape gran' ∧ gran.RunInTable (granNo gran alloc) k := by
  rw [granMarkAllocatedTraced_within] at within
  obtain ⟨same, first⟩ := granWordsTraced_ok (fun one => (updateWordTraced_ok one).2) ok
  refine ⟨same, within.first, fun two => within.second two ?_⟩
  obtain ⟨_, marked⟩ := first two
  exact (updateWordTraced_ok marked).1

theorem granAllocTraced_of_refuses {P : Int → Prop} (refuses : gran.Refuses size) :
    (granAllocTraced gran size).Within P ∧
      ∀ result, (granAllocTraced gran size).outcome = .ok result → result = (0, gran) := by
  unfold granAllocTraced
  by_cases limit : size ≤ granLimit gran.log2gran
  · rw [Traced.check_bind_of_ok (require_of_pos limit)]
    by_cases pos : size > 0
    · have many : ¬ granAllocCount gran.log2gran size ≤ 32 := by
        unfold MmGran.Refuses at refuses
        omega
      rw [if_pos pos, Traced.check_bind_of_error (require_of_neg many)]
      exact ⟨Traced.within_fail _, nofun⟩
    · rw [if_neg pos]
      exact ⟨Traced.within_pure _, fun result ok => (Except.ok.inj ok).symm⟩
  · rw [Traced.check_bind_of_error (require_of_neg limit)]
    exact ⟨Traced.within_fail _, nofun⟩

theorem granAllocTraced_of_accepts (accepts : ¬ gran.Refuses size) :
    granAllocTraced gran size =
      (granSearchTraced gran (granAllocCount gran.log2gran size) (sizeofGat gran.ngranules) 0 >>=
        granTakeTraced gran (granAllocCount gran.log2gran size)) := by
  unfold MmGran.Refuses at accepts
  push Not at accepts
  obtain ⟨limit, nonzero, few⟩ := accepts
  unfold granAllocTraced
  rw [Traced.check_bind_of_ok (require_of_pos limit), if_pos (by omega),
    Traced.check_bind_of_ok (require_of_pos few)]

theorem MmGran.log2gran_le_of_accepts (accepts : ¬ gran.Refuses size)
    (lt : gran.log2gran < 32) : gran.log2gran ≤ 26 := by
  by_contra large
  refine accepts ?_
  unfold MmGran.Refuses
  rw [granLimit_eq_zero (by omega) lt]
  omega

theorem granTakeTraced_within {P : Int → Prop} :
    (granTakeTraced gran k (some alloc)).Within P ↔
      (granMarkAllocatedTraced gran alloc k).Within P := by
  rw [granTakeTraced, Traced.within_bind]
  simp only [Traced.within_pure, implies_true, and_true]

/-- The whole search, by its accesses and its outcome. -/
theorem granSearchTraced_inside (unit : gran.log2gran ≤ 26) (pos : 0 < k) (le : k ≤ 32)
    (nonempty : 1 ≤ gran.ngranules) :
    (granSearchTraced gran k (sizeofGat gran.ngranules) 0).Within gran.InTable ↔
      gran.SearchInside k 0 := by
  have iff := granSearchTraced_within unit pos le (sizeofGat gran.ngranules) (Nat.zero_mod 32)
    (by decide) nonempty (le_sizeofGat _)
  rwa [cInt_zero] at iff

theorem granSearchTraced_some (unit : gran.log2gran ≤ 26) (pos : 0 < k) (le : k ≤ 32) {i : Nat}
    (first : gran.FirstFit k 0 gran.ngranules (some i)) (low : i < 2 ^ 31) :
    (granSearchTraced gran k (sizeofGat gran.ngranules) 0).outcome =
      .ok (some (gran.foundAddr i)) := by
  rw [granSearchTraced_outcome, granSearch_eq unit _ (by decide),
    granSearchRun_found pos le low first]
  rfl

theorem granSearchTraced_none (unit : gran.log2gran ≤ 26) (pos : 0 < k) (le : k ≤ 32)
    (first : gran.FirstFit k 0 gran.ngranules none) (few : gran.ngranules ≤ 2 ^ 31) :
    (granSearchTraced gran k (sizeofGat gran.ngranules) 0).outcome = .ok none := by
  obtain ⟨result, least, run⟩ := granSearchRun_firstFit pos le few
  have same : result = none := by
    cases result with
    | none => rfl
    | some i => exact absurd least.2.2.1 (first i least.1 least.2.1)
  rw [granSearchTraced_outcome, granSearch_eq unit _ (by decide), run, same]
  simp only [Except.map, Option.map_none]

/-- `gran_alloc` accesses only table words iff the table and the request are as described. -/
theorem granAllocTraced_within (lt : gran.log2gran < 32) (nonempty : 1 ≤ gran.ngranules)
    (counts : 0 < size → size ≤ granLimit gran.log2gran →
      0 < granAllocCount gran.log2gran size) :
    (granAllocTraced gran size).Within gran.InTable ↔ gran.StaysInside size := by
  by_cases refuses : gran.Refuses size
  · exact iff_of_true (granAllocTraced_of_refuses refuses).1 (.refused refuses)
  · have unit := MmGran.log2gran_le_of_accepts refuses lt
    have accepts := refuses
    unfold MmGran.Refuses at accepts
    have pos := counts (by omega) (by omega)
    have le : granAllocCount gran.log2gran size ≤ 32 := by omega
    rw [granAllocTraced_of_accepts refuses, Traced.within_bind,
      granSearchTraced_inside unit pos le nonempty]
    constructor
    · rintro ⟨search, take⟩
      cases search with
      | found i first word low =>
        have mark := take _ (granSearchTraced_some unit pos le first low)
        rw [granTakeTraced_within, granMarkAllocatedTraced_within, granNo_foundAddr unit] at mark
        exact .found i first word low mark
      | skipped first few full => exact .skipped first few full
    · intro stays
      cases stays with
      | refused refused => exact absurd refused refuses
      | found i first word low mark =>
        refine ⟨.found i first word low, fun found ok => ?_⟩
        rw [granSearchTraced_some unit pos le first low] at ok
        rw [← Except.ok.inj ok, granTakeTraced_within, granMarkAllocatedTraced_within,
          granNo_foundAddr unit]
        exact mark
      | skipped first few full =>
        refine ⟨.skipped first few full, fun found ok => ?_⟩
        rw [granSearchTraced_none unit pos le first few] at ok
        rw [← Except.ok.inj ok]
        exact Traced.within_pure _

/-- What `gran_alloc` hands out can be given back inside the table. -/
theorem granAllocTraced_ok (lt : gran.log2gran < 32)
    (within : (granAllocTraced gran size).Within gran.InTable)
    (ok : (granAllocTraced gran size).outcome = .ok (addr, gran')) :
    gran.SameShape gran' ∧ (addr ≠ 0 →
      gran.RunInTable (granNo gran addr) (granFreeCount gran.log2gran size)) := by
  by_cases refuses : gran.Refuses size
  · have result := (granAllocTraced_of_refuses (P := gran.InTable) refuses).2 _ ok
    obtain ⟨rfl, rfl⟩ := Prod.mk.inj result
    exact ⟨MmGran.SameShape.refl _, fun nonzero => absurd rfl nonzero⟩
  · have unit := MmGran.log2gran_le_of_accepts refuses lt
    rw [granAllocTraced_of_accepts refuses] at within ok
    obtain ⟨found, search, take⟩ := Traced.of_bind_ok ok
    have inside := (Traced.within_bind.mp within).2 found search
    cases found with
    | none =>
      obtain ⟨rfl, rfl⟩ := Prod.mk.inj (Except.ok.inj take)
      exact ⟨MmGran.SameShape.refl _, fun nonzero => absurd rfl nonzero⟩
    | some alloc =>
      rw [granTakeTraced_within] at inside
      obtain ⟨marked, mark, done⟩ := Traced.of_bind_ok take
      obtain ⟨rfl, rfl⟩ := Prod.mk.inj (Except.ok.inj done)
      obtain ⟨same, run⟩ := granMarkAllocatedTraced_ok mark inside
      refine ⟨same, fun _ => ?_⟩
      rw [granFreeCount_eq_alloc unit]
      exact run

end Alloc

/-! ## Heaps of at most two gigabytes -/

section Small

variable {gran : MmGran} {size i : Nat}

/-- In a heap of at most `2 ^ 31` bytes the condition is about the last word alone: a run fits in
front of it, or no run fits and the word is full. -/
theorem MmGran.staysInside_iff_of_small (lt : gran.log2gran < 32)
    (span : gran.ngranules * 2 ^ gran.log2gran ≤ 2 ^ 31) :
    gran.StaysInside size ↔ gran.Refuses size ∨
      (∃ i, gran.Fits (granAllocCount gran.log2gran size) i ∧
        i / 32 + 1 < sizeofGat gran.ngranules) ∨
      (∀ i < gran.ngranules, ¬ gran.Fits (granAllocCount gran.log2gran size) i) ∧
        gran.gat (sizeofGat gran.ngranules - 1 : Nat) = BitVec.allOnes 32 := by
  have factor : 0 < 2 ^ gran.log2gran := Nat.two_pow_pos _
  have few : gran.ngranules * 1 ≤ gran.ngranules * 2 ^ gran.log2gran := Nat.mul_le_mul_left _ factor
  constructor
  · intro stays
    cases stays with
    | refused refuses => exact Or.inl refuses
    | found i first word => exact Or.inr (Or.inl ⟨i, first.2.2.1, word⟩)
    | skipped first _ full => exact Or.inr (Or.inr ⟨fun i => first i (Nat.zero_le i), full⟩)
  · rintro (refuses | ⟨i, fits, word⟩ | ⟨none, full⟩)
    · exact .refused refuses
    · have inHeap := lt_sizeofGat.mp word
      obtain ⟨result, first⟩ := gran.exists_firstFit (granAllocCount gran.log2gran size) 0
      cases result with
      | none => exact absurd fits (first i (Nat.zero_le i) (by omega))
      | some j =>
        obtain ⟨-, below, jFits, least⟩ := first
        have le : j ≤ i := by
          by_contra after
          exact least i (Nat.zero_le i) (by omega) fits
        have offset : j * 2 ^ gran.log2gran < gran.ngranules * 2 ^ gran.log2gran :=
          Nat.mul_lt_mul_of_pos_right below factor
        refine .found j ⟨Nat.zero_le j, below, jFits, least⟩ (by omega) (by omega) ?_
        rw [granLanding_eq lt (lt_of_lt_of_le offset span)]
        refine ⟨by omega, fun two _ => ?_⟩
        have room := jFits.1
        rw [lt_sizeofGat]
        omega
    · exact .skipped (fun i _ below => none i below) (by omega) full

end Small

end Chinos
