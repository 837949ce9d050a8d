import Chinos.Task.Tids

/-!
# When identifiers are refused

`task_assign_tid` looks for a free identifier from the one after `g_lasttid` on and does
not start over at the end of the table. Every release moves `g_lasttid` to just before the
released identifier, so identifiers released before it, and below it, are out of sight
until one below them is released.
-/

namespace Chinos

section Assign

variable {T : Type} [DecidableEq T] {s : TaskTable T} {assigned : List Int} {t : T}

/-- The identifiers assigned after a call of `task_assign_tid` that returned `ret`. -/
def assignedAfter (assigned : List Int) (ret : Int) : List Int :=
  if ret = invalidTaskId then assigned else ret :: assigned

/-- The tables that calls of `task_assign_tid` and `task_release_tid` lead to, with the
identifiers that are assigned. Only these are released. -/
inductive TidReach : TaskTable T → List Int → Prop
  | boot {s : TaskTable T} (fresh : s.Boot) : TidReach s []
  | assign {s : TaskTable T} {assigned : List Int} (reach : TidReach s assigned) (t : T) :
      TidReach (taskAssignTid s t).2 (assignedAfter assigned (taskAssignTid s t).1)
  | release {s : TaskTable T} {assigned : List Int} {tid : Int} (reach : TidReach s assigned)
      (isAssigned : tid ∈ assigned) : TidReach (taskReleaseTid s tid) (assigned.erase tid)

/-- All identifiers are assigned, so that there is none to hand out. -/
def AllAssigned (assigned : List Int) : Prop := ∀ i : Nat, i < maxTasks → (i : Int) ∈ assigned

/-- The answer `ret` of `task_assign_tid` is the right one: `INVALID_TASK_ID` if and only if
all identifiers are assigned, and otherwise one that is not. -/
structure AssignsRight (assigned : List Int) (ret : Int) : Prop where
  invalid_iff : ret = invalidTaskId ↔ AllAssigned assigned
  free : ret ≠ invalidTaskId → (0 ≤ ret ∧ ret < maxTasks) ∧ ret ∉ assigned

/-- The bits that are set in `task_bitmap` are those of the assigned identifiers, which are in
range and without repetition. -/
structure AssignInv (s : TaskTable T) (assigned : List Int) : Prop where
  cursor : s.CursorOk
  bit_iff : ∀ i : Nat, s.taskBitmap.bit i = true ↔ (i : Int) ∈ assigned
  range : ∀ tid ∈ assigned, 0 ≤ tid ∧ tid < maxTasks
  once : assigned.Nodup

/-! ## The two calls -/

/-- `task_assign_tid` hands out identifier `i`, the first free one after the cursor. -/
structure AssignsNext (s : TaskTable T) (assigned : List Int) (t : T) (i : Nat) : Prop where
  after : s.lasttid < i
  skipped : ∀ j : Nat, s.lasttid < j → j < i → (j : Int) ∈ assigned
  below : i < maxTasks
  unused : (i : Int) ∉ assigned
  result : taskAssignTid s t = ((i : Int), { s with
    taskBitmap := bitmapSet s.taskBitmap i 1
    tid := Function.update s.tid t i
    lasttid := i })

theorem AssignInv.cases (inv : AssignInv s assigned) (t : T) :
    (¬ s.HasFreeTid ∧ taskAssignTid s t = (invalidTaskId, s)) ∨
      ∃ i : Nat, AssignsNext s assigned t i := by
  have low := inv.cursor.1
  have search := inv.cursor.search
  by_cases full :
      findNextZeroBit s.taskBitmap maxTasks (cU64 (cInt (s.lasttid + 1))) ≥ maxTasks
  · exact .inl ⟨inv.cursor.full_iff.mp full, taskAssignTid_of_full full t⟩
  · have below := Nat.lt_of_not_le full
    obtain ⟨after, clear⟩ := search.here below
    refine .inr ⟨_, by omega, fun j above before => ?_, below, ?_,
      taskAssignTid_of_found below rfl t⟩
    · have taken := search.skipped j (by omega) before
      exact (inv.bit_iff j).mp (by simpa using taken)
    · rw [← inv.bit_iff]
      simpa using clear

theorem AssignsNext.hasFreeTid {i : Nat} (next : AssignsNext s assigned t i)
    (inv : AssignInv s assigned) : s.HasFreeTid := by
  refine ⟨i, next.after, next.below, ?_⟩
  rw [← Bool.not_eq_true, inv.bit_iff]
  exact next.unused

theorem natCast_ne_invalid (i : Nat) : (i : Int) ≠ invalidTaskId := by
  unfold invalidTaskId
  omega

theorem AssignInv.assign (inv : AssignInv s assigned) (t : T) :
    AssignInv (taskAssignTid s t).2 (assignedAfter assigned (taskAssignTid s t).1) := by
  rcases inv.cases t with ⟨-, result⟩ | ⟨i, next⟩
  · rw [result, assignedAfter, if_pos rfl]
    exact inv
  · have below := next.below
    rw [next.result, assignedAfter, if_neg (natCast_ne_invalid i)]
    refine ⟨⟨?_, ?_⟩, fun j => ?_, ?_, List.nodup_cons.mpr ⟨next.unused, inv.once⟩⟩
    · show (-1 : Int) ≤ (i : Int)
      omega
    · show (i : Int) < maxTasks
      omega
    · simp only [bitmapSet_bit]
      rw [List.mem_cons, ← inv.bit_iff]
      by_cases here : j = i
      · rw [if_pos (by omega)]
        simp [here]
      · rw [if_neg (by omega)]
        simp [here]
    · intro tid inside
      rcases List.mem_cons.mp inside with rfl | old
      · omega
      · exact inv.range tid old

omit [DecidableEq T] in
theorem AssignInv.release (inv : AssignInv s assigned) {tid : Int}
    (isAssigned : tid ∈ assigned) :
    AssignInv (taskReleaseTid s tid) (assigned.erase tid) := by
  have small : maxTasks = 131072 := rfl
  obtain ⟨low, high⟩ := inv.range tid isAssigned
  have start : (cU32 tid : Int) = tid := by
    unfold cU32
    omega
  have mem : ∀ {other}, other ∈ assigned.erase tid ↔ other ≠ tid ∧ other ∈ assigned :=
    inv.once.mem_erase_iff
  refine ⟨?_, fun j => ?_, fun other inside => inv.range other (mem.mp inside).2,
    inv.once.erase tid⟩
  · show -1 ≤ cInt (tid - 1) ∧ cInt (tid - 1) < maxTasks
    rw [cInt_of_range (by omega) (by omega)]
    omega
  · show (bitmapClear s.taskBitmap (cU32 tid) 1).bit j = true ↔ _
    rw [bitmapClear_bit, mem, ← inv.bit_iff]
    by_cases here : (j : Int) = tid
    · rw [if_pos (by omega)]
      simp [here]
    · rw [if_neg (by omega)]
      simp [here]

theorem TidReach.inv (reach : TidReach s assigned) : AssignInv s assigned := by
  induction reach with
  | boot fresh =>
    refine ⟨?_, fun i => ?_, ?_, List.nodup_nil⟩
    · unfold TaskTable.CursorOk
      rw [fresh.cursor]
      decide
    · simp [fresh.clear i]
    · intro tid inside
      cases inside
  | assign _ t ih => exact ih.assign t
  | release _ isAssigned ih => exact ih.release isAssigned

/-- After any calls, the answer of `task_assign_tid` is the right one exactly if some
identifier after `g_lasttid` is free, or none is free at all. -/
theorem assigns_right_iff (reach : TidReach s assigned) (t : T) :
    AssignsRight assigned (taskAssignTid s t).1 ↔ s.HasFreeTid ∨ AllAssigned assigned := by
  have inv := reach.inv
  rcases inv.cases t with ⟨none, result⟩ | ⟨i, next⟩
  · rw [result]
    constructor
    · exact fun right => .inr (right.invalid_iff.mp rfl)
    · intro known
      exact ⟨iff_of_true rfl (known.resolve_left none), fun valid => absurd rfl valid⟩
  · have below := next.below
    rw [next.result]
    refine ⟨fun _ => .inl (next.hasFreeTid inv),
      fun _ => ⟨⟨fun invalid => ?_, fun all => ?_⟩, fun _ => ?_⟩⟩
    · exact absurd invalid (natCast_ne_invalid i)
    · exact absurd (all i below) next.unused
    · exact ⟨⟨by omega, by omega⟩, next.unused⟩

end Assign

/-! ## Two releases at the end of the table -/

/-- The first `n` identifiers, in a list that begins with the last one. -/
def firstTids (n : Nat) : List Int := ((List.range n).map Int.ofNat).reverse

theorem firstTids_succ (n : Nat) : firstTids (n + 1) = (n : Int) :: firstTids n := by
  simp [firstTids, List.range_succ]

theorem mem_firstTids {n i : Nat} : (i : Int) ∈ firstTids n ↔ i < n := by
  simp [firstTids]

/-- The first identifier after the cursor, if it is free, is the one handed out. -/
theorem TidReach.assign_first {T : Type} [DecidableEq T] {s : TaskTable T} {assigned : List Int}
    (reach : TidReach s assigned) {n : Nat} (cursor : s.lasttid + 1 = n) (below : n < maxTasks)
    (unused : (n : Int) ∉ assigned) (t : T) :
    ∃ s' : TaskTable T, TidReach s' ((n : Int) :: assigned) ∧ s'.lasttid = n := by
  have after := reach.assign t
  rcases reach.inv.cases t with ⟨none, -⟩ | ⟨i, next⟩
  · refine absurd ⟨n, by omega, below, ?_⟩ none
    rw [← Bool.not_eq_true, reach.inv.bit_iff]
    exact unused
  · have same : i = n := by
      have later := next.after
      by_contra ne
      exact unused (next.skipped n (by omega) (by omega))
    rw [next.result, assignedAfter, if_neg (natCast_ne_invalid i), same] at after
    exact ⟨_, after, rfl⟩

/-- From boot on, identifiers are assigned in the order of their numbers. -/
theorem bootTable_assigns {n : Nat} (le : n ≤ maxTasks) :
    ∃ s : TaskTable Nat, TidReach s (firstTids n) ∧ s.lasttid + 1 = n := by
  induction n with
  | zero => exact ⟨bootTable, .boot bootTable_boot, rfl⟩
  | succ n ih =>
    obtain ⟨s, reach, cursor⟩ := ih (by omega)
    obtain ⟨s', reach', cursor'⟩ := reach.assign_first cursor (by omega)
      (fun inside => absurd (mem_firstTids.mp inside) (Nat.lt_irrefl n)) 0
    rw [← firstTids_succ] at reach'
    exact ⟨s', reach', by omega⟩

/-- With all identifiers assigned, the first and then the last are released, and the last is
assigned again. No identifier after the cursor is free then, while the first is. -/
theorem first_tid_out_of_sight : ∃ (s : TaskTable Nat) (assigned : List Int),
    TidReach s assigned ∧ (0 : Int) ∉ assigned ∧ ¬ s.HasFreeTid := by
  have small : maxTasks = 131072 := rfl
  obtain ⟨s, reach, -⟩ := bootTable_assigns le_rfl
  have once := reach.inv.once
  have released := reach.release (mem_firstTids.mpr (show 0 < maxTasks by decide))
  have last : ((131071 : Nat) : Int) ∈ (firstTids maxTasks).erase ((0 : Nat) : Int) := by
    refine (List.mem_erase_of_ne (by decide)).mpr (mem_firstTids.mpr (by omega))
  have released₂ := released.release last
  obtain ⟨s', reach', cursor⟩ := released₂.assign_first
    (show cInt (((131071 : Nat) : Int) - 1) + 1 = ((131071 : Nat) : Int) by decide)
    (by decide) (once.erase _).not_mem_erase 0
  have zero : (0 : Int) ∉ ((131071 : Nat) : Int) ::
      ((firstTids maxTasks).erase ((0 : Nat) : Int)).erase ((131071 : Nat) : Int) := by
    intro inside
    rcases List.mem_cons.mp inside with impossible | old
    · exact absurd impossible (by decide)
    · exact once.not_mem_erase (List.mem_of_mem_erase old)
  refine ⟨s', _, reach', zero, ?_⟩
  rintro ⟨i, after, below, -⟩
  omega

/-- In that state the next call finds nothing, although not all identifiers are assigned. -/
theorem released_tid_not_found : ∃ (s : TaskTable Nat) (assigned : List Int),
    TidReach s assigned ∧ (0 : Int) ∉ assigned ∧ (taskAssignTid s 0).1 = invalidTaskId := by
  obtain ⟨s, assigned, reach, zero, none⟩ := first_tid_out_of_sight
  refine ⟨s, assigned, reach, zero, ?_⟩
  rcases reach.inv.cases 0 with ⟨-, result⟩ | ⟨i, next⟩
  · rw [result]
  · exact absurd (next.hasFreeTid reach.inv) none

/-- After two assignments and the release of the first identifier the answer is right, and in
the state above it is not. -/
theorem assigns_right_iff_sample :
    (∃ s : TaskTable Nat, TidReach s ((firstTids 2).erase ((0 : Nat) : Int)) ∧
      AssignsRight ((firstTids 2).erase ((0 : Nat) : Int)) (taskAssignTid s 0).1) ∧
    ∃ (s : TaskTable Nat) (assigned : List Int), TidReach s assigned ∧ (0 : Int) ∉ assigned ∧
      ¬ AssignsRight assigned (taskAssignTid s 0).1 := by
  constructor
  · obtain ⟨s, reach, -⟩ := bootTable_assigns (show 2 ≤ maxTasks by decide)
    have released := reach.release (mem_firstTids.mpr (show 0 < 2 by decide))
    have free : (taskReleaseTid s ((0 : Nat) : Int)).HasFreeTid := by
      refine ⟨0, show cInt (((0 : Nat) : Int) - 1) < 0 by decide, by decide, ?_⟩
      rw [← Bool.not_eq_true, released.inv.bit_iff]
      decide
    exact ⟨_, released, (assigns_right_iff released 0).mpr (.inl free)⟩
  · obtain ⟨s, assigned, reach, zero, none⟩ := first_tid_out_of_sight
    refine ⟨s, assigned, reach, zero, fun right => ?_⟩
    rcases (assigns_right_iff reach 0).mp right with free | all
    · exact none free
    · exact zero (all 0 (by decide))

end Chinos
