import Chinos.Task.Model

/-!
# Task identifiers are unique as long as they last

The bits of `task_bitmap` are the identifiers of the live tasks, each owned by one task.
Every call keeps that, except a `task_create` that finds no free identifier at or after
the cursor: its task keeps the cleared `tid` 0 and is live without owning bit 0.
-/

namespace Chinos

section Tids

variable {T : Type} {s s' : TaskTable T} {t : T}

/-- The live tasks have different identifiers, in range, and the bitmap is made of them. -/
structure TidsUnique (s : TaskTable T) : Prop where
  distinct : ∀ t ∈ s.live, ∀ u ∈ s.live, s.tid t = s.tid u → t = u
  range : ∀ t ∈ s.live, 0 ≤ s.tid t ∧ s.tid t < maxTasks
  bit_iff : ∀ i : Nat, s.taskBitmap.bit i = true ↔ ∃ t ∈ s.live, s.tid t = i

/-- The cursor is where the two functions leave it. -/
def TaskTable.CursorOk (s : TaskTable T) : Prop := -1 ≤ s.lasttid ∧ s.lasttid < maxTasks

/-- The working invariant: the cursor is in range, and no task is listed twice. -/
structure TidsInv (s : TaskTable T) : Prop extends TidsUnique s where
  cursor : s.CursorOk
  once : s.live.Nodup

/-- Some identifier after `g_lasttid` is free, so that the search of `task_assign_tid` finds
one. -/
def TaskTable.HasFreeTid (s : TaskTable T) : Prop :=
  ∃ i : Nat, s.lasttid < i ∧ i < maxTasks ∧ s.taskBitmap.bit i = false

/-- The search of `task_assign_tid` finds the first free identifier after the cursor. -/
theorem TaskTable.CursorOk.search (cursor : s.CursorOk) :
    FirstHit (fun i => !s.taskBitmap.bit i) maxTasks (s.lasttid + 1).toNat
      (findNextZeroBit s.taskBitmap maxTasks (cU64 (cInt (s.lasttid + 1)))) := by
  obtain ⟨low, high⟩ := cursor
  have small : maxTasks = 131072 := rfl
  have start : cU64 (cInt (s.lasttid + 1)) = (s.lasttid + 1).toNat := by
    rw [cInt_of_range (by omega) (by omega)]
    unfold cU64
    omega
  rw [start]
  exact findNextZeroBit_firstHit _ _ _

theorem TaskTable.CursorOk.full_iff (cursor : s.CursorOk) :
    findNextZeroBit s.taskBitmap maxTasks (cU64 (cInt (s.lasttid + 1))) ≥ maxTasks ↔
      ¬ s.HasFreeTid := by
  have search := cursor.search
  obtain ⟨low, -⟩ := cursor
  constructor
  · rintro full ⟨i, after, below, free⟩
    have taken := search.skipped i (by omega) (by omega)
    simp [free] at taken
  · intro none
    by_contra short
    have below := Nat.lt_of_not_le short
    obtain ⟨after, free⟩ := search.here below
    exact none ⟨_, by omega, below, by simpa using free⟩

variable [DecidableEq T]

theorem taskAssignTid_of_full
    (full : findNextZeroBit s.taskBitmap maxTasks (cU64 (cInt (s.lasttid + 1))) ≥ maxTasks)
    (t : T) : taskAssignTid s t = (invalidTaskId, s) := by
  unfold taskAssignTid
  rw [if_pos full]

theorem taskAssignTid_of_found {i : Nat} (below : i < maxTasks)
    (found : findNextZeroBit s.taskBitmap maxTasks (cU64 (cInt (s.lasttid + 1))) = i) (t : T) :
    taskAssignTid s t = ((i : Int), { s with
      taskBitmap := bitmapSet s.taskBitmap i 1
      tid := Function.update s.tid t i
      lasttid := i }) := by
  have small : maxTasks = 131072 := rfl
  have fits : cInt i = i := cInt_of_range (by omega) (by omega)
  unfold taskAssignTid
  simp only [found]
  rw [if_neg (by omega), fits]

/-- `task_create` takes a free identifier, or leaves the cleared one. -/
theorem TidsInv.create_cases (inv : TidsInv s) {priority : Nat}
    (run : taskCreate s t priority = .ok s') :
    s'.live = t :: s.live ∧ ∃ i : Nat, (∀ u, s'.tid u = if u = t then (i : Int) else s.tid u) ∧
      ((¬ s.HasFreeTid ∧ i = 0 ∧ s'.taskBitmap = s.taskBitmap) ∨
        (s.HasFreeTid ∧ i < maxTasks ∧ s.taskBitmap.bit i = false ∧
          s'.taskBitmap = bitmapSet s.taskBitmap i 1 ∧ s'.lasttid = i)) := by
  have tids : ∀ (tid : Int) (u : T), Function.update (Function.update s.tid t 0) t tid u =
      if u = t then tid else s.tid u := by
    intro tid u
    rw [Function.update_idem, Function.update_apply]
  unfold taskCreate at run
  by_cases full : findNextZeroBit s.taskBitmap maxTasks (cU64 (cInt (s.lasttid + 1))) ≥ maxTasks
  · simp only [taskAssignTid_of_full (s := taskInit s t) full] at run
    split at run
    · obtain rfl := Except.ok.inj run
      refine ⟨rfl, 0, fun u => ?_, .inl ⟨inv.cursor.full_iff.mp full, rfl, rfl⟩⟩
      exact Function.update_apply ..
    · cases run
  · have below := Nat.lt_of_not_le full
    obtain ⟨-, free⟩ := inv.cursor.search.here below
    simp only [taskAssignTid_of_found (s := taskInit s t) below rfl] at run
    split at run
    · obtain rfl := Except.ok.inj run
      exact ⟨rfl, _, tids _, .inr ⟨not_not.mp fun none => full (inv.cursor.full_iff.mpr none),
        below, by simpa using free, rfl, rfl⟩⟩
    · cases run

/-! ## The calls -/

/-- If an identifier is free after the cursor, the new task gets it and is the only one to own
it. -/
theorem TidsInv.create (inv : TidsInv s) (new : t ∉ s.live) (free : s.HasFreeTid)
    {priority : Nat} (run : taskCreate s t priority = .ok s') : TidsInv s' := by
  obtain ⟨live, i, tid, ⟨full, -⟩ | ⟨-, below, clear, bitmap, cursor⟩⟩ := inv.create_cases run
  · exact absurd free full
  have unused : ∀ u ∈ s.live, s.tid u ≠ i := by
    intro u inside same
    have set := (inv.bit_iff i).mpr ⟨u, inside, same⟩
    rw [clear] at set
    cases set
  have old : ∀ u ∈ s.live, s'.tid u = s.tid u := by
    intro u inside
    rw [tid, if_neg]
    rintro rfl
    exact new inside
  have own : s'.tid t = i := by rw [tid, if_pos rfl]
  refine ⟨⟨?_, ?_, ?_⟩, ?_, ?_⟩
  · rw [live]
    intro u inside v inside' same
    rcases List.mem_cons.mp inside with rfl | oldU <;>
      rcases List.mem_cons.mp inside' with rfl | oldV
    · rfl
    · rw [own, old v oldV] at same
      exact absurd same.symm (unused v oldV)
    · rw [own, old u oldU] at same
      exact absurd same (unused u oldU)
    · rw [old u oldU, old v oldV] at same
      exact inv.distinct u oldU v oldV same
  · rw [live]
    intro u inside
    rcases List.mem_cons.mp inside with rfl | oldU
    · rw [own]
      omega
    · rw [old u oldU]
      exact inv.range u oldU
  · intro j
    rw [bitmap, live, bitmapSet_bit]
    constructor
    · intro set
      split at set
      · exact ⟨t, .head _, by omega⟩
      · obtain ⟨u, inside, same⟩ := (inv.bit_iff j).mp set
        exact ⟨u, .tail _ inside, (old u inside).trans same⟩
    · rintro ⟨u, inside, same⟩
      rcases List.mem_cons.mp inside with rfl | oldU
      · rw [if_pos (by omega)]
      · rw [old u oldU] at same
        have set := (inv.bit_iff j).mpr ⟨u, oldU, same⟩
        split
        · rfl
        · exact set
  · unfold TaskTable.CursorOk
    rw [cursor]
    omega
  · rw [live]
    exact List.nodup_cons.mpr ⟨new, inv.once⟩

/-- Without one, the new task has identifier 0, whoever owns it. -/
theorem TidsInv.create_full (inv : TidsInv s) (new : t ∉ s.live) (full : ¬ s.HasFreeTid)
    {priority : Nat} (run : taskCreate s t priority = .ok s') : ¬ TidsUnique s' := by
  obtain ⟨live, i, tid, ⟨-, rfl, bitmap⟩ | ⟨free, -⟩⟩ := inv.create_cases run
  · intro unique
    have own : s'.tid t = (0 : Nat) := by rw [tid, if_pos rfl]
    have set := (unique.bit_iff 0).mpr ⟨t, live ▸ .head _, own⟩
    rw [bitmap] at set
    obtain ⟨u, inside, zero⟩ := (inv.bit_iff 0).mp set
    have ne : u ≠ t := by
      rintro rfl
      exact new inside
    have same : s'.tid u = s'.tid t := by rw [own, tid, if_neg ne, zero]
    exact ne (unique.distinct u (live ▸ .tail _ inside) t (live ▸ .head _) same)
  · exact absurd free full

/-- A task that is detached gives its bit back, and the identifiers of the others stay as they
are. -/
theorem TidsInv.detach (inv : TidsInv s) (live : t ∈ s.live) : TidsInv (schedDetach s t) := by
  have small : maxTasks = 131072 := rfl
  obtain ⟨low, high⟩ := inv.range t live
  have start : (cU32 (s.tid t) : Int) = s.tid t := by
    unfold cU32
    omega
  have bits : ∀ i : Nat, (schedDetach s t).taskBitmap.bit i =
      if (i : Int) = s.tid t then false else s.taskBitmap.bit i := by
    intro i
    change (bitmapClear s.taskBitmap (cU32 (s.tid t)) 1).bit i = _
    rw [bitmapClear_bit]
    split <;> split <;> first | rfl | omega
  have mem : ∀ {u}, u ∈ (schedDetach s t).live ↔ u ≠ t ∧ u ∈ s.live := inv.once.mem_erase_iff
  refine ⟨⟨?_, ?_, ?_⟩, ?_, ?_⟩
  · intro u inside v inside' same
    exact inv.distinct u (mem.mp inside).2 v (mem.mp inside').2 same
  · intro u inside
    exact inv.range u (mem.mp inside).2
  · intro i
    rw [bits]
    constructor
    · intro set
      split at set
      · cases set
      · rename_i other
        obtain ⟨u, inside, same⟩ := (inv.bit_iff i).mp set
        refine ⟨u, mem.mpr ⟨?_, inside⟩, same⟩
        rintro rfl
        exact other same.symm
    · rintro ⟨u, inside, same⟩
      obtain ⟨ne, old⟩ := mem.mp inside
      have other : (i : Int) ≠ s.tid t := fun eq => ne (inv.distinct u old t live (same.trans eq))
      rw [if_neg other]
      exact (inv.bit_iff i).mpr ⟨u, old, same⟩
  · change -1 ≤ cInt (s.tid t - 1) ∧ cInt (s.tid t - 1) < maxTasks
    rw [cInt_of_range (by omega) (by omega)]
    omega
  · exact inv.once.erase t

/-! ## Runs -/

/-- `P` holds at the start and after every call that returns. -/
def Always (P : TaskTable T → Prop) : List (TaskCall T) → TaskTable T → Prop
  | [], s => P s
  | call :: calls, s => P s ∧ ∀ s', call.run s = .ok s' → Always P calls s'

/-- `R` relates every call that returns to the table it is made on. -/
def Along (R : TaskTable T → TaskCall T → Prop) : List (TaskCall T) → TaskTable T → Prop
  | [], _ => True
  | call :: calls, s => ∀ s', call.run s = .ok s' → R s call ∧ Along R calls s'

/-- A `task_create` finds an identifier that is free, and the other call needs none. -/
def TaskCall.Finds (s : TaskTable T) : TaskCall T → Prop
  | .create _ _ => s.HasFreeTid
  | .detach _ => True

/-- What `task.c` starts with: no identifier is in use, and the first is tried first. -/
structure TaskTable.Boot (s : TaskTable T) : Prop where
  clear : ∀ i, s.taskBitmap.bit i = false
  cursor : s.lasttid = -1
  none : s.live = []

omit [DecidableEq T] in
theorem TaskTable.Boot.inv (boot : s.Boot) : TidsInv s := by
  have none : ∀ t, t ∉ s.live := by simp [boot.none]
  refine ⟨⟨?_, ?_, fun i => ?_⟩, ?_, ?_⟩
  · exact fun t inside => absurd inside (none t)
  · exact fun t inside => absurd inside (none t)
  · rw [boot.clear i]
    exact ⟨nofun, fun ⟨t, inside, _⟩ => absurd inside (none t)⟩
  · unfold TaskTable.CursorOk
    rw [boot.cursor]
    decide
  · rw [boot.none]
    exact List.nodup_nil

theorem TidsInv.always_iff {calls : List (TaskCall T)} :
    ∀ {s : TaskTable T}, TidsInv s → Along (fun s call => call.Legal s) calls s →
      (Always TidsUnique calls s ↔ Along (fun s call => call.Finds s) calls s) := by
  induction calls with
  | nil => exact fun inv _ => ⟨fun _ => trivial, fun _ => inv.toTidsUnique⟩
  | cons call calls ih =>
    intro s inv legal
    constructor
    · rintro ⟨-, after⟩ s' run
      obtain ⟨isLegal, legal'⟩ := legal s' run
      have unique' : TidsUnique s' := by
        have later := after s' run
        cases calls with
        | nil => exact later
        | cons => exact later.1
      cases call with
      | create t priority =>
        have free : s.HasFreeTid := not_not.mp fun full => inv.create_full isLegal full run unique'
        exact ⟨free, (ih (inv.create isLegal free run) legal').mp (after s' run)⟩
      | detach t =>
        obtain rfl := Except.ok.inj run
        exact ⟨trivial, (ih (inv.detach isLegal) legal').mp (after _ run)⟩
    · intro finds
      refine ⟨inv.toTidsUnique, fun s' run => ?_⟩
      obtain ⟨isLegal, legal'⟩ := legal s' run
      obtain ⟨found, finds'⟩ := finds s' run
      cases call with
      | create t priority => exact (ih (inv.create isLegal found run) legal').mpr finds'
      | detach t =>
        obtain rfl := Except.ok.inj run
        exact (ih (inv.detach isLegal) legal').mpr finds'

/-- Over any run of `task_create` and `sched_detach`, identifiers stay unique iff every
`task_create` finds a free identifier after the cursor. -/
theorem tids_unique_iff (boot : s.Boot) {calls : List (TaskCall T)}
    (legal : Along (fun s call => call.Legal s) calls s) :
    Always TidsUnique calls s ↔ Along (fun s call => call.Finds s) calls s :=
  boot.inv.always_iff legal

end Tids

/-! ## One task too many -/

/-- The table at boot, for tasks that are numbered. -/
def bootTable : TaskTable Nat where
  sched := ⟨⟨id, id⟩, fun _ => ⟨0, 0, .invalid⟩, 0, 0, fun _ => 0, 0, []⟩
  taskBitmap := fun _ => 0
  lasttid := -1
  tid := fun _ => 0
  live := []

theorem bootTable_boot : bootTable.Boot := ⟨fun i => by simp [Bitmap.bit, bootTable], rfl, rfl⟩

/-- `task_create` of `count` new tasks, the first of them task `first`. -/
def createsFrom (first : Nat) : (count : Nat) → List (TaskCall Nat)
  | 0 => []
  | count + 1 => .create first 1 :: createsFrom (first + 1) count

theorem taskCreate_live {T : Type} [DecidableEq T] {s s' : TaskTable T} {t : T} {priority : Nat}
    (run : taskCreate s t priority = .ok s') : s'.live = t :: s.live := by
  have same : (taskAssignTid (taskInit s t) t).2.live = s.live := by
    unfold taskAssignTid
    simp only
    split <;> rfl
  unfold taskCreate at run
  simp only at run
  split at run
  · obtain rfl := Except.ok.inj run
    exact congrArg (t :: ·) same
  · cases run

theorem createsFrom_legal {count : Nat} :
    ∀ {first : Nat} {s : TaskTable Nat}, (∀ t ∈ s.live, t < first) →
      Along (fun s call => call.Legal s) (createsFrom first count) s := by
  induction count with
  | zero => exact fun _ => trivial
  | succ count ih =>
    intro first s below s' run
    have created : taskCreate s first 1 = .ok s' := run
    have live := taskCreate_live created
    refine ⟨fun inside => absurd (below first inside) (Nat.lt_irrefl _), ih ?_⟩
    rw [live]
    intro t inside
    rcases List.mem_cons.mp inside with rfl | old
    · exact Nat.lt_succ_self t
    · exact Nat.lt_succ_of_lt (below t old)

/-- The run gets to its end, with `count` more tasks live. -/
theorem createsFrom_end {P : TaskTable Nat → Prop} {count : Nat} :
    ∀ {first : Nat} {s : TaskTable Nat}, (∀ t ∈ s.live, t < first) → s.live.Nodup →
      Always P (createsFrom first count) s →
      ∃ s', P s' ∧ s'.live.Nodup ∧ s'.live.length = s.live.length + count := by
  induction count with
  | zero => exact fun _ once holds => ⟨_, holds, once, rfl⟩
  | succ count ih =>
    intro first s below once holds
    obtain ⟨s₁, run⟩ : ∃ s₁, taskCreate s first 1 = .ok s₁ := ⟨_, rfl⟩
    have live := taskCreate_live run
    have below₁ : ∀ t ∈ s₁.live, t < first + 1 := by
      rw [live]
      intro t inside
      rcases List.mem_cons.mp inside with rfl | old
      · exact Nat.lt_succ_self t
      · exact Nat.lt_succ_of_lt (below t old)
    have once₁ : s₁.live.Nodup := by
      rw [live]
      exact List.nodup_cons.mpr ⟨fun inside => absurd (below first inside) (Nat.lt_irrefl _), once⟩
    obtain ⟨s', final, once', length⟩ := ih below₁ once₁ (holds.2 s₁ run)
    refine ⟨s', final, once', ?_⟩
    rw [length, live, List.length_cons]
    omega

/-- Live tasks with unique identifiers are no more than there are identifiers. -/
theorem TidsUnique.length_le {T : Type} {s : TaskTable T} (unique : TidsUnique s)
    (once : s.live.Nodup) : s.live.length ≤ maxTasks := by
  have subset : (s.live.map fun t => (s.tid t).toNat) ⊆ List.range maxTasks := by
    intro i inside
    obtain ⟨t, live, rfl⟩ := List.mem_map.mp inside
    obtain ⟨low, high⟩ := unique.range t live
    exact List.mem_range.mpr (by omega)
  have injective : (s.live.map fun t => (s.tid t).toNat).Nodup := by
    refine once.map_on ?_
    intro t inside u inside' same
    have lowT := (unique.range t inside).1
    have lowU := (unique.range u inside').1
    exact unique.distinct t inside u inside' (by omega)
  simpa using (List.subperm_of_subset injective subset).length_le

/-- After as many tasks as there are identifiers, one more is created all the same. -/
theorem tooManyTasks_not_unique :
    bootTable.Boot ∧
      Along (fun s call => call.Legal s) (createsFrom 0 (maxTasks + 1)) bootTable ∧
      ¬ Always TidsUnique (createsFrom 0 (maxTasks + 1)) bootTable := by
  have empty : ∀ t ∈ bootTable.live, t < 0 := by simp [bootTable]
  refine ⟨bootTable_boot, createsFrom_legal empty, fun holds => ?_⟩
  obtain ⟨s', unique, once, length⟩ := createsFrom_end empty List.nodup_nil holds
  have le := unique.length_le once
  have zero : bootTable.live.length = 0 := rfl
  omega

theorem bootTable_unique : Always TidsUnique (createsFrom 0 2) bootTable := by
  have finds : Along (fun s call => call.Finds s) (createsFrom 0 2) bootTable := by
    intro s' run
    refine ⟨⟨0, by decide, by decide, rfl⟩, fun s'' _ => ⟨?_, trivial⟩⟩
    obtain rfl := Except.ok.inj run
    exact ⟨1, by decide +kernel, by decide, by decide +kernel⟩
  exact (tids_unique_iff bootTable_boot (createsFrom_legal (by simp [bootTable]))).mpr finds

end Chinos
