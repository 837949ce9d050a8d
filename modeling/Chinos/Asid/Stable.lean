import Chinos.Asid.History

/-!
# How many numbers a task takes

A task that takes its old number back keeps an `asid` field of the generation the number
was first given in. The next call for it finds the field out of date and the number taken,
by the task itself, and gives it a second one. As long as that does not happen, a
generation ends when each number has gone to a task of its own.
-/

namespace Chinos

section Stable

variable {T : Type} [DecidableEq T] {tasks : TaskSet T} {c : Cpu T} {s : AsidState T}
  {src dst current : T} {rollovers : Nat} {h : AsidHistory T}

/-- All calls for a task since the last rollover returned the same number. -/
def OneEach (h : AsidHistory T) : Prop :=
  ∀ t m n, (t, m) ∈ h.yielded → (t, n) ∈ h.yielded → m = n

/-- The tasks that were switched to since the last rollover. -/
def AsidHistory.users (h : AsidHistory T) : Finset T := (h.yielded.map Prod.fst).toFinset

/-- The switch to `dst` returns the number that the task has in this generation, and if it
rolls over, the generation that ends had as many user tasks as there are numbers. -/
@[mk_iff]
structure KeepsOne (tasks : TaskSet T) (c : Cpu T) (h : AsidHistory T) (src dst : T) : Prop where
  one : OneEach (h.next tasks c dst)
  all : (taskSwitch tasks c src dst).asids.asidGeneration ≠ c.asids.asidGeneration →
    h.users.card = 2 ^ c.asids.asidBits - 1

/-- The task has not been switched to since the last rollover, or its `asid` field is of this
generation, or the call rolls over because no number is left. -/
def OneNumber (tasks : TaskSet T) (c : Cpu T) (h : AsidHistory T) (dst : T) : Prop :=
  tasks.type dst = .kernel ∨ dst ∉ h.users ∨ c.asids.Fast dst ∨ c.asids.Full

theorem AsidHistory.mem_users : dst ∈ h.users ↔ ∃ n, (dst, n) ∈ h.yielded := by
  simp [AsidHistory.users]

/-- When no number is left, the history holds each of them. -/
theorem GivenInv.numbers (inv : GivenInv s h) (full : s.Full) :
    h.given.toFinset.image Prod.snd = Finset.Ico 1 (2 ^ s.asidBits) := by
  ext n
  simp only [Finset.mem_image, List.mem_toFinset, Prod.exists, exists_eq_right, Finset.mem_Ico]
  constructor
  · intro given
    obtain ⟨t, given⟩ := given
    exact inv.range t n given
  · intro inside
    obtain ⟨positive, small⟩ := inside
    apply (inv.taken n small).mp
    by_cases low : s.curIdx ≤ n
    · exact full n low small
    · exact inv.below n small positive (Nat.lt_of_not_le low)

/-- With one number for each task and no number free, tasks and numbers are in one-to-one
correspondence, which counts the tasks. -/
theorem GivenInv.card_users (inv : GivenInv s h) (one : OneEach h) (full : s.Full) :
    h.users.card = 2 ^ s.asidBits - 1 := by
  have byTask : (h.given.toFinset.image Prod.fst).card = h.given.toFinset.card := by
    apply Finset.card_image_of_injOn
    intro e first e' second same
    simp only [List.coe_toFinset, Set.mem_ofPred_eq, ← inv.yields] at first second
    refine Prod.ext same (one e.1 e.2 e'.2 first ?_)
    rw [same]
    exact second
  have byNumber : (h.given.toFinset.image Prod.snd).card = h.given.toFinset.card := by
    apply Finset.card_image_of_injOn
    intro e first e' second same
    simp only [List.coe_toFinset, Set.mem_ofPred_eq] at first second
    refine Prod.ext (inv.once e.1 e'.1 e.2 first ?_) same
    rw [same]
    exact second
  have members : h.users = h.given.toFinset.image Prod.fst := by
    ext t
    simp [AsidHistory.mem_users, inv.yields]
  rw [members, byTask, ← byNumber, inv.numbers full, Nat.card_Ico]

omit [DecidableEq T] in
/-- Adding a number to a history that has one for each task. -/
theorem OneEach.cons_iff {given : List (T × Nat)} {n : Nat} (one : OneEach h) :
    OneEach ⟨(dst, n) :: h.yielded, given⟩ ↔ ∀ m, (dst, m) ∈ h.yielded → m = n := by
  constructor
  · intro one' m yielded
    exact one' dst m n (List.mem_cons_of_mem _ yielded) List.mem_cons_self
  · intro same t m m' first second
    rcases List.mem_cons.mp first with here | first <;>
      rcases List.mem_cons.mp second with there | second
    · cases here
      cases there
      rfl
    · cases here
      exact (same m' second).symm
    · cases there
      exact same m first
    · exact one t m m' first second

omit [DecidableEq T] in
theorem OneEach.singleton (n : Nat) (given : List (T × Nat)) :
    OneEach ⟨[(dst, n)], given⟩ := by
  intro t m m' first second
  cases List.mem_singleton.mp first
  cases List.mem_singleton.mp second
  rfl

omit [DecidableEq T] in
/-- A task that was switched to in this generation and whose field is out of date holds the
number that the field names. -/
theorem GivenInv.holds_own (inv : GivenInv s h) (stale : ¬s.Fast dst) {n : Nat}
    (yielded : (dst, n) ∈ h.yielded) : n = s.asidNumber dst ∧ s.Busy dst := by
  have given := (inv.yields _).mp yielded
  rcases inv.stored dst n given with fast | ⟨own, -⟩
  · exact absurd fast stale
  · refine ⟨own, .inr ?_⟩
    rw [← own]
    exact (inv.taken n (inv.range dst n given).2).mpr ⟨dst, given⟩

theorem AsidStep.reclaims {s' : AsidState T} {n : Nat} (step : AsidStep s dst s' n)
    (stale : ¬s.Fast dst) (idle : ¬s.Busy dst) :
    n = s.asidNumber dst ∧ AsidMove s s' s.asidGeneration s.curIdx s.asid
      fun i => decide (i = s.asidNumber dst) || s.asidBitmap.bit i := by
  cases step with
  | fast held => exact absurd held stale
  | reclaimed _ _ move => exact ⟨rfl, move⟩
  | fresh _ busy => exact absurd busy idle
  | rolled _ busy => exact absurd busy idle

/-- A task that cannot have the number its field names gets the first free one. -/
theorem AsidStep.next_number {s' : AsidState T} {m n : Nat} (step : AsidStep s dst s' n)
    (stale : ¬s.Fast dst) (busy : s.Busy dst) (reach : s.curIdx ≤ m) (small : m < 2 ^ s.asidBits)
    (free : s.asidBitmap.bit m = false)
    (before : ∀ i, s.curIdx ≤ i → i < m → s.asidBitmap.bit i = true) :
    n = m ∧ AsidMove s s' s.asidGeneration m
      (Function.update s.asid dst (BitVec.ofNat 64 m ||| s.asidGeneration))
      fun i => decide (i = m) || s.asidBitmap.bit i := by
  cases step with
  | fast held => exact absurd held stale
  | reclaimed _ idle => exact absurd busy idle
  | fresh _ _ low _ clear skipped move =>
    have first : n = m := by
      rcases lt_trichotomy n m with less | same | more
      · rw [before n low less] at clear
        cases clear
      · exact same
      · rw [skipped m reach more] at free
        cases free
    subst first
    exact ⟨rfl, move⟩
  | rolled _ _ full =>
    rw [full m reach small] at free
    cases free

/-- Whether the next switch keeps to one number for each task. -/
theorem KeepsOne.iff (inv : GivenInv c.asids h) (sound : FastSound tasks c.asids h)
    (one : OneEach h) (src dst : T) :
    KeepsOne tasks c h src dst ↔ OneNumber tasks c h dst := by
  cases type : tasks.type dst with
  | kernel =>
    refine iff_of_true ⟨?_, fun changed => ?_⟩ (Or.inl type)
    · rw [AsidHistory.next_of_kernel type]
      exact one
    · exact absurd (taskSwitch_of_kernel type).generation changed
  | user =>
    have step := @taskSwitch_step T _ tasks c src dst inv.width inv.generation type
    have kept := @AsidHistory.next_of_kept T _ tasks c src dst h type
    have rolled := @AsidHistory.next_of_rolled T _ tasks c src dst h type
    rw [keepsOne_iff]
    generalize (taskSwitch tasks c src dst).asids = s' at step kept rolled ⊢
    generalize c.issued tasks dst = number at step kept rolled
    cases step with
    | fast held move =>
      rw [kept move.generation]
      refine iff_of_true ⟨one.cons_iff.mpr ?_, fun changed => absurd move.generation changed⟩
        (Or.inr (.inr (.inl held)))
      intro m yielded
      exact one dst m _ yielded ((inv.yields _).mpr (sound dst type held))
    | reclaimed stale idle move =>
      rw [kept move.generation]
      have unseen : ∀ m, (dst, m) ∉ h.yielded := fun m yielded =>
        idle (inv.holds_own stale yielded).2
      refine iff_of_true ⟨one.cons_iff.mpr ?_, fun changed => absurd move.generation changed⟩
        (Or.inr (.inl fun seen => ?_))
      · intro m yielded
        exact absurd yielded (unseen m)
      · obtain ⟨m, yielded⟩ := AsidHistory.mem_users.mp seen
        exact unseen m yielded
    | fresh stale busy low small clear skipped move =>
      rw [kept move.generation]
      have other : ∀ m, (dst, m) ∈ h.yielded → m ≠ number := by
        intro m yielded same
        have given := (inv.yields _).mp yielded
        rw [same] at given
        rw [(inv.taken number small).mpr ⟨dst, given⟩] at clear
        cases clear
      constructor
      · intro keeps
        refine Or.inr (.inl fun seen => ?_)
        obtain ⟨m, yielded⟩ := AsidHistory.mem_users.mp seen
        exact other m yielded (one.cons_iff.mp keeps.1 m yielded)
      · intro condition
        refine ⟨one.cons_iff.mpr fun m yielded => ?_, fun changed =>
          absurd move.generation changed⟩
        rcases condition with kernel | unseen | fast | full
        · rw [type] at kernel
          cases kernel
        · exact absurd (AsidHistory.mem_users.mpr ⟨m, yielded⟩) unseen
        · exact absurd fast stale
        · rw [full number low small] at clear
          cases clear
    | rolled stale busy full move =>
      obtain ⟨gen, shape⟩ := inv.generation
      have changed := asidRollover_ne inv.width shape
      rw [rolled (by rw [move.generation]; exact changed)]
      exact iff_of_true ⟨.singleton 1 _, fun _ => inv.card_users one full⟩
        (Or.inr (.inr (.inr full)))

theorem AsidTrace.oneEach (trace : AsidTrace tasks (OneNumber tasks) c current rollovers h)
    (few : rollovers < 2 ^ (32 - c.asids.asidBits) - 1) : OneEach h := by
  induction trace with
  | start =>
    intro t m n yielded
    cases yielded
  | @switch c current rollovers h trace dst allows ih =>
    rw [taskSwitch_asidBits] at few
    have fewer : rollovers < 2 ^ (32 - c.asids.asidBits) - 1 := by
      split at few <;> omega
    obtain ⟨inv, sound⟩ := trace.inv_of_few fewer
    exact ((KeepsOne.iff inv sound (ih fewer) current dst).mpr allows).one

/-- In every run, with fewer rollovers than generations, in which no task is switched to
again while its `asid` field is out of date and numbers are left, each task has had one
number since the last rollover. The next switch keeps to that, and to a generation ending
with all numbers in the hands of different tasks, iff it meets the condition too. -/
theorem one_number_iff (trace : AsidTrace tasks (OneNumber tasks) c current rollovers h)
    (few : rollovers < 2 ^ (32 - c.asids.asidBits) - 1) (dst : T) :
    OneEach h ∧ (KeepsOne tasks c h current dst ↔ OneNumber tasks c h dst) := by
  obtain ⟨inv, sound⟩ := trace.inv_of_few few
  have one := trace.oneEach few
  exact ⟨one, KeepsOne.iff inv sound one current dst⟩

end Stable

/-- Task 1 is switched to, then idle, and then task 1 again, which has kept its number. -/
theorem one_number_iff_sample : ∃ c h,
    AsidTrace threeTasks (OneNumber threeTasks) c 0 0 h ∧ 1 ∈ h.users ∧ OneEach h ∧
      KeepsOne threeTasks c h 0 1 := by
  obtain ⟨c₁, c₁_eq⟩ : ∃ c, c = taskSwitch threeTasks (startCpu _) 0 1 := ⟨_, rfl⟩
  have first := (startCpu_trace threeTasks (OneNumber threeTasks)).switch 1
    (.inr (.inl (by decide)))
  have start : threeTasks.idle = 0 := rfl
  rw [start, ← c₁_eq, if_pos (by rw [c₁_eq]; decide +kernel)] at first
  have second := first.switch 0 (.inl rfl)
  rw [if_pos (by rw [c₁_eq]; decide +kernel)] at second
  have bits : (taskSwitch threeTasks c₁ 1 0).asids.asidBits = 8 := by
    rw [c₁_eq]
    decide +kernel
  have fast : (taskSwitch threeTasks c₁ 1 0).asids.Fast 1 := by
    rw [c₁_eq]
    unfold AsidState.Fast
    decide +kernel
  obtain ⟨one, iff⟩ := one_number_iff second (by rw [bits]; decide) 1
  refine ⟨_, _, second, ?_, one, iff.mpr (.inr (.inr (.inl fast)))⟩
  rw [AsidHistory.mem_users, AsidHistory.next_of_kernel rfl]
  refine ⟨1, ?_⟩
  decide +kernel

/-! ## A run in which a task gets two numbers -/

/-- A task that was never given a number does not take the fast path. -/
theorem AsidOk.stale_of_new {T : Type} {tasks : TaskSet T} {s : AsidState T} {gen : Nat}
    {owner : Nat → Option Int} {t : T} (ok : AsidOk tasks s (gen + 1) owner)
    (new : s.asid t = 0) : ¬s.Fast t := by
  intro fast
  have current := (sameGeneration_iff ok.width ok.generation).mp fast
  simp [new] at current

/-- Tasks 1 to 255 are switched to in order and get the number that is their own. -/
theorem manyTasks_first (k : Nat) (small : k ≤ 255) :
    ∃ c current h, AsidTrace manyTasks (fun _ _ _ => True) c current 0 h ∧
      c.asids.asidBits = 8 ∧
      (∀ n < 2 ^ 8, c.asids.asidBitmap.bit n = true ↔ 0 < n ∧ n ≤ k) ∧
      (∀ t : Fin 258, t.val ≤ k → c.asids.asidNumber t = t.val) ∧
      ∀ t : Fin 258, k < t.val → c.asids.asid t = 0 := by
  induction k with
  | zero =>
    refine ⟨_, _, _, startCpu_trace manyTasks _, rfl, ?_, ?_, fun _ _ => rfl⟩
    · intro n inside
      have clear : (startCpu (Fin 258)).asids.asidBitmap.bit n = false :=
        bitmapZero_bit _ (show n < numUserAsids 8 from inside)
      rw [clear]
      simp
      omega
    · intro t low
      have zero : t.val = 0 := by omega
      rw [zero]
      rfl
  | succ k ih =>
    obtain ⟨c, current, h, trace, bits, set, own, unset⟩ := ih (by omega)
    obtain ⟨inv, -⟩ := trace.inv_of_few (by rw [bits]; decide)
    obtain ⟨owner, ok⟩ := trace.run.ok (by rw [bits]; decide)
    have dstVal : ((⟨k + 1, by omega⟩ : Fin 258)).val = k + 1 := rfl
    generalize (⟨k + 1, by omega⟩ : Fin 258) = dst at dstVal
    have user : manyTasks.type dst = .user := manyTasks_user fun zero => by
      rw [zero] at dstVal
      cases dstVal
    have new : c.asids.asid dst = 0 := unset dst (by omega)
    have stale := ok.stale_of_new new
    -- the next number is free and within reach of the cursor
    have free : c.asids.asidBitmap.bit (k + 1) = false := by
      have none := set (k + 1) (by omega)
      simp only [Nat.succ_pos, true_and] at none
      exact Bool.eq_false_of_not_eq_true fun taken => absurd (none.mp taken) (by omega)
    have reach : c.asids.curIdx ≤ k + 1 := by
      by_contra beyond
      have taken := inv.below (k + 1) (by rw [bits]; omega) (by omega) (by omega)
      rw [free] at taken
      cases taken
    have step := @taskSwitch_step _ _ manyTasks c current dst inv.width inv.generation user
    have next := trace.switch dst trivial
    obtain ⟨-, move⟩ := step.next_number stale (.inl new) reach (by rw [bits]; omega) free (by
      intro i low before
      have positive := lt_of_lt_of_le inv.cursor low
      exact (set i (by omega)).mpr ⟨positive, by omega⟩)
    rw [if_pos move.generation] at next
    refine ⟨_, _, _, next, move.bits.trans bits, ?_, ?_, ?_⟩
    · intro n inside
      rw [move.bit n (by rw [bits]; exact inside), Bool.or_eq_true, set n inside,
        decide_eq_true_eq]
      omega
    · intro t low
      by_cases same : t = dst
      · rw [same, dstVal]
        exact (move.assigned ok.width ok.generation (by rw [bits]; omega)).2
      · rw [move.asidNumber_eq (Function.update_of_ne same _ _)]
        have apart : t.val ≠ dst.val := fun equal => same (Fin.ext equal)
        exact own t (by omega)
    · intro t high
      have other : t ≠ dst := by
        intro same
        rw [same] at high
        omega
      rw [taskSwitch_asid_of_ne c current other]
      exact unset t (by omega)

/-- Task 256 finds no number left and rolls over. Task 2 has number 2 of the old
generation. -/
theorem manyTasks_rolled : ∃ c, AsidTrace manyTasks (fun _ _ _ => True) c 256 1
      ⟨[(256, 1)], [(256, 1)]⟩ ∧ c.asids.asidBits = 8 ∧ c.asids.curIdx = 1 ∧
      (∀ n < 2 ^ 8, c.asids.asidBitmap.bit n = decide (n = 1)) ∧
      c.asids.asidNumber 2 = 2 ∧ ¬c.asids.Fast 2 := by
  obtain ⟨c, current, h, trace, bits, set, own, unset⟩ := manyTasks_first 255 le_rfl
  obtain ⟨inv, -⟩ := trace.inv_of_few (by rw [bits]; decide)
  obtain ⟨owner, ok⟩ := trace.run.ok (by rw [bits]; decide)
  have exhausted : c.asids.Exhausted 256 := by
    have new : c.asids.asid 256 = 0 := unset 256 (by decide)
    refine ⟨ok.stale_of_new new, .inl new, fun n low small => ?_⟩
    have positive := lt_of_lt_of_le inv.cursor low
    rw [bits] at small
    exact (set n small).mpr ⟨positive, by omega⟩
  have user : manyTasks.type 256 = .user := rfl
  have changed := inv.rolls user exhausted current
  have step := @taskSwitch_step _ _ manyTasks c current 256 inv.width inv.generation user
  obtain ⟨number, move⟩ := step.rolls exhausted
  have next := trace.switch 256 trivial
  rw [if_neg changed, AsidHistory.next_of_rolled user changed, number] at next
  have kept := @taskSwitch_asid_of_ne _ _ manyTasks 256 2 c current (by decide)
  generalize taskSwitch manyTasks c current 256 = c' at next move kept
  have bits' : c'.asids.asidBits = 8 := move.bits.trans bits
  obtain ⟨owner', ok'⟩ := next.run.ok (by rw [bits']; decide)
  refine ⟨c', next, bits', move.cursor, ?_, ?_, fun fast => ?_⟩
  · rw [← bits]
    exact move.bit
  · have two : c.asids.asidNumber 2 = 2 := own 2 (by decide)
    unfold AsidState.asidNumber at two ⊢
    rw [bits', kept, ← bits, two]
  · have current := (sameGeneration_iff ok'.width ok'.generation).mp fast
    have past := ok.past 2
    unfold AsidState.asidGen at past
    rw [kept, bits', ← bits] at current
    omega

/-- Tasks 1 to 256 are switched to in order, the last of which rolls over. Task 2 takes its
number back, and when it is switched to again after the idle task, it gets number 3. -/
theorem reclaimed_task_gets_second : ∃ c h,
    AsidTrace manyTasks (fun _ _ _ => True) c 2 1 h ∧ c.asids.asidBits = 8 ∧
      h.yielded = [(2, 3), (2, 2), (256, 1)] ∧ ¬OneEach h := by
  obtain ⟨c₁, trace₁, bits₁, cursor₁, bit₁, own, stale₁⟩ := manyTasks_rolled
  have user : manyTasks.type 2 = .user := rfl
  -- task 2 takes number 2
  have idle : ¬c₁.asids.Busy 2 := by
    intro busy
    rcases busy with unset | taken
    · unfold AsidState.asidNumber at own
      rw [unset] at own
      simp at own
    · rw [own, bit₁ 2 (by decide)] at taken
      cases taken
  obtain ⟨inv₁, -⟩ := trace₁.inv_of_few (by rw [bits₁]; decide)
  have step₂ := @taskSwitch_step _ _ manyTasks c₁ 256 2 inv₁.width inv₁.generation user
  obtain ⟨number₂, move₂⟩ := step₂.reclaims stale₁ idle
  have trace₂ := trace₁.switch 2 trivial
  rw [if_pos move₂.generation, AsidHistory.next_of_kept user move₂.generation, if_neg stale₁,
    number₂, own] at trace₂
  generalize taskSwitch manyTasks c₁ 256 2 = c₂ at trace₂ move₂
  -- the idle task
  have kernel : manyTasks.type 0 = .kernel := rfl
  have move₃ := @taskSwitch_of_kernel _ _ manyTasks c₂ 2 0 kernel
  have trace₃ := trace₂.switch 0 trivial
  rw [if_pos move₃.generation, AsidHistory.next_of_kernel kernel] at trace₃
  generalize taskSwitch manyTasks c₂ 2 0 = c₃ at trace₃ move₃
  have bits₃ : c₃.asids.asidBits = 8 := move₃.bits.trans (move₂.bits.trans bits₁)
  have cursor₃ : c₃.asids.curIdx = 1 := move₃.cursor.trans (move₂.cursor.trans cursor₁)
  have bit₃ : ∀ n < 2 ^ 8, c₃.asids.asidBitmap.bit n = (decide (n = 2) || decide (n = 1)) := by
    intro n small
    rw [move₃.bit n (by rw [move₂.bits, bits₁]; exact small),
      move₂.bit n (by rw [bits₁]; exact small), bit₁ n small, own]
  have stale₃ : ¬c₃.asids.Fast 2 := by
    rw [move₃.fast_iff rfl, move₂.fast_iff rfl]
    exact stale₁
  have busy₃ : c₃.asids.Busy 2 := by
    refine .inr ?_
    rw [move₃.asidNumber_eq rfl, move₂.asidNumber_eq rfl, own, bit₃ 2 (by decide)]
    rfl
  -- task 2 again
  obtain ⟨inv₃, -⟩ := trace₃.inv_of_few (by rw [bits₃]; decide)
  have step₄ := @taskSwitch_step _ _ manyTasks c₃ 0 2 inv₃.width inv₃.generation user
  obtain ⟨number₄, move₄⟩ := step₄.next_number stale₃ busy₃ (by rw [cursor₃]; decide)
    (by rw [bits₃]; decide) (bit₃ 3 (by decide)) (by
      intro i low before
      rw [cursor₃] at low
      rw [bit₃ i (by omega)]
      have either : i = 1 ∨ i = 2 := by omega
      rcases either with rfl | rfl <;> rfl)
  have trace₄ := trace₃.switch 2 trivial
  rw [if_pos move₄.generation, AsidHistory.next_of_kept user move₄.generation, number₄] at trace₄
  refine ⟨_, _, trace₄, move₄.bits.trans bits₃, rfl, fun one => ?_⟩
  have same := one 2 3 2 (by simp) (by simp)
  cases same

end Chinos
