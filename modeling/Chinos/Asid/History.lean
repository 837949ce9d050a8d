import Chinos.Asid.Hardware

/-!
# What has been handed out since the last rollover

`check_and_switch_context` takes a number from the bitmap in two ways. A task with a
number of an older generation gets it back if it is free, and its `asid` field stays as
it is; any other task gets the next free number and the field is written. The fast path
returns what the field holds, if the field is of this generation.

A history records the numbers returned since the last rollover. As long as the fast path
returns only such numbers, the bits of `asid_bitmap` are the numbers of the history, each
of one task. The fast path is wrong when `asid_generation`, which is computed in 32 bits,
comes back to a value that some `asid` field still holds.
-/

namespace Chinos

/-! ## What a call can do -/

section Step

variable {T : Type} [DecidableEq T] {tasks : TaskSet T} {c : Cpu T} {s s' : AsidState T}
  {src t u : T} {n : Nat}

/-- The test of the fast path: the `asid` field of task `t` was recorded in the generation that is
current. -/
def AsidState.Fast (s : AsidState T) (t : T) : Prop :=
  s.asid t &&& ~~~asidMask s.asidBits = s.asidGeneration

instance AsidState.decidableFast (s : AsidState T) (t : T) : Decidable (s.Fast t) :=
  inferInstanceAs (Decidable (_ = _))

/-- The number that the `asid` field of `t` names is not to be had: there is none, or its
bit is set. -/
def AsidState.Busy (s : AsidState T) (t : T) : Prop :=
  s.asid t = 0 ∨ s.asidBitmap.bit (s.asidNumber t) = true

/-- No number from the cursor on is free, which is when the search for one has to roll over. -/
def AsidState.Full (s : AsidState T) : Prop :=
  ∀ n, s.curIdx ≤ n → n < 2 ^ s.asidBits → s.asidBitmap.bit n = true

/-- The fields after a call; the pending flush is left open. -/
structure AsidMove (s s' : AsidState T) (generation : U64) (curIdx : Nat) (asid : T → U64)
    (bit : Nat → Bool) : Prop where
  bits : s'.asidBits = s.asidBits
  generation : s'.asidGeneration = generation
  cursor : s'.curIdx = curIdx
  asid : s'.asid = asid
  bit : ∀ n < 2 ^ s.asidBits, s'.asidBitmap.bit n = bit n

/-- What `check_and_switch_context` does for a user task `t`, with the number it returns. -/
inductive AsidStep (s : AsidState T) (t : T) (s' : AsidState T) : Nat → Prop
  | fast (held : s.Fast t)
      (move : AsidMove s s' s.asidGeneration s.curIdx s.asid s.asidBitmap.bit) :
      AsidStep s t s' (s.asidNumber t)
  | reclaimed (stale : ¬s.Fast t) (idle : ¬s.Busy t)
      (move : AsidMove s s' s.asidGeneration s.curIdx s.asid
        fun i => decide (i = s.asidNumber t) || s.asidBitmap.bit i) :
      AsidStep s t s' (s.asidNumber t)
  | fresh {n : Nat} (stale : ¬s.Fast t) (busy : s.Busy t) (low : s.curIdx ≤ n)
      (small : n < 2 ^ s.asidBits) (clear : s.asidBitmap.bit n = false)
      (skipped : ∀ i, s.curIdx ≤ i → i < n → s.asidBitmap.bit i = true)
      (move : AsidMove s s' s.asidGeneration n
        (Function.update s.asid t (BitVec.ofNat 64 n ||| s.asidGeneration))
        fun i => decide (i = n) || s.asidBitmap.bit i) :
      AsidStep s t s' n
  | rolled (stale : ¬s.Fast t) (busy : s.Busy t) (full : s.Full)
      (move : AsidMove s s' (asidRollover s).asidGeneration 1
        (Function.update s.asid t (BitVec.ofNat 64 1 ||| (asidRollover s).asidGeneration))
        fun i => decide (i = 1)) :
      AsidStep s t s' 1

/-- The last part of the call, for a task whose own number is not to be had; the bitmap may
be another one with the same bits. -/
theorem asidAllocate_step (width : s.asidBits = 8 ∨ s.asidBits = 16) (stale : ¬s.Fast t)
    (busy : s.Busy t) {bitmap : Bitmap} (same : ∀ i, bitmap.bit i = s.asidBitmap.bit i) :
    AsidStep s t (asidAllocate { s with asidBitmap := bitmap } t).2
      ((asidAllocate { s with asidBitmap := bitmap } t).1.toNat % 2 ^ s.asidBits) := by
  have size := numUserAsids_eq width
  have found := findNextZeroBit_firstHit bitmap (numUserAsids s.asidBits) s.curIdx
  unfold asidAllocate
  simp only
  generalize findNextZeroBit bitmap (numUserAsids s.asidBits) s.curIdx = n at found ⊢
  by_cases full : n ≥ numUserAsids s.asidBits
  · rw [if_pos full]
    have two : 1 < 2 ^ s.asidBits := by rcases width with width | width <;> simp [width]
    have first : findNextZeroBit (bitmapClear bitmap 0 (numUserAsids s.asidBits))
        (numUserAsids s.asidBits) 1 = 1 := by
      apply findNextZeroBit_of_clear
      · exact size ▸ two
      · simp [size, two]
    simp only [asidRollover, asidAssign, first, toNat_asidNumber width two, Nat.mod_eq_of_lt two]
    refine .rolled stale busy ?_ ⟨rfl, rfl, rfl, rfl, ?_⟩
    · intro i low small
      have set := found.skipped i low (by omega)
      rw [← same]
      simpa using set
    · intro i small
      have here : (1 ≤ i ∧ i < 1 + 1) ↔ i = 1 := by omega
      have cleared : (bitmapClear bitmap 0 (numUserAsids s.asidBits)).bit i = false := by
        rw [bitmapClear_bit, if_pos (by omega)]
      rw [bitmapSet_bit, if_congr here rfl rfl, cleared]
      by_cases first : i = 1 <;> simp [first]
  · rw [if_neg full]
    obtain ⟨low, clear⟩ := found.here (by omega)
    have small : n < 2 ^ s.asidBits := by omega
    simp only [asidAssign, toNat_asidNumber width small,
      Nat.mod_eq_of_lt small]
    refine .fresh stale busy low small ?_ ?_ ⟨rfl, rfl, rfl, rfl, ?_⟩
    · rw [← same]
      simpa using clear
    · intro i low before
      have set := found.skipped i low before
      rw [← same]
      simpa using set
    · intro i _
      have here : (n ≤ i ∧ i < n + 1) ↔ i = n := by omega
      rw [bitmapSet_bit, if_congr here rfl rfl, same]
      by_cases first : i = n <;> simp [first]

theorem checkAndSwitchContext_step (width : s.asidBits = 8 ∨ s.asidBits = 16)
    (shape : ∃ gen, s.asidGeneration.toNat = gen * 2 ^ s.asidBits)
    (user : tasks.type t = .user) :
    AsidStep s t (checkAndSwitchContext tasks s t).2
      ((checkAndSwitchContext tasks s t).1.toNat % 2 ^ s.asidBits) := by
  obtain ⟨gen, shape⟩ := shape
  unfold checkAndSwitchContext
  rw [if_neg (by rw [user]; decide)]
  by_cases held : s.Fast t
  · rw [if_pos (show _ = _ from held)]
    exact .fast held ⟨rfl, rfl, rfl, rfl, fun _ _ => rfl⟩
  · rw [if_neg (show ¬_ = _ from held)]
    unfold asidReclaim
    by_cases new : s.asid t = 0
    · rw [if_neg (not_not_intro new)]
      exact asidAllocate_step width held (.inl new) fun _ => rfl
    · rw [if_pos new]
      have number : (s.asid t &&& asidMask s.asidBits).toNat = s.asidNumber t :=
        toNat_and_asidMask width
      have small : s.asidNumber t < 2 ^ s.asidBits := Nat.mod_lt _ (by positivity)
      simp only [number, testAndSetBit_fst]
      cases set : s.asidBitmap.bit (s.asidNumber t) with
      | true =>
        apply asidAllocate_step width held (.inr set)
        intro i
        rw [testAndSetBit_bit]
        by_cases here : i = s.asidNumber t
        · rw [if_pos here, here, set]
        · rw [if_neg here]
      | false =>
        have word := toNat_or_generation shape (number.symm ▸ small)
        have value : (s.asidGeneration ||| (s.asid t &&& asidMask s.asidBits)).toNat %
            2 ^ s.asidBits = s.asidNumber t := by
          rw [word, Nat.mul_comm, Nat.mul_add_mod, number, Nat.mod_eq_of_lt small]
        simp only [Bool.false_eq_true, if_false, value]
        refine .reclaimed held ?_ ⟨rfl, rfl, rfl, rfl, fun i _ => ?_⟩
        · intro busy
          rcases busy with unset | taken
          · exact new unset
          · rw [set] at taken
            cases taken
        · rw [testAndSetBit_bit]
          by_cases here : i = s.asidNumber t <;> simp [here]

theorem taskSwitch_step (width : c.asids.asidBits = 8 ∨ c.asids.asidBits = 16)
    (shape : ∃ gen, c.asids.asidGeneration.toNat = gen * 2 ^ c.asids.asidBits)
    (user : tasks.type t = .user) :
    AsidStep c.asids t (taskSwitch tasks c src t).asids (c.issued tasks t) := by
  obtain ⟨flush, asids⟩ := @taskSwitch_asids T _ tasks c src t
  rw [asids]
  have step : AsidStep c.asids t (checkAndSwitchContext tasks c.asids t).2 (c.issued tasks t) :=
    checkAndSwitchContext_step width shape user
  generalize c.issued tasks t = number at step ⊢
  cases step with
  | fast held move =>
    exact .fast held ⟨move.bits, move.generation, move.cursor, move.asid, move.bit⟩
  | reclaimed stale idle move =>
    exact .reclaimed stale idle ⟨move.bits, move.generation, move.cursor, move.asid, move.bit⟩
  | fresh stale busy low small clear skipped move =>
    exact .fresh stale busy low small clear skipped
      ⟨move.bits, move.generation, move.cursor, move.asid, move.bit⟩
  | rolled stale busy full move =>
    exact .rolled stale busy full
      ⟨move.bits, move.generation, move.cursor, move.asid, move.bit⟩

end Step

/-! ## Histories -/

/-- The numbers returned for user tasks since the last rollover, and among them those that
were taken from the bitmap. The call that rolls over is the first of the new generation. -/
structure AsidHistory (T : Type) where
  yielded : List (T × Nat)
  given : List (T × Nat)

section History

variable {T : Type} [DecidableEq T] {tasks : TaskSet T} {c : Cpu T} {s s' : AsidState T}
  {src t u dst current : T} {n rollovers : Nat} {h : AsidHistory T}
  {allowed : Cpu T → AsidHistory T → T → Prop}

def AsidHistory.next (tasks : TaskSet T) (c : Cpu T) (h : AsidHistory T) (dst : T) :
    AsidHistory T :=
  if tasks.type dst = .kernel then h
  else
    let entry := (dst, c.issued tasks dst)
    if (checkAndSwitchContext tasks c.asids dst).2.asidGeneration ≠ c.asids.asidGeneration then
      ⟨[entry], [entry]⟩
    else ⟨entry :: h.yielded, if c.asids.Fast dst then h.given else entry :: h.given⟩

/-- Runs of `task_switch` calls from `asid_initialize` on, each of them `allowed` by what it
finds, with the number of rollovers and the history. -/
inductive AsidTrace (tasks : TaskSet T) (allowed : Cpu T → AsidHistory T → T → Prop) :
    Cpu T → T → Nat → AsidHistory T → Prop
  | start {boot asids : AsidState T} {mmfr0 ttbr0 : U64} {block : Option Bitmap}
      (fresh : boot.Boot) (run : asidInitialize mmfr0 block boot = .ok asids) :
      AsidTrace tasks allowed ⟨asids, ttbr0, []⟩ tasks.idle 0 ⟨[], []⟩
  | switch {c : Cpu T} {current : T} {rollovers : Nat} {h : AsidHistory T}
      (trace : AsidTrace tasks allowed c current rollovers h) (dst : T)
      (allows : allowed c h dst) :
      AsidTrace tasks allowed (taskSwitch tasks c current dst) dst
        (if (taskSwitch tasks c current dst).asids.asidGeneration = c.asids.asidGeneration
          then rollovers else rollovers + 1)
        (h.next tasks c dst)

theorem AsidTrace.run (trace : AsidTrace tasks allowed c current rollovers h) :
    AsidRun tasks c current rollovers := by
  induction trace with
  | start fresh run => exact .start fresh run
  | switch trace dst allows ih => exact ih.switch dst

/-- The bits that are set are the numbers given since the last rollover, each to one task,
and all numbers below the cursor are. A task was given the number its `asid` field names, or
the field is of this generation. -/
structure GivenInv (s : AsidState T) (h : AsidHistory T) : Prop where
  width : s.asidBits = 8 ∨ s.asidBits = 16
  generation : ∃ gen, s.asidGeneration.toNat = gen * 2 ^ s.asidBits
  cursor : 0 < s.curIdx
  below : ∀ n < 2 ^ s.asidBits, 0 < n → n < s.curIdx → s.asidBitmap.bit n = true
  taken : ∀ n < 2 ^ s.asidBits, s.asidBitmap.bit n = true ↔ ∃ t, (t, n) ∈ h.given
  range : ∀ t n, (t, n) ∈ h.given → 0 < n ∧ n < 2 ^ s.asidBits
  once : ∀ t u n, (t, n) ∈ h.given → (u, n) ∈ h.given → t = u
  positive : ∀ t, s.asid t ≠ 0 → 0 < s.asidNumber t
  stored : ∀ t n, (t, n) ∈ h.given → s.Fast t ∨ n = s.asidNumber t ∧ s.asid t ≠ 0
  yields : ∀ e, e ∈ h.yielded ↔ e ∈ h.given

/-- A user task whose `asid` field passes the test of the fast path was given that number
since the last rollover. -/
def FastSound (tasks : TaskSet T) (s : AsidState T) (h : AsidHistory T) : Prop :=
  ∀ t, tasks.type t = .user → s.Fast t → (t, s.asidNumber t) ∈ h.given

/-! ## A call keeps the invariant -/

omit [DecidableEq T] in
theorem AsidMove.asidNumber_eq {generation : U64} {curIdx : Nat} {asid : T → U64}
    {bit : Nat → Bool} (move : AsidMove s s' generation curIdx asid bit)
    (same : asid u = s.asid u) : s'.asidNumber u = s.asidNumber u := by
  unfold AsidState.asidNumber
  rw [move.bits, move.asid, same]

omit [DecidableEq T] in
theorem AsidMove.fast_iff {curIdx : Nat} {asid : T → U64} {bit : Nat → Bool}
    (move : AsidMove s s' s.asidGeneration curIdx asid bit) (same : asid u = s.asid u) :
    s'.Fast u ↔ s.Fast u := by
  unfold AsidState.Fast
  rw [move.bits, move.generation, move.asid, same]

/-- The task that was given number `n` takes the fast path with it from then on. -/
theorem AsidMove.assigned {generation : U64} {curIdx gen : Nat} {bit : Nat → Bool}
    (move : AsidMove s s' generation curIdx
      (Function.update s.asid t (BitVec.ofNat 64 n ||| generation)) bit)
    (width : s.asidBits = 8 ∨ s.asidBits = 16)
    (shape : generation.toNat = gen * 2 ^ s.asidBits) (small : n < 2 ^ s.asidBits) :
    s'.Fast t ∧ s'.asidNumber t = n := by
  have number := toNat_asidNumber width small
  have word : (BitVec.ofNat 64 n ||| generation).toNat = 2 ^ s.asidBits * gen + n := by
    rw [BitVec.or_comm, toNat_or_generation shape (by rw [number]; exact small), number,
      Nat.mul_comm]
  constructor
  · unfold AsidState.Fast
    rw [move.bits, move.generation, move.asid, Function.update_self,
      sameGeneration_iff width shape, word, Nat.mul_add_div (by positivity),
      Nat.div_eq_of_lt small, Nat.add_zero]
  · unfold AsidState.asidNumber
    rw [move.bits, move.asid, Function.update_self, word, Nat.mul_add_mod,
      Nat.mod_eq_of_lt small]

omit [DecidableEq T] in
/-- Neither a kernel task nor the fast path changes anything. -/
theorem GivenInv.unchanged (inv : GivenInv s h)
    (move : AsidMove s s' s.asidGeneration s.curIdx s.asid s.asidBitmap.bit) :
    GivenInv s' h where
  width := move.bits ▸ inv.width
  generation := by
    rw [move.bits, move.generation]
    exact inv.generation
  cursor := move.cursor ▸ inv.cursor
  below := by
    rw [move.bits, move.cursor]
    intro n small positive before
    rw [move.bit n small]
    exact inv.below n small positive before
  taken := by
    rw [move.bits]
    intro n small
    rw [move.bit n small]
    exact inv.taken n small
  range := move.bits ▸ inv.range
  once := inv.once
  positive := by
    intro t set
    rw [move.asidNumber_eq rfl]
    exact inv.positive t (move.asid ▸ set)
  stored := by
    intro t n given
    rw [move.fast_iff rfl, move.asidNumber_eq rfl, move.asid]
    exact inv.stored t n given
  yields := inv.yields

omit [DecidableEq T] in
/-- A free number is given to `t`: what holds of the numbers. -/
theorem GivenInv.given_cons (inv : GivenInv s h) (small : n < 2 ^ s.asidBits)
    (clear : s.asidBitmap.bit n = false) (t : T) :
    (∀ i < 2 ^ s.asidBits, (decide (i = n) || s.asidBitmap.bit i) = true ↔
      ∃ u, (u, i) ∈ (t, n) :: h.given) ∧
    ∀ u v i, (u, i) ∈ (t, n) :: h.given → (v, i) ∈ (t, n) :: h.given → u = v := by
  have unseen : ∀ u, (u, n) ∉ h.given := by
    intro u given
    rw [(inv.taken n small).mpr ⟨u, given⟩] at clear
    cases clear
  constructor
  · intro i inside
    simp only [Bool.or_eq_true, decide_eq_true_eq, inv.taken i inside, List.mem_cons,
      Prod.mk.injEq]
    constructor
    · intro taken
      rcases taken with here | ⟨u, given⟩
      · exact ⟨t, .inl ⟨rfl, here⟩⟩
      · exact ⟨u, .inr given⟩
    · intro given
      obtain ⟨u, ⟨-, here⟩ | given⟩ := given
      · exact .inl here
      · exact .inr ⟨u, given⟩
  · intro u v i first second
    rcases List.mem_cons.mp first with here | first <;>
      rcases List.mem_cons.mp second with there | second
    · cases here
      cases there
      rfl
    · cases here
      exact absurd second (unseen v)
    · cases there
      exact absurd first (unseen u)
    · exact inv.once u v i first second

omit [DecidableEq T] in
theorem GivenInv.range_cons (inv : GivenInv s h) (positive : 0 < n) (small : n < 2 ^ s.asidBits)
    (t : T) : ∀ u i, (u, i) ∈ (t, n) :: h.given → 0 < i ∧ i < 2 ^ s.asidBits := by
  intro u i given
  rcases List.mem_cons.mp given with here | given
  · cases here
    exact ⟨positive, small⟩
  · exact inv.range u i given

omit [DecidableEq T] in
theorem GivenInv.reclaim (inv : GivenInv s h) (idle : ¬s.Busy t)
    (move : AsidMove s s' s.asidGeneration s.curIdx s.asid
      fun i => decide (i = s.asidNumber t) || s.asidBitmap.bit i) :
    GivenInv s' ⟨(t, s.asidNumber t) :: h.yielded, (t, s.asidNumber t) :: h.given⟩ := by
  obtain ⟨unset, clear⟩ := not_or.mp idle
  have small : s.asidNumber t < 2 ^ s.asidBits := Nat.mod_lt _ (by positivity)
  obtain ⟨taken, once⟩ := inv.given_cons small (Bool.eq_false_of_not_eq_true clear) t
  refine ⟨move.bits ▸ inv.width, ?_, move.cursor ▸ inv.cursor, ?_, ?_, ?_, once, ?_, ?_, ?_⟩
  · rw [move.bits, move.generation]
    exact inv.generation
  · rw [move.bits, move.cursor]
    intro n small positive before
    rw [move.bit n small, inv.below n small positive before, Bool.or_true]
  · rw [move.bits]
    intro n small
    rw [move.bit n small]
    exact taken n small
  · rw [move.bits]
    exact inv.range_cons (inv.positive t unset) small t
  · intro u set
    rw [move.asidNumber_eq rfl]
    exact inv.positive u (move.asid ▸ set)
  · intro u n given
    rw [move.fast_iff rfl, move.asidNumber_eq rfl, move.asid]
    rcases List.mem_cons.mp given with here | given
    · cases here
      exact .inr ⟨rfl, unset⟩
    · exact inv.stored u n given
  · intro e
    simp only [List.mem_cons, inv.yields]

theorem GivenInv.fresh (inv : GivenInv s h) (low : s.curIdx ≤ n) (small : n < 2 ^ s.asidBits)
    (clear : s.asidBitmap.bit n = false)
    (skipped : ∀ i, s.curIdx ≤ i → i < n → s.asidBitmap.bit i = true)
    (move : AsidMove s s' s.asidGeneration n
      (Function.update s.asid t (BitVec.ofNat 64 n ||| s.asidGeneration))
      fun i => decide (i = n) || s.asidBitmap.bit i) :
    GivenInv s' ⟨(t, n) :: h.yielded, (t, n) :: h.given⟩ := by
  obtain ⟨gen, shape⟩ := inv.generation
  obtain ⟨fast, number⟩ := move.assigned inv.width shape small
  have positive : 0 < n := lt_of_lt_of_le inv.cursor low
  obtain ⟨taken, once⟩ := inv.given_cons small clear t
  refine ⟨move.bits ▸ inv.width, ⟨gen, ?_⟩, move.cursor ▸ positive, ?_, ?_, ?_, once, ?_, ?_, ?_⟩
  · rw [move.bits, move.generation]
    exact shape
  · rw [move.bits, move.cursor]
    intro i inside positive before
    have set : s.asidBitmap.bit i = true := by
      by_cases low : s.curIdx ≤ i
      · exact skipped i low before
      · exact inv.below i inside positive (Nat.lt_of_not_le low)
    rw [move.bit i inside, set, Bool.or_true]
  · rw [move.bits]
    intro i inside
    rw [move.bit i inside]
    exact taken i inside
  · rw [move.bits]
    exact inv.range_cons positive small t
  · intro u set
    by_cases same : u = t
    · rw [same, number]
      exact positive
    · have kept := Function.update_of_ne same (BitVec.ofNat 64 n ||| s.asidGeneration) s.asid
      rw [move.asidNumber_eq kept]
      exact inv.positive u (by rwa [move.asid, kept] at set)
  · intro u i given
    by_cases same : u = t
    · exact .inl (same ▸ fast)
    · have kept := Function.update_of_ne same (BitVec.ofNat 64 n ||| s.asidGeneration) s.asid
      rw [move.fast_iff kept, move.asidNumber_eq kept, move.asid, kept]
      rcases List.mem_cons.mp given with here | given
      · cases here
        exact absurd rfl same
      · exact inv.stored u i given
  · intro e
    simp only [List.mem_cons, inv.yields]

theorem GivenInv.roll (inv : GivenInv s h)
    (move : AsidMove s s' (asidRollover s).asidGeneration 1
      (Function.update s.asid t (BitVec.ofNat 64 1 ||| (asidRollover s).asidGeneration))
      fun i => decide (i = 1)) :
    GivenInv s' ⟨[(t, 1)], [(t, 1)]⟩ := by
  obtain ⟨gen, shape⟩ := inv.generation
  obtain ⟨gen', shape'⟩ := asidRollover_aligned inv.width shape
  have two : 1 < 2 ^ s.asidBits := by rcases inv.width with width | width <;> simp [width]
  obtain ⟨fast, number⟩ := move.assigned inv.width shape' two
  refine ⟨move.bits ▸ inv.width, ⟨gen', ?_⟩, ?_, ?_, ?_, ?_, ?_, ?_, ?_, fun e => Iff.rfl⟩
  · rw [move.bits, move.generation]
    exact shape'
  · rw [move.cursor]
    exact Nat.one_pos
  · rw [move.cursor]
    intro n _ positive before
    omega
  · rw [move.bits]
    intro n inside
    rw [move.bit n inside]
    simp
  · intro u n given
    rw [move.bits]
    cases List.mem_singleton.mp given
    exact ⟨Nat.one_pos, two⟩
  · intro u v n first second
    cases List.mem_singleton.mp first
    cases List.mem_singleton.mp second
    rfl
  · intro u set
    by_cases same : u = t
    · rw [same, number]
      exact Nat.one_pos
    · have kept := Function.update_of_ne same
        (BitVec.ofNat 64 1 ||| (asidRollover s).asidGeneration) s.asid
      rw [move.asidNumber_eq kept]
      exact inv.positive u (by rwa [move.asid, kept] at set)
  · intro u n given
    cases List.mem_singleton.mp given
    exact .inl fast

/-! ## Whole runs -/

theorem AsidHistory.next_of_kernel (kernel : tasks.type dst = .kernel) :
    h.next tasks c dst = h := by
  unfold AsidHistory.next
  rw [if_pos kernel]

theorem taskSwitch_of_kernel (kernel : tasks.type dst = .kernel) :
    AsidMove c.asids (taskSwitch tasks c src dst).asids c.asids.asidGeneration c.asids.curIdx
      c.asids.asid c.asids.asidBitmap.bit := by
  obtain ⟨flush, asids⟩ := @taskSwitch_asids T _ tasks c src dst
  have none : checkAndSwitchContext tasks c.asids dst = (0, c.asids) := by
    unfold checkAndSwitchContext
    rw [if_pos kernel]
  rw [asids, none]
  exact ⟨rfl, rfl, rfl, rfl, fun _ _ => rfl⟩

section User

variable (user : tasks.type dst = .user)
include user

/-- A call that does not roll over adds to the history. -/
theorem AsidHistory.next_of_kept
    (kept : (taskSwitch tasks c src dst).asids.asidGeneration = c.asids.asidGeneration) :
    h.next tasks c dst = ⟨(dst, c.issued tasks dst) :: h.yielded,
      if c.asids.Fast dst then h.given else (dst, c.issued tasks dst) :: h.given⟩ := by
  rw [taskSwitch_asidGeneration] at kept
  unfold AsidHistory.next
  rw [if_neg (by rw [user]; decide)]
  simp only [kept, ne_eq, not_true, if_false]

/-- A call that rolls over starts the history again, with the number it hands out as its only
entry. -/
theorem AsidHistory.next_of_rolled
    (rolled : (taskSwitch tasks c src dst).asids.asidGeneration ≠ c.asids.asidGeneration) :
    h.next tasks c dst = ⟨[(dst, c.issued tasks dst)], [(dst, c.issued tasks dst)]⟩ := by
  rw [taskSwitch_asidGeneration] at rolled
  unfold AsidHistory.next
  rw [if_neg (by rw [user]; decide)]
  simp only [rolled, ne_eq, not_false_iff, if_true]

end User

/-- One switch keeps the invariant, provided that the fast path hands out only numbers that were
given to the task in the current generation. -/
theorem GivenInv.switch (inv : GivenInv c.asids h) (sound : FastSound tasks c.asids h)
    (src dst : T) : GivenInv (taskSwitch tasks c src dst).asids (h.next tasks c dst) := by
  cases type : tasks.type dst with
  | kernel =>
    rw [AsidHistory.next_of_kernel type]
    exact inv.unchanged (taskSwitch_of_kernel type)
  | user =>
    have step := @taskSwitch_step T _ tasks c src dst inv.width inv.generation type
    have kept := @AsidHistory.next_of_kept T _ tasks c src dst h type
    have rolled := @AsidHistory.next_of_rolled T _ tasks c src dst h type
    generalize (taskSwitch tasks c src dst).asids = s' at step kept rolled ⊢
    generalize c.issued tasks dst = number at step kept rolled
    cases step with
    | fast held move =>
      rw [kept move.generation, if_pos held]
      have before := inv.unchanged move
      refine { before with yields := fun e => ?_ }
      simp only [List.mem_cons, inv.yields]
      constructor
      · intro yielded
        rcases yielded with rfl | given
        · exact sound dst type held
        · exact given
      · exact .inr
    | reclaimed stale idle move =>
      rw [kept move.generation, if_neg stale]
      exact inv.reclaim idle move
    | fresh stale busy low small clear skipped move =>
      rw [kept move.generation, if_neg stale]
      exact inv.fresh low small clear skipped move
    | rolled stale busy full move =>
      obtain ⟨gen, shape⟩ := inv.generation
      have changed := asidRollover_ne inv.width shape
      rw [rolled (by rw [move.generation]; exact changed)]
      exact inv.roll move

/-- A switch to `t` rolls over: the fast path does not serve it, its old number is not to be had,
and no number from the cursor on is free. -/
def AsidState.Exhausted (s : AsidState T) (t : T) : Prop := ¬s.Fast t ∧ s.Busy t ∧ s.Full

/-- If the call rolls over, the next generation is one that no other user task's `asid`
field is of. -/
def FreshGeneration (tasks : TaskSet T) (c : Cpu T) (_ : AsidHistory T) (dst : T) : Prop :=
  tasks.type dst = .user → c.asids.Exhausted dst → ∀ u, tasks.type u = .user → u ≠ dst →
    c.asids.asid u &&& ~~~asidMask c.asids.asidBits ≠ (asidRollover c.asids).asidGeneration

theorem AsidStep.rolls (step : AsidStep s t s' n) (exhausted : s.Exhausted t) :
    n = 1 ∧ AsidMove s s' (asidRollover s).asidGeneration 1
      (Function.update s.asid t (BitVec.ofNat 64 1 ||| (asidRollover s).asidGeneration))
      fun i => decide (i = 1) := by
  obtain ⟨stale, busy, full⟩ := exhausted
  cases step with
  | fast held => exact absurd held stale
  | reclaimed _ idle => exact absurd busy idle
  | fresh _ _ low small clear =>
    rw [full n low small] at clear
    cases clear
  | rolled _ _ _ move => exact ⟨rfl, move⟩

theorem AsidStep.generation_eq (step : AsidStep s t s' n) (more : ¬s.Exhausted t) :
    s'.asidGeneration = s.asidGeneration := by
  cases step with
  | fast _ move => exact move.generation
  | reclaimed _ _ move => exact move.generation
  | fresh _ _ _ _ _ _ move => exact move.generation
  | rolled stale busy full => exact absurd ⟨stale, busy, full⟩ more

theorem GivenInv.rolls (inv : GivenInv c.asids h) (user : tasks.type dst = .user)
    (exhausted : c.asids.Exhausted dst) (src : T) :
    (taskSwitch tasks c src dst).asids.asidGeneration ≠ c.asids.asidGeneration := by
  obtain ⟨gen, shape⟩ := inv.generation
  have step := @taskSwitch_step T _ tasks c src dst inv.width inv.generation user
  rw [(step.rolls exhausted).2.generation]
  exact asidRollover_ne inv.width shape

omit [DecidableEq T] in
/-- A call that leaves the fields and the generation leaves the fast path sound. -/
theorem FastSound.unchanged {curIdx : Nat} {bit : Nat → Bool} (sound : FastSound tasks s h)
    (move : AsidMove s s' s.asidGeneration curIdx s.asid bit) : FastSound tasks s' h := by
  intro t user fast
  rw [move.asidNumber_eq rfl]
  exact sound t user ((move.fast_iff rfl).mp fast)

/-- A call that gives a task a number of this generation leaves the fast path sound. -/
theorem FastSound.fresh {curIdx : Nat} {bit : Nat → Bool} (inv : GivenInv s h)
    (sound : FastSound tasks s h) (small : n < 2 ^ s.asidBits)
    (move : AsidMove s s' s.asidGeneration curIdx
      (Function.update s.asid t (BitVec.ofNat 64 n ||| s.asidGeneration)) bit) :
    FastSound tasks s' ⟨(t, n) :: h.yielded, (t, n) :: h.given⟩ := by
  intro u user fast
  by_cases same : u = t
  · obtain ⟨gen, shape⟩ := inv.generation
    rw [same, (move.assigned inv.width shape small).2]
    exact List.mem_cons_self
  · have old := Function.update_of_ne same (BitVec.ofNat 64 n ||| s.asidGeneration) s.asid
    rw [move.asidNumber_eq old]
    exact List.mem_cons_of_mem _ (sound u user ((move.fast_iff old).mp fast))

/-- After a rollover only the task that was given number 1 may take the fast path. -/
theorem FastSound.rolled_iff {bit : Nat → Bool} (inv : GivenInv s h)
    (move : AsidMove s s' (asidRollover s).asidGeneration 1
      (Function.update s.asid t (BitVec.ofNat 64 1 ||| (asidRollover s).asidGeneration)) bit) :
    FastSound tasks s' ⟨[(t, 1)], [(t, 1)]⟩ ↔ ∀ u, tasks.type u = .user → u ≠ t →
      s.asid u &&& ~~~asidMask s.asidBits ≠ (asidRollover s).asidGeneration := by
  obtain ⟨gen, shape⟩ := inv.generation
  obtain ⟨gen', shape'⟩ := asidRollover_aligned inv.width shape
  have two : 1 < 2 ^ s.asidBits := by
    rcases inv.width with width | width <;> simp [width]
  have fast_iff : ∀ u ≠ t, s'.Fast u ↔
      s.asid u &&& ~~~asidMask s.asidBits = (asidRollover s).asidGeneration := by
    intro u other
    unfold AsidState.Fast
    rw [move.bits, move.generation, move.asid, Function.update_of_ne other]
  constructor
  · intro sound u user other same
    have given := sound u user ((fast_iff u other).mpr same)
    have mine := congrArg Prod.fst (List.mem_singleton.mp given)
    exact other mine
  · intro apart u user fast
    by_cases same : u = t
    · rw [same, (move.assigned inv.width shape' two).2]
      exact List.mem_singleton_self _
    · exact absurd ((fast_iff u same).mp fast) (apart u user same)

/-- A call leaves the fast path sound iff it does not roll over into a generation that is
already in some `asid` field. -/
theorem FastSound.switch_iff (inv : GivenInv c.asids h) (sound : FastSound tasks c.asids h)
    (src dst : T) :
    FastSound tasks (taskSwitch tasks c src dst).asids (h.next tasks c dst) ↔
      FreshGeneration tasks c h dst := by
  cases type : tasks.type dst with
  | kernel =>
    rw [AsidHistory.next_of_kernel type]
    refine iff_of_true (sound.unchanged (taskSwitch_of_kernel type)) ?_
    intro user
    rw [type] at user
    cases user
  | user =>
    have step := @taskSwitch_step T _ tasks c src dst inv.width inv.generation type
    have kept := @AsidHistory.next_of_kept T _ tasks c src dst h type
    have rolled := @AsidHistory.next_of_rolled T _ tasks c src dst h type
    generalize (taskSwitch tasks c src dst).asids = s' at step kept rolled ⊢
    generalize c.issued tasks dst = number at step kept rolled
    cases step with
    | fast held move =>
      rw [kept move.generation, if_pos held]
      exact iff_of_true (sound.unchanged move) fun _ exhausted => absurd held exhausted.1
    | reclaimed stale idle move =>
      rw [kept move.generation, if_neg stale]
      refine iff_of_true ?_ fun _ exhausted => absurd exhausted.2.1 idle
      intro t user fast
      exact List.mem_cons_of_mem _ (sound.unchanged move t user fast)
    | fresh stale busy low small clear skipped move =>
      rw [kept move.generation, if_neg stale]
      refine iff_of_true (FastSound.fresh inv sound small move) fun _ exhausted => ?_
      rw [exhausted.2.2 number low small] at clear
      cases clear
    | rolled stale busy full move =>
      obtain ⟨gen, shape⟩ := inv.generation
      have changed := asidRollover_ne inv.width shape
      rw [rolled (by rw [move.generation]; exact changed), FastSound.rolled_iff inv move]
      exact ⟨fun apart _ _ => apart, fun fresh => fresh type ⟨stale, busy, full⟩⟩

omit [DecidableEq T] in
theorem GivenInv.start {boot asids : AsidState T} {mmfr0 : U64} {block : Option Bitmap}
    (fresh : boot.Boot) (run : asidInitialize mmfr0 block boot = .ok asids) :
    GivenInv asids ⟨[], []⟩ ∧ FastSound tasks asids ⟨[], []⟩ := by
  obtain ⟨-, cursor, unset⟩ := fresh
  obtain ⟨bits, map, width, rfl⟩ := asidInitialize_eq run
  have shape : (asidFirstVersion bits).toNat = 1 * 2 ^ bits :=
    (numUserAsids_eq width).trans (one_mul _).symm
  refine ⟨⟨width, ⟨1, shape⟩, ?_, ?_, ?_, ?_, ?_, ?_, ?_, fun e => Iff.rfl⟩, ?_⟩
  · simp [cursor]
  · intro n _ positive before
    simp only [cursor] at before
    omega
  · intro n small
    have clear := bitmapZero_bit map (show n < numUserAsids bits by
      rw [numUserAsids_eq width]; exact small)
    simp [clear]
  · intro t n given
    cases given
  · intro t u n given
    cases given
  · intro t set
    exact absurd (unset t) set
  · intro t n given
    cases given
  · intro t _ fast
    have current := (sameGeneration_iff width shape).mp fast
    simp [unset] at current

/-- In every run whose rollovers all lead to fresh generations the fast path is sound. -/
theorem AsidTrace.inv (trace : AsidTrace tasks (FreshGeneration tasks) c current rollovers h) :
    GivenInv c.asids h ∧ FastSound tasks c.asids h := by
  induction trace with
  | start fresh run => exact GivenInv.start fresh run
  | @switch c current rollovers h trace dst allows ih =>
    obtain ⟨inv, sound⟩ := ih
    exact ⟨inv.switch sound current dst, (FastSound.switch_iff inv sound current dst).mpr allows⟩

omit [DecidableEq T] in
/-- The next generation is above all that were, unless the counter runs over. -/
theorem AsidOk.freshGeneration {gen : Nat} {owner : Nat → Option Int}
    (ok : AsidOk tasks c.asids gen owner) (room : (gen + 1) * 2 ^ c.asids.asidBits < 2 ^ 32)
    (h : AsidHistory T) (dst : T) : FreshGeneration tasks c h dst := by
  intro _ _ u _ _ same
  have value := asidRollover_generation ok.width ok.generation
  rw [Nat.mod_eq_of_lt room] at value
  have current := (sameGeneration_iff ok.width value).mp same
  have past := ok.past u
  unfold AsidState.asidGen at past
  omega

/-- As long as fewer rollovers were made than the generation counter has values, it has not come
back to an old one, and the fast path is sound. -/
theorem AsidTrace.inv_of_few (trace : AsidTrace tasks allowed c current rollovers h)
    (few : rollovers < 2 ^ (32 - c.asids.asidBits) - 1) :
    GivenInv c.asids h ∧ FastSound tasks c.asids h := by
  induction trace with
  | start fresh run => exact GivenInv.start fresh run
  | @switch c current rollovers h trace dst allows ih =>
    rw [taskSwitch_asidBits] at few
    have fewer : rollovers < 2 ^ (32 - c.asids.asidBits) - 1 := by
      split at few <;> omega
    obtain ⟨inv, sound⟩ := ih fewer
    obtain ⟨owner, ok⟩ := trace.run.ok fewer
    refine ⟨inv.switch sound current dst, ?_⟩
    apply (FastSound.switch_iff inv sound current dst).mpr
    intro user exhausted
    have changed := inv.rolls user exhausted current
    rw [if_neg changed] at few
    refine ok.freshGeneration ?_ h dst user exhausted
    rcases inv.width with width | width <;> rw [width] at few ⊢ <;> omega

/-! ## Rollovers without end -/

omit [DecidableEq T] in
/-- In a generation fewer tasks take the fast path than there are numbers. -/
theorem GivenInv.exists_stale (inv : GivenInv s h) (sound : FastSound tasks s h)
    {pool : Finset T} (user : ∀ t ∈ pool, tasks.type t = .user)
    (many : 2 ^ s.asidBits ≤ pool.card) : ∃ t ∈ pool, ¬s.Fast t := by
  by_contra all
  push Not at all
  have given : ∀ t ∈ pool, (t, s.asidNumber t) ∈ h.given :=
    fun t inside => sound t (user t inside) (all t inside)
  have inside : ∀ t ∈ pool, s.asidNumber t ∈ Finset.Ico 1 (2 ^ s.asidBits) := by
    intro t inside
    obtain ⟨positive, small⟩ := inv.range _ _ (given t inside)
    exact Finset.mem_Ico.mpr ⟨positive, small⟩
  have fewer : (Finset.Ico 1 (2 ^ s.asidBits)).card < pool.card := by
    have two : 0 < 2 ^ s.asidBits := by positivity
    rw [Nat.card_Ico]
    omega
  obtain ⟨t, inT, u, inU, apart, same⟩ :=
    Finset.exists_ne_map_eq_of_card_lt_of_maps_to fewer inside
  exact apart (inv.once t u _ (given t inT) (same ▸ given u inU))

/-- The numbers whose bit is clear, of which every call outside the fast path takes one as long as
it does not roll over. -/
def AsidState.free (s : AsidState T) : Finset Nat :=
  (Finset.range (2 ^ s.asidBits)).filter fun n => s.asidBitmap.bit n = false

/-- A call that does not take the fast path takes a free number or rolls over. -/
theorem AsidStep.free_lt (step : AsidStep s t s' n) (stale : ¬s.Fast t)
    (more : ¬s.Exhausted t) : s'.free.card < s.free.card := by
  have taken : ∀ n < 2 ^ s.asidBits, s.asidBitmap.bit n = false →
      (∀ i < 2 ^ s.asidBits, s'.asidBitmap.bit i = (decide (i = n) || s.asidBitmap.bit i)) →
      s'.asidBits = s.asidBits → s'.free.card < s.free.card := by
    intro n small clear bit bits
    apply Finset.card_lt_card
    unfold AsidState.free
    rw [bits, Finset.ssubset_iff_of_subset]
    · refine ⟨n, ?_, ?_⟩
      · simp [small, clear]
      · simp [small, bit n small]
    · intro i
      simp only [Finset.mem_filter, Finset.mem_range]
      intro inside
      obtain ⟨inside, free⟩ := inside
      rw [bit i inside] at free
      exact ⟨inside, (Bool.or_eq_false_iff.mp free).2⟩
  cases step with
  | fast held => exact absurd held stale
  | reclaimed _ idle move =>
    have clear := Bool.eq_false_of_not_eq_true (not_or.mp idle).2
    exact taken _ (Nat.mod_lt _ (by positivity)) clear move.bit move.bits
  | fresh _ _ _ small clear _ move => exact taken n small clear move.bit move.bits
  | rolled _ busy full => exact absurd ⟨stale, busy, full⟩ more

/-- With as many user tasks as there are numbers, zero counted, every run can be continued
to a switch that rolls over. -/
theorem AsidTrace.exists_exhausted {pool : Finset T} (user : ∀ t ∈ pool, tasks.type t = .user)
    (allows : ∀ c h, ∀ t ∈ pool, allowed c h t)
    (trace : AsidTrace tasks allowed c current rollovers h)
    (few : rollovers < 2 ^ (32 - c.asids.asidBits) - 1)
    (many : 2 ^ c.asids.asidBits ≤ pool.card) :
    ∃ c' current' h', c'.asids.asidBits = c.asids.asidBits ∧
      AsidTrace tasks allowed c' current' rollovers h' ∧
      ∃ dst ∈ pool, c'.asids.Exhausted dst := by
  -- each switch to a task with a stale field leaves fewer numbers free
  induction count : c.asids.free.card using Nat.strong_induction_on generalizing c current h with
  | _ free ih =>
    obtain ⟨inv, sound⟩ := trace.inv_of_few few
    obtain ⟨dst, inside, stale⟩ := inv.exists_stale sound user many
    by_cases exhausted : c.asids.Exhausted dst
    · exact ⟨c, current, h, rfl, trace, dst, inside, exhausted⟩
    · have step := @taskSwitch_step T _ tasks c current dst inv.width inv.generation
        (user dst inside)
      have fewer := step.free_lt stale exhausted
      have next := trace.switch dst (allows c h dst inside)
      rw [if_pos (step.generation_eq exhausted)] at next
      have bits := @taskSwitch_asidBits T _ tasks c current dst
      obtain ⟨c', current', h', bits', trace', found⟩ :=
        ih _ (count ▸ fewer) next (by rw [bits]; exact few) (by rw [bits]; exact many) rfl
      exact ⟨c', current', h', bits'.trans bits, trace', found⟩

/-- The run can be continued to its next rollover. -/
theorem AsidTrace.exists_rollover {pool : Finset T} (user : ∀ t ∈ pool, tasks.type t = .user)
    (allows : ∀ c h, ∀ t ∈ pool, allowed c h t)
    (trace : AsidTrace tasks allowed c current rollovers h)
    (few : rollovers < 2 ^ (32 - c.asids.asidBits) - 1)
    (many : 2 ^ c.asids.asidBits ≤ pool.card) :
    ∃ c' current' h', c'.asids.asidBits = c.asids.asidBits ∧
      AsidTrace tasks allowed c' current' (rollovers + 1) h' ∧
      c'.asids.asidGeneration.toNat = (rollovers + 2) * 2 ^ c.asids.asidBits % 2 ^ 32 := by
  obtain ⟨c', current', h', bits, trace', dst, inside, exhausted⟩ :=
    trace.exists_exhausted user allows few many
  rw [← bits] at few ⊢
  obtain ⟨inv, -⟩ := trace'.inv_of_few few
  obtain ⟨owner, ok⟩ := trace'.run.ok few
  have next := trace'.switch dst (allows c' h' dst inside)
  rw [if_neg (inv.rolls (user dst inside) exhausted current')] at next
  have step := @taskSwitch_step T _ tasks c' current' dst inv.width inv.generation
    (user dst inside)
  refine ⟨_, _, _, taskSwitch_asidBits c' current' dst, next, ?_⟩
  rw [(step.rolls exhausted).2.generation]
  exact asidRollover_generation ok.width ok.generation

theorem asidAllocate_asid_of_ne (s : AsidState T) (other : u ≠ t) :
    (asidAllocate s t).2.asid u = s.asid u := by
  simp only [asidAllocate]
  split
  · exact Function.update_of_ne other _ _
  · exact Function.update_of_ne other _ _

/-- A call writes no field but that of its own task. -/
theorem taskSwitch_asid_of_ne (c : Cpu T) (src : T) (other : u ≠ t) :
    (taskSwitch tasks c src t).asids.asid u = c.asids.asid u := by
  obtain ⟨flush, asids⟩ := @taskSwitch_asids T _ tasks c src t
  rw [asids]
  unfold checkAndSwitchContext asidReclaim
  split
  · rfl
  · split
    · rfl
    · by_cases new : c.asids.asid t = 0
      · simp only [new, ne_eq, not_true, if_false, asidAllocate_asid_of_ne _ other]
      · simp only [new, ne_eq, not_false_iff, if_true]
        cases (testAndSetBit (c.asids.asid t &&& asidMask c.asids.asidBits).toNat
          c.asids.asidBitmap).1
        · rfl
        · exact asidAllocate_asid_of_ne _ other

/-- A task that is never switched to keeps the field 0. -/
theorem AsidTrace.asid_eq_zero (trace : AsidTrace tasks allowed c current rollovers h)
    (never : ∀ c h, ¬allowed c h u) : c.asids.asid u = 0 := by
  induction trace with
  | start fresh run =>
    obtain ⟨bits, map, -, rfl⟩ := asidInitialize_eq run
    exact fresh.2.2 u
  | @switch c current rollovers h trace dst allows ih =>
    have other : u ≠ dst := by
      intro same
      exact never c h (same ▸ allows)
    rw [taskSwitch_asid_of_ne c current other]
    exact ih

/-- Only tasks that were switched to are in the history. -/
theorem AsidTrace.allowed_of_given (trace : AsidTrace tasks allowed c current rollovers h)
    (given : (u, n) ∈ h.given) : ∃ c h, allowed c h u := by
  induction trace with
  | start => cases given
  | @switch c current rollovers h trace dst allows ih =>
    unfold AsidHistory.next at given
    split at given
    · exact ih given
    · have other : (u, n) ∈ h.given ∨ (u, n) = (dst, c.issued tasks dst) := by
        split at given
        · exact .inr (List.mem_singleton.mp given)
        · by_cases fast : c.asids.Fast dst
          · simp only [fast, if_true] at given
            exact .inl given
          · simp only [fast, if_false] at given
            exact (List.mem_cons.mp given).symm
      rcases other with before | here
      · exact ih before
      · cases here
        exact ⟨c, h, allows⟩

/-! ## Soundness of the fast path -/

/-- In every run all of whose rollovers so far led to a generation that was in no other
task's `asid` field, a user task passes the test of the fast path only with a number it was
given since the last rollover; the next switch keeps it so iff it meets the condition. -/
theorem fast_path_sound_iff
    (trace : AsidTrace tasks (FreshGeneration tasks) c current rollovers h) (dst : T) :
    FastSound tasks c.asids h ∧
      (FastSound tasks (taskSwitch tasks c current dst).asids (h.next tasks c dst) ↔
        FreshGeneration tasks c h dst) := by
  obtain ⟨inv, sound⟩ := trace.inv
  exact ⟨sound, FastSound.switch_iff inv sound current dst⟩

end History

theorem startCpu_trace {T : Type} [DecidableEq T] (tasks : TaskSet T)
    (allowed : Cpu T → AsidHistory T → T → Prop) :
    AsidTrace tasks allowed (startCpu T) tasks.idle 0 ⟨[], []⟩ :=
  .start ⟨rfl, rfl, fun _ => rfl⟩ (startCpu_initialized T)

theorem fast_path_sound_iff_sample :
    FastSound threeTasks (taskSwitch threeTasks (startCpu _) 0 1).asids
      (AsidHistory.next threeTasks (startCpu _) ⟨[], []⟩ 1) := by
  have trace := startCpu_trace threeTasks (FreshGeneration threeTasks)
  obtain ⟨owner, ok⟩ := trace.run.ok (by decide)
  have iff := fast_path_sound_iff trace 1
  exact iff.2.mpr (ok.freshGeneration (by decide) _ 1)

/-- The idle task and 257 user tasks, each with its own address space. -/
def manyTasks : TaskSet (Fin 258) where
  type t := if t = 0 then .kernel else .user
  tgid t := t.val
  addrspace t := ramVbase + BitVec.ofNat 64 (4096 * t.val)
  idle := 0
  ram := by
    intro t
    have bound : (BitVec.ofNat 64 (4096 * t.val)).toNat = 4096 * t.val := by
      rw [BitVec.toNat_ofNat]
      omega
    have vbase : ramVbase.toNat = 0xffffff8000000000 := rfl
    rw [BitVec.le_def, BitVec.toNat_add, bound]
    omega
  idle_kernel := rfl

theorem manyTasks_user {t : Fin 258} (pos : t ≠ 0) : manyTasks.type t = .user :=
  if_neg pos

/-- Tasks 1 to 256 alone can bring about any number of rollovers up to the one that sets
`asid_generation` to 0. -/
theorem manyTasks_rollovers (rollovers : Nat) (room : rollovers ≤ 2 ^ 24 - 1) :
    ∃ c current h, c.asids.asidBits = 8 ∧
      AsidTrace manyTasks (fun _ _ dst => dst ≠ 257) c current rollovers h ∧
      c.asids.asidGeneration.toNat = (rollovers + 1) * 2 ^ 8 % 2 ^ 32 := by
  induction rollovers with
  | zero => exact ⟨_, _, _, rfl, startCpu_trace manyTasks _, rfl⟩
  | succ rollovers ih =>
    obtain ⟨c, current, h, bits, trace, -⟩ := ih (by omega)
    have pool : ∀ t ∈ Finset.univ.filter (fun t : Fin 258 => t ≠ 0 ∧ t ≠ 257),
        t ≠ 0 ∧ t ≠ 257 := fun t inside => (Finset.mem_filter.mp inside).2
    obtain ⟨c', current', h', bits', trace', value⟩ :=
      trace.exists_rollover (fun t inside => manyTasks_user (pool t inside).1)
        (fun _ _ t inside => (pool t inside).2) (by rw [bits]; omega)
        (by rw [bits]; decide +kernel)
    rw [bits] at bits' value
    exact ⟨c', current', h', bits', trace', value⟩

/-- After `2 ^ 24 - 1` rollovers with 8-bit ASIDs a task that was never switched to passes
the test of the fast path. -/
theorem unswitched_task_fast : ∃ c current h,
    AsidTrace manyTasks (fun _ _ dst => dst ≠ 257) c current (2 ^ 24 - 1) h ∧
      manyTasks.type 257 = .user ∧ c.asids.asid 257 = 0 ∧ c.asids.Fast 257 ∧
      ¬FastSound manyTasks c.asids h := by
  obtain ⟨c, current, h, bits, trace, value⟩ := manyTasks_rollovers (2 ^ 24 - 1) le_rfl
  have unset : c.asids.asid 257 = 0 := trace.asid_eq_zero fun _ _ switched => switched rfl
  have fast : c.asids.Fast 257 := by
    unfold AsidState.Fast
    rw [unset, bits, ← BitVec.toNat_inj, value]
    decide
  refine ⟨c, current, h, trace, rfl, unset, fast, fun sound => ?_⟩
  obtain ⟨-, -, switched⟩ := trace.allowed_of_given (sound 257 rfl fast)
  exact switched rfl

end Chinos
