import Chinos.Asid.Model

/-!
# ASIDs keep address spaces apart in the TLB

Within a generation every number in use has one owner, the `tgid` of the tasks that
run under it. As long as no flush is pending, every cached translation belongs to
the owner of the number it is cached under. Between a rollover and the flush it
asked for, only tasks of one `tgid` run, still under the number they had before.
-/

namespace Chinos

/-! ## Words that hold a generation and a number -/

section Words

variable {bits gen : Nat} {generation x : U64}

theorem asidMask_eq (width : bits = 8 ∨ bits = 16) :
    asidMask bits = BitVec.allOnes 64 >>> (64 - bits) := by
  rcases width with rfl | rfl <;> decide

theorem not_asidMask_eq (width : bits = 8 ∨ bits = 16) :
    ~~~asidMask bits = BitVec.allOnes 64 <<< bits := by
  rcases width with rfl | rfl <;> decide

theorem numUserAsids_eq (width : bits = 8 ∨ bits = 16) : numUserAsids bits = 2 ^ bits := by
  rcases width with rfl | rfl <;> decide

theorem toNat_and_asidMask (width : bits = 8 ∨ bits = 16) :
    (x &&& asidMask bits).toNat = x.toNat % 2 ^ bits := by
  rw [asidMask_eq width, toNat_and_ones_ushiftRight x (by omega)]

/-- The test of the fast path compares generations: the bits above the number are those of the
current generation exactly if the field was recorded in it. -/
theorem sameGeneration_iff (width : bits = 8 ∨ bits = 16)
    (shape : generation.toNat = gen * 2 ^ bits) :
    x &&& ~~~asidMask bits = generation ↔ x.toNat / 2 ^ bits = gen := by
  rw [not_asidMask_eq width, ← BitVec.toNat_inj, toNat_and_ones_shiftLeft, shape]
  exact Nat.mul_left_inj (by positivity)

theorem toNat_asidNumber (width : bits = 8 ∨ bits = 16) {n : Nat} (small : n < 2 ^ bits) :
    (BitVec.ofNat 64 n).toNat = n := by
  have room : 2 ^ bits ≤ 2 ^ 64 := Nat.pow_le_pow_right (by omega) (by omega)
  rw [BitVec.toNat_ofNat, Nat.mod_eq_of_lt (by omega)]

theorem toNat_or_generation {number : U64} (shape : generation.toNat = gen * 2 ^ bits)
    (small : number.toNat < 2 ^ bits) :
    (generation ||| number).toNat = gen * 2 ^ bits + number.toNat := by
  rw [toNat_or_of_aligned (by rw [shape]; exact Nat.mul_mod_left _ _) small, shape]

/-- The physical address of a table in RAM is far below the ASID field of TTBR0. -/
theorem TaskSet.low {T : Type} (tasks : TaskSet T) (t : T) :
    (vbaseToPbase (tasks.addrspace t)).toNat < 2 ^ 48 := by
  have ram := BitVec.le_def.mp (tasks.ram t)
  have bound := (tasks.addrspace t).isLt
  have vbase : ramVbase.toNat = 0xffffff8000000000 := rfl
  have pbase : ramPbase.toNat = 0x40000000 := rfl
  unfold vbaseToPbase
  rw [BitVec.toNat_add, BitVec.toNat_sub]
  omega

/-- What `as_switch` puts in TTBR0: the number above bit `64 - bits`, the table below. -/
theorem toNat_base_or_asid (width : bits = 8 ∨ bits = 16) {base : U64} (low : base.toNat < 2 ^ 48)
    (asid : U64) :
    (base ||| asid <<< (64 - bits)).toNat =
      asid.toNat % 2 ^ bits * 2 ^ (64 - bits) + base.toNat := by
  have aligned : (asid <<< (64 - bits)).toNat = asid.toNat % 2 ^ bits * 2 ^ (64 - bits) := by
    rw [BitVec.toNat_shiftLeft, Nat.shiftLeft_eq]
    rcases width with rfl | rfl <;> omega
  have fits : base.toNat < 2 ^ (64 - bits) :=
    lt_of_lt_of_le low (Nat.pow_le_pow_right (by omega) (by omega))
  rw [BitVec.or_comm, toNat_or_of_aligned (by rw [aligned]; exact Nat.mul_mod_left _ _) fits,
    aligned]

/-- The number that TTBR0 holds after `as_switch` is the low part of the ASID that was passed to
it. -/
theorem toNat_ttbr0 (width : bits = 8 ∨ bits = 16) {base : U64} (low : base.toNat < 2 ^ 48)
    (asid : U64) :
    ((base ||| asid <<< (64 - bits)) >>> (64 - bits)).toNat = asid.toNat % 2 ^ bits := by
  have fits : base.toNat < 2 ^ (64 - bits) :=
    lt_of_lt_of_le low (Nat.pow_le_pow_right (by omega) (by omega))
  rw [BitVec.toNat_ushiftRight, Nat.shiftRight_eq_div_pow, toNat_base_or_asid width low,
    Nat.mul_comm, Nat.mul_add_div (by positivity), Nat.div_eq_of_lt fits, Nat.add_zero]

end Words

/-! ## Owners of the numbers -/

section Owners

variable {T : Type} {tasks : TaskSet T} {s : AsidState T} {gen : Nat} {owner : Nat → Option Int}
  {t : T}

/-- Number `s.asid t` was given in generation `s.asidGen t`. -/
def AsidState.asidGen (s : AsidState T) (t : T) : Nat := (s.asid t).toNat / 2 ^ s.asidBits

def AsidState.asidNumber (s : AsidState T) (t : T) : Nat := (s.asid t).toNat % 2 ^ s.asidBits

/-- In generation `gen` the numbers in use are those with an owner, and a task whose
ASID is of this generation has a number its `tgid` owns. -/
structure AsidOk (tasks : TaskSet T) (s : AsidState T) (gen : Nat) (owner : Nat → Option Int) :
    Prop where
  width : s.asidBits = 8 ∨ s.asidBits = 16
  generation : s.asidGeneration.toNat = gen * 2 ^ s.asidBits
  cursor : 0 < s.curIdx
  taken : ∀ n < 2 ^ s.asidBits, s.asidBitmap.bit n = true ↔ (owner n).isSome
  past : ∀ t, s.asidGen t ≤ gen
  held : ∀ t, tasks.type t = .user → s.asidGen t = gen →
    owner (s.asidNumber t) = some (tasks.tgid t)

/-- What `check_and_switch_context` does for a user task: it returns a number the
task's `tgid` owns, either in the same generation, with no number changing hands,
or in a new one. -/
inductive AsidIssued (tasks : TaskSet T) (s : AsidState T) (gen : Nat)
    (owner : Nat → Option Int) (t : T) (r : U64 × AsidState T) : Prop
  | kept (flush : r.2.tlbFlush = s.tlbFlush)
      (generation : r.2.asidGeneration = s.asidGeneration) (owner' : Nat → Option Int)
      (ok : AsidOk tasks r.2 gen owner')
      (mine : owner' (r.1.toNat % 2 ^ s.asidBits) = some (tasks.tgid t))
      (keeps : ∀ n g, owner n = some g → owner' n = some g)
  | rolled (flush : r.2.tlbFlush = true) (generation : r.2.asidGeneration ≠ s.asidGeneration)
      (issued : (gen + 1) * 2 ^ s.asidBits < 2 ^ 32 → ∃ owner', AsidOk tasks r.2 (gen + 1) owner' ∧
        owner' (r.1.toNat % 2 ^ s.asidBits) = some (tasks.tgid t))

theorem update_keeps {n : Nat} (free : owner n = none) (g : Int) (m : Nat) (h : Int)
    (owned : owner m = some h) : Function.update owner n (some g) m = some h := by
  rw [Function.update_apply, if_neg]
  · exact owned
  · intro same
    rw [same, free] at owned
    cases owned

/-- A free number of this generation goes to `tgid` `g`. -/
theorem AsidOk.take (ok : AsidOk tasks s gen owner) {n : Nat} (free : owner n = none)
    (bitmap : Bitmap) (set : ∀ i, bitmap.bit i = if i = n then true else s.asidBitmap.bit i)
    (g : Int) :
    AsidOk tasks { s with asidBitmap := bitmap } gen (Function.update owner n (some g)) where
  width := ok.width
  generation := ok.generation
  cursor := ok.cursor
  taken := by
    intro m small
    rw [set, Function.update_apply]
    by_cases same : m = n
    · rw [if_pos same, if_pos same]
      simp
    · rw [if_neg same, if_neg same]
      exact ok.taken m small
  past := ok.past
  held := fun u user current => update_keeps free g _ _ (ok.held u user current)

/-- A number whose bit is clear has no owner, so that it can be handed out. -/
theorem AsidOk.free_of_clear (ok : AsidOk tasks s gen owner) {n : Nat}
    (small : n < 2 ^ s.asidBits) (clear : s.asidBitmap.bit n = false) : owner n = none := by
  cases owned : owner n with
  | none => rfl
  | some g =>
    have set := (ok.taken n small).mpr (by rw [owned]; rfl)
    rw [clear] at set
    cases set

variable [DecidableEq T]

/-- A free number can be recorded for task `t` without taking it from another `tgid`. -/
theorem AsidOk.assign (ok : AsidOk tasks s gen owner) (t : T) {n : Nat}
    (small : n < 2 ^ s.asidBits) (pos : 0 < n) (free : owner n = none) :
    AsidOk tasks (asidAssign s t n).2 gen
      (Function.update owner n (some (tasks.tgid t))) := by
  have number := toNat_asidNumber ok.width small
  have word : (BitVec.ofNat 64 n ||| s.asidGeneration).toNat = 2 ^ s.asidBits * gen + n := by
    rw [BitVec.or_comm, toNat_or_generation ok.generation (by rw [number]; exact small), number,
      Nat.mul_comm]
  have taken := ok.take free (bitmapSet s.asidBitmap n 1) (by
    intro i
    rw [bitmapSet_bit]
    apply if_congr _ rfl rfl
    omega) (tasks.tgid t)
  refine ⟨ok.width, ok.generation, pos, taken.taken, fun u => ?_, fun u user current => ?_⟩
  · by_cases same : u = t
    · subst same
      simp only [AsidState.asidGen, asidAssign, Function.update_self, word]
      rw [Nat.mul_add_div (by positivity), Nat.div_eq_of_lt small]
      omega
    · simp only [AsidState.asidGen, asidAssign, Function.update_of_ne same]
      exact ok.past u
  · by_cases same : u = t
    · subst same
      simp only [AsidState.asidNumber, asidAssign, Function.update_self, word]
      rw [Nat.mul_add_mod, Nat.mod_eq_of_lt small, Function.update_self]
    · simp only [AsidState.asidGen, asidAssign, Function.update_of_ne same] at current
      simp only [AsidState.asidNumber, asidAssign, Function.update_of_ne same]
      exact taken.held u user current

theorem AsidOk.assign_mine (ok : AsidOk tasks s gen owner) (t : T) {n : Nat}
    (small : n < 2 ^ s.asidBits) :
    Function.update owner n (some (tasks.tgid t))
      ((asidAssign s t n).1.toNat % 2 ^ s.asidBits) = some (tasks.tgid t) := by
  simp only [asidAssign]
  rw [toNat_asidNumber ok.width small, Nat.mod_eq_of_lt small, Function.update_self]

/-! ## A new generation -/

omit [DecidableEq T] in
theorem asidRollover_generation (width : s.asidBits = 8 ∨ s.asidBits = 16)
    (shape : s.asidGeneration.toNat = gen * 2 ^ s.asidBits) :
    (asidRollover s).asidGeneration.toNat = (gen + 1) * 2 ^ s.asidBits % 2 ^ 32 := by
  have idx : (s.asidGeneration >>> s.asidBits).toNat = gen := by
    rw [BitVec.toNat_ushiftRight, Nat.shiftRight_eq_div_pow, shape,
      Nat.mul_div_cancel _ (by positivity)]
  simp only [asidRollover, BitVec.toNat_setWidth, BitVec.toNat_shiftLeft, BitVec.toNat_add, idx,
    Nat.shiftLeft_eq]
  rcases width with width | width <;> rw [width] <;> simp <;> omega

omit [DecidableEq T] in
theorem asidRollover_ne (width : s.asidBits = 8 ∨ s.asidBits = 16)
    (shape : s.asidGeneration.toNat = gen * 2 ^ s.asidBits) :
    (asidRollover s).asidGeneration ≠ s.asidGeneration := by
  intro same
  have value := asidRollover_generation width shape
  rw [same, shape] at value
  rcases width with width | width <;> rw [width] at value <;> omega

omit [DecidableEq T] in
theorem asidRollover_aligned (width : s.asidBits = 8 ∨ s.asidBits = 16)
    (shape : s.asidGeneration.toNat = gen * 2 ^ s.asidBits) :
    ∃ gen', (asidRollover s).asidGeneration.toNat = gen' * 2 ^ s.asidBits := by
  have value := asidRollover_generation width shape
  refine ⟨(asidRollover s).asidGeneration.toNat / 2 ^ s.asidBits, ?_⟩
  rw [value]
  rcases width with width | width <;> rw [width] <;> omega

omit [DecidableEq T] in
/-- After a rollover no number has an owner, provided that the generation counter does not run
over. -/
theorem AsidOk.rollover (ok : AsidOk tasks s gen owner)
    (room : (gen + 1) * 2 ^ s.asidBits < 2 ^ 32) :
    AsidOk tasks (asidRollover s) (gen + 1) fun _ => none where
  width := ok.width
  generation := by
    rw [asidRollover_generation ok.width ok.generation, Nat.mod_eq_of_lt room]
    rfl
  cursor := ok.cursor
  taken := by
    intro n small
    simp only [asidRollover, bitmapClear_bit, numUserAsids_eq ok.width]
    rw [if_pos (by simpa [asidRollover] using small)]
    simp
  past := fun t => Nat.le_succ_of_le (ok.past t)
  held := by
    intro t user current
    have past := ok.past t
    have same : (asidRollover s).asidGen t = s.asidGen t := rfl
    omega

/-- In a bitmap with bit 1 clear, as it is after a rollover, the search from 1 on finds number
1. -/
theorem findNextZeroBit_of_clear {bitmap : Bitmap} {size : Nat} (large : 1 < size)
    (clear : bitmap.bit 1 = false) : findNextZeroBit bitmap size 1 = 1 := by
  have found := findNextZeroBit_firstHit bitmap size 1
  have first : findNextZeroBit bitmap size 1 ≤ 1 := by
    by_contra later
    have skipped := found.skipped 1 le_rfl (by omega)
    simp [clear] at skipped
  have here := (found.here (by omega)).1
  omega

theorem AsidOk.allocate (ok : AsidOk tasks s gen owner) (t : T) :
    AsidIssued tasks s gen owner t (asidAllocate s t) := by
  have size := numUserAsids_eq ok.width
  have found := findNextZeroBit_firstHit s.asidBitmap (numUserAsids s.asidBits) s.curIdx
  unfold asidAllocate
  generalize findNextZeroBit s.asidBitmap (numUserAsids s.asidBits) s.curIdx = n at found ⊢
  by_cases full : n ≥ numUserAsids s.asidBits
  · rw [if_pos full]
    have two : 1 < 2 ^ s.asidBits := by rcases ok.width with width | width <;> simp [width]
    have first : findNextZeroBit (asidRollover s).asidBitmap
        (numUserAsids (asidRollover s).asidBits) 1 = 1 := by
      apply findNextZeroBit_of_clear
      · exact size ▸ two
      · simp [asidRollover, size, two]
    simp only [first]
    refine .rolled rfl (asidRollover_ne ok.width ok.generation) fun next => ?_
    have fresh := ok.rollover next
    exact ⟨_, fresh.assign t two (by omega) rfl, fresh.assign_mine t two⟩
  · rw [if_neg full]
    obtain ⟨after, clear⟩ := found.here (by omega)
    have small : n < 2 ^ s.asidBits := by omega
    have free := ok.free_of_clear small (by simpa using clear)
    exact .kept rfl rfl _ (ok.assign t small (lt_of_lt_of_le ok.cursor after) free)
      (ok.assign_mine t small) (update_keeps free _)

theorem asidAllocate_asidBits (s : AsidState T) (t : T) :
    (asidAllocate s t).2.asidBits = s.asidBits := by
  simp only [asidAllocate]
  split <;> rfl

theorem checkAndSwitchContext_asidBits (tasks : TaskSet T) (s : AsidState T) (t : T) :
    (checkAndSwitchContext tasks s t).2.asidBits = s.asidBits := by
  unfold checkAndSwitchContext asidReclaim
  split
  · rfl
  · split
    · rfl
    · by_cases new : s.asid t = 0
      · simp only [new, ne_eq, not_true, if_false, asidAllocate_asidBits]
      · simp only [new, ne_eq, not_false_iff, if_true]
        cases (testAndSetBit (s.asid t &&& asidMask s.asidBits).toNat s.asidBitmap).1
        · rfl
        · exact asidAllocate_asidBits _ t

/-- The invariant depends on the bits of the bitmap alone, so setting one that is set, as a failed
attempt to take a number again does, changes nothing. -/
theorem AsidOk.allocate_after (ok : AsidOk tasks s gen owner) (t : T) {bitmap : Bitmap}
    (same : ∀ i, bitmap.bit i = s.asidBitmap.bit i) :
    AsidIssued tasks s gen owner t (asidAllocate { s with asidBitmap := bitmap } t) := by
  have ok' : AsidOk tasks { s with asidBitmap := bitmap } gen owner :=
    ⟨ok.width, ok.generation, ok.cursor, fun n small => by rw [same]; exact ok.taken n small,
      ok.past, ok.held⟩
  cases ok'.allocate t with
  | kept flush generation owner' ok mine keeps =>
    exact .kept flush generation owner' ok mine keeps
  | rolled flush generation issued => exact .rolled flush generation issued

/-- `check_and_switch_context` gives a user task a number its `tgid` owns. -/
theorem AsidOk.check (ok : AsidOk tasks s gen owner) (user : tasks.type t = .user) :
    AsidIssued tasks s gen owner t (checkAndSwitchContext tasks s t) := by
  unfold checkAndSwitchContext
  rw [if_neg (by rw [user]; decide)]
  by_cases same : s.asid t &&& ~~~asidMask s.asidBits = s.asidGeneration
  · rw [if_pos same]
    have current : s.asidGen t = gen := (sameGeneration_iff ok.width ok.generation).mp same
    exact .kept rfl rfl owner ok (ok.held t user current) fun _ _ owned => owned
  · rw [if_neg same]
    unfold asidReclaim
    by_cases new : s.asid t = 0
    · rw [if_neg (not_not_intro new)]
      exact ok.allocate t
    · rw [if_pos new]
      have number : (s.asid t &&& asidMask s.asidBits).toNat = s.asidNumber t :=
        toNat_and_asidMask ok.width
      have small : s.asidNumber t < 2 ^ s.asidBits := Nat.mod_lt _ (by positivity)
      simp only [number, testAndSetBit_fst]
      cases set : s.asidBitmap.bit (s.asidNumber t) with
      | true =>
        -- somebody else has the number
        apply ok.allocate_after t
        intro i
        rw [testAndSetBit_bit]
        by_cases here : i = s.asidNumber t
        · rw [if_pos here, here, set]
        · rw [if_neg here]
      | false =>
        have free := ok.free_of_clear small set
        have word := toNat_or_generation ok.generation (number.symm ▸ small)
        refine .kept rfl rfl _ (ok.take free _ (testAndSetBit_bit _ _) _) ?_
          (update_keeps free (tasks.tgid t))
        simp only [Bool.false_eq_true, if_false, word]
        rw [Nat.mul_comm, Nat.mul_add_mod, number, Nat.mod_eq_of_lt small, Function.update_self]

end Owners

/-! ## The processor -/

section Switch

variable {T : Type} [DecidableEq T] {tasks : TaskSet T} {c : Cpu T} {src dst current : T}
  {gen rollovers : Nat} {owner : Nat → Option Int}

/-- The invariant of a run. A pending flush is one that a rollover asked for while
the processor stayed with one `tgid`. -/
structure CpuInv (tasks : TaskSet T) (c : Cpu T) (current : T) (gen : Nat)
    (owner : Nat → Option Int) : Prop where
  ok : AsidOk tasks c.asids gen owner
  clean : c.asids.tlbFlush = false → (∀ e ∈ c.tlb, owner e.1 = some e.2) ∧
    (tasks.type current = .user → owner c.number = some (tasks.tgid current))
  pending : c.asids.tlbFlush = true → tasks.type current = .user ∧
    ∀ e ∈ c.tlb, e.1 = c.number → e.2 = tasks.tgid current

/-- Nothing that is cached under the number in TTBR0 was brought in by an access of another `tgid`
than that of the task that runs. -/
def Isolated (tasks : TaskSet T) (c : Cpu T) (current : T) : Prop :=
  ∀ e ∈ c.tlb, e.1 = c.number → e.2 = tasks.tgid current

omit [DecidableEq T] in
theorem CpuInv.isolated (inv : CpuInv tasks c current gen owner)
    (user : tasks.type current = .user) : Isolated tasks c current := by
  cases flush : c.asids.tlbFlush with
  | true => exact (inv.pending flush).2
  | false =>
    obtain ⟨owned, mine⟩ := inv.clean flush
    intro e cached same
    have entry := owned e cached
    rw [same, mine user] at entry
    exact (Option.some.inj entry).symm

omit [DecidableEq T] in
/-- A user access caches a translation its own `tgid` owns. -/
theorem CpuInv.access (inv : CpuInv tasks c current gen owner)
    (user : tasks.type current = .user) :
    CpuInv tasks (userAccess tasks c current) current gen owner where
  ok := inv.ok
  clean := by
    intro flush
    obtain ⟨owned, mine⟩ := inv.clean flush
    refine ⟨fun e cached => ?_, mine⟩
    rcases List.mem_cons.mp cached with rfl | old
    · exact mine user
    · exact owned e old
  pending := by
    intro flush
    refine ⟨user, fun e cached same => ?_⟩
    rcases List.mem_cons.mp cached with rfl | old
    · rfl
    · exact inv.isolated user e old same

omit [DecidableEq T] in
/-- With both assumptions on the address spaces, tasks of one `tgid` are of one type. -/
theorem TaskSet.type_eq (share : tasks.SharesByTgid) (apart : tasks.KernelApart) {t u : T}
    (same : tasks.tgid t = tasks.tgid u) : tasks.type t = tasks.type u := by
  have shared := (share t u).mpr same
  cases typeT : tasks.type t <;> cases typeU : tasks.type u
  · rfl
  · exact absurd shared (apart t u typeT typeU)
  · exact absurd shared.symm (apart u t typeU typeT)
  · rfl

theorem taskSwitch_of_same (same : tasks.tgid dst = tasks.tgid src) :
    taskSwitch tasks c src dst =
      { c with asids := (checkAndSwitchContext tasks c.asids dst).2 } := by
  unfold taskSwitch
  simp only [same, ne_eq, not_true, if_false]

/-- A switch to another `tgid` leaves no flush pending. -/
theorem taskSwitch_of_ne (apart : tasks.tgid dst ≠ tasks.tgid src) {asid : U64}
    {asids : AsidState T} (check : checkAndSwitchContext tasks c.asids dst = (asid, asids)) :
    taskSwitch tasks c src dst =
      ⟨{ asids with tlbFlush := false },
        asSwitch (tasks.addrspace dst) (tasks.type dst) (asid <<< (64 - asids.asidBits)) c.ttbr0,
        if asids.tlbFlush then [] else c.tlb⟩ := by
  unfold taskSwitch
  rw [check]
  simp only [apart, ne_eq, not_false_iff, if_true]
  cases flush : asids.tlbFlush with
  | true => rfl
  | false =>
    obtain ⟨bits, generation, bitmap, tlbFlush, curIdx, asidOf⟩ := asids
    simp only at flush
    subst flush
    rfl

section Step

variable {asid : U64} {asids : AsidState T}

/-- A switch to another `tgid`: TTBR0 gets the number just issued, and what is left
in the TLB has owners. -/
theorem CpuInv.of_ne (apart : tasks.tgid dst ≠ tasks.tgid src)
    (check : checkAndSwitchContext tasks c.asids dst = (asid, asids))
    (ok : AsidOk tasks asids gen owner)
    (kept : asids.tlbFlush = false → ∀ e ∈ c.tlb, owner e.1 = some e.2)
    (mine : tasks.type dst = .user →
      owner (asid.toNat % 2 ^ asids.asidBits) = some (tasks.tgid dst)) :
    CpuInv tasks (taskSwitch tasks c src dst) dst gen owner := by
  rw [taskSwitch_of_ne apart check]
  refine ⟨⟨ok.width, ok.generation, ok.cursor, ok.taken, ok.past, ok.held⟩, fun _ => ⟨?_, ?_⟩,
    fun absurd => by cases absurd⟩
  · cases flush : asids.tlbFlush with
    | true => simp
    | false => simpa using kept flush
  · intro user
    simp only [Cpu.number, asSwitch, user]
    rw [toNat_ttbr0 ok.width (tasks.low dst)]
    exact mine user

/-- A switch within a `tgid`: TTBR0 and the TLB stay. -/
theorem CpuInv.of_same (same : tasks.tgid dst = tasks.tgid src)
    (type : tasks.type dst = tasks.type src)
    (check : checkAndSwitchContext tasks c.asids dst = (asid, asids))
    (bits : asids.asidBits = c.asids.asidBits) (ok : AsidOk tasks asids gen owner)
    (clean : asids.tlbFlush = false → (∀ e ∈ c.tlb, owner e.1 = some e.2) ∧
      (tasks.type src = .user → owner c.number = some (tasks.tgid src)))
    (pending : asids.tlbFlush = true → tasks.type src = .user ∧ Isolated tasks c src) :
    CpuInv tasks (taskSwitch tasks c src dst) dst gen owner := by
  have number : Cpu.number { c with asids := asids } = c.number := by
    simp only [Cpu.number, bits]
  rw [taskSwitch_of_same same, check]
  refine ⟨ok, fun flush => ?_, fun flush => ?_⟩
  · rw [number, type, same]
    exact clean flush
  · rw [number, type, same]
    exact pending flush

end Step

theorem taskSwitch_asidBits (c : Cpu T) (src dst : T) :
    (taskSwitch tasks c src dst).asids.asidBits = c.asids.asidBits := by
  rw [← checkAndSwitchContext_asidBits tasks c.asids dst]
  by_cases same : tasks.tgid dst = tasks.tgid src
  · rw [taskSwitch_of_same same]
  · rw [taskSwitch_of_ne same Prod.mk.eta.symm]

theorem taskSwitch_asidGeneration (c : Cpu T) (src dst : T) :
    (taskSwitch tasks c src dst).asids.asidGeneration =
      (checkAndSwitchContext tasks c.asids dst).2.asidGeneration := by
  by_cases same : tasks.tgid dst = tasks.tgid src
  · rw [taskSwitch_of_same same]
  · rw [taskSwitch_of_ne same Prod.mk.eta.symm]

/-- A switch changes the ASID state as `check_and_switch_context` does, but for the flag that
asks for a flush. -/
theorem taskSwitch_asids (c : Cpu T) (src dst : T) :
    ∃ flush, (taskSwitch tasks c src dst).asids =
      { (checkAndSwitchContext tasks c.asids dst).2 with tlbFlush := flush } := by
  by_cases same : tasks.tgid dst = tasks.tgid src
  · exact ⟨_, by rw [taskSwitch_of_same same]⟩
  · exact ⟨false, by rw [taskSwitch_of_ne same Prod.mk.eta.symm]⟩

omit [DecidableEq T] in
/-- Owners of numbers do not depend on the flag. -/
theorem AsidOk.withFlush {s : AsidState T} (ok : AsidOk tasks s gen owner) (flush : Bool) :
    AsidOk tasks { s with tlbFlush := flush } gen owner :=
  ⟨ok.width, ok.generation, ok.cursor, ok.taken, ok.past, ok.held⟩

/-- One switch keeps the owners of the numbers, in the same generation or, unless the counter
of generations has run over, starts the next one. -/
theorem AsidOk.switch (ok : AsidOk tasks c.asids gen owner) (src dst : T) :
    ((taskSwitch tasks c src dst).asids.asidGeneration = c.asids.asidGeneration ∧
        ∃ owner', AsidOk tasks (taskSwitch tasks c src dst).asids gen owner') ∨
      ((taskSwitch tasks c src dst).asids.asidGeneration ≠ c.asids.asidGeneration ∧
        ((gen + 1) * 2 ^ c.asids.asidBits < 2 ^ 32 →
          ∃ owner', AsidOk tasks (taskSwitch tasks c src dst).asids (gen + 1) owner')) := by
  obtain ⟨flush, asids⟩ : ∃ flush, (taskSwitch tasks c src dst).asids =
      { (checkAndSwitchContext tasks c.asids dst).2 with tlbFlush := flush } :=
    taskSwitch_asids c src dst
  rw [asids]
  cases type : tasks.type dst with
  | kernel =>
    have unchanged : (checkAndSwitchContext tasks c.asids dst).2 = c.asids := by
      unfold checkAndSwitchContext
      rw [if_pos type]
    rw [unchanged]
    exact .inl ⟨rfl, owner, ok.withFlush flush⟩
  | user =>
    cases ok.check type with
    | kept _ generation owner' ok' => exact .inl ⟨generation, owner', ok'.withFlush flush⟩
    | rolled _ generation issued =>
      refine .inr ⟨generation, fun room => ?_⟩
      obtain ⟨owner', ok', -⟩ := issued room
      exact ⟨owner', ok'.withFlush flush⟩

/-- One switch keeps the invariant, in the same generation or, unless the counter of
generations has run over, in the next one. -/
theorem CpuInv.switch (inv : CpuInv tasks c src gen owner) (dst : T)
    (types : tasks.tgid dst = tasks.tgid src → tasks.type dst = tasks.type src) :
    ((taskSwitch tasks c src dst).asids.asidGeneration = c.asids.asidGeneration ∧
        ∃ owner', CpuInv tasks (taskSwitch tasks c src dst) dst gen owner') ∨
      ((taskSwitch tasks c src dst).asids.asidGeneration ≠ c.asids.asidGeneration ∧
        ((gen + 1) * 2 ^ c.asids.asidBits < 2 ^ 32 →
          ∃ owner', CpuInv tasks (taskSwitch tasks c src dst) dst (gen + 1) owner')) := by
  obtain ⟨asid, asids, check⟩ : ∃ asid asids,
      checkAndSwitchContext tasks c.asids dst = (asid, asids) := ⟨_, _, rfl⟩
  have bits := checkAndSwitchContext_asidBits tasks c.asids dst
  rw [taskSwitch_asidGeneration]
  rw [check] at bits ⊢
  simp only at bits ⊢
  cases type : tasks.type dst with
  | kernel =>
    have unchanged : asid = 0 ∧ asids = c.asids := by
      unfold checkAndSwitchContext at check
      rw [if_pos type] at check
      cases check
      exact ⟨rfl, rfl⟩
    obtain ⟨rfl, rfl⟩ := unchanged
    refine .inl ⟨rfl, owner, ?_⟩
    by_cases same : tasks.tgid dst = tasks.tgid src
    · exact .of_same same (types same) check rfl inv.ok inv.clean inv.pending
    · refine .of_ne same check inv.ok (fun flush => (inv.clean flush).1) fun user => ?_
      rw [type] at user
      cases user
  | user =>
    have issued := inv.ok.check type
    rw [check] at issued
    cases issued with
    | kept flush generation owner' ok mine keeps =>
      simp only at flush generation ok mine
      refine .inl ⟨generation, owner', ?_⟩
      have extend : asids.tlbFlush = false → ∀ e ∈ c.tlb, owner' e.1 = some e.2 :=
        fun clear e cached => keeps _ _ ((inv.clean (flush ▸ clear)).1 e cached)
      by_cases same : tasks.tgid dst = tasks.tgid src
      · refine .of_same same (types same) check bits ok
          (fun clear => ⟨extend clear, fun user => ?_⟩) fun set => inv.pending (flush ▸ set)
        exact keeps _ _ ((inv.clean (flush ▸ clear)).2 user)
      · exact .of_ne same check ok extend fun _ => bits ▸ mine
    | rolled flush generation issued =>
      simp only at flush generation issued
      refine .inr ⟨generation, fun room => ?_⟩
      obtain ⟨owner', ok, mine⟩ := issued room
      refine ⟨owner', ?_⟩
      by_cases same : tasks.tgid dst = tasks.tgid src
      · have user : tasks.type src = .user := (types same).symm.trans type
        refine .of_same same (types same) check bits ok (fun clear => ?_)
          fun _ => ⟨user, inv.isolated user⟩
        rw [flush] at clear
        cases clear
      · refine .of_ne same check ok (fun clear => ?_) fun _ => bits ▸ mine
        rw [flush] at clear
        cases clear

/-! ## Runs -/

omit [DecidableEq T] in
theorem asidInitialize_eq {boot asids : AsidState T} {mmfr0 : U64} {block : Option Bitmap}
    (run : asidInitialize mmfr0 block boot = .ok asids) :
    ∃ bits map, (bits = 8 ∨ bits = 16) ∧ asids = { boot with
      asidBits := bits
      asidBitmap := bitmapZero map (numUserAsids bits)
      asidGeneration := asidFirstVersion bits } := by
  obtain ⟨bits, width, run⟩ := of_bind_ok run
  obtain ⟨map, -, run⟩ := of_bind_ok run
  cases run
  refine ⟨bits, map, ?_, rfl⟩
  unfold getCpuAsidBits at width
  split at width
  · cases width
    exact .inl rfl
  · split at width
    · cases width
      exact .inr rfl
    · cases width

omit [DecidableEq T] in
/-- `asid_initialize` starts generation 1, with no number in use. -/
theorem CpuInv.start {boot asids : AsidState T} {mmfr0 ttbr0 : U64} {block : Option Bitmap}
    (fresh : boot.Boot) (run : asidInitialize mmfr0 block boot = .ok asids) :
    CpuInv tasks ⟨asids, ttbr0, []⟩ tasks.idle 1 fun _ => none := by
  obtain ⟨flush, cursor, unset⟩ := fresh
  obtain ⟨bits, map, width, rfl⟩ := asidInitialize_eq run
  refine ⟨⟨width, (numUserAsids_eq width).trans (one_mul _).symm, ?_, ?_, ?_, ?_⟩, ?_, ?_⟩
  · simp [cursor]
  · intro n small
    have clear := bitmapZero_bit map (show n < numUserAsids bits by
      rw [numUserAsids_eq width]; exact small)
    simp [clear]
  · intro t
    simp [AsidState.asidGen, unset]
  · intro t _ current
    simp [AsidState.asidGen, unset] at current
  · intro _
    refine ⟨by simp, fun user => ?_⟩
    rw [tasks.idle_kernel] at user
    cases user
  · intro set
    rw [flush] at set
    cases set

/-- In every run with fewer rollovers than generations, the numbers in use have owners. This
rests on no assumption about the address spaces. -/
theorem AsidRun.ok (run : AsidRun tasks c current rollovers)
    (few : rollovers < 2 ^ (32 - c.asids.asidBits) - 1) :
    ∃ owner, AsidOk tasks c.asids (rollovers + 1) owner := by
  induction run with
  | @start boot asids mmfr0 ttbr0 block fresh run =>
    have inv : CpuInv tasks ⟨asids, ttbr0, []⟩ tasks.idle 1 fun _ => none :=
      CpuInv.start fresh run
    exact ⟨_, inv.ok⟩
  | @switch c current rollovers run dst ih =>
    rw [taskSwitch_asidBits] at few
    have fewer : rollovers < 2 ^ (32 - c.asids.asidBits) - 1 := by
      split at few <;> omega
    obtain ⟨owner, ok⟩ := ih fewer
    rcases ok.switch current dst with ⟨same, ok'⟩ | ⟨rolled, ok'⟩
    · rw [if_pos same]
      exact ok'
    · rw [if_neg rolled] at few ⊢
      apply ok'
      rcases ok.width with width | width <;> rw [width] at few ⊢ <;> omega
  | access run user ih => exact ih few

/-- In every run with fewer rollovers than generations the invariant holds. -/
theorem AsidRun.inv (share : tasks.SharesByTgid) (apart : tasks.KernelApart)
    (run : AsidRun tasks c current rollovers)
    (few : rollovers < 2 ^ (32 - c.asids.asidBits) - 1) :
    ∃ owner, CpuInv tasks c current (rollovers + 1) owner := by
  induction run with
  | start fresh run => exact ⟨_, .start fresh run⟩
  | @switch c current rollovers run dst ih =>
    rw [taskSwitch_asidBits] at few
    have fewer : rollovers < 2 ^ (32 - c.asids.asidBits) - 1 := by
      split at few <;> omega
    obtain ⟨owner, inv⟩ := ih fewer
    rcases inv.switch dst (TaskSet.type_eq share apart) with ⟨same, inv'⟩ | ⟨rolled, inv'⟩
    · rw [if_pos same]
      exact inv'
    · rw [if_neg rolled] at few ⊢
      apply inv'
      rcases inv.ok.width with width | width <;> rw [width] at few ⊢ <;> omega
  | access run user ih =>
    obtain ⟨owner, inv⟩ := ih few
    exact ⟨owner, inv.access user⟩

/-- Let tasks share an address space exactly if they share a `tgid`, and no kernel task share
one with a user task. Whenever a user task runs, with fewer rollovers so far than there are
generations, every translation cached under the ASID number in TTBR0 was brought in by a task
of its own `tgid`. -/
theorem asidRun_isolated (share : tasks.SharesByTgid) (apart : tasks.KernelApart)
    (run : AsidRun tasks c current rollovers)
    (few : rollovers < 2 ^ (32 - c.asids.asidBits) - 1) (user : tasks.type current = .user) :
    Isolated tasks c current := by
  obtain ⟨owner, inv⟩ := run.inv share apart few
  exact inv.isolated user

end Switch

/-! ## Samples -/

/-- The processor after `asid_initialize`, with ASIDs of 8 bits and no task having run. -/
def startCpu (T : Type) : Cpu T where
  asids :=
    { asidBits := 8
      asidGeneration := asidFirstVersion 8
      asidBitmap := bitmapZero (fun _ => 0) (numUserAsids 8)
      tlbFlush := false
      curIdx := 1
      asid := fun _ => 0 }
  ttbr0 := 0
  tlb := []

theorem startCpu_initialized (T : Type) :
    asidInitialize 0 (some fun _ => 0) { (startCpu T).asids with
      asidBits := 0, asidGeneration := 0, asidBitmap := fun _ => 0 } =
      .ok (startCpu T).asids := by
  have clear : (fun i => if i < numUserAsids 8 / 8 then 0 else 0 : Bitmap) = fun _ => 0 :=
    funext fun _ => ite_self 0
  have bits : getCpuAsidBits 0 = .ok 8 := rfl
  unfold asidInitialize asidCalloc
  rw [bits, ok_bind, ok_bind, clear]
  rfl

theorem startCpu_run {T : Type} [DecidableEq T] (tasks : TaskSet T) :
    AsidRun tasks (startCpu T) tasks.idle 0 :=
  .start ⟨rfl, rfl, fun _ => rfl⟩ (startCpu_initialized T)

/-- The idle task and two user tasks, each with its own address space. -/
def threeTasks : TaskSet (Fin 3) where
  type t := if t = 0 then .kernel else .user
  tgid t := t.val
  addrspace t := ramVbase + BitVec.ofNat 64 (4096 * t.val)
  idle := 0
  ram := by decide
  idle_kernel := rfl

/-- Idle, then the first user task, which accesses memory, then the second one. -/
def threeTasksEnd : Cpu (Fin 3) :=
  taskSwitch threeTasks
    (userAccess threeTasks (taskSwitch threeTasks (startCpu _) 0 1) 1) 1 2

theorem threeTasks_run : ∃ rollovers ≤ 2, AsidRun threeTasks threeTasksEnd 2 rollovers := by
  have start : AsidRun threeTasks (startCpu _) 0 0 := startCpu_run threeTasks
  refine ⟨_, ?_, ((start.switch 1).access rfl).switch 2⟩
  split <;> split <;> omega

theorem threeTasks_isolated : Isolated threeTasks threeTasksEnd 2 := by
  obtain ⟨rollovers, few, run⟩ := threeTasks_run
  have bits : threeTasksEnd.asids.asidBits = 8 :=
    (taskSwitch_asidBits _ 1 2).trans (taskSwitch_asidBits (startCpu _) 0 1)
  exact asidRun_isolated (by unfold TaskSet.SharesByTgid; decide)
    (by unfold TaskSet.KernelApart; decide) run (by rw [bits]; omega) rfl

/-- The idle task, a user task, and a group of a kernel task and a user task that share an
address space. -/
def mixedTasks : TaskSet (Fin 4) where
  type t := if t = 0 ∨ t = 2 then .kernel else .user
  tgid t := if t = 2 then 3 else t.val
  addrspace t := ramVbase + BitVec.ofNat 64 (4096 * if t = 2 then 3 else t.val)
  idle := 0
  ram := by decide
  idle_kernel := rfl

/-- From idle to the user task 1, which accesses memory, then to the kernel task 2 and to the
user task 3 of its group. -/
def mixedTasksEnd : Cpu (Fin 4) :=
  let c := userAccess mixedTasks (taskSwitch mixedTasks (startCpu _) 0 1) 1
  taskSwitch mixedTasks (taskSwitch mixedTasks c 1 2) 2 3

/-- A kernel task that shares its address space with a user task breaks the isolation. The
switch to the kernel task leaves TTBR0 alone, and so does the switch within the group: the
user task 3 runs with the table and the number of task 1, and finds its translations. -/
theorem mixedTasks_not_isolated :
    mixedTasks.SharesByTgid ∧ AsidRun mixedTasks mixedTasksEnd 3 0 ∧
      mixedTasksEnd.asids.asidBits = 8 ∧ mixedTasks.type 3 = .user ∧
      mixedTasksEnd.ttbr0 = (taskSwitch mixedTasks (startCpu _) 0 1).ttbr0 ∧
      ¬ Isolated mixedTasks mixedTasksEnd 3 := by
  have start : AsidRun mixedTasks (startCpu _) 0 0 := startCpu_run mixedTasks
  refine ⟨?_, ?_, ?_, rfl, ?_, ?_⟩
  · unfold TaskSet.SharesByTgid
    decide
  · -- none of the three switches rolls over
    have run := (((start.switch 1).access rfl).switch 2).switch 3
    rw [if_pos (by decide +kernel), if_pos (by decide +kernel), if_pos (by decide +kernel)] at run
    exact run
  · decide +kernel
  · decide +kernel
  · intro isolated
    have cached : ((1, 1) : Nat × Int) ∈ mixedTasksEnd.tlb := by decide +kernel
    have number : mixedTasksEnd.number = 1 := by decide +kernel
    exact absurd (isolated _ cached number.symm) (by decide)

end Chinos
