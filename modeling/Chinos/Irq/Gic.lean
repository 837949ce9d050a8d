import Chinos.Irq.Model

/-!
# The driver of the interrupt controller

Each register that the driver names is where the controller has it, for as many
interrupts as a controller can have. So every loop of the initialisation writes the cells
of its interrupts and nothing else, and the state it leaves is `Gic.configured`, whatever
the controller held before. Enabling and disabling then flip one bit at a time: after any
run of calls the enabled interrupts are those whose last call was to enable them, and the
table of handlers holds what the last `irq_attach` put there.
-/

namespace Chinos

/-! ## The address map -/

/-- The offset at which the registers of a kind begin, in the distributor and in the second frame
of the redistributor alike. -/
def BitReg.offset : BitReg → Nat
  | .igroupr => 0x0080
  | .isenabler => 0x0100
  | .icenabler => 0x0180
  | .ispendr => 0x0200
  | .icpendr => 0x0280
  | .isactiver => 0x0300
  | .icactiver => 0x0380
  | .igrpmodr => 0x0d00

section Addresses

variable {n i : Nat} {v : BitVec 32} {g : Gic}

theorem bankReg_bits (reg : BitReg) (small : n < 32) :
    bankReg (reg.offset + n * 4) = .bits reg n := by
  have all : ∀ n : Fin 32, bankReg (reg.offset + n.val * 4) = .bits reg n := by
    cases reg <;> decide
  exact all ⟨n, small⟩

theorem bankReg_ipriorityr (small : n < 256) : bankReg (0x0400 + n * 4) = .ipriorityr n := by
  have all : ∀ n : Fin 256, bankReg (0x0400 + n.val * 4) = .ipriorityr n := by decide +kernel
  exact all ⟨n, small⟩

theorem bankReg_icfgr (small : n < 64) : bankReg (0x0c00 + n * 4) = .icfgr n := by
  have all : ∀ n : Fin 64, bankReg (0x0c00 + n.val * 4) = .icfgr n := by decide
  exact all ⟨n, small⟩

/-- A register of the distributor, at its place in the layout. -/
theorem putreg32_gicdReg {offset : Nat} {reg : GicReg} (at_offset : bankReg (offset + n * 4) = reg)
    (shared : reg.isPrivate = false) (pos : 0 < offset) (small : offset + n * 4 < 0x10000) :
    putreg32 v (gicdReg offset n) g = g.put v reg := by
  have place : gicdReg offset n - gicVbase = offset + n * 4 := by
    unfold gicdReg gicdBase
    omega
  unfold putreg32 gicRegAt
  rw [place, if_neg (by omega), if_pos small, at_offset, shared, if_neg Bool.false_ne_true]

theorem putreg32_gicdBits (reg : BitReg) (shared : 0 < n) (small : n < 32) :
    putreg32 v (gicdReg reg.offset n) g = g.put v (.bits reg n) := by
  have bounds : 0 < reg.offset ∧ reg.offset < 0x1000 := by cases reg <;> decide
  refine putreg32_gicdReg (bankReg_bits reg small) ?_ bounds.1 (by omega)
  exact decide_eq_false (by omega)

theorem putreg32_gicdIgroupr (shared : 0 < n) (small : n < 32) :
    putreg32 v (gicdIgroupr n) g = g.put v (.bits .igroupr n) :=
  putreg32_gicdBits .igroupr shared small

theorem putreg32_gicdIcenabler (shared : 0 < n) (small : n < 32) :
    putreg32 v (gicdIcenabler n) g = g.put v (.bits .icenabler n) :=
  putreg32_gicdBits .icenabler shared small

theorem putreg32_gicdIcpendr (shared : 0 < n) (small : n < 32) :
    putreg32 v (gicdIcpendr n) g = g.put v (.bits .icpendr n) :=
  putreg32_gicdBits .icpendr shared small

theorem putreg32_gicdIgrpmodr (shared : 0 < n) (small : n < 32) :
    putreg32 v (gicdIgrpmodr n) g = g.put v (.bits .igrpmodr n) :=
  putreg32_gicdBits .igrpmodr shared small

theorem putreg32_gicdIpriorityr (shared : 8 ≤ n) (small : n < 256) :
    putreg32 v (gicdIpriorityr n) g = g.put v (.ipriorityr n) :=
  putreg32_gicdReg (bankReg_ipriorityr small) (decide_eq_false (by omega)) (by decide) (by omega)

theorem putreg32_gicdIcfgr (shared : 2 ≤ n) (small : n < 64) :
    putreg32 v (gicdIcfgr n) g = g.put v (.icfgr n) :=
  putreg32_gicdReg (bankReg_icfgr small) (decide_eq_false (by omega)) (by decide) (by omega)

theorem putreg32_gicdCtlr : putreg32 v gicdCtlr g = { g with ctlr := v } := by
  have place : gicRegAt (gicdCtlr - gicVbase) = .ctlr := by decide
  unfold putreg32
  rw [place]
  rfl

theorem putreg32_gicrWaker : putreg32 v (gicrWaker 0) g = { g with waker := v } := by
  have place : gicRegAt (gicrWaker 0 - gicVbase) = .waker := by decide
  unfold putreg32
  rw [place]
  rfl

/-- A write to a redistributor register of one bit for each interrupt is a write to the bits of
the private interrupts. -/
theorem putreg32_gicrBits (reg : BitReg) :
    putreg32 v (gicrReg reg.offset 0) g = g.put v (.bits reg 0) := by
  have place : gicRegAt (gicrReg reg.offset 0 - gicVbase) = .bits reg 0 := by
    cases reg <;> decide
  unfold putreg32
  rw [place]

theorem putreg32_gicrIgroupr0 : putreg32 v (gicrIgroupr0 0) g = g.put v (.bits .igroupr 0) :=
  putreg32_gicrBits .igroupr

theorem putreg32_gicrIcenabler0 :
    putreg32 v (gicrIcenabler0 0) g = g.put v (.bits .icenabler 0) :=
  putreg32_gicrBits .icenabler

theorem putreg32_gicrIcpendr0 : putreg32 v (gicrIcpendr0 0) g = g.put v (.bits .icpendr 0) :=
  putreg32_gicrBits .icpendr

theorem putreg32_gicrIcactiver0 :
    putreg32 v (gicrIcactiver0 0) g = g.put v (.bits .icactiver 0) :=
  putreg32_gicrBits .icactiver

theorem putreg32_gicrIcfgr0 : putreg32 v (gicrIcfgr0 0) g = g.put v (.icfgr 0) := by
  have place : gicRegAt (gicrIcfgr0 0 - gicVbase) = .icfgr 0 := by decide
  unfold putreg32
  rw [place]

theorem putreg32_gicrIcfgr1 : putreg32 v (gicrIcfgr1 0) g = g.put v (.icfgr 1) := by
  have place : gicRegAt (gicrIcfgr1 0 - gicVbase) = .icfgr 1 := by decide
  unfold putreg32
  rw [place]

theorem putreg32_gicrIpriorityr0 (small : n < 8) :
    putreg32 v (gicrIpriorityr0 0 + n * 4) g = g.put v (.ipriorityr n) := by
  have place : ∀ n : Fin 8, gicRegAt (gicrIpriorityr0 0 + n.val * 4 - gicVbase) =
      .ipriorityr n := by decide
  unfold putreg32
  rw [place ⟨n, small⟩]

theorem putreg64_gicdIrouter {v : BitVec 64} (small : n < 1024) :
    putreg64 v (gicdIrouter n) g = { g with route := Function.update g.route n v } := by
  have place : gicdIrouter n - gicVbase = 0x6000 + n * 8 := by
    unfold gicdIrouter gicdBase
    omega
  unfold putreg64
  rw [place]
  simp only
  rw [if_pos (by omega), show (0x6000 + n * 8 - 0x6000) / 8 = n by omega]

end Addresses

/-! ## Initialisation -/

/-- What `gic_initialize` makes of the controller: every interrupt below `maxInt` is masked,
not pending, of group 1 and of the same priority; those of the distributor are level
triggered and routed to the processor that runs. -/
def Gic.configured (g : Gic) (mpidr : BitVec 64) (maxInt : Nat) : Gic :=
  { g with
    ctlr := 0x13
    waker := getWaker g &&& ~~~processorSleep
    enabled := fun i => if i < maxInt then false else g.enabled i
    pending := fun i => if i < maxInt then false else g.pending i
    active := fun i => if i < 32 then false else g.active i
    group := fun i => if i < maxInt then true else g.group i
    groupMod := fun i => if 32 ≤ i ∧ i < maxInt then false else g.groupMod i
    priority := fun i => if i < maxInt then 0xa0 else g.priority i
    config := fun i => if i < 16 then 2 else if i < maxInt then 0 else g.config i
    route := fun i => if 32 ≤ i ∧ i < maxInt then mpidrToGicAffinity mpidr else g.route i }

/-- The number of interrupts that the controller reports, which becomes `gic_max_int`. -/
def Gic.maxInt (g : Gic) : Nat := ((g.typer &&& 31).toNat + 1) * 32

theorem Gic.maxInt_le (g : Gic) : g.maxInt ≤ 1024 := by
  have low : (g.typer &&& 31).toNat ≤ 31 := by
    rw [BitVec.toNat_and]
    exact Nat.and_le_right
  unfold Gic.maxInt
  omega

section Loops

variable {g : Gic} {maxInt : Nat}

theorem extract_priority (k : Nat) (small : k < 4) :
    gicPriority.extractLsb' (8 * k) 8 = 0xa0 := by
  have all : ∀ k : Fin 4, gicPriority.extractLsb' (8 * k.val) 8 = 0xa0 := by decide
  exact all ⟨k, small⟩

/-- The loop over `GICD_ICFGR` makes all shared interrupts level-sensitive. -/
theorem icfgr_loop (full : 16 ∣ maxInt) (small : maxInt ≤ 1024) :
    (countUp 32 maxInt 16).foldl (fun g i => putreg32 0 (gicdIcfgr (i / 16)) g) g =
      { g with config := fun i => if 32 ≤ i ∧ i < maxInt then 0 else g.config i } := by
  rw [← foldl_writeBlock (by omega) (fun _ _ => (0 : BitVec 2)) g.config (by decide) full]
  refine foldl_part (fun config => { g with config := config }) _ (fun config i inside => ?_)
    g.config
  obtain ⟨below, k, rfl⟩ := (mem_countUp (by omega)).mp inside
  rw [putreg32_gicdIcfgr (by omega) (by omega)]
  unfold Gic.put writeBlock
  simp

/-- The loop over `GICD_IPRIORITYR` gives all shared interrupts the same priority. -/
theorem ipriorityr_loop (full : 4 ∣ maxInt) (small : maxInt ≤ 1024) :
    (countUp 32 maxInt 4).foldl (fun g i => putreg32 gicPriority (gicdIpriorityr (i / 4)) g) g =
      { g with priority := fun i => if 32 ≤ i ∧ i < maxInt then 0xa0 else g.priority i } := by
  rw [← foldl_writeBlock (by omega) (fun _ _ => (0xa0 : BitVec 8)) g.priority (by decide) full]
  refine foldl_part (fun priority => { g with priority := priority }) _
    (fun priority i inside => ?_) g.priority
  obtain ⟨below, k, rfl⟩ := (mem_countUp (by omega)).mp inside
  rw [putreg32_gicdIpriorityr (by omega) (by omega)]
  unfold Gic.put writeBlock
  simp only [extract_priority _ (Nat.mod_lt _ (by omega : 0 < 4))]

/-- The enable, pending, group and group modifier bit of each interrupt. -/
abbrev MaskCells := Nat → Bool × Bool × Bool × Bool

def Gic.withMask (g : Gic) (cells : MaskCells) : Gic :=
  { g with
    enabled := fun i => (cells i).1
    pending := fun i => (cells i).2.1
    group := fun i => (cells i).2.2.1
    groupMod := fun i => (cells i).2.2.2 }

theorem getLsbD_ones {k : Nat} (small : k < 32) : (~~~0 : BitVec 32).getLsbD k = true := by
  have all : ∀ k : Fin 32, (~~~0 : BitVec 32).getLsbD k = true := by decide
  exact all ⟨k, small⟩

/-- All ones, or none, written to a register of 32 interrupts. -/
theorem putBits_ones (f : Bool → Bool → Bool) (n : Nat) (old : Nat → Bool) :
    putBits f n (~~~0) old = fun i => if i / 32 = n then f (old i) true else old i := by
  funext i
  unfold putBits
  rw [getLsbD_ones (Nat.mod_lt _ (by omega))]

theorem putBits_zero (f : Bool → Bool → Bool) (n : Nat) (old : Nat → Bool) :
    putBits f n 0 old = fun i => if i / 32 = n then f (old i) false else old i := by
  funext i
  unfold putBits
  rw [show (0 : BitVec 32).getLsbD (i % 32) = false from BitVec.getLsbD_zero]

/-- One turn of the loop that masks the interrupts of the distributor writes four registers about
the same 32 of them. -/
theorem mask_turn {cells : MaskCells} {i : Nat} (shared : 32 ≤ i) (small : i < 1024) :
    (let g := putreg32 (~~~0) (gicdIcenabler (i / 32)) (g.withMask cells)
     let g := putreg32 (~~~0) (gicdIcpendr (i / 32)) g
     let g := putreg32 (~~~0) (gicdIgroupr (i / 32)) g
     putreg32 0 (gicdIgrpmodr (i / 32)) g) =
      g.withMask (writeBlock 32 (fun _ _ => (false, false, true, false)) cells i) := by
  have low : 0 < i / 32 := by omega
  have high : i / 32 < 32 := by omega
  simp only [putreg32_gicdIcenabler low high, putreg32_gicdIcpendr low high,
    putreg32_gicdIgroupr low high, putreg32_gicdIgrpmodr low high]
  simp only [Gic.put, putBits_ones, putBits_zero, Gic.withMask, writeBlock, Bool.not_true,
    Bool.and_false, apply_ite Prod.fst, apply_ite Prod.snd]

/-- The loop that masks and clears the interrupts of the distributor and puts them into
group 1. -/
theorem mask_loop (full : 32 ∣ maxInt) (small : maxInt ≤ 1024) :
    (countUp 32 maxInt 32).foldl (fun g i =>
      let g := putreg32 (~~~0) (gicdIcenabler (i / 32)) g
      let g := putreg32 (~~~0) (gicdIcpendr (i / 32)) g
      let g := putreg32 (~~~0) (gicdIgroupr (i / 32)) g
      putreg32 0 (gicdIgrpmodr (i / 32)) g) g =
      { g with
        enabled := fun i => if 32 ≤ i ∧ i < maxInt then false else g.enabled i
        pending := fun i => if 32 ≤ i ∧ i < maxInt then false else g.pending i
        group := fun i => if 32 ≤ i ∧ i < maxInt then true else g.group i
        groupMod := fun i => if 32 ≤ i ∧ i < maxInt then false else g.groupMod i } := by
  refine (foldl_part g.withMask (writeBlock 32 fun _ _ => (false, false, true, false))
    (fun cells i inside => ?_) (fun i => (g.enabled i, g.pending i, g.group i, g.groupMod i))).trans
    ?_
  · obtain ⟨below, k, rfl⟩ := (mem_countUp (by omega)).mp inside
    exact mask_turn (by omega) (by omega)
  · rw [foldl_writeBlock (by omega) _ _ (by decide) full]
    simp only [Gic.withMask, apply_ite Prod.fst, apply_ite Prod.snd]

/-- The loop over `GICD_IROUTER` routes all shared interrupts to one processor. -/
theorem irouter_loop (v : BitVec 64) (small : maxInt ≤ 1024) :
    (countUp 32 maxInt 1).foldl (fun g i => putreg64 v (gicdIrouter i) g) g =
      { g with route := fun i => if 32 ≤ i ∧ i < maxInt then v else g.route i } := by
  rw [← foldl_writeBlock (by omega) (fun _ _ => v) g.route (by decide) (one_dvd maxInt)]
  refine foldl_part (fun route => { g with route := route }) _ (fun route i inside => ?_) g.route
  obtain ⟨below, k, rfl⟩ := (mem_countUp (by omega)).mp inside
  rw [putreg64_gicdIrouter (by omega)]
  have cell : ∀ i, Function.update route i v = writeBlock 1 (fun _ _ => v) route i := by
    intro i
    funext j
    unfold writeBlock
    rw [Function.update_apply, Nat.div_one, Nat.div_one]
  simp only [cell]

/-- The loop over `GICR_IPRIORITYR0` gives all private interrupts the same priority. -/
theorem private_ipriorityr_loop :
    (countUp 0 32 4).foldl (fun g i => putreg32 gicPriority (gicrIpriorityr0 0 + i) g) g =
      { g with priority := fun i => if i < 32 then 0xa0 else g.priority i } := by
  have loop : (countUp 0 32 4).foldl (writeBlock 4 fun _ _ => 0xa0) g.priority = _ :=
    foldl_writeBlock (by omega) (fun _ _ => (0xa0 : BitVec 8)) g.priority (by decide) (by decide)
  simp only [Nat.zero_le, true_and] at loop
  rw [← loop]
  refine foldl_part (fun priority => { g with priority := priority }) _
    (fun priority i inside => ?_) g.priority
  obtain ⟨below, k, rfl⟩ := (mem_countUp (by omega)).mp inside
  rw [Nat.zero_add, Nat.mul_comm, putreg32_gicrIpriorityr0 (by omega)]
  unfold Gic.put writeBlock
  simp only [extract_priority _ (Nat.mod_lt _ (by omega : 0 < 4)), Nat.mul_div_cancel _
    (by omega : 0 < 4)]

end Loops

section Initialize

variable {g : Gic} {mpidr : BitVec 64}

/-- What `distributor_init` makes of the controller: all shared interrupts are off, with one
priority, group and route. -/
def Gic.distributed (g : Gic) (mpidr : BitVec 64) : Gic :=
  { g with
    ctlr := 0x13
    enabled := fun i => if 32 ≤ i ∧ i < g.maxInt then false else g.enabled i
    pending := fun i => if 32 ≤ i ∧ i < g.maxInt then false else g.pending i
    group := fun i => if 32 ≤ i ∧ i < g.maxInt then true else g.group i
    groupMod := fun i => if 32 ≤ i ∧ i < g.maxInt then false else g.groupMod i
    priority := fun i => if 32 ≤ i ∧ i < g.maxInt then 0xa0 else g.priority i
    config := fun i => if 32 ≤ i ∧ i < g.maxInt then 0 else g.config i
    route := fun i => if 32 ≤ i ∧ i < g.maxInt then mpidrToGicAffinity mpidr else g.route i }

/-- The controller is one the driver knows, a GIC of version 3 or 4. -/
def Gic.Known (g : Gic) : Prop := (g.pidr2 >>> 4) &&& 15 = 3 ∨ (g.pidr2 >>> 4) &&& 15 = 4

instance (g : Gic) : Decidable g.Known := inferInstanceAs (Decidable (_ ∨ _))

theorem distributorInit_eq :
    distributorInit mpidr g =
      if g.Known then .ok (g.maxInt, g.distributed mpidr) else .error .assertion := by
  have blocks : 32 ∣ g.maxInt := Nat.dvd_mul_left _ _
  have small := g.maxInt_le
  unfold distributorInit
  simp only [putreg32_gicdCtlr]
  rw [show ((g.typer &&& 31).toNat + 1) * 32 = g.maxInt from rfl,
    icfgr_loop ((by decide : 16 ∣ 32).trans blocks) small,
    ipriorityr_loop ((by decide : 4 ∣ 32).trans blocks) small, mask_loop blocks small,
    irouter_loop _ small]
  by_cases known : (g.pidr2 >>> 4) &&& 15 = 3 ∨ (g.pidr2 >>> 4) &&& 15 = 4
  · have isKnown : g.Known := known
    rw [if_pos isKnown, require_bind_of_pos known]
    rfl
  · have unknown : ¬ g.Known := known
    rw [if_neg unknown, require_bind_of_neg known]

/-- What `redistributor_init` makes of the controller: all private interrupts are off, with one
priority and group. -/
def Gic.redistributed (g : Gic) : Gic :=
  { g with
    waker := getWaker g &&& ~~~processorSleep
    enabled := fun i => if i < 32 then false else g.enabled i
    pending := fun i => if i < 32 then false else g.pending i
    active := fun i => if i < 32 then false else g.active i
    group := fun i => if i < 32 then true else g.group i
    priority := fun i => if i < 32 then 0xa0 else g.priority i
    config := fun i => if i < 16 then 2 else if i < 32 then 0 else g.config i }

/-- A woken redistributor answers at once unless it is slow. -/
theorem getWaker_woken (g : Gic) (v : BitVec 32) :
    getWaker { g with waker := v &&& ~~~processorSleep } &&& childrenAsleep = 0 ↔
      g.slow = false := by
  have awake : v &&& ~~~processorSleep &&& processorSleep = 0 := by
    rw [BitVec.and_assoc]
    simp [processorSleep]
  have asleep : (v &&& ~~~processorSleep ||| childrenAsleep) &&& childrenAsleep =
      childrenAsleep := by
    ext i
    simp
    tauto
  unfold getWaker
  simp only [awake, ne_eq, not_true_eq_false, false_or]
  cases g.slow with
  | true =>
    simp only [if_true, asleep]
    decide
  | false =>
    simp only [Bool.false_eq_true, if_false, iff_true]
    rw [BitVec.and_assoc]
    simp [childrenAsleep]

theorem extract_sgi (k : Nat) (small : k < 16) :
    (0xaaaaaaaa : BitVec 32).extractLsb' (2 * k) 2 = 2 := by
  have all : ∀ k : Fin 16, (0xaaaaaaaa : BitVec 32).extractLsb' (2 * k.val) 2 = 2 := by decide
  exact all ⟨k, small⟩

/-- The two configuration registers of the private interrupts: edges for the first 16. -/
theorem private_icfgr (config : Nat → BitVec 2) :
    (fun i => if i / 16 = 1 then (0 : BitVec 32).extractLsb' (2 * (i % 16)) 2
      else if i / 16 = 0 then (0xaaaaaaaa : BitVec 32).extractLsb' (2 * (i % 16)) 2
      else config i) =
      fun i => if i < 16 then 2 else if i < 32 then 0 else config i := by
  funext i
  rw [extract_sgi _ (Nat.mod_lt _ (by omega))]
  by_cases sgi : i < 16
  · rw [if_neg (by omega), if_pos (by omega), if_pos sgi]
  · by_cases ppi : i < 32
    · rw [if_pos (by omega), if_neg sgi, if_pos ppi]
      simp
    · rw [if_neg (by omega), if_neg (by omega), if_neg sgi, if_neg ppi]

theorem redistributorInit_eq :
    redistributorInit g = if g.slow then .error .panic else .ok g.redistributed := by
  have first : ∀ i, i / 32 = 0 ↔ i < 32 := by omega
  unfold redistributorInit
  simp only [putreg32_gicrWaker, putreg32_gicrIcfgr0, putreg32_gicrIcfgr1,
    putreg32_gicrIcactiver0, putreg32_gicrIgroupr0, putreg32_gicrIcenabler0,
    putreg32_gicrIcpendr0, private_ipriorityr_loop]
  by_cases slow : g.slow = true
  · have asleep := (getWaker_woken g (getWaker g)).not.mpr (by rw [slow]; decide)
    rw [require_bind_of_neg asleep, if_pos slow]
  · have awake := (getWaker_woken g (getWaker g)).mpr (Bool.not_eq_true _ ▸ slow)
    rw [require_bind_of_pos awake, if_neg slow]
    simp only [Gic.put, putBits_ones, first, Bool.not_true, Bool.and_false, private_icfgr]
    rfl

theorem Gic.le_maxInt (g : Gic) : 32 ≤ g.maxInt := by
  unfold Gic.maxInt
  omega

/-- Private and shared interrupts together are all of them. -/
theorem ite_private_shared {α : Type} {maxInt i : Nat} (private_le : 32 ≤ maxInt) (new old : α) :
    (if i < 32 then new else if 32 ≤ i ∧ i < maxInt then new else old) =
      if i < maxInt then new else old := by
  by_cases below : i < 32
  · rw [if_pos below, if_pos (by omega)]
  · rw [if_neg below]
    exact if_congr (by omega) rfl rfl

theorem distributed_redistributed : (g.distributed mpidr).redistributed =
    g.configured mpidr g.maxInt := by
  unfold Gic.redistributed Gic.distributed Gic.configured
  simp only [ite_private_shared g.le_maxInt]
  rfl

/-- `gic_initialize` stops at a controller that it does not know and at a redistributor
that takes time to wake. From any other state whatever it makes the same of every
interrupt, and leaves what lies beyond `gic_max_int` as it was. -/
theorem gicInitialize_eq :
    gicInitialize mpidr g =
      if g.Known then
        if g.slow then .error .panic else .ok (g.maxInt, g.configured mpidr g.maxInt)
      else .error .assertion := by
  unfold gicInitialize
  rw [distributorInit_eq]
  by_cases known : g.Known
  · rw [if_pos known, if_pos known, ok_bind]
    simp only
    rw [redistributorInit_eq]
    by_cases slow : g.slow = true
    · have slow' : (g.distributed mpidr).slow = true := slow
      rw [if_pos slow, if_pos slow']
      rfl
    · have fast : ¬ (g.distributed mpidr).slow = true := slow
      rw [if_neg slow, if_neg fast, ok_bind, distributed_redistributed]
      rfl
  · rw [if_neg known, if_neg known]
    rfl

end Initialize

/-! ## Enabling and disabling -/

section Switches

variable {g : Gic} {maxInt irq : Nat}

theorem getLsbD_mask (irq i : Nat) (same : i / 32 = irq / 32) :
    (1#32 <<< (irq % 32)).getLsbD (i % 32) = decide (i = irq) := by
  have low := Nat.mod_lt i (by omega : 32 > 0)
  rw [BitVec.getLsbD_shiftLeft, decide_eq_true low, Bool.true_and, BitVec.getLsbD_one]
  by_cases eq : i = irq
  · simp [eq]
  · rw [decide_eq_false eq]
    simp
    omega

/-- A mask of one bit, written to the register the bit is in. -/
theorem putBits_mask (irq : Nat) (f : Bool → Bool → Bool) (keeps : ∀ a, f a false = a)
    (old : Nat → Bool) :
    putBits f (irq / 32) (1#32 <<< (irq % 32)) old =
      Function.update old irq (f (old irq) true) := by
  funext i
  unfold putBits
  rw [Function.update_apply]
  by_cases same : i / 32 = irq / 32
  · rw [if_pos same, getLsbD_mask irq i same]
    by_cases eq : i = irq
    · rw [if_pos eq, decide_eq_true eq, eq]
    · rw [if_neg eq, decide_eq_false eq, keeps]
  · have ne : i ≠ irq := fun eq => same (by rw [eq])
    rw [if_neg same, if_neg ne]

/-- Writing the mask of an interrupt changes its enable bit, if there is such an interrupt. -/
theorem upWriteIrq_eq (reg : BitReg) (irq : Nat) (f : Bool → Bool → Bool)
    (keeps : ∀ a, f a false = a)
    (writes : ∀ v n, g.put v (.bits reg n) = { g with enabled := putBits f n v g.enabled })
    (low : 32 ≤ maxInt) (high : maxInt ≤ 1024) :
    upWriteIrq (gicrReg reg.offset) (gicdReg reg.offset) maxInt irq g =
      if irq < maxInt then
        { g with enabled := Function.update g.enabled irq (f (g.enabled irq) true) }
      else g := by
  have put := putBits_mask irq f keeps g.enabled
  unfold upWriteIrq
  by_cases isPrivate : irq < 32
  · rw [Nat.div_eq_of_lt isPrivate] at put
    rw [if_pos isPrivate, if_pos (by omega), putreg32_gicrBits, writes, put]
  · rw [if_neg isPrivate]
    by_cases known : irq < maxInt
    · rw [if_pos known, if_pos known, putreg32_gicdBits reg (by omega) (by omega), writes, put]
    · rw [if_neg known, if_neg known]

theorem upEnableIrq_eq (low : 32 ≤ maxInt) (high : maxInt ≤ 1024) :
    upEnableIrq maxInt irq g =
      if irq < maxInt then { g with enabled := Function.update g.enabled irq true } else g := by
  have set := upWriteIrq_eq (g := g) .isenabler irq (fun a b => a || b) Bool.or_false
    (fun _ _ => rfl) low high
  rw [Bool.or_true] at set
  exact set

theorem upDisableIrq_eq (low : 32 ≤ maxInt) (high : maxInt ≤ 1024) :
    upDisableIrq maxInt irq g =
      if irq < maxInt then { g with enabled := Function.update g.enabled irq false } else g := by
  have clear := upWriteIrq_eq (g := g) .icenabler irq (fun a b => a && !b)
    (fun a => Bool.and_true a) (fun _ _ => rfl) low high
  rw [Bool.not_true, Bool.and_false] at clear
  exact clear

end Switches

/-! ## Runs of calls -/

/-- What the kernel does with its interrupts once they are initialised. -/
inductive IrqCall (H : Type)
  | attach (irq : Nat) (isr : Option H) (arg : BitVec 64)
  | enable (irq : Nat)
  | disable (irq : Nat)
  | dispatch (irq : Nat)

section Runs

variable {H : Type}

def IrqCall.run (s : Irqs H) : IrqCall H → Irqs H
  | .attach irq isr arg => (irqAttach irq isr arg s).2
  | .enable irq => irqEnable irq s
  | .disable irq => irqDisable irq s
  | .dispatch irq => (irqDispatch irq s).2

/-- Whether the call enables or disables interrupt `i`, if it does either. -/
def IrqCall.switches (i : Nat) : IrqCall H → Option Bool
  | .enable irq => if irq = i then some true else none
  | .disable irq => if irq = i then some false else none
  | _ => none

/-- The call attaches this handler and argument to interrupt `i`. -/
def IrqCall.attaches (i : Nat) : IrqCall H → Option (Option H × BitVec 64)
  | .attach irq isr arg => if irq = i then some (isr, arg) else none
  | _ => none

/-- The call is the dispatch of an interrupt `i`. -/
def IrqCall.isDispatch (i : Nat) : IrqCall H → Bool
  | .dispatch irq => irq = i
  | _ => false

/-- How often interrupt `i` came since a handler was last attached, most recent call first. -/
def sinceAttach (i : Nat) (recent : List (IrqCall H)) : Nat :=
  (recent.takeWhile fun call => (call.attaches i).isNone).countP (·.isDispatch i)

/-- The controller with other enable bits, and everything else as it was. -/
def Gic.switched (g : Gic) (enabled : Nat → Bool) : Gic := { g with enabled := enabled }

/-- What the calls so far, most recent first, say about the interrupts. -/
structure IrqHistory (start : Gic) (maxInt : Nat) (recent : List (IrqCall H)) (s : Irqs H) :
    Prop where
  known : s.gicMaxInt = maxInt
  /-- An interrupt that the controller has is enabled iff the last call about it was
  `irq_enable`; nothing else in the controller changes. -/
  gic : s.gic = start.switched fun i =>
    if i < maxInt then (recent.findSome? (·.switches i)).getD false else start.enabled i
  /-- An entry of the table is what was attached last, and counts the interrupts since. -/
  vector : ∀ i < nrIrqs, s.vector i =
    ⟨(recent.findSome? (·.attaches i)).elim none Prod.fst,
      (recent.findSome? (·.attaches i)).elim 0 Prod.snd, BitVec.ofNat 64 (sinceAttach i recent)⟩

variable {s : Irqs H} {call : IrqCall H} {recent : List (IrqCall H)} {gic : Gic} {maxInt i : Nat}

/-- The enable bits after a call about interrupt `irq`, if the controller has it. -/
theorem update_eq_switches (enabled : Nat → Bool) (irq : Nat) (b : Bool) :
    (if irq < maxInt then Function.update enabled irq b else enabled) = fun i =>
      if i < maxInt then (if irq = i then some b else none).getD (enabled i) else enabled i := by
  funext i
  by_cases eq : irq = i
  · subst eq
    by_cases known : irq < maxInt
    · rw [if_pos known, if_pos known, if_pos rfl, Function.update_self, Option.getD_some]
    · rw [if_neg known, if_neg known]
  · rw [if_neg eq, Option.getD_none, ite_self]
    by_cases known : irq < maxInt
    · rw [if_pos known, Function.update_of_ne (Ne.symm eq)]
    · rw [if_neg known]

/-- A call leaves `gic_max_int` alone, and changes the controller at most in the enable bit of the
interrupt it is about. -/
theorem IrqCall.run_gic (call : IrqCall H) (low : 32 ≤ s.gicMaxInt) (high : s.gicMaxInt ≤ 1024) :
    (call.run s).gicMaxInt = s.gicMaxInt ∧
      (call.run s).gic = s.gic.switched fun i =>
        if i < s.gicMaxInt then (call.switches i).getD (s.gic.enabled i) else s.gic.enabled i := by
  have same : (fun i => if i < s.gicMaxInt then (none : Option Bool).getD (s.gic.enabled i)
      else s.gic.enabled i) = s.gic.enabled := by
    funext i
    rw [Option.getD_none, ite_self]
  cases call with
  | attach irq isr arg =>
    simp only [IrqCall.run, irqAttach, IrqCall.switches, same]
    split <;> exact ⟨rfl, rfl⟩
  | dispatch irq =>
    simp only [IrqCall.run, irqDispatch, IrqCall.switches, same]
    split <;> exact ⟨rfl, rfl⟩
  | enable irq =>
    refine ⟨rfl, ?_⟩
    simp only [IrqCall.run, irqEnable, IrqCall.switches, ← update_eq_switches]
    rw [upEnableIrq_eq low high]
    split <;> rfl
  | disable irq =>
    refine ⟨rfl, ?_⟩
    simp only [IrqCall.run, irqDisable, IrqCall.switches, ← update_eq_switches]
    rw [upDisableIrq_eq low high]
    split <;> rfl

/-- What a call does to an entry of the table. -/
theorem IrqCall.run_vector (small : i < nrIrqs) :
    (call.run s).vector i = match call.attaches i with
      | some (isr, arg) => ⟨isr, arg, 0⟩
      | none => { s.vector i with
          count := (s.vector i).count + if call.isDispatch i then 1 else 0 } := by
  cases call with
  | attach irq isr arg =>
    simp only [IrqCall.run, irqAttach, IrqCall.attaches]
    by_cases eq : irq = i
    · subst eq
      rw [if_neg (by omega), if_pos rfl]
      simp
    · rw [if_neg eq]
      split
      · simp [IrqCall.isDispatch]
      · simp [IrqCall.isDispatch, Function.update_of_ne (Ne.symm eq)]
  | enable irq => simp [IrqCall.run, irqEnable, IrqCall.attaches, IrqCall.isDispatch]
  | disable irq => simp [IrqCall.run, irqDisable, IrqCall.attaches, IrqCall.isDispatch]
  | dispatch irq =>
    simp only [IrqCall.run, irqDispatch, IrqCall.attaches, IrqCall.isDispatch]
    by_cases eq : irq = i
    · subst eq
      rw [if_neg (by omega)]
      simp
    · split
      · simp [eq]
      · simp [eq, Function.update_of_ne (Ne.symm eq)]

theorem sinceAttach_cons :
    sinceAttach i (call :: recent) = match call.attaches i with
      | some _ => 0
      | none => sinceAttach i recent + if call.isDispatch i then 1 else 0 := by
  unfold sinceAttach
  rw [List.takeWhile_cons]
  cases call.attaches i with
  | some _ => rfl
  | none => simp [List.countP_cons]

theorem IrqHistory.extend (history : IrqHistory gic maxInt recent s) (low : 32 ≤ maxInt)
    (high : maxInt ≤ 1024) (call : IrqCall H) :
    IrqHistory gic maxInt (call :: recent) (call.run s) := by
  have known := history.known
  obtain ⟨same, controller⟩ := call.run_gic (s := s) (by omega) (by omega)
  refine ⟨same.trans known, ?_, fun i small => ?_⟩
  · rw [controller, known, history.gic]
    unfold Gic.switched
    congr 1
    funext i
    by_cases inside : i < maxInt
    · simp only [if_pos inside, List.findSome?_cons]
      cases call.switches i with
      | none => rfl
      | some b => rfl
    · simp only [if_neg inside]
  · rw [IrqCall.run_vector small, history.vector i small, sinceAttach_cons, List.findSome?_cons]
    cases call.attaches i with
    | some attached => rfl
    | none =>
      simp only [IrqInfo.mk.injEq, true_and]
      cases call.isDispatch i with
      | true => simp [BitVec.ofNat_add]
      | false => simp

/-- A loop that assigns one value to the first `n` cells leaves it in each of them. -/
theorem foldl_update_range {α : Type} (a : α) (cells : Nat → α) {n : Nat} (inside : i < n) :
    (List.range n).foldl (fun cells j => Function.update cells j a) cells i = a := by
  induction n with
  | zero => omega
  | succ n ih =>
    rw [List.range_succ, List.foldl_append, List.foldl_cons, List.foldl_nil, Function.update_apply]
    by_cases last : i = n
    · rw [if_pos last]
    · rw [if_neg last]
      exact ih (by omega)

/-- Right after `irq_initialize` no handler is attached and no interrupt is enabled. -/
theorem irqInitialize_history {mpidr : BitVec 64} {boot start : Irqs H}
    (init : irqInitialize mpidr boot = .ok start) :
    IrqHistory (boot.gic.configured mpidr boot.gic.maxInt) boot.gic.maxInt [] start := by
  unfold irqInitialize at init
  obtain ⟨⟨maxInt, gic⟩, controller, init⟩ := of_bind_ok init
  rw [gicInitialize_eq] at controller
  split at controller
  · split at controller
    · cases controller
    · cases controller
      rw [← Except.ok.inj init]
      refine ⟨rfl, ?_, fun i small => ?_⟩
      · unfold Gic.switched Gic.configured
        simp only [List.findSome?_nil, Option.getD_none, Gic.mk.injEq, true_and, and_true]
        funext i
        by_cases inside : i < boot.gic.maxInt <;> simp [inside]
      · exact foldl_update_range (⟨none, 0, BitVec.ofNat 64 0⟩ : IrqInfo H) boot.vector small
  · cases controller

/-- After `irq_initialize` and any calls, the interrupts that the controller lets through
are those that were enabled last, the controller is otherwise as it was configured, and
the table calls the handler that was attached last and counts the interrupts since. -/
theorem irqCalls_history {mpidr : BitVec 64} {boot start : Irqs H}
    (init : irqInitialize mpidr boot = .ok start) (calls : List (IrqCall H)) :
    IrqHistory (boot.gic.configured mpidr boot.gic.maxInt) boot.gic.maxInt calls.reverse
      (calls.foldl IrqCall.run start) := by
  induction calls using List.reverseRecOn with
  | nil => exact irqInitialize_history init
  | append_singleton calls call ih =>
    rw [List.foldl_append, List.reverse_append]
    exact ih.extend boot.gic.le_maxInt boot.gic.maxInt_le call

end Runs

/-- A GICv3 with 64 interrupts, all of them left enabled and pending by whoever ran before. -/
def sampleGic : Gic where
  pidr2 := 0x3b
  typer := 1
  slow := false
  ctlr := 0
  waker := 6
  enabled _ := true
  pending _ := true
  active _ := true
  group _ := false
  groupMod _ := true
  priority _ := 0
  config _ := 1
  route _ := 0

def sampleIrqCalls : List (IrqCall Unit) :=
  [.enable 27, .enable 40, .attach 27 (some ()) 0, .dispatch 27, .disable 40]

theorem sampleGic_history : ∃ start : Irqs Unit,
    irqInitialize 0x80000000 ⟨sampleGic, 0, fun _ => ⟨none, 0, 0⟩⟩ = .ok start ∧
      IrqHistory (sampleGic.configured 0x80000000 sampleGic.maxInt) sampleGic.maxInt
        sampleIrqCalls.reverse (sampleIrqCalls.foldl IrqCall.run start) := by
  obtain ⟨start, init⟩ : ∃ start : Irqs Unit,
      irqInitialize 0x80000000 ⟨sampleGic, 0, fun _ => ⟨none, 0, 0⟩⟩ = .ok start := by
    unfold irqInitialize
    rw [gicInitialize_eq, if_pos (by decide), if_neg (by decide)]
    exact ⟨_, rfl⟩
  exact ⟨start, init, irqCalls_history init sampleIrqCalls⟩

end Chinos
