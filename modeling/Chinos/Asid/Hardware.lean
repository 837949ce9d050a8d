import Chinos.Asid.Safety

/-!
# ASIDs as the hardware sees them

`as_switch` puts an ASID number in the top `asid_bits` bits of TTBR0. The MMU takes
16 ASID bits from there only when TCR_EL1.AS is set, and otherwise the 8 bits from
bit 48 on. `boot_setup_mmu` leaves the bit clear: of a 16-bit number the MMU sees the
low byte, and of an 8-bit number, which sits above bit 56, nothing at all.
-/

namespace Chinos

/-- `bitfield_get`, which reads `width` bits of a register from bit `start` on. -/
def bitfieldGet (value : U64) (start width : Nat) : U64 :=
  (value >>> start) &&& (1#64 <<< width - 1)

/-- `TCR_T0SZ(x)`, the field of TCR_EL1 for a lower half of `x` address bits. -/
def tcrT0sz (x : U64) : U64 := 64 - x

/-- `TCR_T1SZ(x)`, the field of TCR_EL1 for an upper half of `x` address bits. -/
def tcrT1sz (x : U64) : U64 := (64 - x) <<< 16

/-- `VA_BITS`, the number of address bits that each of the two tables translates. -/
def vaBits : U64 := 39

/-- What `boot_setup_mmu` writes to TCR_EL1 on a processor with the given `ID_AA64MMFR0_EL1`,
whose range of physical addresses goes to bit 32. -/
def bootTcr (mmfr0 : U64) : U64 :=
  let paRange := bitfieldGet mmfr0 0 4
  (paRange <<< 32) ||| tcrT0sz vaBits ||| tcrT1sz vaBits |||
    -- TCR_TG0_4K, TCR_TG1_4K
    0 <<< 14 ||| 2 <<< 30 |||
    -- TCR_SH0_INNER, TCR_SH1_INNER
    3 <<< 12 ||| 3 <<< 28 |||
    -- TCR_ORGN0_WBWA, TCR_ORGN1_WBWA, TCR_IRGN0_WBWA, TCR_IRGN1_WBWA
    1 <<< 10 ||| 1 <<< 26 ||| 1 <<< 8 ||| 1 <<< 24

/-- The ASID that the MMU takes from TTBR0: `TTBR0[63:48]` when TCR_EL1.AS, bit 36, is
set, and `TTBR0[55:48]` when it is clear. -/
def hwAsid (tcr ttbr0 : U64) : Nat :=
  if tcr.getLsbD 36 then ttbr0.toNat / 2 ^ 48 else ttbr0.toNat / 2 ^ 48 % 2 ^ 8

/-- The shift puts the range of physical addresses below bit 36, whatever the processor
reports, and nothing else reaches it. -/
theorem bootTcr_as (mmfr0 : U64) : (bootTcr mmfr0).getLsbD 36 = false := by
  have rest : ∀ x : U64, x &&& 15 = x → (x <<< 32).getLsbD 36 = false := by
    intro x nibble
    rw [← nibble]
    simp
  have nibble : bitfieldGet mmfr0 0 4 &&& 15 = bitfieldGet mmfr0 0 4 := by
    unfold bitfieldGet
    rw [show (1#64 <<< 4 - 1 : U64) = 15 by decide, BitVec.and_assoc, BitVec.and_self]
  unfold bootTcr
  simp only [BitVec.getLsbD_or, rest _ nibble]
  decide

section Hardware

variable {T : Type} [DecidableEq T] {tasks : TaskSet T} {c d : Cpu T} {src src' t u : T}
  {bits : Nat}

/-- The ASID number that a switch to `t` hands out: generation bits dropped. -/
def Cpu.issued (tasks : TaskSet T) (c : Cpu T) (t : T) : Nat :=
  (checkAndSwitchContext tasks c.asids t).1.toNat % 2 ^ c.asids.asidBits

/-- After a switch to `t`, TTBR0 is the address of its table and, above all bits of it,
the number that was handed out. -/
def Cpu.HoldsAsid (tasks : TaskSet T) (c : Cpu T) (src t : T) : Prop :=
  (vbaseToPbase (tasks.addrspace t)).toNat < 2 ^ (64 - c.asids.asidBits) ∧
    (taskSwitch tasks c src t).ttbr0.toNat =
      c.issued tasks t * 2 ^ (64 - c.asids.asidBits) + (vbaseToPbase (tasks.addrspace t)).toNat

/-- The switches to `t` and to `u` load the number each was given next to the address of
its table, and nothing else, and the MMU tells the two apart. -/
structure HardwareApart (tcr : U64) (tasks : TaskSet T) (c : Cpu T) (src t : T) (d : Cpu T)
    (src' u : T) : Prop where
  first : c.HoldsAsid tasks src t
  second : d.HoldsAsid tasks src' u
  apart : hwAsid tcr (taskSwitch tasks c src t).ttbr0 ≠
    hwAsid tcr (taskSwitch tasks d src' u).ttbr0

theorem taskSwitch_holdsAsid (width : c.asids.asidBits = 8 ∨ c.asids.asidBits = 16)
    (user : tasks.type t = .user) (other : tasks.tgid t ≠ tasks.tgid src) :
    c.HoldsAsid tasks src t := by
  have low := tasks.low t
  refine ⟨lt_of_lt_of_le low (Nat.pow_le_pow_right (by omega) (by omega)), ?_⟩
  rw [taskSwitch_of_ne other (Prod.mk.eta).symm, checkAndSwitchContext_asidBits, user]
  exact toNat_base_or_asid width low _

/-- The MMU sees nothing of an 8-bit number and the low byte of a 16-bit one. -/
theorem Cpu.HoldsAsid.hwAsid_eq (holds : c.HoldsAsid tasks src t)
    (width : c.asids.asidBits = 8 ∨ c.asids.asidBits = 16) (mmfr0 : U64) :
    hwAsid (bootTcr mmfr0) (taskSwitch tasks c src t).ttbr0 =
      if c.asids.asidBits = 16 then c.issued tasks t % 2 ^ 8 else 0 := by
  obtain ⟨low, held⟩ := holds
  have small := tasks.low t
  unfold hwAsid
  rw [bootTcr_as, if_neg Bool.false_ne_true, held]
  rcases width with eight | sixteen
  · rw [eight, if_neg (by decide)]
    omega
  · rw [sixteen, if_pos rfl]
    omega

/-- Two switches give the MMU different ASIDs iff numbers have 16 bits and theirs differ
in the low byte. -/
theorem taskSwitch_hardwareApart_iff {mmfr0 : U64} (reported : getCpuAsidBits mmfr0 = .ok bits)
    (widthC : c.asids.asidBits = bits) (widthD : d.asids.asidBits = bits)
    (userT : tasks.type t = .user) (userU : tasks.type u = .user)
    (otherT : tasks.tgid t ≠ tasks.tgid src) (otherU : tasks.tgid u ≠ tasks.tgid src') :
    HardwareApart (bootTcr mmfr0) tasks c src t d src' u ↔
      bits = 16 ∧ c.issued tasks t % 2 ^ 8 ≠ d.issued tasks u % 2 ^ 8 := by
  have width : bits = 8 ∨ bits = 16 := by
    unfold getCpuAsidBits at reported
    split at reported
    · exact .inl (Except.ok.inj reported).symm
    · split at reported
      · exact .inr (Except.ok.inj reported).symm
      · cases reported
  have holdsT := taskSwitch_holdsAsid (c := c) (by omega) userT otherT
  have holdsU := taskSwitch_holdsAsid (c := d) (by omega) userU otherU
  have seenT := holdsT.hwAsid_eq (by omega) mmfr0
  have seenU := holdsU.hwAsid_eq (by omega) mmfr0
  rw [widthC] at seenT
  rw [widthD] at seenU
  constructor
  · rintro ⟨-, -, apart⟩
    rw [seenT, seenU] at apart
    split at apart
    · rename_i sixteen
      exact ⟨sixteen, apart⟩
    · exact absurd rfl apart
  · rintro ⟨sixteen, differ⟩
    refine ⟨holdsT, holdsU, ?_⟩
    rw [seenT, seenU, if_pos sixteen, if_pos sixteen]
    exact differ

end Hardware

/-- A processor with 16-bit ASIDs on which each task holds the number of its index. -/
def wideCpu : Cpu (Fin 3) where
  asids :=
    { asidBits := 16
      asidGeneration := asidFirstVersion 16
      asidBitmap := fun i => if i = 0 then 6 else 0
      tlbFlush := false
      curIdx := 2
      asid := fun t => asidFirstVersion 16 ||| BitVec.ofNat 64 t.val }
  ttbr0 := 0
  tlb := []

theorem wideCpu_hardwareApart : HardwareApart (bootTcr 0x20) threeTasks wideCpu 0 1 wideCpu 1 2 :=
  (taskSwitch_hardwareApart_iff rfl rfl rfl rfl rfl (by decide) (by decide)).mpr
    ⟨rfl, by decide⟩

/-- From `asid_initialize` on with 8-bit ASIDs, the first two user tasks that run are given
the numbers 1 and 2, and the MMU sees ASID 0 for both. -/
theorem threeTasks_sameHwAsid :
    AsidRun threeTasks (startCpu _) 0 0 ∧ (startCpu _).issued threeTasks 1 = 1 ∧
      (taskSwitch threeTasks (startCpu _) 0 1).issued threeTasks 2 = 2 ∧
      hwAsid (bootTcr 0) (taskSwitch threeTasks (startCpu _) 0 1).ttbr0 = 0 ∧
      hwAsid (bootTcr 0) (taskSwitch threeTasks
        (taskSwitch threeTasks (startCpu _) 0 1) 1 2).ttbr0 = 0 := by
  refine ⟨startCpu_run threeTasks, ?_, ?_, ?_, ?_⟩
  · decide +kernel
  · decide +kernel
  · decide +kernel
  · decide +kernel

end Chinos
