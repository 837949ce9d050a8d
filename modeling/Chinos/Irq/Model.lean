import Chinos.Machine.Basic
import Chinos.Machine.Loop

/-!
# Interrupts: `os/dev/interrupt/arm_gic/gicv3/gicv3.c` and `os/core/irq`

The driver sees the interrupt controller through 32-bit registers. Some of them hold one
bit for each of 32 interrupts and come in pairs: a one written to the first sets the bit,
a one written to the second clears it. Private interrupts, those below 32, are in the
redistributor of the processor; the distributor has the others, behind registers of the
same layout. `Gic` is what the controller keeps, `gicRegAt` its address map, and the
functions of the driver follow.
-/

namespace Chinos

/-! ## The controller -/

/-- What the controller keeps, by interrupt number where it is kept for each interrupt.
`pidr2` and `typer` cannot be written. `slow` says that the redistributor is still asleep
when it is read right after it was woken. -/
structure Gic where
  pidr2 : BitVec 32
  typer : BitVec 32
  slow : Bool
  ctlr : BitVec 32
  waker : BitVec 32
  enabled : Nat → Bool
  pending : Nat → Bool
  active : Nat → Bool
  group : Nat → Bool
  groupMod : Nat → Bool
  priority : Nat → BitVec 8
  config : Nat → BitVec 2
  route : Nat → BitVec 64

/-- The registers with one bit for each interrupt, by the names they have in the driver. -/
inductive BitReg
  | igroupr
  | isenabler
  | icenabler
  | ispendr
  | icpendr
  | isactiver
  | icactiver
  | igrpmodr
  deriving DecidableEq

/-- A 32-bit register; `n` is its index among those of its kind. -/
inductive GicReg
  | ctlr
  | waker
  | bits (reg : BitReg) (n : Nat)
  | ipriorityr (n : Nat)
  | icfgr (n : Nat)
  | reserved
  deriving DecidableEq

/-- The layout that the distributor and the second frame of the redistributor share. -/
def bankReg (o : Nat) : GicReg :=
  if o < 0x080 then .reserved
  else if o < 0x100 then .bits .igroupr ((o - 0x080) / 4)
  else if o < 0x180 then .bits .isenabler ((o - 0x100) / 4)
  else if o < 0x200 then .bits .icenabler ((o - 0x180) / 4)
  else if o < 0x280 then .bits .ispendr ((o - 0x200) / 4)
  else if o < 0x300 then .bits .icpendr ((o - 0x280) / 4)
  else if o < 0x380 then .bits .isactiver ((o - 0x300) / 4)
  else if o < 0x400 then .bits .icactiver ((o - 0x380) / 4)
  else if o < 0x800 then .ipriorityr ((o - 0x400) / 4)
  else if o < 0xc00 then .reserved
  else if o < 0xd00 then .icfgr ((o - 0xc00) / 4)
  else if o < 0xd80 then .bits .igrpmodr ((o - 0xd00) / 4)
  else .reserved

/-- The register is about the private interrupts, those below 32. -/
def GicReg.isPrivate : GicReg → Bool
  | .bits _ n => n = 0
  | .ipriorityr n => n < 8
  | .icfgr n => n < 2
  | _ => false

/-- The register at an offset from the base of the controller. With affinity routing, the
private interrupts are not in the distributor. -/
def gicRegAt (o : Nat) : GicReg :=
  if o = 0 then .ctlr
  else if o < 0x10000 then
    if (bankReg o).isPrivate then .reserved else bankReg o
  else if o = 0xa0014 then .waker
  else if 0xb0000 ≤ o ∧ o < 0xc0000 then
    if (bankReg (o - 0xb0000)).isPrivate then bankReg (o - 0xb0000) else .reserved
  else .reserved

/-- Register `n` of 32 bits was written: `f` of the old bit and the bit written. -/
def putBits (f : Bool → Bool → Bool) (n : Nat) (v : BitVec 32) (old : Nat → Bool) : Nat → Bool :=
  fun i => if i / 32 = n then f (old i) (v.getLsbD (i % 32)) else old i

/-- A write of `v` to a register. The set and clear registers act on the bits that are one in
`v`. -/
def Gic.put (g : Gic) (v : BitVec 32) : GicReg → Gic
  | .ctlr => { g with ctlr := v }
  | .waker => { g with waker := v }
  | .bits .igroupr n => { g with group := putBits (fun _ b => b) n v g.group }
  | .bits .isenabler n => { g with enabled := putBits (fun a b => a || b) n v g.enabled }
  | .bits .icenabler n => { g with enabled := putBits (fun a b => a && !b) n v g.enabled }
  | .bits .ispendr n => { g with pending := putBits (fun a b => a || b) n v g.pending }
  | .bits .icpendr n => { g with pending := putBits (fun a b => a && !b) n v g.pending }
  | .bits .isactiver n => { g with active := putBits (fun a b => a || b) n v g.active }
  | .bits .icactiver n => { g with active := putBits (fun a b => a && !b) n v g.active }
  | .bits .igrpmodr n => { g with groupMod := putBits (fun _ b => b) n v g.groupMod }
  | .ipriorityr n => { g with
      priority := fun i => if i / 4 = n then v.extractLsb' (8 * (i % 4)) 8 else g.priority i }
  | .icfgr n => { g with
      config := fun i => if i / 16 = n then v.extractLsb' (2 * (i % 16)) 2 else g.config i }
  | .reserved => g

/-- `GIC_VBASE`, the `mmio_base` of `defualt_gicv3_config_desc`, where the kernel maps the
controller. -/
def gicVbase : Nat := 0xffffff8f08000000

/-- `putreg32(v, a)`, for an address in the controller. -/
def putreg32 (v : BitVec 32) (a : Nat) (g : Gic) : Gic := g.put v (gicRegAt (a - gicVbase))

/-- `putreg64(v, a)`, which the driver does only to `GICD_IROUTER`. -/
def putreg64 (v : BitVec 64) (a : Nat) (g : Gic) : Gic :=
  let o := a - gicVbase
  if 0x6000 ≤ o ∧ o < 0x8000 then
    { g with route := Function.update g.route ((o - 0x6000) / 8) v }
  else g

/-- `GICR_WAKER_ProcessorSleep`, which the driver clears to wake the redistributor up. -/
def processorSleep : BitVec 32 := 1#32 <<< 1

/-- `GICR_WAKER_ChildrenAsleep`, which the redistributor clears once it is awake. -/
def childrenAsleep : BitVec 32 := 1#32 <<< 2

/-- `getreg32(GICR_WAKER(cpu))`: the children sleep with the processor, and a slow
redistributor has them asleep for some time after it. -/
def getWaker (g : Gic) : BitVec 32 :=
  if g.waker &&& processorSleep ≠ 0 ∨ g.slow then g.waker ||| childrenAsleep
  else g.waker &&& ~~~childrenAsleep

/-! ## Register addresses -/

/-- `GICD_BASE`, the address of the distributor. -/
def gicdBase : Nat := gicVbase + 0x00000

/-- `GICR_BASE`, the address of the first redistributor. -/
def gicrBase : Nat := gicVbase + 0xa0000

/-- `GICR_SGI_OFFSET`, the address of the second frame of the first redistributor. -/
def gicrSgiOffset : Nat := gicrBase + 0x10000

/-- `GICR_STRIDE`, the distance from one redistributor to the next. -/
def gicrStride : Nat := 0x20000

def gicdCtlr : Nat := gicdBase + 0x0000

/-- The address of register `n` of those at `offset` in the distributor, which come in arrays. -/
def gicdReg (offset n : Nat) : Nat := gicdBase + offset + n * 4

def gicdIgroupr (n : Nat) : Nat := gicdReg 0x0080 n

def gicdIsenabler (n : Nat) : Nat := gicdReg 0x0100 n

def gicdIcenabler (n : Nat) : Nat := gicdReg 0x0180 n

def gicdIcpendr (n : Nat) : Nat := gicdReg 0x0280 n

def gicdIpriorityr (n : Nat) : Nat := gicdReg 0x0400 n

def gicdIcfgr (n : Nat) : Nat := gicdReg 0x0c00 n

def gicdIgrpmodr (n : Nat) : Nat := gicdReg 0x0d00 n

def gicdIrouter (n : Nat) : Nat := gicdBase + 0x6000 + n * 8

def gicrWaker (i : Nat) : Nat := gicrBase + gicrStride * i + 0x0014

/-- The address of a register in the second frame of redistributor `i`. -/
def gicrReg (offset i : Nat) : Nat := gicrSgiOffset + gicrStride * i + offset

def gicrIgroupr0 (i : Nat) : Nat := gicrReg 0x0080 i

def gicrIsenabler0 (i : Nat) : Nat := gicrReg 0x0100 i

def gicrIcenabler0 (i : Nat) : Nat := gicrReg 0x0180 i

def gicrIcpendr0 (i : Nat) : Nat := gicrReg 0x0280 i

def gicrIcactiver0 (i : Nat) : Nat := gicrReg 0x0380 i

def gicrIpriorityr0 (i : Nat) : Nat := gicrReg 0x0400 i

def gicrIcfgr0 (i : Nat) : Nat := gicrReg 0x0c00 i

def gicrIcfgr1 (i : Nat) : Nat := gicrReg 0x0c04 i

/-! ## The driver

The driver waits for the controller after it wrote; the waits give up after 10000 reads
and change nothing. -/

/-- `GIC_PRI_IRQ`, the priority that the driver gives to every interrupt. -/
def gicPriIrq : BitVec 32 := 0xa0

/-- The value written to the registers of four priorities. -/
def gicPriority : BitVec 32 :=
  gicPriIrq <<< 24 ||| gicPriIrq <<< 16 ||| gicPriIrq <<< 8 ||| gicPriIrq

def ctlrEnableG0 : BitVec 32 := 1#32 <<< 0

def ctlrEnableG1ns : BitVec 32 := 1#32 <<< 1

def ctlrAreS : BitVec 32 := 1#32 <<< 4

/-- `mpidr_to_gic_affinity`, on the value of `mpidr_el1`: the affinity of the processor, in the
layout of `GICD_IROUTER`. -/
def mpidrToGicAffinity (mpidr : BitVec 64) : BitVec 64 :=
  ((mpidr >>> 32) &&& 0xff) <<< 32 ||| ((mpidr >>> 16) &&& 0xff) <<< 16 |||
    ((mpidr >>> 8) &&& 0xff) <<< 8 ||| (mpidr &&& 0xff)

/-- `distributor_init`, with the value of `mpidr_el1`. The results are `gic_max_int` and the
controller as it is left. -/
def distributorInit (mpidr : BitVec 64) (g : Gic) : Except Fault (Nat × Gic) := do
  let gicVersion := (g.pidr2 >>> 4) &&& 15
  require (gicVersion = 3 ∨ gicVersion = 4) .assertion
  let gicMaxInt := ((g.typer &&& 31).toNat + 1) * 32
  let g := putreg32 0 gicdCtlr g
  let g := (countUp 32 gicMaxInt 16).foldl (fun g i => putreg32 0 (gicdIcfgr (i / 16)) g) g
  let g := (countUp 32 gicMaxInt 4).foldl
    (fun g i => putreg32 gicPriority (gicdIpriorityr (i / 4)) g) g
  let g := (countUp 32 gicMaxInt 32).foldl (fun g i =>
    let g := putreg32 (~~~0) (gicdIcenabler (i / 32)) g
    let g := putreg32 (~~~0) (gicdIcpendr (i / 32)) g
    let g := putreg32 (~~~0) (gicdIgroupr (i / 32)) g
    putreg32 0 (gicdIgrpmodr (i / 32)) g) g
  let g := putreg32 (ctlrEnableG0 ||| ctlrEnableG1ns ||| ctlrAreS) gicdCtlr g
  let g := (countUp 32 gicMaxInt 1).foldl
    (fun g i => putreg64 (mpidrToGicAffinity mpidr) (gicdIrouter i) g) g
  return (gicMaxInt, g)

/-- `redistributor_init`, which panics if the redistributor is slow to wake up. -/
def redistributorInit (g : Gic) : Except Fault Gic := do
  let g := putreg32 (getWaker g &&& ~~~processorSleep) (gicrWaker 0) g
  require (getWaker g &&& childrenAsleep = 0) .panic
  let g := putreg32 (~~~0) (gicrIcactiver0 0) g
  let g := putreg32 0xaaaaaaaa (gicrIcfgr0 0) g
  let g := putreg32 0 (gicrIcfgr1 0) g
  let g := (countUp 0 32 4).foldl (fun g i => putreg32 gicPriority (gicrIpriorityr0 0 + i) g) g
  let g := putreg32 (~~~0) (gicrIgroupr0 0) g
  let g := putreg32 (~~~0) (gicrIcenabler0 0) g
  return putreg32 (~~~0) (gicrIcpendr0 0) g

/-- `gic_initialize`. What it does to the processor's own interface is in no register here. -/
def gicInitialize (mpidr : BitVec 64) (g : Gic) : Except Fault (Nat × Gic) := do
  let (gicMaxInt, g) ← distributorInit mpidr g
  let g ← redistributorInit g
  return (gicMaxInt, g)

/-- `up_enable_irq` and `up_disable_irq`: they differ in the two registers they write. -/
def upWriteIrq (gicrReg0 : Nat → Nat) (gicdRegN : Nat → Nat) (gicMaxInt irq : Nat) (g : Gic) :
    Gic :=
  let mask := 1#32 <<< (irq % 32)
  if irq < 32 then putreg32 mask (gicrReg0 0) g
  else if irq < gicMaxInt then putreg32 mask (gicdRegN (irq / 32)) g
  else g

/-- `up_enable_irq`, which writes the set registers of the enable bits. -/
def upEnableIrq (gicMaxInt irq : Nat) (g : Gic) : Gic :=
  upWriteIrq gicrIsenabler0 gicdIsenabler gicMaxInt irq g

/-- `up_disable_irq`, which writes the clear registers of the enable bits. -/
def upDisableIrq (gicMaxInt irq : Nat) (g : Gic) : Gic :=
  upWriteIrq gicrIcenabler0 gicdIcenabler gicMaxInt irq g

/-! ## The table of handlers -/

/-- `NR_IRQS`, the number of entries of `g_irqvector`. -/
def nrIrqs : Nat := 33

/-- `struct irq_info`; handlers are of type `H` and their arguments are pointers. -/
structure IrqInfo (H : Type) where
  handler : Option H
  arg : BitVec 64
  count : BitVec 64

/-- The interrupts as the kernel keeps them: the controller, `gic_max_int` and
`g_irqvector`. -/
structure Irqs (H : Type) where
  gic : Gic
  gicMaxInt : Nat
  vector : Nat → IrqInfo H

section Table

variable {H : Type}

/-- `irq_initialize`, with the value of `mpidr_el1`: the table of handlers is cleared, and then
the controller is set up. -/
def irqInitialize (mpidr : BitVec 64) (s : Irqs H) : Except Fault (Irqs H) := do
  let vector := (List.range nrIrqs).foldl
    (fun vector i => Function.update vector i ⟨none, 0, 0⟩) s.vector
  let (gicMaxInt, gic) ← gicInitialize mpidr s.gic
  return ⟨gic, gicMaxInt, vector⟩

/-- `irq_attach`: the value returned and the state after it. -/
def irqAttach (irq : Nat) (isr : Option H) (arg : BitVec 64) (s : Irqs H) : Int × Irqs H :=
  if irq ≥ nrIrqs then (-22, s)
  else (0, { s with vector := Function.update s.vector irq ⟨isr, arg, 0⟩ })

/-- `irq_dispatch`: the handler it calls, with its argument, and the state at the call. -/
def irqDispatch (irq : Nat) (s : Irqs H) : Option (H × BitVec 64) × Irqs H :=
  if irq ≥ nrIrqs then (none, s)
  else
    let info := s.vector irq
    (info.handler.map fun handler => (handler, info.arg),
      { s with vector := Function.update s.vector irq { info with count := info.count + 1 } })

/-- `irq_enable`, which leaves the table of handlers alone. -/
def irqEnable (irq : Nat) (s : Irqs H) : Irqs H :=
  { s with gic := upEnableIrq s.gicMaxInt irq s.gic }

/-- `irq_disable`, which leaves the table of handlers alone. -/
def irqDisable (irq : Nat) (s : Irqs H) : Irqs H :=
  { s with gic := upDisableIrq s.gicMaxInt irq s.gic }

end Table

end Chinos
