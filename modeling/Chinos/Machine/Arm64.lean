import Chinos.Machine.Memory

/-!
# Straight-line AArch64 code

The registers of a core and the instructions with which a kernel saves and restores them:
loads and stores of pairs at offsets from the stack pointer, moves from and to system
registers. Blocks of pairs are described as a whole: stores of pairs at rising offsets are
one store of a list of words, and loads of pairs give each register the word at its place.
-/

namespace Chinos

/-! ## Words in memory -/

namespace Mem

/-- The words one after the other, from address `a` on. -/
def storeWords (m : Mem) (a : Nat) : List (BitVec 64) → Mem
  | [] => m
  | w :: ws => (m.store64 a w).storeWords (a + 8) ws

section Words

variable {m m' : Mem} {a : Nat} {us ws : List (BitVec 64)}

theorem storeWords_append :
    m.storeWords a (us ++ ws) = (m.storeWords a us).storeWords (a + 8 * us.length) ws := by
  induction us generalizing m a with
  | nil => rfl
  | cons u us ih =>
    simp only [List.cons_append, storeWords, List.length_cons]
    rw [ih, show a + 8 + 8 * us.length = a + 8 * (us.length + 1) by omega]

theorem storeWords_of_outside {x : Nat} (outside : x < a ∨ a + 8 * ws.length ≤ x) :
    m.storeWords a ws x = m x := by
  induction ws generalizing m a with
  | nil => rfl
  | cons w ws ih =>
    rw [List.length_cons] at outside
    rw [storeWords, ih (by omega), store64_of_outside (by omega)]

theorem load64_storeWords {i : Nat} (inside : i < ws.length) :
    (m.storeWords a ws).load64 (a + 8 * i) = ws[i] := by
  induction ws generalizing m a i with
  | nil => cases inside
  | cons w ws ih =>
    rw [List.length_cons] at inside
    cases i with
    | zero =>
      have later : (m.store64 a w).AgreeOn ((m.store64 a w).storeWords (a + 8) ws) a 8 :=
        fun x _ high => storeWords_of_outside (.inl high)
      exact (load64_congr later).trans load64_store64_same
    | succ i =>
      rw [storeWords, show a + 8 * (i + 1) = a + 8 + 8 * i by omega, ih (by omega)]
      rfl

end Words

end Mem

/-! ## The core -/

/-- The number of one of the general registers `x0` to `x30`. -/
abbrev Reg := Fin 31

instance Reg.neZero : NeZero 31 := ⟨by decide⟩

/-- The registers that exist once on a core. The stack pointer `sp` is `SP_EL1`, which is in use
while the kernel runs. -/
structure Core where
  x : Reg → BitVec 64
  sp : BitVec 64
  spEl0 : BitVec 64
  elr : BitVec 64
  spsr : BitVec 64
  pc : BitVec 64
  pstate : BitVec 64

inductive SysReg
  | elrEl1
  | spEl0
  | spsrEl1

/-- The offsets of loads and stores are from the stack pointer. -/
inductive Instr
  | stp (a b : Reg) (offset : Nat)
  | ldp (a b : Reg) (offset : Nat)
  | ldr (a : Reg) (offset : Nat)
  | ldrLiteral (a : Reg) (value : BitVec 64)
  | mrs (a : Reg) (sys : SysReg)
  | msr (sys : SysReg) (a : Reg)
  | add (d a b : Reg)
  | movSp (a : Reg)

namespace Core

def set (c : Core) (a : Reg) (v : BitVec 64) : Core := { c with x := Function.update c.x a v }

def sys (c : Core) : SysReg → BitVec 64
  | .elrEl1 => c.elr
  | .spEl0 => c.spEl0
  | .spsrEl1 => c.spsr

def setSys (c : Core) (v : BitVec 64) : SysReg → Core
  | .elrEl1 => { c with elr := v }
  | .spEl0 => { c with spEl0 := v }
  | .spsrEl1 => { c with spsr := v }

/-- The address of an operand at an offset from the stack pointer. -/
def operand (c : Core) (offset : Nat) : BitVec 64 := c.sp + BitVec.ofNat 64 offset

/-- The instruction `eret`, which goes to `elr` in the state that `spsr` has. -/
def eret (c : Core) : Core := { c with pc := c.elr, pstate := c.spsr }

end Core

/-- The effect of one instruction on the core and the memory, where `tr` translates the addresses
of operands. -/
def Instr.exec (tr : BitVec 64 → Nat) (c : Core) (m : Mem) : Instr → Core × Mem
  | .stp a b offset =>
    (c, (m.store64 (tr (c.operand offset)) (c.x a)).store64 (tr (c.operand (offset + 8))) (c.x b))
  | .ldp a b offset =>
    ((c.set a (m.load64 (tr (c.operand offset)))).set b (m.load64 (tr (c.operand (offset + 8)))), m)
  | .ldr a offset => (c.set a (m.load64 (tr (c.operand offset))), m)
  | .ldrLiteral a value => (c.set a value, m)
  | .mrs a sys => (c.set a (c.sys sys), m)
  | .msr sys a => (c.setSys (c.x a) sys, m)
  | .add d a b => (c.set d (c.x a + c.x b), m)
  | .movSp a => ({ c with sp := c.x a }, m)

/-- The effect of a block of code without branches, one instruction after the other. -/
def runBlock (tr : BitVec 64 → Nat) : List Instr → Core → Mem → Core × Mem
  | [], c, m => (c, m)
  | i :: code, c, m => runBlock tr code (i.exec tr c m).1 (i.exec tr c m).2

section Blocks

variable {tr : BitVec 64 → Nat} {c : Core} {m : Mem} {code rest : List Instr} {o : Nat}

theorem runBlock_append :
    runBlock tr (code ++ rest) c m =
      runBlock tr rest (runBlock tr code c m).1 (runBlock tr code c m).2 := by
  induction code generalizing c m with
  | nil => rfl
  | cons i code ih => exact ih

/-- The operands in `n` words from offset `o` on are one after the other. -/
def Core.Linear (tr : BitVec 64 → Nat) (c : Core) (o n : Nat) : Prop :=
  ∀ i < n, tr (c.operand (o + 8 * i)) = tr c.sp + (o + 8 * i)

theorem Core.Linear.mono {o' n n' : Nat} (linear : c.Linear tr o n) (k : Nat)
    (start : o' = o + 8 * k) (le : k + n' ≤ n) : c.Linear tr o' n' := by
  intro i inside
  have place := linear (k + i) (by omega)
  rw [show o + 8 * (k + i) = o' + 8 * i by omega] at place
  exact place

/-- The registers of a list of pairs, in the order in which they are stored. -/
def pairRegs (pairs : List (Reg × Reg)) : List Reg := pairs.flatMap fun p => [p.1, p.2]

theorem pairRegs_cons (p : Reg × Reg) (pairs : List (Reg × Reg)) :
    pairRegs (p :: pairs) = p.1 :: p.2 :: pairRegs pairs := rfl

/-- The stores of pairs of registers at rising offsets from the stack pointer. -/
def storePairs (o : Nat) : List (Reg × Reg) → List Instr
  | [] => []
  | p :: pairs => .stp p.1 p.2 o :: storePairs (o + 16) pairs

/-- The loads of pairs of registers from rising offsets from the stack pointer. -/
def loadPairs (o : Nat) : List (Reg × Reg) → List Instr
  | [] => []
  | p :: pairs => .ldp p.1 p.2 o :: loadPairs (o + 16) pairs

/-- Stores of pairs store the words of the registers. -/
theorem runBlock_storePairs {pairs : List (Reg × Reg)}
    (linear : c.Linear tr o (pairRegs pairs).length) :
    runBlock tr (storePairs o pairs) c m =
      (c, m.storeWords (tr c.sp + o) ((pairRegs pairs).map c.x)) := by
  induction pairs generalizing m o with
  | nil => rfl
  | cons p pairs ih =>
    rw [pairRegs_cons, List.length_cons, List.length_cons] at linear
    have first := linear 0 (by omega)
    have second := linear 1 (by omega)
    rw [Nat.mul_zero, Nat.add_zero] at first
    rw [Nat.mul_one] at second
    simp only [storePairs, runBlock, Instr.exec, first, second]
    rw [ih (linear.mono 2 rfl (by omega)), pairRegs_cons]
    rfl

/-- The registers after loads of words from address `a` on. -/
def loadRegs (m : Mem) (a : Nat) (regs : List Reg) (x : Reg → BitVec 64) : Reg → BitVec 64 :=
  fun r => if r ∈ regs then m.load64 (a + 8 * regs.idxOf r) else x r

theorem loadRegs_cons {a : Nat} {r : Reg} {regs : List Reg} (new : r ∉ regs)
    (x : Reg → BitVec 64) :
    loadRegs m (a + 8) regs (Function.update x r (m.load64 a)) = loadRegs m a (r :: regs) x := by
  funext s
  unfold loadRegs
  by_cases same : s = r
  · subst same
    rw [if_neg new, Function.update_self, if_pos (.head _), List.idxOf_cons_self]
    rfl
  · rw [Function.update_of_ne same, List.idxOf_cons_ne _ (Ne.symm same)]
    by_cases inside : s ∈ regs
    · rw [if_pos inside, if_pos (.tail _ inside), Nat.mul_succ]
      congr 1
      omega
    · rw [if_neg inside, if_neg (by simpa [same] using inside)]

/-- Loads of pairs of different registers load the words at their places. -/
theorem runBlock_loadPairs {pairs : List (Reg × Reg)} (nodup : (pairRegs pairs).Nodup)
    (linear : c.Linear tr o (pairRegs pairs).length) :
    runBlock tr (loadPairs o pairs) c m =
      ({ c with x := loadRegs m (tr c.sp + o) (pairRegs pairs) c.x }, m) := by
  induction pairs generalizing c o with
  | nil => rfl
  | cons p pairs ih =>
    rw [pairRegs_cons] at nodup linear
    rw [List.length_cons, List.length_cons] at linear
    obtain ⟨new₁, nodup₁⟩ := List.nodup_cons.mp nodup
    obtain ⟨new₂, nodup₂⟩ := List.nodup_cons.mp nodup₁
    have first := linear 0 (by omega)
    have second := linear 1 (by omega)
    rw [Nat.mul_zero, Nat.add_zero] at first
    rw [Nat.mul_one] at second
    have later : c.Linear tr (o + 16) (pairRegs pairs).length := linear.mono 2 rfl (by omega)
    simp only [loadPairs, runBlock, Instr.exec, first, second]
    refine (ih (c := (c.set p.1 (m.load64 (tr c.sp + o))).set p.2
      (m.load64 (tr c.sp + (o + 8)))) nodup₂ later).trans ?_
    rw [pairRegs_cons, ← loadRegs_cons new₁, ← loadRegs_cons new₂]
    rfl

end Blocks

end Chinos
