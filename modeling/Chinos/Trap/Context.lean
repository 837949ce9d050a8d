import Chinos.Trap.Model

/-!
# Saved registers

What the assembly does, in terms of the registers of a task: `store_context` writes them to
the context that `SP_EL1` points to, and `restore_current_context` loads those of the current
task. The objects that exceptions write are in the data and the BSS of the kernel, apart from
its page tables.
-/

namespace Chinos

/-! ## Objects of the image -/

/-- The `n` bytes at `v` are in the data or the BSS of the kernel, and in no PGD. -/
structure Image.Object (b : Image) (v : U64) (n : Nat) : Prop where
  low : b.linker.rodataEnd ≤ v.toNat
  high : v.toNat + n ≤ b.linker.bssEnd
  kernelPgd : v.toNat + n ≤ b.layout.kernelPgd.toNat ∨
    b.layout.kernelPgd.toNat + 2 ^ 12 ≤ v.toNat
  userPgd : v.toNat + n ≤ b.layout.userPgd.toNat ∨ b.layout.userPgd.toNat + 2 ^ 12 ≤ v.toNat

section Objects

variable {b : Image} {v w : U64} {n k i x : Nat}

theorem Image.context_object (b : Image) (t : TaskId) :
    b.Object (b.context t) (8 * regsCount) where
  low := by
    have data := b.linker.data_lt
    have low := b.context_low t
    omega
  high := b.context_high t
  kernelPgd := b.context_kernelPgd t
  userPgd := b.context_userPgd t

/-- What is in the data is below the PGDs. -/
theorem Image.object_of_data (low : b.linker.rodataEnd ≤ v.toNat)
    (high : v.toNat + n ≤ b.linker.dataEnd) : b.Object v n where
  low := low
  high := high.trans b.linker.bss_lt.le
  kernelPgd := .inl (high.trans b.linker.kernelPgd_bss.1)
  userPgd := .inl (high.trans b.linker.userPgd_bss.1)

theorem Image.irqStack_object (b : Image) : b.Object b.irqStack irqStackSize :=
  object_of_data b.irqStack_low b.irqStack_high

theorem Image.bootSp_object (b : Image) : b.Object b.bootSp (8 * regsCount) :=
  object_of_data b.bootSp_low b.bootSp_high

theorem Image.Object.ram (object : b.Object v n) : ramVbase.toNat ≤ v.toNat := by
  have code := b.linker.code_ram
  have codeEnd := b.linker.code_lt
  have rodata := b.linker.rodata_lt
  have low := object.low
  omega

theorem Image.Object.phys_eq (object : b.Object v n) :
    phys v = v.toNat - ramVbase.toNat + ramPbase.toNat :=
  Chinos.phys_eq object.ram

/-- The bytes of an object are one after the other in physical memory. -/
theorem Image.Object.phys_add (object : b.Object v n) (inside : i < n) :
    phys (v + BitVec.ofNat 64 i) = phys v + i := by
  have ram := object.ram
  have high := object.high
  have start := b.linker.bss_le
  have user := b.layout.user_le
  have heap := b.layout.heap_le
  have top := b.layout.heap_ram
  have sum : (v + BitVec.ofNat 64 i).toNat = v.toNat + i := by
    rw [toNat_ramVbase] at top
    rw [BitVec.toNat_add, BitVec.toNat_ofNat]
    omega
  rw [object.phys_eq, Chinos.phys_eq (by omega), sum]
  omega

/-- Objects that do not overlap do not overlap in physical memory. -/
theorem Image.Object.apart (object : b.Object v n) (other : b.Object w k)
    (apart : v.toNat + n ≤ w.toNat ∨ w.toNat + k ≤ v.toNat) :
    phys v + n ≤ phys w ∨ phys w + k ≤ phys v := by
  have ram := object.ram
  have ram' := other.ram
  rw [object.phys_eq, other.phys_eq]
  omega

theorem inPage_iff_of_ram {pgd : U64} (ram : ramVbase ≤ pgd) :
    linearView.InPage pgd x ↔ pgd.toNat - ramVbase.toNat + ramPbase.toNat ≤ x ∧
      x < pgd.toNat - ramVbase.toNat + ramPbase.toNat + 2 ^ 12 := by
  have place : (linearView.toPhys pgd).toNat = pgd.toNat - ramVbase.toNat + ramPbase.toNat :=
    Chinos.phys_eq (BitVec.le_def.mp ram)
  unfold TableView.InPage
  rw [place]

/-- The bytes of an object are the kernel's to keep, and in neither PGD. -/
theorem Image.Object.spared (object : b.Object v n) (others : List Block) (low : phys v ≤ x)
    (high : x < phys v + n) : Spared b.layout others x := by
  have ram := object.ram
  have stop := object.high
  have start := b.linker.bss_le
  have user := b.layout.user_le
  have heap := b.layout.heap_le
  rw [object.phys_eq] at low high
  refine .image (by omega) (by omega) fun inPage => ?_
  rw [inPage_iff_of_ram b.layout.userPgd_ram] at inPage
  have ramUser := BitVec.le_def.mp b.layout.userPgd_ram
  have apart := object.userPgd
  omega

theorem Image.Object.not_kernelPgd (object : b.Object v n) (low : phys v ≤ x)
    (high : x < phys v + n) : ¬ linearView.InPage b.layout.kernelPgd x := by
  have ram := object.ram
  rw [object.phys_eq] at low high
  rw [inPage_iff_of_ram b.layout.kernelPgd_ram]
  have ramKernel := BitVec.le_def.mp b.layout.kernelPgd_ram
  have apart := object.kernelPgd
  omega

/-- The contexts, the stack of the handlers and the place where the first exception stores
are apart from each other, but for the last two. -/
theorem Image.contexts_phys (b : Image) {t u : TaskId} (ne : t ≠ u) :
    phys (b.context t) + 8 * regsCount ≤ phys (b.context u) ∨
      phys (b.context u) + 8 * regsCount ≤ phys (b.context t) := by
  refine (b.context_object t).apart (b.context_object u) ?_
  have apart := b.contexts_apart
  cases t <;> cases u
  · exact absurd rfl ne
  · exact apart
  · exact apart.symm
  · exact absurd rfl ne

theorem Image.Object.data_context (object : b.Object v n) (high : v.toNat + n ≤ b.linker.dataEnd)
    (t : TaskId) : phys v + n ≤ phys (b.context t) := by
  have low := b.context_low t
  have ram := object.ram
  rw [object.phys_eq, (b.context_object t).phys_eq]
  omega

theorem Image.bootSp_ne_context (b : Image) (t : TaskId) : b.bootSp ≠ b.context t := by
  intro same
  have high := b.bootSp_high
  have low := b.context_low t
  rw [same] at high
  unfold regsCount at high
  omega

end Objects

/-! ## The registers of a task -/

/-- The registers of the task, with another address to go on at. -/
def Thread.withPc (t : Thread) (pc : U64) : Thread := { t with pc }

@[simp] theorem Thread.withPc_pc (t : Thread) : t.withPc t.pc = t := rfl

/-- The registers of the task that are saved in memory at `ctx`. -/
def Mem.thread (m : Mem) (ctx : U64) : Thread :=
  ⟨fun r => m.reg ctx r, m.reg ctx 32, m.reg ctx 31, m.reg ctx 33⟩

/-- The core once the task has been resumed from the context at `sp`. -/
def Thread.core (t : Thread) (sp : U64) : Core := ⟨t.x, sp, t.sp, t.pc, t.pstate, t.pc, t.pstate⟩

@[simp] theorem Thread.core_thread (t : Thread) (sp : U64) : (t.core sp).thread = t := rfl

@[simp] theorem Thread.core_sp (t : Thread) (sp : U64) : (t.core sp).sp = sp := rfl

/-- The 34 words that `store_context` writes, in the order of `struct context`. -/
def Core.words (c : Core) : List U64 := (List.finRange 31).map c.x ++ [c.elr, c.spEl0, c.spsr]

@[simp] theorem Core.length_words (c : Core) : c.words.length = regsCount := by
  simp [Core.words, regsCount]

section Words

variable {m m' : Mem} {ctx v : U64} {i j : Nat}

theorem Mem.reg_setReg (m : Mem) (ctx v : U64) (i j : Nat) :
    (m.setReg ctx i v).reg ctx j = if i = j then v else m.reg ctx j := by
  unfold Mem.setReg Mem.reg
  split
  · subst i
    exact load64_store64_same
  · exact load64_store64_ne (by omega)

/-- The registers that are saved at `ctx` depend on the 272 bytes of the context only. -/
theorem Mem.thread_congr
    (same : ∀ x, phys ctx ≤ x → x < phys ctx + 8 * regsCount → m' x = m x) :
    m'.thread ctx = m.thread ctx := by
  have word : ∀ i < regsCount, m'.reg ctx i = m.reg ctx i := by
    intro i inside
    exact load64_congr fun x low high => same x (by omega) (by omega)
  unfold Mem.thread
  rw [word 32 (by decide), word 31 (by decide), word 33 (by decide)]
  congr 1
  funext r
  exact word r (r.isLt.trans (by decide))

theorem Mem.thread_setReg_pc : (m.setReg ctx 31 v).thread ctx = (m.thread ctx).withPc v := by
  unfold Mem.thread Thread.withPc
  simp only [Mem.reg_setReg]
  congr 1
  funext r
  rw [if_neg (by omega)]

theorem Mem.thread_setReg_sp : (m.setReg ctx 32 v).thread ctx = { m.thread ctx with sp := v } := by
  unfold Mem.thread
  simp only [Mem.reg_setReg]
  congr 1
  funext r
  rw [if_neg (by omega)]

theorem Mem.thread_setReg_x0 :
    (m.setReg ctx 0 v).thread ctx =
      { m.thread ctx with x := Function.update (m.thread ctx).x 0 v } := by
  unfold Mem.thread
  simp only [Mem.reg_setReg]
  congr 1
  funext r
  by_cases zero : r = 0
  · subst zero
    rw [Function.update_self]
    rfl
  · rw [Function.update_of_ne zero, if_neg]
    intro eq
    exact zero (Fin.ext eq.symm)

/-- A store to a context changes bytes of that context. -/
theorem Mem.setReg_of_outside {x : Nat} (inside : i < regsCount)
    (outside : x < phys ctx ∨ phys ctx + 8 * regsCount ≤ x) : m.setReg ctx i v x = m x :=
  store64_of_outside (by omega)

/-- The context that `task_create` makes has the entry point, the end of the stack and the mode of
the task, and zeros otherwise. -/
theorem thread_taskCreateContext {entry stack size : U64} {type : TaskType} :
    (taskCreateContext ctx entry stack size type m).thread ctx =
      ⟨fun _ => 0, stack + size, entry, pstateOf type⟩ := by
  unfold taskCreateContext contextSetStack contextSetEntry
  rw [Mem.thread_setReg_sp, Mem.thread_setReg_pc]
  have zero : ∀ i < regsCount, (m.fill (phys ctx) (8 * regsCount) 0).reg ctx i = 0 := by
    intro i inside
    exact Mem.load64_eq_zero fun x low high => Mem.fill_of_inside (by omega) (by omega)
  unfold contextInit Mem.thread Thread.withPc
  simp only [Mem.reg_setReg]
  congr 1
  funext r
  rw [if_neg (by omega)]
  exact zero r (r.isLt.trans (by decide))

theorem taskCreateContext_of_outside {entry stack size : U64} {type : TaskType} {x : Nat}
    (outside : x < phys ctx ∨ phys ctx + 8 * regsCount ≤ x) :
    taskCreateContext ctx entry stack size type m x = m x := by
  unfold taskCreateContext contextSetStack contextSetEntry contextInit
  rw [Mem.setReg_of_outside (by decide) outside, Mem.setReg_of_outside (by decide) outside,
    Mem.setReg_of_outside (by decide) outside, Mem.fill_of_outside outside]

/-- The words of a core read back as the task it was running. -/
theorem Mem.thread_storeWords (c : Core) :
    (m.storeWords (phys ctx) c.words).thread ctx = ⟨c.x, c.spEl0, c.elr, c.spsr⟩ := by
  have word : ∀ i (inside : i < c.words.length),
      (m.storeWords (phys ctx) c.words).reg ctx i = c.words[i] := fun i inside =>
    load64_storeWords inside
  have count := c.length_words
  have first : ∀ r : Reg, c.words[(r : Nat)]? = some (c.x r) := by
    intro r
    unfold Core.words
    rw [List.getElem?_append_left (by simp)]
    simp
  have last : ∀ k < 3, c.words[31 + k]? = [c.elr, c.spEl0, c.spsr][k]? := by
    intro k small
    unfold Core.words
    rw [List.getElem?_append_right (by simp)]
    congr 1
    simp
  refine Thread.ext ?_ ?_ ?_ ?_
  · funext r
    have inside : (r : Nat) < c.words.length := by
      rw [count]
      exact r.isLt.trans (by decide)
    refine (word r inside).trans ?_
    exact Option.some.inj ((List.getElem?_eq_getElem _).symm.trans (first r))
  · refine (word 32 (by rw [count]; decide)).trans ?_
    exact Option.some.inj ((List.getElem?_eq_getElem _).symm.trans (last 1 (by decide)))
  · refine (word 31 (by rw [count]; decide)).trans ?_
    exact Option.some.inj ((List.getElem?_eq_getElem _).symm.trans (last 0 (by decide)))
  · refine (word 33 (by rw [count]; decide)).trans ?_
    exact Option.some.inj ((List.getElem?_eq_getElem _).symm.trans (last 2 (by decide)))

end Words

/-! ## The code -/

section Code

variable {b : Image} {c : Core} {m : Mem}

/-- The registers `x0` to `x29` in the pairs in which they are stored and loaded. -/
def lowPairs : List (Reg × Reg) :=
  [(0, 1), (2, 3), (4, 5), (6, 7), (8, 9), (10, 11), (12, 13), (14, 15), (16, 17), (18, 19),
    (20, 21), (22, 23), (24, 25), (26, 27), (28, 29)]

theorem Image.Object.linear (object : b.Object c.sp (8 * regsCount)) :
    c.Linear phys 0 regsCount := by
  intro i inside
  exact object.phys_add (by omega)

theorem storeContext_eq : storeContext = storePairs 0 lowPairs ++
    ([.mrs 9 .elrEl1, .mrs 10 .spEl0, .mrs 11 .spsrEl1] ++ storePairs 240 [(30, 9), (10, 11)]) :=
  rfl

theorem runBlock_setIrqStack (irqStack : U64) :
    runBlock phys (setIrqStack irqStack) c m =
      ({ c with
        x := Function.update (Function.update (Function.update c.x 0 irqStack) 1
          (BitVec.ofNat 64 irqStackSize)) 0 (irqStack + BitVec.ofNat 64 irqStackSize)
        sp := irqStack + BitVec.ofNat 64 irqStackSize }, m) := by
  have zero : Function.update (Function.update c.x 0 irqStack) 1 (BitVec.ofNat 64 irqStackSize) 0 =
      irqStack := by
    rw [Function.update_of_ne (by decide), Function.update_self]
  simp only [setIrqStack, runBlock, Instr.exec, Core.set, Function.update_self, zero]

/-- `store_context` stores the words of the core, and `set_irq_stack` then takes the stack
pointer to the end of the stack. -/
theorem runBlock_entry (object : b.Object c.sp (8 * regsCount)) (irqStack : U64) :
    ∃ x, runBlock phys (storeContext ++ setIrqStack irqStack) c m =
      ({ c with x, sp := irqStack + BitVec.ofNat 64 irqStackSize },
        m.storeWords (phys c.sp) c.words) := by
  have linear := object.linear
  rw [storeContext_eq, List.append_assoc, List.append_assoc, runBlock_append,
    runBlock_storePairs (linear.mono 0 rfl (by decide)), runBlock_append]
  -- after the three moves, the last four words are those of `lr` and the system registers
  generalize moved : runBlock phys [.mrs 9 .elrEl1, .mrs 10 .spEl0, .mrs 11 .spsrEl1] c
    (m.storeWords (phys c.sp + 0) ((pairRegs lowPairs).map c.x)) = after
  obtain ⟨c₁, m₁⟩ := after
  have eq_m : m₁ = m.storeWords (phys c.sp + 0) ((pairRegs lowPairs).map c.x) :=
    (congrArg Prod.snd moved).symm
  have eq_c : c₁ = ((c.set 9 c.elr).set 10 c.spEl0).set 11 c.spsr :=
    (congrArg Prod.fst moved).symm
  have linear₁ : c₁.Linear phys 240 4 := by
    rw [eq_c]
    exact linear.mono 30 rfl (by decide)
  simp only
  rw [runBlock_append, runBlock_storePairs linear₁, runBlock_setIrqStack]
  refine ⟨Function.update (Function.update (Function.update c₁.x 0 irqStack) 1
    (BitVec.ofNat 64 irqStackSize)) 0 (irqStack + BitVec.ofNat 64 irqStackSize), ?_⟩
  have words : c.words = (pairRegs lowPairs).map c.x ++
      (pairRegs [(30, 9), (10, 11)]).map c₁.x := by
    rw [eq_c]
    rfl
  have length : 8 * ((pairRegs lowPairs).map c.x).length = 240 := by
    rw [List.length_map]
    rfl
  rw [words, Mem.storeWords_append, eq_m, length, Nat.add_zero, show c₁.sp = c.sp by rw [eq_c]; rfl]
  simp only [eq_c, Core.set]

theorem restoreCode_eq (r : Reg) : restoreCode r =
    [.movSp r, .ldr 9 248, .msr .elrEl1 9, .ldp 10 11 256, .msr .spEl0 10, .msr .spsrEl1 11] ++
      (loadPairs 0 lowPairs ++ [.ldr 30 240]) := rfl

/-- The `asm` loads the registers from the context that its operand points to. -/
theorem runBlock_restore {r : Reg} {ctx : U64} (object : b.Object ctx (8 * regsCount))
    (operand : c.x r = ctx) :
    runBlock phys (restoreCode r) c m =
      ({ (m.thread ctx).core ctx with pc := c.pc, pstate := c.pstate }, m) := by
  have word : ∀ i < regsCount, m.load64 (phys (ctx + BitVec.ofNat 64 (8 * i))) = m.reg ctx i := by
    intro i inside
    rw [object.phys_add (by omega)]
    rfl
  rw [restoreCode_eq, runBlock_append]
  generalize moved : runBlock phys [.movSp r, .ldr 9 248, .msr .elrEl1 9, .ldp 10 11 256,
    .msr .spEl0 10, .msr .spsrEl1 11] c m = after
  obtain ⟨c₁, m₁⟩ := after
  have eq_m : m₁ = m := (congrArg Prod.snd moved).symm
  have eq_c : c₁ = { c with
      x := c₁.x
      sp := ctx
      elr := m.reg ctx 31
      spEl0 := m.reg ctx 32
      spsr := m.reg ctx 33 } := by
    have first := congrArg Prod.fst moved
    simp only [runBlock, Instr.exec, Core.set, Core.setSys, Core.operand, operand,
      Function.update_self] at first
    rw [← first, ← word 31 (by decide), ← word 32 (by decide), ← word 33 (by decide)]
    rfl
  subst eq_m
  have linear : c₁.Linear phys 0 regsCount := by
    rw [eq_c]
    exact Image.Object.linear (c := { c with sp := ctx }) object
  have sp_eq : c₁.sp = ctx := by rw [eq_c]
  simp only
  rw [runBlock_append, runBlock_loadPairs (by decide) (linear.mono 0 rfl (by decide))]
  simp only [runBlock, Instr.exec, Core.set, Core.operand, sp_eq]
  have last : m₁.load64 (phys (ctx + BitVec.ofNat 64 240)) = m₁.reg ctx 30 := word 30 (by decide)
  have regs : Function.update (loadRegs m₁ (phys ctx + 0) (pairRegs lowPairs) c₁.x) 30
      (m₁.reg ctx 30) = (m₁.thread ctx).x := by
    funext s
    by_cases lr : s = 30
    · subst lr
      rw [Function.update_self]
      rfl
    · have listed : ∀ s : Reg, s ≠ 30 → s ∈ pairRegs lowPairs ∧
          (pairRegs lowPairs).idxOf s = s := by decide
      obtain ⟨inside, place⟩ := listed s lr
      rw [Function.update_of_ne lr, loadRegs, if_pos inside, place, Nat.add_zero]
      rfl
  rw [last, regs, eq_c]
  simp only [Thread.core, Mem.thread]

end Code

/-- The machine with other registers of the core, and everything else as it was. -/
def Kernel.withCore (k : Kernel) (core : Core) : Kernel := { k with core }

section Machine

variable (k : Kernel) (mem mem' : Mem) (core : Core)

@[simp] theorem Kernel.mem_withMem : (k.withMem mem).mem = mem := rfl

@[simp] theorem Kernel.withMem_withMem : (k.withMem mem).withMem mem' = k.withMem mem' := rfl

@[simp] theorem Kernel.sched_withMem : (k.withMem mem).sched = k.sched := rfl

@[simp] theorem Kernel.ttbr0Base_withMem : (k.withMem mem).ttbr0Base = k.ttbr0Base := rfl

@[simp] theorem Kernel.ttbr0Base_withCore : (k.withCore core).ttbr0Base = k.ttbr0Base := rfl

@[simp] theorem Kernel.mm_withMem : (k.withMem mem).root.mm = k.root.mm := rfl

@[simp] theorem Kernel.tables_withMem : (k.withMem mem).root.pt.tables = k.root.pt.tables := rfl

@[simp] theorem Kernel.root_withCore : (k.withCore core).root = k.root := rfl

@[simp] theorem Kernel.core_withCore : (k.withCore core).core = core := rfl

@[simp] theorem Kernel.mem_withCore : (k.withCore core).mem = k.mem := rfl

@[simp] theorem Kernel.sched_withCore : (k.withCore core).sched = k.sched := rfl

/-- `restore_current_context` puts the registers that are saved for the current task on the core,
and leaves everything else alone. -/
theorem restoreCurrentContext_eq (b : Image) (r : Reg) :
    restoreCurrentContext b r k =
      k.withCore ((k.mem.thread (b.context k.sched.current)).core
        (b.context k.sched.current)) := by
  unfold restoreCurrentContext
  simp only
  rw [runBlock_restore (b.context_object k.sched.current)
    (c := k.core.set r (b.context k.sched.current)) (Function.update_self _ _ _)]
  rfl

/-- The memory at the first line of C, with the registers saved and the stack of the handlers in
use. -/
def entered (b : Image) (scratch : Scratch) (trap : Trap) (k : Kernel) : Mem :=
  (k.mem.storeWords (phys k.core.sp) (takeException trap k.core).words).blit (phys b.irqStack)
    irqStackSize scratch.stack

theorem enterKernel_eq {b : Image} (scratch : Scratch) (trap : Trap)
    (object : b.Object k.core.sp (8 * regsCount)) :
    ∃ core, enterKernel b scratch trap k =
      (k.withMem (entered b scratch trap k)).withCore core := by
  unfold enterKernel
  obtain ⟨x, code⟩ := runBlock_entry (c := takeException trap k.core) (m := k.mem) object b.irqStack
  simp only
  rw [code]
  exact ⟨_, rfl⟩

end Machine

end Chinos
