import Chinos.Slob.BestFit

/-!
# A refused break

`slob_malloc` does not look at the answer of `SYS_brk`. If the kernel leaves the break
where it is, `slob_extend` goes on as if the memory were there, and its store of the new
guard lies above the break; so does the first store of `mm_addregion` if already the
first request is refused. The call never returns.
-/

namespace Chinos

/-- A request for memory that `slob_malloc(n)` makes is refused. It is the first one, for
the heap itself, if `g` is 0, and the one for the growth number `g` otherwise. -/
inductive Refused (env : SlobEnv) (n : Nat) : Nat → Slob → Prop
  | init {s : Slob} (fresh : s.isInit = false) (pos : n ≠ 0)
      (refuses : env.Refuses (env.sysBrk s.brk 0)) : Refused env n 0 s
  | here {s s' : Slob} (asks : slobTry env s n = .ok (none, s'))
      (refuses : env.sysBrk s'.brk (s'.cBrk + mmapThreshold) = s'.brk) : Refused env n 1 s
  | later {s s₁ s₂ : Slob} {g : Nat} (asks : slobTry env s n = .ok (none, s₁))
      (grown : slobGrow env s₁ = .ok s₂) (rest : Refused env n g s₂) : Refused env n (g + 1) s

/-- What should come of a refused request: `slob_malloc` returns NULL, it has stored
nothing at or above the break, which is still the old one, and later calls find a heap in
shape. -/
def Survives (env : SlobEnv) (σ : SlobSys) (n : Nat) : Prop :=
  ∃ grants s', slobMalloc env grants σ.slob n = .ok (0, s') ∧
    Wrote (fun a => a < s'.brk) σ.slob s' ∧ SlobInv env ⟨s', σ.live⟩

section Refused

variable {env : SlobEnv} {σ : SlobSys} {s s₁ : Slob} {cs : List Chunk} {n g grants : Nat}

/-- A heap that asks for memory is still as it was. -/
theorem SlobHeap.eq_of_none (heap : SlobHeap env s cs) (small : n < 2 ^ 64)
    (asks : slobTry env s n = .ok (none, s₁)) : s₁ = s := by
  rcases slobTry_cases (K := []) small heap (by simp [Keeps]) with ⟨p, s', -, run, -⟩ | ⟨run, -⟩
  · cases run.symm.trans asks
  · cases run.symm.trans asks
    rfl

/-- In a heap without a chunk that is large enough, the call gets as far as the growth that is
refused. -/
theorem SlobHeap.malloc_refused (answering : env.Answering) (small : n < 2 ^ 64)
    (refused : Refused env n g s) (heap : SlobHeap env s cs)
    (room : env.Low (s.brk + mmapThreshold * g)) (grants : Nat) :
    slobMalloc env grants s n = .error (if grants < g then .diverge else .wild) := by
  induction refused generalizing cs grants with
  | init fresh =>
    rw [heap.init] at fresh
    cases fresh
  | @here s s' asks refuses =>
    cases heap.eq_of_none small asks
    have cBrk : s.cBrk = s.brk := by
      obtain ⟨-, ⟨xs, rep⟩, -⟩ := heap
      exact rep.cBrk
    rw [cBrk] at refuses
    rw [Nat.mul_one] at room
    cases grants with
    | zero => exact slobMalloc_zero_of_none asks
    | succ grants =>
      rw [slobMalloc_succ_of_none asks, heap.slobGrow_refused room refuses, if_neg (by omega)]
      rfl
  | @later s s' s₂ g asks grown rest ih =>
    cases heap.eq_of_none small asks
    have more : s.brk + mmapThreshold + mmapThreshold * g = s.brk + mmapThreshold * (g + 1) := by
      ring
    have room₁ : env.Low (s.brk + mmapThreshold) := Nat.le_trans (by omega) room
    rcases answering.cases s.brk with refuses | granted
    · -- then the growth would not have returned
      rw [heap.slobGrow_refused room₁ refuses] at grown
      cases grown
    obtain ⟨s₃, grown', -, brk₃, -, heap₃⟩ :=
      slobGrow_heap (K := []) granted heap room₁ (by simp [Keeps])
    cases grown.symm.trans grown'
    cases grants with
    | zero => exact slobMalloc_zero_of_none asks
    | succ grants =>
      rw [slobMalloc_succ_of_none asks, grown, ok_bind,
        ih heap₃ (by rw [brk₃, more]; exact room) grants]
      simp only [Nat.succ_lt_succ_iff]

theorem Refused.pos (refused : Refused env n g s) : n ≠ 0 := by
  have served : ∀ {s s₁ : Slob}, slobTry env s n = .ok (none, s₁) → n ≠ 0 := by
    intro s s₁ asks zero
    cases asks.symm.trans (slobTry_of_zero s zero)
  cases refused with
  | init fresh pos => exact pos
  | here asks => exact served asks
  | later asks => exact served asks

/-- Once the heap is made, a refusal is one of a growth. -/
theorem Refused.of_init (refused : Refused env n g s) (run : slobInit env s = .ok s₁)
    (init : s₁.isInit = true) (granted : ¬ env.Refuses (env.sysBrk s.brk 0)) :
    Refused env n g s₁ := by
  have same : slobTry env s n = slobTry env s₁ n :=
    slobTryOn_of_init refused.pos run init
  cases refused with
  | init fresh pos refuses => exact absurd refuses granted
  | here asks refuses => exact .here (same ▸ asks) refuses
  | later asks grown rest => exact .later (same ▸ asks) grown rest

/-- The call does not return, whatever the state it is made in. -/
theorem SlobInv.malloc_refused (answering : env.Answering) (small : n < 2 ^ 64)
    (inv : SlobInv env σ) (refused : Refused env n g σ.slob)
    (room : env.Low (σ.slob.top env + mmapThreshold * g)) (grants : Nat) :
    slobMalloc env grants σ.slob n = .error (if grants < g then .diverge else .wild) := by
  rcases inv with start | ⟨cs, inv⟩
  · have query : env.sysBrk σ.slob.brk 0 = env.startBrk := by rw [answering.query, start.brk]
    rcases answering.cases env.startBrk with refuses | granted
    · have stops := slobInit_refused (answering.query _) start.fresh start.brk refuses
      have never : ∀ r, slobTry env σ.slob n ≠ .ok r := by
        intro r found
        cases found.symm.trans (slobTryOn_of_init_error refused.pos stops)
      rw [slobMalloc_of_init_error refused.pos stops]
      cases refused with
      | init => rw [if_neg (by omega)]
      | here asks => exact absurd asks (never _)
      | later asks => exact absurd asks (never _)
    · obtain ⟨s₁, xs, run, -, init, brk, rep⟩ :=
        slobInit_spec (answering.query _) start.fresh start.brk granted
      have heap₁ : SlobHeap env s₁ [env.firstChunk] := ⟨init, ⟨xs, rep⟩, .singleton _⟩
      rw [Slob.top, if_neg (by simp [start.fresh]), ← brk] at room
      rw [slobMalloc_of_init refused.pos run init]
      have refused₁ := refused.of_init run init (by rw [query]; exact granted.not_refuses)
      exact heap₁.malloc_refused answering small refused₁ room grants
  · rw [Slob.top, if_pos inv.heap.init] at room
    exact inv.heap.malloc_refused answering small refused room grants

/-- A refused request is never survived: in every heap that calls lead to, `slob_malloc`
stores above the break. This holds for programs that keep `slob` outside the heap
(`SlobEnv.apart`) and whose heap begins at a multiple of 32 bytes
(`SlobEnv.startBrk_aligned`). -/
theorem refused_break_not_survived (answering : env.Answering) (reach : SlobReach env σ)
    (small : n < 2 ^ 64) (refused : Refused env n g σ.slob)
    (room : env.Low (σ.slob.top env + mmapThreshold * g)) :
    (∀ grants, slobMalloc env grants σ.slob n =
      .error (if grants < g then .diverge else .wild)) ∧ ¬ Survives env σ n := by
  have stops := (reach.inv answering).malloc_refused answering small refused room
  refine ⟨stops, ?_⟩
  rintro ⟨grants, s', run, -⟩
  cases run.symm.trans (stops grants)

end Refused

/-! ## A kernel with little memory -/

/-- A program like `slobDemo`, on a kernel that has 128 KiB for it. -/
def slobTight : SlobEnv :=
  { slobDemo with sysBrk := fun brk addr => if addr = 0 ∨ 0x520000 < addr then brk else addr }

theorem slobTight_answering : slobTight.Answering := by
  intro brk addr
  by_cases more : addr = 0 ∨ 0x520000 < addr
  · exact .inl (if_pos more)
  · exact .inr ⟨fun zero => more (.inl zero), if_neg more⟩

theorem slobTight_start : SlobStart slobTight slobDemoStart := ⟨rfl, rfl, rfl⟩

/-- A request of 200000 bytes asks for memory that the kernel does not have. -/
theorem slobTight_refused : Refused slobTight 200000 1 slobDemoStart.slob := by
  obtain ⟨s, xs, run, -, init, brk, rep⟩ := slobInit_spec (slobTight_answering.query _)
    slobTight_start.fresh slobTight_start.brk (by unfold SlobEnv.Grants; decide)
  have heap : SlobHeap slobTight s [slobTight.firstChunk] := ⟨init, ⟨xs, rep⟩, .singleton _⟩
  have large : ∀ c ∈ [slobTight.firstChunk], c.used = false → c.size < blockSize 200000 := by
    decide
  have first : slobTry slobTight slobDemoStart.slob 200000 = slobTry slobTight s 200000 :=
    slobTryOn_of_init (by decide) run init
  refine .here (first.trans (heap.try_none (by decide) (by decide) (by decide) large)) ?_
  rw [rep.cBrk, brk]
  decide

/-- Its first `slob_malloc` of 200000 bytes gets 128 KiB, is refused the next 128 KiB, and
stores to them all the same. -/
theorem slobTight_stores_above : SlobStart slobTight slobDemoStart ∧
    slobTight.Refuses 0x520000 ∧
    (∀ grants, 0 < grants →
      slobMalloc slobTight grants slobDemoStart.slob 200000 = .error .wild) ∧
    ¬ Survives slobTight slobDemoStart 200000 := by
  have room : slobTight.Low (slobDemoStart.slob.top slobTight + mmapThreshold * 1) := by
    unfold SlobEnv.Low
    decide
  have stops := SlobInv.malloc_refused slobTight_answering (by decide) (.inl slobTight_start)
    slobTight_refused room
  refine ⟨slobTight_start, by unfold SlobEnv.Refuses; decide, fun grants pos => ?_, ?_⟩
  · rw [stops, if_neg (by omega)]
  · rintro ⟨grants, s', run, -⟩
    cases run.symm.trans (stops grants)

theorem refused_break_not_survived_sample : ¬ Survives slobTight slobDemoStart 200000 := by
  have room : slobTight.Low (slobDemoStart.slob.top slobTight + mmapThreshold * 1) := by
    unfold SlobEnv.Low
    decide
  exact (refused_break_not_survived slobTight_answering
    ⟨slobDemoStart, slobTight_start, .refl⟩ (by decide) slobTight_refused room).2

end Chinos
