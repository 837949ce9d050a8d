import Chinos.Slob.Safety

/-!
# Which chunk a request is served from

`slob_malloc` takes the block from the start of a smallest free chunk that is large
enough. Only if there is none does the heap grow, by 128 KiB at a time, until the free
chunk at its end is large enough. A block that is freed right after it was handed out
leaves the chunks and the order of the list as they were: it comes from the first chunk
of its size, and `mm_addfreechunk` puts it back before the others.
-/

namespace Chinos

/-- `c` is a smallest free chunk of at least `k` bytes. -/
structure BestFit (cs : List Chunk) (k : Nat) (c : Chunk) : Prop where
  free : c.used = false
  enough : k ≤ c.size
  least : ∀ d ∈ cs, d.used = false → k ≤ d.size → c.size ≤ d.size

section BestFit

variable {env : SlobEnv} {s s' : Slob} {cs as bs : List Chunk} {xs : List Nat} {b c d : Chunk}
  {n k p g grants : Nat}

/-! ## A request that some free chunk can serve -/

theorem HeapRep.bestFit (rep : HeapRep env s cs xs []) (inside : c ∈ cs) (free : c.used = false)
    (fit : FirstFit env s xs k c.addr) : BestFit cs k c := by
  have size : ∀ d ∈ cs, s.fld .size d.addr = d.size := fun d inD => rep.size_eq (mem_heapChunks inD)
  refine ⟨free, (size c inside) ▸ fit.enough, fun d inD freeD enough => ?_⟩
  have listed : d.addr ∈ xs := (rep.mem_iff _).mpr (.inr ⟨d, inD, freeD, rfl, by simp⟩)
  have least := fit.least d.addr listed (by rwa [size d inD])
  rwa [size c inside, size d inD] at least

section Serve

variable (heap : SlobHeap env s cs) (small : n < 2 ^ 64) (pos : 0 < n)
  (noOverflow : n ≤ blockSize n)
include heap small pos noOverflow

/-- The block is cut off the start of a best fit; the heap does not grow. -/
theorem SlobHeap.malloc_fits (fits : ∃ c ∈ cs, c.used = false ∧ blockSize n ≤ c.size) :
    ∃ as c bs s', cs = as ++ c :: bs ∧ BestFit cs (blockSize n) c ∧
      (c.size = blockSize n ∨ blockSize n + 32 ≤ c.size) ∧
      (∀ grants, slobMalloc env grants s n = .ok (c.addr + sizeofMmAllocnode, s')) ∧
      s'.brk = s.brk ∧ s'.heapEnd = s.heapEnd ∧
      SlobHeap env s' (as ++ taken c (blockSize n) ++ bs) := by
  obtain ⟨init, ⟨xs, rep⟩, coalesced⟩ := heap
  rcases slobTry_spec (K := []) init rep small (by simp [Keeps]) with ⟨refused, -⟩ | ⟨-, -, found⟩
  · omega
  rcases found with
    ⟨as, c, bs, s', xs', rfl, free, enough, run, touched, rep', fit, -⟩ | ⟨-, none⟩
  · have inC : c ∈ as ++ c :: bs := by simp
    have whole := (rep.placed inC).aligned
    have aligned : 32 ∣ blockSize n := by
      rcases blockSize_spec small with wraps | ⟨-, aligned, -⟩
      · omega
      · exact aligned
    refine ⟨as, c, bs, s', rfl, rep.bestFit inC free fit, by omega,
      fun grants => slobMalloc_of_some run, touched.brk, touched.heapEnd,
      touched.isInit.trans init, ⟨xs', rep'⟩, coalesced.take free _⟩
  · obtain ⟨c, inC, free, enough⟩ := fits
    exact absurd (none c inC free) (not_lt.mpr enough)

/-- If no free chunk is large enough, the search finds nothing and changes nothing, so the heap
has to grow. -/
theorem SlobHeap.try_none (none : ∀ c ∈ cs, c.used = false → c.size < blockSize n) :
    slobTry env s n = .ok (Option.none, s) := by
  obtain ⟨init, ⟨xs, rep⟩, -⟩ := heap
  rcases slobTry_spec (K := []) init rep small (by simp [Keeps]) with ⟨refused, -⟩ | ⟨-, -, found⟩
  · omega
  rcases found with ⟨as, c, bs, s', xs', rfl, free, enough, -⟩ | ⟨run, -⟩
  · exact absurd (none c (by simp) free) (not_lt.mpr enough)
  · exact run

end Serve

/-! ## Growth -/

/-- Growing the heap by `m` and then by `m'` leaves the same chunks as growing it by `m + m'` at
once. -/
theorem mergePrev_again (a a' m m' : Nat) :
    mergePrev ((mergePrev cs ⟨a, m, false⟩).1 ++ [(mergePrev cs ⟨a, m, false⟩).2])
      ⟨a', m', false⟩ = mergePrev cs ⟨a, m + m', false⟩ := by
  rcases List.eq_nil_or_concat cs with rfl | ⟨as, e, rfl⟩
  · simp [mergePrev]
  · by_cases used : e.used = true
    · simp [mergePrev, used]
    · simp [mergePrev, used, Nat.add_assoc]

theorem mergePrev_size (cs : List Chunk) (a m : Nat) :
    (mergePrev cs ⟨a, m, false⟩).2.size = trailing cs + m := by
  rcases List.eq_nil_or_concat cs with rfl | ⟨as, e, rfl⟩
  · simp [mergePrev, trailing]
  · by_cases used : e.used = true
    · simp [mergePrev, trailing, used]
    · simp [mergePrev, trailing, used]

section Grow

variable (granting : env.Granting) (small : n < 2 ^ 64) (pos : 0 < n)
  (noOverflow : n ≤ blockSize n)
include granting small pos noOverflow

/-- After one growth the last chunk is free and has 128 KiB more, and the call goes on with the
search in that heap. -/
theorem SlobHeap.malloc_grows_once (heap : SlobHeap env s cs)
    (none : ∀ c ∈ cs, c.used = false → c.size < blockSize n)
    (room : env.Low (s.brk + mmapThreshold)) :
    ∃ s₁, slobMalloc env 0 s n = .error .diverge ∧
      (∀ grants, slobMalloc env (grants + 1) s n = slobMalloc env grants s₁ n) ∧
      s₁.brk = s.brk + mmapThreshold ∧ s₁.heapEnd = s.heapEnd + mmapThreshold ∧
      SlobHeap env s₁ ((mergePrev cs ⟨s.heapEnd, mmapThreshold, false⟩).1 ++
        [(mergePrev cs ⟨s.heapEnd, mmapThreshold, false⟩).2]) := by
  have run := heap.try_none small pos noOverflow none
  obtain ⟨s₁, grown, -, brk₁, heapEnd₁, heap₁⟩ :=
    slobGrow_heap (K := []) (granting.grants _) heap room (by simp [Keeps])
  refine ⟨s₁, slobMalloc_zero_of_none run, fun grants => ?_, brk₁, heapEnd₁, heap₁⟩
  rw [slobMalloc_succ_of_none run, grown, ok_bind]

/-- The heap grows `g + 1` times, and the block is cut off the chunk at its end. -/
theorem SlobHeap.malloc_grows (heap : SlobHeap env s cs)
    (none : ∀ c ∈ cs, c.used = false → c.size < blockSize n)
    (short : ∀ j ≤ g, trailing cs + mmapThreshold * j < blockSize n)
    (enough : blockSize n ≤ trailing cs + mmapThreshold * (g + 1))
    (room : env.Low (s.brk + mmapThreshold * (g + 1))) :
    ∃ s', (∀ grants, slobMalloc env grants s n =
        if grants ≤ g then .error .diverge
        else .ok ((mergePrev cs ⟨s.heapEnd, mmapThreshold * (g + 1), false⟩).2.addr +
          sizeofMmAllocnode, s')) ∧
      s'.brk = s.brk + mmapThreshold * (g + 1) ∧
      s'.heapEnd = s.heapEnd + mmapThreshold * (g + 1) ∧
      SlobHeap env s' ((mergePrev cs ⟨s.heapEnd, mmapThreshold * (g + 1), false⟩).1 ++
        taken (mergePrev cs ⟨s.heapEnd, mmapThreshold * (g + 1), false⟩).2 (blockSize n)) := by
  induction g generalizing s cs with
  | zero =>
    rw [Nat.zero_add, Nat.mul_one] at *
    obtain ⟨s₁, stops, next, brk₁, heapEnd₁, heap₁⟩ :=
      heap.malloc_grows_once granting small pos noOverflow none room
    have free := mergePrev_free cs (c := ⟨s.heapEnd, mmapThreshold, false⟩) rfl
    have last : blockSize n ≤ (mergePrev cs ⟨s.heapEnd, mmapThreshold, false⟩).2.size :=
      enough.trans_eq (mergePrev_size ..).symm
    obtain ⟨as, c, bs, s', split, fit, -, run', brk', heapEnd', heap'⟩ :=
      heap₁.malloc_fits small pos noOverflow ⟨_, by simp, free, last⟩
    -- no other chunk fits
    have notBefore : c ∉ (mergePrev cs ⟨s.heapEnd, mmapThreshold, false⟩).1 := fun inside =>
      absurd (none c (mem_of_mem_mergePrev inside) fit.free) (not_lt.mpr fit.enough)
    obtain ⟨rfl, rfl, rfl⟩ :=
      (List.append_cons_inj_of_notMem notBefore List.not_mem_nil).mp split
    refine ⟨s', fun grants => ?_, brk'.trans brk₁, heapEnd'.trans heapEnd₁, by simpa using heap'⟩
    cases grants with
    | zero => exact stops
    | succ grants => rw [next, run', if_neg (by omega)]
  | succ g ih =>
    have again : mmapThreshold + mmapThreshold * (g + 1) = mmapThreshold * (g + 1 + 1) := by ring
    obtain ⟨s₁, stops, next, brk₁, heapEnd₁, heap₁⟩ :=
      heap.malloc_grows_once granting small pos noOverflow none
        (Nat.le_trans (by omega) room)
    have size₁ := mergePrev_size cs s.heapEnd mmapThreshold
    have trailing₁ : trailing ((mergePrev cs ⟨s.heapEnd, mmapThreshold, false⟩).1 ++
        [(mergePrev cs ⟨s.heapEnd, mmapThreshold, false⟩).2]) = trailing cs + mmapThreshold :=
      trailing_freed ⟨s.heapEnd, mmapThreshold, true⟩
    have none₁ : ∀ c ∈ (mergePrev cs ⟨s.heapEnd, mmapThreshold, false⟩).1 ++
        [(mergePrev cs ⟨s.heapEnd, mmapThreshold, false⟩).2],
        c.used = false → c.size < blockSize n := by
      intro c inside free
      rcases List.mem_append.mp inside with before | last
      · exact none c (mem_of_mem_mergePrev before) free
      · rw [List.mem_singleton.mp last, size₁]
        have first := short 1 (by omega)
        omega
    have short₁ : ∀ j ≤ g, trailing cs + mmapThreshold + mmapThreshold * j < blockSize n := by
      intro j le
      have later := short (j + 1) (by omega)
      rw [Nat.mul_add, Nat.mul_one] at later
      omega
    obtain ⟨s', run', brk', heapEnd', heap'⟩ := ih heap₁ none₁ (by rwa [trailing₁])
      (by rw [trailing₁]; omega) (by rw [brk₁, Nat.add_assoc, again]; exact room)
    rw [mergePrev_again, again] at run' heap'
    refine ⟨s', fun grants => ?_, by omega, by omega, heap'⟩
    cases grants with
    | zero => exact stops
    | succ grants =>
      rw [next, run']
      simp only [Nat.succ_le_succ_iff]

end Grow

/-- How often the heap must grow for its last chunk to have `k` bytes. -/
theorem exists_growths (short : trailing cs < k) :
    ∃ g, (∀ j ≤ g, trailing cs + mmapThreshold * j < k) ∧
      k ≤ trailing cs + mmapThreshold * (g + 1) := by
  refine ⟨(k - trailing cs - 1) / mmapThreshold, fun j le => ?_, ?_⟩
  · have bound := Nat.mul_le_mul_left mmapThreshold le
    have floor := Nat.mul_div_le (k - trailing cs - 1) mmapThreshold
    omega
  · have ceil := Nat.lt_mul_div_succ (k - trailing cs - 1) (show 0 < mmapThreshold by decide)
    omega

/-- `slob_malloc` answers a request of no bytes with `NULL`, whatever is free. It serves any
other request from the start of a best fit without growth. If there is none, the heap grows
until its last chunk, which is free then, is large enough, and not once more, and the request
is served from there. As in all results about the allocator, `slob` itself lies outside the
heap (`SlobEnv.apart`), which begins at a multiple of 32 bytes (`SlobEnv.startBrk_aligned`). -/
theorem slobMalloc_best_fit (granting : env.Granting) (heap : SlobHeap env s cs)
    (small : n < 2 ^ 64) (noOverflow : n ≤ blockSize n) :
    (n = 0 → ∀ grants, slobMalloc env grants s n = .ok (0, s)) ∧
    (0 < n → (∃ c ∈ cs, c.used = false ∧ blockSize n ≤ c.size) →
      ∃ as c bs s', cs = as ++ c :: bs ∧ BestFit cs (blockSize n) c ∧
        (c.size = blockSize n ∨ blockSize n + 32 ≤ c.size) ∧
        (∀ grants, slobMalloc env grants s n = .ok (c.addr + sizeofMmAllocnode, s')) ∧
        s'.brk = s.brk ∧ s'.heapEnd = s.heapEnd ∧
        SlobHeap env s' (as ++ taken c (blockSize n) ++ bs)) ∧
    (0 < n → (∀ c ∈ cs, c.used = false → c.size < blockSize n) →
      ∃ g as c, mergePrev cs ⟨s.heapEnd, mmapThreshold * (g + 1), false⟩ = (as, c) ∧
        c.size = trailing cs + mmapThreshold * (g + 1) ∧ blockSize n ≤ c.size ∧
        (∀ j ≤ g, trailing cs + mmapThreshold * j < blockSize n) ∧
        (env.Low (s.brk + mmapThreshold * (g + 1)) → ∃ s',
          (∀ grants, slobMalloc env grants s n =
            if grants ≤ g then .error .diverge else .ok (c.addr + sizeofMmAllocnode, s')) ∧
          s'.brk = s.brk + mmapThreshold * (g + 1) ∧
          s'.heapEnd = s.heapEnd + mmapThreshold * (g + 1) ∧
          SlobHeap env s' (as ++ taken c (blockSize n)))) := by
  refine ⟨fun zero grants => slobMalloc_of_some (slobTry_of_zero s zero), fun pos =>
    heap.malloc_fits small pos noOverflow, fun pos none => ?_⟩
  have short : trailing cs < blockSize n := by
    by_contra enough
    obtain ⟨c, inside, free, large⟩ := exists_of_le_trailing (pos.trans_le noOverflow)
      (not_lt.mp enough)
    exact absurd (none c inside free) (not_lt.mpr large)
  obtain ⟨g, short, enough⟩ := exists_growths short
  have size := mergePrev_size cs s.heapEnd (mmapThreshold * (g + 1))
  exact ⟨g, _, _, rfl, size, enough.trans_eq size.symm, short,
    heap.malloc_grows granting small pos noOverflow none short enough⟩

/-! ## Freeing the block again -/

theorem Coalesced.neighbours_used (coalesced : Coalesced (as ++ c :: bs)) (free : c.used = false) :
    (∀ d ∈ as.getLast?, d.used = true) ∧ ∀ d ∈ bs.head?, d.used = true := by
  obtain ⟨-, fromC, before⟩ := List.isChain_append.mp coalesced
  obtain ⟨after, -⟩ := List.isChain_cons.mp fromC
  refine ⟨fun d isLast => ?_, fun d isHead => ?_⟩
  · exact (before d isLast c rfl).resolve_right (by simp [free])
  · exact (after d isHead).resolve_left (by simp [free])

theorem mergePrev_of_used (used : ∀ d ∈ as.getLast?, d.used = true) : mergePrev as c = (as, c) := by
  unfold mergePrev
  cases last : as.getLast? with
  | none => rfl
  | some d => simp [used d last]

theorem mergeNext_of_used (used : ∀ d ∈ bs.head?, d.used = true) : mergeNext c bs = (c, bs) := by
  cases bs with
  | nil => rfl
  | cons d bs => simp [mergeNext, used d rfl]

theorem unlist_of_used {o : Option Chunk} (used : ∀ d ∈ o, d.used = true) : unlist xs o = xs := by
  cases o with
  | none => rfl
  | some d => simp [unlist, used d rfl]

/-- The block taken from `c` and what remained of `c`. -/
theorem taken_eq : taken c k = ⟨c.addr, k, true⟩ :: (taken c k).tail := by
  unfold taken
  split <;> rfl

/-- The block and the remainder merge to the chunk they came from. -/
theorem mergeNext_taken (free : c.used = false) (enough : k ≤ c.size)
    (used : ∀ d ∈ bs.head?, d.used = true) :
    mergeNext ⟨c.addr, k, false⟩ ((taken c k).tail ++ bs) = (c, bs) := by
  have whole : (⟨c.addr, c.size, false⟩ : Chunk) = c := by rw [← free]
  by_cases exact : c.size = k
  · have alone : (taken c k).tail = [] := by simp [taken, exact]
    rw [alone, List.nil_append, mergeNext_of_used used, ← exact, whole]
  · simp [taken, exact, mergeNext, Nat.add_sub_cancel' enough, whole]

theorem freed_taken (coalesced : Coalesced (as ++ c :: bs)) (free : c.used = false)
    (enough : k ≤ c.size) :
    freed as ⟨c.addr, k, true⟩ ((taken c k).tail ++ bs) = as ++ c :: bs := by
  obtain ⟨before, after⟩ := coalesced.neighbours_used free
  unfold freed
  rw [mergeNext_taken free enough after]
  dsimp only
  rw [mergePrev_of_used before]

/-- `slob_free` puts the merged chunk on what `slob_malloc` left of the list. -/
theorem freedList_taken (coalesced : Coalesced (as ++ c :: bs)) (free : c.used = false)
    (enough : k ≤ c.size) {xs' : List Nat}
    (listed : unlist xs' (taken c k).tail.head? = xs.erase c.addr) :
    freedList env s' as ⟨c.addr, k, true⟩ ((taken c k).tail ++ bs) xs' =
      (xs.erase c.addr).orderedInsert (env.KeyLe (s'.fld .size)) c.addr := by
  obtain ⟨before, after⟩ := coalesced.neighbours_used free
  have next : unlist xs' ((taken c k).tail ++ bs).head? = xs.erase c.addr := by
    rw [← listed]
    by_cases exact : c.size = k
    · have alone : (taken c k).tail = [] := by simp [taken, exact]
      rw [alone, List.nil_append, unlist_of_used after]
      rfl
    · simp [taken, exact]
  unfold freedList
  rw [next, unlist_of_used before, mergeNext_taken free enough after, mergePrev_of_used before]

/-- The sizes of list nodes can be read off the chunks. -/
theorem HeapRep.size_agree (rep : HeapRep env s cs xs []) {xs' : List Nat}
    (rep' : HeapRep env s' cs xs' []) {x : Nat} (inside : x ∈ xs) :
    s'.fld .size x = s.fld .size x := by
  rcases (rep.mem_iff x).mp inside with isHead | ⟨c, inC, -, rfl, -⟩
  · rw [rep.list.headSize x isHead, rep'.list.headSize x isHead]
  · rw [rep.size_eq (mem_heapChunks inC), rep'.size_eq (mem_heapChunks inC)]

/-- The first chunk of its size, taken off the list and put in again. -/
theorem FirstFit.reinsert {x : Nat} (fit : FirstFit env s xs k x) (list : FreeList env s xs)
    (sizes : ∀ y ∈ xs, s'.fld .size y = s.fld .size y) :
    (xs.erase x).orderedInsert (env.KeyLe (s'.fld .size)) x = xs := by
  obtain ⟨us, vs, rfl, before⟩ := fit.split
  have inX : x ∈ us ++ x :: vs := by simp
  have out : x ∉ us := fun inside =>
    (List.nodup_append.mp list.chain.distinct).2.2 x inside x (.head _) rfl
  rw [List.erase_append_right _ out, List.erase_cons_head]
  refine orderedInsert_split (fun u inside order => before u inside ?_) fun v isHead => ?_
  · exact order.congr (sizes x inX).symm (sizes u (by simp [inside])).symm
  · have inVs : v ∈ vs := List.mem_of_mem_head? isHead
    have order := List.rel_of_pairwise_cons (List.pairwise_append.mp list.sorted).2.1 inVs
    exact order.congr (sizes x inX) (sizes v (by simp [inVs]))

/-- Two states of the allocator with the same chunks and the same list. -/
structure SameHeap (env : SlobEnv) (s s' : Slob) (cs : List Chunk) (xs : List Nat) : Prop where
  wf : SlobWf env s cs xs
  wf' : SlobWf env s' cs xs
  vars : s'.isInit = s.isInit ∧ s'.heapStart = s.heapStart ∧ s'.heapEnd = s.heapEnd ∧
    s'.cBrk = s.cBrk ∧ s'.brk = s.brk
  headers : ∀ c ∈ guardAt s.heapStart :: (cs ++ [guardAt s.heapEnd]),
    s'.fld .size c.addr = s.fld .size c.addr ∧ s'.fld .preceding c.addr = s.fld .preceding c.addr

/-- `slob_free` of a block right after `slob_malloc` has handed it out, without growth,
gives back the same chunks and the same list. The environment brings the assumptions of
all these results: `slob` itself lies outside the heap (`SlobEnv.apart`), which begins at
a multiple of 32 bytes (`SlobEnv.startBrk_aligned`). -/
theorem slobFree_undoes_slobMalloc (heap : SlobHeap env s cs) (small : n < 2 ^ 64)
    (served : slobMalloc env 0 s n = .ok (p, s')) (notNull : p ≠ 0) :
    ∃ s'' xs, slobFree env s' p = .ok s'' ∧ SameHeap env s s'' cs xs := by
  obtain ⟨init, ⟨xs, rep⟩, coalesced⟩ := heap
  rcases slobTry_spec (K := []) init rep small (by simp [Keeps]) with
    ⟨-, run⟩ | ⟨-, -, ⟨as, c, bs, s₁, xs₁, rfl, free, enough, run, touched, rep₁, fit, listed⟩ |
      ⟨run, -⟩⟩
  · rw [slobMalloc_of_some run] at served
    cases served
    exact absurd rfl notNull
  · rw [slobMalloc_of_some run] at served
    cases served
    rw [List.append_assoc, taken_eq, List.cons_append] at rep₁
    obtain ⟨s₂, run₂, touched₂, rep₂⟩ := slobFree_spec (K := []) rep₁ rfl (by simp [Keeps])
    rw [freed_taken coalesced free enough, freedList_taken coalesced free enough listed] at rep₂
    rw [fit.reinsert rep.list fun y inside => rep.size_agree rep₂ inside] at rep₂
    have both := touched.trans touched₂
    have wf := rep.wf coalesced
    have wf₂ := rep₂.wf coalesced
    have tiles₂ := wf₂.tiles
    rw [both.heapStart, both.heapEnd] at tiles₂
    exact ⟨s₂, xs, run₂, wf, wf₂,
      ⟨both.isInit, both.heapStart, both.heapEnd, both.cBrk, both.brk⟩, wf.tiles.agree tiles₂⟩
  · rw [slobMalloc_zero_of_none run] at served
    cases served

end BestFit

/-! ## The program's first heap -/

/-- The heap of the program after `slob_init` is one free chunk. -/
theorem slobDemo_heap : ∃ s, SlobHeap slobDemo s [slobDemo.firstChunk] ∧ s.brk = 0x520000 := by
  obtain ⟨s, xs, -, -, init, brk, rep⟩ := slobInit_spec
    (slobDemo_granting.answering.query _) slobDemoStart_start.fresh slobDemoStart_start.brk
    (slobDemo_granting.grants _)
  exact ⟨s, ⟨init, ⟨xs, rep⟩, .singleton _⟩, brk⟩

/-- A request of 200000 bytes needs one growth there. -/
theorem slobMalloc_best_fit_sample : ∃ s s' p, SlobHeap slobDemo s [slobDemo.firstChunk] ∧
    slobMalloc slobDemo 0 s 200000 = .error .diverge ∧
    slobMalloc slobDemo 1 s 200000 = .ok (p, s') ∧ s'.brk = s.brk + mmapThreshold := by
  obtain ⟨s, heap, brk⟩ := slobDemo_heap
  have size : blockSize 200000 = 200032 := by decide
  have before : trailing [slobDemo.firstChunk] = 131040 := by decide
  have threshold : mmapThreshold = 131072 := rfl
  obtain ⟨-, -, grows⟩ := slobMalloc_best_fit slobDemo_granting heap
    (show 200000 < 2 ^ 64 by decide) (by decide)
  have none : ∀ c ∈ [slobDemo.firstChunk], c.used = false → c.size < blockSize 200000 := by decide
  obtain ⟨g, as, c, -, -, -, short, serve⟩ := grows (by decide) none
  have once : g = 0 := by
    by_contra more
    have second := short 1 (by omega)
    omega
  subst once
  have room : slobDemo.Low (s.brk + mmapThreshold * (0 + 1)) := by
    rw [brk]
    unfold SlobEnv.Low
    decide
  obtain ⟨s', run, brk', -⟩ := serve room
  exact ⟨s, s', _, heap, run 0, run 1, brk'⟩

/-- A request of no bytes is not served, though the whole heap is free. -/
theorem slobMalloc_nothing : ∃ s, SlobHeap slobDemo s [slobDemo.firstChunk] ∧
    slobDemo.firstChunk.used = false ∧ blockSize 0 ≤ slobDemo.firstChunk.size ∧ 0 ≤ blockSize 0 ∧
    ∀ grants, slobMalloc slobDemo grants s 0 = .ok (0, s) := by
  obtain ⟨s, heap, -⟩ := slobDemo_heap
  exact ⟨s, heap, rfl, by decide, Nat.zero_le _, fun grants =>
    slobMalloc_of_some (slobTry_of_zero s rfl)⟩

/-- A block of 100 bytes, taken and given back. -/
theorem slobFree_undoes_slobMalloc_sample : ∃ s s' s'' p xs,
    slobMalloc slobDemo 0 s 100 = .ok (p, s') ∧ slobFree slobDemo s' p = .ok s'' ∧
      SameHeap slobDemo s s'' [slobDemo.firstChunk] xs := by
  obtain ⟨s, heap, -⟩ := slobDemo_heap
  obtain ⟨as, c, bs, s', -, -, -, run, -⟩ := heap.malloc_fits (show 100 < 2 ^ 64 by decide)
    (by decide) (by decide) ⟨slobDemo.firstChunk, .head _, rfl, by decide⟩
  obtain ⟨s'', xs, run', same⟩ := slobFree_undoes_slobMalloc heap (by decide) (run 0)
    (by simp [sizeofMmAllocnode])
  exact ⟨s, s', s'', _, xs, run 0, run', same⟩

end Chinos
