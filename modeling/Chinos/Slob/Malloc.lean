import Chinos.Slob.Grow
import Chinos.Slob.Take

/-!
# `slob_malloc` on the chunks

A request is served from a free chunk that is large enough. If there is none, the heap
grows until the free chunk at its end is, so that the recursion of `slob_malloc` ends
as soon as the kernel has granted enough memory. The other chunks in use stay as they
are, and no two free chunks are neighbours.
-/

namespace Chinos

/-- The local variable `alignsize` of `slob_malloc`: the request with a header, rounded up to 32
bytes. -/
def blockSize (n : Nat) : Nat := mmAlignUp (cU64 (n + sizeofMmAllocnode))

/-- A request that overflows is recognised; any other gets a block with room for the
header. -/
theorem blockSize_spec {n : Nat} (small : n < 2 ^ 64) :
    blockSize n < n ∨ (n + 16 ≤ blockSize n ∧ 32 ∣ blockSize n ∧ blockSize n < 2 ^ 64) := by
  unfold blockSize sizeofMmAllocnode
  rw [← Nat.cast_add, cU64_natCast_eq_mod]
  by_cases fits : n + 16 + 31 < 2 ^ 64
  · rw [Nat.mod_eq_of_lt (by omega), mmAlignUp_eq fits]
    omega
  · refine .inl ?_
    by_cases wraps : n + 16 < 2 ^ 64
    · have excess : cU64 (((n + 16 : Nat) : Int) + 31) = n + 47 - 2 ^ 64 := by
        unfold cU64
        omega
      rw [Nat.mod_eq_of_lt wraps, mmAlignUp, excess, mmAlignDown_eq (by omega)]
      omega
    · rw [mmAlignUp_eq (by omega)]
      omega

section Malloc

variable {env : SlobEnv} {s s' : Slob} {cs as bs : List Chunk} {xs : List Nat}
  {c d : Chunk} {K : List Chunk} {n k grants : Nat}

/-! ## The chunks in use -/

theorem mem_of_mem_mergeNext (inside : d ∈ (mergeNext c bs).2) : d ∈ bs := by
  cases bs with
  | nil => exact inside
  | cons e bs =>
    by_cases used : e.used = true
    · simpa [mergeNext, used] using inside
    · have later : d ∈ bs := by simpa [mergeNext, used] using inside
      exact .tail _ later

theorem mem_of_mem_mergePrev (inside : d ∈ (mergePrev as c).1) : d ∈ as := by
  unfold mergePrev at inside
  split at inside
  · exact inside
  · split at inside
    · exact inside
    · exact List.mem_of_mem_dropLast inside

theorem mem_freed_iff (used : d.used = true) : d ∈ freed as c bs ↔ d ∈ as ++ bs := by
  refine ⟨fun inside => ?_, mem_freed_of_used used⟩
  have free := mergePrev_free as
    (mergeNext_free bs (show ({ c with used := false } : Chunk).used = false from rfl))
  unfold freed at inside
  simp only [List.mem_append, List.mem_cons] at inside ⊢
  rcases inside with inAs | rfl | inBs
  · exact .inl (mem_of_mem_mergePrev inAs)
  · rw [free] at used
    cases used
  · exact .inr (mem_of_mem_mergeNext inBs)

theorem mem_taken_iff (used : d.used = true) : d ∈ taken c k ↔ d = ⟨c.addr, k, true⟩ := by
  unfold taken
  split
  · simp
  · have notRest : d ≠ ⟨c.addr + k, c.size - k, false⟩ := by
      rintro rfl
      cases used
    simp [notRest]

/-- A block of `n` bytes at `p` was handed out: there is one more chunk in use. -/
def Served (cs cs' : List Chunk) (p n : Nat) : Prop :=
  ∃ c : Chunk, c.used = true ∧ p = c.addr + sizeofMmAllocnode ∧
    n + sizeofMmAllocnode ≤ c.size ∧ c ∉ cs ∧
    ∀ d : Chunk, d.used = true → (d ∈ cs' ↔ d = c ∨ d ∈ cs)

theorem HeapRep.served_take {off : List Nat} (rep : HeapRep env s (as ++ c :: bs) xs off)
    (free : c.used = false) (room : n + 16 ≤ k) :
    Served (as ++ c :: bs) (as ++ taken c k ++ bs) (c.addr + sizeofMmAllocnode) n := by
  refine ⟨⟨c.addr, k, true⟩, rfl, rfl, room, fun inside => ?_, fun d used => ?_⟩
  · simp only [List.mem_append, List.mem_cons] at inside
    rcases inside with inAs | same | inBs
    · exact rep.addr_ne _ (.inl inAs) rfl
    · rw [← same] at free
      cases free
    · exact rep.addr_ne _ (.inr inBs) rfl
  · have ne : d ≠ c := by
      rintro rfl
      rw [free] at used
      cases used
    simp only [List.mem_append, List.mem_cons, mem_taken_iff used, ne, false_or]
    tauto

/-! ## No two free neighbours -/

/-- No two free chunks of the heap are neighbours. -/
def Coalesced (cs : List Chunk) : Prop := cs.IsChain fun c d => c.used = true ∨ d.used = true

theorem Coalesced.concat (coalesced : Coalesced cs) (used : c.used = true) :
    Coalesced (cs ++ [c]) := by
  refine List.isChain_append.mpr ⟨coalesced, .singleton _, fun d _ e isHead => ?_⟩
  cases isHead
  exact .inr used

theorem coalesced_mergeNext (coalesced : Coalesced bs) :
    Coalesced (mergeNext c bs).2 ∧ ∀ d ∈ (mergeNext c bs).2.head?, d.used = true := by
  cases bs with
  | nil => exact ⟨coalesced, by simp [mergeNext]⟩
  | cons e bs =>
    by_cases used : e.used = true
    · simpa [mergeNext, used] using coalesced
    · obtain ⟨next, rest⟩ := List.isChain_cons.mp coalesced
      have nextUsed : ∀ d ∈ bs.head?, d.used = true := fun d isHead =>
        (next d isHead).resolve_left used
      simpa [mergeNext, used] using ⟨rest, nextUsed⟩

theorem coalesced_mergePrev (coalesced : Coalesced as) :
    Coalesced (mergePrev as c).1 ∧ ∀ d ∈ (mergePrev as c).1.getLast?, d.used = true := by
  rcases List.eq_nil_or_concat as with rfl | ⟨as, e, rfl⟩
  · exact ⟨coalesced, by simp [mergePrev]⟩
  · rw [List.concat_eq_append] at *
    by_cases used : e.used = true
    · simpa [mergePrev, used] using coalesced
    · obtain ⟨rest, -, last⟩ := List.isChain_append.mp coalesced
      have lastUsed : ∀ d ∈ as.getLast?, d.used = true := fun d isLast =>
        (last d isLast e rfl).resolve_right used
      simpa [mergePrev, used] using ⟨rest, lastUsed⟩

/-- `slob_free` merges as far as there are free neighbours. -/
theorem coalesced_freed (coalesced : Coalesced (as ++ c :: bs)) : Coalesced (freed as c bs) := by
  obtain ⟨before, from_, -⟩ := List.isChain_append.mp coalesced
  obtain ⟨-, after⟩ := List.isChain_cons.mp from_
  obtain ⟨next, nextUsed⟩ := coalesced_mergeNext (c := { c with used := false }) after
  obtain ⟨prev, prevUsed⟩ :=
    coalesced_mergePrev (c := (mergeNext { c with used := false } bs).1) before
  refine List.isChain_append.mpr ⟨prev, List.isChain_cons.mpr ⟨fun d isHead => ?_, next⟩,
    fun d isLast e _ => ?_⟩
  · exact .inr (nextUsed d isHead)
  · exact .inl (prevUsed d isLast)

/-- What remains of a free chunk has no free neighbour, as the chunk had none. -/
theorem Coalesced.take (coalesced : Coalesced (as ++ c :: bs)) (free : c.used = false) (k : Nat) :
    Coalesced (as ++ taken c k ++ bs) := by
  obtain ⟨before, from_, -⟩ := List.isChain_append.mp coalesced
  obtain ⟨next, after⟩ := List.isChain_cons.mp from_
  have nextUsed : ∀ d ∈ bs.head?, d.used = true := fun d isHead =>
    (next d isHead).resolve_left (by simp [free])
  rw [List.append_assoc]
  refine List.isChain_append.mpr ⟨before, ?_, fun d _ e isHead => ?_⟩
  · unfold taken
    split
    · exact List.isChain_cons.mpr ⟨fun d _ => .inl rfl, after⟩
    · exact List.isChain_cons.mpr ⟨fun d _ => .inl rfl,
        List.isChain_cons.mpr ⟨fun d isHead => .inr (nextUsed d isHead), after⟩⟩
  · refine .inr ?_
    unfold taken at isHead
    split at isHead <;>
    · cases isHead
      rfl

/-! ## The free chunk at the end -/

/-- How many bytes are free at the end of the heap. -/
def trailing (cs : List Chunk) : Nat :=
  match cs.getLast? with
  | none => 0
  | some c => if c.used then 0 else c.size

theorem trailing_freed (c : Chunk) : trailing (freed cs c []) = trailing cs + c.size := by
  rcases List.eq_nil_or_concat cs with rfl | ⟨as, e, rfl⟩
  · simp [freed, trailing, mergeNext, mergePrev]
  · by_cases used : e.used = true
    · simp [freed, trailing, mergeNext, mergePrev, used]
    · simp [freed, trailing, mergeNext, mergePrev, used]

theorem exists_of_le_trailing (pos : 0 < k) (enough : k ≤ trailing cs) :
    ∃ c ∈ cs, c.used = false ∧ k ≤ c.size := by
  unfold trailing at enough
  split at enough
  · omega
  · next c isLast =>
    split at enough
    · omega
    · next free => exact ⟨c, List.mem_of_getLast? isLast, by simpa using free, enough⟩

/-! ## Any host

The equations of `slob_init` and `slob_malloc` that depend neither on the heap nor on what
answers their requests. -/

section Host

variable {σ : Type} {host : SlobHost σ} {t t' : σ} {p : Nat} {fault : Fault}

theorem slobInitOn_of_isInit (init : (host.slob t).isInit = true) :
    slobInitOn env host t = .ok t := by
  unfold slobInitOn
  rw [if_pos init]
  rfl

theorem slobTryOn_of_zero (host : SlobHost σ) (t : σ) (zero : n = 0) :
    slobTryOn env host t n = .ok (some 0, t) := by
  unfold slobTryOn
  rw [if_pos zero]
  rfl

/-- Once the heap is made, the search is all that is left. -/
theorem slobTryOn_of_pos (pos : n ≠ 0) (init : (host.slob t).isInit = true) :
    slobTryOn env host t n = (do
      let (ret, s) ← slobSearch env (host.slob t) n
      return (ret, host.put t s)) := by
  unfold slobTryOn
  rw [if_neg pos, slobInitOn_of_isInit init, ok_bind]

/-- The first `slob_malloc` makes the heap, and then goes on as any other. -/
theorem slobTryOn_of_init (pos : n ≠ 0) (run : slobInitOn env host t = .ok t')
    (init : (host.slob t').isInit = true) : slobTryOn env host t n = slobTryOn env host t' n := by
  unfold slobTryOn
  rw [if_neg pos, if_neg pos, run, slobInitOn_of_isInit init]

theorem slobTryOn_of_init_error (pos : n ≠ 0) (run : slobInitOn env host t = .error fault) :
    slobTryOn env host t n = .error fault := by
  unfold slobTryOn
  rw [if_neg pos, run]
  rfl

theorem slobMallocOn_of_some (found : slobTryOn env host t n = .ok (some p, t')) :
    slobMallocOn env host grants t n = .ok (p, t') := by
  unfold slobMallocOn
  rw [found, ok_bind]
  rfl

theorem slobMallocOn_zero_of_none (found : slobTryOn env host t n = .ok (none, t')) :
    slobMallocOn env host 0 t n = .error .diverge := by
  unfold slobMallocOn
  rw [found, ok_bind]

theorem slobMallocOn_succ_of_none (found : slobTryOn env host t n = .ok (none, t')) :
    slobMallocOn env host (grants + 1) t n =
      slobGrowOn env host t' >>= fun t => slobMallocOn env host grants t n := by
  rw [slobMallocOn, found, ok_bind]

theorem slobMallocOn_of_init (grants : Nat) (pos : n ≠ 0)
    (run : slobInitOn env host t = .ok t') (init : (host.slob t').isInit = true) :
    slobMallocOn env host grants t n = slobMallocOn env host grants t' n := by
  rw [slobMallocOn.eq_def, slobMallocOn.eq_def env host grants t']
  dsimp only
  rw [slobTryOn_of_init pos run init]

theorem slobMallocOn_of_init_error (grants : Nat) (pos : n ≠ 0)
    (run : slobInitOn env host t = .error fault) :
    slobMallocOn env host grants t n = .error fault := by
  unfold slobMallocOn
  rw [slobTryOn_of_init_error pos run]
  rfl

end Host

/-! ## The search -/

theorem slobTry_of_zero (s : Slob) (zero : n = 0) : slobTry env s n = .ok (some 0, s) :=
  slobTryOn_of_zero env.host s zero

theorem slobTry_of_pos (pos : n ≠ 0) (init : s.isInit = true) :
    slobTry env s n = slobSearch env s n :=
  (slobTryOn_of_pos pos init).trans (bind_pure _)

section Try

variable (init : s.isInit = true) (rep : HeapRep env s cs xs [])
include init rep

omit rep in
/-- `slob_malloc` up to the search, for a request that is positive and does not overflow, is the
search and what it finds. -/
theorem slobTry_eq (pos : n ≠ 0) (fits : ¬ blockSize n < n) (large : 32 ≤ blockSize n)
    {node : Nat}
    (search : (do
      let node ← nodeLoad env s (env.head (mmSize2ndx (blockSize n))) .next
      searchLoop env s (blockSize n) (2 ^ 64) node) = .ok node) :
    slobTry env s n =
      if node ≠ 0 then do
        let (ret, s) ← takeNode env s node (blockSize n)
        return (some ret, s)
      else return (none, s) := by
  have bucket : (if blockSize n ≥ mmMaxChunk then mmNnodes - 1 else mmSize2ndx (blockSize n)) =
      mmSize2ndx (blockSize n) := by
    split
    · next big => rw [mmSize2ndx, if_pos big]
    · rfl
  rw [slobTry_of_pos pos init]
  unfold slobSearch
  dsimp only
  rw [show mmAlignUp (cU64 ((n : Int) + sizeofMmAllocnode)) = blockSize n from rfl, if_neg fits,
    require_bind_of_pos (by exact large), require_bind_of_pos (by exact large), bucket,
    ← bind_assoc, search, ok_bind]

/-- One round of `slob_malloc`: the request is refused, or served from a free chunk, or no
free chunk is large enough. -/
theorem slobTry_spec (small : n < 2 ^ 64) (keeps : Keeps K cs) :
    ((n = 0 ∨ blockSize n < n) ∧ slobTry env s n = .ok (some 0, s)) ∨
      (n ≠ 0 ∧ n + 16 ≤ blockSize n ∧
        ((∃ as c bs s' xs', cs = as ++ c :: bs ∧ c.used = false ∧ blockSize n ≤ c.size ∧
          slobTry env s n = .ok (some (c.addr + sizeofMmAllocnode), s') ∧ Touched (Clear K) s s' ∧
          HeapRep env s' (as ++ taken c (blockSize n) ++ bs) xs' [] ∧
          FirstFit env s xs (blockSize n) c.addr ∧
          unlist xs' (taken c (blockSize n)).tail.head? = xs.erase c.addr) ∨
        (slobTry env s n = .ok (none, s) ∧ ∀ c ∈ cs, c.used = false → c.size < blockSize n))) := by
  by_cases pos : n = 0
  · exact .inl ⟨.inl pos, slobTry_of_zero s pos⟩
  rcases blockSize_spec small with wraps | ⟨room, aligned, -⟩
  · refine .inl ⟨.inr wraps, ?_⟩
    rw [slobTry_of_pos pos init]
    unfold slobSearch
    exact if_pos wraps
  refine .inr ⟨pos, room, ?_⟩
  have large : 32 ≤ blockSize n := Nat.le_of_dvd (by omega) aligned
  obtain ⟨node, search, found⟩ := rep.list.search (show 0 < blockSize n by omega)
  rw [slobTry_eq init pos (by omega) large search]
  rcases found with ⟨onList, fit⟩ | ⟨rfl, none⟩
  · obtain ⟨c, inCs, free, rfl, -⟩ := ((rep.mem_iff node).mp onList).resolve_left fit.chunk
    obtain ⟨as, bs, rfl⟩ := List.append_of_mem inCs
    have enough := fit.enough
    rw [rep.size_eq (mem_heapChunks inCs)] at enough
    obtain ⟨s', xs', run, touched, rep', listed⟩ :=
      takeNode_spec rep free (by omega) enough aligned keeps
    have above := (rep.placed inCs).above
    refine .inl ⟨as, c, bs, s', xs', rfl, free, enough, ?_, touched, rep', fit, listed⟩
    rw [if_pos (by omega), run, ok_bind]
    rfl
  · refine .inr ⟨by rw [if_neg (by simp)]; rfl, fun c inCs free => ?_⟩
    have listed : c.addr ∈ xs := (rep.mem_iff _).mpr (.inr ⟨c, inCs, free, rfl, by simp⟩)
    have less := none _ listed
    rwa [rep.size_eq (mem_heapChunks inCs)] at less

end Try

/-! ## `slob_malloc` -/

theorem slobMalloc_of_some {p : Nat} (found : slobTry env s n = .ok (some p, s')) :
    slobMalloc env grants s n = .ok (p, s') :=
  slobMallocOn_of_some found

theorem slobMalloc_zero_of_none (found : slobTry env s n = .ok (none, s')) :
    slobMalloc env 0 s n = .error .diverge :=
  slobMallocOn_zero_of_none found

theorem slobMalloc_succ_of_none (found : slobTry env s n = .ok (none, s')) :
    slobMalloc env (grants + 1) s n =
      slobGrow env s' >>= fun s => slobMalloc env grants s n :=
  slobMallocOn_succ_of_none found

/-- The heap between calls: the chunks tile it between two guards in use, the list holds
the free chunks and its heads, and no two free chunks are neighbours. -/
structure SlobHeap (env : SlobEnv) (s : Slob) (cs : List Chunk) : Prop where
  init : s.isInit = true
  rep : ∃ xs, HeapRep env s cs xs []
  coalesced : Coalesced cs

/-- What an answer `p` to a request of `n` bytes means: chunks `K` in use are not written
to, and either nothing happened or one more chunk is in use. -/
structure Answer (env : SlobEnv) (K : List Chunk) (s : Slob) (cs : List Chunk) (n p : Nat)
    (s' : Slob) (cs' : List Chunk) : Prop where
  heap : SlobHeap env s' cs'
  wrote : Wrote (Clear K) s s'
  brk : s.brk ≤ s'.brk
  answer : (p = 0 ∧ cs' = cs ∧ (n = 0 ∨ blockSize n < n)) ∨ Served cs cs' p n

/-- A request is answered without growth, or no free chunk is large enough. -/
theorem slobTry_cases (small : n < 2 ^ 64) (heap : SlobHeap env s cs) (keeps : Keeps K cs) :
    (∃ p s' cs', slobTry env s n = .ok (some p, s') ∧ s'.brk = s.brk ∧
      Answer env K s cs n p s' cs') ∨
    (slobTry env s n = .ok (none, s) ∧ 0 < n ∧ n < blockSize n ∧
      ∀ c ∈ cs, c.used = false → c.size < blockSize n) := by
  obtain ⟨init, ⟨xs, rep⟩, coalesced⟩ := heap
  rcases slobTry_spec init rep small keeps with ⟨refused, run⟩ |
    ⟨pos, room, ⟨as, c, bs, s', xs', rfl, free, enough, run, touched, rep', -⟩ | ⟨run, none⟩⟩
  · exact .inl ⟨0, s, cs, run, rfl, ⟨init, ⟨xs, rep⟩, coalesced⟩, .refl, le_rfl,
      .inl ⟨rfl, rfl, refused⟩⟩
  · exact .inl ⟨_, s', _, run, touched.brk,
      ⟨touched.isInit.trans init, ⟨xs', rep'⟩, coalesced.take free _⟩, touched.wrote,
      touched.brk.ge, .inr (rep.served_take free room)⟩
  · exact .inr ⟨run, by omega, by omega, none⟩

/-- The growth of the heap keeps it in shape. -/
theorem slobGrow_heap (grants : env.Grants s.brk) (heap : SlobHeap env s cs)
    (room : env.Low (s.brk + mmapThreshold)) (keeps : Keeps K cs) :
    ∃ s', slobGrow env s = .ok s' ∧ Wrote (Clear K) s s' ∧ s'.brk = s.brk + mmapThreshold ∧
      s'.heapEnd = s.heapEnd + mmapThreshold ∧
      SlobHeap env s' (freed cs ⟨s.heapEnd, mmapThreshold, true⟩ []) := by
  obtain ⟨init, ⟨xs, rep⟩, coalesced⟩ := heap
  obtain ⟨s', xs', run, wrote, init', brk, heapEnd, rep'⟩ := slobGrow_spec rep room grants keeps
  exact ⟨s', run, wrote, brk, heapEnd, init'.trans init, ⟨xs', rep'⟩,
    coalesced_freed (coalesced.concat rfl)⟩

theorem mem_grown_iff {a : Nat} (used : d.used = true) :
    d ∈ freed cs ⟨a, mmapThreshold, true⟩ [] ↔ d ∈ cs := by
  rw [mem_freed_iff used, List.append_nil]

theorem Keeps.grown (keeps : Keeps K cs) {a : Nat} :
    Keeps K (freed cs ⟨a, mmapThreshold, true⟩ []) :=
  keeps.mono fun _ inside used => (mem_grown_iff used).mpr inside

theorem SlobHeap.slobGrow_refused (heap : SlobHeap env s cs)
    (room : env.Low (s.brk + mmapThreshold)) (refuses : env.Refuses s.brk) :
    slobGrow env s = .error .wild := by
  obtain ⟨-, ⟨xs, rep⟩, -⟩ := heap
  exact rep.slobGrow_refused room refuses

/-- `slob_malloc` returns, unless the kernel's grants do not suffice for the request or the
kernel refuses one; it never fails an assertion. -/
theorem slobMalloc_spec (answering : env.Answering) (small : n < 2 ^ 64) (heap : SlobHeap env s cs)
    (room : env.Low (s.brk + mmapThreshold * grants)) (keeps : Keeps K cs) :
    (∃ p s' cs', slobMalloc env grants s n = .ok (p, s') ∧
      s'.brk ≤ s.brk + mmapThreshold * grants ∧ Answer env K s cs n p s' cs') ∨
    (slobMalloc env grants s n = .error .diverge ∧
      trailing cs + mmapThreshold * grants < blockSize n) ∨
    (slobMalloc env grants s n = .error .wild ∧ ∃ brk, env.Refuses brk) := by
  induction grants generalizing s cs with
  | zero =>
    rcases slobTry_cases small heap keeps with
      ⟨p, s', cs', run, brk, answer⟩ | ⟨run, pos, fits, none⟩
    · exact .inl ⟨p, s', cs', slobMalloc_of_some run, brk.le, answer⟩
    · refine .inr (.inl ⟨slobMalloc_zero_of_none run, ?_⟩)
      by_contra enough
      obtain ⟨c, inCs, free, large⟩ := exists_of_le_trailing (pos.trans fits) (not_lt.mp enough)
      exact absurd (none c inCs free) (not_lt.mpr large)
  | succ grants ih =>
    rcases slobTry_cases small heap keeps with
      ⟨p, s', cs', run, brk, answer⟩ | ⟨run, pos, fits, none⟩
    · exact .inl ⟨p, s', cs', slobMalloc_of_some run, by omega, answer⟩
    rw [slobMalloc_succ_of_none run]
    have more : s.brk + mmapThreshold + mmapThreshold * grants =
        s.brk + mmapThreshold * (grants + 1) := by ring
    have room₁ : env.Low (s.brk + mmapThreshold) := Nat.le_trans (by omega) room
    rcases answering.cases s.brk with refuses | granted
    · exact .inr (.inr ⟨by rw [heap.slobGrow_refused room₁ refuses]; rfl, s.brk, refuses⟩)
    obtain ⟨s₁, grown, wrote₁, brk₁, -, heap₁⟩ := slobGrow_heap granted heap room₁ keeps
    rw [grown, ok_bind]
    rcases ih heap₁ (by rw [brk₁, more]; exact room) keeps.grown with
      ⟨p, s', cs', run', brk', ⟨heap', wrote', brk'', answer⟩⟩ | ⟨run', short⟩ | refused
    · refine .inl ⟨p, s', cs', run', by omega, heap', wrote₁.trans wrote', by omega, ?_⟩
      rcases answer with ⟨rfl, rfl, refused⟩ | ⟨c, usedC, atP, sizeC, new, members⟩
      · omega
      · refine .inr ⟨c, usedC, atP, sizeC, fun old => new ((mem_grown_iff usedC).mpr old),
          fun d used => ?_⟩
        rw [members d used, mem_grown_iff used]
    · refine .inr (.inl ⟨run', ?_⟩)
      rw [trailing_freed] at short
      linarith
    · exact .inr (.inr refused)

end Malloc

end Chinos
