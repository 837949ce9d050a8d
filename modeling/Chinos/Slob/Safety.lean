import Mathlib.Logic.Relation
import Chinos.Slob.Malloc

/-!
# Any sequence of `slob_malloc` and `slob_free`

A system is the allocator together with the blocks it has handed out. Its steps are
calls of `slob_malloc`, as long as the heap stays below 2 GiB, and calls of `slob_free`
for a block that is live. In every system that is reached this way the heap is well
formed, the next call passes all assertions, and it writes to no live block.
-/

namespace Chinos

/-- The allocator and the live blocks, each with its address and the size asked for. -/
structure SlobSys where
  slob : Slob
  live : List (Nat × Nat)

/-- The break once the heap is there, which before the first call is still to come. -/
def Slob.top (env : SlobEnv) (s : Slob) : Nat :=
  if s.isInit then s.brk else env.startBrk + mmapThreshold

/-- A program before its first call of the allocator, with nothing handed out. -/
structure SlobStart (env : SlobEnv) (σ : SlobSys) : Prop where
  fresh : σ.slob.isInit = false
  brk : σ.slob.brk = env.startBrk
  live : σ.live = []

/-- One call that returns. A `slob_malloc` may ask the kernel for memory up to `grants`
times. -/
inductive SlobStep (env : SlobEnv) : SlobSys → SlobSys → Prop
  | malloc {σ : SlobSys} {n grants p : Nat} {s' : Slob} (small : n < 2 ^ 64)
      (room : env.Low (σ.slob.top env + mmapThreshold * grants))
      (run : slobMalloc env grants σ.slob n = .ok (p, s')) :
      SlobStep env σ ⟨s', if p = 0 then σ.live else (p, n) :: σ.live⟩
  | free {σ : SlobSys} {p n : Nat} {s' : Slob} (inLive : (p, n) ∈ σ.live)
      (run : slobFree env σ.slob p = .ok s') :
      SlobStep env σ ⟨s', σ.live.erase (p, n)⟩

/-- The systems that calls of the allocator lead to, from a start. -/
def SlobReach (env : SlobEnv) (σ : SlobSys) : Prop :=
  ∃ σ₀, SlobStart env σ₀ ∧ Relation.ReflTransGen (SlobStep env) σ₀ σ

/-- The word at `a` has no byte in the block `b`. -/
def Outside (b : Nat × Nat) (a : Nat) : Prop := a + 8 ≤ b.1 ∨ b.1 + b.2 ≤ a

section Safety

variable {env : SlobEnv} {σ σ' : SlobSys} {s s' : Slob} {cs cs' as bs : List Chunk}
  {live : List (Nat × Nat)} {n p grants : Nat}

/-! ## The invariant -/

/-- Chunk `c` is in use and holds the block `b`, behind its header. -/
def Holds (c : Chunk) (b : Nat × Nat) : Prop :=
  c.used = true ∧ b.1 = c.addr + sizeofMmAllocnode ∧ b.2 + sizeofMmAllocnode ≤ c.size

/-- Every live block is held by a chunk in use, each by its own. -/
structure LiveInv (env : SlobEnv) (s : Slob) (live : List (Nat × Nat)) (cs : List Chunk) :
    Prop where
  heap : SlobHeap env s cs
  held : ∀ b ∈ live, ∃ c ∈ cs, Holds c b
  distinct : (live.map Prod.fst).Nodup

/-- The invariant of the allocator: it is before its first call, or it has a heap whose chunks
hold the live blocks. -/
def SlobInv (env : SlobEnv) (σ : SlobSys) : Prop :=
  SlobStart env σ ∨ ∃ cs, LiveInv env σ.slob σ.live cs

/-- The chunks of the heap that are in use. -/
def inUse (cs : List Chunk) : List Chunk := cs.filter (·.used)

theorem keeps_inUse (cs : List Chunk) : Keeps (inUse cs) cs := fun _ inside =>
  List.mem_filter.mp inside

/-- Where nothing in use is written to, no block in it is. -/
theorem Holds.outside {c : Chunk} {b : Nat × Nat} {K : List Chunk} (holds : Holds c b)
    (inside : c ∈ K) {a : Nat} (clear : Clear K a) : Outside b a := by
  obtain ⟨-, start, room⟩ := holds
  have apart := clear c inside
  unfold Outside
  unfold sizeofMmAllocnode at start room
  unfold Chunk.stop at apart
  omega

theorem LiveInv.outside (inv : LiveInv env s live cs) {b : Nat × Nat} (inLive : b ∈ live) {a : Nat}
    (clear : Clear (inUse cs) a) : Outside b a := by
  obtain ⟨c, inCs, holds⟩ := inv.held b inLive
  exact holds.outside (List.mem_filter.mpr ⟨inCs, holds.1⟩) clear

/-- Two chunks of the heap at the same address are the same. -/
theorem SlobHeap.eq_of_addr (heap : SlobHeap env s cs) {c d : Chunk} (inC : c ∈ cs) (inD : d ∈ cs)
    (same : c.addr = d.addr) : c = d := by
  obtain ⟨-, ⟨xs, rep⟩, -⟩ := heap
  by_contra different
  have largeC := (rep.placed inC).large
  have largeD := (rep.placed inD).large
  have apart := rep.tiles.apart (mem_heapChunks inC) (mem_heapChunks inD) different
  unfold Chunk.stop at apart
  omega

/-! ## `slob_malloc` -/

/-- A new block is held by a chunk of its own. -/
theorem LiveInv.served (inv : LiveInv env s live cs) (heap : SlobHeap env s' cs')
    (served : Served cs cs' p n) : LiveInv env s' ((p, n) :: live) cs' := by
  obtain ⟨c, used, rfl, room, new, members⟩ := served
  refine ⟨heap, fun b inside => ?_, ?_⟩
  · rcases List.mem_cons.mp inside with rfl | old
    · exact ⟨c, (members c used).mpr (.inl rfl), used, rfl, room⟩
    · obtain ⟨d, inCs, holds⟩ := inv.held b old
      exact ⟨d, (members d holds.1).mpr (.inr inCs), holds⟩
  · refine List.nodup_cons.mpr ⟨fun inside => ?_, inv.distinct⟩
    obtain ⟨b, old, same⟩ := List.mem_map.mp inside
    obtain ⟨d, inCs, usedD, start, -⟩ := inv.held b old
    have inC : c ∈ cs' := (members c used).mpr (.inl rfl)
    have inD : d ∈ cs' := (members d usedD).mpr (.inr inCs)
    have eq : d = c := heap.eq_of_addr inD inC (by omega)
    exact new (eq ▸ inCs)

/-- Once there is a heap, `slob_malloc` returns and keeps the invariant, or asks for more than the
kernel may grant. -/
theorem LiveInv.malloc (inv : LiveInv env s live cs) (answering : env.Answering)
    (small : n < 2 ^ 64) (room : env.Low (s.brk + mmapThreshold * grants)) :
    (∃ p s' cs', slobMalloc env grants s n = .ok (p, s') ∧ (p = 0 → n = 0 ∨ blockSize n < n) ∧
      LiveInv env s' (if p = 0 then live else (p, n) :: live) cs' ∧
      ∀ b ∈ live, Wrote (Outside b) s s') ∨
    (slobMalloc env grants s n = .error .diverge ∧ mmapThreshold * grants < blockSize n) ∨
    (slobMalloc env grants s n = .error .wild ∧ ∃ brk, env.Refuses brk) := by
  rcases slobMalloc_spec answering small inv.heap room (keeps_inUse cs) with
    ⟨p, s', cs', run, -, ⟨heap, wrote, -, answer⟩⟩ | ⟨run, short⟩ | refused
  · have outside : ∀ b ∈ live, Wrote (Outside b) s s' := fun b inLive =>
      wrote.imp fun a => inv.outside inLive
    rcases answer with ⟨rfl, rfl, refused⟩ | served
    · refine .inl ⟨0, s', cs', run, fun _ => refused, ?_, outside⟩
      rw [if_pos rfl]
      exact ⟨heap, inv.held, inv.distinct⟩
    · have notNull : p ≠ 0 := by
        obtain ⟨c, -, rfl, -⟩ := served
        simp [sizeofMmAllocnode]
      refine .inl ⟨p, s', cs', run, fun null => absurd null notNull, ?_, outside⟩
      rw [if_neg notNull]
      exact inv.served heap served
  · exact .inr (.inl ⟨run, by omega⟩)
  · exact .inr (.inr refused)

theorem slobMalloc_of_init (pos : n ≠ 0) {s₁ : Slob} (run : slobInit env s = .ok s₁)
    (init : s₁.isInit = true) : slobMalloc env grants s n = slobMalloc env grants s₁ n :=
  slobMallocOn_of_init grants pos run init

theorem slobMalloc_of_init_error (pos : n ≠ 0) {fault : Fault}
    (run : slobInit env s = .error fault) : slobMalloc env grants s n = .error fault :=
  slobMallocOn_of_init_error grants pos run

theorem SlobInv.malloc (inv : SlobInv env σ) (answering : env.Answering) (small : n < 2 ^ 64)
    (room : env.Low (σ.slob.top env + mmapThreshold * grants)) :
    (∃ p s', slobMalloc env grants σ.slob n = .ok (p, s') ∧ (p = 0 → n = 0 ∨ blockSize n < n) ∧
      SlobInv env ⟨s', if p = 0 then σ.live else (p, n) :: σ.live⟩ ∧
      ∀ b ∈ σ.live, Wrote (Outside b) σ.slob s') ∨
    (slobMalloc env grants σ.slob n = .error .diverge ∧ mmapThreshold * grants < blockSize n) ∨
    (slobMalloc env grants σ.slob n = .error .wild ∧ ∃ brk, env.Refuses brk) := by
  rcases inv with start | ⟨cs, inv⟩
  · rw [start.live]
    by_cases zero : n = 0
    · exact .inl ⟨0, σ.slob, slobMalloc_of_some (slobTry_of_zero _ zero), fun _ => .inl zero,
        .inl ⟨start.fresh, start.brk, by simp⟩, by simp⟩
    · rcases answering.cases env.startBrk with refuses | granted
      · refine .inr (.inr ⟨?_, _, refuses⟩)
        rw [slobMalloc_of_init_error zero
          (slobInit_refused (answering.query _) start.fresh start.brk refuses)]
      obtain ⟨s₁, xs, run, -, init, brk, rep⟩ :=
        slobInit_spec (answering.query _) start.fresh start.brk granted
      have inv₁ : LiveInv env s₁ [] [env.firstChunk] :=
        ⟨⟨init, ⟨xs, rep⟩, .singleton _⟩, by simp, by simp⟩
      rw [Slob.top, if_neg (by simp [start.fresh]), ← brk] at room
      rw [slobMalloc_of_init zero run init]
      rcases inv₁.malloc answering small room with ⟨p, s', cs', run', null, inv', -⟩ | short
      · exact .inl ⟨p, s', run', null, .inr ⟨cs', inv'⟩, by simp⟩
      · exact .inr short
  · rw [Slob.top, if_pos inv.heap.init] at room
    rcases inv.malloc answering small room with ⟨p, s', cs', run, null, inv', wrote⟩ | short
    · exact .inl ⟨p, s', run, null, .inr ⟨cs', inv'⟩, wrote⟩
    · exact .inr short

/-! ## `slob_free` -/

theorem LiveInv.free (inv : LiveInv env s live cs) (inLive : (p, n) ∈ live) :
    ∃ s' cs', slobFree env s p = .ok s' ∧ s'.brk = s.brk ∧
      LiveInv env s' (live.erase (p, n)) cs' ∧
      ∀ b ∈ live.erase (p, n), Wrote (Outside b) s s' := by
  obtain ⟨c, inCs, used, start, room⟩ := inv.held _ inLive
  have atP : p = c.addr + sizeofMmAllocnode := start
  obtain ⟨as, bs, rfl⟩ := List.append_of_mem inCs
  obtain ⟨init, ⟨xs, rep⟩, coalesced⟩ := inv.heap
  obtain ⟨s', run, touched, rep'⟩ := slobFree_spec rep used (keeps_inUse (as ++ bs))
  -- the other blocks are held by other chunks
  have others : ∀ b ∈ live.erase (p, n), b ∈ live ∧ ∃ d ∈ as ++ bs, Holds d b := by
    intro b inside
    have nodup : live.Nodup := .of_map _ inv.distinct
    obtain ⟨ne, inLive'⟩ := (nodup.mem_erase_iff).mp inside
    obtain ⟨d, inD, holds⟩ := inv.held b inLive'
    refine ⟨inLive', d, ?_, holds⟩
    have different : d ≠ c := by
      rintro rfl
      have same : b.1 = p := holds.2.1.trans start.symm
      exact ne (List.inj_on_of_nodup_map inv.distinct inLive' inLive same)
    simp only [List.mem_append, List.mem_cons, different, false_or] at inD ⊢
    exact inD
  refine ⟨s', _, atP ▸ run, touched.brk,
    ⟨⟨touched.isInit.trans init, ⟨_, rep'⟩, coalesced_freed coalesced⟩,
    fun b inside => ?_, ?_⟩, fun b inside => ?_⟩
  · obtain ⟨-, d, inD, holds⟩ := others b inside
    exact ⟨d, (mem_freed_iff holds.1).mpr inD, holds⟩
  · exact inv.distinct.sublist (List.erase_sublist.map _)
  · obtain ⟨-, d, inD, holds⟩ := others b inside
    exact touched.wrote.imp fun a clear =>
      holds.outside (List.mem_filter.mpr ⟨inD, holds.1⟩) clear

/-! ## Runs -/

/-- One call keeps the invariant, and writes to no block that is live before and after. -/
theorem SlobInv.step (answering : env.Answering) (inv : SlobInv env σ) (step : SlobStep env σ σ') :
    SlobInv env σ' ∧ ∀ b ∈ σ.live, b ∈ σ'.live → Wrote (Outside b) σ.slob σ'.slob := by
  cases step with
  | malloc small room run =>
    rcases inv.malloc answering small room with
      ⟨p, s', run', -, inv', wrote⟩ | ⟨run', -⟩ | ⟨run', -⟩
    · cases run.symm.trans run'
      exact ⟨inv', fun b inLive _ => wrote b inLive⟩
    · cases run.symm.trans run'
    · cases run.symm.trans run'
  | free inLive run =>
    rcases inv with start | ⟨cs, inv⟩
    · rw [start.live] at inLive
      cases inLive
    · obtain ⟨s', cs', run', -, inv', wrote⟩ := inv.free inLive
      cases run.symm.trans run'
      exact ⟨.inr ⟨cs', inv'⟩, fun b _ inLive' => wrote b inLive'⟩

theorem SlobReach.inv (answering : env.Answering) (reach : SlobReach env σ) :
    SlobInv env σ := by
  obtain ⟨σ₀, start, run⟩ := reach
  induction run with
  | refl => exact .inl start
  | tail _ step ih => exact (ih.step answering step).1

/-! ## The heap in memory -/

/-- A well-formed heap, as its fields show it. The chunks `cs` lie between the two guards,
and `xs` are the nodes of the list. -/
structure SlobWf (env : SlobEnv) (s : Slob) (cs : List Chunk) (xs : List Nat) : Prop where
  -- each size leads to the next chunk, whose tag is that size and its own flag
  tiles : s.tags.Tiles mmAllocBit s.heapStart 0
    (guardAt s.heapStart :: (cs ++ [guardAt s.heapEnd])) (s.heapEnd + sizeofMmAllocnode)
    sizeofMmAllocnode
  sizes : ∀ c ∈ cs, c.size % 32 = 0 ∧ 32 ≤ c.size ∧ c.size < mmAllocBit
  coalesced : cs.IsChain fun c d => c.used = true ∨ d.used = true
  chain : s.links.Chain 0 xs
  members : ∀ x, x ∈ xs ↔ env.IsHead x ∨ ∃ c ∈ cs, c.used = false ∧ c.addr = x
  -- only smaller chunks of its bucket stand between a free chunk and the bucket's head
  buckets : ∀ c ∈ cs, c.used = false → ∃ as bs ds,
    xs = as ++ env.head (mmSize2ndx c.size) :: bs ++ c.addr :: ds ∧
      ∀ x ∈ bs, ¬ env.IsHead x ∧ s.fld .size x ≤ c.size

/-- A chunk stands after the head of its bucket, with only chunks between them. -/
theorem FreeList.bucket_split {xs : List Nat} {x : Nat} (list : FreeList env s xs)
    (inside : x ∈ xs) (chunk : ¬ env.IsHead x) :
    ∃ as bs ds, xs = as ++ env.head (mmSize2ndx (s.fld .size x)) :: bs ++ x :: ds ∧
      ∀ y ∈ bs, ¬ env.IsHead y ∧ s.fld .size y ≤ s.fld .size x := by
  have small := mmSize2ndx_lt (s.fld .size x)
  have isHead := env.isHead_head small
  have bucketHead := env.bucket_head (s.fld .size) small
  have bucketX : env.bucket (s.fld .size) x = mmSize2ndx (s.fld .size x) := if_neg chunk
  have large := list.chunkSize x inside chunk
  have zero := list.headSize _ isHead
  obtain ⟨ls, ds, rfl⟩ := List.append_of_mem inside
  have sorted := list.sorted
  rw [List.pairwise_append] at sorted
  obtain ⟨-, later, before⟩ := sorted
  have inHeads := list.heads _ isHead
  have inLs : env.head (mmSize2ndx (s.fld .size x)) ∈ ls := by
    rcases List.mem_append.mp inHeads with inLs | inRest
    · exact inLs
    · rcases List.mem_cons.mp inRest with same | inDs
      · rw [same] at isHead
        exact absurd isHead chunk
      · have order := (List.pairwise_cons.mp later).1 _ inDs
        unfold SlobEnv.KeyLe at order
        unfold sizeofMmFreenode at large
        omega
  obtain ⟨as, bs, rfl⟩ := List.append_of_mem inLs
  refine ⟨as, bs, ds, rfl, fun y inBs => ?_⟩
  have orderX := before y (by simp [inBs]) x (.head _)
  have sorted' := list.sorted
  rw [List.append_assoc, List.pairwise_append] at sorted'
  have orderHead := (List.pairwise_cons.mp sorted'.2.1).1 y (by simp [inBs])
  unfold SlobEnv.KeyLe at orderX orderHead
  refine ⟨fun isHeadY => ?_, by omega⟩
  have sameBucket : env.bucket (s.fld .size) y =
      env.bucket (s.fld .size) (env.head (mmSize2ndx (s.fld .size x))) := by omega
  have same := isHeadY.eq_of_bucket isHead sameBucket
  have distinct := list.chain.distinct
  rw [List.append_assoc, List.nodup_append, List.cons_append, List.nodup_cons] at distinct
  exact distinct.2.1.1 (same ▸ List.mem_append_left _ inBs)

theorem HeapRep.wf {xs : List Nat} (rep : HeapRep env s cs xs []) (coalesced : Coalesced cs) :
    SlobWf env s cs xs := by
  have atEnd := rep.heapEnd_placed.2.2
  refine ⟨?_, fun c inside => ?_, coalesced, rep.list.chain, fun x => ?_, fun c inside free => ?_⟩
  · have tiles := rep.tiles
    unfold heapChunks at tiles
    rw [← rep.start, ← atEnd] at tiles
    exact tiles
  · obtain ⟨above, slot, below, large, aligned⟩ := rep.placed inside
    exact ⟨aligned, large, rep.size_lt (mem_heapChunks inside)⟩
  · rw [rep.mem_iff]
    simp [FreeAt]
  · have listed : c.addr ∈ xs := (rep.mem_iff _).mpr (.inr ⟨c, inside, free, rfl, by simp⟩)
    have split := rep.list.bucket_split listed (rep.chunk inside)
    rwa [rep.size_eq (mem_heapChunks inside)] at split

theorem SlobHeap.wf (heap : SlobHeap env s cs) : ∃ xs, SlobWf env s cs xs := by
  obtain ⟨-, ⟨xs, rep⟩, coalesced⟩ := heap
  exact ⟨xs, rep.wf coalesced⟩

/-- Every reached heap is well formed, and the next call returns: `slob_free` of any live
block does, and `slob_malloc` does if the kernel may grant what the request takes. It is
assumed of the environment that `slob` itself lies outside the heap (`SlobEnv.apart`) and
that the heap begins at a multiple of 32 bytes (`SlobEnv.startBrk_aligned`). -/
theorem slobReach_wellFormed (granting : env.Granting) (reach : SlobReach env σ) :
    (σ.slob.isInit = true → ∃ cs xs, SlobWf env σ.slob cs xs) ∧
      (∀ n grants, n < 2 ^ 64 → env.Low (σ.slob.top env + mmapThreshold * grants) →
        (∃ p s', slobMalloc env grants σ.slob n = .ok (p, s')) ∨
        (slobMalloc env grants σ.slob n = .error .diverge ∧ mmapThreshold * grants < blockSize n)) ∧
      ∀ p n, (p, n) ∈ σ.live → ∃ s', slobFree env σ.slob p = .ok s' := by
  have inv := reach.inv granting.answering
  refine ⟨fun init => ?_, fun n grants small room => ?_, fun p n inLive => ?_⟩
  · rcases inv with start | ⟨cs, inv⟩
    · rw [start.fresh] at init
      cases init
    · exact ⟨cs, inv.heap.wf⟩
  · rcases inv.malloc granting.answering small room with ⟨p, s', run, -⟩ | short | refused
    · exact .inl ⟨p, s', run⟩
    · exact .inr short
    · obtain ⟨-, brk, refuses⟩ := refused
      exact absurd refuses (granting.grants brk).not_refuses
  · rcases inv with start | ⟨cs, inv⟩
    · rw [start.live] at inLive
      cases inLive
    · obtain ⟨s', -, run, -⟩ := inv.free inLive
      exact ⟨s', run⟩

/-! ## Live blocks -/

/-- Two chunks, of which one holds a block, and the header of the other. -/
theorem SlobHeap.header_apart (heap : SlobHeap env s cs) {c d : Chunk} {b : Nat × Nat}
    (inC : c ∈ cs) (holds : Holds c b)
    (inD : d ∈ guardAt s.heapStart :: (cs ++ [guardAt s.heapEnd])) :
    d.addr + sizeofMmAllocnode ≤ b.1 ∨ b.1 + b.2 ≤ d.addr := by
  obtain ⟨-, ⟨xs, rep⟩, -⟩ := heap
  obtain ⟨-, start, room⟩ := holds
  rw [rep.start] at inD
  by_cases same : d = c
  · exact .inl (same ▸ start.ge)
  · have apart := rep.tiles.apart inD (mem_heapChunks inC) same
    have large := rep.sixteen_le inD
    unfold Chunk.stop at apart
    unfold sizeofMmAllocnode at *
    omega

/-- Two different live blocks lie in different chunks, so they do not overlap. -/
theorem LiveInv.blocks_apart (inv : LiveInv env s live cs) {b b' : Nat × Nat} (inLive : b ∈ live)
    (inLive' : b' ∈ live) (different : b' ≠ b) : b'.1 + b'.2 ≤ b.1 ∨ b.1 + b.2 ≤ b'.1 := by
  obtain ⟨c, inC, -, start, room⟩ := inv.held b inLive
  obtain ⟨d, inD, -, start', room'⟩ := inv.held b' inLive'
  have ne : d ≠ c := by
    rintro rfl
    exact different
      (List.inj_on_of_nodup_map inv.distinct inLive' inLive (start'.trans start.symm))
  obtain ⟨-, ⟨xs, rep⟩, -⟩ := inv.heap
  have apart := rep.tiles.apart (mem_heapChunks inD) (mem_heapChunks inC) ne
  unfold Chunk.stop at apart
  omega

/-- Calls that do not free a live block do not write to it. -/
theorem SlobInv.wrote (answering : env.Answering) (inv : SlobInv env σ) {b : Nat × Nat}
    (inLive : b ∈ σ.live)
    (run : Relation.ReflTransGen (fun τ τ' => SlobStep env τ τ' ∧ b ∈ τ'.live) σ σ') :
    SlobInv env σ' ∧ b ∈ σ'.live ∧ Wrote (Outside b) σ.slob σ'.slob := by
  induction run with
  | refl => exact ⟨inv, inLive, .refl⟩
  | tail _ step ih =>
    obtain ⟨step, inLive'⟩ := step
    obtain ⟨inv₁, inLive₁, wrote₁⟩ := ih
    obtain ⟨inv₂, wrote₂⟩ := inv₁.step answering step
    exact ⟨inv₂, inLive', wrote₁.trans (wrote₂ b inLive₁ inLive')⟩

/-- A live block is aligned, lies between the guards and apart from other live blocks and
from all headers, and is not written to by calls that do not free it. Both the place of
`slob` (`SlobEnv.apart`) and the start of the heap (`SlobEnv.startBrk_aligned`) matter here:
the list heads are written by every call, and a block is as aligned as the heap is. -/
theorem slobReach_blockSafe (granting : env.Granting) (reach : SlobReach env σ)
    (inLive : (p, n) ∈ σ.live) :
    p % 32 = 0 ∧ σ.slob.heapStart + sizeofMmAllocnode < p ∧ p + n ≤ σ.slob.heapEnd ∧
      (∀ b ∈ σ.live, b ≠ (p, n) → b.1 + b.2 ≤ p ∨ p + n ≤ b.1) ∧
      (∃ cs xs, SlobWf env σ.slob cs xs ∧
        ∀ c ∈ guardAt σ.slob.heapStart :: (cs ++ [guardAt σ.slob.heapEnd]),
          c.addr + sizeofMmAllocnode ≤ p ∨ p + n ≤ c.addr) ∧
      ∀ σ', Relation.ReflTransGen (fun τ τ' => SlobStep env τ τ' ∧ (p, n) ∈ τ'.live) σ σ' →
        Wrote (Outside (p, n)) σ.slob σ'.slob := by
  have inv := reach.inv granting.answering
  have kept : ∀ σ', Relation.ReflTransGen (fun τ τ' => SlobStep env τ τ' ∧ (p, n) ∈ τ'.live) σ σ' →
      Wrote (Outside (p, n)) σ.slob σ'.slob := fun σ' run =>
    (inv.wrote granting.answering inLive run).2.2
  rcases inv with start | ⟨cs, inv⟩
  · rw [start.live] at inLive
    cases inLive
  obtain ⟨c, inC, holds⟩ := inv.held _ inLive
  obtain ⟨xs, wf⟩ := inv.heap.wf
  obtain ⟨-, ⟨ys, rep⟩, -⟩ := inv.heap
  have place : p = c.addr + 16 ∧ n + 16 ≤ c.size := holds.2
  obtain ⟨above, slot, below, large, aligned⟩ := rep.placed inC
  have atEnd := rep.heapEnd_placed.2.2
  have startAligned := env.startBrk_aligned
  unfold Chunk.stop at below
  refine ⟨by omega, ?_, by omega, fun b other => inv.blocks_apart inLive other,
    ⟨cs, xs, wf, fun d inD => inv.heap.header_apart inC holds inD⟩, kept⟩
  rw [rep.start]
  unfold sizeofMmAllocnode
  omega

end Safety

/-! ## A program -/

/-- A program whose heap starts at 5 MiB, on a kernel that grants every request. -/
def slobDemo : SlobEnv where
  nodelist := 0x400000
  startBrk := 0x500000
  sysBrk := fun brk addr => if addr = 0 then brk else addr
  nodelist_aligned := by decide
  nodelist_pos := by decide
  nodelist_fits := by decide
  startBrk_aligned := by decide
  startBrk_pos := by decide
  startBrk_fits := by decide
  apart := by decide

theorem slobDemo_granting : slobDemo.Granting := fun _ _ => rfl

/-- The program before its first call, with memory that is clear. -/
def slobDemoStart : SlobSys := ⟨⟨false, 0, 0, 0, 0x500000, fun _ => 0, []⟩, []⟩

theorem slobDemoStart_start : SlobStart slobDemo slobDemoStart := ⟨rfl, rfl, rfl⟩

/-- The program can ask for 100 bytes, and gets them. -/
theorem slobDemo_reach : ∃ σ p, SlobReach slobDemo σ ∧ (p, 100) ∈ σ.live := by
  have inv : SlobInv slobDemo slobDemoStart := .inl slobDemoStart_start
  have size : blockSize 100 = 128 := by decide
  have room : slobDemo.Low (slobDemoStart.slob.top slobDemo + mmapThreshold * 1) := by
    unfold SlobEnv.Low
    decide
  rcases inv.malloc slobDemo_granting.answering (n := 100) (by decide) room with
    ⟨p, s', run, null, -⟩ | ⟨-, short⟩ | ⟨-, brk, refuses⟩
  · have notNull : p ≠ 0 := fun isNull => by
      have refused := null isNull
      omega
    refine ⟨_, p, ⟨slobDemoStart, slobDemoStart_start, .single (.malloc (by decide) room run)⟩, ?_⟩
    rw [if_neg notNull]
    exact .head _
  · rw [size] at short
    exact absurd short (by decide)
  · exact absurd refuses (slobDemo_granting.grants brk).not_refuses

theorem slobDemo_wellFormed : ∃ σ, SlobReach slobDemo σ ∧ σ.slob.isInit = true ∧
    ∃ cs xs, SlobWf slobDemo σ.slob cs xs := by
  obtain ⟨σ, p, reach, inLive⟩ := slobDemo_reach
  have init : σ.slob.isInit = true := by
    rcases reach.inv slobDemo_granting.answering with start | ⟨cs, inv⟩
    · rw [start.live] at inLive
      cases inLive
    · exact inv.heap.init
  exact ⟨σ, reach, init, (slobReach_wellFormed slobDemo_granting reach).1 init⟩

theorem slobDemo_blockSafe : ∃ σ p, SlobReach slobDemo σ ∧ (p, 100) ∈ σ.live ∧ p % 32 = 0 := by
  obtain ⟨σ, p, reach, inLive⟩ := slobDemo_reach
  exact ⟨σ, p, reach, inLive, (slobReach_blockSafe slobDemo_granting reach inLive).1⟩

end Chinos
