import Chinos.Slob.Free

/-!
# Taking a block from a free chunk

`slob_malloc` takes the block from the start of a free chunk. The chunk leaves the list
and is marked as in use; what is left of it, if anything, is a free chunk of its own.
-/

namespace Chinos

/-- What becomes of the free chunk `c` when `k` bytes of it are taken. -/
def taken (c : Chunk) (k : Nat) : List Chunk :=
  if c.size = k then [⟨c.addr, k, true⟩]
  else [⟨c.addr, k, true⟩, ⟨c.addr + k, c.size - k, false⟩]

section Take

variable {env : SlobEnv} {s s' : Slob} {cs as bs : List Chunk} {xs off : List Nat}
  {b c d : Chunk} {K : List Chunk} {k : Nat}

/-- A free chunk can be taken off the list, which leaves the chunks as they are. -/
theorem HeapRep.removeFree (rep : HeapRep env s cs xs off) (inside : c ∈ cs)
    (free : c.used = false) (out : c.addr ∉ off) (keeps : Keeps K cs) :
    ∃ s', removeNode env s c.addr = .ok s' ∧ Touched (Clear K) s s' ∧
      HeapRep env s' cs (xs.erase c.addr) (c.addr :: off) := by
  have onList : c.addr ∈ xs := (rep.mem_iff _).mpr (.inr ⟨c, inside, free, rfl, out⟩)
  obtain ⟨s', run, touched, tags, list⟩ := removeNode_spec rep.list onList (rep.chunk inside)
    fun y inside f => rep.clear_list keeps inside f
  refine ⟨s', run, touched, rep.rebuild touched ?_ rep.sizes list fun x => ?_⟩
  · exact rep.tiles.congr fun d here =>
      ⟨tags.size _ (rep.cell_tag here (by decide)),
        tags.preceding _ (rep.cell_tag here (by decide))⟩
  · rw [rep.list.mem_erase, rep.mem_iff]
    constructor
    · rintro ⟨isHead | ⟨d, here, freeD, rfl, outD⟩, ne⟩
      · exact .inl isHead
      · exact .inr ⟨d, here, freeD, rfl, by simp [ne, outD]⟩
    · rintro (isHead | ⟨d, here, freeD, rfl, outD⟩)
      · refine ⟨.inl isHead, ?_⟩
        rintro rfl
        exact rep.chunk inside isHead
      · simp only [List.mem_cons, not_or] at outD
        obtain ⟨ne, outD⟩ := outD
        exact ⟨.inr ⟨d, here, freeD, rfl, outD⟩, ne⟩

/-- The fields `splitNode` writes before it puts the remainder on the list. -/
def Slob.cut (s : Slob) (c e : Chunk) (k : Nat) : Slob :=
  (((s.put (c.addr + k) .size (c.size - k)).put (c.addr + k) .preceding k).put
    c.addr .size k).put e.addr .preceding (c.size - k + e.flag mmAllocBit)

section Cut

variable (rep : HeapRep env s (as ++ c :: bs) xs [c.addr]) (free : c.used = false)
  (pos : 0 < k) (less : k < c.size) (aligned : 32 ∣ k)
include rep free pos less aligned

omit free aligned in
/-- No other chunk starts at an address inside chunk `c`. -/
theorem HeapRep.addr_ne_inside (d : Chunk) (other : d ∈ as ∨ d ∈ bs) : d.addr ≠ c.addr + k := by
  intro same
  have inC : c ∈ heapChunks env s (as ++ c :: bs) := mem_heapChunks (by simp)
  have inD : d ∈ heapChunks env s (as ++ c :: bs) := by
    refine mem_heapChunks ?_
    rcases other with inAs | inBs <;> simp [*]
  have ne : d ≠ c := fun eq => rep.addr_ne d other (eq ▸ rfl)
  have large := rep.sixteen_le inD
  rcases rep.tiles.apart inD inC ne with before | after
  · unfold Chunk.stop at before
    omega
  · unfold Chunk.stop at after
    omega

omit free aligned in
/-- No address inside chunk `c` is on the list. -/
theorem HeapRep.notMem_inside : c.addr + k ∉ xs := by
  intro onList
  rcases (rep.mem_iff _).mp onList with isHead | ⟨d, inD, -, same, -⟩
  · obtain ⟨above, slot, below, large, whole⟩ := rep.placed (show c ∈ as ++ c :: bs by simp)
    unfold Chunk.stop at below
    exact rep.list.low.not_isHead (by omega) (by omega) isHead
  · simp only [List.mem_append, List.mem_cons] at inD
    rcases inD with inAs | rfl | inBs
    · exact rep.addr_ne_inside pos less d (.inl inAs) same
    · omega
    · exact rep.addr_ne_inside pos less d (.inr inBs) same

omit free in
/-- The remainder of a chunk that is cut has room for a header. -/
theorem HeapRep.cell_cut (f : NodeField) : Cell env s.brk (c.addr + k) f := by
  obtain ⟨above, slot, below, large, whole⟩ := rep.placed (show c ∈ as ++ c :: bs by simp)
  have offset := f.offset_le
  unfold Chunk.stop at below
  exact .inr (.inl ⟨by omega, by omega, by omega⟩)

theorem HeapRep.cut {e : Chunk} {rest : List Chunk}
    (next : bs ++ [guardAt s.heapEnd] = e :: rest) :
    HeapRep env (s.cut c e k) (as ++ ⟨c.addr, k, false⟩ :: ⟨c.addr + k, c.size - k, false⟩ :: bs)
      xs [c.addr + k, c.addr] := by
  have inC : c ∈ as ++ c :: bs := by simp
  have placed := rep.placed inC
  have low := rep.list.low
  have cellR := rep.cell_cut pos less aligned
  have split : heapChunks env s (as ++ c :: bs) =
      (guardAt env.startBrk :: as) ++ c :: e :: rest := by
    simp [heapChunks, ← next]
  have inE : e ∈ heapChunks env s (as ++ c :: bs) := by rw [split]; simp
  have cellE : Cell env s.brk e.addr .preceding := rep.cell_tag inE (by decide)
  have apart := rep.addr_ne_inside pos less
  have outC : c.addr ∉ xs := rep.notMem_of_off inC (by simp)
  have outR := rep.notMem_inside pos less
  have touched : Touched (fun _ => True) s (s.cut c e k) :=
    (((Touched.put trivial).trans (.put trivial)).trans (.put trivial)).trans (.put trivial)
  refine rep.rebuild touched ?_ ?_ ?_ ?_
  · have tiles := rep.tiles_split_at next pos less cellR
    rw [free] at tiles
    exact tiles
  · intro d inside
    have old := rep.sizes
    simp only [List.mem_append, List.mem_cons] at inside old
    rcases inside with inAs | rfl | rfl | inBs
    · exact old d (.inl inAs)
    · exact ⟨aligned, pos⟩
    · exact ⟨Nat.dvd_sub (old c (.inr (.inl rfl))).1 aligned, Nat.sub_pos_of_lt less⟩
    · exact old d (.inr (.inr inBs))
  · exact (((rep.list.put (cellR _) (.inr ⟨rfl, outR⟩)).put (cellR _) (.inl rfl)).put
      (placed.cell _) (.inr ⟨rfl, outC⟩)).put cellE (.inl rfl)
  · intro x
    have others : ∀ ds : List Chunk, (∀ d ∈ ds, d ∈ as ∨ d ∈ bs) →
        (FreeAt ds [c.addr] x ↔ FreeAt ds [c.addr + k, c.addr] x) := fun ds sub =>
      freeAt_congr (fun d inside => by simpa using rep.addr_ne d (sub d inside))
        fun d inside => by
          simpa using ⟨apart d (sub d inside), rep.addr_ne d (sub d inside)⟩
    rw [rep.mem_iff, freeAt_append, freeAt_cons, freeAt_append, freeAt_cons, freeAt_cons,
      others as fun d inside => .inl inside, others bs fun d inside => .inr inside]
    have held : ¬ (c.used = false ∧ c.addr = x ∧ x ∉ [c.addr]) := by
      rintro ⟨-, rfl, out⟩
      simp at out
    have heldC : ¬ (c.addr = x ∧ x ∉ [c.addr + k, c.addr]) := by
      rintro ⟨rfl, out⟩
      simp at out
    have heldR : ¬ (c.addr + k = x ∧ x ∉ [c.addr + k, c.addr]) := by
      rintro ⟨rfl, out⟩
      simp at out
    simp only [held, heldC, heldR, true_and, false_or]

/-- `splitNode` cuts the chunk and lists the remainder; nothing else is listed. -/
theorem splitNode_spec (keeps : Keeps K (as ++ c :: bs)) :
    ∃ s' xs', splitNode env s c.addr k (c.size - k) = .ok s' ∧ Touched (Clear K) s s' ∧
      HeapRep env s' (as ++ ⟨c.addr, k, false⟩ :: ⟨c.addr + k, c.size - k, false⟩ :: bs)
        xs' [c.addr] ∧ xs'.erase (c.addr + k) = xs := by
  have inC : c ∈ as ++ c :: bs := by simp
  have placed := rep.placed inC
  have low := rep.list.low
  have cellR := rep.cell_cut pos less aligned
  obtain ⟨e, rest, next⟩ := exists_next s bs
  have split : heapChunks env s (as ++ c :: bs) =
      (guardAt env.startBrk :: as) ++ c :: e :: rest := by
    simp [heapChunks, ← next]
  have inE : e ∈ heapChunks env s (as ++ c :: bs) := by rw [split]; simp
  have cellE : Cell env s.brk e.addr .preceding := rep.cell_tag inE (by decide)
  have atE : e.addr = c.addr + c.size := rep.next_addr split
  have small := rep.size_lt (mem_heapChunks inC)
  have noWrap : ∀ n ≤ c.size, cU64 ((c.addr : Int) + n) = c.addr + n := by
    intro n le
    have below := placed.below
    have fits := env.startBrk_fits
    unfold SlobEnv.Low at low
    unfold Chunk.stop at below
    rw [← Nat.cast_add]
    exact cU64_natCast (by omega)
  have tagE : (((s.put (c.addr + k) .size (c.size - k)).put (c.addr + k) .preceding k).put
      c.addr .size k).fld .preceding e.addr = c.size + e.flag mmAllocBit := by
    rw [Slob.fld_put low (placed.cell _) cellE, if_neg (by simp), Slob.fld_put low (cellR _) cellE,
      if_neg (by rintro ⟨same, -⟩; omega), Slob.fld_put low (cellR _) cellE, if_neg (by simp)]
    exact rep.tag_eq split
  have keeps' : Keeps K
      (as ++ ⟨c.addr, k, false⟩ :: ⟨c.addr + k, c.size - k, false⟩ :: bs) :=
    keeps.replace free fun d inBs => .tail _ (.tail _ inBs)
  have rep' := rep.cut free pos less aligned next
  have body : ∀ a, c.addr ≤ a → a + 8 ≤ c.stop → Clear K a := fun a atLeast atMost =>
    rep.clear_free keeps inC free atLeast atMost
  have room : k + 32 ≤ c.size := by
    have whole := placed.aligned
    omega
  have touched : Touched (Clear K) s (s.cut c e k) := by
    refine (((Touched.put ?_).trans (.put ?_)).trans (.put ?_)).trans (.put ?_)
    · exact body _ (by simp [NodeField.offset])
        (by simp only [NodeField.offset, Chunk.stop]; omega)
    · exact body _ (by simp [NodeField.offset, Nat.add_assoc])
        (by simp only [NodeField.offset, Chunk.stop]; omega)
    · exact rep.clear_tag keeps (mem_heapChunks inC) (by decide)
    · exact rep.clear_tag keeps inE (by decide)
  have inR : (⟨c.addr + k, c.size - k, false⟩ : Chunk) ∈
      as ++ ⟨c.addr, k, false⟩ :: ⟨c.addr + k, c.size - k, false⟩ :: bs := by simp
  have outR : c.addr + k ∉ xs := rep'.notMem_of_off inR (.head _)
  obtain ⟨s', run, listed, rep''⟩ := rep'.addFree inR rfl (by simp; omega) keeps'
  refine ⟨s', _, ?_, touched.trans listed, rep'', List.erase_orderedInsert_of_notMem outR⟩
  unfold splitNode
  rw [nodeLoad_eq low (placed.cell _), ok_bind, rep.size_eq (mem_heapChunks inC)]
  dsimp only
  rw [noWrap _ le_rfl, noWrap k less.le, nodeStore_eq low (cellR _), ok_bind,
    nodeStore_at low (cellR _) (by rfl), ok_bind, nodeStore_at low (placed.cell _) (by rfl),
    ok_bind, ← atE, nodeLoad_at low cellE (by rfl), ok_bind, tagE, tag_and_bit small,
    size_or_flag (by omega), nodeStore_at low cellE (by rfl), ok_bind]
  exact run

end Cut

/-- A block of `k` bytes is taken from the free chunk `c`, which leaves the list to what
remains of it. -/
theorem takeNode_spec (rep : HeapRep env s (as ++ c :: bs) xs []) (free : c.used = false)
    (pos : 0 < k) (enough : k ≤ c.size) (aligned : 32 ∣ k) (keeps : Keeps K (as ++ c :: bs)) :
    ∃ s' xs', takeNode env s c.addr k = .ok (c.addr + sizeofMmAllocnode, s') ∧
      Touched (Clear K) s s' ∧ HeapRep env s' (as ++ taken c k ++ bs) xs' [] ∧
      unlist xs' (taken c k).tail.head? = xs.erase c.addr := by
  have inC : c ∈ as ++ c :: bs := by simp
  obtain ⟨s₁, run₁, touched₁, rep₁⟩ := rep.removeFree inC free List.not_mem_nil keeps
  have small := rep₁.size_lt (mem_heapChunks inC)
  have remaining : cU32 ((c.size : Int) - k) = c.size - k := by
    rw [← Nat.cast_sub enough]
    exact cU32_natCast (by omega)
  -- the chunk is cut if something remains
  have cut : ∃ s₂ xs₂ bs₂, trimNode env s₁ c.addr k (c.size - k) = .ok s₂ ∧
      Touched (Clear K) s₁ s₂ ∧ HeapRep env s₂ (as ++ ⟨c.addr, k, false⟩ :: bs₂) xs₂ [c.addr] ∧
      ⟨c.addr, k, true⟩ :: bs₂ = taken c k ++ bs ∧ (∀ d ∈ bs, d ∈ bs₂) ∧
      unlist xs₂ (taken c k).tail.head? = xs.erase c.addr := by
    have whole := (rep.placed inC).aligned
    by_cases exact : c.size = k
    · subst exact
      have same : (⟨c.addr, c.size, false⟩ : Chunk) = c := by rw [← free]
      refine ⟨s₁, xs.erase c.addr, bs, if_neg (by simp [sizeofMmFreenode]), .refl, ?_,
        by simp [taken], fun d inside => inside, by simp [taken, unlist]⟩
      rw [same]
      exact rep₁
    · obtain ⟨s₂, xs₂, run₂, touched₂, rep₂, erased⟩ :=
        splitNode_spec rep₁ free pos (by omega) aligned keeps
      refine ⟨s₂, xs₂, _, ?_, touched₂, rep₂, by simp [taken, exact],
        fun d inside => .tail _ inside, by simpa [taken, exact, unlist] using erased⟩
      rw [trimNode, if_pos (by unfold sizeofMmFreenode; omega), run₂]
  obtain ⟨s₂, xs₂, bs₂, run₂, touched₂, rep₂, shape, subset, listed⟩ := cut
  have inC₂ : (⟨c.addr, k, false⟩ : Chunk) ∈ as ++ ⟨c.addr, k, false⟩ :: bs₂ := by simp
  have placed₂ := rep₂.placed inC₂
  have keeps₂ : Keeps K (as ++ ⟨c.addr, k, false⟩ :: bs₂) :=
    keeps.replace free fun d inBs => .tail _ (subset d inBs)
  obtain ⟨q, small₂, tag⟩ := rep₂.tag_parts (mem_heapChunks inC₂)
  have rep₃ := rep₂.markUsed (v := q + mmAllocBit) rfl (by rw [tag]; rfl)
  have touched₃ : Touched (Clear K) s₂ (s₂.put c.addr .preceding (q + mmAllocBit)) :=
    .put (rep₂.clear_tag keeps₂ (mem_heapChunks inC₂) (by decide))
  have flagged : q ||| mmAllocBit = q + mmAllocBit := size_or_flag small₂ (guardAt 0)
  have ret : cU64 ((c.addr : Int) + sizeofMmAllocnode) = c.addr + sizeofMmAllocnode := by
    obtain ⟨above, slot, below, large, whole⟩ := placed₂
    have low := rep₂.list.low
    have fits := env.startBrk_fits
    unfold SlobEnv.Low at low
    unfold Chunk.stop at below
    unfold sizeofMmAllocnode
    dsimp only at *
    rw [← Nat.cast_add]
    exact cU64_natCast (by omega)
  refine ⟨_, xs₂, ?_, touched₁.trans (touched₂.trans touched₃), ?_, listed⟩
  · unfold takeNode
    rw [run₁, ok_bind, nodeLoad_eq rep₁.list.low ((rep₁.placed inC).cell _), ok_bind,
      rep₁.size_eq (mem_heapChunks inC)]
    dsimp only
    rw [remaining, run₂, ok_bind, nodeLoad_eq rep₂.list.low (placed₂.cell _), ok_bind, tag,
      show (⟨c.addr, k, false⟩ : Chunk).flag mmAllocBit = 0 from rfl, Nat.add_zero, flagged,
      nodeStore_eq rep₂.list.low (placed₂.cell _), ok_bind, ret]
    rfl
  · rw [List.append_assoc, ← shape]
    exact rep₃

end Take

end Chinos
