import Chinos.Slob.Heap

/-!
# `slob_free` on the chunks

`freed` is what freeing a chunk does to the list of chunks: the chunk is marked free
and merged with its free neighbours. `slob_free` does this to the heap, passes all its
assertions, and writes nothing inside the blocks of other chunks in use.
-/

namespace Chinos

/-- The chunk `c` merged with the chunk after it, if that one is free. -/
def mergeNext (c : Chunk) : List Chunk → Chunk × List Chunk
  | [] => (c, [])
  | d :: bs => if d.used then (c, d :: bs) else (⟨c.addr, c.size + d.size, false⟩, bs)

/-- The chunk `c` merged with the chunk before it, if that one is free. -/
def mergePrev (as : List Chunk) (c : Chunk) : List Chunk × Chunk :=
  match as.getLast? with
  | none => (as, c)
  | some b => if b.used then (as, c) else (as.dropLast, ⟨b.addr, b.size + c.size, false⟩)

/-- The chunks after chunk `c`, between `as` and `bs`, is freed. -/
def freed (as : List Chunk) (c : Chunk) (bs : List Chunk) : List Chunk :=
  let next := mergeNext { c with used := false } bs
  let prev := mergePrev as next.1
  prev.1 ++ prev.2 :: next.2

/-- The list without the neighbour `d`, which is on it if it is free. -/
def unlist (xs : List Nat) : Option Chunk → List Nat
  | none => xs
  | some d => if d.used then xs else xs.erase d.addr

section Free

variable {env : SlobEnv} {s s' : Slob} {cs cs' as bs : List Chunk} {xs xs' off off' : List Nat}
  {b c d : Chunk} {K : List Chunk}

/-- A heap after stores, put together from its parts. -/
theorem HeapRep.rebuild {P : Nat → Prop} (rep : HeapRep env s cs xs off) (touched : Touched P s s')
    (tiles : s'.tags.Tiles mmAllocBit env.startBrk 0 (heapChunks env s cs') s.brk 16)
    (sizes : ∀ c ∈ cs', 32 ∣ c.size ∧ 0 < c.size) (list : FreeList env s' xs')
    (mem_iff : ∀ x, x ∈ xs' ↔ env.IsHead x ∨ FreeAt cs' off' x) :
    HeapRep env s' cs' xs' off' where
  start := touched.heapStart.trans rep.start
  tiles := by
    unfold heapChunks at *
    rw [touched.heapEnd, touched.brk]
    exact tiles
  cBrk := by rw [touched.cBrk, touched.brk, rep.cBrk]
  sizes := sizes
  list := list
  mem_iff := mem_iff

theorem HeapRep.addr_ne (rep : HeapRep env s (as ++ c :: bs) xs off) (d : Chunk)
    (other : d ∈ as ∨ d ∈ bs) : d.addr ≠ c.addr := by
  have split : heapChunks env s (as ++ c :: bs) =
      (guardAt env.startBrk :: as) ++ c :: (bs ++ [guardAt s.heapEnd]) := by
    simp [heapChunks]
  obtain ⟨before, after⟩ := rep.addr_lt split
  rcases other with inAs | inBs
  · exact (before d (.tail _ inAs)).ne
  · exact (after d (by simp [inBs])).ne'

theorem HeapRep.chunk (rep : HeapRep env s cs xs off) (inside : c ∈ cs) : ¬ env.IsHead c.addr :=
  (rep.placed inside).chunk rep.list.low

/-- A free chunk that is held back is not on the list. -/
theorem HeapRep.notMem_of_off (rep : HeapRep env s cs xs off) (inside : c ∈ cs)
    (held : c.addr ∈ off) : c.addr ∉ xs := by
  intro onList
  rcases (rep.mem_iff _).mp onList with isHead | ⟨d, -, -, -, out⟩
  · exact rep.chunk inside isHead
  · exact out held

/-! ## Marking -/

/-- The mark of a chunk changes that is on the list neither before nor after. -/
theorem HeapRep.mark (rep : HeapRep env s (as ++ c :: bs) xs off) {u : Bool} {v : Nat}
    (value : v + c.flag mmAllocBit =
      s.fld .preceding c.addr + ({ c with used := u } : Chunk).flag mmAllocBit)
    (only : ∀ x ∈ off ++ off', x = c.addr) (held : c.used = false → c.addr ∈ off)
    (held' : u = false → c.addr ∈ off') :
    HeapRep env (s.put c.addr .preceding v) (as ++ { c with used := u } :: bs) xs off' := by
  have cell := (rep.placed (show c ∈ as ++ c :: bs by simp)).cell
  have touched : Touched (fun _ => True) s (s.put c.addr .preceding v) := .put trivial
  refine rep.rebuild touched (rep.tiles_setFlag value) ?_ (rep.list.put (cell _) (.inl rfl)) ?_
  · intro d inside
    have old := rep.sizes
    simp only [List.mem_append, List.mem_cons] at inside old
    rcases inside with inAs | rfl | inBs
    · exact old d (.inl inAs)
    · exact old c (.inr (.inl rfl))
    · exact old d (.inr (.inr inBs))
  · intro x
    have others : ∀ ds : List Chunk, (∀ d ∈ ds, d ∈ as ∨ d ∈ bs) →
        (FreeAt ds off x ↔ FreeAt ds off' x) := fun ds sub =>
      freeAt_congr
        (fun d inside here =>
          rep.addr_ne d (sub d inside) (only _ (List.mem_append_left _ here)))
        (fun d inside here =>
          rep.addr_ne d (sub d inside) (only _ (List.mem_append_right _ here)))
    have notListed : ¬ (c.used = false ∧ c.addr = x ∧ x ∉ off) := by
      rintro ⟨free, rfl, out⟩
      exact out (held free)
    have notListed' : ¬ (u = false ∧ c.addr = x ∧ x ∉ off') := by
      rintro ⟨free, rfl, out⟩
      exact out (held' free)
    rw [rep.mem_iff, freeAt_append, freeAt_cons, freeAt_append, freeAt_cons,
      others as fun d inside => .inl inside, others bs fun d inside => .inr inside]
    simp only [notListed, notListed']

/-- A chunk in use becomes free, and is held back. -/
theorem HeapRep.markFree (rep : HeapRep env s (as ++ c :: bs) xs []) (used : c.used = true)
    {v : Nat} (value : v + mmAllocBit = s.fld .preceding c.addr) :
    HeapRep env (s.put c.addr .preceding v) (as ++ { c with used := false } :: bs) xs
      [c.addr] := by
  refine rep.mark ?_ (by simp) (by simp [used]) (by simp)
  simp [Chunk.flag, used, value]

/-- A free chunk that is held back from the list can be marked as used. -/
theorem HeapRep.markUsed (rep : HeapRep env s (as ++ c :: bs) xs [c.addr])
    (free : c.used = false) {v : Nat} (value : v = s.fld .preceding c.addr + mmAllocBit) :
    HeapRep env (s.put c.addr .preceding v) (as ++ { c with used := true } :: bs) xs [] := by
  refine rep.mark ?_ (by simp) (by simp) (by simp)
  simp [Chunk.flag, free, value]

/-! ## Merging -/

section Merge

variable (rep : HeapRep env s (as ++ c :: d :: bs) xs off) {listed : Nat}
  (which : listed = c.addr ∧ off = [d.addr] ∨ listed = d.addr ∧ off = [c.addr])
include rep which

theorem HeapRep.listed_chunk : ¬ env.IsHead listed := by
  rcases which with ⟨rfl, -⟩ | ⟨rfl, -⟩
  · exact rep.chunk (by simp)
  · exact rep.chunk (by simp)

/-- Other chunks than the two neighbours are on the list before and after. -/
theorem HeapRep.freeAt_others {x : Nat} (ds : List Chunk) (sub : ∀ y ∈ ds, y ∈ as ∨ y ∈ bs) :
    (FreeAt ds off x ↔ FreeAt ds [c.addr] x) ∧ (FreeAt ds [c.addr] x → x ≠ listed) := by
  have rep' := rep
  rw [List.append_cons] at rep'
  have apartC : ∀ y ∈ ds, y.addr ≠ c.addr := fun y inside =>
    rep.addr_ne y ((sub y inside).imp_right (.tail _))
  have apartD : ∀ y ∈ ds, y.addr ≠ d.addr := fun y inside =>
    rep'.addr_ne y ((sub y inside).imp_left fun inAs => by simp [inAs])
  refine ⟨freeAt_congr (fun y inside => ?_) fun y inside => by simpa using apartC y inside, ?_⟩
  · rcases which with ⟨-, rfl⟩ | ⟨-, rfl⟩
    · simpa using apartD y inside
    · simpa using apartC y inside
  · rintro ⟨y, inside, -, rfl, -⟩
    rcases which with ⟨rfl, -⟩ | ⟨rfl, -⟩
    · exact apartC y inside
    · exact apartD y inside

/-- Once the listed neighbour is off the list, the merged chunk is held back. -/
theorem HeapRep.mem_iff_merged (x : Nat) : (x ∈ xs ∧ x ≠ listed) ↔
    env.IsHead x ∨ FreeAt (as ++ ⟨c.addr, c.size + d.size, false⟩ :: bs) [c.addr] x := by
  obtain ⟨sameAs, neAs⟩ := rep.freeAt_others which as fun y inside => .inl inside
  obtain ⟨sameBs, neBs⟩ := rep.freeAt_others which bs fun y inside => .inr inside
  rw [rep.mem_iff, freeAt_append, freeAt_cons, freeAt_cons, freeAt_append, freeAt_cons, sameAs,
    sameBs]
  constructor
  · rintro ⟨isHead | inAs | ⟨-, rfl, out⟩ | ⟨-, rfl, out⟩ | inBs, ne⟩
    · exact .inl isHead
    · exact .inr (.inl inAs)
    · rcases which with ⟨rfl, -⟩ | ⟨-, rfl⟩
      · exact absurd rfl ne
      · simp at out
    · rcases which with ⟨-, rfl⟩ | ⟨rfl, -⟩
      · simp at out
      · exact absurd rfl ne
    · exact .inr (.inr (.inr inBs))
  · rintro (isHead | inAs | ⟨-, rfl, out⟩ | inBs)
    · exact ⟨.inl isHead, fun same => rep.listed_chunk which (same ▸ isHead)⟩
    · exact ⟨.inr (.inl inAs), neAs inAs⟩
    · simp at out
    · exact ⟨.inr (.inr (.inr (.inr inBs))), neBs inBs⟩

/-- The merged chunk is not on the list that the listed neighbour was taken off. -/
theorem HeapRep.notMem_erase_merged : c.addr ∉ xs.erase listed := by
  intro inside
  rcases (rep.mem_iff_merged which _).mp (rep.list.mem_erase.mp inside) with
    isHead | ⟨y, -, -, -, held⟩
  · exact rep.chunk (by simp) isHead
  · simp at held

end Merge

/-- The sizes of two neighbours add up to less than the memory below the break. -/
theorem HeapRep.sum_size_lt (rep : HeapRep env s (as ++ c :: d :: bs) xs off) :
    c.size + d.size < 2 ^ 31 := by
  have split : heapChunks env s (as ++ c :: d :: bs) =
      (guardAt env.startBrk :: as) ++ c :: d :: (bs ++ [guardAt s.heapEnd]) := by
    simp [heapChunks]
  have stop : d.addr = c.addr + c.size := rep.next_addr split
  have above := (rep.placed (show c ∈ as ++ c :: d :: bs by simp)).above
  have below := (rep.placed (show d ∈ as ++ c :: d :: bs by simp)).below
  have low := rep.list.low
  unfold SlobEnv.Low at low
  unfold Chunk.stop at below
  omega

/-- A merged chunk has a size that a chunk may have. -/
theorem HeapRep.sizes_merge (rep : HeapRep env s (as ++ c :: d :: bs) xs off) :
    ∀ y ∈ as ++ ⟨c.addr, c.size + d.size, false⟩ :: bs, 32 ∣ y.size ∧ 0 < y.size := by
  intro y inside
  have old := rep.sizes
  simp only [List.mem_append, List.mem_cons] at inside old
  rcases inside with inAs | rfl | inBs
  · exact old y (.inl inAs)
  · exact ⟨(old c (.inr (.inl rfl))).1.add (old d (.inr (.inr (.inl rfl)))).1,
      Nat.add_pos_left (old c (.inr (.inl rfl))).2 _⟩
  · exact old y (.inr (.inr (.inr inBs)))

/-- Merging two free neighbours, of which one is on the list. -/
theorem mergeNodes_spec (rep : HeapRep env s (as ++ c :: d :: bs) xs off)
    (freeC : c.used = false) (freeD : d.used = false) {listed : Nat}
    (which : listed = c.addr ∧ off = [d.addr] ∨ listed = d.addr ∧ off = [c.addr])
    (keeps : Keeps K (as ++ c :: d :: bs)) :
    ∃ s', mergeNodes env s c.addr d.addr listed (d.addr + d.size) = .ok s' ∧
      Touched (Clear K) s s' ∧
      HeapRep env s' (as ++ ⟨c.addr, c.size + d.size, false⟩ :: bs) (xs.erase listed) [c.addr] := by
  have inC : c ∈ as ++ c :: d :: bs := by simp
  have inD : d ∈ as ++ c :: d :: bs := by simp
  have neDC : d.addr ≠ c.addr := rep.addr_ne d (.inr (.head _))
  have onList : listed ∈ xs := by
    rw [rep.mem_iff]
    rcases which with ⟨rfl, rfl⟩ | ⟨rfl, rfl⟩
    · exact .inr ⟨c, inC, freeC, rfl, by simpa using neDC.symm⟩
    · exact .inr ⟨d, inD, freeD, rfl, by simpa using neDC⟩
  obtain ⟨s₁, run, touched, tags, list⟩ := removeNode_spec rep.list onList
    (rep.listed_chunk which) fun y inside f => rep.clear_list keeps inside f
  obtain ⟨e, rest, next⟩ := exists_next s bs
  have split : heapChunks env s (as ++ c :: d :: bs) =
      (guardAt env.startBrk :: as ++ [c]) ++ d :: e :: rest := by
    simp [heapChunks, ← next]
  have stop : e.addr = d.addr + d.size := rep.next_addr split
  have inE : e ∈ heapChunks env s (as ++ c :: d :: bs) := by rw [split]; simp
  have low₁ : env.Low s₁.brk := list.low
  have cellC : ∀ f, Cell env s₁.brk c.addr f := touched.brk ▸ (rep.placed inC).cell
  have cellD : ∀ f, Cell env s₁.brk d.addr f := touched.brk ▸ (rep.placed inD).cell
  have cellE : Cell env s₁.brk e.addr .preceding :=
    touched.brk ▸ rep.cell_tag inE (by decide)
  have sizeC : s₁.fld .size c.addr = c.size :=
    (tags.size _ ((rep.placed inC).cell _)).trans (rep.size_eq (mem_heapChunks inC))
  have sizeD : s₁.fld .size d.addr = d.size :=
    (tags.size _ ((rep.placed inD).cell _)).trans (rep.size_eq (mem_heapChunks inD))
  have tagE : s₁.fld .preceding e.addr = d.size + e.flag mmAllocBit :=
    (tags.preceding _ (rep.cell_tag inE (by decide))).trans (rep.tag_eq split)
  have smallD := rep.size_lt (mem_heapChunks inD)
  have sumSmall := rep.sum_size_lt
  have sum : cU64 ((c.size : Int) + d.size) = c.size + d.size := by
    rw [← Nat.cast_add]
    exact cU64_natCast (by omega)
  unfold mergeNodes
  rw [run, ok_bind, nodeLoad_eq low₁ (cellC _), ok_bind, nodeLoad_eq low₁ (cellD _), ok_bind,
    sizeC, sizeD, sum, nodeStore_eq low₁ (cellC _), ok_bind]
  have low₂ : env.Low (s₁.put c.addr .size (c.size + d.size)).brk := list.low
  have size₂ : (s₁.put c.addr .size (c.size + d.size)).fld .size c.addr = c.size + d.size :=
    (Slob.fld_put low₁ (cellC _) (cellC _)).trans (if_pos ⟨rfl, rfl⟩)
  have tag₂ : (s₁.put c.addr .size (c.size + d.size)).fld .preceding e.addr =
      d.size + e.flag mmAllocBit :=
    (Slob.fld_put low₁ (cellC _) cellE).trans ((if_neg (by simp)).trans tagE)
  rw [← stop, nodeLoad_eq low₂ (cellC _), ok_bind, size₂, nodeLoad_eq low₂ cellE, ok_bind, tag₂,
    tag_and_bit smallD, size_or_flag sumSmall, nodeStore_eq low₂ cellE]
  have clearC : Clear K (c.addr + NodeField.size.offset) :=
    rep.clear_tag keeps (mem_heapChunks inC) (by decide)
  have clearE : Clear K (e.addr + NodeField.preceding.offset) :=
    rep.clear_tag keeps inE (by decide)
  have out := rep.notMem_erase_merged which
  refine ⟨_, rfl, (touched.trans (.put clearC)).trans (.put clearE), ?_⟩
  refine rep.rebuild ((touched.trans (.put clearC)).trans (.put clearE)) ?_ rep.sizes_merge ?_ ?_
  · have tiles := rep.tiles_merge tags next
    rw [freeC] at tiles
    exact tiles
  · exact (list.put (cellC _) (.inr ⟨rfl, out⟩)).put cellE (.inl rfl)
  · intro x
    rw [rep.list.mem_erase, rep.mem_iff_merged which]

/-! ## Putting a chunk on the list -/

theorem HeapRep.addFree (rep : HeapRep env s cs xs (c.addr :: off)) (inside : c ∈ cs)
    (free : c.used = false) (out : c.addr ∉ off) (keeps : Keeps K cs) :
    ∃ s', mmAddfreechunk env s c.addr = .ok s' ∧ Touched (Clear K) s s' ∧
      HeapRep env s' cs (xs.orderedInsert (env.KeyLe (s'.fld .size)) c.addr) off := by
  have placed := rep.placed inside
  have large : sizeofMmFreenode ≤ s.fld .size c.addr :=
    placed.large.trans_eq (rep.size_eq (mem_heapChunks inside)).symm
  have unset : s.fld .preceding c.addr &&& mmAllocBit = 0 := by
    rw [rep.tag_flag (mem_heapChunks inside), flag_eq_zero_iff]
    exact free
  have good : ∀ y, y = c.addr ∨ y ∈ xs → ∀ f : NodeField, Clear K (y + f.offset) := by
    rintro y (rfl | onList) f
    · exact rep.clear_field keeps inside free f
    · exact rep.clear_list keeps onList f
  obtain ⟨s', run, touched, tags, list⟩ := mmAddfreechunk_spec rep.list
    (rep.notMem_of_off inside (.head _)) (rep.chunk inside) placed.cell large unset good
  refine ⟨s', run, touched, rep.rebuild touched ?_ rep.sizes list fun x => ?_⟩
  · exact rep.tiles.congr fun d here =>
      ⟨tags.size _ (rep.cell_tag here (by decide)),
        tags.preceding _ (rep.cell_tag here (by decide))⟩
  · rw [List.mem_orderedInsert, rep.mem_iff]
    constructor
    · rintro (rfl | isHead | ⟨d, here, freeD, rfl, outD⟩)
      · exact .inr ⟨c, inside, free, rfl, out⟩
      · exact .inl isHead
      · exact .inr ⟨d, here, freeD, rfl, fun held => outD (.tail _ held)⟩
    · rintro (isHead | ⟨d, here, freeD, rfl, outD⟩)
      · exact .inr (.inl isHead)
      · by_cases same : d.addr = c.addr
        · exact .inl same
        · exact .inr (.inr ⟨d, here, freeD, rfl, by simp [same, outD]⟩)

/-! ## Freeing -/

section Steps

variable (rep : HeapRep env s (as ++ c :: bs) xs [c.addr]) (free : c.used = false)
  (keeps : Keeps K (as ++ c :: bs))
include rep free keeps

theorem freeNext_spec {following : Nat}
    (tag : ∃ e rest, bs ++ [guardAt s.heapEnd] = e :: rest ∧
      following = c.size + e.flag mmAllocBit) :
    ∃ s', freeNext env s c.addr (c.addr + c.size) following =
        .ok ((mergeNext c bs).1.stop, s') ∧ Touched (Clear K) s s' ∧
      HeapRep env s' (as ++ (mergeNext c bs).1 :: (mergeNext c bs).2) (unlist xs bs.head?)
        [c.addr] := by
  obtain ⟨e, rest, next, rfl⟩ := tag
  have small := rep.size_lt (mem_heapChunks (show c ∈ as ++ c :: bs by simp))
  unfold freeNext
  rw [tag_and_bit small]
  cases bs with
  | nil =>
    obtain ⟨same, -⟩ := List.cons.inj next
    subst same
    rw [if_neg (by simp [flag_eq_zero_iff, guardAt])]
    exact ⟨s, rfl, .refl, rep⟩
  | cons d bs =>
    obtain ⟨same, -⟩ := List.cons.inj next
    subst same
    by_cases used : d.used = true
    · rw [if_neg (by rw [flag_eq_zero_iff]; simp [used])]
      refine ⟨s, ?_, .refl, ?_⟩
      · simp [mergeNext, used, Chunk.stop]
        rfl
      · simpa [mergeNext, unlist, used] using rep
    · have freeD : d.used = false := by simpa using used
      have inD : d ∈ as ++ c :: d :: bs := by simp
      have split : heapChunks env s (as ++ c :: d :: bs) =
          (guardAt env.startBrk :: as) ++ c :: d :: (bs ++ [guardAt s.heapEnd]) := by
        simp [heapChunks]
      have stop : d.addr = c.addr + c.size := rep.next_addr split
      have placed := rep.placed inD
      have beyond : cU64 ((d.addr : Int) + d.size) = d.addr + d.size := by
        have below := placed.below
        have low := rep.list.low
        have fits := env.startBrk_fits
        unfold SlobEnv.Low at low
        unfold Chunk.stop at below
        rw [← Nat.cast_add]
        exact cU64_natCast (by omega)
      obtain ⟨s', run, touched, rep'⟩ :=
        mergeNodes_spec rep free freeD (.inr ⟨rfl, rfl⟩) keeps
      rw [if_pos (flag_eq_zero_iff.mpr freeD), ← stop, nodeLoad_eq rep.list.low (placed.cell _),
        ok_bind, rep.size_eq (mem_heapChunks inD)]
      dsimp only
      rw [beyond, run, ok_bind]
      refine ⟨s', ?_, touched, ?_⟩
      · simp [mergeNext, freeD, Chunk.stop, stop, Nat.add_assoc]
        rfl
      · simpa [mergeNext, unlist, freeD] using rep'

omit keeps in
/-- Up to the test of its flag, the chunk before `c` is read back from the tag. -/
theorem freePrev_eq {pre : List Chunk} (before : guardAt env.startBrk :: as = pre ++ [b])
    (next : Nat) :
    freePrev env s c.addr next =
      if b.flag mmAllocBit = 0 then do
        let s ← mergeNodes env s b.addr c.addr b.addr next
        return (b.addr, s)
      else return (c.addr, s) := by
  have split : heapChunks env s (as ++ c :: bs) = pre ++ b :: c :: (bs ++ [guardAt s.heapEnd]) := by
    unfold heapChunks
    rw [List.append_assoc, ← List.cons_append, before]
    simp
  have inB : b ∈ heapChunks env s (as ++ c :: bs) := by simp [split]
  have inC : c ∈ heapChunks env s (as ++ c :: bs) := by simp [split]
  have tag : s.fld .preceding c.addr = b.size := by
    rw [rep.tag_eq split, flag_eq_zero_iff.mpr free, Nat.add_zero]
  have masked : b.size &&& mmAllocBitNot = b.size := by
    have parts := tag_and_not (rep.size_lt inB) c
    rwa [flag_eq_zero_iff.mpr free, Nat.add_zero] at parts
  have stop := rep.next_addr split
  have prev : cU64 ((c.addr : Int) - b.size) = b.addr := by
    have below := (rep.placed (show c ∈ as ++ c :: bs by simp)).below
    have low := rep.list.low
    have fits := env.startBrk_fits
    unfold SlobEnv.Low at low
    unfold Chunk.stop at below
    rw [stop, Nat.cast_add, add_sub_cancel_right]
    exact cU64_natCast (by omega)
  unfold freePrev
  rw [nodeLoad_eq rep.list.low (rep.cell_tag inC (by decide)), ok_bind, tag]
  dsimp only
  rw [prev, nodeLoad_eq rep.list.low (rep.cell_tag inB (by decide)), ok_bind, rep.size_eq inB,
    require_bind_of_pos masked, nodeLoad_eq rep.list.low (rep.cell_tag inB (by decide)), ok_bind,
    rep.tag_flag inB]

theorem freePrev_spec :
    ∃ s', freePrev env s c.addr c.stop = .ok ((mergePrev as c).2.addr, s') ∧
      Touched (Clear K) s s' ∧
      HeapRep env s' ((mergePrev as c).1 ++ (mergePrev as c).2 :: bs) (unlist xs as.getLast?)
        [(mergePrev as c).2.addr] := by
  rcases List.eq_nil_or_concat as with rfl | ⟨as, b, rfl⟩
  · rw [freePrev_eq rep free (show guardAt env.startBrk :: [] = [] ++ [_] from rfl),
      if_neg (by simp [flag_eq_zero_iff, guardAt])]
    exact ⟨s, rfl, .refl, rep⟩
  · rw [List.concat_eq_append] at *
    rw [freePrev_eq rep free
      (show guardAt env.startBrk :: (as ++ [b]) = (guardAt env.startBrk :: as) ++ [b] from rfl)]
    by_cases used : b.used = true
    · rw [if_neg (by rw [flag_eq_zero_iff]; simp [used])]
      refine ⟨s, ?_, .refl, ?_⟩
      · simp [mergePrev, used]
        rfl
      · simpa [mergePrev, unlist, used] using rep
    · have freeB : b.used = false := by simpa using used
      have regroup : as ++ [b] ++ c :: bs = as ++ b :: c :: bs := by simp
      rw [regroup] at rep keeps
      obtain ⟨s', run, touched, rep'⟩ :=
        mergeNodes_spec rep freeB free (.inl ⟨rfl, rfl⟩) keeps
      rw [if_pos (flag_eq_zero_iff.mpr freeB), Chunk.stop, run, ok_bind]
      refine ⟨s', ?_, touched, ?_⟩
      · simp [mergePrev, freeB]
        rfl
      · simpa [mergePrev, unlist, freeB] using rep'

end Steps

theorem mem_mergeNext (used : d.used = true) (inside : d ∈ bs) : d ∈ (mergeNext c bs).2 := by
  cases bs with
  | nil => exact inside
  | cons e bs =>
    by_cases usedE : e.used = true
    · simpa [mergeNext, usedE] using inside
    · rcases List.mem_cons.mp inside with rfl | inside
      · exact absurd used usedE
      · simpa [mergeNext, usedE] using inside

theorem mem_mergePrev (used : d.used = true) (inside : d ∈ as) : d ∈ (mergePrev as c).1 := by
  rcases List.eq_nil_or_concat as with rfl | ⟨as, e, rfl⟩
  · exact inside
  · rw [List.concat_eq_append] at *
    by_cases usedE : e.used = true
    · simpa [mergePrev, usedE] using inside
    · rcases List.mem_append.mp inside with inside | last
      · simpa [mergePrev, usedE] using inside
      · rw [List.mem_singleton] at last
        subst last
        exact absurd used usedE

theorem mergeNext_free (bs : List Chunk) (free : c.used = false) :
    (mergeNext c bs).1.used = false := by
  unfold mergeNext
  split
  · exact free
  · split
    · exact free
    · rfl

@[simp] theorem mergeNext_addr (c : Chunk) (bs : List Chunk) :
    (mergeNext c bs).1.addr = c.addr := by
  unfold mergeNext
  split
  · rfl
  · split <;> rfl

theorem mergePrev_free (as : List Chunk) (free : c.used = false) :
    (mergePrev as c).2.used = false := by
  unfold mergePrev
  split
  · exact free
  · split
    · exact free
    · rfl

/-- Chunks in use stay, but for the one that is freed. -/
theorem mem_freed_of_used (used : d.used = true) (inside : d ∈ as ++ bs) : d ∈ freed as c bs := by
  unfold freed
  rcases List.mem_append.mp inside with inside | inside
  · exact List.mem_append_left _ (mem_mergePrev used inside)
  · exact List.mem_append_right _ (.tail _ (mem_mergeNext used inside))

/-- The list after chunk `c`, between `as` and `bs`, is freed: the free neighbours are off
it and the merged chunk is put where its size belongs. -/
def freedList (env : SlobEnv) (s' : Slob) (as : List Chunk) (c : Chunk) (bs : List Chunk)
    (xs : List Nat) : List Nat :=
  (unlist (unlist xs bs.head?) as.getLast?).orderedInsert (env.KeyLe (s'.fld .size))
    (mergePrev as (mergeNext { c with used := false } bs).1).2.addr

/-- The merges of `slob_free`, and the return of the chunk to the list. -/
theorem freeMerged_spec (rep : HeapRep env s (as ++ c :: bs) xs [c.addr]) (free : c.used = false)
    (keeps : Keeps K (as ++ bs)) {following : Nat}
    (tag : ∃ e rest, bs ++ [guardAt s.heapEnd] = e :: rest ∧
      following = c.size + e.flag mmAllocBit) :
    ∃ s', (do
        let (next, s) ← freeNext env s c.addr (c.addr + c.size) following
        let (node, s) ← freePrev env s c.addr next
        mmAddfreechunk env s node) = .ok s' ∧ Touched (Clear K) s s' ∧
      HeapRep env s' (freed as c bs) (freedList env s' as c bs xs) [] := by
  have same : ({ c with used := false } : Chunk) = c := by rw [← free]
  have keeps₁ : Keeps K (as ++ c :: bs) := keeps.mono fun d here _ =>
    ((List.sublist_cons_self c bs).append_left as).subset here
  obtain ⟨s₁, run₁, touched₁, rep₁⟩ := freeNext_spec rep free keeps₁ tag
  have free₁ := mergeNext_free bs free
  have keeps₂ : Keeps K (as ++ (mergeNext c bs).1 :: (mergeNext c bs).2) := by
    refine keeps.mono fun d here used => ?_
    rcases List.mem_append.mp here with here | here
    · exact List.mem_append_left _ here
    · exact List.mem_append_right _ (.tail _ (mem_mergeNext used here))
  rw [← mergeNext_addr c bs] at rep₁
  obtain ⟨s₂, run₂, touched₂, rep₂⟩ := freePrev_spec rep₁ free₁ keeps₂
  have keeps₃ : Keeps K (freed as c bs) := keeps.mono fun d here used =>
    mem_freed_of_used used here
  have shape : freed as c bs = (mergePrev as (mergeNext c bs).1).1 ++
      (mergePrev as (mergeNext c bs).1).2 :: (mergeNext c bs).2 := by
    unfold freed
    rw [same]
  have list : ∀ s₃ : Slob, freedList env s₃ as c bs xs =
      (unlist (unlist xs bs.head?) as.getLast?).orderedInsert (env.KeyLe (s₃.fld .size))
        (mergePrev as (mergeNext c bs).1).2.addr := by
    unfold freedList
    rw [same]
    exact fun _ => rfl
  simp only [list]
  rw [shape] at keeps₃ ⊢
  obtain ⟨s₃, run₃, touched₃, rep₃⟩ := rep₂.addFree (by simp) (mergePrev_free as free₁)
    List.not_mem_nil keeps₃
  refine ⟨s₃, ?_, touched₁.trans (touched₂.trans touched₃), rep₃⟩
  rw [mergeNext_addr] at run₂
  rw [run₁, ok_bind]
  dsimp only
  rw [run₂, ok_bind, run₃]

/-- `slob_free` of a block in use passes its assertions and frees its chunk. -/
theorem slobFree_spec (rep : HeapRep env s (as ++ c :: bs) xs []) (used : c.used = true)
    (keeps : Keeps K (as ++ bs)) :
    ∃ s', slobFree env s (c.addr + sizeofMmAllocnode) = .ok s' ∧ Touched (Clear K) s s' ∧
      HeapRep env s' (freed as c bs) (freedList env s' as c bs xs) [] := by
  have inC : c ∈ as ++ c :: bs := by simp
  have placed := rep.placed inC
  have below := placed.below
  have low := rep.list.low
  have fits := env.startBrk_fits
  unfold SlobEnv.Low at low
  unfold Chunk.stop at below
  obtain ⟨q, small, tag⟩ := rep.tag_parts (mem_heapChunks inC)
  have flag : c.flag mmAllocBit = mmAllocBit := by simp [Chunk.flag, used]
  have keeps₀ : Keeps K (as ++ c :: bs) := keeps.mono fun d here _ =>
    ((List.sublist_cons_self c bs).append_left as).subset here
  -- the chunk is marked free, and held back from the list
  have rep₁ := rep.markFree used (v := q) (by rw [tag, flag])
  have touched₁ : Touched (Clear K) s (s.put c.addr .preceding q) :=
    .put (rep.clear_tag keeps₀ (mem_heapChunks inC) (by decide))
  obtain ⟨e, rest, next⟩ := exists_next s bs
  have split : heapChunks env s (as ++ c :: bs) =
      (guardAt env.startBrk :: as) ++ c :: e :: rest := by
    simp [heapChunks, next]
  have inE : e ∈ heapChunks env (s.put c.addr .preceding q)
      (as ++ { c with used := false } :: bs) := by
    have inNext : e ∈ bs ++ [guardAt s.heapEnd] := by simp [next]
    unfold heapChunks
    rw [List.append_assoc]
    exact .tail _ (List.mem_append_right _ (.tail _ inNext))
  have atE : e.addr = c.addr + c.size := rep.next_addr split
  have tagE : (s.put c.addr .preceding q).fld .preceding e.addr = c.size + e.flag mmAllocBit := by
    rw [Slob.fld_put rep.list.low (placed.cell _) (rep₁.cell_tag inE (by decide)), if_neg,
      rep.tag_eq split]
    have large := placed.large
    rintro ⟨same, -⟩
    omega
  obtain ⟨s', run, touched, rep'⟩ := freeMerged_spec (c := { c with used := false }) rep₁ rfl
    keeps ⟨e, rest, next, rfl⟩
  refine ⟨s', ?_, touched₁.trans touched, rep'⟩
  have node : cU64 (((c.addr + sizeofMmAllocnode : Nat) : Int) - sizeofMmAllocnode) = c.addr := by
    rw [Nat.cast_add, add_sub_cancel_right]
    exact cU64_natCast (by omega)
  have stop : cU64 ((c.addr : Int) + c.size) = c.addr + c.size := by
    rw [← Nat.cast_add]
    exact cU64_natCast (by omega)
  unfold slobFree
  rw [require_bind_of_pos (by unfold sizeofMmAllocnode; omega)]
  dsimp only
  rw [node, nodeLoad_eq rep.list.low (placed.cell _), ok_bind, tag,
    require_bind_of_pos (by rw [tag_and_bit small, flag]; decide),
    nodeStore_eq rep.list.low (placed.cell _), ok_bind, tag_and_not small,
    nodeLoad_eq rep₁.list.low (placed.cell _), ok_bind]
  have size : (s.put c.addr .preceding q).fld .size c.addr = c.size :=
    rep₁.size_eq (c := { c with used := false }) (mem_heapChunks (by simp))
  rw [size, stop, ← atE, nodeLoad_eq rep₁.list.low (rep₁.cell_tag inE (by decide)), ok_bind, tagE,
    require_bind_of_pos (tag_and_not (rep.size_lt (mem_heapChunks inC)) e), atE]
  exact run

end Free

end Chinos
