import Mathlib.Data.Nat.Bitwise
import Chinos.Slob.FreeList

/-!
# The heap and the steps of `slob_free`

The chunks between the two guard nodes tile the heap, and the free ones among them are
the nodes of the free list, apart from a few that a call in progress holds (`off`).
The steps of the allocator (clearing a flag, merging neighbours, putting a chunk on the
list) are described on the list of chunks, with what each of them writes.
-/

namespace Chinos

/-- A guard node, which is a used chunk of one header. -/
def guardAt (a : Nat) : Chunk := ⟨a, 16, true⟩

section Heap

variable {env : SlobEnv} {s s' : Slob} {cs cs' as bs : List Chunk} {xs off : List Nat}
  {b c d : Chunk} {K : List Chunk}

/-- All nodes from the start of the heap to the break. -/
def heapChunks (env : SlobEnv) (s : Slob) (cs : List Chunk) : List Chunk :=
  guardAt env.startBrk :: (cs ++ [guardAt s.heapEnd])

/-- There is a free chunk at `x` that is not held back. -/
def FreeAt (cs : List Chunk) (off : List Nat) (x : Nat) : Prop :=
  ∃ c ∈ cs, c.used = false ∧ c.addr = x ∧ x ∉ off

/-- The heap consists of the chunks `cs`; the free list is `xs`, and lacks those free
chunks whose addresses are in `off`. -/
structure HeapRep (env : SlobEnv) (s : Slob) (cs : List Chunk) (xs off : List Nat) : Prop where
  start : s.heapStart = env.startBrk
  tiles : s.tags.Tiles mmAllocBit env.startBrk 0 (heapChunks env s cs) s.brk 16
  cBrk : s.cBrk = s.brk
  sizes : ∀ c ∈ cs, 32 ∣ c.size ∧ 0 < c.size
  list : FreeList env s xs
  mem_iff : ∀ x, x ∈ xs ↔ env.IsHead x ∨ FreeAt cs off x

@[simp] theorem freeAt_append {x : Nat} :
    FreeAt (as ++ bs) off x ↔ FreeAt as off x ∨ FreeAt bs off x := by
  simp only [FreeAt, List.mem_append, or_and_right, exists_or]

@[simp] theorem freeAt_cons {x : Nat} :
    FreeAt (c :: cs) off x ↔ (c.used = false ∧ c.addr = x ∧ x ∉ off) ∨ FreeAt cs off x := by
  simp only [FreeAt, List.mem_cons, or_and_right, exists_or, exists_eq_left]

@[simp] theorem freeAt_nil {x : Nat} : ¬ FreeAt [] off x := by
  simp [FreeAt]

/-- Other chunks do not notice which ones are held back. -/
theorem freeAt_congr {x : Nat} {off' : List Nat} (out : ∀ c ∈ cs, c.addr ∉ off)
    (out' : ∀ c ∈ cs, c.addr ∉ off') : FreeAt cs off x ↔ FreeAt cs off' x := by
  constructor
  · rintro ⟨c, inside, free, rfl, -⟩
    exact ⟨c, inside, free, rfl, out' c inside⟩
  · rintro ⟨c, inside, free, rfl, -⟩
    exact ⟨c, inside, free, rfl, out c inside⟩

/-! ## Where chunks lie -/

theorem HeapRep.tiles_split (rep : HeapRep env s cs xs off) :
    s.heapEnd + 16 = s.brk ∧
      ∃ q, s.tags.Tiles mmAllocBit (env.startBrk + 16) 16 cs s.heapEnd q := by
  obtain ⟨-, rest⟩ := rep.tiles
  obtain ⟨m, q, inner, ⟨⟨rfl, -⟩, atEnd⟩⟩ := Tags.tiles_append.mp rest
  exact ⟨atEnd.1, q, inner⟩

theorem HeapRep.heapEnd_placed (rep : HeapRep env s cs xs off) :
    env.startBrk + 16 ≤ s.heapEnd ∧ (s.heapEnd - env.startBrk) % 32 = 16 ∧
      s.heapEnd + 16 = s.brk := by
  obtain ⟨atEnd, q, inner⟩ := rep.tiles_split
  have le := inner.le
  have dvd := (inner.dvd fun c inside => (rep.sizes c inside).1).2
  omega

/-- Where a chunk can lie in a heap that ends at the break `brk`. -/
structure Placed (env : SlobEnv) (brk : Nat) (c : Chunk) : Prop where
  above : env.startBrk + 16 ≤ c.addr
  slot : (c.addr - env.startBrk) % 32 = 16
  below : c.stop + 16 ≤ brk
  large : 32 ≤ c.size
  aligned : c.size % 32 = 0

theorem HeapRep.placed (rep : HeapRep env s cs xs off) (inside : c ∈ cs) :
    Placed env s.brk c := by
  obtain ⟨atEnd, q, inner⟩ := rep.tiles_split
  obtain ⟨above, below⟩ := inner.bounds inside
  have dvd := (inner.dvd fun c inside => (rep.sizes c inside).1).1 c inside
  obtain ⟨aligned, pos⟩ := rep.sizes c inside
  exact ⟨above, by omega, by omega, by omega, by omega⟩

theorem Placed.cell {brk : Nat} (placed : Placed env brk c) (f : NodeField) :
    Cell env brk c.addr f := by
  have offset := f.offset_le
  obtain ⟨above, slot, below, large, aligned⟩ := placed
  unfold Chunk.stop at below
  exact .inr (.inl ⟨above, slot, by omega⟩)

theorem Placed.chunk {brk : Nat} (placed : Placed env brk c) (low : env.Low brk) :
    ¬ env.IsHead c.addr := by
  obtain ⟨above, slot, below, large, aligned⟩ := placed
  unfold Chunk.stop at below
  exact low.not_isHead (by omega) (by omega)

/-- The header of any node of the heap is there. -/
theorem HeapRep.cell_tag (rep : HeapRep env s cs xs off) (inside : c ∈ heapChunks env s cs)
    {f : NodeField} (header : f.offset ≤ 8) : Cell env s.brk c.addr f := by
  obtain ⟨above, slot, below⟩ := rep.heapEnd_placed
  unfold heapChunks at inside
  rcases List.mem_cons.mp inside with rfl | inside
  · exact .inr (.inr ⟨rfl, header, by simp only [guardAt]; omega⟩)
  · rcases List.mem_append.mp inside with inside | atEnd
    · exact (rep.placed inside).cell f
    · cases List.mem_singleton.mp atEnd
      exact .inr (.inl ⟨above, slot, by simp only [guardAt]; omega⟩)

theorem mem_heapChunks (inside : c ∈ cs) : c ∈ heapChunks env s cs := by
  unfold heapChunks
  simp [inside]

theorem HeapRep.sixteen_le (rep : HeapRep env s cs xs off) (inside : c ∈ heapChunks env s cs) :
    16 ≤ c.size := by
  unfold heapChunks at inside
  rcases List.mem_cons.mp inside with rfl | inside
  · exact le_rfl
  · rcases List.mem_append.mp inside with inside | atEnd
    · have large := (rep.placed inside).large
      omega
    · cases List.mem_singleton.mp atEnd
      exact le_rfl

/-- Nodes before a node have smaller addresses, nodes after it larger ones. -/
theorem HeapRep.addr_lt (rep : HeapRep env s cs xs off)
    (split : heapChunks env s cs = as ++ c :: bs) :
    (∀ d ∈ as, d.addr < c.addr) ∧ ∀ d ∈ bs, c.addr < d.addr := by
  have ordered := rep.tiles.ordered
  have sixteen : ∀ d ∈ as ++ c :: bs, 16 ≤ d.size := fun d inside =>
    rep.sixteen_le (split ▸ inside)
  rw [split, List.pairwise_append] at ordered
  obtain ⟨-, after, before⟩ := ordered
  constructor
  · intro d inside
    have large := sixteen d (by simp [inside])
    have stop := before d inside c (.head _)
    unfold Chunk.stop at stop
    omega
  · intro d inside
    have large := sixteen c (by simp)
    have stop := List.rel_of_pairwise_cons after inside
    unfold Chunk.stop at stop
    omega

theorem HeapRep.size_eq (rep : HeapRep env s cs xs off) (inside : c ∈ heapChunks env s cs) :
    s.fld .size c.addr = c.size := rep.tiles.header inside

theorem HeapRep.size_lt (rep : HeapRep env s cs xs off) (inside : c ∈ heapChunks env s cs) :
    c.size < 2 ^ 31 := by
  obtain ⟨above, below⟩ := rep.tiles.bounds inside
  have low := rep.list.low
  have placed := rep.heapEnd_placed
  unfold Chunk.stop at below
  unfold SlobEnv.Low at low
  unfold heapChunks at inside
  rcases List.mem_cons.mp inside with rfl | inside
  · simp [guardAt]
  · have bounds := rep.tiles.2.bounds inside
    unfold Chunk.stop at bounds
    simp only [guardAt] at bounds
    omega

theorem HeapRep.tag_eq (rep : HeapRep env s cs xs off)
    (split : heapChunks env s cs = as ++ b :: c :: bs) :
    s.fld .preceding c.addr = b.size + c.flag mmAllocBit := by
  have tiles := rep.tiles
  rw [split] at tiles
  exact tiles.tag_eq

theorem HeapRep.next_addr (rep : HeapRep env s cs xs off)
    (split : heapChunks env s cs = as ++ c :: d :: bs) : d.addr = c.addr + c.size := by
  have tiles := rep.tiles
  rw [split] at tiles
  exact tiles.addr_eq

/-! ## What may be written -/

/-- The word at `a` is outside the blocks of the chunks `K`. -/
def Clear (K : List Chunk) (a : Nat) : Prop := ∀ d ∈ K, a + 8 ≤ d.addr + 16 ∨ d.stop ≤ a

/-- The chunks `K` are among the chunks of the heap and in use. -/
def Keeps (K cs : List Chunk) : Prop := ∀ d ∈ K, d ∈ cs ∧ d.used = true

theorem Keeps.mono (keeps : Keeps K cs) (sub : ∀ d ∈ cs, d.used = true → d ∈ cs') :
    Keeps K cs' := fun d inK =>
  ⟨sub d (keeps d inK).1 (keeps d inK).2, (keeps d inK).2⟩

/-- Chunks in use stay in the heap when a free chunk is replaced by others. -/
theorem Keeps.replace (keeps : Keeps K (as ++ c :: bs)) (free : c.used = false)
    (sub : ∀ d ∈ bs, d ∈ cs') : Keeps K (as ++ cs') := by
  refine keeps.mono fun d inside used => ?_
  rcases List.mem_append.mp inside with inAs | inside
  · exact List.mem_append_left _ inAs
  rcases List.mem_cons.mp inside with rfl | inBs
  · rw [free] at used
    cases used
  · exact List.mem_append_right _ (sub d inBs)

section Clear

variable (rep : HeapRep env s cs xs off) (keeps : Keeps K cs)
include rep keeps

theorem HeapRep.clear_head {x : Nat} (isHead : env.IsHead x) (f : NodeField) :
    Clear K (x + f.offset) := by
  intro d inside
  have offset := f.offset_le
  have apart := env.apart
  have low := rep.list.low
  obtain ⟨above, slot, below, large, aligned⟩ := rep.placed (keeps d inside).1
  unfold SlobEnv.IsHead at isHead
  unfold SlobEnv.Low at low
  unfold mmNnodes at apart
  omega

theorem HeapRep.clear_tag (inside : c ∈ heapChunks env s cs) {f : NodeField}
    (header : f.offset ≤ 8) : Clear K (c.addr + f.offset) := by
  intro d inK
  have inCs := (keeps d inK).1
  by_cases same : c = d
  · subst same
    omega
  · have sixteen := rep.sixteen_le inside
    have apart := rep.tiles.apart inside (mem_heapChunks inCs) same
    unfold Chunk.stop at *
    omega

theorem HeapRep.clear_free (inside : c ∈ cs) (free : c.used = false) {a : Nat}
    (low : c.addr ≤ a) (high : a + 8 ≤ c.stop) : Clear K a := by
  intro d inK
  obtain ⟨inCs, used⟩ := keeps d inK
  have different : c ≠ d := by
    rintro rfl
    rw [free] at used
    cases used
  have apart := rep.tiles.apart (mem_heapChunks inside) (mem_heapChunks inCs) different
  omega

theorem HeapRep.clear_field (inside : c ∈ cs) (free : c.used = false) (f : NodeField) :
    Clear K (c.addr + f.offset) := by
  have offset := f.offset_le
  have large := (rep.placed inside).large
  exact rep.clear_free keeps inside free (by omega) (by unfold Chunk.stop; omega)

theorem HeapRep.clear_list {x : Nat} (inside : x ∈ xs) (f : NodeField) :
    Clear K (x + f.offset) := by
  rcases (rep.mem_iff x).mp inside with isHead | ⟨c, inCs, free, rfl, -⟩
  · exact rep.clear_head keeps isHead f
  · exact rep.clear_field keeps inCs free f

end Clear

/-! ## Tags as words -/

section TagWords

variable {p : Nat} (small : p < 2 ^ 31)
include small

theorem tag_and_bit (c : Chunk) :
    (p + c.flag mmAllocBit) &&& mmAllocBit = c.flag mmAllocBit := by
  have low : p.testBit 31 = false := Nat.testBit_lt_two_pow small
  have bit : mmAllocBit = 2 ^ 31 := rfl
  unfold Chunk.flag
  cases c.used with
  | false =>
    rw [if_neg (by decide), Nat.add_zero, bit, Nat.and_two_pow, low]
    rfl
  | true =>
    have high : (p + 2 ^ 31).testBit 31 = true := by
      rw [Nat.add_comm, Nat.testBit_two_pow_add_eq, low]
      rfl
    rw [if_pos rfl, bit, Nat.and_two_pow, high]
    rfl

theorem tag_and_not (c : Chunk) : (p + c.flag mmAllocBit) &&& mmAllocBitNot = p := by
  have mask : mmAllocBitNot = 2 ^ 31 - 1 := rfl
  rw [mask, Nat.and_two_pow_sub_one_eq_mod]
  unfold Chunk.flag mmAllocBit
  cases c.used with
  | false => simpa using small
  | true => simp; omega

theorem size_or_flag (c : Chunk) : p ||| c.flag mmAllocBit = p + c.flag mmAllocBit := by
  unfold Chunk.flag
  cases c.used with
  | false => simp
  | true =>
    have split := Nat.two_pow_add_eq_or_of_lt small 1
    have bit : mmAllocBit = 2 ^ 31 := rfl
    rw [if_pos rfl, bit, Nat.or_comm, ← Nat.mul_one (2 ^ 31), ← split]
    omega

end TagWords

/-- The parts of a tag: the size of a chunk and the flag. -/
theorem HeapRep.tag_parts (rep : HeapRep env s cs xs off) (inside : c ∈ heapChunks env s cs) :
    ∃ q < 2 ^ 31, s.fld .preceding c.addr = q + c.flag mmAllocBit := by
  obtain ⟨q, tag, rfl | ⟨d, inside', rfl⟩⟩ := rep.tiles.tag_of_mem inside
  · exact ⟨0, by omega, tag⟩
  · exact ⟨d.size, rep.size_lt inside', tag⟩

theorem HeapRep.tag_flag (rep : HeapRep env s cs xs off) (inside : c ∈ heapChunks env s cs) :
    s.fld .preceding c.addr &&& mmAllocBit = c.flag mmAllocBit := by
  obtain ⟨q, small, tag⟩ := rep.tag_parts inside
  rw [tag, tag_and_bit small]

theorem flag_eq_zero_iff : c.flag mmAllocBit = 0 ↔ c.used = false := by
  unfold Chunk.flag mmAllocBit
  cases c.used <;> simp

/-! ## Steps on the chunks -/

/-- List fields and sizes of its nodes are all the list depends on. -/
theorem FreeList.congr (list : FreeList env s xs) (low : env.Low s'.brk) (brk : s.brk ≤ s'.brk)
    (same : ∀ x ∈ xs, ∀ f, f ≠ .preceding → s'.fld f x = s.fld f x) : FreeList env s' xs where
  low := low
  chain := list.chain.congr (fun x inside => same x inside .next (by decide))
    fun x inTail => same x (List.mem_of_mem_tail inTail) .prev (by decide)
  cells := fun x inside f => (list.cells x inside f).mono brk
  heads := list.heads
  headSize := fun x isHead => (same x (list.heads x isHead) .size (by decide)).trans
    (list.headSize x isHead)
  chunkSize := fun x inside chunk => (list.chunkSize x inside chunk).trans_eq
    (same x inside .size (by decide)).symm
  sorted := list.sorted.imp_of_mem fun inside inside' order =>
    order.congr (same _ inside .size (by decide)) (same _ inside' .size (by decide))

/-- A store into a header that is not on the list, or into a tag. -/
theorem FreeList.put (list : FreeList env s xs) {x v : Nat} {f : NodeField}
    (cell : Cell env s.brk x f) (apart : f = .preceding ∨ (f = .size ∧ x ∉ xs)) :
    FreeList env (s.put x f v) xs := by
  refine list.congr list.low le_rfl fun y inside g notTag => ?_
  rw [Slob.fld_put list.low cell (list.cells y inside g), if_neg]
  rintro ⟨rfl, rfl⟩
  rcases apart with absurd | ⟨-, out⟩
  · exact notTag absurd
  · exact out inside

/-- The chunks from `c` up to `d` are replaced by others, by stores that only change
their headers and the tag of `d`. -/
theorem HeapRep.retile {pre mid mid' rest : List Chunk} (rep : HeapRep env s cs xs off)
    (split : heapChunks env s cs = pre ++ (c :: mid ++ d :: rest))
    (outside : ∀ x f, Cell env s.brk x f → f = .size ∨ f = .preceding →
      x < c.addr ∨ d.addr < x ∨ (x = d.addr ∧ f = .size) → s'.fld f x = s.fld f x)
    (new : ∀ q, s.fld .preceding c.addr = q + c.flag mmAllocBit →
      ∃ q', s'.tags.Tiles mmAllocBit c.addr q mid' d.addr q' ∧
        s'.fld .preceding d.addr = q' + d.flag mmAllocBit) :
    s'.tags.Tiles mmAllocBit env.startBrk 0 (pre ++ (mid' ++ d :: rest)) s.brk 16 := by
  have tiles := rep.tiles
  rw [split] at tiles
  have before := (rep.addr_lt (split.trans (by simp : _ = pre ++ c :: (mid ++ d :: rest)))).1
  have after := (rep.addr_lt (split.trans (by simp : _ = (pre ++ c :: mid) ++ d :: rest))).2
  have cell : ∀ e ∈ pre ++ (c :: mid ++ d :: rest), ∀ f : NodeField, f.offset ≤ 8 →
      Cell env s.brk e.addr f := fun e inside f header =>
    rep.cell_tag (split ▸ inside) header
  refine tiles.replace ?_ (fun e inside => ?_) ?_ fun e inside => ?_
  · rintro m q ⟨q', ⟨rfl, -, tag⟩, -⟩
    exact new q tag
  · have here := cell e (by simp [inside])
    have lt := before e inside
    exact ⟨outside _ _ (here .size (by decide)) (.inl rfl) (.inl lt),
      outside _ _ (here .preceding (by decide)) (.inr rfl) (.inl lt)⟩
  · exact outside _ _ (cell d (by simp) .size (by decide)) (.inl rfl) (.inr (.inr ⟨rfl, rfl⟩))
  · have here := cell e (by simp [inside])
    have lt := after e inside
    exact ⟨outside _ _ (here .size (by decide)) (.inl rfl) (.inr (.inl lt)),
      outside _ _ (here .preceding (by decide)) (.inr rfl) (.inr (.inl lt))⟩

/-- The node after the chunks `bs`: there is always one, the guard if nothing else. -/
theorem exists_next (s : Slob) (bs : List Chunk) :
    ∃ d rest, bs ++ [guardAt s.heapEnd] = d :: rest := by
  cases bs with
  | nil => exact ⟨_, _, rfl⟩
  | cons d bs => exact ⟨_, _, rfl⟩

/-- The headers tile the region again after the flag of chunk `c` is changed. -/
theorem HeapRep.tiles_setFlag (rep : HeapRep env s (as ++ c :: bs) xs off) {u : Bool} {v : Nat}
    (value : v + c.flag mmAllocBit =
      s.fld .preceding c.addr + ({ c with used := u } : Chunk).flag mmAllocBit) :
    (s.put c.addr .preceding v).tags.Tiles mmAllocBit env.startBrk 0
      (heapChunks env s (as ++ { c with used := u } :: bs)) s.brk 16 := by
  obtain ⟨d, rest, next⟩ := exists_next s bs
  have split : ∀ c, heapChunks env s (as ++ c :: bs) =
      (guardAt env.startBrk :: as) ++ ([c] ++ d :: rest) := by
    intro c
    simp [heapChunks, ← next]
  have stop : d.addr = c.addr + c.size := rep.next_addr (split c)
  have inC : c ∈ heapChunks env s (as ++ c :: bs) := mem_heapChunks (by simp)
  have inD : d ∈ heapChunks env s (as ++ c :: bs) := by rw [split]; simp
  have cellC : ∀ f, Cell env s.brk c.addr f := (rep.placed (by simp)).cell
  have fld : ∀ x f, Cell env s.brk x f → (s.put c.addr .preceding v).fld f x =
      if x = c.addr ∧ f = .preceding then v else s.fld f x :=
    fun x f cell => Slob.fld_put rep.list.low (cellC _) cell
  have lt : c.addr < d.addr := (rep.addr_lt (split c)).2 d (by simp)
  rw [split]
  refine rep.retile (split c) (fun x f cell header far => ?_) fun q tag => ⟨c.size, ?_, ?_⟩
  · rw [fld x f cell, if_neg]
    rintro ⟨rfl, rfl⟩
    simp at far
    omega
  · refine ⟨⟨rfl, ?_, ?_⟩, stop.symm, rfl⟩
    · exact (fld _ _ (cellC _)).trans ((if_neg (by simp)).trans (rep.size_eq inC))
    · refine (fld _ _ (cellC _)).trans ((if_pos ⟨rfl, rfl⟩).trans ?_)
      omega
  · rw [fld _ _ (rep.cell_tag inD (by decide)), if_neg (fun both => by omega)]
    exact rep.tag_eq (split c)

/-- The headers tile the region again after two neighbours become one chunk. -/
theorem HeapRep.tiles_merge (rep : HeapRep env s (as ++ c :: d :: bs) xs off)
    (tags : SameTags env s s') {e : Chunk} {rest : List Chunk}
    (next : bs ++ [guardAt s.heapEnd] = e :: rest) :
    ((s'.put c.addr .size (c.size + d.size)).put e.addr .preceding
        (c.size + d.size + e.flag mmAllocBit)).tags.Tiles mmAllocBit env.startBrk 0
      (heapChunks env s (as ++ ⟨c.addr, c.size + d.size, c.used⟩ :: bs)) s.brk 16 := by
  have split : heapChunks env s (as ++ c :: d :: bs) =
      (guardAt env.startBrk :: as) ++ (c :: [d] ++ e :: rest) := by
    simp [heapChunks, ← next]
  have split' : heapChunks env s (as ++ ⟨c.addr, c.size + d.size, c.used⟩ :: bs) =
      (guardAt env.startBrk :: as) ++ ([⟨c.addr, c.size + d.size, c.used⟩] ++ e :: rest) := by
    simp [heapChunks, ← next]
  have stopC : d.addr = c.addr + c.size := rep.next_addr split
  have stopD : e.addr = d.addr + d.size :=
    rep.next_addr
      (split.trans (by simp : _ = (guardAt env.startBrk :: as ++ [c]) ++ d :: e :: rest))
  have inE : e ∈ heapChunks env s (as ++ c :: d :: bs) := by rw [split]; simp
  have cellC : ∀ f, Cell env s.brk c.addr f := (rep.placed (by simp)).cell
  have cellE : Cell env s.brk e.addr .preceding := rep.cell_tag inE (by decide)
  have pos : 0 < c.size := (rep.sizes c (by simp)).2
  have fld : ∀ x f, Cell env s.brk x f →
      ((s'.put c.addr .size (c.size + d.size)).put e.addr .preceding
        (c.size + d.size + e.flag mmAllocBit)).fld f x =
      if x = e.addr ∧ f = .preceding then c.size + d.size + e.flag mmAllocBit else
        if x = c.addr ∧ f = .size then c.size + d.size else s'.fld f x := by
    intro x f cell
    rw [Slob.fld_put rep.list.low cellE cell, Slob.fld_put rep.list.low (cellC _) cell]
  rw [split']
  refine rep.retile split (fun x f cell header far => ?_) fun q tag => ⟨c.size + d.size, ?_, ?_⟩
  · rw [fld x f cell, if_neg, if_neg]
    · rcases header with rfl | rfl
      · exact tags.size x cell
      · exact tags.preceding x cell
    · rintro ⟨rfl, rfl⟩
      simp at far
      omega
    · rintro ⟨rfl, rfl⟩
      simp at far
      omega
  · refine ⟨⟨rfl, ?_, ?_⟩, ?_, rfl⟩
    · exact (fld _ _ (cellC _)).trans ((if_neg (by simp)).trans (if_pos ⟨rfl, rfl⟩))
    · refine (fld _ _ (cellC _)).trans ((if_neg (fun both => by omega)).trans ?_)
      exact (if_neg (by simp)).trans ((tags.preceding _ (cellC _)).trans tag)
    · simp only [Chunk.stop]
      omega
  · exact (fld _ _ cellE).trans (if_pos ⟨rfl, rfl⟩)

/-- The headers tile the region again after a chunk is cut in two. -/
theorem HeapRep.tiles_split_at (rep : HeapRep env s (as ++ c :: bs) xs off)
    {e : Chunk} {rest : List Chunk}
    (next : bs ++ [guardAt s.heapEnd] = e :: rest) {k : Nat} (low : 0 < k) (high : k < c.size)
    (cellR : ∀ f, Cell env s.brk (c.addr + k) f) :
    ((((s.put (c.addr + k) .size (c.size - k)).put (c.addr + k) .preceding k).put
        c.addr .size k).put e.addr .preceding
        (c.size - k + e.flag mmAllocBit)).tags.Tiles mmAllocBit env.startBrk 0
      (heapChunks env s (as ++ ⟨c.addr, k, c.used⟩ :: ⟨c.addr + k, c.size - k, false⟩ :: bs))
      s.brk 16 := by
  have split : heapChunks env s (as ++ c :: bs) =
      (guardAt env.startBrk :: as) ++ (c :: [] ++ e :: rest) := by
    simp [heapChunks, ← next]
  have split' : heapChunks env s
      (as ++ ⟨c.addr, k, c.used⟩ :: ⟨c.addr + k, c.size - k, false⟩ :: bs) =
      (guardAt env.startBrk :: as) ++
        ([⟨c.addr, k, c.used⟩, ⟨c.addr + k, c.size - k, false⟩] ++ e :: rest) := by
    simp [heapChunks, ← next]
  have stop : e.addr = c.addr + c.size := rep.next_addr split
  have inE : e ∈ heapChunks env s (as ++ c :: bs) := by rw [split]; simp
  have cellC : ∀ f, Cell env s.brk c.addr f := (rep.placed (by simp)).cell
  have cellE : Cell env s.brk e.addr .preceding := rep.cell_tag inE (by decide)
  have fld : ∀ x f, Cell env s.brk x f →
      ((((s.put (c.addr + k) .size (c.size - k)).put (c.addr + k) .preceding k).put
        c.addr .size k).put e.addr .preceding (c.size - k + e.flag mmAllocBit)).fld f x =
      if x = e.addr ∧ f = .preceding then c.size - k + e.flag mmAllocBit else
        if x = c.addr ∧ f = .size then k else if x = c.addr + k ∧ f = .preceding then k else
          if x = c.addr + k ∧ f = .size then c.size - k else s.fld f x := by
    intro x f cell
    rw [Slob.fld_put rep.list.low cellE cell, Slob.fld_put rep.list.low (cellC _) cell,
      Slob.fld_put rep.list.low (cellR _) cell, Slob.fld_put rep.list.low (cellR _) cell]
  rw [split']
  refine rep.retile split (fun x f cell header far => ?_) fun q tag => ⟨c.size - k, ?_, ?_⟩
  · have far' : ¬ (x = e.addr ∧ f = .preceding) ∧ x ≠ c.addr ∧ x ≠ c.addr + k := by
      refine ⟨?_, ?_, ?_⟩
      · rintro ⟨rfl, rfl⟩
        simp at far
        omega
      · omega
      · omega
    rw [fld x f cell, if_neg far'.1, if_neg (fun both => far'.2.1 both.1),
      if_neg (fun both => far'.2.2 both.1), if_neg (fun both => far'.2.2 both.1)]
  · refine ⟨⟨rfl, ?_, ?_⟩, ⟨rfl, ?_, ?_⟩, ?_, rfl⟩
    · exact (fld _ _ (cellC _)).trans ((if_neg (by simp)).trans (if_pos ⟨rfl, rfl⟩))
    · refine (fld _ _ (cellC _)).trans ((if_neg (fun both => by omega)).trans ?_)
      refine (if_neg (by simp)).trans ((if_neg (fun both => by omega)).trans ?_)
      exact (if_neg (by simp)).trans (tag)
    · refine (fld _ _ (cellR _)).trans ((if_neg (by simp)).trans ?_)
      refine (if_neg (fun both => by omega)).trans ((if_neg (by simp)).trans ?_)
      exact if_pos ⟨rfl, rfl⟩
    · refine (fld _ _ (cellR _)).trans ((if_neg (fun both => by omega)).trans ?_)
      exact (if_neg (by simp)).trans (if_pos ⟨rfl, rfl⟩)
    · simp only [Chunk.stop]
      omega
  · exact (fld _ _ cellE).trans (if_pos ⟨rfl, rfl⟩)

end Heap

end Chinos
