import Chinos.Slob.Cells

/-!
# The free list

One list runs through the heads `mm_nodelist[0]`, ..., `mm_nodelist[17]` and all free
chunks. It is sorted by bucket, then by size, a head counting as a node of size 0 of
its bucket: so a chunk stands between the head of its bucket and the next head, and
sizes do not decrease within a bucket. Taking a node off, putting one in and searching
are described on this one list.
-/

namespace Chinos

/-! ## Buckets -/

theorem ndxLoop_eq (ndx size : Nat) : ndxLoop ndx size = ndx + Nat.log 2 size := by
  induction size using Nat.strong_induction_on generalizing ndx with
  | _ size ih =>
    unfold ndxLoop
    by_cases large : size > 1
    · rw [if_pos large, Nat.shiftRight_one, ih (size / 2) (by omega),
        Nat.log_of_one_lt_of_le (by omega) (show 2 ≤ size by omega)]
      omega
    · rw [if_neg large, Nat.log_of_lt (by omega)]
      omega

theorem mmSize2ndx_of_lt {size : Nat} (small : size < mmMaxChunk) :
    mmSize2ndx size = Nat.log 2 (size / 32) := by
  unfold mmSize2ndx
  rw [if_neg (by omega), ndxLoop_eq, Nat.shiftRight_eq_div_pow, Nat.zero_add]

theorem log_lt_of_lt {size : Nat} (small : size < mmMaxChunk) : Nat.log 2 (size / 32) < 17 := by
  by_cases zero : size / 32 = 0
  · rw [zero]
    decide
  · apply Nat.log_lt_of_lt_pow zero
    unfold mmMaxChunk at small
    omega

theorem mmSize2ndx_lt (size : Nat) : mmSize2ndx size < mmNnodes := by
  by_cases small : size < mmMaxChunk
  · rw [mmSize2ndx_of_lt small]
    have bound := log_lt_of_lt small
    unfold mmNnodes
    omega
  · unfold mmSize2ndx mmNnodes
    rw [if_pos (by omega)]
    omega

/-- Of two sizes, the larger one belongs to the same list head or a later one. -/
theorem mmSize2ndx_mono {size size' : Nat} (le : size ≤ size') :
    mmSize2ndx size ≤ mmSize2ndx size' := by
  by_cases small' : size' < mmMaxChunk
  · rw [mmSize2ndx_of_lt small', mmSize2ndx_of_lt (lt_of_le_of_lt le small')]
    exact Nat.log_mono_right (Nat.div_le_div_right le)
  · have last : mmSize2ndx size' = mmNnodes - 1 := if_pos (by omega)
    have bound := mmSize2ndx_lt size
    omega

section List

variable {env : SlobEnv} {s s' : Slob} {x y n p : Nat} {xs ys : List Nat} {P : Nat → Prop}

instance SlobEnv.decidableIsHead (env : SlobEnv) (x : Nat) : Decidable (env.IsHead x) := by
  unfold SlobEnv.IsHead
  infer_instance

/-- The bucket of a node of the list, given the sizes of the nodes. -/
def SlobEnv.bucket (env : SlobEnv) (size : Nat → Nat) (x : Nat) : Nat :=
  if env.IsHead x then (x - env.nodelist) / 32 else mmSize2ndx (size x)

theorem SlobEnv.bucket_head (size : Nat → Nat) {i : Nat} (small : i < mmNnodes) :
    env.bucket size (env.head i) = i := by
  unfold SlobEnv.bucket
  rw [if_pos (env.isHead_head small)]
  unfold SlobEnv.head
  omega

theorem SlobEnv.IsHead.eq_of_bucket {size : Nat → Nat} (isHead : env.IsHead x)
    (isHead' : env.IsHead y) (same : env.bucket size x = env.bucket size y) : x = y := by
  unfold SlobEnv.bucket at same
  rw [if_pos isHead, if_pos isHead'] at same
  unfold SlobEnv.IsHead at isHead isHead'
  omega

/-- The order of the list: by bucket, then by size. -/
def SlobEnv.KeyLe (env : SlobEnv) (size : Nat → Nat) (x y : Nat) : Prop :=
  env.bucket size x < env.bucket size y ∨
    (env.bucket size x = env.bucket size y ∧ size x ≤ size y)

theorem SlobEnv.KeyLe.trans {size : Nat → Nat} {z : Nat} (first : env.KeyLe size x y)
    (second : env.KeyLe size y z) : env.KeyLe size x z := by
  unfold SlobEnv.KeyLe at *
  omega

instance SlobEnv.decidableKeyLe (env : SlobEnv) (size : Nat → Nat) :
    DecidableRel (env.KeyLe size) := fun x y => by
  unfold SlobEnv.KeyLe
  infer_instance

/-- `xs` are the nodes of the list, heads included. -/
structure FreeList (env : SlobEnv) (s : Slob) (xs : List Nat) : Prop where
  low : env.Low s.brk
  chain : s.links.Chain 0 xs
  cells : ∀ x ∈ xs, ∀ f, Cell env s.brk x f
  heads : ∀ x, env.IsHead x → x ∈ xs
  headSize : ∀ x, env.IsHead x → s.fld .size x = 0
  chunkSize : ∀ x ∈ xs, ¬ env.IsHead x → sizeofMmFreenode ≤ s.fld .size x
  sorted : xs.Pairwise (env.KeyLe (s.fld .size))

/-- From `s` to `s'` the header fields of all nodes are the same. -/
structure SameTags (env : SlobEnv) (s s' : Slob) : Prop where
  size : ∀ x, Cell env s.brk x .size → s'.fld .size x = s.fld .size x
  preceding : ∀ x, Cell env s.brk x .preceding → s'.fld .preceding x = s.fld .preceding x

theorem FreeList.ne_zero (list : FreeList env s xs) (inside : x ∈ xs) : x ≠ 0 := by
  have bounds := (list.cells x inside .size).bounds list.low
  omega

/-- There are fewer nodes than addresses, so that a walk of the list ends. -/
theorem FreeList.short (list : FreeList env s xs) : xs.length < 2 ^ 64 := by
  have inside : xs.toFinset ⊆ Finset.Ico 1 (2 ^ 64) := by
    intro x here
    have bounds := (list.cells x (List.mem_toFinset.mp here) .size).bounds list.low
    rw [Finset.mem_Ico]
    omega
  have card := Finset.card_le_card inside
  rw [List.toFinset_card_of_nodup list.chain.distinct, Nat.card_Ico] at card
  omega

/-- A node that is not a head has a node before it. -/
theorem FreeList.split (list : FreeList env s xs) (inside : x ∈ xs) (chunk : ¬ env.IsHead x) :
    ∃ as p bs, xs = as ++ p :: x :: bs := by
  obtain ⟨as, bs, rfl⟩ := List.append_of_mem inside
  rcases List.eq_nil_or_concat as with rfl | ⟨as, p, rfl⟩
  · -- the head of the bucket would come after the chunk
    exfalso
    have bucket : env.bucket (s.fld .size) x = mmSize2ndx (s.fld .size x) := if_neg chunk
    have small := mmSize2ndx_lt (s.fld .size x)
    have isHead := env.isHead_head small
    have later : env.head (mmSize2ndx (s.fld .size x)) ∈ bs := by
      rcases List.mem_cons.mp (list.heads _ isHead) with same | later
      · exact absurd (same ▸ isHead) chunk
      · exact later
    have order := List.rel_of_pairwise_cons list.sorted later
    have size := list.headSize _ isHead
    have large := list.chunkSize x inside chunk
    have headBucket := env.bucket_head (s.fld .size) small
    unfold SlobEnv.KeyLe sizeofMmFreenode at *
    omega
  · exact ⟨as, p, bs, by simp⟩

theorem SlobEnv.KeyLe.congr {size size' : Nat → Nat} (order : env.KeyLe size x y)
    (sameX : size' x = size x) (sameY : size' y = size y) : env.KeyLe size' x y := by
  unfold SlobEnv.KeyLe SlobEnv.bucket at *
  rw [sameX, sameY]
  exact order

theorem FreeList.size_eq (list : FreeList env s xs) (tags : SameTags env s s') (inside : x ∈ xs) :
    s'.fld .size x = s.fld .size x := tags.size x (list.cells x inside .size)

/-- A part of the list is a list again, after pointers were written that link it and headers were
left alone. -/
theorem FreeList.of_sublist (list : FreeList env s xs) (tags : SameTags env s s')
    (brk : s'.brk = s.brk) (sub : ys.Sublist xs) (heads : ∀ x, env.IsHead x → x ∈ ys)
    (chain : s'.links.Chain 0 ys) : FreeList env s' ys where
  low := brk ▸ list.low
  chain := chain
  cells := fun x inside => brk ▸ list.cells x (sub.subset inside)
  heads := heads
  headSize := fun x isHead =>
    (list.size_eq tags (list.heads x isHead)).trans (list.headSize x isHead)
  chunkSize := fun x inside chunk =>
    (list.chunkSize x (sub.subset inside) chunk).trans_eq
      (list.size_eq tags (sub.subset inside)).symm
  sorted := (list.sorted.sublist sub).imp_of_mem fun inside inside' order =>
    order.congr (list.size_eq tags (sub.subset inside)) (list.size_eq tags (sub.subset inside'))

/-! ## Taking a node off -/

/-- The list fields of list nodes are separate words. -/
theorem FreeList.fld_put (list : FreeList env s xs) {f g : NodeField} {v : Nat} (inside : x ∈ xs)
    (inside' : y ∈ xs) :
    (s'.put x f v).fld g y = if y = x ∧ g = f then v else s'.fld g y :=
  Slob.fld_put list.low (list.cells x inside f) (list.cells y inside' g)

theorem FreeList.mem_erase (list : FreeList env s xs) : y ∈ xs.erase x ↔ y ∈ xs ∧ y ≠ x := by
  rw [list.chain.distinct.mem_erase_iff, and_comm]

/-- The pointers that take out what is between `p` and `next`. -/
def Slob.bypass (s : Slob) (p next : Nat) : Slob :=
  let s := s.put p .next next
  if next ≠ 0 then s.put next .prev p else s

section Bypass

variable {as bs : List Nat} (list : FreeList env s (as ++ p :: x :: bs))
include list

theorem FreeList.bypass_fld {f : NodeField} (cellY : Cell env s.brk y f) :
    (s.bypass p (Links.first 0 bs)).fld f y =
      if y ∈ bs.head? ∧ f = .prev then p
      else if y = p ∧ f = .next then Links.first 0 bs else s.fld f y := by
  have one : (s.put p .next (Links.first 0 bs)).fld f y =
      if y = p ∧ f = .next then Links.first 0 bs else s.fld f y :=
    Slob.fld_put list.low (list.cells p (by simp) _) cellY
  unfold Slob.bypass
  cases bs with
  | nil =>
    rw [Links.first_nil, if_neg (not_not_intro rfl), if_neg (by simp)]
    exact one
  | cons b bs =>
    have inB : b ∈ as ++ p :: x :: b :: bs := by simp
    rw [Links.first_cons] at one ⊢
    rw [if_pos (list.ne_zero inB), Slob.fld_put list.low (list.cells b inB _) cellY, one]
    simp only [List.head?_cons, Option.mem_some_iff, eq_comm]

theorem FreeList.bypass_tags : SameTags env s (s.bypass p (Links.first 0 bs)) := by
  constructor
  · intro y cellY
    rw [list.bypass_fld cellY]
    simp
  · intro y cellY
    rw [list.bypass_fld cellY]
    simp

theorem FreeList.bypass_chain :
    (s.bypass p (Links.first 0 bs)).links.Chain 0 (as ++ p :: bs) := by
  have sub : (as ++ p :: bs).Sublist (as ++ p :: x :: bs) :=
    ((List.sublist_cons_self x bs).cons_cons p).append_left as
  have fld : ∀ {y} {f : NodeField}, y ∈ as ++ p :: bs → _ := fun {y f} inside =>
    list.bypass_fld (list.cells y (sub.subset inside) f)
  refine list.chain.remove ?_ (fun y isFirst => ?_) (fun y here ne => ?_) fun y here ne => ?_
  · exact (fld (by simp)).trans (by simp)
  · have inside : y ∈ as ++ p :: bs := by simp [List.mem_of_mem_head? isFirst]
    exact (fld inside).trans (if_pos ⟨isFirst, rfl⟩)
  · exact (fld here).trans (by simp [ne, Slob.links])
  · exact (fld here).trans (by simp [ne, Slob.links])

theorem FreeList.bypass_touched
    (good : ∀ y ∈ as ++ p :: x :: bs, ∀ f : NodeField, P (y + f.offset)) :
    Touched P s (s.bypass p (Links.first 0 bs)) := by
  have one : Touched P s (s.put p .next (Links.first 0 bs)) := .put (good p (by simp) .next)
  unfold Slob.bypass
  cases bs with
  | nil =>
    rw [Links.first_nil, if_neg (not_not_intro rfl)]
    exact one
  | cons b bs =>
    have inB : b ∈ as ++ p :: x :: b :: bs := by simp
    rw [Links.first_cons, if_pos (list.ne_zero inB)]
    exact one.trans (.put (good b inB .prev))

/-- The code reads the links of `x` again after its first store. -/
theorem FreeList.bypass_run :
    removeNode env s x = .ok (s.bypass p (Links.first 0 bs)) := by
  have inP : p ∈ as ++ p :: x :: bs := by simp
  have inX : x ∈ as ++ p :: x :: bs := by simp
  have prev : s.fld .prev x = p := list.chain.prev_eq
  have next : s.fld .next x = Links.first 0 bs := by
    have chain := list.chain
    rw [List.append_cons] at chain
    exact chain.next_eq
  have neP : x ≠ p := by
    have distinct := list.chain.distinct
    rintro rfl
    simp [List.nodup_append] at distinct
  have again : ∀ f, (s.put p .next (Links.first 0 bs)).fld f x = s.fld f x := fun f =>
    (list.fld_put inP inX).trans (if_neg fun both => neP both.1)
  unfold removeNode Slob.bypass
  rw [nodeLoad_eq list.low (list.cells x inX _), ok_bind, prev,
    require_bind_of_pos (list.ne_zero inP), nodeLoad_eq list.low (list.cells x inX _), ok_bind,
    next, nodeStore_eq list.low (list.cells p inP _), ok_bind,
    nodeLoad_at list.low (list.cells x inX _) (by rfl), ok_bind, again, next]
  cases bs with
  | nil =>
    rw [Links.first_nil, if_neg (not_not_intro rfl), if_neg (not_not_intro rfl)]
    rfl
  | cons b bs =>
    have inB : b ∈ as ++ p :: x :: b :: bs := by simp
    rw [Links.first_cons] at again ⊢
    rw [if_pos (list.ne_zero inB), if_pos (list.ne_zero inB),
      nodeLoad_at list.low (list.cells x inX _) (by rfl), ok_bind, again, prev]
    exact nodeStore_at list.low (list.cells b inB _) (by rfl)

end Bypass

theorem removeNode_spec (list : FreeList env s xs) (inside : x ∈ xs) (chunk : ¬ env.IsHead x)
    (good : ∀ y ∈ xs, ∀ f : NodeField, P (y + f.offset)) :
    ∃ s', removeNode env s x = .ok s' ∧ Touched P s s' ∧ SameTags env s s' ∧
      FreeList env s' (xs.erase x) := by
  have heads : ∀ y, env.IsHead y → y ∈ xs.erase x := fun y isHead =>
    list.mem_erase.mpr ⟨list.heads y isHead, fun same => chunk (same ▸ isHead)⟩
  obtain ⟨as, p, bs, rfl⟩ := list.split inside chunk
  have erased : (as ++ p :: x :: bs).erase x = as ++ p :: bs := by
    have distinct := list.chain.distinct
    have out : x ∉ as ++ [p] := by
      rw [List.append_cons] at distinct
      have apart := (List.nodup_middle.mp distinct).notMem
      simp only [List.mem_append, not_or] at apart ⊢
      exact apart.1
    rw [List.append_cons, List.erase_append_right _ out, List.erase_cons_head, ← List.append_cons]
  rw [erased] at heads ⊢
  have sub : (as ++ p :: bs).Sublist (as ++ p :: x :: bs) :=
    ((List.sublist_cons_self x bs).cons_cons p).append_left as
  have touched := list.bypass_touched good
  exact ⟨_, list.bypass_run, touched, list.bypass_tags,
    list.of_sublist list.bypass_tags touched.brk sub heads list.bypass_chain⟩

/-! ## Putting a node in -/

/-- The walk of `mm_addfreechunk` stays in the bucket of `size` and stops where a chunk
of that size belongs. -/
theorem addLoop_spec (list : FreeList env s xs) {size : Nat} {as bs : List Nat} {fuel : Nat}
    (split : xs = as ++ p :: bs) (room : bs.length < fuel)
    (bucket : env.bucket (s.fld .size) p = mmSize2ndx size) (below : s.fld .size p < size) :
    ∃ as' p' bs', xs = as' ++ p' :: bs' ∧
      addLoop env s size fuel p (Links.first 0 bs) = .ok (p', Links.first 0 bs') ∧
      env.bucket (s.fld .size) p' = mmSize2ndx size ∧ s.fld .size p' < size ∧
      ∀ y ∈ bs'.head?, mmSize2ndx size < env.bucket (s.fld .size) y ∨
        (mmSize2ndx size = env.bucket (s.fld .size) y ∧ size ≤ s.fld .size y) := by
  induction bs generalizing as p fuel with
  | nil =>
    obtain ⟨fuel, rfl⟩ : ∃ k, fuel = k + 1 := ⟨fuel - 1, by omega⟩
    exact ⟨as, p, [], split, rfl, bucket, below, by simp⟩
  | cons y bs ih =>
    obtain ⟨fuel, rfl⟩ : ∃ k, fuel = k + 1 := ⟨fuel - 1, by omega⟩
    have inY : y ∈ xs := by simp [split]
    have order : env.KeyLe (s.fld .size) p y := by
      have sorted := list.sorted
      rw [split, List.pairwise_append] at sorted
      exact List.rel_of_pairwise_cons sorted.2.1 (.head _)
    have next : s.fld .next y = Links.first 0 bs := by
      have chain := list.chain
      rw [split, List.append_cons] at chain
      exact chain.next_eq
    unfold addLoop
    rw [Links.first_cons, if_neg (list.ne_zero inY), nodeLoad_eq list.low (list.cells y inY _),
      ok_bind]
    by_cases on : s.fld .size y ≠ 0 ∧ s.fld .size y < size
    · -- `y` is a smaller chunk of the same bucket
      rw [if_pos on, nodeLoad_eq list.low (list.cells y inY _), ok_bind, next]
      have chunk : ¬ env.IsHead y := fun isHead => on.1 (list.headSize y isHead)
      have bucketY : env.bucket (s.fld .size) y = mmSize2ndx (s.fld .size y) := if_neg chunk
      have mono := mmSize2ndx_mono on.2.le
      refine ih (show xs = (as ++ [p]) ++ y :: bs by simp [split])
        (by simp only [List.length_cons] at room; omega) ?_ on.2
      unfold SlobEnv.KeyLe at order
      omega
    · rw [if_neg on]
      refine ⟨as, p, y :: bs, split, rfl, bucket, below, fun z isY => ?_⟩
      cases isY
      by_cases isHead : env.IsHead y
      · -- `y` is the head of a later bucket
        left
        have size := list.headSize y isHead
        have inP : p ∈ xs := by simp [split]
        have different : p ≠ y := by
          rintro rfl
          have distinct := list.chain.distinct
          simp [split, List.nodup_append] at distinct
        have later : ¬ (env.bucket (s.fld .size) p = env.bucket (s.fld .size) y ∧
            s.fld .size p ≤ s.fld .size y) := by
          rintro ⟨same, le⟩
          by_cases headP : env.IsHead p
          · exact different (SlobEnv.IsHead.eq_of_bucket headP isHead same)
          · have large := list.chunkSize p inP headP
            unfold sizeofMmFreenode at large
            omega
        unfold SlobEnv.KeyLe at order
        omega
      · have bucketY : env.bucket (s.fld .size) y = mmSize2ndx (s.fld .size y) := if_neg isHead
        have large := list.chunkSize y inY isHead
        unfold sizeofMmFreenode at large
        have le : size ≤ s.fld .size y := by omega
        have mono := mmSize2ndx_mono le
        omega

/-- The list with a chunk put in after `p`, once the pointers are written. -/
theorem FreeList.insert {as bs : List Nat} (list : FreeList env s (as ++ p :: bs))
    (cell : ∀ f, Cell env s.brk n f)
    (large : sizeofMmFreenode ≤ s.fld .size n)
    (after : env.KeyLe (s.fld .size) p n) (before : ∀ y ∈ bs.head?, env.KeyLe (s.fld .size) n y)
    (tags : SameTags env s s') (brk : s'.brk = s.brk)
    (chain : s'.links.Chain 0 (as ++ p :: n :: bs)) : FreeList env s' (as ++ p :: n :: bs) := by
  have members : ∀ y, y ∈ as ++ p :: n :: bs → y = n ∨ y ∈ as ++ p :: bs := by
    intro y inside
    simp at inside ⊢
    tauto
  have sizeN : s'.fld .size n = s.fld .size n := tags.size n (cell .size)
  have size_eq : ∀ y, y = n ∨ y ∈ as ++ p :: bs → s'.fld .size y = s.fld .size y := by
    rintro y (rfl | inside)
    · exact sizeN
    · exact list.size_eq tags inside
  have sorted : (as ++ p :: n :: bs).Pairwise (env.KeyLe (s.fld .size)) := by
    have old := list.sorted
    rw [List.pairwise_append, List.pairwise_cons] at old
    obtain ⟨sortedAs, ⟨pBs, sortedBs⟩, cross⟩ := old
    have nBs : ∀ y ∈ bs, env.KeyLe (s.fld .size) n y := by
      intro y inside
      cases bs with
      | nil => cases inside
      | cons b bs =>
        have first := before b rfl
        rcases List.mem_cons.mp inside with rfl | later
        · exact first
        · exact first.trans (List.rel_of_pairwise_cons sortedBs later)
    rw [List.pairwise_append, List.pairwise_cons, List.pairwise_cons]
    refine ⟨sortedAs, ⟨?_, nBs, sortedBs⟩, ?_⟩
    · intro y inside
      rcases List.mem_cons.mp inside with rfl | later
      · exact after
      · exact pBs y later
    · intro x inside y inside'
      have toP := cross x inside p (.head _)
      rcases List.mem_cons.mp inside' with rfl | later
      · exact toP
      · rcases List.mem_cons.mp later with rfl | later
        · exact toP.trans after
        · exact cross x inside y (.tail _ later)
  refine ⟨brk ▸ list.low, chain, ?_, ?_, ?_, ?_, ?_⟩
  · intro y inside f
    rw [brk]
    rcases members y inside with rfl | old
    · exact cell f
    · exact list.cells y old f
  · intro y isHead
    have old := list.heads y isHead
    simp at old ⊢
    tauto
  · exact fun y isHead => (size_eq y (.inr (list.heads y isHead))).trans (list.headSize y isHead)
  · intro y inside notHead
    rw [size_eq y (members y inside)]
    rcases members y inside with rfl | old
    · exact large
    · exact list.chunkSize y old notHead
  · exact sorted.imp_of_mem fun inside inside' order =>
      order.congr (size_eq _ (members _ inside)) (size_eq _ (members _ inside'))

/-- Where `n` goes is the place that the order of the keys gives it. -/
theorem FreeList.orderedInsert_eq {as bs : List Nat} (list : FreeList env s (as ++ p :: bs))
    (cell : Cell env s.brk n .size) (after : ¬ env.KeyLe (s.fld .size) n p)
    (before : ∀ y ∈ bs.head?, env.KeyLe (s.fld .size) n y) (tags : SameTags env s s') :
    (as ++ p :: bs).orderedInsert (env.KeyLe (s'.fld .size)) n = as ++ p :: n :: bs := by
  have sizeN : s'.fld .size n = s.fld .size n := tags.size n cell
  rw [List.append_cons, List.append_cons as p (n :: bs)]
  refine orderedInsert_split (fun y inside order => after ?_) fun y isFirst => ?_
  · -- what stands before `p` is no larger than `p`, and `p` is smaller
    have inY : y ∈ as ++ p :: bs := by
      rw [List.append_cons]
      exact List.mem_append_left _ inside
    have back := order.congr sizeN.symm (list.size_eq tags inY).symm
    rcases List.mem_append.mp inside with inAs | same
    · exact back.trans ((List.pairwise_append.mp list.sorted).2.2 y inAs p (.head _))
    · rwa [List.mem_singleton.mp same] at back
  · have inY : y ∈ as ++ p :: bs := by simp [List.mem_of_mem_head? isFirst]
    exact (before y isFirst).congr sizeN (list.size_eq tags inY)

/-- The pointers that put `n` in between `p` and `next`. -/
def Slob.splice (s : Slob) (p n next : Nat) : Slob :=
  let s := ((s.put p .next n).put n .prev p).put n .next next
  if next ≠ 0 then s.put next .prev n else s

section Splice

variable {as bs : List Nat} (list : FreeList env s (as ++ p :: bs))
  (cell : ∀ f, Cell env s.brk n f)
include list cell

theorem FreeList.splice_fld {f : NodeField} (cellY : Cell env s.brk y f) :
    (s.splice p n (Links.first 0 bs)).fld f y =
      if y ∈ bs.head? ∧ f = .prev then n
      else if y = n ∧ f = .next then Links.first 0 bs
      else if y = n ∧ f = .prev then p
      else if y = p ∧ f = .next then n else s.fld f y := by
  have cellP := list.cells p (by simp)
  have three : (((s.put p .next n).put n .prev p).put n .next (Links.first 0 bs)).fld f y =
      if y = n ∧ f = .next then Links.first 0 bs else if y = n ∧ f = .prev then p
      else if y = p ∧ f = .next then n else s.fld f y := by
    rw [Slob.fld_put list.low (cell _) cellY, Slob.fld_put list.low (cell _) cellY,
      Slob.fld_put list.low (cellP _) cellY]
  unfold Slob.splice
  cases bs with
  | nil =>
    rw [Links.first_nil, if_neg (not_not_intro rfl), if_neg (by simp)]
    exact three
  | cons b bs =>
    have inB : b ∈ as ++ p :: b :: bs := by simp
    rw [Links.first_cons] at three ⊢
    rw [if_pos (list.ne_zero inB), Slob.fld_put list.low (list.cells b inB _) cellY, three]
    simp only [List.head?_cons, Option.mem_some_iff, eq_comm]

theorem FreeList.splice_tags : SameTags env s (s.splice p n (Links.first 0 bs)) := by
  constructor
  · intro y cellY
    rw [list.splice_fld cell cellY]
    simp
  · intro y cellY
    rw [list.splice_fld cell cellY]
    simp

theorem FreeList.splice_chain (new : n ∉ as ++ p :: bs) :
    (s.splice p n (Links.first 0 bs)).links.Chain 0 (as ++ p :: n :: bs) := by
  have fld : ∀ {y} {f : NodeField}, (∀ f, Cell env s.brk y f) → _ := fun {y f} cellY =>
    list.splice_fld cell (cellY f)
  have inP : p ∈ as ++ p :: bs := by simp
  have later : ∀ {y}, y ∈ bs.head? → y ∈ as ++ p :: bs := fun isFirst => by
    simp [List.mem_of_mem_head? isFirst]
  have neN : ∀ {y}, y ∈ as ++ p :: bs → y ≠ n := fun inside same => new (same ▸ inside)
  have notFirst : n ∉ bs.head? := fun isFirst => new (later isFirst)
  refine list.chain.insert new ?_ ?_ ?_ (fun y isFirst => ?_) (fun y inside ne => ?_)
    fun y inside ne => ?_
  · exact (fld (list.cells p inP)).trans (by simp [neN inP])
  · exact (fld cell).trans (by simp [notFirst])
  · exact (fld cell).trans (by simp)
  · exact (fld (list.cells y (later isFirst))).trans (if_pos ⟨isFirst, rfl⟩)
  · exact (fld (list.cells y inside)).trans (by simp [neN inside, ne, Slob.links])
  · exact (fld (list.cells y inside)).trans (by simp [neN inside, ne, Slob.links])

omit cell in
theorem FreeList.splice_touched
    (good : ∀ y, y = n ∨ y ∈ as ++ p :: bs → ∀ f : NodeField, P (y + f.offset)) :
    Touched P s (s.splice p n (Links.first 0 bs)) := by
  have three : Touched P s
      (((s.put p .next n).put n .prev p).put n .next (Links.first 0 bs)) :=
    ((Touched.put (good p (.inr (by simp)) _)).trans (.put (good n (.inl rfl) _))).trans
      (.put (good n (.inl rfl) _))
  unfold Slob.splice
  cases bs with
  | nil =>
    rw [Links.first_nil, if_neg (not_not_intro rfl)]
    exact three
  | cons b bs =>
    have inB : b ∈ as ++ p :: b :: bs := by simp
    rw [Links.first_cons, if_pos (list.ne_zero inB)]
    exact three.trans (.put (good b (.inr inB) _))

/-- The four stores of `mm_addfreechunk` succeed, and put the node in between its neighbours. -/
theorem FreeList.splice_run :
    (do
      let s ← nodeStore env s p .next n
      let s ← nodeStore env s n .prev p
      let s ← nodeStore env s n .next (Links.first 0 bs)
      if Links.first 0 bs ≠ 0 then nodeStore env s (Links.first 0 bs) .prev n else return s) =
      .ok (s.splice p n (Links.first 0 bs)) := by
  have cellP := list.cells p (by simp)
  rw [nodeStore_eq list.low (cellP _), ok_bind, nodeStore_at list.low (cell _) (by rfl), ok_bind,
    nodeStore_at list.low (cell _) (by rfl), ok_bind]
  unfold Slob.splice
  cases bs with
  | nil =>
    rw [Links.first_nil, if_neg (not_not_intro rfl), if_neg (not_not_intro rfl)]
    rfl
  | cons b bs =>
    have inB : b ∈ as ++ p :: b :: bs := by simp
    rw [Links.first_cons, if_pos (list.ne_zero inB), if_pos (list.ne_zero inB)]
    exact nodeStore_at list.low (list.cells b inB _) (by rfl)

end Splice

/-- `mm_addfreechunk` puts a free chunk that is not on the list where it belongs, before
the chunks of its own size. -/
theorem mmAddfreechunk_spec (list : FreeList env s xs) (new : n ∉ xs) (chunk : ¬ env.IsHead n)
    (cell : ∀ f, Cell env s.brk n f) (large : sizeofMmFreenode ≤ s.fld .size n)
    (free : s.fld .preceding n &&& mmAllocBit = 0)
    (good : ∀ y, y = n ∨ y ∈ xs → ∀ f : NodeField, P (y + f.offset)) :
    ∃ s', mmAddfreechunk env s n = .ok s' ∧ Touched P s s' ∧ SameTags env s s' ∧
      FreeList env s' (xs.orderedInsert (env.KeyLe (s'.fld .size)) n) := by
  have small := mmSize2ndx_lt (s.fld .size n)
  have isHead := env.isHead_head small
  have inHead := list.heads _ isHead
  obtain ⟨as₀, bs₀, split₀⟩ := List.append_of_mem inHead
  have first : s.fld .next (env.head (mmSize2ndx (s.fld .size n))) = Links.first 0 bs₀ := by
    have chain := list.chain
    rw [split₀] at chain
    exact chain.next_eq
  have shorter : bs₀.length < 2 ^ 64 := by
    have short := list.short
    rw [split₀, List.length_append, List.length_cons] at short
    omega
  obtain ⟨as, p, bs, rfl, walk, bucket, below, above⟩ := addLoop_spec list split₀ shorter
    (env.bucket_head _ small)
    ((list.headSize _ isHead).trans_lt (Nat.lt_of_lt_of_le (by decide) large))
  have bucketN : env.bucket (s.fld .size) n = mmSize2ndx (s.fld .size n) := if_neg chunk
  have before : ∀ y ∈ bs.head?, env.KeyLe (s.fld .size) n y := by
    intro y isFirst
    have order := above y isFirst
    unfold SlobEnv.KeyLe
    rw [bucketN]
    exact order
  have after : ¬ env.KeyLe (s.fld .size) n p := by
    unfold SlobEnv.KeyLe
    omega
  have touched := list.splice_touched good
  have tags := list.splice_tags cell
  refine ⟨s.splice p n (Links.first 0 bs), ?_, touched, tags, ?_⟩
  · unfold mmAddfreechunk
    rw [nodeLoad_eq list.low (cell _), ok_bind, require_bind_of_pos large,
      nodeLoad_eq list.low (cell _), ok_bind, require_bind_of_pos free]
    dsimp only
    rw [nodeLoad_eq list.low (list.cells _ inHead _), ok_bind, first, walk, ok_bind]
    exact list.splice_run cell
  · rw [list.orderedInsert_eq (cell _) after before tags]
    exact list.insert cell large (.inr ⟨by rw [bucket, bucketN], below.le⟩) before tags
      touched.brk (list.splice_chain cell new)

/-! ## Searching -/

theorem searchLoop_spec (list : FreeList env s xs) {k fuel : Nat} {as bs : List Nat}
    (split : xs = as ++ p :: bs) (room : bs.length < fuel) :
    (∃ us y vs, bs = us ++ y :: vs ∧ (∀ u ∈ us, s.fld .size u < k) ∧ k ≤ s.fld .size y ∧
      searchLoop env s k fuel (Links.first 0 bs) = .ok y) ∨
    ((∀ u ∈ bs, s.fld .size u < k) ∧ searchLoop env s k fuel (Links.first 0 bs) = .ok 0) := by
  induction bs generalizing as p fuel with
  | nil =>
    obtain ⟨fuel, rfl⟩ : ∃ k, fuel = k + 1 := ⟨fuel - 1, by omega⟩
    exact .inr ⟨by simp, rfl⟩
  | cons y bs ih =>
    obtain ⟨fuel, rfl⟩ : ∃ k, fuel = k + 1 := ⟨fuel - 1, by omega⟩
    have inY : y ∈ xs := by simp [split]
    have inP : p ∈ xs := by simp [split]
    have chain := list.chain
    rw [split] at chain
    have prev : s.fld .prev y = p := chain.prev_eq
    have back : s.fld .next p = y := chain.next_eq
    rw [List.append_cons] at chain
    have next : s.fld .next y = Links.first 0 bs := chain.next_eq
    unfold searchLoop
    rw [Links.first_cons, if_neg (list.ne_zero inY), nodeLoad_eq list.low (list.cells y inY _),
      ok_bind]
    by_cases small : s.fld .size y < k
    · rw [if_pos small, nodeLoad_eq list.low (list.cells y inY _), ok_bind, prev,
        nodeLoad_eq list.low (list.cells p inP _), ok_bind, back, require_bind_of_pos rfl,
        nodeLoad_eq list.low (list.cells y inY _), ok_bind, next]
      have shorter : bs.length < fuel := by
        simp only [List.length_cons] at room
        omega
      rcases ih (show xs = (as ++ [p]) ++ y :: bs by simp [split]) shorter with
        ⟨us, z, vs, rfl, skipped, large, run⟩ | ⟨skipped, run⟩
      · refine .inl ⟨y :: us, z, vs, rfl, fun u inside => ?_, large, run⟩
        rcases List.mem_cons.mp inside with rfl | later
        · exact small
        · exact skipped u later
      · refine .inr ⟨fun u inside => ?_, run⟩
        rcases List.mem_cons.mp inside with rfl | later
        · exact small
        · exact skipped u later
    · rw [if_neg small]
      exact .inl ⟨[], y, bs, rfl, by simp, by omega, rfl⟩

/-- The node a request for `k` bytes is served from: a smallest one that is large enough,
and of these the first. -/
structure FirstFit (env : SlobEnv) (s : Slob) (xs : List Nat) (k x : Nat) : Prop where
  chunk : ¬ env.IsHead x
  enough : k ≤ s.fld .size x
  split : ∃ us vs, xs = us ++ x :: vs ∧ ∀ u ∈ us, ¬ env.KeyLe (s.fld .size) x u
  least : ∀ y ∈ xs, k ≤ s.fld .size y → s.fld .size x ≤ s.fld .size y

/-- A chunk before the head of the bucket of `k` is smaller than `k`, and comes before
every chunk of at least `k` bytes. -/
theorem FreeList.before_head (list : FreeList env s xs) {k : Nat} {as bs : List Nat}
    (split : xs = as ++ env.head (mmSize2ndx k) :: bs) (inside : y ∈ as) :
    env.bucket (s.fld .size) y < mmSize2ndx k := by
  have small := mmSize2ndx_lt k
  have isHead := env.isHead_head small
  have bucketH := env.bucket_head (s.fld .size) small
  have zero := list.headSize _ isHead
  have sorted := list.sorted
  have distinct := list.chain.distinct
  rw [split] at sorted distinct
  have order := (List.pairwise_append.mp sorted).2.2 y inside _ (.head _)
  have ne : y ≠ env.head (mmSize2ndx k) := fun same =>
    (List.nodup_append.mp distinct).2.2 y inside _ (.head _) same
  have notHead : env.bucket (s.fld .size) y = mmSize2ndx k → ¬ env.IsHead y :=
    fun same isHeadY => ne (isHeadY.eq_of_bucket isHead (same.trans bucketH.symm))
  have chunkSize := list.chunkSize y (by simp [split, inside])
  unfold SlobEnv.KeyLe at order
  unfold sizeofMmFreenode at chunkSize
  by_contra late
  have large := chunkSize (notHead (by omega))
  omega

/-- The search of `slob_malloc` finds the first chunk of the smallest size that is large
enough, if the list has one that is. -/
theorem FreeList.search (list : FreeList env s xs) {k : Nat} (pos : 0 < k) :
    ∃ node, (do
        let node ← nodeLoad env s (env.head (mmSize2ndx k)) .next
        searchLoop env s k (2 ^ 64) node) = .ok node ∧
      ((node ∈ xs ∧ FirstFit env s xs k node) ∨ (node = 0 ∧ ∀ y ∈ xs, s.fld .size y < k)) := by
  have small := mmSize2ndx_lt k
  have isHead := env.isHead_head small
  have inHead := list.heads _ isHead
  have zero := list.headSize _ isHead
  have bucketH := env.bucket_head (s.fld .size) small
  obtain ⟨as, bs, split⟩ := List.append_of_mem inHead
  have first : s.fld .next (env.head (mmSize2ndx k)) = Links.first 0 bs := by
    have chain := list.chain
    rw [split] at chain
    exact chain.next_eq
  have shorter : bs.length < 2 ^ 64 := by
    have short := list.short
    rw [split, List.length_append, List.length_cons] at short
    omega
  have chunk : ∀ y, k ≤ s.fld .size y → ¬ env.IsHead y := fun y large isHead' => by
    have none := list.headSize y isHead'
    omega
  have bucket : ∀ y, k ≤ s.fld .size y →
      env.bucket (s.fld .size) y = mmSize2ndx (s.fld .size y) := fun y large =>
    if_neg (chunk y large)
  -- a chunk that is large enough stands behind the head
  have behind : ∀ y ∈ xs, k ≤ s.fld .size y → y ∈ bs := by
    intro y inside large
    have mono := mmSize2ndx_mono large
    have bucketY := bucket y large
    rw [split] at inside
    rcases List.mem_append.mp inside with before | here
    · have early := list.before_head split before
      omega
    · rcases List.mem_cons.mp here with rfl | after
      · exact absurd isHead (chunk _ large)
      · exact after
  rw [nodeLoad_eq list.low (list.cells _ inHead _), ok_bind, first]
  rcases searchLoop_spec list split shorter with ⟨us, y, vs, rfl, skipped, large, run⟩ | ⟨none, run⟩
  · have inY : y ∈ xs := by simp [split]
    have bucketY := bucket y large
    have mono := mmSize2ndx_mono large
    have sorted := list.sorted
    have whole : xs = (as ++ env.head (mmSize2ndx k) :: us) ++ y :: vs := by simp [split]
    rw [whole, List.pairwise_append, List.pairwise_cons] at sorted
    obtain ⟨-, ⟨later, -⟩, earlier⟩ := sorted
    refine ⟨y, run, .inl ⟨inY, chunk y large, large, ⟨_, vs, whole, fun u inside order => ?_⟩,
      fun z inZ largeZ => ?_⟩⟩
    · have back := earlier u inside y (.head _)
      unfold SlobEnv.KeyLe at order back
      rcases List.mem_append.mp inside with before | here
      · have early := list.before_head split before
        omega
      · rcases List.mem_cons.mp here with rfl | inUs
        · omega
        · have less := skipped u inUs
          omega
    · rcases List.mem_append.mp (behind z inZ largeZ) with inUs | here
      · have less := skipped z inUs
        omega
      · rcases List.mem_cons.mp here with rfl | after
        · exact le_rfl
        · have order := later z after
          have bucketZ := bucket z largeZ
          by_contra smaller
          have mono' := mmSize2ndx_mono (show s.fld .size z ≤ s.fld .size y by omega)
          unfold SlobEnv.KeyLe at order
          omega
  · refine ⟨0, run, .inr ⟨rfl, fun y inside => ?_⟩⟩
    by_contra large
    exact large (none y (behind y inside (by omega)))

end List

end Chinos
