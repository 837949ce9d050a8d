import Mathlib.Data.Nat.Bitwise
import Chinos.Slob.Free

/-!
# Memory for the heap

`slob_init` makes the first chunk and `slob_extend` adds one at the end: the guard node
there becomes the header of a new chunk, with a new guard behind it, and the chunk is
freed. Both ask the kernel to move the break, and take it for granted that it does: if
the break stays where it is, they store to memory above it.
-/

namespace Chinos

/-- `SYS_brk` sets the break it is asked for; a request of 0 is a query. -/
def SlobEnv.Granting (env : SlobEnv) : Prop :=
  ∀ brk addr, env.sysBrk brk addr = if addr = 0 then brk else addr

/-- `SYS_brk` answers with the break, which a request may leave as it was. -/
def SlobEnv.Answering (env : SlobEnv) : Prop :=
  ∀ brk addr, env.sysBrk brk addr = brk ∨ addr ≠ 0 ∧ env.sysBrk brk addr = addr

/-- `SYS_brk` leaves the break where it is though it is asked for another 128 KiB. -/
def SlobEnv.Refuses (env : SlobEnv) (brk : Nat) : Prop :=
  env.sysBrk brk (brk + mmapThreshold) = brk

/-- The kernel grants the next 128 KiB: `SYS_brk` answers with the break that was asked for. -/
def SlobEnv.Grants (env : SlobEnv) (brk : Nat) : Prop :=
  env.sysBrk brk (brk + mmapThreshold) = brk + mmapThreshold

section Kernel

variable {env : SlobEnv}

theorem SlobEnv.Answering.query (answering : env.Answering) (brk : Nat) : env.sysBrk brk 0 = brk :=
  (answering brk 0).resolve_right fun both => both.1 rfl

theorem SlobEnv.Answering.cases (answering : env.Answering) (brk : Nat) :
    env.Refuses brk ∨ env.Grants brk := (answering brk _).imp_right And.right

theorem SlobEnv.Granting.answering (granting : env.Granting) : env.Answering := by
  intro brk addr
  rw [granting]
  split
  · exact .inl rfl
  · next nonzero => exact .inr ⟨nonzero, rfl⟩

theorem SlobEnv.Granting.grants (granting : env.Granting) (brk : Nat) : env.Grants brk := by
  unfold SlobEnv.Grants
  rw [granting, if_neg (by unfold mmapThreshold; omega)]

theorem SlobEnv.Grants.not_refuses {brk : Nat} (grants : env.Grants brk) : ¬ env.Refuses brk := by
  intro refuses
  have same := grants.symm.trans refuses
  unfold mmapThreshold at same
  omega

end Kernel

theorem mmAlignDown_eq {a : Nat} (small : a < 2 ^ 64) : mmAlignDown a = a / 32 * 32 := by
  have mask : 0xffffffffffffffe0 = (2 ^ 59 - 1) <<< 5 := by decide
  have down : a / 32 * 32 = (a >>> 5) <<< 5 := by
    rw [Nat.shiftLeft_eq, Nat.shiftRight_eq_div_pow]
  refine Nat.eq_of_testBit_eq fun i => ?_
  unfold mmAlignDown
  rw [mask, down, Nat.testBit_and, Nat.testBit_shiftLeft, Nat.testBit_shiftLeft,
    Nat.testBit_shiftRight, Nat.testBit_two_pow_sub_one]
  by_cases low : 5 ≤ i
  · rw [show 5 + (i - 5) = i by omega]
    by_cases high : i < 64
    · simp [low, show i - 5 < 59 by omega]
    · have zero : a.testBit i = false :=
        Nat.testBit_lt_two_pow (small.trans_le (Nat.pow_le_pow_right (by decide) (by omega)))
      simp [zero]
  · simp [low]

theorem mmAlignUp_eq {a : Nat} (small : a + 31 < 2 ^ 64) : mmAlignUp a = (a + 31) / 32 * 32 := by
  unfold mmAlignUp
  rw [show ((a : Int) + 31) = ((a + 31 : Nat) : Int) from rfl, cU64_natCast small,
    mmAlignDown_eq small]

section Grow

variable {env : SlobEnv} {s s' : Slob} {cs : List Chunk} {xs : List Nat} {K : List Chunk}

/-! ## `slob_extend` -/

/-- The heap with its old guard made a chunk of 128 KiB in use. -/
def Slob.extended (s : Slob) : Slob :=
  { ((({ s with
          brk := s.brk + mmapThreshold
          cBrk := s.brk + mmapThreshold }.put s.heapEnd .size mmapThreshold).put
        (s.heapEnd + mmapThreshold) .size sizeofMmAllocnode).put
      (s.heapEnd + mmapThreshold) .preceding (mmapThreshold + mmAllocBit)) with
    heapEnd := s.heapEnd + mmapThreshold }

section Extend

variable (rep : HeapRep env s cs xs []) (room : env.Low (s.brk + mmapThreshold))
include rep room

omit room in
theorem HeapRep.cell_heapEnd (f : NodeField) : Cell env (s.brk + mmapThreshold) s.heapEnd f := by
  obtain ⟨above, slot, atEnd⟩ := rep.heapEnd_placed
  have offset := f.offset_le
  unfold mmapThreshold
  exact .inr (.inl ⟨above, slot, by omega⟩)

omit room in
theorem HeapRep.cell_newEnd {f : NodeField} (header : f.offset ≤ 8) :
    Cell env (s.brk + mmapThreshold) (s.heapEnd + mmapThreshold) f := by
  obtain ⟨above, slot, atEnd⟩ := rep.heapEnd_placed
  unfold mmapThreshold
  exact .inr (.inl ⟨by omega, by omega, by omega⟩)

/-- The fields of the extended heap are the old ones, but for the headers of the old guard and of
the new one. -/
theorem HeapRep.fld_extended {x : Nat} {f : NodeField}
    (cell : Cell env (s.brk + mmapThreshold) x f) :
    s.extended.fld f x =
      if x = s.heapEnd + mmapThreshold ∧ f = .preceding then mmapThreshold + mmAllocBit
      else if x = s.heapEnd + mmapThreshold ∧ f = .size then sizeofMmAllocnode
      else if x = s.heapEnd ∧ f = .size then mmapThreshold else s.fld f x := by
  unfold Slob.extended
  refine (Slob.fld_put room (rep.cell_newEnd (by decide)) cell).trans ?_
  rw [Slob.fld_put room (rep.cell_newEnd (by decide)) cell,
    Slob.fld_put room (rep.cell_heapEnd _) cell]
  rfl

theorem HeapRep.fld_extended_old {x : Nat} {f : NodeField} (cell : Cell env s.brk x f)
    (old : x ≠ s.heapEnd ∨ f = .preceding) : s.extended.fld f x = s.fld f x := by
  obtain ⟨above, slot, atEnd⟩ := rep.heapEnd_placed
  have below : x ≠ s.heapEnd + mmapThreshold := by
    have apart := env.apart
    unfold SlobEnv.Low at room
    unfold mmNnodes at apart
    unfold mmapThreshold at room ⊢
    unfold Cell SlobEnv.IsHead at cell
    omega
  rw [rep.fld_extended room (cell.mono (Nat.le_add_right _ _)), if_neg fun both => below both.1,
    if_neg fun both => below both.1, if_neg]
  rintro ⟨rfl, rfl⟩
  rcases old with absurd | absurd
  · exact absurd rfl
  · cases absurd

theorem HeapRep.extend :
    HeapRep env s.extended (cs ++ [⟨s.heapEnd, mmapThreshold, true⟩]) xs [] := by
  have split : heapChunks env s cs = (guardAt env.startBrk :: cs) ++ guardAt s.heapEnd :: [] := rfl
  have before := (rep.addr_lt split).1
  have inEnd : guardAt s.heapEnd ∈ heapChunks env s cs := by simp [split]
  have large : 0 < mmapThreshold := by decide
  have endSize : s.extended.fld .size s.heapEnd = mmapThreshold := by
    rw [rep.fld_extended room (rep.cell_heapEnd _), if_neg (by simp), if_neg (by omega),
      if_pos ⟨rfl, rfl⟩]
  have newSize : s.extended.fld .size (s.heapEnd + mmapThreshold) = sizeofMmAllocnode := by
    rw [rep.fld_extended room (rep.cell_newEnd (by decide)), if_neg (by simp), if_pos ⟨rfl, rfl⟩]
  have newTag : s.extended.fld .preceding (s.heapEnd + mmapThreshold) =
      mmapThreshold + (guardAt (s.heapEnd + mmapThreshold)).flag mmAllocBit := by
    rw [rep.fld_extended room (rep.cell_newEnd (by decide)), if_pos ⟨rfl, rfl⟩]
    simp [Chunk.flag, guardAt]
  refine ⟨rep.start, ?_, rfl, ?_, ?_, ?_⟩
  · have tiles := rep.tiles
    rw [split] at tiles
    obtain ⟨m, q, inner, ⟨⟨here, -, tag⟩, stop, -⟩⟩ := Tags.tiles_append.mp tiles
    have shape : heapChunks env s.extended (cs ++ [⟨s.heapEnd, mmapThreshold, true⟩]) =
        (guardAt env.startBrk :: cs) ++
          [⟨s.heapEnd, mmapThreshold, true⟩, guardAt (s.heapEnd + mmapThreshold)] := by
      simp [heapChunks, Slob.extended]
    rw [shape]
    refine Tags.tiles_append.mpr ⟨m, q, inner.congr fun c inside => ?_, ?_⟩
    · have inHeap : c ∈ heapChunks env s cs := split ▸ List.mem_append_left _ inside
      have ne : c.addr ≠ s.heapEnd := (before c inside).ne
      exact ⟨rep.fld_extended_old room (rep.cell_tag inHeap (by decide)) (.inl ne),
        rep.fld_extended_old room (rep.cell_tag inHeap (by decide)) (.inl ne)⟩
    · have atM : s.heapEnd = m := here
      subst atM
      have stopN : (⟨s.heapEnd, mmapThreshold, true⟩ : Chunk).stop = s.heapEnd + mmapThreshold := by
        simp only [Chunk.stop]
      refine ⟨⟨rfl, endSize, ?_⟩, ?_⟩
      · exact (rep.fld_extended_old room (rep.cell_tag inEnd (by decide)) (.inr rfl)).trans tag
      · rw [stopN]
        refine ⟨⟨rfl, ?_, ?_⟩, ?_, rfl⟩
        · rw [Slob.tags_size, newSize]
          rfl
        · rw [Slob.tags_tag, newTag]
        have atEnd := rep.heapEnd_placed.2.2
        simp only [Slob.extended, Slob.put_brk, Chunk.stop, guardAt]
        omega
  · intro c inside
    rcases List.mem_append.mp inside with old | new
    · exact rep.sizes c old
    · rw [List.mem_singleton] at new
      subst new
      exact ⟨show 32 ∣ mmapThreshold by decide, large⟩
  · refine rep.list.congr room (Nat.le_add_right _ _) fun x inside f _ =>
      rep.fld_extended_old room (rep.list.cells x inside f) (.inl ?_)
    rcases (rep.mem_iff x).mp inside with isHead | ⟨c, inCs, -, rfl, -⟩
    · rintro rfl
      obtain ⟨above, slot, atEnd⟩ := rep.heapEnd_placed
      exact rep.list.low.not_isHead (by omega) (by omega) isHead
    · exact (before c (.tail _ inCs)).ne
  · intro x
    rw [rep.mem_iff, freeAt_append, freeAt_cons]
    simp

/-- `slob_extend` up to its first store behind the old break, with `b` for the answer of
the kernel. -/
theorem HeapRep.slobGrow_eq {b : Nat} (answer : env.sysBrk s.brk (s.brk + mmapThreshold) = b)
    (kept : s.brk ≤ b) (low : env.Low b) :
    slobGrow env s = (do
      let s₁ ← nodeStore env ({ s with brk := b, cBrk := b }.put s.heapEnd .size mmapThreshold)
        (s.heapEnd + mmapThreshold) .size sizeofMmAllocnode
      let oldSize ← nodeLoad env s₁ s.heapEnd .size
      let s₂ ← nodeStore env s₁ (s.heapEnd + mmapThreshold) .preceding (oldSize ||| mmAllocBit)
      slobFree env { s₂ with heapEnd := s.heapEnd + mmapThreshold } s.brk) := by
  obtain ⟨above, slot, atEnd⟩ := rep.heapEnd_placed
  have aligned := env.startBrk_aligned
  have fits := env.startBrk_fits
  unfold SlobEnv.Low at room
  have threshold : mmapThreshold = 131072 := rfl
  have req : cU64 ((s.brk : Int) + mmapThreshold) = s.brk + mmapThreshold := by
    rw [← Nat.cast_add]
    exact cU64_natCast (by omega)
  have newEnd : cU64 (((s.brk + mmapThreshold : Nat) : Int) - sizeofMmAllocnode) =
      s.heapEnd + mmapThreshold := by
    have shape : ((s.brk + mmapThreshold : Nat) : Int) - sizeofMmAllocnode =
        ((s.heapEnd + mmapThreshold : Nat) : Int) := by
      unfold sizeofMmAllocnode
      omega
    rw [shape]
    exact cU64_natCast (by omega)
  have oldEnd : cU64 ((s.heapEnd : Int) + sizeofMmAllocnode) = s.brk := by
    rw [← atEnd, ← Nat.cast_add]
    exact cU64_natCast (by unfold sizeofMmAllocnode; omega)
  have cellEnd : ∀ f : NodeField, f.offset ≤ 8 → Cell env b s.heapEnd f := fun f header =>
    .inr (.inl ⟨above, slot, by omega⟩)
  have flag : ({ s with brk := b, cBrk := b }.put s.heapEnd .size mmapThreshold).fld .preceding
      s.heapEnd &&& mmAllocBit = mmAllocBit := by
    rw [Slob.fld_put low (cellEnd _ (by decide)) (cellEnd _ (by decide)), if_neg (by simp)]
    exact rep.tag_flag (c := guardAt s.heapEnd) (by simp [heapChunks])
  unfold slobGrow slobGrowOn SlobEnv.host xBrk
  dsimp only [id]
  rw [rep.cBrk, req, answer, ok_bind, bind_pure]
  unfold slobExtend
  rw [require_bind_of_pos (by omega), require_bind_of_pos (by decide)]
  dsimp only
  rw [req, require_bind_of_pos (by rw [mmAlignUp_eq (by omega)]; omega),
    require_bind_of_pos (by rw [mmAlignDown_eq (by omega)]; omega), oldEnd,
    require_bind_of_pos rfl, nodeStore_at low (cellEnd _ (by decide)) (by rfl), ok_bind,
    nodeLoad_at low (cellEnd _ (by decide)) (by rfl), ok_bind, flag,
    require_bind_of_pos (by decide), newEnd]

/-- A heap that needs more memory and gets it. -/
theorem slobGrow_spec (grants : env.Grants s.brk) (keeps : Keeps K cs) :
    ∃ s' xs', slobGrow env s = .ok s' ∧ Wrote (Clear K) s s' ∧ s'.isInit = s.isInit ∧
      s'.brk = s.brk + mmapThreshold ∧ s'.heapEnd = s.heapEnd + mmapThreshold ∧
      HeapRep env s' (freed cs ⟨s.heapEnd, mmapThreshold, true⟩ []) xs' [] := by
  obtain ⟨above, slot, atEnd⟩ := rep.heapEnd_placed
  have threshold : mmapThreshold = 131072 := rfl
  have keeps' : Keeps K (cs ++ []) := by simpa using keeps
  obtain ⟨s', run, touched, rep'⟩ := slobFree_spec (rep.extend room) rfl keeps'
  rw [show s.heapEnd + sizeofMmAllocnode = s.brk from atEnd] at run
  have clear : ∀ a, s.heapEnd ≤ a → Clear K a := by
    intro a atLeast d inK
    have below := (rep.placed (keeps d inK).1).below
    omega
  have wrote : Wrote (Clear K) s s.extended := by
    have start : Wrote (Clear K) s { s with
        brk := s.brk + mmapThreshold
        cBrk := s.brk + mmapThreshold } := .refl
    refine ((start.trans (.put ?_)).trans (.put ?_)).trans (Wrote.put ?_)
    all_goals exact clear _ (by omega)
  have size : ∀ t : Slob, ((t.put s.heapEnd .size mmapThreshold).put (s.heapEnd + mmapThreshold)
      .size sizeofMmAllocnode).fld .size s.heapEnd = mmapThreshold := by
    intro t
    rw [Slob.fld_put room (rep.cell_newEnd (by decide)) (rep.cell_heapEnd _), if_neg (by omega),
      Slob.fld_put room (rep.cell_heapEnd _) (rep.cell_heapEnd _), if_pos ⟨rfl, rfl⟩]
  have flagged : mmapThreshold ||| mmAllocBit = mmapThreshold + mmAllocBit := by decide
  refine ⟨s', _, ?_, wrote.trans touched.wrote, touched.isInit, touched.brk, touched.heapEnd, rep'⟩
  rw [rep.slobGrow_eq room grants (Nat.le_add_right _ _) room,
    nodeStore_at room (rep.cell_newEnd (by decide)) (by rfl), ok_bind,
    nodeLoad_at room (rep.cell_heapEnd _) (by rfl), ok_bind, size,
    nodeStore_at room (rep.cell_newEnd (by decide)) (by rfl), ok_bind, flagged]
  exact run

/-- A heap that needs more memory and does not get it: `slob_extend` stores the new guard
above the break. -/
theorem HeapRep.slobGrow_refused (refuses : env.Refuses s.brk) :
    slobGrow env s = .error .wild := by
  obtain ⟨above, slot, atEnd⟩ := rep.heapEnd_placed
  have threshold : mmapThreshold = 131072 := rfl
  have fits : env.Low (s.heapEnd + mmapThreshold + NodeField.size.offset + 8) := by
    have offset : NodeField.size.offset = 0 := rfl
    unfold SlobEnv.Low at *
    omega
  rw [rep.slobGrow_eq room refuses le_rfl rep.list.low,
    nodeStore_above (by omega) (by simp only [Slob.put_brk]; omega) fits]
  rfl

end Extend

/-! ## `slob_init` -/

/-- The addresses of the list heads, in the order in which `slob_init` links them. -/
def SlobEnv.heads (env : SlobEnv) : List Nat := (List.range mmNnodes).map env.head

theorem SlobEnv.mem_heads (env : SlobEnv) {x : Nat} : x ∈ env.heads ↔ env.IsHead x := by
  unfold SlobEnv.heads
  rw [List.mem_map]
  constructor
  · rintro ⟨i, small, rfl⟩
    exact env.isHead_head (List.mem_range.mp small)
  · intro isHead
    obtain ⟨small, eq⟩ := isHead.eq_head
    exact ⟨_, List.mem_range.mpr small, eq.symm⟩

/-- From head `i` on, `linkHeads` links each list head with the one before it. -/
theorem linkHeads_spec (low : env.Low s.brk) (left : Nat) {i : Nat} (first : 1 ≤ i)
    (last : i + left ≤ mmNnodes) :
    ∃ s', linkHeads env left i s = .ok s' ∧ Touched (fun _ => True) s s' ∧
      ∀ x f, Cell env s.brk x f → s'.fld f x =
        if env.IsHead x ∧ f = .next ∧ env.head (i - 1) ≤ x ∧ x < env.head (i + left - 1) then x + 32
        else if env.IsHead x ∧ f = .prev ∧ env.head i ≤ x ∧ x < env.head (i + left) then x - 32
        else s.fld f x := by
  induction left generalizing i s with
  | zero =>
    refine ⟨s, rfl, .refl, fun x f _ => ?_⟩
    rw [if_neg (by rw [Nat.add_zero]; omega), if_neg (by rw [Nat.add_zero]; omega)]
  | succ left ih =>
    have headI : env.IsHead (env.head i) := env.isHead_head (by omega)
    have headP : env.IsHead (env.head (i - 1)) := env.isHead_head (by omega)
    have cellI : ∀ b f, Cell env b (env.head i) f := fun b f => .inl headI
    have cellP : ∀ b f, Cell env b (env.head (i - 1)) f := fun b f => .inl headP
    obtain ⟨s', run, touched, fields⟩ := ih (i := i + 1)
      (s := (s.put (env.head (i - 1)) .next (env.head i)).put (env.head i) .prev
        (env.head (i - 1))) low (by omega) (by omega)
    refine ⟨s', ?_, ((Touched.put trivial).trans (.put trivial)).trans touched, fun x f cell => ?_⟩
    · unfold linkHeads
      have low₁ : env.Low (s.put (env.head (i - 1)) .next (env.head i)).brk := low
      rw [nodeStore_eq low (cellP _ _), ok_bind, nodeStore_eq low₁ (cellI _ _), ok_bind, run]
    · rw [fields x f cell, Slob.fld_put low (cellI _ _) cell, Slob.fld_put low (cellP _ _) cell]
      unfold SlobEnv.head SlobEnv.IsHead at *
      cases f with
      | size => simp
      | preceding => simp
      | next =>
        simp only [reduceCtorEq, and_false, false_and, true_and, and_true, if_false]
        split_ifs <;> omega
      | prev =>
        simp only [reduceCtorEq, and_false, false_and, true_and, and_true, if_false]
        split_ifs <;> omega

/-- After `memset` and the loop of `slob_init`, the list consists of its heads. -/
theorem linkHeads_freeList (low : env.Low s.brk) :
    ∃ s', linkHeads env (mmNnodes - 1) 1 (clearSlob env s) = .ok s' ∧
      Touched (fun _ => True) (clearSlob env s) s' ∧ FreeList env s' env.heads := by
  obtain ⟨s', run, touched, fields⟩ := linkHeads_spec (s := clearSlob env s) low
    (mmNnodes - 1) (i := 1) le_rfl le_rfl
  have cell : ∀ x, env.IsHead x → ∀ b f, Cell env b x f := fun x isHead b f => .inl isHead
  have zero : ∀ x, env.IsHead x → ∀ f, (clearSlob env s).fld f x = 0 := by
    intro x isHead f
    have offset := f.offset_le
    have aligned := f.offset_mod
    unfold SlobEnv.IsHead at isHead
    refine if_pos (List.mem_map.mpr ⟨(x + f.offset - env.nodelist) / 8, List.mem_range.mpr ?_, ?_⟩)
    · unfold mmNnodes
      omega
    · omega
  have next : ∀ i < mmNnodes, s'.fld .next (env.head i) =
      if i + 1 < mmNnodes then env.head (i + 1) else 0 := by
    intro i small
    have isHead := env.isHead_head small
    rw [fields _ _ (cell _ isHead _ _), zero _ isHead]
    unfold SlobEnv.head mmNnodes at *
    simp only [isHead, reduceCtorEq, false_and, and_false, true_and, if_false]
    split_ifs <;> omega
  have prev : ∀ i, i + 1 < mmNnodes → s'.fld .prev (env.head (i + 1)) = env.head i := by
    intro i small
    have isHead := env.isHead_head small
    rw [fields _ _ (cell _ isHead _ _), zero _ isHead]
    unfold SlobEnv.head mmNnodes at *
    simp only [isHead, reduceCtorEq, false_and, and_false, true_and, if_false]
    split_ifs <;> omega
  have size : ∀ x, env.IsHead x → s'.fld .size x = 0 := by
    intro x isHead
    rw [fields _ _ (cell _ isHead _ _), zero _ isHead]
    simp
  have inj : Function.Injective env.head := by
    intro i j same
    unfold SlobEnv.head at same
    omega
  refine ⟨s', run, touched, ?_, ⟨?_, ?_, ?_⟩, ?_, ?_, size, ?_, ?_⟩
  · rw [touched.brk]
    exact low
  · exact List.nodup_range.map inj
  · unfold SlobEnv.heads
    rw [List.isChain_map, show mmNnodes = 17 + 1 from rfl, List.isChain_range_succ]
    intro i small
    have step : i + 1 < mmNnodes := Nat.succ_lt_succ small
    exact ⟨(next i (by omega)).trans (if_pos step), prev i step⟩
  · intro x isLast
    have last : x = env.head (mmNnodes - 1) := by
      simpa [SlobEnv.heads, mmNnodes, List.range_succ] using isLast.symm
    rw [last]
    exact (next _ (by decide)).trans (if_neg (by decide))
  · exact fun x inside f => cell x (env.mem_heads.mp inside) _ f
  · exact fun x => env.mem_heads.mpr
  · exact fun x inside chunk => absurd (env.mem_heads.mp inside) chunk
  · unfold SlobEnv.heads
    rw [List.pairwise_map]
    refine List.pairwise_lt_range.imp_of_mem fun {i j} inI inJ less => .inl ?_
    rw [SlobEnv.bucket_head _ (List.mem_range.mp inI),
      SlobEnv.bucket_head _ (List.mem_range.mp inJ)]
    exact less

/-- The chunk that `mm_addregion` makes of a fresh heap, between the two guards. -/
def SlobEnv.firstChunk (env : SlobEnv) : Chunk :=
  ⟨env.startBrk + sizeofMmAllocnode, mmapThreshold - 2 * sizeofMmAllocnode, false⟩

/-- The address at which `mm_addregion` puts the guard at the end. -/
def SlobEnv.firstEnd (env : SlobEnv) : Nat :=
  env.startBrk + (mmapThreshold - sizeofMmAllocnode)

theorem SlobEnv.region_layout (env : SlobEnv) :
    env.startBrk + 16 = env.firstChunk.addr ∧ env.firstChunk.size = 131040 ∧
      env.firstChunk.addr + env.firstChunk.size = env.firstEnd ∧
      env.firstEnd + 16 = env.startBrk + mmapThreshold := by
  unfold SlobEnv.firstChunk SlobEnv.firstEnd sizeofMmAllocnode mmapThreshold
  dsimp only
  omega

/-- The allocator after `mm_addregion` has written the headers of the fresh heap. -/
def Slob.region (env : SlobEnv) (s : Slob) : Slob :=
  ({ (((({ s with heapStart := env.startBrk }.put env.startBrk .size sizeofMmAllocnode).put
          env.startBrk .preceding mmAllocBit).put
        env.firstChunk.addr .size env.firstChunk.size).put
      env.firstChunk.addr .preceding sizeofMmAllocnode) with
    heapEnd := env.firstEnd }.put env.firstEnd .size sizeofMmAllocnode).put
    env.firstEnd .preceding (env.firstChunk.size + mmAllocBit)

section Region

variable (list : FreeList env s env.heads) (brk : s.brk = env.startBrk + mmapThreshold)
include list brk

omit list in
theorem SlobEnv.cell_region {f : NodeField} (header : f.offset ≤ 8) :
    Cell env s.brk env.startBrk f ∧ Cell env s.brk env.firstChunk.addr f ∧
      Cell env s.brk env.firstEnd f := by
  obtain ⟨first, size, stop, atEnd⟩ := env.region_layout
  rw [brk]
  refine ⟨.inr (.inr ⟨rfl, header, by omega⟩), .inr (.inl ⟨?_, ?_, ?_⟩), .inr (.inl ⟨?_, ?_, ?_⟩)⟩
  all_goals omega

theorem fld_region {x : Nat} {f : NodeField} (cell : Cell env s.brk x f) :
    (s.region env).fld f x =
      if x = env.firstEnd ∧ f = .preceding then env.firstChunk.size + mmAllocBit
      else if x = env.firstEnd ∧ f = .size then sizeofMmAllocnode
      else if x = env.firstChunk.addr ∧ f = .preceding then sizeofMmAllocnode
      else if x = env.firstChunk.addr ∧ f = .size then env.firstChunk.size
      else if x = env.startBrk ∧ f = .preceding then mmAllocBit
      else if x = env.startBrk ∧ f = .size then sizeofMmAllocnode
      else s.fld f x := by
  obtain ⟨startS, firstS, endS⟩ := env.cell_region (f := .size) brk (by decide)
  obtain ⟨startP, firstP, endP⟩ := env.cell_region (f := .preceding) brk (by decide)
  have low := list.low
  unfold Slob.region
  rw [Slob.fld_put low endP cell, Slob.fld_put low endS cell]
  refine congrArg (ite _ _) (congrArg (ite _ _) ?_)
  refine (Slob.fld_put low firstP cell).trans ?_
  rw [Slob.fld_put low firstS cell, Slob.fld_put low startP cell, Slob.fld_put low startS cell]
  rfl

/-- After `mm_addregion` has written the headers, memory holds a heap of one free chunk, which is
not on the list yet. -/
theorem region_rep (cBrk : s.cBrk = s.brk) :
    HeapRep env (s.region env) [env.firstChunk] env.heads [env.firstChunk.addr] := by
  obtain ⟨first, size, stop, atEnd⟩ := env.region_layout
  obtain ⟨startS, firstS, endS⟩ := env.cell_region (f := .size) brk (by decide)
  obtain ⟨startP, firstP, endP⟩ := env.cell_region (f := .preceding) brk (by decide)
  have fld := fun {x : Nat} {f : NodeField} (cell : Cell env s.brk x f) => fld_region list brk cell
  refine ⟨rfl, ?_, cBrk, ?_, ?_, ?_⟩
  · have shape : heapChunks env (s.region env) [env.firstChunk] =
        [guardAt env.startBrk, env.firstChunk, guardAt env.firstEnd] := rfl
    rw [shape]
    have ne₁ : env.startBrk ≠ env.firstChunk.addr := by omega
    have ne₂ : env.startBrk ≠ env.firstEnd := by omega
    have ne₃ : env.firstChunk.addr ≠ env.firstEnd := by omega
    have next : (guardAt env.startBrk).stop = env.firstChunk.addr := first
    have last : env.firstChunk.stop = env.firstEnd := stop
    have final : (guardAt env.firstEnd).stop = s.brk := by
      rw [brk, ← atEnd]
      rfl
    have free : env.firstChunk.used = false := rfl
    simp only [Tags.Tiles, next, last, final, Slob.tags_size, Slob.tags_tag, fld startS, fld startP,
      fld firstS, fld firstP, fld endS, fld endP, ne₁, ne₁.symm, ne₂, ne₂.symm, ne₃, ne₃.symm]
    simp [guardAt, Chunk.flag, sizeofMmAllocnode, Slob.region, brk, free]
  · intro c inside
    rw [List.mem_singleton] at inside
    rw [inside, size]
    decide
  · refine list.congr list.low le_rfl fun x inside f _ => ?_
    have isHead := env.mem_heads.mp inside
    have apart := env.apart
    have low := list.low
    unfold SlobEnv.IsHead at isHead
    unfold SlobEnv.Low at low
    unfold mmNnodes at apart
    rw [fld (list.cells x inside f)]
    simp only [show x ≠ env.firstEnd by omega, show x ≠ env.firstChunk.addr by omega,
      show x ≠ env.startBrk by omega, false_and, if_false]
  · intro x
    rw [env.mem_heads, freeAt_cons]
    have held : ¬ (env.firstChunk.addr = x ∧ x ∉ [env.firstChunk.addr]) := by
      rintro ⟨rfl, out⟩
      simp at out
    simp only [held, and_false, freeAt_nil, or_false]

/-- `mm_addregion` succeeds on the fresh heap and leaves one free chunk on the list. -/
theorem mmAddregion_spec (cBrk : s.cBrk = s.brk) :
    ∃ s' xs', mmAddregion env s env.startBrk mmapThreshold = .ok s' ∧
      Wrote (fun _ => True) s s' ∧ s'.isInit = s.isInit ∧ s'.brk = s.brk ∧
      HeapRep env s' [env.firstChunk] xs' [] := by
  obtain ⟨first, size, stop, atEnd⟩ := env.region_layout
  obtain ⟨startS, firstS, endS⟩ := env.cell_region (f := .size) brk (by decide)
  obtain ⟨startP, firstP, endP⟩ := env.cell_region (f := .preceding) brk (by decide)
  have low := list.low
  have aligned := env.startBrk_aligned
  have fits := env.startBrk_fits
  have threshold : mmapThreshold = 131072 := rfl
  have wrote : Wrote (fun _ => True) s (s.region env) :=
    ((((Wrote.refl.trans (.put trivial)).trans (.put trivial)).trans (.put trivial)).trans
      (.put trivial)).trans ((Wrote.put trivial).trans (.put trivial))
  obtain ⟨s', run, touched, rep⟩ := (region_rep list brk cBrk).addFree (K := [])
    (List.mem_singleton.mpr rfl) rfl List.not_mem_nil (by simp [Keeps])
  refine ⟨s', _, ?_, wrote.trans ?_, touched.isInit, touched.brk, rep⟩
  · have base : mmAlignUp env.startBrk = env.startBrk := by
      rw [mmAlignUp_eq (by omega)]
      omega
    have top : mmAlignDown (cU64 ((env.startBrk : Int) + mmapThreshold)) =
        env.startBrk + mmapThreshold := by
      rw [← Nat.cast_add, cU64_natCast (by omega), mmAlignDown_eq (by omega)]
      omega
    have length : cU64 (((env.startBrk + mmapThreshold : Nat) : Int) - env.startBrk) =
        mmapThreshold := by
      rw [Nat.cast_add, add_sub_cancel_left]
      exact cU64_natCast (by omega)
    have node : cU64 ((env.startBrk : Int) + sizeofMmAllocnode) = env.firstChunk.addr := by
      rw [← Nat.cast_add]
      exact (cU64_natCast (by unfold sizeofMmAllocnode; omega)).trans first
    have inner : cU64 ((mmapThreshold : Int) - 2 * sizeofMmAllocnode) = env.firstChunk.size := by
      rw [size]
      decide
    have guardEnd : cU64 (((env.startBrk + mmapThreshold : Nat) : Int) - sizeofMmAllocnode) =
        env.firstEnd := by
      rw [← atEnd, Nat.cast_add, show ((16 : Nat) : Int) = sizeofMmAllocnode from rfl,
        add_sub_cancel_right]
      exact cU64_natCast (by omega)
    have flagged : env.firstChunk.size ||| mmAllocBit = env.firstChunk.size + mmAllocBit := by
      rw [size]
      decide
    have loaded : ∀ t : Slob, (({ ((t.put env.firstChunk.addr .size env.firstChunk.size).put
        env.firstChunk.addr .preceding sizeofMmAllocnode) with heapEnd := env.firstEnd }).put
        env.firstEnd .size sizeofMmAllocnode).fld .size env.firstChunk.addr =
        env.firstChunk.size := by
      intro t
      rw [Slob.fld_put low endS firstS, if_neg (by omega)]
      refine (Slob.fld_put low firstP firstS).trans ?_
      rw [if_neg (by simp), Slob.fld_put low firstS firstS, if_pos ⟨rfl, rfl⟩]
    unfold mmAddregion
    dsimp only
    rw [base, top, length, node, inner, guardEnd, nodeStore_at low startS (by rfl), ok_bind,
      nodeStore_at low startP (by rfl), ok_bind, nodeStore_at low firstS (by rfl), ok_bind,
      nodeStore_at low firstP (by rfl), ok_bind, nodeStore_at low endS (by rfl), ok_bind,
      nodeLoad_at low firstS (by rfl), ok_bind, loaded, flagged,
      nodeStore_at low endP (by rfl), ok_bind]
    exact run
  · exact touched.wrote.imp fun _ _ => trivial

end Region

section Init

variable (query : env.sysBrk env.startBrk 0 = env.startBrk) (fresh : s.isInit = false)
  (atStart : s.brk = env.startBrk)
include query fresh atStart

/-- `slob_init` up to `mm_addregion`, with `b` for the answer of the kernel. -/
theorem slobInit_eq {b : Nat} (answer : env.sysBrk env.startBrk (env.startBrk + mmapThreshold) = b)
    {s₁ : Slob}
    (linked : linkHeads env (mmNnodes - 1) 1 (clearSlob env { s with brk := b, cBrk := b }) =
      .ok s₁) :
    slobInit env s = (do
      let s₂ ← mmAddregion env s₁ env.startBrk mmapThreshold
      return { s₂ with isInit := true }) := by
  have pos := env.startBrk_pos
  have fits := env.startBrk_fits
  have threshold : mmapThreshold = 131072 := rfl
  have req : cU64 ((env.startBrk : Int) + mmapThreshold) = env.startBrk + mmapThreshold := by
    rw [← Nat.cast_add]
    exact cU64_natCast (by omega)
  unfold slobInit slobInitOn SlobEnv.host xBrk
  dsimp only [id]
  rw [if_neg (by simp [fresh]), ok_bind]
  dsimp only
  rw [atStart, query, req, answer, ok_bind, require_bind_of_pos ⟨by omega, by decide⟩, linked,
    ok_bind]

/-- `slob_init` makes a heap of one free chunk, if the kernel grants its first request. -/
theorem slobInit_spec (grants : env.Grants env.startBrk) :
    ∃ s' xs', slobInit env s = .ok s' ∧ Wrote (fun _ => True) s s' ∧ s'.isInit = true ∧
      s'.brk = env.startBrk + mmapThreshold ∧ HeapRep env s' [env.firstChunk] xs' [] := by
  have low : env.Low ({ s with
      brk := env.startBrk + mmapThreshold
      cBrk := env.startBrk + mmapThreshold } : Slob).brk := by
    unfold SlobEnv.Low mmapThreshold
    dsimp only
    omega
  obtain ⟨s₁, run₁, touched₁, list₁⟩ := linkHeads_freeList low
  obtain ⟨s₂, xs₂, run₂, wrote₂, init₂, brk₂, rep₂⟩ := mmAddregion_spec list₁ touched₁.brk
    (touched₁.cBrk.trans touched₁.brk.symm)
  refine ⟨{ s₂ with isInit := true }, xs₂, ?_, ?_, rfl, brk₂.trans touched₁.brk, ?_⟩
  · rw [slobInit_eq query fresh atStart grants run₁, run₂]
    rfl
  · have cleared : Wrote (fun _ => True) s (clearSlob env { s with
        brk := env.startBrk + mmapThreshold
        cBrk := env.startBrk + mmapThreshold }) :=
      ⟨nodelistWords env, rfl, fun _ _ => trivial, fun a outside => if_neg outside⟩
    exact (cleared.trans touched₁.wrote).trans wrote₂
  · exact ⟨rep₂.start, rep₂.tiles, rep₂.cBrk, rep₂.sizes,
      rep₂.list.congr rep₂.list.low le_rfl fun _ _ _ _ => rfl, rep₂.mem_iff⟩

/-- Without memory for the heap, `slob_init` stores the first guard above the break. -/
theorem slobInit_refused (refuses : env.Refuses env.startBrk) :
    slobInit env s = .error .wild := by
  have low : env.Low ({ s with
      brk := env.startBrk
      cBrk := env.startBrk } : Slob).brk := Nat.le_add_right _ _
  obtain ⟨s₁, run₁, touched₁, -⟩ := linkHeads_freeList low
  have brk₁ : s₁.brk = env.startBrk := touched₁.brk
  have base : mmAlignUp env.startBrk = env.startBrk := by
    have aligned := env.startBrk_aligned
    have fits := env.startBrk_fits
    rw [mmAlignUp_eq (by omega)]
    omega
  have fits : env.Low (env.startBrk + NodeField.size.offset + 8) := by
    have offset : NodeField.size.offset = 0 := rfl
    unfold SlobEnv.Low
    omega
  rw [slobInit_eq query fresh atStart refuses run₁]
  unfold mmAddregion
  dsimp only
  rw [base, nodeStore_above le_rfl (by exact brk₁.le) fits]
  rfl

end Init

end Grow

end Chinos
