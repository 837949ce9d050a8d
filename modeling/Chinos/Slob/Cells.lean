import Chinos.Machine.Chain
import Chinos.Machine.Tags
import Chinos.Slob.Model

/-!
# The words the allocator works on

List heads, chunk headers and the list fields of free chunks all lie at addresses
with a fixed remainder modulo 32, so that two different fields never share a word.
Below the break, `nodeLoad` and `nodeStore` then behave like reading and updating one
entry of a table.
-/

namespace Chinos

theorem NodeField.offset_le (f : NodeField) : f.offset ≤ 24 := by
  cases f <;> decide

theorem NodeField.offset_mod (f : NodeField) : f.offset % 8 = 0 := by
  cases f <;> decide

theorem NodeField.offset_inj {f g : NodeField} : f.offset = g.offset ↔ f = g := by
  cases f <;> cases g <;> decide

section Cells

variable {env : SlobEnv} {s : Slob} {x y v : Nat} {f g : NodeField}

/-- Address `x` is that of one of the list heads in `slob.mm_nodelist`. -/
def SlobEnv.IsHead (env : SlobEnv) (x : Nat) : Prop :=
  env.nodelist ≤ x ∧ (x - env.nodelist) % 32 = 0 ∧ x < env.nodelist + 32 * 18

theorem SlobEnv.isHead_head (env : SlobEnv) {i : Nat} (small : i < mmNnodes) :
    env.IsHead (env.head i) := by
  unfold SlobEnv.IsHead SlobEnv.head
  unfold mmNnodes at small
  omega

theorem SlobEnv.IsHead.eq_head (isHead : env.IsHead x) :
    (x - env.nodelist) / 32 < mmNnodes ∧ x = env.head ((x - env.nodelist) / 32) := by
  unfold SlobEnv.IsHead at isHead
  unfold SlobEnv.head mmNnodes
  omega

/-- Field `f` of a node at `x` is a word the allocator can have: of a list head, of a
chunk below the break `b`, or of the guard at the start of the heap. -/
def Cell (env : SlobEnv) (b x : Nat) (f : NodeField) : Prop :=
  env.IsHead x ∨
    (env.startBrk + 16 ≤ x ∧ (x - env.startBrk) % 32 = 16 ∧ x + f.offset + 8 ≤ b) ∨
    (x = env.startBrk ∧ f.offset ≤ 8 ∧ x + f.offset + 8 ≤ b)

/-- A break of `b` keeps the heap in the 2 GiB from its start on, where addresses do not wrap
around. -/
def SlobEnv.Low (env : SlobEnv) (b : Nat) : Prop := b ≤ env.startBrk + 2 ^ 31

/-- No list head lies in the heap, since `slob` lies outside the 2 GiB that it may grow to. -/
theorem SlobEnv.Low.not_isHead {b : Nat} (low : env.Low b) (above : env.startBrk ≤ x)
    (below : x < b) : ¬ env.IsHead x := by
  have apart := env.apart
  unfold mmNnodes at apart
  unfold SlobEnv.Low at low
  unfold SlobEnv.IsHead
  omega

theorem Cell.bounds {b : Nat} (low : env.Low b) (cell : Cell env b x f) :
    0 < x ∧ x + f.offset + 8 ≤ 2 ^ 64 ∧ (x + f.offset) % 8 = 0 := by
  have small := f.offset_le
  have aligned := f.offset_mod
  have fits := env.nodelist_fits
  have pos := env.nodelist_pos
  have mod := env.nodelist_aligned
  have startFits := env.startBrk_fits
  have startPos := env.startBrk_pos
  have startMod := env.startBrk_aligned
  unfold SlobEnv.Low at low
  unfold mmNnodes at fits
  rcases cell with ⟨first, shape, inside⟩ | ⟨above, shape, below⟩ | ⟨rfl, first, below⟩ <;> omega

theorem Cell.mono {b b' : Nat} (cell : Cell env b x f) (le : b ≤ b') : Cell env b' x f := by
  rcases cell with isHead | ⟨above, shape, below⟩ | ⟨first, header, below⟩
  · exact .inl isHead
  · exact .inr (.inl ⟨above, shape, below.trans le⟩)
  · exact .inr (.inr ⟨first, header, below.trans le⟩)

/-- Two different fields, of one node or of two, are different words of memory. -/
theorem Cell.ne {b : Nat} (low : env.Low b) (cell : Cell env b x f) (other : Cell env b y g)
    (different : ¬ (y = x ∧ g = f)) : y + g.offset ≠ x + f.offset := by
  have smallF := f.offset_le
  have smallG := g.offset_le
  have apart := env.apart
  have different' : ¬ (y = x ∧ g.offset = f.offset) := fun both =>
    different ⟨both.1, NodeField.offset_inj.mp both.2⟩
  unfold SlobEnv.Low at low
  unfold mmNnodes at apart
  rcases cell with ⟨first, shape, inside⟩ | ⟨above, shape, below⟩ | ⟨rfl, first, below⟩ <;>
    rcases other with ⟨first', shape', inside'⟩ | ⟨above', shape', below'⟩ |
      ⟨rfl, first', below'⟩ <;>
    omega

/-- The word at field `f` of the node at `x`. -/
def Slob.fld (s : Slob) (f : NodeField) (x : Nat) : Nat := s.word (x + f.offset)

/-- The assignment `x->f = v`, as its effect on the fields. -/
def Slob.put (s : Slob) (x : Nat) (f : NodeField) (v : Nat) : Slob := s.write (x + f.offset) v

@[simp] theorem Slob.put_brk : (s.put x f v).brk = s.brk := rfl

theorem Slob.fld_put {b : Nat} (low : env.Low b) (cell : Cell env b x f) (other : Cell env b y g) :
    (s.put x f v).fld g y = if y = x ∧ g = f then v else s.fld g y := by
  unfold Slob.fld Slob.put Slob.write
  by_cases same : y = x ∧ g = f
  · rw [if_pos same, same.1, same.2]
    exact Function.update_self ..
  · rw [if_neg same]
    exact Function.update_of_ne (cell.ne low other same) ..

section Access

variable (low : env.Low s.brk) (cell : Cell env s.brk x f)
include low cell

theorem Cell.owns : s.Owns env (x + f.offset) := by
  obtain ⟨-, -, aligned⟩ := cell.bounds low
  have small := f.offset_le
  refine ⟨aligned, ?_⟩
  unfold mmNnodes
  rcases cell with ⟨first, shape, inside⟩ | ⟨above, -, below⟩ | ⟨rfl, -, below⟩ <;> omega

theorem Cell.address_eq : cU64 ((x : Int) + f.offset) = x + f.offset := by
  obtain ⟨-, fits, -⟩ := cell.bounds low
  rw [← Nat.cast_add]
  exact cU64_natCast (by omega)

theorem nodeLoad_eq : nodeLoad env s x f = .ok (s.fld f x) := by
  obtain ⟨pos, -, -⟩ := cell.bounds low
  unfold nodeLoad
  rw [require_bind_of_pos (by omega), cell.address_eq low, require_bind_of_pos (cell.owns low)]
  rfl

theorem nodeStore_eq : nodeStore env s x f v = .ok (s.put x f v) := by
  obtain ⟨pos, -, -⟩ := cell.bounds low
  unfold nodeStore
  rw [require_bind_of_pos (by omega), cell.address_eq low, require_bind_of_pos (cell.owns low)]
  rfl

end Access

/-- `nodeLoad_eq` and `nodeStore_eq` for a state in the middle of a call, whose break is
known from the state before it. -/
theorem nodeLoad_at {b : Nat} (low : env.Low b) (cell : Cell env b x f) (same : s.brk = b) :
    nodeLoad env s x f = .ok (s.fld f x) := by
  subst same
  exact nodeLoad_eq low cell

theorem nodeStore_at {b : Nat} (low : env.Low b) (cell : Cell env b x f) (same : s.brk = b) :
    nodeStore env s x f v = .ok (s.put x f v) := by
  subst same
  exact nodeStore_eq low cell

/-- Above the break there is nothing to store to. -/
theorem nodeStore_above (start : env.startBrk ≤ x) (above : s.brk ≤ x)
    (fits : env.Low (x + f.offset + 8)) : nodeStore env s x f v = .error .wild := by
  have startPos := env.startBrk_pos
  have startFits := env.startBrk_fits
  have apart := env.apart
  unfold SlobEnv.Low at fits
  have address : cU64 ((x : Int) + f.offset) = x + f.offset := by
    rw [← Nat.cast_add]
    exact cU64_natCast (by omega)
  have out : ¬ s.Owns env (x + f.offset) := by
    unfold Slob.Owns
    omega
  unfold nodeStore
  rw [require_bind_of_pos (by omega), address, require_bind_of_neg out]

/-- The fields `next` and `prev` of all nodes, as links. -/
def Slob.links (s : Slob) : Links Nat := ⟨s.fld .next, s.fld .prev⟩

/-- The fields `size` and `preceding` of all nodes, as headers. -/
def Slob.tags (s : Slob) : Tags := ⟨s.fld .size, s.fld .preceding⟩

@[simp] theorem Slob.tags_size : s.tags.size x = s.fld .size x := rfl

@[simp] theorem Slob.tags_tag : s.tags.tag x = s.fld .preceding x := rfl

/-! ## What a call writes -/

/-- The stores from `s` to `s'` are all at addresses with property `P`, and other words
keep their contents. -/
def Wrote (P : Nat → Prop) (s s' : Slob) : Prop :=
  ∃ new, s'.stores = new ++ s.stores ∧ (∀ a ∈ new, P a) ∧ ∀ a ∉ new, s'.word a = s.word a

/-- From `s` to `s'` only words are written, each at an address with property `P`. -/
structure Touched (P : Nat → Prop) (s s' : Slob) : Prop where
  isInit : s'.isInit = s.isInit
  heapStart : s'.heapStart = s.heapStart
  heapEnd : s'.heapEnd = s.heapEnd
  cBrk : s'.cBrk = s.cBrk
  brk : s'.brk = s.brk
  wrote : Wrote P s s'

variable {P : Nat → Prop} {s' s'' : Slob}

theorem Wrote.refl : Wrote P s s := ⟨[], rfl, by simp, fun _ _ => rfl⟩

theorem Wrote.trans (first : Wrote P s s') (second : Wrote P s' s'') : Wrote P s s'' := by
  obtain ⟨new, stores, good, same⟩ := first
  obtain ⟨new', stores', good', same'⟩ := second
  refine ⟨new' ++ new, by rw [stores', stores, List.append_assoc], fun a inside => ?_,
    fun a outside => ?_⟩
  · rcases List.mem_append.mp inside with late | early
    · exact good' a late
    · exact good a early
  · rw [List.mem_append, not_or] at outside
    rw [same' a outside.1, same a outside.2]

theorem Wrote.imp {Q : Nat → Prop} (wrote : Wrote P s s') (weaker : ∀ a, P a → Q a) :
    Wrote Q s s' := by
  obtain ⟨new, stores, good, same⟩ := wrote
  exact ⟨new, stores, fun a inside => weaker a (good a inside), same⟩

theorem Wrote.put (good : P (x + f.offset)) : Wrote P s (s.put x f v) := by
  refine ⟨[x + f.offset], rfl, by simpa using good, fun a outside => ?_⟩
  exact Function.update_of_ne (by simpa using outside) ..

theorem Touched.refl : Touched P s s := ⟨rfl, rfl, rfl, rfl, rfl, .refl⟩

theorem Touched.trans (first : Touched P s s') (second : Touched P s' s'') : Touched P s s'' :=
  ⟨second.isInit.trans first.isInit, second.heapStart.trans first.heapStart,
    second.heapEnd.trans first.heapEnd, second.cBrk.trans first.cBrk,
    second.brk.trans first.brk, first.wrote.trans second.wrote⟩

theorem Touched.put (good : P (x + f.offset)) : Touched P s (s.put x f v) :=
  ⟨rfl, rfl, rfl, rfl, rfl, .put good⟩

end Cells

end Chinos
