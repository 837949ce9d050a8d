import Chinos.Machine.Basic

/-!
# The user-space allocator of `app/musl-1.2.3/src/malloc/aslob.c`

The heap between two guard nodes is cut into chunks with boundary tags. Free chunks
are on one doubly linked list that runs through the 18 list heads of `mm_nodelist`,
so that chunks of bucket `i` stand between head `i` and head `i + 1`. All stores go
through `nodeStore`, which also keeps a log of the addresses written.
-/

namespace Chinos

def mmNnodes : Nat := 18

def mmAllocBit : Nat := 0x80000000

/-- `~MM_ALLOC_BIT`, which is an `unsigned int`, so that it clears the upper half of a word. -/
def mmAllocBitNot : Nat := 0x7fffffff

def sizeofMmAllocnode : Nat := 16

def sizeofMmFreenode : Nat := 32

def mmMinChunk : Nat := 32

def mmMaxChunk : Nat := 0x400000

def minExtend : Nat := 2 * sizeofMmAllocnode

def mmapThreshold : Nat := 128 * 1024

/-- `MM_ALIGN_DOWN`, which rounds down to a multiple of 32. -/
def mmAlignDown (a : Nat) : Nat := a &&& 0xffffffffffffffe0

/-- `MM_ALIGN_UP`, which rounds up to a multiple of 32 and wraps around in 64 bits. -/
def mmAlignUp (a : Nat) : Nat := mmAlignDown (cU64 (a + 31))

/-- The fields of `struct mm_freenode`; `struct mm_allocnode` has the first two. -/
inductive NodeField
  | size
  | preceding
  | next
  | prev
  deriving DecidableEq, Repr

def NodeField.offset : NodeField → Nat
  | .size => 0
  | .preceding => 8
  | .next => 16
  | .prev => 24

/-- Where the allocator runs: the address of `slob.mm_nodelist`, the break before the
first call, and what `SYS_brk` answers to a request (given the break so far).

Two of the fields are assumptions on the program and on the kernel that loads it, which
`aslob.c` does not check. The heap begins at a multiple of 32 bytes (`startBrk_aligned`),
which holds on this kernel, where it begins at a page boundary. The static object `slob`
is not inside the 2 GiB from there on (`apart`), which this kernel does not ensure: it puts
the heap behind the first segment with data, and a later one may hold `slob`. -/
structure SlobEnv where
  nodelist : Nat
  startBrk : Nat
  sysBrk : Nat → Nat → Nat
  nodelist_aligned : nodelist % 8 = 0
  nodelist_pos : 0 < nodelist
  nodelist_fits : nodelist + 32 * mmNnodes ≤ 2 ^ 64
  startBrk_aligned : startBrk % 32 = 0
  startBrk_pos : 0 < startBrk
  startBrk_fits : startBrk + 2 ^ 31 < 2 ^ 64
  apart : nodelist + 32 * mmNnodes ≤ startBrk ∨ startBrk + 2 ^ 31 ≤ nodelist

/-- The static variables of `aslob.c` (`slob` and `c_brk`), the break as the kernel
has it, memory in 8-byte words, and the log of the words written. -/
structure Slob where
  isInit : Bool
  heapStart : Nat
  heapEnd : Nat
  cBrk : Nat
  brk : Nat
  word : Nat → Nat
  stores : List Nat

section Slob

variable (env : SlobEnv)

/-- The words the allocator may touch: its list heads, and the memory below the
break. -/
def Slob.Owns (s : Slob) (a : Nat) : Prop :=
  a % 8 = 0 ∧ ((env.nodelist ≤ a ∧ a < env.nodelist + 32 * mmNnodes) ∨
    (env.startBrk ≤ a ∧ a + 8 ≤ s.brk))

instance Slob.decidableOwns (s : Slob) (a : Nat) : Decidable (s.Owns env a) := by
  unfold Slob.Owns
  infer_instance

/-- The load `node->field`, which ends the run at words that are not the allocator's own. -/
def nodeLoad (s : Slob) (node : Nat) (field : NodeField) : Except Fault Nat := do
  require (node ≠ 0) .null
  require (s.Owns env (cU64 (node + field.offset))) .wild
  return s.word (cU64 (node + field.offset))

/-- The effect of a store on memory and on the log. -/
def Slob.write (s : Slob) (a value : Nat) : Slob :=
  { s with word := Function.update s.word a value, stores := a :: s.stores }

/-- The store `node->field = value`, which ends the run at words that are not the allocator's
own. -/
def nodeStore (s : Slob) (node : Nat) (field : NodeField) (value : Nat) :
    Except Fault Slob := do
  require (node ≠ 0) .null
  require (s.Owns env (cU64 (node + field.offset))) .wild
  return s.write (cU64 (node + field.offset)) value

/-- `SYS_brk` as the function of the environment, whose answer is the new break. -/
def xBrk (s : Slob) (addr : Nat) : Nat × Slob :=
  (env.sysBrk s.brk addr, { s with brk := env.sysBrk s.brk addr })

/-- What the allocator runs on: a state that holds its variables, and the call `x_brk` on
that state. The state may be the allocator's own, with a function for the kernel, or that
of a process, with the kernel's `sys_brk`. -/
structure SlobHost (σ : Type) where
  slob : σ → Slob
  put : σ → Slob → σ
  xBrk : σ → Nat → Except Fault (Nat × σ)
  put_slob : ∀ t, put t (slob t) = t

/-- The host on which the function `sysBrk` answers the requests. -/
def SlobEnv.host : SlobHost Slob where
  slob := id
  put := fun _ s => s
  xBrk := fun s addr => .ok (Chinos.xBrk env s addr)
  put_slob := fun _ => rfl

/-- The loop of `mm_size2ndx`, which counts the bits of the size. -/
def ndxLoop (ndx size : Nat) : Nat :=
  if size > 1 then ndxLoop (ndx + 1) (size >>> 1) else ndx
  termination_by size
  decreasing_by simp only [Nat.shiftRight_one]; omega

/-- `mm_size2ndx`, the number of the list head for chunks of a size. -/
def mmSize2ndx (size : Nat) : Nat :=
  if size ≥ mmMaxChunk then mmNnodes - 1 else ndxLoop 0 (size >>> 5)

/-- The address `&heap->mm_nodelist[ndx]` of a list head. -/
def SlobEnv.head (ndx : Nat) : Nat := env.nodelist + 32 * ndx

/-- The loop of `mm_addfreechunk`. A walk of more than `2 ^ 64` nodes is in a cycle. -/
def addLoop (s : Slob) (size : Nat) : Nat → Nat → Nat → Except Fault (Nat × Nat)
  | 0, _, _ => .error .diverge
  | fuel + 1, prev, next =>
    if next = 0 then .ok (prev, next)
    else do
      let nextSize ← nodeLoad env s next .size
      if nextSize ≠ 0 ∧ nextSize < size then do
        let after ← nodeLoad env s next .next
        addLoop s size fuel next after
      else .ok (prev, next)

/-- `mm_addfreechunk`, which puts a free node on the list, behind the smaller ones of its list
head. -/
def mmAddfreechunk (s : Slob) (node : Nat) : Except Fault Slob := do
  let size ← nodeLoad env s node .size
  require (size ≥ sizeofMmFreenode) .assertion
  let preceding ← nodeLoad env s node .preceding
  require (preceding &&& mmAllocBit = 0) .assertion
  let ndx := mmSize2ndx size
  let next ← nodeLoad env s (env.head ndx) .next
  let (prev, next) ← addLoop env s size (2 ^ 64) (env.head ndx) next
  let s ← nodeStore env s prev .next node
  let s ← nodeStore env s node .prev prev
  let s ← nodeStore env s node .next next
  if next ≠ 0 then nodeStore env s next .prev node else return s

/-- How `slob_malloc` and `slob_free` take a node off the list. -/
def removeNode (s : Slob) (node : Nat) : Except Fault Slob := do
  let prev ← nodeLoad env s node .prev
  require (prev ≠ 0) .assertion
  let next ← nodeLoad env s node .next
  let s ← nodeStore env s prev .next next
  let next ← nodeLoad env s node .next
  if next ≠ 0 then do
    let prev ← nodeLoad env s node .prev
    nodeStore env s next .prev prev
  else return s

/-- `mm_addregion`, which makes a heap of the region: two guards, and a free chunk between
them. -/
def mmAddregion (s : Slob) (heapstart heapsize : Nat) : Except Fault Slob := do
  let heapbase := mmAlignUp heapstart
  let heapend := mmAlignDown (cU64 (heapstart + heapsize))
  let heapsize := cU64 (heapend - heapbase)
  let s := { s with heapStart := heapbase }
  let s ← nodeStore env s heapbase .size sizeofMmAllocnode
  let s ← nodeStore env s heapbase .preceding mmAllocBit
  let node := cU64 (heapbase + sizeofMmAllocnode)
  let s ← nodeStore env s node .size (cU64 (heapsize - 2 * sizeofMmAllocnode))
  let s ← nodeStore env s node .preceding sizeofMmAllocnode
  let heapEnd := cU64 (heapend - sizeofMmAllocnode)
  let s := { s with heapEnd := heapEnd }
  let s ← nodeStore env s heapEnd .size sizeofMmAllocnode
  let size ← nodeLoad env s node .size
  let s ← nodeStore env s heapEnd .preceding (size ||| mmAllocBit)
  mmAddfreechunk env s node

/-- The addresses of the words of `slob.mm_nodelist`. -/
def nodelistWords : List Nat := (List.range (4 * mmNnodes)).map fun i => env.nodelist + 8 * i

/-- `memset(heap, 0, sizeof(struct mm_heap))`, which clears the list heads and the other fields of
`slob`. -/
def clearSlob (s : Slob) : Slob :=
  { s with
    isInit := false
    heapStart := 0
    heapEnd := 0
    word := fun a => if a ∈ nodelistWords env then 0 else s.word a
    stores := nodelistWords env ++ s.stores }

/-- The loop of `slob_init` that links the list heads, from head `i` on. -/
def linkHeads : Nat → Nat → Slob → Except Fault Slob
  | 0, _, s => .ok s
  | left + 1, i, s => do
    let s ← nodeStore env s (env.head (i - 1)) .next (env.head i)
    let s ← nodeStore env s (env.head i) .prev (env.head (i - 1))
    linkHeads left (i + 1) s

/-- `slob_init`. The assertions on the sizes of the node types hold at compile time. -/
def slobInitOn {σ : Type} (host : SlobHost σ) (t : σ) : Except Fault σ := do
  if (host.slob t).isInit then return t
  let (heapstart, t) ← host.xBrk t 0
  let heapsize := mmapThreshold
  let (cBrk, t) ← host.xBrk t (cU64 (heapstart + heapsize))
  let s := { host.slob t with cBrk := cBrk }
  require (heapstart ≠ 0 ∧ heapsize > 0) .assertion
  let s := clearSlob env s
  let s ← linkHeads env (mmNnodes - 1) 1 s
  let s ← mmAddregion env s heapstart heapsize
  return host.put t { s with isInit := true }

/-- `slob_init`, with the function `sysBrk` in place of the kernel. -/
def slobInit (s : Slob) : Except Fault Slob := slobInitOn env env.host s

/-- How `slob_free` merges two neighbours, `first` and `second`: the one that is on
the list is taken off, and the tag of the node `after` them follows suit. -/
def mergeNodes (s : Slob) (first second listed after : Nat) : Except Fault Slob := do
  let s ← removeNode env s listed
  let firstSize ← nodeLoad env s first .size
  let secondSize ← nodeLoad env s second .size
  let s ← nodeStore env s first .size (cU64 (firstSize + secondSize))
  let size ← nodeLoad env s first .size
  let following ← nodeLoad env s after .preceding
  nodeStore env s after .preceding (size ||| (following &&& mmAllocBit))

/-- `slob_free`, the chunk after `node`: it is merged if it is free. The result is the
node that comes next then. -/
def freeNext (s : Slob) (node next following : Nat) : Except Fault (Nat × Slob) :=
  if following &&& mmAllocBit = 0 then do
    let nextSize ← nodeLoad env s next .size
    let andbeyond := cU64 (next + nextSize)
    let s ← mergeNodes env s node next next andbeyond
    return (andbeyond, s)
  else return (next, s)

/-- `slob_free`, the chunk before `node`: if it is free, `node` is merged into it. The
result is the node that `node` is part of then. -/
def freePrev (s : Slob) (node next : Nat) : Except Fault (Nat × Slob) := do
  let preceding ← nodeLoad env s node .preceding
  let prev := cU64 (node - preceding)
  let prevSize ← nodeLoad env s prev .size
  require (preceding &&& mmAllocBitNot = prevSize) .assertion
  let before ← nodeLoad env s prev .preceding
  if before &&& mmAllocBit = 0 then do
    let s ← mergeNodes env s prev node prev next
    return (prev, s)
  else return (node, s)

/-- `slob_free`, which merges the chunk with free neighbours and puts it on the list. -/
def slobFree (s : Slob) (mem : Nat) : Except Fault Slob := do
  require (mem ≠ 0) .assertion
  let node := cU64 (mem - sizeofMmAllocnode)
  let preceding ← nodeLoad env s node .preceding
  require (preceding &&& mmAllocBit ≠ 0) .assertion
  let s ← nodeStore env s node .preceding (preceding &&& mmAllocBitNot)
  let size ← nodeLoad env s node .size
  let next := cU64 (node + size)
  let following ← nodeLoad env s next .preceding
  require (following &&& mmAllocBitNot = size) .assertion
  let (next, s) ← freeNext env s node next following
  let (node, s) ← freePrev env s node next
  mmAddfreechunk env s node

/-- `slob_extend`, which turns the guard at the end into a used chunk of the new memory, and frees
it. -/
def slobExtend (s : Slob) (mem size : Nat) : Except Fault Slob := do
  require (mem ≠ 0) .assertion
  require (size ≥ minExtend) .assertion
  let blockstart := mem
  let blockend := cU64 (blockstart + size)
  require (mmAlignUp blockstart = blockstart) .assertion
  require (mmAlignDown blockend = blockend) .assertion
  let oldnode := s.heapEnd
  require (cU64 (oldnode + sizeofMmAllocnode) = mem) .assertion
  let s ← nodeStore env s oldnode .size size
  let preceding ← nodeLoad env s oldnode .preceding
  require (preceding &&& mmAllocBit ≠ 0) .assertion
  let newnode := cU64 (blockend - sizeofMmAllocnode)
  let s ← nodeStore env s newnode .size sizeofMmAllocnode
  let oldSize ← nodeLoad env s oldnode .size
  let s ← nodeStore env s newnode .preceding (oldSize ||| mmAllocBit)
  slobFree env { s with heapEnd := newnode } mem

/-- The search loop of `slob_malloc`, which stops at the first node of the list that is large
enough. -/
def searchLoop (s : Slob) (alignsize : Nat) : Nat → Nat → Except Fault Nat
  | 0, _ => .error .diverge
  | fuel + 1, node =>
    if node = 0 then .ok 0
    else do
      let size ← nodeLoad env s node .size
      if size < alignsize then do
        let prev ← nodeLoad env s node .prev
        let back ← nodeLoad env s prev .next
        require (back = node) .assertion
        let next ← nodeLoad env s node .next
        searchLoop s alignsize fuel next
      else .ok node

/-- The part of `slob_malloc` that cuts `node` down to `alignsize` bytes and puts the
remainder on the list. -/
def splitNode (s : Slob) (node alignsize remaining : Nat) : Except Fault Slob := do
  let size ← nodeLoad env s node .size
  let next := cU64 (node + size)
  let remainder := cU64 (node + alignsize)
  let s ← nodeStore env s remainder .size remaining
  let s ← nodeStore env s remainder .preceding alignsize
  let s ← nodeStore env s node .size alignsize
  let following ← nodeLoad env s next .preceding
  let s ← nodeStore env s next .preceding (remaining ||| (following &&& mmAllocBit))
  mmAddfreechunk env s remainder

/-- The test for `splitNode`: the remainder must hold a free node. -/
def trimNode (s : Slob) (node alignsize remaining : Nat) : Except Fault Slob :=
  if remaining ≥ sizeofMmFreenode then splitNode env s node alignsize remaining else .ok s

/-- The part of `slob_malloc` that takes a block from the free chunk `node`; the
variable `remaining` is a `uint32_t`. -/
def takeNode (s : Slob) (node alignsize : Nat) : Except Fault (Nat × Slob) := do
  let s ← removeNode env s node
  let size ← nodeLoad env s node .size
  let remaining := cU32 (size - alignsize)
  let s ← trimNode env s node alignsize remaining
  let preceding ← nodeLoad env s node .preceding
  let s ← nodeStore env s node .preceding (preceding ||| mmAllocBit)
  return (cU64 (node + sizeofMmAllocnode), s)

/-- The part of `slob_malloc` that searches the heap, up to the point where it needs more
memory, which is `none`. -/
def slobSearch (s : Slob) (size : Nat) : Except Fault (Option Nat × Slob) := do
  let alignsize := mmAlignUp (cU64 (size + sizeofMmAllocnode))
  if alignsize < size then return (some 0, s)
  require (alignsize ≥ mmMinChunk) .assertion
  require (alignsize ≥ sizeofMmFreenode) .assertion
  let ndx := if alignsize ≥ mmMaxChunk then mmNnodes - 1 else mmSize2ndx alignsize
  let node ← nodeLoad env s (env.head ndx) .next
  let node ← searchLoop env s alignsize (2 ^ 64) node
  if node ≠ 0 then do
    let (ret, s) ← takeNode env s node alignsize
    return (some ret, s)
  else return (none, s)

/-- `slob_malloc` up to the point where it needs more memory, which is `none`. -/
def slobTryOn {σ : Type} (host : SlobHost σ) (t : σ) (size : Nat) :
    Except Fault (Option Nat × σ) := do
  if size = 0 then return (some 0, t)
  let t ← slobInitOn env host t
  let (ret, s) ← slobSearch env (host.slob t) size
  return (ret, host.put t s)

/-- The end of `slob_malloc`: more memory from the kernel. -/
def slobGrowOn {σ : Type} (host : SlobHost σ) (t : σ) : Except Fault σ := do
  let oldBrk := (host.slob t).cBrk
  let (cBrk, t) ← host.xBrk t (cU64 (oldBrk + mmapThreshold))
  let s ← slobExtend env { host.slob t with cBrk := cBrk } oldBrk mmapThreshold
  return host.put t s

/-- `slob_malloc`, which calls itself after each growth of the heap; `grants` is how
often it may ask the kernel. -/
def slobMallocOn {σ : Type} (host : SlobHost σ) : Nat → σ → Nat → Except Fault (Nat × σ)
  | grants, t, size => do
    match ← slobTryOn env host t size with
    | (some ret, t) => return (ret, t)
    | (none, t) =>
      match grants with
      | 0 => .error .diverge
      | grants + 1 => do
        let t ← slobGrowOn env host t
        slobMallocOn host grants t size

/-- `slob_malloc` up to the point where it needs more memory, with the function `sysBrk` in place
of the kernel. -/
def slobTry (s : Slob) (size : Nat) : Except Fault (Option Nat × Slob) :=
  slobTryOn env env.host s size

/-- The growth of the heap, with the function `sysBrk` in place of the kernel. -/
def slobGrow (s : Slob) : Except Fault Slob := slobGrowOn env env.host s

/-- `slob_malloc`, with the function `sysBrk` in place of the kernel. -/
def slobMalloc (grants : Nat) (s : Slob) (size : Nat) : Except Fault (Nat × Slob) :=
  slobMallocOn env env.host grants s size

end Slob

end Chinos
