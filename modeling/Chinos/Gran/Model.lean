import Chinos.Machine.Basic

/-!
# The granule allocator of `os/core/mm/mm_gran.c`

A heap of `ngranules` granules of `2 ^ log2gran` bytes is described by a granule
allocation table (GAT), one bit a granule, in 32-bit words. `granAlloc` slides a
64-bit window over the table, `granMarkAllocated` sets the bits of the run it
found and `granFree` clears the bits of a run.
-/

namespace Chinos

/-- `struct mm_gran`. The table is a trailing array, so `gat` is the memory
around `gat[0]`; only the first `sizeofGat ngranules` words belong to it. -/
structure MmGran where
  log2gran : Nat
  ngranules : Nat
  heapstart : Nat
  gat : Int → BitVec 32

/-- `SIZEOF_GAT(n)`, the number of words in the table for `n` granules. -/
def sizeofGat (n : Nat) : Nat := (n + 31) >>> 5

/-- Bit `i` of the granule allocation table, which is set while granule `i` is allocated. -/
def MmGran.bit (gran : MmGran) (i : Nat) : Bool :=
  (gran.gat (i / 32 : Nat)).getLsbD (i % 32)

/-- The assignment `gran->gat[index] = word`, for an index that may lie outside the table. -/
def MmGran.setGat (gran : MmGran) (index : Int) (word : BitVec 32) : MmGran :=
  { gran with gat := fun i => if i = index then word else gran.gat i }

/-- `32 * (1 << gran->log2gran)`, an `int`, as the `size_t` it is compared with. -/
def granLimit (log2gran : Nat) : Nat :=
  cU64 (cInt (32 * cInt (2 ^ log2gran)))

/-- The mask `0xffffffff >> (32 - ngranules)`, with a bit for each granule of a request. -/
def granMask (ngranules : Nat) : BitVec 32 :=
  BitVec.allOnes 32 >>> (32 - ngranules)

/-- The number of granules `gran_alloc` looks for; its `tmpmask` is a `size_t`. -/
def granAllocCount (log2gran size : Nat) : Nat :=
  let tmpmask := cU64 (cInt (cInt (2 ^ log2gran) - 1))
  cU32 (cU64 (size + tmpmask) >>> log2gran)

/-- The number of granules `gran_free` clears; its `granmask` is an `unsigned int`. -/
def granFreeCount (log2gran size : Nat) : Nat :=
  let granmask := cU32 (cInt (cInt (2 ^ log2gran) - 1))
  cU32 (cU64 (size + granmask) >>> log2gran)

/-- The granule number of an address, as an `unsigned int`. -/
def granNo (gran : MmGran) (memory : Nat) : Nat :=
  cU32 (cU64 (memory - gran.heapstart) >>> gran.log2gran)

/-- `gran_mark_allocated`, which asserts that the bits it sets are clear. They may go on into the
next word. -/
def granMarkAllocated (gran : MmGran) (alloc ngranules : Nat) : Except Fault MmGran := do
  let granno := granNo gran alloc
  let gatidx : Int := (granno >>> 5 : Nat)
  let gatbit := granno % 32
  let avail := 32 - gatbit
  if ngranules > avail then
    -- the run goes on in the next table word
    let gatmask := BitVec.allOnes 32 <<< gatbit
    require (gran.gat gatidx &&& gatmask = 0) .assertion
    let gran := gran.setGat gatidx (gran.gat gatidx ||| gatmask)
    let gatmask := granMask (ngranules - avail)
    require (gran.gat (gatidx + 1) &&& gatmask = 0) .assertion
    return gran.setGat (gatidx + 1) (gran.gat (gatidx + 1) ||| gatmask)
  else
    let gatmask := granMask ngranules <<< gatbit
    require (gran.gat gatidx &&& gatmask = 0) .assertion
    return gran.setGat gatidx (gran.gat gatidx ||| gatmask)

/-- How far the window moves when the run does not start at its first bit;
`none` when it does. The tests find the first zero bit by halving. -/
def granShift (curr mask : BitVec 32) : Option Nat :=
  if curr &&& 0x0000ffff = 0x0000ffff then some 16
  else if curr &&& 0x000000ff = 0x000000ff then some 8
  else if curr &&& 0x0000000f = 0x0000000f then some 4
  else if curr &&& 0x00000003 = 0x00000003 then some 2
  else if curr &&& mask = 0 then none
  else some 1

/-- The inner loop of `gran_alloc`: the first fitting run that starts in the
table word of `granidx`, at bit `bitidx` or later. Each round moves at least one
bit, so the rounds left are a bound on the loop. -/
def granScan (gran : MmGran) (ngranules : Nat) (granidx : Int) :
    Nat → (bitidx alloc : Nat) → (curr next : BitVec 32) → Option Nat
  | 0, _, _, _, _ => none
  | rounds + 1, bitidx, alloc, curr, next =>
    if bitidx < 32 ∧ cU32 (granidx + bitidx + ngranules) ≤ gran.ngranules then
      if curr = BitVec.allOnes 32 then
        none
      else
        match granShift curr (granMask ngranules) with
        | none => some alloc
        | some shift =>
          granScan gran ngranules granidx rounds (bitidx + shift)
            (cU64 (alloc + cInt (shift * 2 ^ gran.log2gran)))
            ((curr >>> shift) ||| (next <<< (32 - shift))) (next >>> shift)
    else
      none

/-- The outer loop of `gran_alloc`, over the words of the table. It leaves
through its condition unless `granidx` wraps before it reaches `ngranules`. -/
def granSearch (gran : MmGran) (ngranules : Nat) :
    Nat → (granidx : Int) → Except Fault (Option Nat)
  | 0, granidx => if cU32 granidx < gran.ngranules then .error .diverge else .ok none
  | rounds + 1, granidx =>
    if cU32 granidx < gran.ngranules then
      let gatidx := granidx >>> (5 : Nat)
      let curr := gran.gat gatidx
      if curr = BitVec.allOnes 32 then
        granSearch gran ngranules rounds (cInt (granidx + 32))
      else
        -- the source tests `granidx` here once more, so the all-ones arm is dead
        let next := if cU32 granidx < gran.ngranules then gran.gat (gatidx + 1)
          else BitVec.allOnes 32
        let alloc := cU64 (gran.heapstart + cInt (granidx * 2 ^ gran.log2gran))
        match granScan gran ngranules granidx 33 0 alloc curr next with
        | some alloc => .ok (some alloc)
        | none => granSearch gran ngranules rounds (cInt (granidx + 32))
    else
      .ok none

/-- `gran_alloc`: the address of the allocation, `0` for `NULL`, and the heap after it. -/
def granAlloc (gran : MmGran) (size : Nat) : Except Fault (Nat × MmGran) := do
  require (size ≤ granLimit gran.log2gran) .assertion
  if size > 0 then
    let ngranules := granAllocCount gran.log2gran size
    require (ngranules ≤ 32) .assertion
    match ← granSearch gran ngranules (sizeofGat gran.ngranules) 0 with
    | some alloc => return (alloc, ← granMarkAllocated gran alloc ngranules)
    | none => return (0, gran)
  else
    return (0, gran)

/-- `gran_free`, which asserts that the bits it clears are set. They may go on into the next
word. -/
def granFree (gran : MmGran) (memory size : Nat) : Except Fault MmGran := do
  require (memory ≠ 0 ∧ size ≤ granLimit gran.log2gran) .assertion
  let granno := granNo gran memory
  let gatidx : Int := (granno >>> 5 : Nat)
  let gatbit := granno % 32
  let ngranules := granFreeCount gran.log2gran size
  let avail := 32 - gatbit
  if ngranules > avail then
    let gatmask := BitVec.allOnes 32 <<< gatbit
    require (gran.gat gatidx &&& gatmask = gatmask) .assertion
    let gran := gran.setGat gatidx (gran.gat gatidx &&& ~~~gatmask)
    let gatmask := granMask (ngranules - avail)
    require (gran.gat (gatidx + 1) &&& gatmask = gatmask) .assertion
    return gran.setGat (gatidx + 1) (gran.gat (gatidx + 1) &&& ~~~gatmask)
  else
    let gatmask := granMask ngranules <<< gatbit
    require (gran.gat gatidx &&& gatmask = gatmask) .assertion
    return gran.setGat gatidx (gran.gat gatidx &&& ~~~gatmask)

end Chinos
