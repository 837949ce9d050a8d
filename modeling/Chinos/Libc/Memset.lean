import Chinos.Machine.Memory

/-!
# Filling memory: `os/lib/libc/k_memset.c`

The version that is built writes 64-bit words where it can: up to three stores align the
address, and up to three more write what the loop leaves. The words repeat a 16-bit pattern
that is made of two copies of `c`. The upper copy is shifted, the lower one keeps its bits
from 8 on, so these bits are in every byte at an odd address that a word covers.
-/

namespace Chinos

/-! ## The two versions -/

/-- `val16`; both operands of the `|` are of type `int`. -/
def memsetVal16 (c : BitVec 32) : BitVec 16 :=
  let low : BitVec 32 := (c.setWidth 16).setWidth 32
  (low <<< 8 ||| low).setWidth 16

/-- `val32`, which is `val16` twice. -/
def memsetVal32 (c : BitVec 32) : BitVec 32 :=
  (memsetVal16 c).setWidth 32 <<< 16 ||| (memsetVal16 c).setWidth 32

/-- `val64`, which is `val32` twice. -/
def memsetVal64 (c : BitVec 32) : BitVec 64 :=
  (memsetVal32 c).setWidth 64 <<< 32 ||| (memsetVal32 c).setWidth 64

/-- The variables of `k_memset`, with the memory it works on. -/
structure MemsetState where
  mem : Mem
  addr : Nat
  n : Nat

/-- `*(uintN_t *)addr = v; addr += bytes; n -= bytes;`. -/
def MemsetState.put {w : Nat} (s : MemsetState) (bytes : Nat) (v : BitVec w) : MemsetState :=
  ⟨s.mem.storeLe s.addr bytes v, (s.addr + bytes) % 2 ^ 64, s.n - bytes⟩

/-- `while (n >= 8)`, which is over after `n / 8` rounds. -/
def memsetLoop (val64 : BitVec 64) : (rounds : Nat) → MemsetState → MemsetState
  | 0, s => s
  | rounds + 1, s => if 8 ≤ s.n then memsetLoop val64 rounds (s.put 8 val64) else s

/-- What is written with at least 16 bits left: words, once the address is aligned. -/
def memsetWords (c : BitVec 32) (s : MemsetState) : MemsetState :=
  let s := if s.addr % 4 ≠ 0 then s.put 2 (memsetVal16 c) else s
  if 4 ≤ s.n then
    let s := if s.addr % 8 ≠ 0 then s.put 4 (memsetVal32 c) else s
    memsetLoop (memsetVal64 c) (s.n / 8) s
  else s

/-- The stores behind the loop, of four, two and one bytes, as far as bytes are left. -/
def memsetTail (c : BitVec 32) (s : MemsetState) : MemsetState :=
  let s := if 4 ≤ s.n then s.put 4 (memsetVal32 c) else s
  let s := if 2 ≤ s.n then s.put 2 (memsetVal16 c) else s
  if 1 ≤ s.n then s.put 1 (c.setWidth 8) else s

/-- `k_memset` with `CONFIG_MEMSET_OPTSPEED` and `CONFIG_MEMSET_64BIT`: the pointer it returns
and the memory it leaves. -/
def kMemset (m : Mem) (s : Nat) (c : BitVec 32) (n : Nat) : Nat × Mem :=
  let state : MemsetState := ⟨m, s, n⟩
  if 0 < n then
    let state := if s % 2 ≠ 0 then state.put 1 (c.setWidth 8) else state
    let state := if 2 ≤ state.n then memsetWords c state else state
    (s, (memsetTail c state).mem)
  else (s, m)

/-- The loop of the version that is not optimised, which stores one byte at a time. -/
def memsetByteLoop (c : BitVec 32) : (n : Nat) → (p : Nat) → Mem → Mem
  | 0, _, m => m
  | n + 1, p, m => memsetByteLoop c n ((p + 1) % 2 ^ 64) (m.storeLe p 1 (c.setWidth 8))

/-- `k_memset` without `CONFIG_MEMSET_OPTSPEED`: the pointer it returns and the memory it
leaves. -/
def kMemsetBytes (m : Mem) (s : Nat) (c : BitVec 32) (n : Nat) : Nat × Mem :=
  (s, memsetByteLoop c n s m)

/-! ## Bytes by address -/

/-- Write `byte x` to every address `x` in `[a, a + n)`. -/
def Mem.paint (m : Mem) (a n : Nat) (byte : Nat → BitVec 8) : Mem := fun x =>
  if a ≤ x ∧ x < a + n then byte x else m x

section Paint

variable {m : Mem} {a n k w : Nat} {byte : Nat → BitVec 8}

@[simp] theorem Mem.paint_zero : m.paint a 0 byte = m := by
  funext x
  exact if_neg (by omega)

/-- A store behind what is painted paints on, if its bytes are the right ones. -/
theorem Mem.storeLe_paint {v : BitVec w}
    (same : ∀ i < k, v.extractLsb' (8 * i) 8 = byte (a + n + i)) :
    (m.paint a n byte).storeLe (a + n) k v = m.paint a (n + k) byte := by
  funext x
  unfold Mem.storeLe Mem.paint
  by_cases inside : a + n ≤ x ∧ x < a + n + k
  · have here := same (x - (a + n)) (by omega)
    rw [Nat.add_sub_of_le inside.1] at here
    rw [if_pos inside, if_pos (by omega), here]
  · rw [if_neg inside]
    by_cases painted : a ≤ x ∧ x < a + n
    · rw [if_pos painted, if_pos (by omega)]
    · rw [if_neg painted, if_neg (by omega)]

theorem Mem.paint_eq_fill_iff {c : BitVec 8} :
    m.paint a n byte = m.fill a n c ↔ ∀ x, a ≤ x → x < a + n → byte x = c := by
  constructor
  · intro same x low high
    have here := congrFun same x
    unfold Mem.paint Mem.fill at here
    rwa [if_pos ⟨low, high⟩, if_pos ⟨low, high⟩] at here
  · intro same
    funext x
    unfold Mem.paint Mem.fill
    split
    · rename_i inside
      exact same x inside.1 inside.2
    · rfl

end Paint

/-! ## What the optimised version writes -/

/-- The byte that belongs into memory, the low byte of the argument. -/
def memsetByte (c : BitVec 32) : BitVec 8 := c.setWidth 8

/-- The upper byte of the pattern `val16`, into which the second byte of the argument gets
mixed. -/
def memsetUpper (c : BitVec 32) : BitVec 8 := c.setWidth 8 ||| (c >>> 8).setWidth 8

/-- What a fill from `s` on writes to address `x`: the upper byte of the pattern at an odd
address, other than the first one. -/
def memsetPattern (c : BitVec 32) (s x : Nat) : BitVec 8 :=
  if x % 2 = 1 ∧ x ≠ s then memsetUpper c else memsetByte c

theorem getLsbD_val16 (c : BitVec 32) (j : Nat) :
    (memsetVal16 c).getLsbD j =
      (decide (j < 16) && (decide (8 ≤ j) && c.getLsbD (j - 8) || c.getLsbD j)) := by
  unfold memsetVal16
  simp only [BitVec.getLsbD_setWidth, BitVec.getLsbD_or, BitVec.getLsbD_shiftLeft]
  by_cases narrow : j < 16
  · by_cases high : 8 ≤ j
    · simp [narrow, high, show j < 32 by omega, show ¬ j < 8 by omega, show j - 8 < 16 by omega,
        show j - 8 < 32 by omega]
    · simp [narrow, high, show j < 32 by omega, show j < 8 by omega]
  · simp [narrow]

theorem getLsbD_val32 (c : BitVec 32) {j : Nat} (small : j < 32) :
    (memsetVal32 c).getLsbD j = (memsetVal16 c).getLsbD (j % 16) := by
  unfold memsetVal32
  simp only [BitVec.getLsbD_setWidth, BitVec.getLsbD_or, BitVec.getLsbD_shiftLeft]
  by_cases low : j < 16
  · rw [Nat.mod_eq_of_lt low]
    simp [low, small]
  · have above : (memsetVal16 c).getLsbD j = false := BitVec.getLsbD_of_ge _ _ (by omega)
    rw [Nat.mod_eq_sub_mod (by omega), Nat.mod_eq_of_lt (show j - 16 < 16 by omega), above]
    simp [low, small, show j - 16 < 32 by omega]

theorem getLsbD_val64 (c : BitVec 32) {j : Nat} (small : j < 64) :
    (memsetVal64 c).getLsbD j = (memsetVal16 c).getLsbD (j % 16) := by
  have mod : j % 32 % 16 = j % 16 := Nat.mod_mod_of_dvd j (by decide)
  unfold memsetVal64
  simp only [BitVec.getLsbD_setWidth, BitVec.getLsbD_or, BitVec.getLsbD_shiftLeft]
  rw [← mod, ← getLsbD_val32 c (Nat.mod_lt j (by decide))]
  by_cases low : j < 32
  · rw [Nat.mod_eq_of_lt low]
    simp [low, small]
  · have above : (memsetVal32 c).getLsbD j = false := BitVec.getLsbD_of_ge _ _ (by omega)
    rw [Nat.mod_eq_sub_mod (by omega), Nat.mod_eq_of_lt (show j - 32 < 32 by omega), above]
    simp [low, small, show j - 32 < 64 by omega]

/-- A word that repeats the 16-bit pattern has its upper byte at odd places. -/
theorem extract_of_repeats (c : BitVec 32) {w bytes : Nat} {v : BitVec w}
    (repeats : ∀ j < 8 * bytes, v.getLsbD j = (memsetVal16 c).getLsbD (j % 16)) {i : Nat}
    (small : i < bytes) :
    v.extractLsb' (8 * i) 8 = if i % 2 = 1 then memsetUpper c else memsetByte c := by
  apply BitVec.eq_of_getLsbD_eq
  intro j inside
  rw [BitVec.getLsbD_extractLsb', decide_eq_true inside, Bool.true_and,
    repeats (8 * i + j) (by omega), getLsbD_val16]
  unfold memsetUpper memsetByte
  split
  · rename_i odd
    have place : (8 * i + j) % 16 = 8 + j := by omega
    rw [place]
    simp [inside, show 8 + j < 16 by omega, show 8 + j < 32 by omega]
  · rename_i even
    have place : (8 * i + j) % 16 = j := by omega
    rw [place]
    simp [inside, show j < 16 by omega, show ¬ 8 ≤ j by omega]

section Run

variable {m : Mem} {s n : Nat} {c : BitVec 32} {st : MemsetState}

/-- A byte store writes the byte, which is the pattern at the first and at even addresses. -/
theorem extract_byte {x : Nat} (place : x % 2 = 0 ∨ x = s) {i : Nat} (small : i < 1) :
    (c.setWidth 8).extractLsb' (8 * i) 8 = memsetPattern c s (x + i) := by
  obtain rfl : i = 0 := by omega
  unfold memsetPattern memsetByte
  rw [if_neg (by omega)]
  ext j inside
  simp

/-- The state between two stores: all but the last `st.n` bytes are written, and the address,
which is even, is that of the next one. -/
structure Painted (m : Mem) (s n : Nat) (c : BitVec 32) (st : MemsetState) : Prop where
  le : st.n ≤ n
  mem : st.mem = m.paint s (n - st.n) (memsetPattern c s)
  addr : 0 < st.n → st.addr = s + (n - st.n)
  even : st.addr % 2 = 0

/-- The next store writes `bytes` bytes of the pattern. -/
theorem Painted.put_mem (painted : Painted m s n c st) {w bytes : Nat} {v : BitVec w}
    (pos : 0 < bytes) (fits : bytes ≤ st.n)
    (right : ∀ i < bytes, v.extractLsb' (8 * i) 8 = memsetPattern c s (st.addr + i)) :
    (st.put bytes v).mem = m.paint s (n - (st.n - bytes)) (memsetPattern c s) := by
  have le := painted.le
  have place := painted.addr (by omega)
  have length : n - (st.n - bytes) = n - st.n + bytes := by omega
  rw [place] at right
  unfold MemsetState.put
  simp only
  rw [painted.mem, place, length]
  exact Mem.storeLe_paint right

/-- A store of a word paints on with the pattern, and keeps the address even. -/
theorem Painted.word (painted : Painted m s n c st) (noWrap : s + n ≤ 2 ^ 64) {w : Nat}
    {v : BitVec w} (half : Nat) (pos : 0 < half) (fits : 2 * half ≤ st.n)
    (repeats : ∀ j < 8 * (2 * half), v.getLsbD j = (memsetVal16 c).getLsbD (j % 16)) :
    Painted m s n c (st.put (2 * half) v) := by
  have le := painted.le
  have even := painted.even
  have place := painted.addr (by omega)
  have right : ∀ i < 2 * half, v.extractLsb' (8 * i) 8 = memsetPattern c s (st.addr + i) := by
    intro i small
    rw [extract_of_repeats c repeats small]
    unfold memsetPattern
    apply if_congr _ rfl rfl
    omega
  refine ⟨?_, painted.put_mem (by omega) fits right, ?_, ?_⟩
  · exact (Nat.sub_le st.n _).trans le
  · intro more
    have more' : 0 < st.n - 2 * half := more
    show (st.addr + 2 * half) % 2 ^ 64 = s + (n - (st.n - 2 * half))
    rw [Nat.mod_eq_of_lt (by omega)]
    omega
  · show (st.addr + 2 * half) % 2 ^ 64 % 2 = 0
    omega

theorem Painted.put16 (painted : Painted m s n c st) (noWrap : s + n ≤ 2 ^ 64)
    (fits : 2 ≤ st.n) : Painted m s n c (st.put 2 (memsetVal16 c)) :=
  painted.word noWrap 1 (by decide) fits fun j small => by
    rw [Nat.mod_eq_of_lt small]

theorem Painted.put32 (painted : Painted m s n c st) (noWrap : s + n ≤ 2 ^ 64)
    (fits : 4 ≤ st.n) : Painted m s n c (st.put 4 (memsetVal32 c)) :=
  painted.word noWrap 2 (by decide) fits fun _ small => getLsbD_val32 c small

theorem Painted.put64 (painted : Painted m s n c st) (noWrap : s + n ≤ 2 ^ 64)
    (fits : 8 ≤ st.n) : Painted m s n c (st.put 8 (memsetVal64 c)) :=
  painted.word noWrap 4 (by decide) fits fun _ small => getLsbD_val64 c small

/-- Each round of the loop writes eight bytes of the pattern, so it ends with fewer than eight
left. -/
theorem Painted.loop (noWrap : s + n ≤ 2 ^ 64) (rounds : Nat) :
    ∀ {st : MemsetState}, Painted m s n c st → 8 * rounds ≤ st.n →
      Painted m s n c (memsetLoop (memsetVal64 c) rounds st) ∧
        (memsetLoop (memsetVal64 c) rounds st).n = st.n - 8 * rounds := by
  induction rounds with
  | zero => exact fun painted _ => ⟨painted, rfl⟩
  | succ rounds ih =>
    intro st painted fits
    have left : (st.put 8 (memsetVal64 c)).n = st.n - 8 := rfl
    obtain ⟨after, count⟩ := ih (painted.put64 noWrap (by omega)) (by omega)
    rw [memsetLoop, if_pos (by omega)]
    exact ⟨after, by omega⟩

/-- The words paint on with the pattern, and leave fewer than eight bytes to write. -/
theorem Painted.words (painted : Painted m s n c st) (noWrap : s + n ≤ 2 ^ 64)
    (fits : 2 ≤ st.n) :
    Painted m s n c (memsetWords c st) ∧ (memsetWords c st).n < 8 := by
  have aligned : Painted m s n c (if st.addr % 4 ≠ 0 then st.put 2 (memsetVal16 c) else st) := by
    split
    · exact painted.put16 noWrap fits
    · exact painted
  unfold memsetWords
  simp only
  generalize (if st.addr % 4 ≠ 0 then st.put 2 (memsetVal16 c) else st) = st₁ at aligned ⊢
  by_cases many : 4 ≤ st₁.n
  · rw [if_pos many]
    have aligned₂ : Painted m s n c
        (if st₁.addr % 8 ≠ 0 then st₁.put 4 (memsetVal32 c) else st₁) := by
      split
      · exact aligned.put32 noWrap many
      · exact aligned
    generalize (if st₁.addr % 8 ≠ 0 then st₁.put 4 (memsetVal32 c) else st₁) = st₂ at aligned₂ ⊢
    obtain ⟨after, count⟩ := Painted.loop noWrap (st₂.n / 8) aligned₂ (by omega)
    exact ⟨after, by omega⟩
  · rw [if_neg many]
    exact ⟨aligned, by omega⟩

/-- The tail writes what is left, which is fewer than eight bytes, and then all of the region is
painted. -/
theorem Painted.tail (painted : Painted m s n c st) (noWrap : s + n ≤ 2 ^ 64) (few : st.n < 8) :
    (memsetTail c st).mem = m.paint s n (memsetPattern c s) := by
  unfold memsetTail
  simp only
  have four : ∃ st₁, (if 4 ≤ st.n then st.put 4 (memsetVal32 c) else st) = st₁ ∧
      Painted m s n c st₁ ∧ st₁.n < 4 := by
    split
    · rename_i many
      have left : (st.put 4 (memsetVal32 c)).n = st.n - 4 := rfl
      exact ⟨_, rfl, painted.put32 noWrap many, by omega⟩
    · exact ⟨_, rfl, painted, by omega⟩
  obtain ⟨st₁, eq₁, painted₁, few₁⟩ := four
  rw [eq₁]
  have two : ∃ st₂, (if 2 ≤ st₁.n then st₁.put 2 (memsetVal16 c) else st₁) = st₂ ∧
      Painted m s n c st₂ ∧ st₂.n < 2 := by
    split
    · rename_i many
      have left : (st₁.put 2 (memsetVal16 c)).n = st₁.n - 2 := rfl
      exact ⟨_, rfl, painted₁.put16 noWrap many, by omega⟩
    · exact ⟨_, rfl, painted₁, by omega⟩
  obtain ⟨st₂, eq₂, painted₂, few₂⟩ := two
  rw [eq₂]
  have le := painted₂.le
  have even := painted₂.even
  split
  · rename_i one
    rw [painted₂.put_mem (by decide) one fun _ small => extract_byte (.inl even) small]
    congr 1
    omega
  · rename_i none
    rw [painted₂.mem]
    congr 1
    omega

/-- The state once the address is even, with a byte written if it was odd. -/
theorem painted_first (m : Mem) (c : BitVec 32) (pos : 0 < n) (noWrap : s + n ≤ 2 ^ 64) :
    Painted m s n c (if s % 2 ≠ 0 then (⟨m, s, n⟩ : MemsetState).put 1 (c.setWidth 8)
      else ⟨m, s, n⟩) := by
  split
  · rename_i odd
    refine ⟨Nat.sub_le n 1, ?_, fun more => ?_, ?_⟩
    · have stored : (m.paint s 0 (memsetPattern c s)).storeLe (s + 0) 1 (c.setWidth 8) = _ :=
        Mem.storeLe_paint fun _ small => extract_byte (.inr rfl) small
      rw [Mem.paint_zero] at stored
      have length : n - (n - 1) = 0 + 1 := by omega
      show m.storeLe s 1 (c.setWidth 8) = m.paint s (n - (n - 1)) _
      rw [length]
      exact stored
    · have more' : 0 < n - 1 := more
      show (s + 1) % 2 ^ 64 = s + (n - (n - 1))
      rw [Nat.mod_eq_of_lt (by omega)]
      omega
    · show (s + 1) % 2 ^ 64 % 2 = 0
      omega
  · rename_i even
    refine ⟨le_rfl, ?_, fun _ => ?_, ?_⟩
    · show m = m.paint s (n - n) _
      rw [Nat.sub_self, Mem.paint_zero]
    · show s = s + (n - n)
      omega
    · show s % 2 = 0
      omega

/-- The optimised version writes the pattern, and nothing else. -/
theorem kMemset_eq_paint (m : Mem) (c : BitVec 32) (noWrap : s + n ≤ 2 ^ 64) :
    kMemset m s c n = (s, m.paint s n (memsetPattern c s)) := by
  unfold kMemset
  simp only
  by_cases pos : 0 < n
  · rw [if_pos pos]
    have painted := painted_first m c pos noWrap
    generalize (if s % 2 ≠ 0 then (⟨m, s, n⟩ : MemsetState).put 1 (c.setWidth 8)
      else ⟨m, s, n⟩) = st at painted ⊢
    have words : Painted m s n c (if 2 ≤ st.n then memsetWords c st else st) ∧
        (if 2 ≤ st.n then memsetWords c st else st).n < 8 := by
      split
      · rename_i many
        exact painted.words noWrap many
      · exact ⟨painted, by omega⟩
    rw [words.1.tail noWrap words.2]
  · obtain rfl : n = 0 := by omega
    rw [if_neg pos, Mem.paint_zero]

/-! ## Both versions -/

theorem memsetByteLoop_eq (c : BitVec 32) (noWrap : s + n ≤ 2 ^ 64) :
    ∀ {m : Mem}, memsetByteLoop c n s m = m.fill s n (memsetByte c) := by
  induction n generalizing s with
  | zero =>
    intro m
    funext x
    exact (Mem.fill_of_outside (by omega)).symm
  | succ n ih =>
    intro m
    have stored : m.storeLe s 1 (c.setWidth 8) = m.fill s 1 (memsetByte c) := by
      funext x
      unfold Mem.storeLe Mem.fill memsetByte
      split
      · rename_i inside
        obtain rfl : x = s := by omega
        rw [Nat.sub_self]
        ext j small
        simp
      · rfl
    rw [memsetByteLoop, stored]
    cases n with
    | zero => rfl
    | succ n =>
      rw [Nat.mod_eq_of_lt (by omega), ih (by omega)]
      funext x
      unfold Mem.fill
      by_cases first : x = s
      · rw [if_neg (by omega), if_pos (by omega), if_pos (by omega)]
      · by_cases inside : s + 1 ≤ x ∧ x < s + 1 + (n + 1)
        · rw [if_pos inside, if_pos (by omega)]
        · rw [if_neg inside, if_neg (by omega), if_neg (by omega)]

/-- The pattern is one byte all over iff no word is written or both its bytes are the same. -/
theorem memsetPattern_eq_iff :
    (∀ x, s ≤ x → x < s + n → memsetPattern c s x = memsetByte c) ↔
      memsetUpper c = memsetByte c ∨ n < 2 ∨ n = 2 ∧ s % 2 = 1 := by
  unfold memsetPattern
  constructor
  · intro same
    by_contra wrong
    push Not at wrong
    obtain ⟨differ, long, notOdd⟩ := wrong
    -- the first odd address behind the first byte
    have odd := same (s + 1 + s % 2) (by omega) (by omega)
    rw [if_pos (by omega)] at odd
    exact differ odd
  · intro holds x low high
    split
    · rename_i odd
      exact holds.resolve_right (by omega)
    · rfl

/-- The byte loop fills `[s, s + n)` with the low byte of `c`. The version that is built does
so exactly if bits 8 to 15 of `c` are also set in its low byte, or it gets to no word. -/
theorem kMemset_iff (m : Mem) (c : BitVec 32) (noWrap : s + n ≤ 2 ^ 64) :
    kMemsetBytes m s c n = (s, m.fill s n (c.setWidth 8)) ∧
      (kMemset m s c n = kMemsetBytes m s c n ↔
        c.setWidth 8 ||| (c >>> 8).setWidth 8 = c.setWidth 8 ∨ n < 2 ∨ n = 2 ∧ s % 2 = 1) := by
  have bytes : kMemsetBytes m s c n = (s, m.fill s n (memsetByte c)) :=
    congrArg (s, ·) (memsetByteLoop_eq c noWrap)
  refine ⟨bytes, ?_⟩
  rw [bytes, kMemset_eq_paint m c noWrap]
  refine Iff.trans ⟨fun same => (Prod.mk.inj same).2, congrArg (s, ·)⟩ ?_
  exact Mem.paint_eq_fill_iff.trans memsetPattern_eq_iff

/-- The two versions agree on -1, and on two bytes of -2 at an even address they do not. -/
theorem kMemset_iff_sample :
    kMemset (fun _ => 0) 0x1001 (-1) 20 = kMemsetBytes (fun _ => 0) 0x1001 (-1) 20 ∧
      kMemset (fun _ => 0) 0x1000 (-2) 2 ≠ kMemsetBytes (fun _ => 0) 0x1000 (-2) 2 := by
  have agree := (kMemset_iff (fun _ => 0) (s := 0x1001) (n := 20) (-1) (by decide)).2
  have differ := (kMemset_iff (fun _ => 0) (s := 0x1000) (n := 2) (-2) (by decide)).2
  refine ⟨agree.mpr (.inl (by decide)), fun same => ?_⟩
  rcases differ.mp same with covered | few | ⟨-, odd⟩
  · exact absurd covered (by decide)
  · exact absurd few (by decide)
  · exact absurd odd (by decide)

/-- Two bytes of -2 at an even address: the second one is 0xff. -/
theorem minusTwo_not_filled :
    (kMemset (fun _ => 0) 0x1000 (-2) 2).2 0x1001 = 0xff ∧
      (kMemsetBytes (fun _ => 0) 0x1000 (-2) 2).2 0x1001 = 0xfe := by
  decide

/-- Clearing memory, which is all that the kernel uses `k_memset` for, works. -/
theorem kMemset_zero (m : Mem) (noWrap : s + n ≤ 2 ^ 64) :
    kMemset m s 0 n = (s, m.fill s n 0) := by
  have clear : ∀ x, s ≤ x → x < s + n → memsetPattern 0 s x = memsetByte 0 :=
    memsetPattern_eq_iff.mpr (.inl (by decide))
  rw [kMemset_eq_paint m 0 noWrap, Mem.paint_eq_fill_iff.mpr clear]
  rfl

end Run

end Chinos
