import Chinos.Machine.Bits

/-!
# The bitmaps of `os/lib/libutils`

Bit tables in words of type `unsigned long`: the word-at-a-time search of
`find_bit.c`, the range updates of `bitmap.c` and `test_and_set_bit`. Each
function has one lemma that says what it does bit by bit; nothing later looks at
words.
-/

namespace Chinos

/-- An array of `unsigned long`; the code owns as much of it as it allocated. -/
abbrev Bitmap := Nat → BitVec 64

/-- Bit `i` of the map, counted from the lowest bit of its first word. -/
def Bitmap.bit (map : Bitmap) (i : Nat) : Bool :=
  (map (i / 64)).getLsbD (i % 64)

/-- `BITMAP_FIRST_WORD_MASK(start)`, the bits of a word from position `start` on. -/
def bitmapFirstWordMask (start : Nat) : BitVec 64 :=
  BitVec.allOnes 64 <<< (start % 64)

/-- `BITMAP_LAST_WORD_MASK(nbits)`, the bits of the last word of a map of `nbits` bits. -/
def bitmapLastWordMask (nbits : Nat) : BitVec 64 :=
  if nbits % 64 ≠ 0 then 1#64 <<< (nbits % 64) - 1#64 else BitVec.allOnes 64

/-- `__ffs`, the position of the lowest bit that is set, for words that are not zero. -/
def ffs (word : BitVec 64) : Nat :=
  word.ctz.toNat

/-- The word that `_find_next_bit` fetches for position `start`, masked by the second map and
inverted on request. -/
def findWord (addr1 : Bitmap) (addr2 : Option Bitmap) (invert : BitVec 64) (start : Nat) :
    BitVec 64 :=
  match addr2 with
  | none => addr1 (start / 64) ^^^ invert
  | some addr2 => (addr1 (start / 64) &&& addr2 (start / 64)) ^^^ invert

/-- The loop of `_find_next_bit`, at the word of position `start`. -/
def findLoop (addr1 : Bitmap) (addr2 : Option Bitmap) (nbits : Nat) (invert : BitVec 64)
    (start : Nat) (tmp : BitVec 64) : Nat :=
  if tmp = 0 then
    if start + 64 ≥ nbits then nbits
    else findLoop addr1 addr2 nbits invert (start + 64)
      (findWord addr1 addr2 invert (start + 64))
  else min (start + ffs tmp) nbits
  termination_by nbits - start

/-- `_find_next_bit`, whose result is `nbits` if there is no hit. -/
def findNextBitWith (addr1 : Bitmap) (addr2 : Option Bitmap) (nbits start : Nat)
    (invert : BitVec 64) : Nat :=
  if start ≥ nbits then nbits
  else findLoop addr1 addr2 nbits invert (start / 64 * 64)
    (findWord addr1 addr2 invert start &&& bitmapFirstWordMask start)

/-- `find_next_zero_bit`, which is `_find_next_bit` on the inverted map. -/
def findNextZeroBit (addr : Bitmap) (size offset : Nat) : Nat :=
  findNextBitWith addr none size offset (BitVec.allOnes 64)

/-- The loop of `bitmap_set` and `bitmap_clear`: `put` works a mask into a word.
`bits` is the number of positions left in word `p`, never zero. -/
def bitmapLoop (put : BitVec 64 → BitVec 64 → BitVec 64) (size : Nat) (map : Bitmap)
    (p len bits : Nat) (mask : BitVec 64) : Bitmap :=
  if bits ≤ len ∧ 0 < bits then
    bitmapLoop put size (Function.update map p (put (map p) mask)) (p + 1) (len - bits) 64
      (BitVec.allOnes 64)
  else if len ≠ 0 then
    Function.update map p (put (map p) (mask &&& bitmapLastWordMask size))
  else map
  termination_by len

/-- The text that `bitmap_set` and `bitmap_clear` have in common, which puts a mask to one word
after the other. -/
def bitmapPut (put : BitVec 64 → BitVec 64 → BitVec 64) (map : Bitmap) (start len : Nat) :
    Bitmap :=
  bitmapLoop put (start + len) map (start / 64) len (64 - start % 64)
    (bitmapFirstWordMask start)

/-- `bitmap_set`, which sets `len` bits from `start` on. -/
def bitmapSet (map : Bitmap) (start len : Nat) : Bitmap :=
  bitmapPut (fun word mask => word ||| mask) map start len

/-- `bitmap_clear`, which clears `len` bits from `start` on. -/
def bitmapClear (map : Bitmap) (start len : Nat) : Bitmap :=
  bitmapPut (fun word mask => word &&& ~~~mask) map start len

/-- `bitmap_zero`, for a number of bits that is not a constant. -/
def bitmapZero (map : Bitmap) (nbits : Nat) : Bitmap :=
  fun i => if i < (nbits + 63) / 64 then 0 else map i

/-- `test_and_set_bit`: whether the bit was set, and the map with it set. -/
def testAndSetBit (nr : Nat) (map : Bitmap) : Bool × Bitmap :=
  let mask := 1#64 <<< (nr % 64)
  let old := map (nr / 64)
  (old &&& mask != 0, Function.update map (nr / 64) (old ||| mask))

/-! ## Searching -/

section Find

variable {addr1 : Bitmap} {addr2 : Option Bitmap} {invert : BitVec 64}

/-- `r` is the first position from `offset` on, below `size`, where `hit` holds,
or `size` if there is none. -/
structure FirstHit (hit : Nat → Bool) (size offset r : Nat) : Prop where
  le : r ≤ size
  here : r < size → offset ≤ r ∧ hit r = true
  skipped : ∀ i, offset ≤ i → i < r → hit i = false

/-- Whether position `i` is one that `_find_next_bit` stops at. -/
def findHit (addr1 : Bitmap) (addr2 : Option Bitmap) (invert : BitVec 64) (i : Nat) : Bool :=
  (findWord addr1 addr2 invert i).getLsbD (i % 64)

theorem findWord_congr {i j : Nat} (same : i / 64 = j / 64) :
    findWord addr1 addr2 invert i = findWord addr1 addr2 invert j := by
  unfold findWord
  rw [same]

theorem ffs_lt {word : BitVec 64} (ne : word ≠ 0) : ffs word < 64 := by
  have set := BitVec.getLsbD_true_ctz_of_ne_zero ne
  by_contra large
  rw [BitVec.getLsbD_of_ge _ _ (by unfold ffs at large; omega)] at set
  cases set

/-- `tmp` shows, for the word of `start`, the positions from `offset` on that the
search looks for; everything before that word has been skipped. -/
theorem findLoop_firstHit (nbits offset start : Nat) (tmp : BitVec 64)
    (aligned : start % 64 = 0) (near : offset < start + 64)
    (shown : ∀ j < 64, tmp.getLsbD j =
      (findHit addr1 addr2 invert (start + j) && decide (offset ≤ start + j)))
    (before : ∀ i, offset ≤ i → i < start → findHit addr1 addr2 invert i = false) :
    FirstHit (findHit addr1 addr2 invert) nbits offset
      (findLoop addr1 addr2 nbits invert start tmp) := by
  unfold findLoop
  by_cases none : tmp = 0
  · -- nothing in this word: it joins the skipped ones
    have skip : ∀ i, offset ≤ i → i < start + 64 → findHit addr1 addr2 invert i = false := by
      intro i low high
      by_cases early : i < start
      · exact before i low early
      · have bit := shown (i - start) (by omega)
        rw [none, show start + (i - start) = i by omega, decide_eq_true low] at bit
        simpa using bit.symm
    rw [if_pos none]
    by_cases last : start + 64 ≥ nbits
    · rw [if_pos last]
      exact ⟨le_rfl, fun absurd => by omega, fun i low high => skip i low (by omega)⟩
    · rw [if_neg last]
      apply findLoop_firstHit nbits offset (start + 64) _ (by omega) (by omega) _ skip
      intro j small
      unfold findHit
      rw [findWord_congr (show (start + 64) / 64 = (start + 64 + j) / 64 by omega),
        show (start + 64 + j) % 64 = j by omega,
        decide_eq_true (show offset ≤ start + 64 + j by omega), Bool.and_true]
  · rw [if_neg none]
    have small := ffs_lt none
    have found := shown (ffs tmp) small
    rw [show tmp.getLsbD (ffs tmp) = true from BitVec.getLsbD_true_ctz_of_ne_zero none] at found
    obtain ⟨hit, low⟩ : findHit addr1 addr2 invert (start + ffs tmp) = true ∧
        offset ≤ start + ffs tmp := by simpa using found.symm
    refine ⟨min_le_right _ _, fun below => ?_, fun i first late => ?_⟩
    · rw [min_eq_left (by omega)]
      exact ⟨low, hit⟩
    · by_cases early : i < start
      · exact before i first early
      · have clear : tmp.getLsbD (i - start) = false :=
          BitVec.getLsbD_false_of_lt_ctz (show i - start < ffs tmp by omega)
        have bit := shown (i - start) (by omega)
        rw [clear, show start + (i - start) = i by omega, decide_eq_true first] at bit
        simpa using bit.symm
  termination_by nbits - start

theorem findNextBitWith_firstHit (nbits start : Nat) :
    FirstHit (findHit addr1 addr2 invert) nbits start
      (findNextBitWith addr1 addr2 nbits start invert) := by
  unfold findNextBitWith
  by_cases past : start ≥ nbits
  · rw [if_pos past]
    exact ⟨le_rfl, fun absurd => by omega, fun i low high => by omega⟩
  · rw [if_neg past]
    apply findLoop_firstHit nbits start _ _ (by omega) (by omega)
    · intro j small
      unfold findHit bitmapFirstWordMask
      rw [BitVec.getLsbD_and, getLsbD_ones_shiftLeft,
        findWord_congr (show (start / 64 * 64 + j) / 64 = start / 64 by omega),
        show (start / 64 * 64 + j) % 64 = j by omega]
      congr 1
      simp only [decide_eq_decide]
      omega
    · intro i low high
      omega

/-- The result of `find_next_zero_bit` is the first position from `offset` on with a clear bit, or
`size` if there is none. -/
theorem findNextZeroBit_firstHit (map : Bitmap) (size offset : Nat) :
    FirstHit (fun i => !map.bit i) size offset (findNextZeroBit map size offset) := by
  have inverted : findHit map none (BitVec.allOnes 64) = fun i => !map.bit i := by
    funext i
    unfold findHit findWord Bitmap.bit
    rw [BitVec.getLsbD_xor, BitVec.getLsbD_allOnes, decide_eq_true (show i % 64 < 64 by omega),
      Bool.xor_true]
  rw [← inverted]
  exact findNextBitWith_firstHit size offset

end Find

/-! ## Updating -/

section Put

variable {put : BitVec 64 → BitVec 64 → BitVec 64} {value : Bool}

/-- `put word mask` gives the bits of `mask` the value `value`. -/
def Puts (put : BitVec 64 → BitVec 64 → BitVec 64) (value : Bool) : Prop :=
  ∀ word mask j, j < 64 →
    (put word mask).getLsbD j = if mask.getLsbD j then value else word.getLsbD j

theorem Bitmap.bit_update (map : Bitmap) (p : Nat) (word : BitVec 64) (i : Nat) :
    Bitmap.bit (Function.update map p word) i =
      if i / 64 = p then word.getLsbD (i % 64) else map.bit i := by
  unfold Bitmap.bit
  rw [Function.update_apply]
  by_cases same : i / 64 = p
  · rw [if_pos same, if_pos same]
  · rw [if_neg same, if_neg same]

/-- A mask worked into word `p` changes the positions it covers. -/
theorem Puts.bit_update (puts : Puts put value) (map : Bitmap) (p : Nat) (mask : BitVec 64)
    (i : Nat) :
    Bitmap.bit (Function.update map p (put (map p) mask)) i =
      if i / 64 = p ∧ mask.getLsbD (i % 64) = true then value else map.bit i := by
  rw [Bitmap.bit_update]
  by_cases same : i / 64 = p
  · rw [if_pos same, puts _ _ _ (by omega), ← same]
    simp only [true_and, Bitmap.bit]
  · rw [if_neg same, if_neg (fun both => same both.1)]

theorem getLsbD_bitmapLastWordMask {nbits j : Nat} (small : j < 64) :
    (bitmapLastWordMask nbits).getLsbD j = decide (nbits % 64 = 0 ∨ j < nbits % 64) := by
  unfold bitmapLastWordMask
  by_cases whole : nbits % 64 = 0
  · rw [if_neg (not_not_intro whole), BitVec.getLsbD_allOnes]
    simp only [whole, small, true_or]
  · have fits : 2 ^ (nbits % 64) < 2 ^ 64 := Nat.pow_lt_pow_right (by omega) (by omega)
    have ones : 1#64 <<< (nbits % 64) - 1#64 = BitVec.ofNat 64 (2 ^ (nbits % 64) - 1) := by
      apply BitVec.eq_of_toNat_eq
      have pos : 0 < 2 ^ (nbits % 64) := Nat.two_pow_pos _
      rw [BitVec.toNat_sub, BitVec.toNat_shiftLeft, Nat.shiftLeft_eq, BitVec.toNat_ofNat,
        BitVec.toNat_ofNat, Nat.mod_eq_of_lt (show 1 < 2 ^ 64 by omega), one_mul,
        Nat.mod_eq_of_lt fits]
      omega
    rw [if_pos whole, ones, BitVec.getLsbD_ofNat, Nat.testBit_two_pow_sub_one]
    simp [whole, small]

/-- The loop is at position `start`, the first of the positions of word `p` it has
left, and has `len` positions to go. -/
theorem bitmapLoop_bit (puts : Puts put value) (size : Nat) (map : Bitmap) (p len bits : Nat)
    (some : 0 < bits) (most : bits ≤ 64) (start : Nat) (at_start : start + bits = 64 * (p + 1))
    (total : size = start + len) (i : Nat) :
    (bitmapLoop put size map p len bits (BitVec.allOnes 64 <<< (64 - bits))).bit i =
      if start ≤ i ∧ i < start + len then value else map.bit i := by
  unfold bitmapLoop
  by_cases whole : bits ≤ len ∧ 0 < bits
  · have step := bitmapLoop_bit puts size
      (Function.update map p (put (map p) (BitVec.allOnes 64 <<< (64 - bits)))) (p + 1)
      (len - bits) 64 (by omega) le_rfl (64 * (p + 1)) (by omega) (by omega) i
    rw [Nat.sub_self, BitVec.shiftLeft_zero] at step
    rw [if_pos whole, step, puts.bit_update]
    simp only [getLsbD_ones_shiftLeft, decide_eq_true_iff]
    by_cases later : 64 * (p + 1) ≤ i ∧ i < 64 * (p + 1) + (len - bits)
    · rw [if_pos later, if_pos (by omega)]
    · rw [if_neg later]
      apply if_congr _ rfl rfl
      omega
  · rw [if_neg whole]
    by_cases done : len = 0
    · rw [if_neg (not_not_intro done), if_neg (by omega)]
    · rw [if_pos done, puts.bit_update]
      simp only [BitVec.getLsbD_and, getLsbD_ones_shiftLeft, Bool.and_eq_true,
        getLsbD_bitmapLastWordMask (show i % 64 < 64 by omega), decide_eq_true_iff]
      apply if_congr _ rfl rfl
      omega
  termination_by len

theorem bitmapPut_bit (puts : Puts put value) (map : Bitmap) (start len i : Nat) :
    (bitmapPut put map start len).bit i =
      if start ≤ i ∧ i < start + len then value else map.bit i := by
  have run := bitmapLoop_bit puts (start + len) map (start / 64) len (64 - start % 64)
    (by omega) (by omega) start (by omega) rfl i
  rw [show 64 - (64 - start % 64) = start % 64 by omega] at run
  exact run

theorem puts_or : Puts (fun word mask => word ||| mask) true := by
  intro word mask j small
  rw [BitVec.getLsbD_or]
  cases mask.getLsbD j <;> simp

theorem puts_andNot : Puts (fun word mask => word &&& ~~~mask) false := by
  intro word mask j small
  rw [BitVec.getLsbD_and, BitVec.getLsbD_not, decide_eq_true small]
  cases mask.getLsbD j <;> simp

@[simp] theorem bitmapSet_bit (map : Bitmap) (start len i : Nat) :
    (bitmapSet map start len).bit i =
      if start ≤ i ∧ i < start + len then true else map.bit i :=
  bitmapPut_bit puts_or map start len i

@[simp] theorem bitmapClear_bit (map : Bitmap) (start len i : Nat) :
    (bitmapClear map start len).bit i =
      if start ≤ i ∧ i < start + len then false else map.bit i :=
  bitmapPut_bit puts_andNot map start len i

end Put

theorem bitmapZero_bit (map : Bitmap) {nbits i : Nat} (inside : i < nbits) :
    (bitmapZero map nbits).bit i = false := by
  unfold Bitmap.bit bitmapZero
  rw [if_pos (by omega)]
  exact BitVec.getLsbD_zero

@[simp] theorem testAndSetBit_fst (nr : Nat) (map : Bitmap) :
    (testAndSetBit nr map).1 = map.bit nr := by
  have inside : nr % 64 < 64 := by omega
  have clear_iff : map (nr / 64) &&& 1#64 <<< (nr % 64) = 0#64 ↔ map.bit nr = false := by
    rw [and_eq_zero_iff_getLsbD]
    simp only [getLsbD_one_shiftLeft, decide_eq_true_iff]
    constructor
    · intro clear
      exact clear _ inside ⟨rfl, inside⟩
    · rintro clear j - ⟨rfl, -⟩
      exact clear
  unfold testAndSetBit
  cases old : map.bit nr with
  | false => simpa using clear_iff.mpr old
  | true => simpa [old] using clear_iff

@[simp] theorem testAndSetBit_bit (nr : Nat) (map : Bitmap) (i : Nat) :
    (testAndSetBit nr map).2.bit i = if i = nr then true else map.bit i := by
  refine (puts_or.bit_update map (nr / 64) (1#64 <<< (nr % 64)) i).trans ?_
  simp only [getLsbD_one_shiftLeft, decide_eq_true_iff]
  apply if_congr _ rfl rfl
  omega

end Chinos
