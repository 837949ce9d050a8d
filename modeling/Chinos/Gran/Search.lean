import Chinos.Gran.Model
import Chinos.Machine.Bits

/-!
# First fit in the granule allocation table

`granScan` and `granSearch` return the lowest fitting run of free granules. The
window invariant is `WindowAt`: after `b` bits have been shifted out, bit `j` of
`curr` is granule bit `b + j` of the word pair the scan started from.

Where the run is found does not depend on the addresses that are computed on the way.
`granSearchRun` is the search without them, and `granSearch_eq` puts them back:
`foundAddr` is the address that belongs to a granule, right or wrong.
-/

namespace Chinos

/-- Granules `i` to `i + k - 1` are free. -/
def MmGran.FreeRun (gran : MmGran) (i k : Nat) : Prop := ∀ j < k, gran.bit (i + j) = false

/-- The run of `k` granules at `i` lies in the heap and is free. -/
def MmGran.Fits (gran : MmGran) (k i : Nat) : Prop :=
  i + k ≤ gran.ngranules ∧ gran.FreeRun i k

theorem MmGran.not_fits_of_bit {gran : MmGran} {k i : Nat} (pos : 0 < k)
    (used : gran.bit i = true) : ¬ gran.Fits k i := by
  intro fits
  have free := fits.2 0 pos
  rw [Nat.add_zero, used] at free
  cases free

/-! ## The mask tests -/

theorem getLsbD_granMask {k : Nat} (fits : k ≤ 32) (j : Nat) :
    (granMask k).getLsbD j = decide (j < k) :=
  getLsbD_ones_ushiftRight fits j

theorem and_granMask_eq_zero_iff {k : Nat} (fits : k ≤ 32) {x : BitVec 32} :
    x &&& granMask k = 0 ↔ ∀ j < k, x.getLsbD j = false := by
  rw [show (0 : BitVec 32) = 0#32 from rfl, and_eq_zero_iff_getLsbD]
  constructor
  · intro clear j inside
    exact clear j (by omega) (by rw [getLsbD_granMask fits, decide_eq_true inside])
  · intro clear j _ set
    rw [getLsbD_granMask fits, decide_eq_true_eq] at set
    exact clear j set

theorem getLsbD_of_and_granMask_eq {k : Nat} (fits : k ≤ 32) {x : BitVec 32}
    (full : x &&& granMask k = granMask k) {j : Nat} (inside : j < k) :
    x.getLsbD j = true :=
  and_eq_right_iff_getLsbD.mp full j (by omega)
    (by rw [getLsbD_granMask fits, decide_eq_true inside])

/-- What a round of the scan learns: at a fit the run starts at bit 0 of the
window, and a shift skips only positions where it does not. -/
theorem granShift_cases (curr : BitVec 32) {k : Nat} (fits : k ≤ 32) :
    (granShift curr (granMask k) = none ∧ ∀ j < k, curr.getLsbD j = false) ∨
      (∃ shift, granShift curr (granMask k) = some shift ∧ 1 < shift ∧ shift ≤ 16 ∧
        ∀ j < shift, curr.getLsbD j = true) ∨
      (granShift curr (granMask k) = some 1 ∧ ∃ j < k, curr.getLsbD j = true) := by
  unfold granShift
  split
  · next full =>
    exact Or.inr (Or.inl ⟨16, rfl, by omega, by omega, fun j inside =>
      getLsbD_of_and_granMask_eq (k := 16) (by omega) full inside⟩)
  split
  · next full =>
    exact Or.inr (Or.inl ⟨8, rfl, by omega, by omega, fun j inside =>
      getLsbD_of_and_granMask_eq (k := 8) (by omega) full inside⟩)
  split
  · next full =>
    exact Or.inr (Or.inl ⟨4, rfl, by omega, by omega, fun j inside =>
      getLsbD_of_and_granMask_eq (k := 4) (by omega) full inside⟩)
  split
  · next full =>
    exact Or.inr (Or.inl ⟨2, rfl, by omega, by omega, fun j inside =>
      getLsbD_of_and_granMask_eq (k := 2) (by omega) full inside⟩)
  split
  · next clear => exact Or.inl ⟨rfl, (and_granMask_eq_zero_iff fits).mp clear⟩
  · next taken =>
    refine Or.inr (Or.inr ⟨rfl, ?_⟩)
    by_contra noneSet
    refine taken ((and_granMask_eq_zero_iff fits).mpr fun j inside => ?_)
    by_contra set
    exact noneSet ⟨j, inside, by simpa using set⟩

/-! ## The sliding window -/

/-- `curr` and `next` hold the bits `bits` from position `b` on; of a word pair
64 bits long, `next` keeps what `curr` has not reached. -/
structure WindowAt (bits : Nat → Bool) (b : Nat) (curr next : BitVec 32) : Prop where
  curr_bit : ∀ j < 32, curr.getLsbD j = bits (b + j)
  next_bit : ∀ j, b + j < 32 → next.getLsbD j = bits (32 + (b + j))

/-- One shift of the window by up to 32 bits, as the code does it on 64 bits, leaves the window
that starts that much later. -/
theorem WindowAt.shift {bits : Nat → Bool} {b shift : Nat} {curr next : BitVec 32}
    (window : WindowAt bits b curr next) (small : shift ≤ 32) (inside : b + shift ≤ 32) :
    WindowAt bits (b + shift) ((curr >>> shift) ||| (next <<< (32 - shift))) (next >>> shift) := by
  constructor
  · intro j low
    rw [BitVec.getLsbD_or, BitVec.getLsbD_ushiftRight, BitVec.getLsbD_shiftLeft]
    by_cases stays : shift + j < 32
    · have fromNext : j < 32 - shift := by omega
      simp only [fromNext, decide_true, Bool.not_true, Bool.and_false, Bool.false_and,
        Bool.or_false]
      rw [window.curr_bit _ stays, Nat.add_assoc]
    · rw [BitVec.getLsbD_of_ge curr _ (by omega)]
      simp only [low, decide_true, show ¬ j < 32 - shift by omega, decide_false, Bool.not_false,
        Bool.and_true, Bool.true_and, Bool.false_or]
      rw [window.next_bit _ (by omega)]
      congr 1
      omega
  · intro j low
    rw [BitVec.getLsbD_ushiftRight, window.next_bit _ (by omega)]
    congr 1
    omega

section Heap

variable {gran : MmGran} {k : Nat}

/-- The window the scan of the word at granule `g` starts from. -/
theorem MmGran.windowAt_zero (gran : MmGran) {g : Nat} (aligned : g % 32 = 0) :
    WindowAt (fun i => gran.bit (g + i)) 0 (gran.gat (g / 32 : Nat))
      (gran.gat ((g / 32 : Nat) + 1)) := by
  constructor
  · intro j low
    simp only [MmGran.bit, Nat.zero_add]
    rw [show (g + j) / 32 = g / 32 by omega, show (g + j) % 32 = j by omega]
  · intro j low
    simp only [MmGran.bit, Nat.zero_add]
    rw [show (g + (32 + j)) / 32 = g / 32 + 1 by omega, show (g + (32 + j)) % 32 = j by omega]
    norm_cast

/-- The address of granule `i`, computed in 64 bits. -/
def MmGran.addr (gran : MmGran) (i : Nat) : Nat :=
  cU64 (gran.heapstart + i * 2 ^ gran.log2gran)

theorem natCast_mul_two_pow (i l : Nat) : (i : Int) * 2 ^ l = (i * 2 ^ l : Nat) := by
  push_cast
  rfl

/-- The address of a granule is the address of its table word's first granule and the rest. -/
theorem MmGran.addr_eq_word (gran : MmGran) (i : Nat) :
    gran.addr i = cU64 (gran.heapstart + (i / 32 * 32 : Nat) * 2 ^ gran.log2gran +
      (i % 32 : Nat) * 2 ^ gran.log2gran) := by
  have split : (i : Int) = (i / 32 * 32 : Nat) + (i % 32 : Nat) := by omega
  rw [MmGran.addr, Int.add_assoc, ← Int.add_mul, ← split]

/-- An address is taken for the granule it belongs to. -/
theorem granNo_addr {i : Nat} (i_lt : i < 2 ^ 32) (offset : i * 2 ^ gran.log2gran < 2 ^ 64) :
    granNo gran (gran.addr i) = i := by
  have back : cU64 (gran.addr i - gran.heapstart) = i * 2 ^ gran.log2gran := by
    rw [MmGran.addr, natCast_mul_two_pow]
    generalize i * 2 ^ gran.log2gran = x at offset
    unfold cU64
    omega
  rw [granNo, back, Nat.shiftRight_eq_div_pow, Nat.mul_div_cancel _ (Nat.two_pow_pos _)]
  exact cU32_natCast i_lt

end Heap

/-! ## The two loops -/

/-- The heap is small enough for the `int` arithmetic on granule offsets: no
offset in the heap reaches `2 ^ 31`, nor does a shift of the window. -/
structure MmGran.Small (gran : MmGran) : Prop where
  span : gran.ngranules * 2 ^ gran.log2gran < 2 ^ 31
  log2gran_le : gran.log2gran ≤ 26

/-- `result` is the lowest fitting granule of `lo, …, hi - 1`, if there is one. -/
def MmGran.FirstFit (gran : MmGran) (k lo hi : Nat) : Option Nat → Prop
  | none => ∀ i, lo ≤ i → i < hi → ¬ gran.Fits k i
  | some i => lo ≤ i ∧ i < hi ∧ gran.Fits k i ∧ ∀ j, lo ≤ j → j < i → ¬ gran.Fits k j

section FirstFit

variable {gran : MmGran} {k lo mid hi : Nat} {result : Option Nat}

/-- The search may start behind positions that do not fit. -/
theorem MmGran.FirstFit.of_skip (skipped : ∀ i, lo ≤ i → i < mid → ¬ gran.Fits k i)
    (le : lo ≤ mid) (rest : gran.FirstFit k mid hi result) : gran.FirstFit k lo hi result := by
  cases result with
  | none =>
    intro i low high
    by_cases before : i < mid
    · exact skipped i low before
    · exact rest i (by omega) high
  | some r =>
    obtain ⟨above, below, fits, least⟩ := rest
    refine ⟨by omega, below, fits, fun j low high => ?_⟩
    by_cases before : j < mid
    · exact skipped j low before
    · exact least j (by omega) high

/-- The result of a search that starts before positions which do not fit is also the result of one
that starts behind them. -/
theorem MmGran.FirstFit.after_skip (first : gran.FirstFit k lo hi result)
    (skipped : ∀ i, lo ≤ i → i < mid → ¬ gran.Fits k i) (le : lo ≤ mid) :
    gran.FirstFit k mid hi result := by
  cases result with
  | none => exact fun i above => first i (by omega)
  | some i =>
    obtain ⟨above, below, fits, least⟩ := first
    have beyond : mid ≤ i := by
      by_contra before
      exact skipped i above (by omega) fits
    exact ⟨beyond, below, fits, fun j from_mid => least j (by omega)⟩

end FirstFit

/-! ## The search by the granule it finds -/

/-- The inner loop of `gran_alloc` without the address that it carries along: the bit at which
it finds the run. -/
def granScanBit (gran : MmGran) (ngranules : Nat) (granidx : Int) :
    Nat → (bitidx : Nat) → (curr next : BitVec 32) → Option Nat
  | 0, _, _, _ => none
  | rounds + 1, bitidx, curr, next =>
    if bitidx < 32 ∧ cU32 (granidx + bitidx + ngranules) ≤ gran.ngranules then
      if curr = BitVec.allOnes 32 then
        none
      else
        match granShift curr (granMask ngranules) with
        | none => some bitidx
        | some shift =>
          granScanBit gran ngranules granidx rounds (bitidx + shift)
            ((curr >>> shift) ||| (next <<< (32 - shift))) (next >>> shift)
    else
      none

/-- The outer loop of `gran_alloc` without the address: the granule at which it finds the run. -/
def granSearchRun (gran : MmGran) (ngranules : Nat) :
    Nat → (granidx : Int) → Except Fault (Option Nat)
  | 0, granidx => if cU32 granidx < gran.ngranules then .error .diverge else .ok none
  | rounds + 1, granidx =>
    if cU32 granidx < gran.ngranules then
      let gatidx := granidx >>> (5 : Nat)
      let curr := gran.gat gatidx
      if curr = BitVec.allOnes 32 then
        granSearchRun gran ngranules rounds (cInt (granidx + 32))
      else
        let next := if cU32 granidx < gran.ngranules then gran.gat (gatidx + 1)
          else BitVec.allOnes 32
        match granScanBit gran ngranules granidx 33 0 curr next with
        | some bitidx => .ok (some (cU32 granidx + bitidx))
        | none => granSearchRun gran ngranules rounds (cInt (granidx + 32))
    else
      .ok none

/-- The address that the search has for granule `i`: the offset of the table word is an `int`,
and the granules of the word are added to it. -/
def MmGran.foundAddr (gran : MmGran) (i : Nat) : Nat :=
  cU64 (gran.heapstart + cInt ((i / 32 * 32 : Nat) * 2 ^ gran.log2gran) +
    (i % 32 : Nat) * 2 ^ gran.log2gran)

section Address

variable {gran : MmGran} {k : Nat}

theorem granShift_le {curr mask : BitVec 32} {shift : Nat}
    (skip : granShift curr mask = some shift) : shift ≤ 16 := by
  unfold granShift at skip
  split_ifs at skip <;> cases skip <;> decide

/-- Moving the window by `shift` bits moves the address by as many granules. -/
theorem cU64_add_shift {base : Int} {l b shift : Nat} (le : l ≤ 26) (small : shift ≤ 16) :
    cU64 (cU64 (base + b * 2 ^ l) + cInt (shift * 2 ^ l)) =
      cU64 (base + (b + shift : Nat) * 2 ^ l) := by
  have unit : 2 ^ l ≤ 2 ^ 26 := Nat.pow_le_pow_right (by decide) le
  have offset : shift * 2 ^ l ≤ 16 * 2 ^ 26 := Nat.mul_le_mul small unit
  have exact_shift : cInt (shift * 2 ^ l : Int) = (shift * 2 ^ l : Nat) := by
    rw [natCast_mul_two_pow, cInt_natCast (by omega)]
  have split : ((b + shift : Nat) * 2 ^ l : Int) = b * 2 ^ l + (shift * 2 ^ l : Nat) := by
    push_cast
    ring
  rw [exact_shift, split]
  generalize (b * 2 ^ l : Int) = x
  generalize shift * 2 ^ l = y
  unfold cU64
  omega

/-- The inner loop returns the address of the bit it finds. -/
theorem granScan_eq (le : gran.log2gran ≤ 26) (granidx base : Int) (rounds : Nat) :
    ∀ {b alloc : Nat} {curr next : BitVec 32}, alloc = cU64 (base + b * 2 ^ gran.log2gran) →
      granScan gran k granidx rounds b alloc curr next =
        (granScanBit gran k granidx rounds b curr next).map
          fun bit : Nat => cU64 (base + bit * 2 ^ gran.log2gran) := by
  induction rounds with
  | zero =>
    intro b alloc curr next _
    rfl
  | succ rounds ih =>
    intro b alloc curr next here
    rw [granScan, granScanBit]
    split_ifs
    · rfl
    · cases skip : granShift curr (granMask k) with
      | none => exact congrArg some here
      | some shift => exact ih (by rw [here, cU64_add_shift le (granShift_le skip)])
    · rfl

theorem granScanBit_lt {granidx : Int} {rounds : Nat} :
    ∀ {b bit : Nat} {curr next : BitVec 32},
      granScanBit gran k granidx rounds b curr next = some bit → bit < 32 := by
  induction rounds with
  | zero =>
    intro b bit curr next found
    cases found
  | succ rounds ih =>
    intro b bit curr next found
    rw [granScanBit] at found
    split_ifs at found with inside full
    cases skip : granShift curr (granMask k) with
    | none =>
      rw [skip] at found
      cases found
      exact inside.1
    | some shift =>
      rw [skip] at found
      exact ih found

/-- Only the low 32 bits of a factor matter to a product of type `int`. -/
theorem cInt_mul_of_cU32 {x y : Int} (c : Int) (same : cU32 x = cU32 y) :
    cInt (x * c) = cInt (y * c) := by
  have congruent : x % 2 ^ 32 = y % 2 ^ 32 := by
    unfold cU32 at same
    omega
  unfold cInt
  rw [← Int.emod_bmod (x * c), ← Int.emod_bmod (y * c)]
  congr 1
  exact Int.ModEq.mul_right c congruent

/-- The granule that the search has reached, and the address it has computed for it. -/
theorem MmGran.foundAddr_add {granidx : Int} {bit : Nat} (aligned : cU32 granidx % 32 = 0)
    (low : bit < 32) :
    gran.foundAddr (cU32 granidx + bit) =
      cU64 (gran.heapstart + cInt (granidx * 2 ^ gran.log2gran) + bit * 2 ^ gran.log2gran) := by
  have word : (cU32 granidx + bit) / 32 * 32 = cU32 granidx := by omega
  have rest : (cU32 granidx + bit) % 32 = bit := by omega
  have same : cU32 (cU32 granidx : Nat) = cU32 granidx := by
    unfold cU32
    omega
  rw [MmGran.foundAddr, word, rest, cInt_mul_of_cU32 _ same]

/-- The outer loop returns the address it has for the granule it finds. -/
theorem granSearch_eq (le : gran.log2gran ≤ 26) (rounds : Nat) :
    ∀ {granidx : Int}, cU32 granidx % 32 = 0 →
      granSearch gran k rounds granidx =
        (granSearchRun gran k rounds granidx).map (Option.map gran.foundAddr) := by
  induction rounds with
  | zero =>
    intro granidx _
    rw [granSearch, granSearchRun]
    split_ifs <;> rfl
  | succ rounds ih =>
    intro granidx aligned
    have next_aligned : cU32 (cInt (granidx + 32)) % 32 = 0 := by
      rw [cU32_cInt]
      unfold cU32 at aligned ⊢
      omega
    rw [granSearch, granSearchRun]
    simp only
    split_ifs
    · exact ih next_aligned
    · rw [granScan_eq le granidx (gran.heapstart + cInt (granidx * 2 ^ gran.log2gran)) 33
        (by rw [Nat.cast_zero, Int.zero_mul, Int.add_zero])]
      cases scan : granScanBit gran k granidx 33 0 (gran.gat (granidx >>> (5 : Nat)))
          (gran.gat (granidx >>> (5 : Nat) + 1)) with
      | none => exact ih next_aligned
      | some bit =>
        rw [Option.map_some, ← MmGran.foundAddr_add aligned (granScanBit_lt scan)]
        rfl
    · rfl

end Address

section Loops

variable {gran : MmGran} {k : Nat}

theorem MmGran.Small.ngranules_lt (small : gran.Small) : gran.ngranules < 2 ^ 31 := by
  have span := small.span
  have pos : 0 < 2 ^ gran.log2gran := Nat.two_pow_pos _
  have le : gran.ngranules * 1 ≤ gran.ngranules * 2 ^ gran.log2gran :=
    Nat.mul_le_mul_left _ pos
  omega

theorem MmGran.Small.offset_lt (small : gran.Small) {i : Nat} (le : i ≤ gran.ngranules) :
    i * 2 ^ gran.log2gran < 2 ^ 31 :=
  lt_of_le_of_lt (Nat.mul_le_mul_right _ le) small.span

/-- No run starts at a granule whose bit in the window is set. -/
theorem WindowAt.not_fits {g b m : Nat} {curr next : BitVec 32}
    (window : WindowAt (fun i => gran.bit (g + i)) b curr next) (pos : 0 < k) (le : m ≤ 32)
    (taken : ∀ j < m, curr.getLsbD j = true) {i : Nat} (above : g + b ≤ i)
    (below : i < g + b + m) : ¬ gran.Fits k i := by
  apply MmGran.not_fits_of_bit pos
  rw [← taken (i - g - b) (by omega), window.curr_bit _ (by omega)]
  congr 1
  omega

theorem cU32_room {g b k : Nat} (small : g + b + k < 2 ^ 32) :
    cU32 ((g : Int) + b + k) = g + b + k := by
  rw [show (g + b + k : Int) = (g + b + k : Nat) by push_cast; rfl, cU32_natCast small]

/-- The inner loop finds the lowest fit that starts in the current table word. -/
theorem granScanBit_firstFit (pos : 0 < k) (le : k ≤ 32) {g : Nat} (low : g < 2 ^ 31) :
    ∀ (rounds b : Nat) {curr next : BitVec 32}, 32 < b + rounds →
      (b ≤ 32 → WindowAt (fun i => gran.bit (g + i)) b curr next) →
      gran.FirstFit k (g + b) (g + 32)
        ((granScanBit gran k g rounds b curr next).map (g + ·)) := by
  intro rounds
  induction rounds with
  | zero =>
    intro b curr next enough _ i above below
    omega
  | succ rounds ih =>
    intro b curr next enough window
    rw [granScanBit]
    split
    · next inside =>
      obtain ⟨inWord, room⟩ := inside
      have window := window (by omega)
      rw [cU32_room (by omega)] at room
      split
      · next ones =>
        -- every bit of the window is taken
        intro i above below
        exact window.not_fits pos le_rfl (fun j => getLsbD_eq_true_of_eq_ones ones) above
          (by omega)
      · rcases granShift_cases curr le with
          ⟨found, free⟩ | ⟨shift, skip, more, most, taken⟩ | ⟨skip, j, inRun, taken⟩
        · rw [found]
          show gran.FirstFit k (g + b) (g + 32) (some (g + b))
          refine ⟨le_rfl, by omega, ⟨room, fun j inRun => ?_⟩, fun j _ _ => by omega⟩
          rw [← free j inRun, window.curr_bit j (by omega), Nat.add_assoc]
        · rw [skip]
          refine (ih (b + shift) (by omega) fun inWord => window.shift (by omega) inWord).of_skip
            (fun i above below => ?_) (by omega)
          exact window.not_fits pos (by omega) taken above (by omega)
        · rw [skip]
          refine (ih (b + 1) (by omega) fun inWord => window.shift (by omega) inWord).of_skip
            (fun i above below => ?_) (by omega)
          intro fits
          have same : i = g + b := by omega
          have free := fits.2 j inRun
          rw [window.curr_bit j (by omega)] at taken
          rw [same, Nat.add_assoc, taken] at free
          cases free
    · next outside =>
      -- either all 32 positions were tried or the run would leave the heap
      intro i above below fits
      refine outside ⟨by omega, ?_⟩
      have room := fits.1
      rw [cU32_room (by omega)]
      omega

/-- At a word of the table that is full, no position fits, which is why the search skips it. -/
theorem MmGran.firstFit_of_full (pos : 0 < k) {g : Nat} (aligned : g % 32 = 0)
    (full : gran.gat (g / 32 : Nat) = BitVec.allOnes 32) : gran.FirstFit k g (g + 32) none := by
  intro i above below
  exact (gran.windowAt_zero aligned).not_fits pos le_rfl
    (fun j => getLsbD_eq_true_of_eq_ones full) above below

/-- `granidx >> 5`, as long as an `int` can count the granules. -/
theorem shiftRight_five (g : Nat) : (g : Int) >>> (5 : Nat) = (g / 32 : Nat) := by
  rw [Int.shiftRight_eq_div_pow]
  omega

/-- One round of the outer loop, below the granule numbers that an `int` cannot count: the
lowest fit that starts in the word of `g`, or the next round. -/
theorem granSearchRun_word (pos : 0 < k) (le : k ≤ 32) {g : Nat} (aligned : g % 32 = 0)
    (low : g < 2 ^ 31) (inHeap : g < gran.ngranules) (rounds : Nat) :
    ∃ result, gran.FirstFit k g (g + 32) result ∧
      granSearchRun gran k (rounds + 1) (cInt g) =
        match result with
        | some i => .ok (some i)
        | none => granSearchRun gran k rounds (cInt (g + 32 : Nat)) := by
  have granidx : cInt (g : Int) = g := cInt_natCast low
  have unsigned : cU32 (g : Int) = g := cU32_natCast (by omega)
  have window := gran.windowAt_zero aligned
  rw [granSearchRun, granidx, unsigned, if_pos inHeap]
  simp only [shiftRight_five, inHeap, if_true]
  by_cases full : gran.gat (g / 32 : Nat) = BitVec.allOnes 32
  · rw [if_pos full]
    exact ⟨none, MmGran.firstFit_of_full pos aligned full, rfl⟩
  · rw [if_neg full]
    have first := granScanBit_firstFit pos le low 33 0 (by omega) fun _ => window
    refine ⟨_, first, ?_⟩
    cases granScanBit gran k g 33 0 (gran.gat (g / 32 : Nat)) (gran.gat ((g / 32 : Nat) + 1)) with
    | none => rfl
    | some bit => rfl

/-- The lowest fit is found, if an `int` can count up to it. -/
theorem granSearchRun_some (pos : 0 < k) (le : k ≤ 32) {i : Nat} (low : i < 2 ^ 31)
    (rounds : Nat) :
    ∀ {g : Nat}, g % 32 = 0 → gran.ngranules ≤ g + 32 * rounds →
      gran.FirstFit k g gran.ngranules (some i) →
      granSearchRun gran k rounds (cInt g) = .ok (some i) := by
  induction rounds with
  | zero =>
    intro g _ enough first
    obtain ⟨above, below, -⟩ := first
    omega
  | succ rounds ih =>
    intro g aligned enough first
    have above := first.1
    have below := first.2.1
    have fits := first.2.2.1
    have least := first.2.2.2
    obtain ⟨result, word, step⟩ := granSearchRun_word pos le aligned (by omega)
      (show g < gran.ngranules by omega) rounds
    rw [step]
    cases result with
    | none => exact ih (by omega) (by omega) (first.after_skip word (by omega))
    | some j =>
      obtain ⟨from_g, -, jFits, jLeast⟩ := word
      have same : j = i := by
        rcases Nat.lt_trichotomy j i with lt | eq | gt
        · exact absurd jFits (least j from_g lt)
        · exact eq
        · exact absurd fits (jLeast i above gt)
      rw [same]

/-- Nothing is found in a heap that has no fit, if an `int` can count its granules. -/
theorem granSearchRun_none (pos : 0 < k) (le : k ≤ 32) (few : gran.ngranules ≤ 2 ^ 31)
    (rounds : Nat) :
    ∀ {g : Nat}, g % 32 = 0 → g < gran.ngranules + 32 → gran.ngranules ≤ g + 32 * rounds →
      gran.FirstFit k g gran.ngranules none →
      granSearchRun gran k rounds (cInt g) = .ok none := by
  induction rounds with
  | zero =>
    intro g _ near enough _
    rw [granSearchRun, cU32_cInt, cU32_natCast (by omega), if_neg (by omega)]
  | succ rounds ih =>
    intro g aligned near enough first
    by_cases inHeap : g < gran.ngranules
    · obtain ⟨result, word, step⟩ := granSearchRun_word pos le aligned (by omega) inHeap rounds
      rw [step]
      cases result with
      | none =>
        exact ih (by omega) (by omega) (by omega) (first.after_skip word (by omega))
      | some i =>
        obtain ⟨above, -, fits, -⟩ := word
        have room := fits.1
        exact absurd fits (first i above (by omega))
    · rw [granSearchRun, cU32_cInt, cU32_natCast (by omega), if_neg inHeap]

theorem MmGran.exists_firstFit (gran : MmGran) (k lo : Nat) :
    ∃ result, gran.FirstFit k lo gran.ngranules result := by
  classical
  by_cases some : ∃ i, lo ≤ i ∧ i < gran.ngranules ∧ gran.Fits k i
  · obtain ⟨above, below, fits⟩ := Nat.find_spec some
    refine ⟨.some (Nat.find some), above, below, fits, fun j from_lo before jFits => ?_⟩
    exact Nat.find_min some before ⟨from_lo, by omega, jFits⟩
  · exact ⟨none, fun i above below fits => some ⟨i, above, below, fits⟩⟩

/-- The table has a bit for every granule of the heap. -/
theorem le_sizeofGat (n : Nat) : n ≤ 0 + 32 * sizeofGat n := by
  simp only [sizeofGat, Nat.shiftRight_eq_div_pow]
  omega

theorem cInt_zero : cInt (0 : Nat) = 0 := by decide

/-- The whole search, when an `int` can count up to the lowest fit. -/
theorem granSearchRun_found (pos : 0 < k) (le : k ≤ 32) {i : Nat} (low : i < 2 ^ 31)
    (first : gran.FirstFit k 0 gran.ngranules (some i)) :
    granSearchRun gran k (sizeofGat gran.ngranules) 0 = .ok (some i) := by
  have run := granSearchRun_some pos le low _ (Nat.zero_mod 32) (le_sizeofGat _) first
  rwa [cInt_zero] at run

/-- The search is first fit in a heap whose granules an `int` can count. -/
theorem granSearchRun_firstFit (pos : 0 < k) (le : k ≤ 32) (few : gran.ngranules ≤ 2 ^ 31) :
    ∃ result, gran.FirstFit k 0 gran.ngranules result ∧
      granSearchRun gran k (sizeofGat gran.ngranules) 0 = .ok result := by
  obtain ⟨result, first⟩ := gran.exists_firstFit k 0
  refine ⟨result, first, ?_⟩
  cases result with
  | none =>
    have run := granSearchRun_none pos le few _ (Nat.zero_mod 32) (by omega) (le_sizeofGat _) first
    rwa [cInt_zero] at run
  | some i =>
    have below := first.2.1
    exact granSearchRun_found pos le (by omega) first

/-- The search has the address of a granule right if the offset of its table word is an `int`. -/
theorem MmGran.foundAddr_eq {i : Nat}
    (small : i / 32 * 32 * 2 ^ gran.log2gran < 2 ^ 31) : gran.foundAddr i = gran.addr i := by
  rw [MmGran.foundAddr, MmGran.addr_eq_word, natCast_mul_two_pow (i / 32 * 32),
    cInt_natCast small]

/-- In a small heap the search is first fit and returns the address of the fit. -/
theorem granSearch_firstFit (small : gran.Small) (pos : 0 < k) (le : k ≤ 32) :
    ∃ result, gran.FirstFit k 0 gran.ngranules result ∧
      granSearch gran k (sizeofGat gran.ngranules) 0 = .ok (result.map gran.addr) := by
  have few := small.ngranules_lt
  obtain ⟨result, first, run⟩ := granSearchRun_firstFit pos le (Nat.le_of_lt few)
  refine ⟨result, first, ?_⟩
  rw [granSearch_eq small.log2gran_le _ (by decide), run]
  cases result with
  | none => simp only [Except.map, Option.map_none]
  | some i =>
    have below := first.2.1
    have exact_offset := small.offset_lt (i := i / 32 * 32) (by omega)
    exact congrArg (fun a => Except.ok (some a)) (MmGran.foundAddr_eq exact_offset)

end Loops

end Chinos
