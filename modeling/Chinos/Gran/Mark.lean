import Chinos.Gran.Search

/-!
# Marking and clearing a run of granules

`granMarkAllocated` and `granFree` split a run of at most 32 granules over one or
two table words. Both change exactly the bits of the run and stop at an assertion
only when one of these bits has the wrong value.
-/

namespace Chinos

/-- The two heaps agree in the fields that no operation of the allocator writes. -/
structure MmGran.SameShape (gran gran' : MmGran) : Prop where
  log2gran : gran'.log2gran = gran.log2gran
  ngranules : gran'.ngranules = gran.ngranules
  heapstart : gran'.heapstart = gran.heapstart

theorem MmGran.SameShape.refl (gran : MmGran) : gran.SameShape gran := ⟨rfl, rfl, rfl⟩

theorem MmGran.SameShape.trans {a b c : MmGran} (first : a.SameShape b) (second : b.SameShape c) :
    a.SameShape c :=
  ⟨second.log2gran.trans first.log2gran, second.ngranules.trans first.ngranules,
    second.heapstart.trans first.heapstart⟩

theorem MmGran.SameShape.granNo {gran gran' : MmGran} (same : gran.SameShape gran')
    (memory : Nat) : granNo gran' memory = granNo gran memory := by
  rw [Chinos.granNo, Chinos.granNo, same.heapstart, same.log2gran]

theorem MmGran.sameShape_setGat (gran : MmGran) (index : Int) (word : BitVec 32) :
    gran.SameShape (gran.setGat index word) := ⟨rfl, rfl, rfl⟩

theorem MmGran.setGat_bit (gran : MmGran) (a : Nat) (word : BitVec 32) (j : Nat) :
    (gran.setGat a word).bit j =
      if j / 32 = a then word.getLsbD (j % 32) else gran.bit j := by
  simp only [MmGran.bit, MmGran.setGat, Nat.cast_inj]
  split <;> rfl

theorem MmGran.setGat_gat_ne (gran : MmGran) {a b : Int} (ne : b ≠ a) (word : BitVec 32) :
    (gran.setGat a word).gat b = gran.gat b := by
  simp [MmGran.setGat, ne]

/-- Bit `j` of a word of the table is the bit of granule `j` of those in the word. -/
theorem MmGran.gat_getLsbD (gran : MmGran) (a : Nat) {j : Nat} (low : j < 32) :
    (gran.gat a).getLsbD j = gran.bit (32 * a + j) := by
  simp only [MmGran.bit]
  rw [show (32 * a + j) / 32 = a by omega, show (32 * a + j) % 32 = j by omega]

/-! ## Masks of a run -/

section RunMasks

variable {i k : Nat}

/-- Bit `j` of the whole-table mask of the run of `k` granules at `i`. -/
def runBit (i k j : Nat) : Bool := decide (i ≤ j ∧ j < i + k)

/-- The part of the run in its first word, when it ends there. -/
theorem getLsbD_mask_single (small : k ≤ 32) {j : Nat}
    (word : j / 32 = i / 32) :
    (granMask k <<< (i % 32)).getLsbD (j % 32) = runBit i k j := by
  rw [BitVec.getLsbD_shiftLeft, getLsbD_granMask small]
  simp only [show j % 32 < 32 by omega, decide_true, Bool.true_and, runBit]
  by_cases low : j % 32 < i % 32
  · simp only [low, decide_true, Bool.not_true, Bool.false_and]
    simp only [show ¬ (i ≤ j ∧ j < i + k) by omega, decide_false]
  · simp only [low, decide_false, Bool.not_false, Bool.true_and, decide_eq_decide]
    omega

/-- The part of the run in its first word, when it goes on in the second. -/
theorem getLsbD_mask_first (gt : 32 - i % 32 < k) {j : Nat} (word : j / 32 = i / 32) :
    (BitVec.allOnes 32 <<< (i % 32)).getLsbD (j % 32) = runBit i k j := by
  rw [getLsbD_ones_shiftLeft, runBit, decide_eq_decide]
  omega

/-- The part of the run in its second word. -/
theorem getLsbD_mask_second (gt : 32 - i % 32 < k) (small : k ≤ 32) {j : Nat}
    (word : j / 32 = i / 32 + 1) :
    (granMask (k - (32 - i % 32))).getLsbD (j % 32) = runBit i k j := by
  rw [getLsbD_granMask (by omega), runBit, decide_eq_decide]
  omega

end RunMasks

/-! ## Marking -/

section Mark

variable {gran : MmGran} {alloc i k : Nat}

/-- The mask of the run in one word meets no taken granule. -/
theorem and_eq_zero_of_freeRun (free : gran.FreeRun i k) (a : Nat) {mask : BitVec 32}
    (isRun : ∀ j, j / 32 = a → mask.getLsbD (j % 32) = runBit i k j) :
    gran.gat a &&& mask = 0 := by
  refine and_eq_zero_iff_getLsbD.mpr fun j low set => ?_
  rw [gran.gat_getLsbD a low]
  have run : i ≤ 32 * a + j ∧ 32 * a + j < i + k := by
    have same := isRun (32 * a + j) (by omega)
    rw [show (32 * a + j) % 32 = j by omega, set] at same
    exact of_decide_eq_true same.symm
  have clear := free (32 * a + j - i) (by omega)
  rwa [show i + (32 * a + j - i) = 32 * a + j by omega] at clear

/-- A free run is marked: no assertion fails and exactly its bits become set. -/
theorem granMarkAllocated_spec (granno : granNo gran alloc = i) (small : k ≤ 32)
    (free : gran.FreeRun i k) :
    ∃ gran', granMarkAllocated gran alloc k = .ok gran' ∧ gran.SameShape gran' ∧
      ∀ j, gran'.bit j = (gran.bit j || runBit i k j) := by
  unfold granMarkAllocated
  simp only [granno, Nat.shiftRight_eq_div_pow, Nat.reducePow]
  by_cases split : k > 32 - i % 32
  · simp only [split, if_true]
    have first : gran.gat (i / 32 : Nat) &&& BitVec.allOnes 32 <<< (i % 32) = 0 :=
      and_eq_zero_of_freeRun free _ fun j word => getLsbD_mask_first split word
    rw [require_bind_of_pos first]
    have other : ((i / 32 : Nat) + 1 : Int) ≠ (i / 32 : Nat) := by omega
    have second : gran.gat ((i / 32 : Nat) + 1) &&& granMask (k - (32 - i % 32)) = 0 :=
      and_eq_zero_of_freeRun free (i / 32 + 1) fun j word => getLsbD_mask_second split small word
    rw [MmGran.setGat_gat_ne _ other, require_bind_of_pos second]
    refine ⟨_, rfl, (gran.sameShape_setGat _ _).trans (MmGran.sameShape_setGat _ _ _),
      fun j => ?_⟩
    rw [show ((i / 32 : Nat) + 1 : Int) = (i / 32 + 1 : Nat) by push_cast; rfl,
      MmGran.setGat_bit, MmGran.setGat_bit]
    split_ifs with inSecond inFirst
    · rw [BitVec.getLsbD_or, getLsbD_mask_second split small inSecond, MmGran.bit, inSecond]
    · rw [BitVec.getLsbD_or, getLsbD_mask_first split inFirst, MmGran.bit, inFirst]
    · rw [runBit, decide_eq_false (by omega), Bool.or_false]
  · simp only [split, if_false]
    have single : gran.gat (i / 32 : Nat) &&& granMask k <<< (i % 32) = 0 :=
      and_eq_zero_of_freeRun free _ fun j word => getLsbD_mask_single small word
    rw [require_bind_of_pos single]
    refine ⟨_, rfl, gran.sameShape_setGat _ _, fun j => ?_⟩
    rw [MmGran.setGat_bit]
    split_ifs with inWord
    · rw [BitVec.getLsbD_or, getLsbD_mask_single small inWord, MmGran.bit, inWord]
    · rw [runBit, decide_eq_false (by omega), Bool.or_false]

end Mark

/-! ## Clearing -/

section Free

variable {gran : MmGran} {memory size i k : Nat}

/-- The mask of a taken run in one word is fully present. -/
theorem and_eq_right_of_usedRun (used : ∀ j < k, gran.bit (i + j) = true) (a : Nat)
    {mask : BitVec 32} (isRun : ∀ j, j / 32 = a → mask.getLsbD (j % 32) = runBit i k j) :
    gran.gat a &&& mask = mask := by
  refine and_eq_right_iff_getLsbD.mpr fun j low set => ?_
  rw [gran.gat_getLsbD a low]
  have run : i ≤ 32 * a + j ∧ 32 * a + j < i + k := by
    have same := isRun (32 * a + j) (by omega)
    rw [show (32 * a + j) % 32 = j by omega, set] at same
    exact of_decide_eq_true same.symm
  have taken := used (32 * a + j - i) (by omega)
  rwa [show i + (32 * a + j - i) = 32 * a + j by omega] at taken

/-- A taken run is cleared: no assertion fails and exactly its bits become zero. -/
theorem granFree_spec (nonNull : memory ≠ 0) (limit : size ≤ granLimit gran.log2gran)
    (granno : granNo gran memory = i) (count : granFreeCount gran.log2gran size = k)
    (small : k ≤ 32) (used : ∀ j < k, gran.bit (i + j) = true) :
    ∃ gran', granFree gran memory size = .ok gran' ∧ gran.SameShape gran' ∧
      ∀ j, gran'.bit j = (gran.bit j && !runBit i k j) := by
  unfold granFree
  rw [require_bind_of_pos ⟨nonNull, limit⟩]
  simp only [granno, count, Nat.shiftRight_eq_div_pow, Nat.reducePow]
  by_cases split : k > 32 - i % 32
  · simp only [split, if_true]
    have first : gran.gat (i / 32 : Nat) &&& BitVec.allOnes 32 <<< (i % 32) =
        BitVec.allOnes 32 <<< (i % 32) :=
      and_eq_right_of_usedRun used _ fun j word => getLsbD_mask_first split word
    rw [require_bind_of_pos first]
    have other : ((i / 32 : Nat) + 1 : Int) ≠ (i / 32 : Nat) := by omega
    have second : gran.gat ((i / 32 : Nat) + 1) &&& granMask (k - (32 - i % 32)) =
        granMask (k - (32 - i % 32)) :=
      and_eq_right_of_usedRun used (i / 32 + 1) fun j word => getLsbD_mask_second split small word
    rw [MmGran.setGat_gat_ne _ other, require_bind_of_pos second]
    refine ⟨_, rfl, (gran.sameShape_setGat _ _).trans (MmGran.sameShape_setGat _ _ _),
      fun j => ?_⟩
    rw [show ((i / 32 : Nat) + 1 : Int) = (i / 32 + 1 : Nat) by push_cast; rfl,
      MmGran.setGat_bit, MmGran.setGat_bit]
    have low : j % 32 < 32 := by omega
    split_ifs with inSecond inFirst
    · rw [BitVec.getLsbD_and, BitVec.getLsbD_not, getLsbD_mask_second split small inSecond,
        MmGran.bit, inSecond, decide_eq_true low, Bool.true_and]
    · rw [BitVec.getLsbD_and, BitVec.getLsbD_not, getLsbD_mask_first split inFirst,
        MmGran.bit, inFirst, decide_eq_true low, Bool.true_and]
    · rw [runBit, decide_eq_false (by omega), Bool.not_false, Bool.and_true]
  · simp only [split, if_false]
    have single : gran.gat (i / 32 : Nat) &&& granMask k <<< (i % 32) =
        granMask k <<< (i % 32) :=
      and_eq_right_of_usedRun used _ fun j word => getLsbD_mask_single small word
    rw [require_bind_of_pos single]
    refine ⟨_, rfl, gran.sameShape_setGat _ _, fun j => ?_⟩
    rw [MmGran.setGat_bit]
    have low : j % 32 < 32 := by omega
    split_ifs with inWord
    · rw [BitVec.getLsbD_and, BitVec.getLsbD_not, getLsbD_mask_single small inWord,
        MmGran.bit, inWord, decide_eq_true low, Bool.true_and]
    · rw [runBit, decide_eq_false (by omega), Bool.not_false, Bool.and_true]

end Free

end Chinos
