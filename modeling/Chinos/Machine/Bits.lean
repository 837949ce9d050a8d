import Mathlib.Tactic

/-!
# Bit tables

A bit table is an array of `w`-bit words read as one long bit string, lowest
bit of word 0 first. The lemmas here turn the masks C code builds out of
shifted all-ones words into statements about single bits.
-/

namespace Chinos

section Masks

variable {w : Nat}

/-- All ones shifted right leaves the `k` lowest bits. -/
theorem getLsbD_ones_ushiftRight {k : Nat} (fits : k ≤ w) (j : Nat) :
    (BitVec.allOnes w >>> (w - k)).getLsbD j = decide (j < k) := by
  rw [BitVec.getLsbD_ushiftRight, BitVec.getLsbD_allOnes]
  simp only [decide_eq_decide]
  omega

/-- All ones shifted left leaves the bits from `b` on. -/
theorem getLsbD_ones_shiftLeft (b j : Nat) :
    (BitVec.allOnes w <<< b).getLsbD j = decide (b ≤ j ∧ j < w) := by
  rw [BitVec.getLsbD_shiftLeft, BitVec.getLsbD_allOnes]
  by_cases low : j < b
  · simp only [low, decide_true, Bool.not_true, Bool.and_false, Bool.false_and]
    simp only [show ¬ (b ≤ j ∧ j < w) by omega, decide_false]
  · simp only [low, decide_false, Bool.not_false, Bool.and_true]
    by_cases high : j < w
    · simp only [high, decide_true, Bool.true_and, show b ≤ j by omega, and_self]
      simp only [show j - b < w by omega, decide_true]
    · simp only [high, decide_false, Bool.false_and, and_false]

/-- A one that is shifted left is a single bit, or nothing if it is shifted out. -/
theorem getLsbD_one_shiftLeft (b j : Nat) :
    (1#w <<< b).getLsbD j = decide (j = b ∧ j < w) := by
  rw [BitVec.getLsbD_shiftLeft, BitVec.getLsbD_one]
  by_cases inside : j < w
  · by_cases low : j < b
    · simp [inside, low, show j ≠ b by omega]
    · simp [inside, low, show 0 < w by omega, show j - b = 0 ↔ j = b by omega]
  · simp [inside]

/-- `x & mask == 0` says that `x` has none of the bits of `mask`. -/
theorem and_eq_zero_iff_getLsbD {x mask : BitVec w} :
    x &&& mask = 0#w ↔ ∀ j < w, mask.getLsbD j = true → x.getLsbD j = false := by
  constructor
  · intro none j inside set
    have bit := congrArg (fun v : BitVec w => v.getLsbD j) none
    simpa [set] using bit
  · intro clear
    apply BitVec.eq_of_getLsbD_eq
    intro j inside
    have bit := clear j inside
    cases set : mask.getLsbD j <;> simp_all

/-- `x & mask == mask` says that `x` has all bits of `mask`. -/
theorem and_eq_right_iff_getLsbD {x mask : BitVec w} :
    x &&& mask = mask ↔ ∀ j < w, mask.getLsbD j = true → x.getLsbD j = true := by
  constructor
  · intro all j inside set
    have bit := congrArg (fun v : BitVec w => v.getLsbD j) all
    simpa [set] using bit
  · intro full
    apply BitVec.eq_of_getLsbD_eq
    intro j inside
    have bit := full j inside
    cases set : mask.getLsbD j <;> simp_all

theorem getLsbD_eq_true_of_eq_ones {x : BitVec w} (ones : x = BitVec.allOnes w) {j : Nat}
    (inside : j < w) : x.getLsbD j = true := by
  rw [ones, BitVec.getLsbD_allOnes, decide_eq_true inside]

/-- Masking off the `k` lowest bits rounds down to a multiple of `2 ^ k`. -/
theorem toNat_and_ones_shiftLeft (x : BitVec w) (k : Nat) :
    (x &&& (BitVec.allOnes w <<< k)).toNat = x.toNat / 2 ^ k * 2 ^ k := by
  apply Nat.eq_of_testBit_eq
  intro j
  rw [BitVec.toNat_and, Nat.testBit_and, Nat.testBit_mul_two_pow, Nat.testBit_div_two_pow]
  simp only [BitVec.testBit_toNat, BitVec.getLsbD_shiftLeft, BitVec.getLsbD_allOnes]
  by_cases low : k ≤ j
  · by_cases high : j < w
    · simp [low, high, Nat.sub_add_cancel low, show ¬ j < k by omega, show j - k < w by omega]
    · simp [low, high, Nat.sub_add_cancel low, BitVec.getLsbD_of_ge x j (by omega)]
  · simp [low, show j < k by omega]

/-- Masking all but the `k` lowest bits is the remainder. -/
theorem toNat_and_ones_ushiftRight (x : BitVec w) {k : Nat} (fits : k ≤ w) :
    (x &&& (BitVec.allOnes w >>> (w - k))).toNat = x.toNat % 2 ^ k := by
  apply Nat.eq_of_testBit_eq
  intro j
  rw [BitVec.toNat_and, Nat.testBit_and, Nat.testBit_mod_two_pow]
  simp only [BitVec.testBit_toNat, BitVec.getLsbD_ushiftRight, BitVec.getLsbD_allOnes]
  rw [Bool.and_comm]
  congr 1
  simp only [decide_eq_decide]
  omega

theorem getLsbD_eq_false_of_mod {x : BitVec w} {k : Nat} (aligned : x.toNat % 2 ^ k = 0) {j : Nat}
    (low : j < k) : x.getLsbD j = false := by
  rw [← BitVec.testBit_toNat]
  have bit := congrArg (fun n => n.testBit j) aligned
  simpa [Nat.testBit_mod_two_pow, low] using bit

theorem getLsbD_eq_false_of_lt {x : BitVec w} {k : Nat} (small : x.toNat < 2 ^ k) {j : Nat}
    (high : k ≤ j) : x.getLsbD j = false := by
  rw [← BitVec.testBit_toNat]
  exact Nat.testBit_lt_two_pow (lt_of_lt_of_le small (Nat.pow_le_pow_right (by omega) high))

/-- Setting low bits of an aligned word adds them. -/
theorem toNat_or_of_aligned {x y : BitVec w} {k : Nat} (aligned : x.toNat % 2 ^ k = 0)
    (small : y.toNat < 2 ^ k) : (x ||| y).toNat = x.toNat + y.toNat := by
  rw [BitVec.toNat_or]
  obtain ⟨q, hq⟩ : ∃ q, x.toNat = 2 ^ k * q := Nat.dvd_of_mod_eq_zero aligned
  rw [hq, ← Nat.two_pow_add_eq_or_of_lt small]

end Masks

/-! ## Rounding -/

/-- The least multiple of `2 ^ k` that is not below `x`. -/
def roundUp (x k : Nat) : Nat := (x + (2 ^ k - 1)) / 2 ^ k * 2 ^ k

section Rounding

variable {x y k : Nat}

theorem roundUp_mod (x k : Nat) : roundUp x k % 2 ^ k = 0 := Nat.mul_mod_left _ _

theorem le_roundUp (x k : Nat) : x ≤ roundUp x k := by
  have pos := Nat.two_pow_pos k
  have split := Nat.div_add_mod (x + (2 ^ k - 1)) (2 ^ k)
  have lt := Nat.mod_lt (x + (2 ^ k - 1)) pos
  rw [Nat.mul_comm] at split
  unfold roundUp
  omega

theorem roundUp_least (le : x ≤ y) (multiple : y % 2 ^ k = 0) : roundUp x k ≤ y := by
  have pos := Nat.two_pow_pos k
  obtain ⟨q, rfl⟩ := Nat.dvd_of_mod_eq_zero multiple
  unfold roundUp
  rw [Nat.mul_comm (2 ^ k) q] at le ⊢
  refine Nat.mul_le_mul_right _ (Nat.lt_succ_iff.mp ?_)
  rw [Nat.div_lt_iff_lt_mul pos, Nat.succ_mul]
  omega

theorem roundUp_mono (le : x ≤ y) : roundUp x k ≤ roundUp y k :=
  roundUp_least (le.trans (le_roundUp y k)) (roundUp_mod y k)

end Rounding

end Chinos
