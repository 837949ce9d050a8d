import Mathlib.Tactic

/-!
# Byte-addressed memory

Memory is a total map from addresses to bytes. A 64-bit access reads or writes
eight bytes, lowest byte first. Every store changes only the bytes it covers, so a
fact about memory survives a store that misses the bytes it depends on.
-/

namespace Chinos

/-- Memory, as the byte at each address. -/
abbrev Mem := Nat → BitVec 8

namespace Mem

/-- The two memories agree on `[a, a + n)`. -/
def AgreeOn (m m' : Mem) (a n : Nat) : Prop := ∀ x, a ≤ x → x < a + n → m' x = m x

/-- A little-endian load of the 64 bits at address `a`. -/
def load64 (m : Mem) (a : Nat) : BitVec 64 :=
  BitVec.ofNat 64 ((m a).toNat + (m (a + 1)).toNat * 2 ^ 8 + (m (a + 2)).toNat * 2 ^ 16 +
    (m (a + 3)).toNat * 2 ^ 24 + (m (a + 4)).toNat * 2 ^ 32 + (m (a + 5)).toNat * 2 ^ 40 +
    (m (a + 6)).toNat * 2 ^ 48 + (m (a + 7)).toNat * 2 ^ 56)

/-- A little-endian store of 64 bits at address `a`. -/
def store64 (m : Mem) (a : Nat) (v : BitVec 64) : Mem := fun x =>
  if a ≤ x ∧ x < a + 8 then BitVec.ofNat 8 (v.toNat / 2 ^ (8 * (x - a))) else m x

/-- The little-endian value of the `n` bytes from `a` on. -/
def loadLe (m : Mem) (a : Nat) : Nat → Nat
  | 0 => 0
  | n + 1 => (m a).toNat + 2 ^ 8 * m.loadLe (a + 1) n

/-- A little-endian store of the low `bytes` bytes of `v` at address `a`. -/
def storeLe {w : Nat} (m : Mem) (a bytes : Nat) (v : BitVec w) : Mem := fun x =>
  if a ≤ x ∧ x < a + bytes then v.extractLsb' (8 * (x - a)) 8 else m x

/-- Write the byte `c` to `[a, a + n)`. -/
def fill (m : Mem) (a n : Nat) (c : BitVec 8) : Mem := fun x =>
  if a ≤ x ∧ x < a + n then c else m x

/-- Write `n` bytes of `src` to `[a, a + n)`. -/
def blit (m : Mem) (a n : Nat) (src : Nat → BitVec 8) : Mem := fun x =>
  if a ≤ x ∧ x < a + n then src (x - a) else m x

section Loads

variable {m m' : Mem} {a b n : Nat} {v : BitVec 64}

theorem AgreeOn.refl (m : Mem) (a n : Nat) : m.AgreeOn m a n := fun _ _ _ => rfl

theorem AgreeOn.mono {a' n' : Nat} (agree : m.AgreeOn m' a n) (low : a ≤ a')
    (high : a' + n' ≤ a + n) : m.AgreeOn m' a' n' :=
  fun x above below => agree x (by omega) (by omega)

theorem load64_congr (agree : m.AgreeOn m' a 8) : m'.load64 a = m.load64 a := by
  unfold load64
  rw [agree a (by omega) (by omega), agree (a + 1) (by omega) (by omega),
    agree (a + 2) (by omega) (by omega), agree (a + 3) (by omega) (by omega),
    agree (a + 4) (by omega) (by omega), agree (a + 5) (by omega) (by omega),
    agree (a + 6) (by omega) (by omega), agree (a + 7) (by omega) (by omega)]

theorem store64_of_outside {x : Nat} (outside : x < a ∨ a + 8 ≤ x) :
    m.store64 a v x = m x := by
  unfold store64
  exact if_neg (by omega)

theorem agreeOn_store64 (apart : b + n ≤ a ∨ a + 8 ≤ b) :
    m.AgreeOn (m.store64 a v) b n :=
  fun x low high => store64_of_outside (by omega)

/-- A load that misses a store reads the old value. -/
theorem load64_store64_ne (apart : b + 8 ≤ a ∨ a + 8 ≤ b) :
    (m.store64 a v).load64 b = m.load64 b :=
  load64_congr (agreeOn_store64 apart)

theorem store64_byte {i : Nat} (inside : i < 8) :
    (m.store64 a v (a + i)).toNat = v.toNat / 2 ^ (8 * i) % 256 := by
  unfold store64
  rw [if_pos (by omega), BitVec.toNat_ofNat, Nat.add_sub_cancel_left]

/-- A load of the stored word reads it back. -/
@[simp] theorem load64_store64_same : (m.store64 a v).load64 a = v := by
  apply BitVec.eq_of_toNat_eq
  unfold load64
  have byte := fun i inside => @store64_byte m a v i inside
  have b0 := byte 0 (by omega)
  rw [Nat.add_zero] at b0
  rw [b0, byte 1 (by omega), byte 2 (by omega), byte 3 (by omega), byte 4 (by omega),
    byte 5 (by omega), byte 6 (by omega), byte 7 (by omega), BitVec.toNat_ofNat]
  have bound := v.isLt
  omega

theorem fill_of_outside {c : BitVec 8} {x : Nat} (outside : x < a ∨ a + n ≤ x) :
    m.fill a n c x = m x := by
  unfold fill
  exact if_neg (by omega)

theorem fill_of_inside {c : BitVec 8} {x : Nat} (low : a ≤ x) (high : x < a + n) :
    m.fill a n c x = c := by
  unfold fill
  exact if_pos ⟨low, high⟩

/-- Eight bytes that are zero are loaded as zero. -/
theorem load64_eq_zero (zero : ∀ x, a ≤ x → x < a + 8 → m x = 0) : m.load64 a = 0 := by
  unfold load64
  rw [zero a (by omega) (by omega), zero (a + 1) (by omega) (by omega),
    zero (a + 2) (by omega) (by omega), zero (a + 3) (by omega) (by omega),
    zero (a + 4) (by omega) (by omega), zero (a + 5) (by omega) (by omega),
    zero (a + 6) (by omega) (by omega), zero (a + 7) (by omega) (by omega)]
  rfl

theorem blit_of_outside {src : Nat → BitVec 8} {x : Nat} (outside : x < a ∨ a + n ≤ x) :
    m.blit a n src x = m x := by
  unfold blit
  exact if_neg (by omega)

theorem blit_of_inside {src : Nat → BitVec 8} {x : Nat} (low : a ≤ x) (high : x < a + n) :
    m.blit a n src x = src (x - a) := by
  unfold blit
  exact if_pos ⟨low, high⟩

theorem loadLe_congr (agree : m.AgreeOn m' a n) : m'.loadLe a n = m.loadLe a n := by
  induction n generalizing a with
  | zero => rfl
  | succ n ih =>
    unfold loadLe
    rw [agree a (by omega) (by omega), ih (agree.mono (by omega) (by omega))]

/-- The value of bytes that are those of `x`. -/
theorem loadLe_of_bytes {x : Nat}
    (bytes : ∀ i < n, (m (a + i)).toNat = x / 2 ^ (8 * i) % 2 ^ 8) :
    m.loadLe a n = x % 2 ^ (8 * n) := by
  induction n generalizing a x with
  | zero => simp [loadLe, Nat.mod_one]
  | succ n ih =>
    have first := bytes 0 (by omega)
    rw [Nat.add_zero, Nat.mul_zero, pow_zero, Nat.div_one] at first
    have rest : m.loadLe (a + 1) n = x / 2 ^ 8 % 2 ^ (8 * n) := by
      refine ih fun i inside => ?_
      rw [Nat.add_assoc, Nat.add_comm 1 i, bytes (i + 1) (by omega), Nat.div_div_eq_div_mul,
        ← pow_add, Nat.mul_add, Nat.add_comm (8 * i)]
    unfold loadLe
    rw [first, rest, Nat.mul_add, Nat.add_comm (8 * n), pow_add, Nat.mod_mul]

theorem storeLe_of_outside {w k x : Nat} {v : BitVec w} (outside : x < a ∨ a + k ≤ x) :
    m.storeLe a k v x = m x := by
  unfold storeLe
  exact if_neg (by omega)

theorem agreeOn_storeLe {w k : Nat} {v : BitVec w} (apart : b + n ≤ a ∨ a + k ≤ b) :
    m.AgreeOn (m.storeLe a k v) b n :=
  fun x low high => storeLe_of_outside (by omega)

/-- A load of the stored bytes reads them back. -/
theorem loadLe_storeLe {w k : Nat} {v : BitVec w} :
    (m.storeLe a k v).loadLe a k = v.toNat % 2 ^ (8 * k) := by
  refine loadLe_of_bytes fun i inside => ?_
  unfold storeLe
  rw [if_pos (by omega), Nat.add_sub_cancel_left, BitVec.extractLsb'_toNat,
    Nat.shiftRight_eq_div_pow]

end Loads

end Mem

end Chinos
