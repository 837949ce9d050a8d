import Chinos.Machine.Bits
import Chinos.Sched.Model

/-!
# The priority bitmap and its group byte

What setting and clearing a priority does to the two levels of the bitmap, and why
two table lookups find the smallest priority whose bit is set.
-/

namespace Chinos

/-- The table holds the number of the lowest set bit. -/
theorem mapOf_spec (byte : BitVec 8) (ne : byte ≠ 0) :
    byte.getLsbD (mapOf byte) = true ∧ mapOf byte < 8 ∧
      ∀ j < mapOf byte, byte.getLsbD j = false := by
  have all : ∀ b : Fin 256, BitVec.ofFin b ≠ (0 : BitVec 8) →
      (BitVec.ofFin b : BitVec 8).getLsbD (mapOf (BitVec.ofFin b)) = true ∧
        mapOf (BitVec.ofFin b) < 8 ∧
        ∀ j < mapOf (BitVec.ofFin b), (BitVec.ofFin b : BitVec 8).getLsbD j = false := by
    decide +kernel
  exact all byte.toFin ne

section Bitmap

variable {T : Type} {s : Sched T} {p p' : Priority}

/-- The bit of priority `p` is set, in the byte of `g_priority_bitmap` that it belongs to. -/
def Sched.Bit (s : Sched T) (p : Priority) : Prop :=
  (s.bitmap (p.val / 8)).getLsbD (p.val % 8) = true

/-- Group bit `g` is set iff byte `g` of the bitmap is not zero. -/
def Sched.GroupOk (s : Sched T) : Prop :=
  ∀ g, s.group.getLsbD g = true ↔ g < 4 ∧ s.bitmap g ≠ 0

theorem ne_zero_of_bit {byte : BitVec 8} {j : Nat} (set : byte.getLsbD j = true) : byte ≠ 0 := by
  rintro rfl
  simp at set

theorem raise_eq (s : Sched T) (p : Priority) :
    s.raise p = { s with
      group := s.group ||| 1#8 <<< (p.val / 8)
      bitmap := Function.update s.bitmap (p.val / 8)
        (s.bitmap (p.val / 8) ||| 1#8 <<< (p.val % 8)) } := by
  have small := p.isLt
  unfold Sched.raise
  exact if_neg (by omega)

theorem bit_raise_iff : (s.raise p).Bit p' ↔ p' = p ∨ s.Bit p' := by
  rw [raise_eq]
  unfold Sched.Bit
  simp only [Function.update_apply]
  by_cases sameByte : p'.val / 8 = p.val / 8
  · rw [if_pos sameByte, BitVec.getLsbD_or, getLsbD_one_shiftLeft, ← sameByte, Bool.or_eq_true,
      decide_eq_true_iff, Fin.ext_iff]
    constructor
    · rintro (old | ⟨sameBit, -⟩)
      · exact .inr old
      · exact .inl (by omega)
    · rintro (same | old)
      · exact .inr ⟨by omega, by omega⟩
      · exact .inl old
  · rw [if_neg sameByte, Fin.ext_iff]
    exact ⟨.inr, fun h => h.resolve_left (by omega)⟩

theorem groupOk_raise (ok : s.GroupOk) : (s.raise p).GroupOk := by
  have small := p.isLt
  rw [raise_eq]
  intro g
  simp only [Function.update_apply]
  rw [BitVec.getLsbD_or, getLsbD_one_shiftLeft, Bool.or_eq_true, decide_eq_true_iff, ok g]
  by_cases here : g = p.val / 8
  · subst here
    rw [if_pos rfl]
    have set : (s.bitmap (p.val / 8) ||| 1#8 <<< (p.val % 8)).getLsbD (p.val % 8) = true := by
      rw [BitVec.getLsbD_or, getLsbD_one_shiftLeft, decide_eq_true ⟨rfl, by omega⟩, Bool.or_true]
    exact ⟨fun _ => ⟨by omega, ne_zero_of_bit set⟩, fun _ => .inr ⟨rfl, by omega⟩⟩
  · rw [if_neg here]
    exact ⟨fun h => h.resolve_right (fun same => here same.1), .inl⟩

/-- The two lookups find the smallest priority whose bit is set. -/
theorem selectPriority_spec (ok : s.GroupOk) (some : s.Bit p) :
    ∃ least, selectPriority s = .ok least ∧ s.Bit least ∧ ∀ p', s.Bit p' → least ≤ p' := by
  have small := p.isLt
  have groupBit : ∀ p' : Priority, s.Bit p' → s.group.getLsbD (p'.val / 8) = true := by
    intro p' set
    have small' := p'.isLt
    exact (ok _).mpr ⟨by omega, ne_zero_of_bit set⟩
  obtain ⟨rowSet, -, rowLeast⟩ := mapOf_spec s.group (ne_zero_of_bit (groupBit p some))
  obtain ⟨rowSmall, byteNe⟩ := (ok _).mp rowSet
  obtain ⟨colSet, colSmall, colLeast⟩ := mapOf_spec _ byteNe
  have fits : mapOf s.group * 8 + mapOf (s.bitmap (mapOf s.group)) < 32 := by omega
  refine ⟨⟨_, fits⟩, ?_, ?_, ?_⟩
  · unfold selectPriority
    simp only [require_bind_of_pos rowSmall, dif_pos fits]
    rfl
  · unfold Sched.Bit
    simp only
    rw [show (mapOf s.group * 8 + mapOf (s.bitmap (mapOf s.group))) / 8 = mapOf s.group by omega,
      show (mapOf s.group * 8 + mapOf (s.bitmap (mapOf s.group))) % 8 =
        mapOf (s.bitmap (mapOf s.group)) by omega]
    exact colSet
  · intro p' set
    have rowLe : mapOf s.group ≤ p'.val / 8 := by
      by_contra less
      have clear := rowLeast (p'.val / 8) (by omega)
      rw [groupBit p' set] at clear
      cases clear
    have le : mapOf s.group * 8 + mapOf (s.bitmap (mapOf s.group)) ≤ p'.val := by
      by_cases sameRow : p'.val / 8 = mapOf s.group
      · have colLe : mapOf (s.bitmap (mapOf s.group)) ≤ p'.val % 8 := by
          by_contra less
          have clear := colLeast (p'.val % 8) (by omega)
          unfold Sched.Bit at set
          rw [sameRow, clear] at set
          cases set
        omega
      · omega
    exact le

/-- The lookups stay inside their tables, also when no bit is set. -/
theorem selectPriority_ok (ok : s.GroupOk) : ∃ p, selectPriority s = .ok p := by
  have colSmall : ∀ byte, mapOf byte < 8 := by
    intro byte
    by_cases zero : byte = 0
    · rw [zero]
      decide
    · exact (mapOf_spec byte zero).2.1
  have rowSmall : mapOf s.group < 4 := by
    by_cases zero : s.group = 0
    · rw [zero]
      decide
    · exact ((ok _).mp (mapOf_spec s.group zero).1).1
  have := colSmall (s.bitmap (mapOf s.group))
  have fits : mapOf s.group * 8 + mapOf (s.bitmap (mapOf s.group)) < 32 := by omega
  refine ⟨⟨_, fits⟩, ?_⟩
  unfold selectPriority
  simp only [require_bind_of_pos rowSmall, dif_pos fits]
  rfl

variable [DecidableEq T]

theorem lower_of_busy (busy : s.links.isEmpty (.ready p) = false) : s.lower p = s := by
  unfold Sched.lower
  simp [busy]

/-- The state after the bit of an empty queue has been dropped. -/
theorem lower_of_empty (empty : s.links.isEmpty (.ready p) = true) :
    s.lower p = { s with
      bitmap := Function.update s.bitmap (p.val / 8)
        (s.bitmap (p.val / 8) &&& ~~~(1#8 <<< (p.val % 8)))
      group := if s.bitmap (p.val / 8) &&& ~~~(1#8 <<< (p.val % 8)) = 0 then
        s.group &&& ~~~(1#8 <<< (p.val / 8)) else s.group } := by
  unfold Sched.lower
  simp only [empty, if_true]
  split <;> rfl

theorem bit_lower_iff (empty : s.links.isEmpty (.ready p) = true) :
    (s.lower p).Bit p' ↔ p' ≠ p ∧ s.Bit p' := by
  rw [lower_of_empty empty]
  unfold Sched.Bit
  simp only [Function.update_apply]
  by_cases sameByte : p'.val / 8 = p.val / 8
  · rw [if_pos sameByte, BitVec.getLsbD_and, BitVec.getLsbD_not, getLsbD_one_shiftLeft, ← sameByte,
      ne_eq, Fin.ext_iff, show decide (p'.val % 8 < 8) = true from decide_eq_true (by omega)]
    simp only [Bool.true_and, Bool.and_eq_true, Bool.not_eq_true', decide_eq_false_iff_not]
    constructor
    · rintro ⟨old, other⟩
      exact ⟨by omega, old⟩
    · rintro ⟨ne, old⟩
      exact ⟨old, by omega⟩
  · rw [if_neg sameByte, ne_eq, Fin.ext_iff]
    exact ⟨fun old => ⟨by omega, old⟩, fun both => both.2⟩

theorem groupOk_lower (ok : s.GroupOk) : (s.lower p).GroupOk := by
  have small := p.isLt
  cases empty : s.links.isEmpty (.ready p) with
  | false =>
    rw [lower_of_busy empty]
    exact ok
  | true =>
    rw [lower_of_empty empty]
    intro g
    simp only [Function.update_apply]
    by_cases here : g = p.val / 8
    · subst here
      rw [if_pos rfl]
      by_cases zero : s.bitmap (p.val / 8) &&& ~~~(1#8 <<< (p.val % 8)) = 0
      · rw [if_pos zero, BitVec.getLsbD_and, BitVec.getLsbD_not, getLsbD_one_shiftLeft]
        simp [zero]
      · rw [if_neg zero, ok]
        have old : s.bitmap (p.val / 8) ≠ 0 := by
          intro isZero
          rw [isZero] at zero
          simp at zero
        exact ⟨fun h => ⟨h.1, zero⟩, fun h => ⟨h.1, old⟩⟩
    · rw [if_neg here]
      split
      · rw [BitVec.getLsbD_and, BitVec.getLsbD_not, getLsbD_one_shiftLeft, Bool.and_eq_true, ok g]
        have other : decide (g = p.val / 8 ∧ g < 8) = false := decide_eq_false (fun h => here h.1)
        rw [other]
        simp only [Bool.not_false, Bool.and_true, decide_eq_true_iff]
        exact ⟨fun h => h.1, fun h => ⟨h, by omega⟩⟩
      · exact ok g

end Bitmap

end Chinos
