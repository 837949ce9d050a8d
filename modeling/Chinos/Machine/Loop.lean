import Mathlib.Tactic

/-!
# Counting loops

`for (i = start; i < stop; i += step)` runs its body on the values of `countUp`, one
after the other. A loop whose turn `i` writes the block of `step` cells that `i` is in
writes every cell between its bounds once (`foldl_writeBlock`).
-/

namespace Chinos

/-- The values that `i` takes in `for (i = start; i < stop; i += step)`. -/
def countUp (start stop step : Nat) : List Nat :=
  List.range' start ((stop - start + step - 1) / step) step

theorem mem_countUp {start stop step i : Nat} (pos : 0 < step) :
    i ∈ countUp start stop step ↔ i < stop ∧ ∃ k, i = start + step * k := by
  unfold countUp
  rw [List.mem_range']
  constructor
  · rintro ⟨k, turn, rfl⟩
    refine ⟨?_, k, rfl⟩
    have full := (Nat.le_div_iff_mul_le pos).mp (Nat.succ_le_of_lt turn)
    rw [Nat.succ_mul, Nat.mul_comm k] at full
    omega
  · rintro ⟨below, k, rfl⟩
    refine ⟨k, ?_, rfl⟩
    refine Nat.lt_of_succ_le ((Nat.le_div_iff_mul_le pos).mpr ?_)
    rw [Nat.succ_mul, Nat.mul_comm k]
    omega

/-- A loop that changes one part of the state is a loop on that part. -/
theorem foldl_part {S C ι : Type} {body : S → ι → S} {l : List ι} (put : C → S)
    (part : C → ι → C) (turn : ∀ c, ∀ i ∈ l, body (put c) i = put (part c i)) (c : C) :
    l.foldl body (put c) = put (l.foldl part c) := by
  induction l generalizing c with
  | nil => rfl
  | cons i l ih =>
    rw [List.foldl_cons, List.foldl_cons, turn c i (.head _)]
    exact ih (fun c j inside => turn c j (.tail _ inside)) (part c i)

section Blocks

variable {α : Type} {step : Nat}

/-- One turn of a loop over blocks of `step` cells: each cell of the block of `i` is
replaced by `f` of its index and its content. -/
def writeBlock (step : Nat) (f : Nat → α → α) (cells : Nat → α) (i : Nat) : Nat → α :=
  fun j => if j / step = i / step then f j (cells j) else cells j

theorem foldl_writeBlock_range' (pos : 0 < step) (f : Nat → α → α) (cells : Nat → α)
    (first turns : Nat) :
    (List.range' (first * step) turns step).foldl (writeBlock step f) cells =
      fun j => if first * step ≤ j ∧ j < (first + turns) * step then f j (cells j)
        else cells j := by
  induction turns with
  | zero =>
    funext j
    exact (if_neg (by rw [Nat.add_zero]; omega)).symm
  | succ turns ih =>
    rw [List.range'_concat, List.foldl_append, ih]
    funext j
    simp only [List.foldl_cons, List.foldl_nil, writeBlock]
    rw [show first * step + step * turns = (first + turns) * step by
      rw [Nat.add_mul, Nat.mul_comm step], Nat.mul_div_cancel _ pos]
    have more : (first + (turns + 1)) * step = (first + turns) * step + step := by
      rw [← Nat.add_assoc, Nat.succ_mul]
    have least : first * step ≤ (first + turns) * step :=
      Nat.mul_le_mul_right _ (Nat.le_add_right _ _)
    by_cases here : j / step = first + turns
    · obtain ⟨low, high⟩ := (Nat.div_eq_iff pos).mp here
      rw [if_pos here, if_neg (by omega), if_pos (by omega)]
    · rw [if_neg here]
      have apart : ¬ ((first + turns) * step ≤ j ∧ j < (first + turns) * step + step) := by
        rintro ⟨low, high⟩
        exact here ((Nat.div_eq_iff pos).mpr ⟨low, by omega⟩)
      exact if_congr (by omega) rfl rfl

/-- A loop over whole blocks writes each cell between its bounds once. -/
theorem foldl_writeBlock (pos : 0 < step) (f : Nat → α → α) (cells : Nat → α) {start stop : Nat}
    (first : step ∣ start) (last : step ∣ stop) :
    (countUp start stop step).foldl (writeBlock step f) cells =
      fun j => if start ≤ j ∧ j < stop then f j (cells j) else cells j := by
  obtain ⟨a, rfl⟩ := first
  obtain ⟨b, rfl⟩ := last
  have turns : (step * b - step * a + step - 1) / step = b - a := by
    rw [← Nat.mul_sub, Nat.add_sub_assoc pos, Nat.mul_add_div pos,
      Nat.div_eq_of_lt (Nat.sub_lt pos Nat.one_pos), Nat.add_zero]
  unfold countUp
  rw [turns, Nat.mul_comm step a, foldl_writeBlock_range' pos]
  funext j
  refine if_congr ?_ rfl rfl
  rcases Nat.le_total a b with le | le
  · rw [Nat.add_sub_cancel' le, Nat.mul_comm b]
  · have none := Nat.mul_le_mul_left step le
    rw [Nat.sub_eq_zero_of_le le, Nat.add_zero, Nat.mul_comm a]
    omega

end Blocks

end Chinos
