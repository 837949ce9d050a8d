import Mathlib.Tactic

/-!
# Streaks in a bit string

The lengths of the streak of `true` at the start of a bit string, of the one at its
end and of the longest one anywhere. Each of them for an appended string is given by
those of the two parts, so they can be computed piece by piece.
-/

namespace Chinos

/-- The length of the streak that a list starts with. -/
def lead : List Bool → Nat
  | true :: bits => lead bits + 1
  | _ => 0

/-- The length of the streak that a list ends with. -/
def trail (bits : List Bool) : Nat := lead bits.reverse

/-- The length of the longest streak in a list. -/
def longest : List Bool → Nat
  | [] => 0
  | bit :: bits => max (lead (bit :: bits)) (longest bits)

section Streak

variable {xs ys : List Bool}

theorem lead_le_length (xs : List Bool) : lead xs ≤ xs.length := by
  induction xs with
  | nil => exact le_rfl
  | cons x xs ih =>
    cases x with
    | false => exact Nat.zero_le _
    | true => exact Nat.succ_le_succ ih

theorem trail_le_length (xs : List Bool) : trail xs ≤ xs.length := by
  have bound := lead_le_length xs.reverse
  rwa [List.length_reverse] at bound

/-- The streak at the start is everything iff there is no `false`. -/
theorem lead_eq_length_iff : lead xs = xs.length ↔ ∀ x ∈ xs, x = true := by
  induction xs with
  | nil => simp [lead]
  | cons x xs ih =>
    cases x with
    | false => simp [lead]
    | true => simpa [lead] using ih

theorem trail_eq_length_iff : trail xs = xs.length ↔ lead xs = xs.length := by
  unfold trail
  rw [lead_eq_length_iff, ← List.length_reverse, lead_eq_length_iff]
  simp only [List.mem_reverse]

theorem lead_append (xs ys : List Bool) :
    lead (xs ++ ys) = if lead xs = xs.length then xs.length + lead ys else lead xs := by
  induction xs with
  | nil => simp [lead]
  | cons x xs ih =>
    cases x with
    | false => simp [lead]
    | true =>
      simp only [List.cons_append, lead, List.length_cons, Nat.add_right_cancel_iff, ih]
      split
      · omega
      · rfl

theorem trail_append (xs ys : List Bool) :
    trail (xs ++ ys) = if lead ys = ys.length then trail xs + ys.length else trail ys := by
  unfold trail
  rw [List.reverse_append, lead_append, List.length_reverse]
  simp only [show lead ys.reverse = ys.length ↔ _ from trail_eq_length_iff, Nat.add_comm]

theorem longest_le_length (xs : List Bool) : longest xs ≤ xs.length := by
  induction xs with
  | nil => exact le_rfl
  | cons x xs ih =>
    have bound := lead_le_length (x :: xs)
    rw [List.length_cons] at bound
    simp only [longest, List.length_cons]
    omega

theorem lead_le_longest (xs : List Bool) : lead xs ≤ longest xs := by
  cases xs with
  | nil => exact le_rfl
  | cons x xs => exact le_max_left _ _

/-- The longest streak lies in one of the parts or across the seam. -/
theorem longest_append (xs ys : List Bool) :
    longest (xs ++ ys) = max (max (longest xs) (longest ys)) (trail xs + lead ys) := by
  induction xs with
  | nil =>
    have bound := lead_le_longest ys
    simp only [List.nil_append, longest, trail, List.reverse_nil, lead]
    omega
  | cons x xs ih =>
    have seam : trail (x :: xs) = if lead xs = xs.length then lead [x] + xs.length else trail xs :=
      trail_append [x] xs
    have first : lead (x :: xs ++ ys) =
        if lead (x :: xs) = (x :: xs).length then (x :: xs).length + lead ys else lead (x :: xs) :=
      lead_append (x :: xs) ys
    have bound := lead_le_longest ys
    rw [List.cons_append] at first ⊢
    simp only [longest]
    rw [first, ih, seam]
    cases x with
    | false =>
      simp only [lead, List.length_cons, Nat.zero_add, Nat.max_eq_right (Nat.zero_le _),
        show ¬ 0 = xs.length + 1 by omega, if_false]
      by_cases all : lead xs = xs.length
      · rw [if_pos all, trail_eq_length_iff.mpr all]
      · rw [if_neg all]
    | true =>
      simp only [lead, List.length_cons, Nat.add_right_cancel_iff]
      by_cases all : lead xs = xs.length
      · rw [if_pos all, if_pos all, trail_eq_length_iff.mpr all]
        omega
      · rw [if_neg all, if_neg all]
        omega

/-! ## Streaks as ranges of positions -/

/-- The `k` bits from position `i` on are `true`. -/
def StreakAt (xs : List Bool) (i k : Nat) : Prop := ∀ j < k, xs[i + j]? = some true

theorem streakAt_cons_succ {x : Bool} {i k : Nat} :
    StreakAt (x :: xs) (i + 1) k ↔ StreakAt xs i k := by
  unfold StreakAt
  simp only [Nat.add_right_comm i 1, List.getElem?_cons_succ]

theorem streakAt_lead (xs : List Bool) : StreakAt xs 0 (lead xs) := by
  induction xs with
  | nil => exact fun j below => absurd below (Nat.not_lt_zero j)
  | cons x xs ih =>
    cases x with
    | false => exact fun j below => absurd below (Nat.not_lt_zero j)
    | true =>
      intro j below
      cases j with
      | zero => rfl
      | succ j =>
        have inside := ih j (Nat.lt_of_succ_lt_succ below)
        simpa using inside

theorem StreakAt.le_lead {k : Nat} (streak : StreakAt xs 0 k) : k ≤ lead xs := by
  induction xs generalizing k with
  | nil =>
    cases k with
    | zero => exact le_rfl
    | succ k => simpa using streak 0 (Nat.succ_pos k)
  | cons x xs ih =>
    cases k with
    | zero => exact Nat.zero_le _
    | succ k =>
      have here : x = true := by simpa using streak 0 (Nat.succ_pos k)
      subst here
      refine Nat.succ_le_succ (ih fun j below => ?_)
      have next := streak (j + 1) (Nat.succ_lt_succ below)
      simpa using next

/-- The number that `longest` computes is the greatest length of a streak in the list. -/
theorem longest_isGreatest (xs : List Bool) :
    IsGreatest {k | ∃ i, StreakAt xs i k} (longest xs) := by
  induction xs with
  | nil =>
    refine ⟨⟨0, fun j below => absurd below (Nat.not_lt_zero j)⟩, ?_⟩
    rintro k ⟨i, streak⟩
    cases k with
    | zero => exact le_rfl
    | succ k => simpa using streak 0 (Nat.succ_pos k)
  | cons x xs ih =>
    constructor
    · rcases max_choice (lead (x :: xs)) (longest xs) with isLead | isRest
      · exact ⟨0, by rw [longest, isLead]; exact streakAt_lead (x :: xs)⟩
      · obtain ⟨i, streak⟩ := ih.1
        refine ⟨i + 1, ?_⟩
        rw [longest, isRest]
        exact streakAt_cons_succ.mpr streak
    · rintro k ⟨i, streak⟩
      cases i with
      | zero => exact le_max_of_le_left streak.le_lead
      | succ i => exact le_max_of_le_right (ih.2 ⟨i, streakAt_cons_succ.mp streak⟩)

end Streak

end Chinos
