import Mathlib.Tactic

/-!
# Machine integers and outcomes of C code

C code is embedded in `Except Fault`: a run either produces a value or stops at
the first event after which the C text no longer says what happens next.
Integer expressions are computed in `Int` or `Nat` and cut down to their C type
by the conversions below; a signed overflow wraps, as the `-O0` build does.
-/

namespace Chinos

/-- Why a run stops. `assertion` and `panic` are `halt()` after a failed check,
`null` is an access through a null pointer, `wild` is an access outside every
object the code owns, and `diverge` is a loop that never exits. A run ends at its first
access of these two kinds, also where the machine would find memory there and go on. -/
inductive Fault
  | assertion
  | panic
  | null
  | wild
  | diverge
  deriving DecidableEq, Repr

/-- `assert(p)` and the other checks that stop a run. -/
def require (p : Prop) [Decidable p] (fault : Fault) : Except Fault Unit :=
  if p then .ok () else .error fault

/-- The value of an expression of type `int` that computes to `x`, which wraps around in 32
bits. -/
def cInt (x : Int) : Int := x.bmod (2 ^ 32)

/-- The conversion of an integer to an unsigned type of 32 bits. -/
def cU32 (x : Int) : Nat := (x % 2 ^ 32).toNat

/-- The conversion of an integer to an unsigned type of 64 bits. -/
def cU64 (x : Int) : Nat := (x % 2 ^ 64).toNat

theorem cInt_of_range {x : Int} (low : -2 ^ 31 ≤ x) (high : x < 2 ^ 31) : cInt x = x := by
  unfold cInt
  exact Int.bmod_eq_of_le (by omega) (by omega)

theorem cInt_natCast {n : Nat} (high : n < 2 ^ 31) : cInt n = n :=
  cInt_of_range (by omega) (by omega)

theorem cU32_natCast {n : Nat} (high : n < 2 ^ 32) : cU32 n = n := by
  unfold cU32
  omega

/-- A wrapped `int` converts to the same unsigned value. -/
theorem cU32_cInt (x : Int) : cU32 (cInt x) = cU32 x := by
  unfold cU32 cInt
  rw [Int.bmod_def]
  split <;> omega

theorem cU64_natCast {n : Nat} (high : n < 2 ^ 64) : cU64 n = n := by
  unfold cU64
  omega

theorem cU64_natCast_eq_mod (n : Nat) : cU64 n = n % 2 ^ 64 := by
  unfold cU64
  omega

/-! ## Running a sequence -/

@[simp] theorem ok_bind {α β : Type} (a : α) (rest : α → Except Fault β) :
    ((.ok a : Except Fault α) >>= rest) = rest a := rfl

section Require

variable {α : Type} {p : Prop} [Decidable p] {fault : Fault} {next : Unit → Except Fault α}

theorem require_of_pos (holds : p) : require p fault = .ok () := if_pos holds

theorem require_of_neg (fails : ¬ p) : require p fault = .error fault := if_neg fails

@[simp] theorem require_bind_of_pos (holds : p) : (require p fault >>= next) = next () := by
  simp [require, holds, bind, Except.bind]

@[simp] theorem require_bind_of_neg (fails : ¬ p) :
    (require p fault >>= next) = .error fault := by
  simp [require, fails, bind, Except.bind]

/-- A run that gets past a check satisfied it. -/
theorem of_require_bind_ok {a : α} (run : (require p fault >>= next) = .ok a) :
    p ∧ next () = .ok a := by
  by_cases holds : p
  · rw [require_bind_of_pos holds] at run
    exact ⟨holds, run⟩
  · rw [require_bind_of_neg holds] at run
    cases run

end Require

/-- A successful sequence is a successful first part and a successful rest. -/
theorem of_bind_ok {α β : Type} {first : Except Fault α} {rest : α → Except Fault β} {b : β}
    (run : (first >>= rest) = .ok b) : ∃ a, first = .ok a ∧ rest a = .ok b := by
  cases first with
  | error fault => cases run
  | ok a => exact ⟨a, rfl, run⟩

/-! ## Outcomes as tests -/

section Outcomes

variable {α : Type} {x : Except Fault α} {P : α → Prop} {fault : Fault}

/-- The run produces a value for which `P` holds. -/
def Returns (x : Except Fault α) (P : α → Prop) : Prop := ∃ a, x = .ok a ∧ P a

/-- The run stops, and `fault` is the reason. -/
def Stops (x : Except Fault α) (fault : Fault) : Prop := x = .error fault

instance [DecidablePred P] : Decidable (Returns x P) :=
  match x with
  | .ok a => decidable_of_iff (P a)
      ⟨fun holds => ⟨a, rfl, holds⟩, fun ⟨_, same, holds⟩ => Except.ok.inj same ▸ holds⟩
  | .error _ => isFalse fun ⟨_, impossible, _⟩ => by cases impossible

instance : Decidable (Stops x fault) :=
  match x with
  | .ok _ => isFalse nofun
  | .error fault' => decidable_of_iff (fault' = fault) ⟨congrArg _, Except.error.inj⟩

end Outcomes

end Chinos
