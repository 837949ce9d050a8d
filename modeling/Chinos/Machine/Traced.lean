import Mathlib.Tactic

/-!
# Computations that record what they access

A traced computation has an outcome, a value or the error at which it stops, and the list of
the locations that it has accessed on the way, in order. `outcome_bind` says that forgetting
the accesses gives back the plain computation, so a traced program can be compared with the
program that it traces. `within_bind` reduces a bound on the accesses to the single ones.
-/

namespace Chinos

/-- The outcome of a computation, with the locations it accesses on the way. -/
structure Traced (ε ι α : Type) where
  accesses : List ι
  outcome : Except ε α

namespace Traced

variable {ε ι α β : Type}

/-- A value that is had without an access. -/
def value (a : α) : Traced ε ι α := ⟨[], .ok a⟩

/-- A computation that stops at once, without an access. -/
def fail (e : ε) : Traced ε ι α := ⟨[], .error e⟩

/-- The second computation goes on where the first one has produced a value. -/
def andThen (x : Traced ε ι α) (next : α → Traced ε ι β) : Traced ε ι β :=
  match x.outcome with
  | .ok a => ⟨x.accesses ++ (next a).accesses, (next a).outcome⟩
  | .error e => ⟨x.accesses, .error e⟩

instance : Monad (Traced ε ι) where
  pure := value
  bind := andThen

/-- A computation without accesses, as a traced one. -/
def lift (x : Except ε α) : Traced ε ι α := ⟨[], x⟩

instance : MonadLift (Except ε) (Traced ε ι) := ⟨lift⟩

/-- One access to `i`, with the value `a` that it gives. -/
def access (i : ι) (a : α) : Traced ε ι α := ⟨[i], .ok a⟩

/-- Every location that the computation accesses satisfies `P`, also if it stops on the way. -/
def Within (P : ι → Prop) (x : Traced ε ι α) : Prop := ∀ i ∈ x.accesses, P i

section Outcome

@[simp] theorem outcome_fail (e : ε) : (fail e : Traced ε ι α).outcome = .error e := rfl

@[simp] theorem outcome_lift (x : Except ε α) : (liftM x : Traced ε ι α).outcome = x := rfl

@[simp] theorem outcome_access (i : ι) (a : α) : (access i a : Traced ε ι α).outcome = .ok a := rfl

@[simp] theorem outcome_bind (x : Traced ε ι α) (next : α → Traced ε ι β) :
    (x >>= next).outcome = x.outcome >>= fun a => (next a).outcome := by
  cases x with
  | mk accesses outcome => cases outcome <;> rfl

/-- A computation that produces a value has produced one in both parts. -/
theorem of_bind_ok {x : Traced ε ι α} {next : α → Traced ε ι β} {b : β}
    (ok : (x >>= next).outcome = .ok b) : ∃ a, x.outcome = .ok a ∧ (next a).outcome = .ok b := by
  cases x with
  | mk accesses outcome =>
    cases outcome with
    | error e => cases ok
    | ok a => exact ⟨a, rfl, ok⟩

/-- A check that passes can be left out, as it leaves no trace. -/
theorem check_bind_of_ok {x : Except ε α} {a : α} {next : Traced ε ι β} (ok : x = .ok a) :
    ((liftM x : Traced ε ι α) >>= fun _ => next) = next := by
  rw [ok]
  rfl

/-- A check that fails ends the computation, without an access. -/
theorem check_bind_of_error {x : Except ε α} {e : ε} {next : Traced ε ι β}
    (error : x = .error e) : ((liftM x : Traced ε ι α) >>= fun _ => next) = fail e := by
  rw [error]
  rfl

/-- A computation that produces a value has passed its check. -/
theorem of_check_bind_ok {x : Except ε α} {next : Traced ε ι β} {b : β}
    (ok : ((liftM x : Traced ε ι α) >>= fun _ => next).outcome = .ok b) :
    next.outcome = .ok b := by
  cases x with
  | error e => cases ok
  | ok a => exact ok

end Outcome

section Within

variable {P : ι → Prop}

@[simp] theorem within_pure (a : α) : (pure a : Traced ε ι α).Within P := by
  intro i accessed
  cases accessed

@[simp] theorem within_fail (e : ε) : (fail e : Traced ε ι α).Within P := by
  intro i accessed
  cases accessed

@[simp] theorem within_lift (x : Except ε α) : (liftM x : Traced ε ι α).Within P := by
  intro i accessed
  cases accessed

@[simp] theorem within_access {i : ι} {a : α} : (access i a : Traced ε ι α).Within P ↔ P i := by
  simp [Within, access]

theorem within_bind {x : Traced ε ι α} {next : α → Traced ε ι β} :
    (x >>= next).Within P ↔ x.Within P ∧ ∀ a, x.outcome = .ok a → (next a).Within P := by
  cases x with
  | mk accesses outcome =>
    cases outcome with
    | error e => exact ⟨fun within => ⟨within, nofun⟩, fun both => both.1⟩
    | ok a =>
      constructor
      · intro within
        refine ⟨fun i accessed => within i (List.mem_append_left _ accessed), fun b same => ?_⟩
        cases same
        exact fun i accessed => within i (List.mem_append_right _ accessed)
      · rintro ⟨first, second⟩ i accessed
        rcases List.mem_append.mp accessed with inFirst | inSecond
        · exact first i inFirst
        · exact second a rfl i inSecond

end Within

end Traced

end Chinos
