import Mathlib.Logic.Basic

/-!
# Runs with their events

Every step of a system carries an event, and a run has the list of its events. Two systems
that share their events can be compared run by run: `EventRun.simulates` says that if the
second system can match each step of the first one with the same event, it can match each
run with the same events. `EventRun.unique` says that events which determine single steps
determine whole runs; a state of the second system is then what the events say, and not one
of many that fit.
-/

namespace Chinos

variable {σ τ ε : Type*}

/-- The events `es` lead from the first state to the second. -/
inductive EventRun (step : σ → ε → σ → Prop) : σ → List ε → σ → Prop
  | nil {s : σ} : EventRun step s [] s
  | cons {s t u : σ} {e : ε} {es : List ε} (first : step s e t) (rest : EventRun step t es u) :
      EventRun step s (e :: es) u

namespace EventRun

variable {step : σ → ε → σ → Prop} {step' : τ → ε → τ → Prop} {s s' s'' : σ} {t : τ} {es : List ε}

/-- A single step is a run of one event. -/
theorem single {e : ε} (first : step s e s') : EventRun step s [e] s' := .cons first .nil

/-- Systems that are related step by step are related run by run. -/
theorem simulates {R : σ → τ → Prop}
    (sim : ∀ {s s' : σ} {t : τ} {e : ε}, R s t → step s e s' → ∃ t', step' t e t' ∧ R s' t')
    (run : EventRun step s es s') (start : R s t) :
    ∃ t', EventRun step' t es t' ∧ R s' t' := by
  induction run generalizing t with
  | nil => exact ⟨t, .nil, start⟩
  | cons first _ ih =>
    obtain ⟨t₁, first', related⟩ := sim start first
    obtain ⟨t', rest', related'⟩ := ih related
    exact ⟨t', .cons first' rest', related'⟩

/-- If each event determines the state that its step leads to, then a list of events determines
the state that a run with these events ends in. -/
theorem unique (one : ∀ {s s' s'' : σ} {e : ε}, step s e s' → step s e s'' → s' = s'')
    (run : EventRun step s es s') (other : EventRun step s es s'') : s' = s'' := by
  induction run with
  | nil =>
    cases other
    rfl
  | cons first _ ih =>
    cases other with
    | cons first' rest' =>
      cases one first first'
      exact ih rest'

end EventRun

end Chinos
