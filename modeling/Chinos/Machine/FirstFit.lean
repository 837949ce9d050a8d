import Mathlib.Tactic

/-!
# Requests served first fit

Some of the cells below `n` are free. A request for `k` cells gets the lowest run of `k` free
cells, which are free no more, or is refused. Whether a list of requests is served depends
on the cells that are free at the start alone, so it can be decided before the first of them
is made; that is what `serve` is for.
-/

namespace Chinos

section FirstFit

variable {n k i m : Nat} {free free' : Nat → Bool} {requests more : List Nat}

/-- The `k` cells from `i` on are all free. -/
def isRun (free : Nat → Bool) (k i : Nat) : Bool := (List.range k).all fun j => free (i + j)

/-- Where the lowest run of `k` free cells begins. -/
def firstRun (n : Nat) (free : Nat → Bool) (k : Nat) : Option Nat :=
  (List.range n).find? (isRun free k)

/-- The cells that are free once the `k` cells from `i` on are taken. -/
def takeRun (free : Nat → Bool) (k i : Nat) : Nat → Bool := fun j =>
  free j && !decide (i ≤ j ∧ j < i + k)

/-- Serves one request after the other. The result is what is free then; there is none if a
request is refused. -/
def serve (n : Nat) (free : Nat → Bool) (requests : List Nat) : Option (Nat → Bool) :=
  requests.foldlM (fun free k => (firstRun n free k).map (takeRun free k)) free

theorem isRun_iff : isRun free k i = true ↔ ∀ j < k, free (i + j) = true := by
  simp [isRun]

theorem firstRun_eq_none : firstRun n free k = none ↔ ∀ i < n, isRun free k i = false := by
  simp [firstRun]

theorem firstRun_eq_some :
    firstRun n free k = some i ↔ i < n ∧ isRun free k i = true ∧
      ∀ j < i, isRun free k j = false := by
  simp only [firstRun, List.find?_range_eq_some, List.mem_range, Bool.not_eq_eq_eq_not,
    Bool.not_true]
  exact and_left_comm

theorem serve_singleton : serve n free [k] = (firstRun n free k).map (takeRun free k) := by
  simp [serve]

/-- Requests that are served in two parts are served in one go. -/
theorem serve_append (served : serve n free requests = some free') :
    serve n free (requests ++ more) = serve n free' more := by
  have split : serve n free (requests ++ more) =
      (serve n free requests).bind fun free' => serve n free' more := by
    simp only [serve, List.foldlM_append]
    rfl
  rw [split, served, Option.bind_some]

/-- A request that is refused is not served with more requests behind it. -/
theorem serve_append_none (refused : serve n free requests = none) :
    serve n free (requests ++ more) = none := by
  simp only [serve, List.foldlM_append] at refused ⊢
  rw [refused]
  rfl

/-- Once a request of a kind is refused, no larger number of them is served. -/
theorem serve_replicate_none (served : serve n free (List.replicate m k) = some free')
    (refused : firstRun n free' k = none) {m' : Nat} (more : m < m') :
    serve n free (List.replicate m' k) = none := by
  obtain ⟨rest, rfl⟩ : ∃ rest, m' = m + (1 + rest) := ⟨m' - m - 1, by omega⟩
  rw [List.replicate_add, serve_append served, List.replicate_add]
  refine serve_append_none ?_
  rw [List.replicate_one, serve_singleton, refused]
  rfl

end FirstFit

end Chinos
