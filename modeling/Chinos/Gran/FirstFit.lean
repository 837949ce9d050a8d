import Chinos.Gran.Heap
import Chinos.Machine.FirstFit

/-!
# The granule heap serves requests first fit

What `gran_alloc` answers depends on the free granules alone: it takes the lowest run that is
long enough. So a list of allocations can be decided on the free granules before the first of
them.
-/

namespace Chinos

/-- Granule `i` is in the heap and free, which is what a request of the heap looks for. -/
def MmGran.free (gran : MmGran) (i : Nat) : Bool := decide (i < gran.ngranules) && !gran.bit i

/-- Serves requests for numbers of granules from the free granules of the heap. -/
def MmGran.serve (gran : MmGran) (requests : List Nat) : Option (Nat → Bool) :=
  Chinos.serve gran.ngranules gran.free requests

/-- The heap has granules for all the requests, served one after the other. -/
def MmGran.Serves (gran : MmGran) (requests : List Nat) : Prop :=
  (gran.serve requests).isSome = true

instance (gran : MmGran) (requests : List Nat) : Decidable (gran.Serves requests) :=
  inferInstanceAs (Decidable (_ = _))

/-- The free granules of `gran'` are those that the requests leave of `gran`. -/
structure MmGran.After (gran : MmGran) (requests : List Nat) (gran' : MmGran) : Prop where
  ngranules : gran'.ngranules = gran.ngranules
  serve : gran.serve requests = some gran'.free

section FirstFit

variable {gran gran' gran'' : MmGran} {requests more : List Nat} {k m : Nat}

theorem MmGran.After.refl (gran : MmGran) : gran.After [] gran := ⟨rfl, rfl⟩

theorem MmGran.After.serves (after : gran.After requests gran') : gran.Serves requests := by
  unfold MmGran.Serves
  rw [after.serve]
  rfl

theorem MmGran.After.serve_append (after : gran.After requests gran') :
    gran.serve (requests ++ more) = gran'.serve more := by
  unfold MmGran.serve
  rw [Chinos.serve_append after.serve, after.ngranules]

theorem MmGran.After.trans (first : gran.After requests gran')
    (second : gran'.After more gran'') : gran.After (requests ++ more) gran'' :=
  ⟨second.ngranules.trans first.ngranules, first.serve_append.trans second.serve⟩

theorem MmGran.After.serves_append (after : gran.After requests gran') :
    gran.Serves (requests ++ more) ↔ gran'.Serves more := by
  unfold MmGran.Serves
  rw [after.serve_append]

/-- Requests that are not served are not with more behind them. -/
theorem MmGran.not_serves_append (refused : ¬ gran.Serves requests) :
    ¬ gran.Serves (requests ++ more) := by
  unfold MmGran.Serves MmGran.serve at refused ⊢
  rw [serve_append_none (by simpa using refused)]
  simp

/-- A row of equal requests is served one request after the others. -/
theorem MmGran.After.succ (after : gran.After (List.replicate m k) gran')
    (next : gran'.After [k] gran'') : gran.After (List.replicate (m + 1) k) gran'' := by
  rw [List.replicate_succ']
  exact after.trans next

/-- If the heap is out of runs of `k` after `m` requests, it does not serve more. -/
theorem MmGran.After.not_serves (after : gran.After (List.replicate m k) gran')
    (refused : ¬ gran'.Serves [k]) {m' : Nat} (more : m < m') :
    ¬ gran.Serves (List.replicate m' k) := by
  have refused : firstRun gran.ngranules gran'.free k = none := by
    unfold MmGran.Serves MmGran.serve at refused
    rw [serve_singleton, after.ngranules] at refused
    simpa using refused
  unfold MmGran.Serves MmGran.serve
  rw [serve_replicate_none after.serve refused more]
  simp

/-- A run of granules that are free lies in the heap. -/
theorem MmGran.isRun_iff (pos : 0 < k) (i : Nat) :
    isRun gran.free k i = true ↔ gran.Fits k i := by
  rw [Chinos.isRun_iff]
  unfold MmGran.free MmGran.Fits MmGran.FreeRun
  simp only [Bool.and_eq_true, decide_eq_true_eq, Bool.not_eq_true']
  constructor
  · intro all
    have last := (all (k - 1) (by omega)).1
    exact ⟨by omega, fun j inside => (all j inside).2⟩
  · rintro ⟨room, clear⟩ j inside
    exact ⟨by omega, clear j inside⟩

variable {geo : GranGeometry} {size : Nat}

/-- `gran_alloc` in these terms: it returns null if the heap does not serve the request, and
otherwise leaves what the request leaves. -/
theorem granAlloc_serves (has : gran.HasGeometry geo) (le : geo.log2gran ≤ 26)
    (request : geo.Request size) :
    (granAlloc gran size = .ok (0, gran) ∧ ¬ gran.Serves [geo.count size]) ∨
      ∃ i gran', granAlloc gran size = .ok (geo.heapstart + i * geo.granule, gran') ∧
        gran.Fits (geo.count size) i ∧ gran.SameShape gran' ∧
        (∀ j, gran'.bit j = (gran.bit j || runBit i (geo.count size) j)) ∧
        gran.After [geo.count size] gran' := by
  have pos := GranGeometry.count_pos request
  rcases granAlloc_spec has le request with
    ⟨run, full⟩ | ⟨i, gran', run, fits, least, same, bits⟩
  · refine .inl ⟨run, ?_⟩
    have none : firstRun gran.ngranules gran.free (geo.count size) = none :=
      firstRun_eq_none.mpr fun i _ =>
        Bool.eq_false_iff.mpr fun isFree => full i ((MmGran.isRun_iff pos i).mp isFree)
    unfold MmGran.Serves MmGran.serve
    rw [serve_singleton, none]
    simp
  · refine .inr ⟨i, gran', run, fits, same, bits, same.ngranules, ?_⟩
    have room := fits.1
    have first : firstRun gran.ngranules gran.free (geo.count size) = some i :=
      firstRun_eq_some.mpr ⟨by omega, (MmGran.isRun_iff pos i).mpr fits, fun j below =>
        Bool.eq_false_iff.mpr fun isFree => least j below ((MmGran.isRun_iff pos j).mp isFree)⟩
    unfold MmGran.serve
    rw [serve_singleton, first, Option.map_some]
    congr 1
    funext j
    unfold takeRun MmGran.free
    rw [same.ngranules, bits, runBit, Bool.not_or, Bool.and_assoc]

end FirstFit

end Chinos
