import Mathlib.Tactic

/-!
# Boundary tags

A region of memory is cut into chunks that follow each other without a gap. Every
chunk begins with a header that holds its own size and a tag: the size of the chunk
before it, with a flag added when the chunk is in use. The lemmas here say where the
chunks of a tiling lie, and how a part of a tiling is replaced by another one.
-/

namespace Chinos

/-- The header fields that a chunk would have at every address. -/
structure Tags where
  size : Nat → Nat
  tag : Nat → Nat

/-- A chunk of a region, with where it lies and whether it is in use. -/
structure Chunk where
  addr : Nat
  size : Nat
  used : Bool
  deriving DecidableEq, Repr

namespace Chunk

/-- The first address after the chunk. -/
def stop (c : Chunk) : Nat := c.addr + c.size

/-- The flag of a chunk, as it is added to the tag. -/
def flag (bit : Nat) (c : Chunk) : Nat := if c.used then bit else 0

end Chunk

namespace Tags

variable {bit : Nat} {t t' : Tags} {a b e prev last : Nat} {xs ys : List Chunk}

/-- The headers from `a` on describe the chunks `xs`, which end at `e`; the chunk
before them has size `prev`, and the last one has size `last`. -/
def Tiles (bit : Nat) (t : Tags) : Nat → Nat → List Chunk → Nat → Nat → Prop
  | a, prev, [], e, last => a = e ∧ prev = last
  | a, prev, c :: cs, e, last =>
    (c.addr = a ∧ t.size a = c.size ∧ t.tag a = prev + c.flag bit) ∧
      Tiles bit t c.stop c.size cs e last

theorem tiles_append : t.Tiles bit a prev (xs ++ ys) e last ↔
    ∃ m q, t.Tiles bit a prev xs m q ∧ t.Tiles bit m q ys e last := by
  induction xs generalizing a prev with
  | nil =>
    constructor
    · intro tiles
      exact ⟨a, prev, ⟨rfl, rfl⟩, tiles⟩
    · rintro ⟨m, q, ⟨rfl, rfl⟩, tiles⟩
      exact tiles
  | cons c cs ih =>
    simp only [List.cons_append, Tiles, ih]
    constructor
    · rintro ⟨header, m, q, first, rest⟩
      exact ⟨m, q, ⟨header, first⟩, rest⟩
    · rintro ⟨m, q, ⟨header, first⟩, rest⟩
      exact ⟨header, m, q, first, rest⟩

/-- A tiling only depends on the headers of its chunks. -/
theorem Tiles.congr (tiles : t.Tiles bit a prev xs e last)
    (same : ∀ c ∈ xs, t'.size c.addr = t.size c.addr ∧ t'.tag c.addr = t.tag c.addr) :
    t'.Tiles bit a prev xs e last := by
  induction xs generalizing a prev with
  | nil => exact tiles
  | cons c cs ih =>
    obtain ⟨⟨rfl, size, tag⟩, rest⟩ := tiles
    obtain ⟨sameSize, sameTag⟩ := same c (.head _)
    exact ⟨⟨rfl, sameSize.trans size, sameTag.trans tag⟩,
      ih rest fun d inside => same d (.tail _ inside)⟩

/-- The chunks of a tiling determine the headers of its chunks. -/
theorem Tiles.agree (tiles : t.Tiles bit a prev xs e last)
    (tiles' : t'.Tiles bit a prev xs e last) :
    ∀ c ∈ xs, t'.size c.addr = t.size c.addr ∧ t'.tag c.addr = t.tag c.addr := by
  induction xs generalizing a prev with
  | nil => simp
  | cons c cs ih =>
    obtain ⟨⟨rfl, size, tag⟩, rest⟩ := tiles
    obtain ⟨⟨-, size', tag'⟩, rest'⟩ := tiles'
    intro d inside
    rcases List.mem_cons.mp inside with rfl | later
    · exact ⟨size'.trans size.symm, tag'.trans tag.symm⟩
    · exact ih rest rest' d later

theorem Tiles.header (tiles : t.Tiles bit a prev xs e last) {c : Chunk} (inside : c ∈ xs) :
    t.size c.addr = c.size := by
  induction xs generalizing a prev with
  | nil => cases inside
  | cons d ds ih =>
    obtain ⟨⟨rfl, size, -⟩, rest⟩ := tiles
    rcases List.mem_cons.mp inside with rfl | later
    · exact size
    · exact ih rest later

/-- Every tag is the size of another chunk, or of the one before the tiling, and the
flag. -/
theorem Tiles.tag_of_mem (tiles : t.Tiles bit a prev xs e last) {c : Chunk} (inside : c ∈ xs) :
    ∃ q, t.tag c.addr = q + c.flag bit ∧ (q = prev ∨ ∃ d ∈ xs, d.size = q) := by
  induction xs generalizing a prev with
  | nil => cases inside
  | cons d ds ih =>
    obtain ⟨⟨rfl, -, tag⟩, rest⟩ := tiles
    rcases List.mem_cons.mp inside with rfl | later
    · exact ⟨prev, tag, .inl rfl⟩
    · obtain ⟨q, tag, rfl | ⟨e, inside, rfl⟩⟩ := ih rest later
      · exact ⟨d.size, tag, .inr ⟨d, .head _, rfl⟩⟩
      · exact ⟨e.size, tag, .inr ⟨e, .tail _ inside, rfl⟩⟩

/-- The tag of a chunk, in a tiling cut before it. -/
theorem Tiles.tag_eq {c d : Chunk} (tiles : t.Tiles bit a prev (xs ++ c :: d :: ys) e last) :
    t.tag d.addr = c.size + d.flag bit := by
  obtain ⟨m, q, -, rest⟩ := tiles_append.mp tiles
  obtain ⟨-, ⟨here, -, tag⟩, -⟩ := rest
  rw [here]
  exact tag

theorem Tiles.addr_eq {c d : Chunk} (tiles : t.Tiles bit a prev (xs ++ c :: d :: ys) e last) :
    d.addr = c.addr + c.size := by
  obtain ⟨m, q, -, rest⟩ := tiles_append.mp tiles
  exact rest.2.1.1

theorem Tiles.le (tiles : t.Tiles bit a prev xs e last) : a ≤ e := by
  induction xs generalizing a prev with
  | nil => exact tiles.1.le
  | cons c cs ih =>
    obtain ⟨⟨rfl, -⟩, rest⟩ := tiles
    exact (Nat.le_add_right _ _).trans (ih rest)

/-- The chunks of a tiling lie in the region that it tiles. -/
theorem Tiles.bounds (tiles : t.Tiles bit a prev xs e last) {c : Chunk} (inside : c ∈ xs) :
    a ≤ c.addr ∧ c.stop ≤ e := by
  induction xs generalizing a prev with
  | nil => cases inside
  | cons d ds ih =>
    obtain ⟨⟨rfl, -⟩, rest⟩ := tiles
    rcases List.mem_cons.mp inside with rfl | later
    · exact ⟨le_rfl, rest.le⟩
    · have bounds := ih rest later
      exact ⟨(Nat.le_add_right _ _).trans bounds.1, bounds.2⟩

/-- Chunks of sizes divisible by `k` lie at multiples of `k` from the start. -/
theorem Tiles.dvd {k : Nat} (tiles : t.Tiles bit a prev xs e last) (sizes : ∀ c ∈ xs, k ∣ c.size) :
    (∀ c ∈ xs, k ∣ c.addr - a) ∧ k ∣ e - a := by
  induction xs generalizing a prev with
  | nil =>
    obtain ⟨rfl, -⟩ := tiles
    simp
  | cons c cs ih =>
    obtain ⟨⟨rfl, -⟩, rest⟩ := tiles
    have size := sizes c (.head _)
    have shift : ∀ x, c.stop ≤ x → k ∣ x - c.stop → k ∣ x - c.addr := by
      intro x le divides
      have split : x - c.addr = (x - c.stop) + c.size := by
        unfold Chunk.stop at *
        omega
      exact split ▸ divides.add size
    obtain ⟨inside, atEnd⟩ := ih rest fun d later => sizes d (.tail _ later)
    refine ⟨fun d here => ?_, shift e rest.le atEnd⟩
    rcases List.mem_cons.mp here with rfl | later
    · simp
    · exact shift d.addr (rest.bounds later).1 (inside d later)

/-- The chunks of a tiling lie one after the other. -/
theorem Tiles.ordered (tiles : t.Tiles bit a prev xs e last) :
    xs.Pairwise fun c d => c.stop ≤ d.addr := by
  induction xs generalizing a prev with
  | nil => exact .nil
  | cons c cs ih =>
    obtain ⟨⟨rfl, -⟩, rest⟩ := tiles
    exact .cons (fun d inside => (rest.bounds inside).1) (ih rest)

/-- Two different chunks of a tiling do not overlap. -/
theorem Tiles.apart (tiles : t.Tiles bit a prev xs e last) {c d : Chunk} (inside : c ∈ xs)
    (inside' : d ∈ xs) (different : c ≠ d) : c.stop ≤ d.addr ∨ d.stop ≤ c.addr := by
  have symm : Std.Symm fun c d : Chunk => c.stop ≤ d.addr ∨ d.stop ≤ c.addr :=
    ⟨fun _ _ => Or.symm⟩
  have either : xs.Pairwise fun c d => c.stop ≤ d.addr ∨ d.stop ≤ c.addr :=
    tiles.ordered.imp fun before => .inl before
  exact either.forall inside inside' different

/-- A part of a tiling is replaced by another one of the same extent, and the tag of
the chunk after it follows suit. -/
theorem Tiles.replace {mid mid' : List Chunk} {d : Chunk}
    (tiles : t.Tiles bit a prev (xs ++ (mid ++ d :: ys)) e last)
    (other : ∀ m q, (∃ q', t.Tiles bit m q mid d.addr q') →
      ∃ q', t'.Tiles bit m q mid' d.addr q' ∧ t'.tag d.addr = q' + d.flag bit)
    (before : ∀ c ∈ xs, t'.size c.addr = t.size c.addr ∧ t'.tag c.addr = t.tag c.addr)
    (here : t'.size d.addr = t.size d.addr)
    (after : ∀ c ∈ ys, t'.size c.addr = t.size c.addr ∧ t'.tag c.addr = t.tag c.addr) :
    t'.Tiles bit a prev (xs ++ (mid' ++ d :: ys)) e last := by
  obtain ⟨m, q, first, rest⟩ := tiles_append.mp tiles
  obtain ⟨m', q', old, ⟨⟨rfl, size, -⟩, rest⟩⟩ := tiles_append.mp rest
  obtain ⟨q'', new, tag⟩ := other m q ⟨q', old⟩
  exact tiles_append.mpr ⟨m, q, first.congr before, tiles_append.mpr
    ⟨d.addr, q'', new, ⟨⟨rfl, here.trans size, tag⟩, rest.congr after⟩⟩⟩

end Tags

end Chinos
