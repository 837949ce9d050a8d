import Chinos.Paging.Agree

/-!
# Tables of zones

A zone is a range of virtual addresses that goes to consecutive physical addresses with
one set of attributes. If a table is built by one call of `pt_map` for each of a list of
zones that are apart, the MMU sees exactly these zones.
-/

namespace Chinos

/-- The addresses `[start, stop)` go to `pbase` on, with `attr`. -/
structure Zone where
  start : Nat
  stop : Nat
  pbase : Nat
  attr : U64

namespace Zone

variable {half : Half} {z z' : Zone} {zones : List Zone} {v pa : Nat} {attr : U64}

/-- The call of `pt_map` that maps the zone. -/
def call (z : Zone) : MapCall :=
  ⟨BitVec.ofNat 64 z.start, BitVec.ofNat 64 z.pbase, BitVec.ofNat 64 (z.stop - z.start), z.attr⟩

/-- Address `v` is in the zone. -/
def Has (z : Zone) (v : Nat) : Prop := z.start ≤ v ∧ v < z.stop

instance (z : Zone) (v : Nat) : Decidable (z.Has v) := inferInstanceAs (Decidable (_ ∧ _))

/-- The two zones have no address in common. -/
def Apart (z z' : Zone) : Prop := z.stop ≤ z'.start ∨ z'.stop ≤ z.start

instance : Std.Symm Apart := ⟨fun _ _ => Or.symm⟩

/-- One of the zones has `v`, and takes it to the physical address `pa` with the attributes
`attr`. -/
def Maps (zones : List Zone) (v pa : Nat) (attr : U64) : Prop :=
  ∃ z ∈ zones, z.Has v ∧ pa = z.pbase + (v - z.start) ∧ attr = descAttr z.attr

/-- Whole pages of `half`, not up to its last GiB if that is the end of the address space, to
physical addresses that fit a descriptor. -/
structure Ok (half : Half) (z : Zone) : Prop where
  lt : z.start < z.stop
  low : half.base ≤ z.start
  high : z.stop ≤ half.base + 2 ^ 39
  room : z.stop + 2 ^ 30 ≤ 2 ^ 64
  vAligned : z.start % 2 ^ 12 = 0
  stopAligned : z.stop % 2 ^ 12 = 0
  pAligned : z.pbase % 2 ^ 12 = 0
  small : z.pbase + (z.stop - z.start) ≤ 2 ^ 48
  attrOk : AttrOk z.attr

theorem Ok.toNat_call (ok : z.Ok half) :
    z.call.vaddr.toNat = z.start ∧ z.call.paddr.toNat = z.pbase ∧
      z.call.size.toNat = z.stop - z.start := by
  have lt := ok.lt
  have room := ok.room
  have small := ok.small
  simp only [call, BitVec.toNat_ofNat]
  omega

theorem Ok.stop_eq (ok : z.Ok half) : z.call.stop = z.stop := by
  obtain ⟨vaddr_eq, -, size_eq⟩ := ok.toNat_call
  have lt := ok.lt
  have aligned := ok.stopAligned
  unfold MapCall.stop pageUp
  rw [vaddr_eq, size_eq]
  omega

theorem Ok.base_eq (ok : z.Ok half) : z.call.base = half.base := by
  have lt := ok.lt
  have low := ok.low
  have high := ok.high
  unfold MapCall.base
  rw [ok.toNat_call.1]
  cases half with
  | lower =>
    simp only [Half.base] at *
    omega
  | upper =>
    simp only [Half.base] at *
    omega

theorem Ok.range_eq (ok : z.Ok half) :
    z.call.range =
      ⟨z.start - half.base, z.stop - half.base, BitVec.ofNat 64 z.pbase, z.attr⟩ := by
  unfold MapCall.range
  rw [ok.base_eq, ok.stop_eq, ok.toNat_call.1]
  rfl

theorem Ok.fits (ok : z.Ok half) : z.call.Fits := by
  obtain ⟨vaddr_eq, paddr_eq, size_eq⟩ := ok.toNat_call
  have lt := ok.lt
  have low := ok.low
  have high := ok.high
  refine ⟨⟨?_, ?_, ?_, ?_⟩, ?_, ?_⟩
  · rw [vaddr_eq]
    exact ok.vAligned
  · rw [paddr_eq]
    exact ok.pAligned
  · rw [size_eq]
    omega
  · rw [size_eq]
    omega
  · rw [ok.stop_eq, ok.base_eq]
    exact high
  · rw [ok.stop_eq]
    exact ok.room

/-- The call of a zone covers the addresses of the zone. -/
theorem Ok.covers_iff (ok : z.Ok half) (inHalf : half.base ≤ v) :
    z.call.range.lo ≤ v - half.base ∧ v - half.base < z.call.range.hi ↔ z.Has v := by
  have low := ok.low
  have lt := ok.lt
  rw [ok.range_eq]
  unfold Has
  simp only
  omega

/-- The leaf of an address of a zone has the address and the attributes that the zone gives it. -/
theorem Ok.leaf_eq (ok : z.Ok half) (has : z.Has v) :
    ∃ shift, z.call.range.leaf (v - half.base) =
      ⟨z.pbase + (v - z.start), descAttr z.attr, shift⟩ := by
  obtain ⟨vaddr_eq, paddr_eq, size_eq⟩ := ok.toNat_call
  have fits := ok.fits
  have asked := fits.asked fits.window
  have low := ok.low
  have lt := ok.lt
  have small := ok.small
  obtain ⟨first, last⟩ := has
  have args : MapArgs z.call.vaddr z.call.paddr z.call.size z.call.attr z.call.base
      z.call.range.lo z.call.range.hi := by
    refine ⟨asked.vAligned, asked.pAligned, asked.pos, asked.le, asked.vaddr_eq, asked.stop_eq,
      asked.baseAligned, asked.top, ?_, ok.attrOk⟩
    rw [paddr_eq, ok.range_eq]
    simp only
    omega
  have covers := (ok.covers_iff (low.trans first)).mpr ⟨first, last⟩
  obtain ⟨shift, leaf_eq, -⟩ := args.leaf_eq covers.1 covers.2
  refine ⟨shift, leaf_eq.trans ?_⟩
  rw [paddr_eq, ok.range_eq]
  have offset : v - half.base - (z.start - half.base) = v - z.start := by omega
  simp only [offset]
  rfl

/-- A call never splits the section of a zone that is apart. -/
theorem Ok.sparesSections (ok : z.Ok half) (ok' : z'.Ok half) (apart : z.Apart z') :
    z.call.SparesSections z'.call := by
  have low := ok.low
  have low' := ok'.low
  have lt := ok.lt
  have lt' := ok'.lt
  intro m isSection meets
  obtain ⟨first, last, -⟩ := isSection
  obtain ⟨before, after⟩ := meets
  rw [ok.range_eq] at first last
  rw [ok'.range_eq] at before after
  simp only at first last before after
  exfalso
  unfold Apart at apart
  omega

theorem sparesSections_pairwise (ok : ∀ z ∈ zones, z.Ok half) (apart : zones.Pairwise Apart) :
    (zones.map call).Pairwise MapCall.SparesSections := by
  rw [List.pairwise_map]
  refine apart.imp_of_mem fun {a b} inA inB => ?_
  exact (ok a inA).sparesSections (ok b inB)

theorem fits_of_mem (ok : ∀ z ∈ zones, z.Ok half) : ∀ c ∈ zones.map call, c.Fits := by
  intro c inCalls
  obtain ⟨z, inZones, rfl⟩ := List.mem_map.mp inCalls
  exact (ok z inZones).fits

/-- Of zones that are apart, only one has a given address. -/
theorem eq_of_has (apart : zones.Pairwise Apart) (inZones : z ∈ zones) (inZones' : z' ∈ zones)
    (has : z.Has v) (has' : z'.Has v) : z = z' := by
  by_contra ne
  have far := apart.forall inZones inZones' ne
  obtain ⟨first, last⟩ := has
  obtain ⟨first', last'⟩ := has'
  unfold Apart at far
  omega

end Zone

/-- An offset that a call covers has a leaf. -/
theorem leafOf_isSome {calls : List MapCall} {call : MapCall} {o : Nat} (inCalls : call ∈ calls)
    (low : call.range.lo ≤ o) (high : o < call.range.hi) : ∃ leaf, leafOf calls o = some leaf := by
  induction calls using List.reverseRecOn with
  | nil => cases inCalls
  | append_singleton calls last ih =>
    rw [leafOf_concat]
    split
    · exact ⟨_, rfl⟩
    · rename_i outside
      rcases List.mem_append.mp inCalls with earlier | isLast
      · exact ih earlier
      · rw [List.mem_singleton.mp isLast] at low high
        exact absurd ⟨low, high⟩ outside

/-- The MMU sees the zones that were mapped, and nothing else. -/
theorem Holding.translate_zones {A : Type} {view : TableView} {Good : A → List U64 → Prop}
    {pgd : U64} {tree : Tree} {s : PtState A} {half : Half} {zones : List Zone}
    (holding : Holding view Good pgd (zones.map Zone.call) tree s)
    (ok : ∀ z ∈ zones, z.Ok half) (apart : zones.Pairwise Zone.Apart) {v pa : Nat} {attr : U64} :
    (∃ shift, translate s.mem (view.toPhys pgd).toNat half v = some ⟨pa, attr, shift⟩) ↔
      Zone.Maps zones v pa attr := by
  rw [holding.translate_eq]
  -- a leaf in the half is that of a zone
  have ofLeaf : ∀ {leaf}, half.base ≤ v → leafOf (zones.map Zone.call) (v - half.base) = some leaf →
      ∃ z ∈ zones, z.Has v ∧ ∃ shift,
        leaf = ⟨z.pbase + (v - z.start), descAttr z.attr, shift⟩ := by
    intro leaf inHalf found
    obtain ⟨c, inCalls, low, high, leaf_eq⟩ := of_leafOf found
    obtain ⟨z, inZones, rfl⟩ := List.mem_map.mp inCalls
    have has := ((ok z inZones).covers_iff inHalf).mp ⟨low, high⟩
    obtain ⟨shift, shape⟩ := (ok z inZones).leaf_eq has
    exact ⟨z, inZones, has, shift, leaf_eq.symm.trans shape⟩
  constructor
  · rintro ⟨shift, found⟩
    split at found
    · rename_i inHalf
      obtain ⟨z, inZones, has, shift', leaf_eq⟩ := ofLeaf inHalf.1 found
      cases leaf_eq
      exact ⟨z, inZones, has, rfl, rfl⟩
    · cases found
  · rintro ⟨z, inZones, has, rfl, rfl⟩
    have zoneOk := ok z inZones
    have low := zoneOk.low
    have high := zoneOk.high
    have inHalf : half.base ≤ v ∧ v < half.base + 2 ^ 39 := by
      obtain ⟨first, last⟩ := has
      omega
    obtain ⟨lo, hi⟩ := (zoneOk.covers_iff inHalf.1).mpr has
    obtain ⟨leaf, found⟩ := leafOf_isSome (List.mem_map_of_mem inZones) lo hi
    obtain ⟨z', inZones', has', shift, rfl⟩ := ofLeaf inHalf.1 found
    obtain rfl := Zone.eq_of_has apart inZones inZones' has has'
    exact ⟨shift, by rw [if_pos inHalf, found]⟩

end Chinos
