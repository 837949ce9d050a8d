import Chinos.Boot.Safety

/-!
# What a mapping lets a task do

`as_map` starts from attributes that let EL0 read and write and sets the read-only bit for
`PROT_READ`, which `PROT_WRITE` takes away again. Where neither is asked for, the page is
writable all the same. Execution follows `PROT_EXEC`, unless the address mapped to has the
bit set that forbids it, and the kernel may execute none of these pages.

The leaves are those of the walk from TTBR0, so a region is mapped as a whole only below
`2 ^ 39`.
-/

namespace Chinos

/-! ## Permissions and regions -/

/-- The leaf lets EL0 write and execute exactly as `prot` asks for, gives it nothing if `prot`
asks for nothing, and lets EL1 execute nothing. -/
structure Leaf.Permits (leaf : Leaf) (prot : BitVec 32) : Prop where
  write : leaf.User ∧ leaf.Writable ↔ prot &&& protWrite ≠ 0
  execute : leaf.Executable ↔ prot &&& protExec ≠ 0
  none : prot &&& protRead = 0 → prot &&& protWrite = 0 → prot &&& protExec = 0 →
    ¬leaf.User ∧ ¬leaf.Executable
  privileged : ¬leaf.PrivilegedExecutable

/-- `v` is in one of the pages of the region. -/
def MemRegion.Covers (region : MemRegion) (v : Nat) : Prop :=
  region.vbase.toNat ≤ v ∧ v < pageUp (region.vbase.toNat + region.size.toNat)

/-- Every page of the region has a leaf that permits what `prot` asks for. -/
def MappedAs (mem : Mem) (pgd : U64) (region : MemRegion) (prot : BitVec 32) : Prop :=
  ∀ v, region.Covers v → ∃ leaf, translate mem (vbaseToPbase pgd).toNat .lower v = some leaf ∧
    leaf.Permits prot

/-- The region lies below `2 ^ 39`, reading or writing is asked for, and if execution is, no
page of memory that is mapped to has bit 54 in its address. -/
structure Permissible (region : MemRegion) (prot : BitVec 32) : Prop where
  low : pageUp (region.vbase.toNat + region.size.toNat) ≤ 2 ^ 39
  access : prot &&& protRead ≠ 0 ∨ prot &&& protWrite ≠ 0
  frames : prot &&& protExec ≠ 0 → ∀ v, region.Covers v → v % 2 ^ 12 = 0 →
    (region.pbase + BitVec.ofNat 64 (v - region.vbase.toNat)).getLsbD 54 = false

/-- A user table: the kernel may execute none of its pages. -/
structure UserTable (layout : Layout) (rest : List Block) (pgd : U64) (s : PtState MmGran) :
    Prop where
  below : pgd.toNat < layout.geo.heapstart
  table : ∃ tree, PtInv linearView (layout.Good pgd rest) pgd tree s
  unprivileged : ∀ v leaf, translate s.mem (vbaseToPbase pgd).toNat .lower v = some leaf →
    ¬leaf.PrivilegedExecutable

/-! ## Leaves -/

theorem getLsbD_descAttr (desc : U64) {j : Nat} (kept : (2 ≤ j ∧ j < 12) ∨ (48 ≤ j ∧ j < 64)) :
    (descAttr desc).getLsbD j = desc.getLsbD j := by
  unfold descAttr
  rw [BitVec.getLsbD_and, getLsbD_attrMask, decide_eq_true kept, Bool.and_true]

/-- An aligned address keeps its upper bits when an offset is added. -/
theorem getLsbD_add_offset {x : U64} {shift d j : Nat} (aligned : x.toNat % 2 ^ shift = 0)
    (le : shift ≤ 64) (small : d < 2 ^ shift) (high : shift ≤ j) :
    (x + BitVec.ofNat 64 d).getLsbD j = x.getLsbD j := by
  have room : 2 ^ shift ≤ 2 ^ 64 := Nat.pow_le_pow_right (by omega) le
  have number : (BitVec.ofNat 64 d).toNat = d := by
    rw [BitVec.toNat_ofNat, Nat.mod_eq_of_lt (by omega)]
  have either : x + BitVec.ofNat 64 d = x ||| BitVec.ofNat 64 d := by
    apply BitVec.eq_of_toNat_eq
    rw [toNat_or_of_aligned aligned (by rw [number]; exact small), BitVec.toNat_add, number,
      Nat.mod_eq_of_lt]
    rw [← number, ← toNat_or_of_aligned aligned (by rw [number]; exact small)]
    exact BitVec.isLt _
  have clear : (BitVec.ofNat 64 d).getLsbD j = false :=
    getLsbD_eq_false_of_lt (by rw [number]; exact small) high
  rw [either, BitVec.getLsbD_or, clear, Bool.or_false]

section Leaves

variable {r : MapRange} {o : Nat}

/-- The bits of a leaf that are not those of its address. -/
theorem MapRange.getLsbD_leaf (aligned : r.PageAligned) (low : r.lo ≤ o) {j : Nat}
    (kept : (2 ≤ j ∧ j < 12) ∨ (48 ≤ j ∧ j < 64)) :
    (r.leaf o).attr.getLsbD j =
      ((r.paddrAt (o / 2 ^ 12 * 2 ^ 12)).getLsbD j || r.attr.getLsbD j) := by
  have first := aligned.lo
  have page : o / 2 ^ 12 * 2 ^ 12 % 2 ^ 12 = 0 := by omega
  have above : r.lo ≤ o / 2 ^ 12 * 2 ^ 12 := by omega
  have pAligned := aligned.paddrAt page above
  unfold MapRange.leaf
  split
  · rename_i sect
    obtain ⟨start, -, sAligned⟩ := sect
    have inside : r.paddrAt (o / 2 ^ 12 * 2 ^ 12) = r.paddrAt (o / 2 ^ 21 * 2 ^ 21) +
        BitVec.ofNat 64 (o / 2 ^ 12 * 2 ^ 12 - o / 2 ^ 21 * 2 ^ 21) := by
      unfold MapRange.paddrAt
      rw [BitVec.add_assoc, ← BitVec.ofNat_add]
      congr 2
      omega
    have same : (r.paddrAt (o / 2 ^ 12 * 2 ^ 12)).getLsbD j =
        (r.paddrAt (o / 2 ^ 21 * 2 ^ 21)).getLsbD j := by
      rcases kept with inPage | high
      · rw [getLsbD_eq_false_of_mod pAligned inPage.2, getLsbD_eq_false_of_mod sAligned (by omega)]
      · rw [inside, getLsbD_add_offset sAligned (by omega) (by omega) (by omega)]
    simp only [Leaf.ofDesc]
    rw [getLsbD_descAttr _ kept, getLsbD_sectDesc sAligned (by omega), same]
    simp [show j ≠ 0 by omega, show j ≠ 1 by omega]
  · simp only [Leaf.ofDesc]
    rw [getLsbD_descAttr _ kept, getLsbD_pageDesc pAligned]
    simp [show ¬ j < 2 by omega]

/-- The bits of an address that is a page's. -/
theorem MapRange.PageAligned.getLsbD_paddrAt (aligned : r.PageAligned) (low : r.lo ≤ o) {j : Nat}
    (inPage : j < 12) : (r.paddrAt (o / 2 ^ 12 * 2 ^ 12)).getLsbD j = false := by
  have first := aligned.lo
  have page : o / 2 ^ 12 * 2 ^ 12 % 2 ^ 12 = 0 := by omega
  have above : r.lo ≤ o / 2 ^ 12 * 2 ^ 12 := by omega
  exact getLsbD_eq_false_of_mod (aligned.paddrAt page above) inPage

end Leaves

/-! ## The attributes of `as_map` -/

theorem asAttr_privileged (prot : BitVec 32) (type : RamType) :
    (asAttr prot type).getLsbD 53 = true := by
  unfold asAttr
  by_cases read : prot &&& protRead = 0 <;> by_cases exec : prot &&& protExec = 0 <;>
    by_cases write : prot &&& protWrite = 0 <;> cases type <;>
    simp only [read, exec, write, ne_eq, not_true_eq_false, not_false_eq_true, if_true,
      if_false] <;> decide

section Region

variable {region : MemRegion} {prot : BitVec 32} {type : RamType} {o : Nat}

/-- What `as_map` asks `pt_map` for, below `2 ^ 39`. -/
def MemRegion.range (region : MemRegion) (prot : BitVec 32) (type : RamType) : MapRange :=
  ⟨region.vbase.toNat, pageUp (region.vbase.toNat + region.size.toNat), region.pbase,
    asAttr prot type⟩

theorem MemRegion.leaf_unprivileged (aligned : (region.range prot type).PageAligned)
    (low : region.vbase.toNat ≤ o) :
    ¬((region.range prot type).leaf o).PrivilegedExecutable := by
  unfold Leaf.PrivilegedExecutable
  rw [MapRange.getLsbD_leaf aligned low (by omega)]
  change ¬(_ || (asAttr prot type).getLsbD 53) = false
  rw [asAttr_privileged, Bool.or_true]
  simp

/-- The leaf of a page permits what `prot` asks for exactly if that is more than execution alone
or nothing, and no address bit stands in for the bit that forbids execution. -/
theorem MemRegion.leaf_permits_iff (aligned : (region.range prot type).PageAligned)
    (low : region.vbase.toNat ≤ o) :
    ((region.range prot type).leaf o).Permits prot ↔
      (prot &&& protRead ≠ 0 ∨ prot &&& protWrite ≠ 0) ∧
        (prot &&& protExec ≠ 0 →
          ((region.range prot type).paddrAt (o / 2 ^ 12 * 2 ^ 12)).getLsbD 54 = false) := by
  obtain ⟨-, user, write, execute, -⟩ := asAttr_spec prot type
  rw [getLsbD_descAttr _ (by omega)] at user write execute
  have bit : ∀ {j}, (2 ≤ j ∧ j < 12) ∨ (48 ≤ j ∧ j < 64) →
      ((region.range prot type).leaf o).attr.getLsbD j =
        (((region.range prot type).paddrAt (o / 2 ^ 12 * 2 ^ 12)).getLsbD j ||
          (asAttr prot type).getLsbD j) := MapRange.getLsbD_leaf aligned low
  have isUser : ((region.range prot type).leaf o).User := by
    unfold Leaf.User
    rw [bit (by omega), user, Bool.or_true]
  have isWritable : ((region.range prot type).leaf o).Writable ↔
      prot &&& protWrite ≠ 0 ∨ prot &&& protRead = 0 := by
    unfold Leaf.Writable
    rw [bit (by omega), aligned.getLsbD_paddrAt low (by omega), Bool.false_or]
    exact write
  have isExecutable : ((region.range prot type).leaf o).Executable ↔
      ((region.range prot type).paddrAt (o / 2 ^ 12 * 2 ^ 12)).getLsbD 54 = false ∧
        prot &&& protExec ≠ 0 := by
    unfold Leaf.Executable
    rw [bit (by omega), Bool.or_eq_false_iff, execute]
  constructor
  · intro permits
    constructor
    · have asked := permits.write.mp
      by_contra neither
      obtain ⟨unread, unwritten⟩ := not_or.mp neither
      exact unwritten (asked ⟨isUser, isWritable.mpr (.inr (not_not.mp unread))⟩)
    · intro exec
      exact (isExecutable.mp (permits.execute.mpr exec)).1
  · intro condition
    obtain ⟨access, frame⟩ := condition
    refine ⟨⟨fun allowed => ?_, fun asked => ⟨isUser, isWritable.mpr (.inl asked)⟩⟩,
      ⟨fun allowed => (isExecutable.mp allowed).2, fun exec =>
        isExecutable.mpr ⟨frame exec, exec⟩⟩, fun unread unwritten _ => ?_,
      leaf_unprivileged aligned low⟩
    · rcases isWritable.mp allowed.2 with asked | unread
      · exact asked
      · exact access.resolve_left (not_not_intro unread)
    · rcases access with read | write
      · exact absurd unread read
      · exact absurd unwritten write

end Region

/-! ## Calls of `as_map` -/

section Calls

variable {layout : Layout} {rest : List Block} {pgd : U64} {s s' : PtState MmGran}
  {region : MemRegion} {prot : BitVec 32} {type : RamType}

theorem Layout.Good.strict (isPage : linearView.IsPage pgd) :
    Strict linearView (layout.Good pgd rest) where
  forth x := by
    show pbaseToVbase x - ramVbase + ramPbase = x
    unfold pbaseToVbase
    rw [BitVec.add_sub_cancel, BitVec.sub_add_cancel]
  pages good q inTables := by
    rcases good.table inTables with rfl | ⟨placed, -⟩
    · exact isPage
    · exact linearView_isPage placed.aligned (BitVec.le_def.mpr placed.ram)

/-- The assertions that a call of `as_map` which returns has passed. -/
theorem asMap_asserts (run : asMap pgd region prot type s = .ok s') :
    region.vbase.toNat % 2 ^ 12 = 0 ∧ region.pbase.toNat % 2 ^ 12 = 0 ∧
      0 < region.size.toNat ∧ region.size.toNat ≤ 2 ^ 39 := by
  unfold asMap ptMap ptMapWith at run
  obtain ⟨-, run⟩ := of_require_bind_ok run
  obtain ⟨vAligned, run⟩ := of_require_bind_ok run
  obtain ⟨pAligned, run⟩ := of_require_bind_ok run
  obtain ⟨ne, run⟩ := of_require_bind_ok run
  obtain ⟨le, -⟩ := of_require_bind_ok run
  refine ⟨page_aligned_iff.mp vAligned, page_aligned_iff.mp pAligned, ?_, ?_⟩
  · apply Nat.pos_of_ne_zero
    intro zero
    exact ne (BitVec.eq_of_toNat_eq zero)
  · exact BitVec.le_def.mp le

/-- A call below `2 ^ 39` that returns has built the leaves it was asked for: a block in the
way of a page would have sent it astray. -/
theorem UserTable.built (table : UserTable layout rest pgd s)
    (run : asMap pgd region prot type s = .ok s')
    (low : pageUp (region.vbase.toNat + region.size.toNat) ≤ 2 ^ 39) :
    ∃ tree tree', PtInv linearView (layout.Good pgd rest) pgd tree s ∧
      Built linearView (layout.Good pgd rest) pgd (region.range prot type) tree s
        (region.range prot type).lo (region.range prot type).hi tree' s' := by
  obtain ⟨tree, inv⟩ := table.table
  obtain ⟨vAligned, pAligned, pos, le⟩ := asMap_asserts run
  have asked : (region.range prot type).Asked 0 region.vbase region.size :=
    ⟨vAligned, pAligned, pos, le, (Nat.zero_add _).symm, (Nat.zero_add _).symm, rfl, low⟩
  have free : (region.range prot type).Free (fun _ => True) linearView tree s.mem
      (region.range prot type).lo (region.range prot type).hi := by
    intro o _ high _ leaf found
    have inside : o < 2 ^ 39 := lt_of_lt_of_le high low
    have seen : translate s.mem (vbaseToPbase pgd).toNat .lower o = some leaf := by
      rw [inv.translate_eq (Nat.zero_le _) (by simpa [Half.base] using inside)]
      exact found
    have sealed := table.unprivileged o leaf seen
    refine .inr ⟨trivial, Nat.le_of_not_lt fun small => sealed ?_⟩
    exact getLsbD_eq_false_of_lt small (by omega)
  have room : 0 + (region.range prot type).hi + 2 ^ 30 ≤ 2 ^ 64 := by
    change 0 + pageUp (region.vbase.toNat + region.size.toNat) + 2 ^ 30 ≤ 2 ^ 64
    omega
  have isPage := inv.repr.page inv.root
  rcases ptMapWith_buildsOr (ptCalloc_spec table.below) trivial
      (fun _ => Layout.Good.strict isPage) asked room inv free with
    ⟨fault, -, failed, -⟩ | ⟨tree', s'', ok, built, -⟩
  · cases failed.symm.trans run
  · cases ok.symm.trans run
    exact ⟨tree, tree', inv, built⟩

/-- A call of `as_map` for addresses below `2 ^ 39` keeps the table a user table. -/
theorem UserTable.map (table : UserTable layout rest pgd s)
    (run : asMap pgd region prot type s = .ok s')
    (low : pageUp (region.vbase.toNat + region.size.toNat) ≤ 2 ^ 39) :
    UserTable layout rest pgd s' := by
  obtain ⟨vAligned, pAligned, -, -⟩ := asMap_asserts run
  obtain ⟨tree, tree', inv, built⟩ := table.built run low
  refine ⟨table.below, ⟨tree', built.inv⟩, fun v leaf found => ?_⟩
  by_cases window : v < 2 ^ 39
  · have inHalf : v < Half.lower.base + 2 ^ 39 := by simpa [Half.base] using window
    rw [built.inv.translate_eq (Nat.zero_le _) inHalf] at found
    by_cases inside : region.vbase.toNat ≤ v ∧
        v < pageUp (region.vbase.toNat + region.size.toNat)
    · cases (built.inside v inside.1 inside.2).symm.trans found
      exact MemRegion.leaf_unprivileged ⟨vAligned, pAligned⟩ inside.1
    · have outside : v < region.vbase.toNat ∨
          pageUp (region.vbase.toNat + region.size.toNat) ≤ v := by
        omega
      apply table.unprivileged v leaf
      rw [inv.translate_eq (Nat.zero_le _) inHalf]
      exact (built.outside v outside).symm.trans found
  · rw [translate_outside (.inr (by simpa [Half.base] using window))] at found
    cases found

/-- The tables that the calls of a task lead to are of this kind. -/
theorem MemInv.userTable {others : List Block} {maps : List Mapping}
    (inv : MemInv layout others maps s) :
    UserTable layout (blocksOf maps ++ others) layout.userPgd s := by
  obtain ⟨tree, holding⟩ := inv.table
  refine ⟨layout.userPgd_lt, ⟨tree, holding.inv⟩, fun v leaf found privileged => ?_⟩
  by_cases inside : v < 2 ^ 39
  · rw [holding.inv.translate_eq (Nat.zero_le _) (by simpa [Half.base] using inside),
      holding.lookup] at found
    obtain ⟨call, inCalls, low, high, rfl⟩ := of_leafOf found
    obtain ⟨m, inMaps, rfl⟩ := List.mem_map.mp inCalls
    rw [(inv.ok m inMaps).leaf_eq ⟨low, high⟩] at privileged
    unfold Leaf.PrivilegedExecutable at privileged
    rw [getLsbD_descAttr _ (by omega), asAttr_privileged] at privileged
    cases privileged
  · rw [translate_outside (.inr (by simpa [Half.base] using inside))] at found
    cases found

/-- After a call that returns, every page of the region has a leaf that lets EL0 write,
execute or do nothing just as `prot` says, and the kernel never execute, if and only if the
region lies below `2 ^ 39`, `prot` has `PROT_READ` or `PROT_WRITE`, and pages to be executed
are not at an address with bit 54. -/
theorem as_map_permits_iff (table : UserTable layout rest pgd s)
    (run : asMap pgd region prot type s = .ok s') :
    MappedAs s'.mem pgd region prot ↔ Permissible region prot := by
  obtain ⟨vAligned, pAligned, pos, -⟩ := asMap_asserts run
  by_cases low : pageUp (region.vbase.toNat + region.size.toNat) ≤ 2 ^ 39
  · obtain ⟨tree, tree', -, built⟩ := table.built run low
    have aligned : (region.range prot type).PageAligned := ⟨vAligned, pAligned⟩
    have leaf_eq : ∀ v, region.Covers v →
        translate s'.mem (vbaseToPbase pgd).toNat .lower v =
          some ((region.range prot type).leaf v) := by
      intro v covers
      have inside : v < 2 ^ 39 := lt_of_lt_of_le covers.2 low
      rw [built.inv.translate_eq (Nat.zero_le _) (by simpa [Half.base] using inside)]
      exact built.inside v covers.1 covers.2
    have first : region.Covers region.vbase.toNat := by
      refine ⟨le_rfl, ?_⟩
      unfold pageUp
      omega
    constructor
    · intro mapped
      have permits : ∀ v, region.Covers v →
          ((region.range prot type).leaf v).Permits prot := by
        intro v covers
        obtain ⟨leaf, found, permits⟩ := mapped v covers
        rw [leaf_eq v covers] at found
        cases found
        exact permits
      refine ⟨low, ((MemRegion.leaf_permits_iff aligned le_rfl).mp (permits _ first)).1, ?_⟩
      intro exec v covers page
      have frame := ((MemRegion.leaf_permits_iff aligned covers.1).mp (permits v covers)).2 exec
      rwa [show v / 2 ^ 12 * 2 ^ 12 = v by omega] at frame
    · intro condition v covers
      refine ⟨_, leaf_eq v covers, (MemRegion.leaf_permits_iff aligned covers.1).mpr
        ⟨condition.access, fun exec => ?_⟩⟩
      have start : region.Covers (v / 2 ^ 12 * 2 ^ 12) := by
        obtain ⟨above, below⟩ := covers
        exact ⟨by omega, by omega⟩
      exact condition.frames exec _ start (by omega)
  · refine iff_of_false (fun mapped => ?_) fun condition => low condition.low
    -- a page from `2 ^ 39` on is not translated by this table
    obtain ⟨v, covers, high⟩ : ∃ v, region.Covers v ∧ 2 ^ 39 ≤ v := by
      by_cases start : 2 ^ 39 ≤ region.vbase.toNat
      · refine ⟨region.vbase.toNat, ⟨le_rfl, ?_⟩, start⟩
        unfold pageUp
        omega
      · exact ⟨2 ^ 39, ⟨by omega, by omega⟩, le_rfl⟩
    obtain ⟨leaf, found, -⟩ := mapped v covers
    rw [translate_outside (.inr (by simpa [Half.base] using high))] at found
    cases found

end Calls

/-- The small kernel before its root task is made. -/
def sampleTable : PtState MmGran := ⟨sampleRam [], sampleHeap, [sampleLayout.userPgd]⟩

theorem sampleTable_inv : MemInv sampleLayout [] [] sampleTable :=
  MemInv.start sampleHeap_inv sampleRam_clear

theorem as_map_permits_iff_sample : ∃ s',
    asMap sampleLayout.userPgd ⟨0x40006000, 0x10000, 0x2000⟩ (protRead ||| protExec) .normal
      sampleTable = .ok s' ∧
    MappedAs s'.mem sampleLayout.userPgd ⟨0x40006000, 0x10000, 0x2000⟩ (protRead ||| protExec) := by
  have evaluated : Returns (asMap sampleLayout.userPgd ⟨0x40006000, 0x10000, 0x2000⟩
      (protRead ||| protExec) .normal sampleTable) fun _ => True := by
    decide +kernel
  obtain ⟨s', run, -⟩ := evaluated
  have iff := as_map_permits_iff sampleTable_inv.userTable run
  refine ⟨s', run, iff.mpr ⟨by decide, by decide, fun _ v covers page => ?_⟩⟩
  have pages : v = 0x10000 ∨ v = 0x11000 := by
    have low : 0x10000 ≤ v := covers.1
    have high : v < 0x12000 := covers.2
    omega
  rcases pages with rfl | rfl <;> decide

/-- The root task of the small kernel maps a page with `PROT_NONE` and may write to it. -/
theorem prot_none_writable : ∃ k ret p', initKernel (sampleBoot sampleFile) = .ok k ∧
    sysMmap k.root 0 4096 0 0x22 0 0 = .ok (ret, p') ∧
    ∃ leaf, p'.translate ret.toNat = some leaf ∧ leaf.User ∧ leaf.Writable ∧
      ¬leaf.Permits 0 := by
  have evaluated : Returns (initKernel (sampleBoot sampleFile)) fun k =>
      Returns (sysMmap k.root 0 4096 0 0x22 0 0) fun result =>
        ∃ leaf ∈ result.2.translate result.1.toNat, leaf.User ∧ leaf.Writable := by
    decide +kernel
  obtain ⟨k, booted, returns⟩ := evaluated
  obtain ⟨⟨ret, p'⟩, run, leaf, found, user, writable⟩ := returns
  refine ⟨k, ret, p', booted, run, leaf, found, user, writable, fun permits => ?_⟩
  exact (permits.none rfl rfl rfl).1 user

end Chinos
