import Chinos.Gran.Search
import Chinos.Machine.Streak

/-!
# The state of the granule heap, `os/core/mm/mm_graninfo.c`

`granDump` counts the free granules and finds the longest run of them. It looks up
nibbles of the allocation table in `gInfoTable`, puts the answers together to bytes,
half words and words with `granInfoCombine`, and goes through the words with a running
count of the free granules at the end of what it has seen.
-/

namespace Chinos

/-- `struct valinfo_s`, and `struct nibble_info_s` of the tables; the fields are `uint8_t`. -/
structure ValInfo where
  nfree : Nat
  nlsfree : Nat
  nmsfree : Nat
  mxfree : Nat
  deriving DecidableEq, Repr

/-- `struct graninfo`, the report of `gran_dump`. -/
structure GranInfo where
  log2gran : Nat
  ngranules : Nat
  nfree : Nat
  mxfree : Nat
  deriving DecidableEq, Repr

/-- `g_info_table`, with the tables `g_0bit_info` to `g_4bit_info` it points to. -/
def gInfoTable : List (List ValInfo) := [
  [⟨0, 0, 0, 0⟩],
  [⟨1, 1, 0, 0⟩, ⟨0, 0, 0, 0⟩],
  [⟨2, 2, 0, 0⟩, ⟨1, 0, 1, 0⟩, ⟨1, 1, 0, 0⟩, ⟨0, 0, 0, 0⟩],
  [⟨3, 3, 0, 0⟩, ⟨2, 0, 2, 0⟩, ⟨2, 1, 1, 0⟩, ⟨1, 0, 1, 0⟩,
   ⟨2, 2, 0, 0⟩, ⟨1, 0, 0, 1⟩, ⟨1, 1, 0, 0⟩, ⟨0, 0, 0, 0⟩],
  [⟨4, 4, 0, 0⟩, ⟨3, 0, 3, 0⟩, ⟨3, 1, 2, 0⟩, ⟨2, 0, 2, 0⟩,
   ⟨3, 2, 1, 0⟩, ⟨2, 0, 1, 1⟩, ⟨2, 1, 1, 0⟩, ⟨1, 0, 1, 0⟩,
   ⟨3, 3, 0, 0⟩, ⟨2, 0, 0, 2⟩, ⟨2, 1, 0, 1⟩, ⟨1, 0, 0, 1⟩,
   ⟨2, 2, 0, 0⟩, ⟨1, 0, 0, 1⟩, ⟨1, 1, 0, 0⟩, ⟨0, 0, 0, 0⟩]]

/-- `gran_nibble_info`, which looks up the low `nbits` bits of `value`. -/
def granNibbleInfo (value nbits : Nat) : ValInfo :=
  let table := gInfoTable.getD nbits []
  let mask := 2 ^ nbits - 1
  table.getD (value &&& mask) ⟨0, 0, 0, 0⟩

/-- The conversion to `uint8_t`, the type of the fields of `struct valinfo`. -/
def cU8 (x : Nat) : Nat := x % 2 ^ 8

/-- `gran_info_combine`, whose result is the new `lsinfo`: what is known of a value, from what is
known of its upper `msbits` and lower `lsbits` bits. -/
def granInfoCombine (msinfo : ValInfo) (msbits : Nat) (lsinfo : ValInfo) (lsbits : Nat) : ValInfo :=
  let midfree :=
    if lsinfo.nlsfree < lsbits ∧ msinfo.nlsfree < msbits then lsinfo.nmsfree + msinfo.nlsfree
    else 0
  let nfree := cU8 (lsinfo.nfree + msinfo.nfree)
  let nmsfree :=
    if msinfo.nlsfree = msbits then
      if lsinfo.nlsfree = lsbits then 0 else cU8 (lsinfo.nmsfree + msbits)
    else msinfo.nmsfree
  let nlsfree :=
    if lsinfo.nlsfree = lsbits then cU8 (lsinfo.nlsfree + msinfo.nlsfree) else lsinfo.nlsfree
  let mxfree := if midfree > lsinfo.mxfree then cU8 midfree else lsinfo.mxfree
  let mxfree := if msinfo.mxfree > mxfree then msinfo.mxfree else mxfree
  ⟨nfree, nlsfree, nmsfree, mxfree⟩

/-- The arm for a value with free and allocated bits: the low `half` bits, combined with
the others if there are any. -/
def granHalvesInfo (half : Nat) (piece : Nat → Nat → ValInfo) (value nbits : Nat) : ValInfo :=
  let info := piece (value &&& (2 ^ half - 1)) (if nbits > half then half else nbits)
  if nbits > half then
    let msbits := nbits - half
    granInfoCombine (piece (value >>> half) msbits) msbits info half
  else info

/-- `gran_byte_info` and `gran_hword_info`, for values of `2 * half` bits. -/
def granPieceInfo (half : Nat) (piece : Nat → Nat → ValInfo) (value nbits : Nat) : ValInfo :=
  let mask := if nbits < 2 * half then 2 ^ nbits - 1 else 2 ^ (2 * half) - 1
  let value := if nbits < 2 * half then value &&& mask else value
  if value = 0 then ⟨cU8 nbits, cU8 nbits, 0, 0⟩
  else if value = mask then ⟨0, 0, 0, 0⟩
  else granHalvesInfo half piece value nbits

/-- `gran_byte_info`, which puts a byte together from two nibbles. -/
def granByteInfo : Nat → Nat → ValInfo := granPieceInfo 4 granNibbleInfo

/-- `gran_hword_info`, which puts a half word together from two bytes. -/
def granHwordInfo : Nat → Nat → ValInfo := granPieceInfo 8 granByteInfo

/-- `if (mxfree > info->mxfree) info->mxfree = mxfree;`, at the end of each run of free
granules. -/
def GranInfo.note (info : GranInfo) (mxfree : Nat) : GranInfo :=
  if mxfree > info.mxfree then { info with mxfree := mxfree } else info

/-- What one word of the table adds: the new `info` and the new running `mxfree`. -/
def granDumpWord (value nbits mask : Nat) (info : GranInfo) (mxfree : Nat) : GranInfo × Nat :=
  if value = mask then (info.note mxfree, 0)
  else if value = 0 then
    ({ info with nfree := cU32 (info.nfree + nbits) }, cU32 (mxfree + nbits))
  else
    let hwinfo := granHalvesInfo 16 granHwordInfo value nbits
    let mxfree := if hwinfo.nlsfree > 0 then cU32 (mxfree + hwinfo.nlsfree) else mxfree
    let (info, mxfree) :=
      if hwinfo.nlsfree < nbits then
        let mxfree := if hwinfo.mxfree > mxfree then hwinfo.mxfree else mxfree
        (info.note mxfree, hwinfo.nmsfree)
      else (info, mxfree)
    ({ info with nfree := cU32 (info.nfree + hwinfo.nfree) }, mxfree)

/-- The loop of `gran_dump` over the words of the table, from granule `granidx` on. -/
def granDumpLoop (gran : MmGran) :
    (rounds granidx : Nat) → GranInfo → (mxfree : Nat) → Except Fault (GranInfo × Nat)
  | 0, granidx, info, mxfree =>
    if granidx < gran.ngranules then .error .diverge else .ok (info, mxfree)
  | rounds + 1, granidx, info, mxfree =>
    if granidx < gran.ngranules then
      let gatidx := granidx >>> 5
      let value := (gran.gat gatidx).toNat
      let (info, mxfree) :=
        if cU32 (granidx + 32) > gran.ngranules then
          -- the final entry is a special case
          let nbits := gran.ngranules - granidx
          let mask := 2 ^ nbits - 1
          granDumpWord (value &&& mask) nbits mask info mxfree
        else granDumpWord value 32 0xffffffff info mxfree
      granDumpLoop gran rounds (cU32 (granidx + 32)) info mxfree
    else .ok (info, mxfree)

/-- `gran_dump`, which reports the number of free granules and the length of their longest run. -/
def granDump (gran : MmGran) : Except Fault GranInfo := do
  let info : GranInfo := ⟨gran.log2gran, gran.ngranules, 0, 0⟩
  let (info, mxfree) ← granDumpLoop gran (sizeofGat gran.ngranules) 0 info 0
  return info.note mxfree

section Note

variable (info : GranInfo) (mxfree : Nat)

@[simp] theorem GranInfo.note_mxfree : (info.note mxfree).mxfree = max info.mxfree mxfree := by
  unfold GranInfo.note
  split
  · rename_i more
    exact (max_eq_right (Nat.le_of_lt more)).symm
  · rename_i less
    exact (max_eq_left (Nat.le_of_not_lt less)).symm

@[simp] theorem GranInfo.note_nfree : (info.note mxfree).nfree = info.nfree := by
  unfold GranInfo.note
  split <;> rfl

@[simp] theorem GranInfo.note_log2gran : (info.note mxfree).log2gran = info.log2gran := by
  unfold GranInfo.note
  split <;> rfl

@[simp] theorem GranInfo.note_ngranules : (info.note mxfree).ngranules = info.ngranules := by
  unfold GranInfo.note
  split <;> rfl

end Note

/-! ## Values as bit strings -/

/-- Which of the lowest `nbits` bits of `value` are free, the lowest first. -/
def freeBits (value nbits : Nat) : List Bool :=
  (List.range nbits).map fun j => !value.testBit j

@[simp] theorem length_freeBits (value nbits : Nat) : (freeBits value nbits).length = nbits := by
  simp [freeBits]

theorem freeBits_congr {value value' nbits : Nat}
    (same : ∀ j < nbits, value.testBit j = value'.testBit j) :
    freeBits value nbits = freeBits value' nbits := by
  apply List.map_congr_left
  intro j inside
  rw [same j (List.mem_range.mp inside)]

theorem freeBits_and_mask (value : Nat) {nbits k : Nat} (le : nbits ≤ k) :
    freeBits (value &&& (2 ^ k - 1)) nbits = freeBits value nbits := by
  apply freeBits_congr
  intro j below
  rw [Nat.testBit_and, Nat.testBit_two_pow_sub_one, decide_eq_true (lt_of_lt_of_le below le),
    Bool.and_true]

theorem freeBits_add (value low high : Nat) :
    freeBits value (low + high) = freeBits value low ++ freeBits (value >>> low) high := by
  simp only [freeBits, List.range_add, List.map_append, List.map_map]
  congr 1
  apply List.map_congr_left
  intro j _
  simp [Nat.testBit_shiftRight]

theorem freeBits_zero (nbits : Nat) : freeBits 0 nbits = List.replicate nbits true := by
  simp [freeBits, List.map_const', List.length_range]

theorem freeBits_mask (nbits : Nat) :
    freeBits (2 ^ nbits - 1) nbits = List.replicate nbits false := by
  rw [List.eq_replicate_iff]
  refine ⟨length_freeBits _ _, ?_⟩
  intro b inside
  obtain ⟨j, below, rfl⟩ := List.mem_map.mp inside
  rw [Nat.testBit_two_pow_sub_one, decide_eq_true (List.mem_range.mp below), Bool.not_true]

/-! ## Summaries -/

/-- What `info` says about `bits`. A string that is free from end to end has no bits at
its most significant end, and `mxfree` need only tell streaks that touch neither end. -/
structure Summarises (info : ValInfo) (bits : List Bool) : Prop where
  nfree : info.nfree = bits.count true
  nlsfree : info.nlsfree = lead bits
  nmsfree : info.nmsfree = if lead bits = bits.length then 0 else trail bits
  mxfree : max (max info.nlsfree info.nmsfree) info.mxfree = longest bits

instance summarisesDecidable (info : ValInfo) (bits : List Bool) :
    Decidable (Summarises info bits) :=
  decidable_of_iff
    (info.nfree = bits.count true ∧ info.nlsfree = lead bits ∧
      info.nmsfree = (if lead bits = bits.length then 0 else trail bits) ∧
      max (max info.nlsfree info.nmsfree) info.mxfree = longest bits)
    ⟨fun ⟨a, b, c, d⟩ => ⟨a, b, c, d⟩, fun h => ⟨h.nfree, h.nlsfree, h.nmsfree, h.mxfree⟩⟩

theorem cU8_eq {x : Nat} (small : x < 2 ^ 8) : cU8 x = x := Nat.mod_eq_of_lt small

theorem lead_replicate_true (n : Nat) : lead (List.replicate n true) = n := by
  have all : lead (List.replicate n true) = (List.replicate n true).length :=
    lead_eq_length_iff.mpr fun x inside => List.eq_of_mem_replicate inside
  rwa [List.length_replicate] at all

theorem longest_replicate_true (n : Nat) : longest (List.replicate n true) = n := by
  have low := lead_le_longest (List.replicate n true)
  have high := longest_le_length (List.replicate n true)
  rw [lead_replicate_true] at low
  rw [List.length_replicate] at high
  exact le_antisymm high low

theorem longest_replicate_false (n : Nat) : longest (List.replicate n false) = 0 := by
  induction n with
  | zero => rfl
  | succ n ih => simp [List.replicate_succ, longest, lead, ih]

theorem summarises_free (nbits : Nat) :
    Summarises ⟨nbits, nbits, 0, 0⟩ (List.replicate nbits true) where
  nfree := (List.count_replicate_self).symm
  nlsfree := (lead_replicate_true nbits).symm
  nmsfree := by simp [lead_replicate_true]
  mxfree := by simp [longest_replicate_true]

theorem lead_replicate_false (n : Nat) : lead (List.replicate n false) = 0 := by
  cases n <;> rfl

theorem trail_replicate_false (n : Nat) : trail (List.replicate n false) = 0 := by
  rw [trail, List.reverse_replicate, lead_replicate_false]

theorem summarises_allocated (nbits : Nat) :
    Summarises ⟨0, 0, 0, 0⟩ (List.replicate nbits false) where
  nfree := by simp [List.count_replicate]
  nlsfree := (lead_replicate_false nbits).symm
  nmsfree := by rw [trail_replicate_false, ite_self]
  mxfree := by simp [longest_replicate_false]

/-- The longest streak of a string that is not free from end to end, as `mxfree` finds it. -/
theorem granInfoCombine_mxfree {lsinfo msinfo : ValInfo} {lsbits msbits : Nat}
    (small : lsinfo.nmsfree + msinfo.nlsfree < 2 ^ 8) :
    (granInfoCombine msinfo msbits lsinfo lsbits).mxfree =
      max (max (if lsinfo.nlsfree < lsbits ∧ msinfo.nlsfree < msbits
        then lsinfo.nmsfree + msinfo.nlsfree else 0) lsinfo.mxfree) msinfo.mxfree := by
  simp only [granInfoCombine]
  have mid : cU8 (if lsinfo.nlsfree < lsbits ∧ msinfo.nlsfree < msbits
      then lsinfo.nmsfree + msinfo.nlsfree else 0) =
      if lsinfo.nlsfree < lsbits ∧ msinfo.nlsfree < msbits
        then lsinfo.nmsfree + msinfo.nlsfree else 0 := by
    apply cU8_eq
    split <;> omega
  rw [mid]
  generalize (if lsinfo.nlsfree < lsbits ∧ msinfo.nlsfree < msbits
    then lsinfo.nmsfree + msinfo.nlsfree else 0) = midfree
  split <;> split <;> omega

/-- Combining the summaries of two pieces summarises the pieces put together. -/
theorem Summarises.combine {lsinfo msinfo : ValInfo} {ls ms : List Bool}
    (low : Summarises lsinfo ls) (high : Summarises msinfo ms)
    (small : ls.length + ms.length < 2 ^ 8) :
    Summarises (granInfoCombine msinfo ms.length lsinfo ls.length) (ls ++ ms) := by
  have leadLs := lead_le_length ls
  have leadMs := lead_le_length ms
  have trailLs := trail_le_length ls
  have count : (ls ++ ms).count true = ls.count true + ms.count true := List.count_append
  have countLe : (ls ++ ms).count true ≤ (ls ++ ms).length := List.count_le_length
  have nmsLe : lsinfo.nmsfree ≤ ls.length := by
    rw [low.nmsfree]
    split <;> omega
  have nls : (granInfoCombine msinfo ms.length lsinfo ls.length).nlsfree = lead (ls ++ ms) := by
    simp only [granInfoCombine, low.nlsfree, high.nlsfree, lead_append]
    split
    · rename_i all
      rw [cU8_eq (by omega), all]
    · rfl
  have nms : (granInfoCombine msinfo ms.length lsinfo ls.length).nmsfree =
      if lead (ls ++ ms) = (ls ++ ms).length then 0 else trail (ls ++ ms) := by
    simp only [granInfoCombine, low.nlsfree, high.nlsfree, lead_append, trail_append,
      List.length_append]
    by_cases allMs : lead ms = ms.length
    · by_cases allLs : lead ls = ls.length
      · simp only [allMs, allLs, if_true]
      · have notAll : ¬ lead ls = ls.length + ms.length := by omega
        simp only [allMs, allLs, notAll, if_true, if_false, low.nmsfree]
        exact cU8_eq (by omega)
    · have notAll : ¬ (if lead ls = ls.length then ls.length + lead ms else lead ls) =
          ls.length + ms.length := by
        split <;> omega
      rw [if_neg allMs, if_neg allMs, if_neg notAll, high.nmsfree, if_neg allMs]
  refine ⟨?_, nls, nms, ?_⟩
  · simp only [granInfoCombine, low.nfree, high.nfree, count]
    rw [List.length_append] at countLe
    exact cU8_eq (by omega)
  · rw [nls, nms, granInfoCombine_mxfree (by rw [high.nlsfree]; omega), longest_append,
      ← low.mxfree, ← high.mxfree]
    simp only [low.nlsfree, high.nlsfree, lead_append, trail_append, List.length_append]
    have mxLs : lsinfo.mxfree ≤ ls.length :=
      (le_max_right _ _).trans (low.mxfree ▸ longest_le_length ls)
    have mxMs : msinfo.mxfree ≤ ms.length :=
      (le_max_right _ _).trans (high.mxfree ▸ longest_le_length ms)
    have nmsLs := low.nmsfree
    have nmsMs := high.nmsfree
    apply eq_of_forall_ge_iff
    intro k
    simp only [max_le_iff]
    clear nls nms count countLe
    -- either piece may be free from end to end
    by_cases allLs : lead ls = ls.length
    · have across := trail_eq_length_iff.mpr allLs
      by_cases allMs : lead ms = ms.length
      · simp only [allLs, allMs, across, if_true, lt_irrefl, and_self, if_false] at nmsLs nmsMs ⊢
        omega
      · simp only [allLs, allMs, across, if_true, if_false, lt_irrefl, false_and,
          Nat.add_left_cancel_iff] at nmsLs nmsMs ⊢
        omega
    · have notAll : ¬ lead ls = ls.length + ms.length := by omega
      by_cases allMs : lead ms = ms.length
      · simp only [allLs, allMs, notAll, if_true, if_false, lt_irrefl, and_false] at nmsLs nmsMs ⊢
        omega
      · have both : lead ls < ls.length ∧ lead ms < ms.length := by omega
        simp only [allLs, allMs, notAll, both, if_false, and_self, if_true] at nmsLs nmsMs ⊢
        omega

/-- `piece` summarises the valid bits of every value of `w` bits. -/
def Describes (w : Nat) (piece : Nat → Nat → ValInfo) : Prop :=
  ∀ value nbits, value < 2 ^ w → nbits ≤ w →
    Summarises (piece value nbits) (freeBits value nbits)

theorem granNibbleInfo_describes : Describes 4 granNibbleInfo := by
  have tables : ∀ value < 16, ∀ nbits < 5,
      Summarises (granNibbleInfo value nbits) (freeBits value nbits) := by decide +kernel
  intro value nbits small valid
  exact tables value small nbits (Nat.lt_succ_of_le valid)

section Pieces

variable {half : Nat} {piece : Nat → Nat → ValInfo}

theorem Describes.halves (describes : Describes half piece) (narrow : 2 * half < 2 ^ 8)
    {value nbits : Nat} (small : value < 2 ^ (2 * half)) (valid : nbits ≤ 2 * half) :
    Summarises (granHalvesInfo half piece value nbits) (freeBits value nbits) := by
  have lowSmall : value &&& (2 ^ half - 1) < 2 ^ half := Nat.and_lt_two_pow _ (by simp)
  unfold granHalvesInfo
  by_cases more : nbits > half
  · simp only [if_pos more]
    have low := describes (value &&& (2 ^ half - 1)) half lowSmall le_rfl
    have highSmall : value >>> half < 2 ^ half := by
      rw [Nat.shiftRight_eq_div_pow]
      apply Nat.div_lt_of_lt_mul
      rwa [← Nat.pow_add, ← Nat.two_mul]
    have high := describes (value >>> half) (nbits - half) highSmall (by omega)
    rw [freeBits_and_mask value le_rfl] at low
    have both := low.combine high (by simp only [length_freeBits]; omega)
    rw [← freeBits_add, length_freeBits, length_freeBits] at both
    rwa [Nat.add_sub_cancel' (Nat.le_of_lt more)] at both
  · simp only [if_neg more]
    have low := describes (value &&& (2 ^ half - 1)) nbits lowSmall (by omega)
    rwa [freeBits_and_mask value (by omega)] at low

theorem Describes.twice (describes : Describes half piece) (narrow : 2 * half < 2 ^ 8) :
    Describes (2 * half) (granPieceInfo half piece) := by
  intro value nbits small valid
  -- the mask covers exactly the valid bits
  have mask : (if nbits < 2 * half then 2 ^ nbits - 1 else 2 ^ (2 * half) - 1) =
      2 ^ nbits - 1 := by
    split
    · rfl
    · rw [show nbits = 2 * half by omega]
  obtain ⟨masked, isMasked⟩ :
      ∃ masked, masked = if nbits < 2 * half then value &&& (2 ^ nbits - 1) else value := ⟨_, rfl⟩
  have same : freeBits masked nbits = freeBits value nbits := by
    rw [isMasked]
    split
    · exact freeBits_and_mask value le_rfl
    · rfl
  have maskedSmall : masked < 2 ^ (2 * half) := by
    rw [isMasked]
    split
    · exact lt_of_le_of_lt Nat.and_le_left small
    · exact small
  simp only [granPieceInfo, mask, ← isMasked]
  rw [← same]
  split
  · rename_i free
    rw [free, freeBits_zero, cU8_eq (by omega)]
    exact summarises_free nbits
  · split
    · rename_i full
      rw [full, freeBits_mask]
      exact summarises_allocated nbits
    · exact describes.halves narrow maskedSmall valid

end Pieces

theorem granByteInfo_describes : Describes 8 granByteInfo :=
  granNibbleInfo_describes.twice (by decide)

theorem granHwordInfo_describes : Describes 16 granHwordInfo :=
  granByteInfo_describes.twice (by decide)

/-! ## The words of the table -/

/-- What `gran_dump` knows after the granules whose free bits are `seen`: the running
`mxfree` is the streak at their end, and the longest streak is that one or `info.mxfree`. -/
structure Tally (seen : List Bool) (info : GranInfo) (mxfree : Nat) : Prop where
  nfree : info.nfree = seen.count true
  running : mxfree = trail seen
  mxfree : max info.mxfree mxfree = longest seen

theorem cU32_add {x y : Nat} (small : x + y < 2 ^ 32) : cU32 ((x : Int) + (y : Int)) = x + y := by
  rw [← Nat.cast_add]
  exact cU32_natCast small

section Word

variable {seen : List Bool} {info : GranInfo} {mxfree value nbits : Nat}

theorem Tally.running_le (tally : Tally seen info mxfree) : mxfree ≤ seen.length :=
  tally.running ▸ trail_le_length seen

/-- A word without a free granule ends the running streak. -/
theorem Tally.allocated (tally : Tally seen info mxfree) (valid : 0 < nbits) :
    Tally (seen ++ List.replicate nbits false) (info.note mxfree) 0 := by
  have notAll : ¬ lead (List.replicate nbits false) = (List.replicate nbits false).length := by
    rw [lead_replicate_false, List.length_replicate]
    omega
  refine ⟨?_, ?_, ?_⟩
  · rw [GranInfo.note_nfree, tally.nfree, List.count_append, List.count_replicate]
    rfl
  · rw [trail_append, if_neg notAll, trail_replicate_false]
  · have running := tally.running
    rw [longest_append, longest_replicate_false, lead_replicate_false, GranInfo.note_mxfree,
      ← tally.mxfree]
    omega

/-- A word of free granules prolongs the run of free granules that the words before it end
with. -/
theorem Tally.free (tally : Tally seen info mxfree) (room : seen.length + nbits < 2 ^ 32) :
    Tally (seen ++ List.replicate nbits true)
      { info with nfree := cU32 (info.nfree + nbits) } (cU32 (mxfree + nbits)) := by
  have countLe : seen.count true ≤ seen.length := List.count_le_length
  have running := tally.running_le
  have grown : cU32 ((mxfree : Int) + nbits) = mxfree + nbits := cU32_add (by omega)
  rw [grown]
  refine ⟨?_, ?_, ?_⟩
  · simp only [tally.nfree, List.count_append, List.count_replicate_self]
    exact cU32_add (by omega)
  · rw [trail_append, lead_replicate_true, List.length_replicate, if_pos rfl, tally.running]
  · have isTrail := tally.running
    rw [longest_append, longest_replicate_true, lead_replicate_true, ← tally.mxfree]
    simp only
    omega

/-- What the last arm of the loop makes of the summary of a word. -/
theorem Tally.mixed {hwinfo : ValInfo} {bits : List Bool} (tally : Tally seen info mxfree)
    (summary : Summarises hwinfo bits) (room : seen.length + bits.length < 2 ^ 32) :
    let mxfree₁ := if hwinfo.nlsfree > 0 then cU32 (mxfree + hwinfo.nlsfree) else mxfree
    let next :=
      if hwinfo.nlsfree < bits.length then
        (info.note (if hwinfo.mxfree > mxfree₁ then hwinfo.mxfree else mxfree₁), hwinfo.nmsfree)
      else (info, mxfree₁)
    Tally (seen ++ bits) { next.1 with nfree := cU32 (next.1.nfree + hwinfo.nfree) } next.2 := by
  intro mxfree₁ next
  have leadLe := lead_le_length bits
  have runningLe := tally.running_le
  have countLe : seen.count true ≤ seen.length := List.count_le_length
  have countLe' : bits.count true ≤ bits.length := List.count_le_length
  have grown : mxfree₁ = trail seen + lead bits := by
    simp only [mxfree₁, summary.nlsfree, ← tally.running]
    split
    · exact cU32_add (by omega)
    · omega
  have isTrail := tally.running
  by_cases all : lead bits = bits.length
  · have nextIs : next = (info, trail seen + lead bits) := by
      simp only [next, summary.nlsfree, all, lt_irrefl, if_false, grown]
    have mxLe : hwinfo.mxfree ≤ bits.length :=
      (le_max_right _ _).trans (summary.mxfree ▸ longest_le_length bits)
    rw [nextIs]
    refine ⟨?_, ?_, ?_⟩
    · simp only [tally.nfree, summary.nfree, List.count_append]
      exact cU32_add (by omega)
    · rw [trail_append, if_pos all, all]
    · rw [longest_append, ← tally.mxfree, ← summary.mxfree, summary.nlsfree, summary.nmsfree,
        if_pos all]
      apply eq_of_forall_ge_iff
      intro k
      simp only [max_le_iff]
      omega
  · have nextIs : next = (info.note (max hwinfo.mxfree (trail seen + lead bits)), trail bits) := by
      simp only [next, summary.nlsfree, lt_of_le_of_ne leadLe all, if_true, grown,
        summary.nmsfree, if_neg all]
      congr 2
      split <;> omega
    rw [nextIs]
    refine ⟨?_, ?_, ?_⟩
    · simp only [GranInfo.note_nfree, tally.nfree, summary.nfree, List.count_append]
      exact cU32_add (by omega)
    · rw [trail_append, if_neg all]
    · rw [longest_append, ← tally.mxfree, ← summary.mxfree, summary.nlsfree, summary.nmsfree,
        if_neg all]
      simp only [GranInfo.note_mxfree]
      apply eq_of_forall_ge_iff
      intro k
      simp only [max_le_iff]
      omega

theorem granDumpWord_tally (tally : Tally seen info mxfree) (valid : 0 < nbits) (fits : nbits ≤ 32)
    (small : value < 2 ^ 32) (room : seen.length + nbits < 2 ^ 32) :
    Tally (seen ++ freeBits value nbits)
      (granDumpWord value nbits (2 ^ nbits - 1) info mxfree).1
      (granDumpWord value nbits (2 ^ nbits - 1) info mxfree).2 := by
  unfold granDumpWord
  split
  · rename_i full
    rw [full, freeBits_mask]
    exact tally.allocated valid
  · split
    · rename_i free
      rw [free, freeBits_zero]
      exact tally.free room
    · have summary := granHwordInfo_describes.halves (by decide) small fits
      have mixed := tally.mixed summary (by rw [length_freeBits]; exact room)
      simp only [length_freeBits] at mixed
      exact mixed

theorem granDumpWord_shape (mask : Nat) :
    (granDumpWord value nbits mask info mxfree).1.log2gran = info.log2gran ∧
      (granDumpWord value nbits mask info mxfree).1.ngranules = info.ngranules := by
  unfold granDumpWord
  split
  · simp
  · split
    · exact ⟨rfl, rfl⟩
    · simp only
      split <;> simp

end Word

/-! ## The whole table -/

section Table

variable {gran : MmGran}

/-- Which of the first `n` granules are free, as the list that `gran_dump` is a count of. -/
def MmGran.freeTable (gran : MmGran) (n : Nat) : List Bool :=
  (List.range n).map fun i => !gran.bit i

@[simp] theorem MmGran.length_freeTable (n : Nat) : (gran.freeTable n).length = n := by
  simp [MmGran.freeTable]

/-- The next word of the table, or its first bits. -/
theorem MmGran.freeTable_add (k : Nat) {nbits : Nat} (fits : nbits ≤ 32) :
    gran.freeTable (32 * k + nbits) =
      gran.freeTable (32 * k) ++ freeBits (gran.gat k).toNat nbits := by
  simp only [MmGran.freeTable, freeBits, List.range_add, List.map_append, List.map_map]
  congr 1
  apply List.map_congr_left
  intro j inside
  have below : j < 32 := lt_of_lt_of_le (List.mem_range.mp inside) fits
  simp only [Function.comp_apply, MmGran.bit, BitVec.testBit_toNat]
  rw [Nat.mul_add_div (by decide), Nat.mul_add_mod, Nat.div_eq_of_lt below, Nat.mod_eq_of_lt below,
    Nat.add_zero]

/-- The word that the loop looks at, whole or cut down to the granules that exist. -/
theorem MmGran.tally_word {info : GranInfo} {mxfree k : Nat} (small : gran.ngranules ≤ 2 ^ 32 - 32)
    (tally : Tally (gran.freeTable (32 * k)) info mxfree) (more : 32 * k < gran.ngranules) :
    ∃ info' mxfree',
      (if cU32 ((32 * k : Nat) + 32 : Int) > gran.ngranules then
        granDumpWord ((gran.gat k).toNat &&& (2 ^ (gran.ngranules - 32 * k) - 1))
          (gran.ngranules - 32 * k) (2 ^ (gran.ngranules - 32 * k) - 1) info mxfree
        else granDumpWord (gran.gat k).toNat 32 0xffffffff info mxfree) = (info', mxfree') ∧
      Tally (gran.freeTable (min (32 * (k + 1)) gran.ngranules)) info' mxfree' ∧
      info'.log2gran = info.log2gran ∧ info'.ngranules = info.ngranules := by
  have wordSmall : (gran.gat k).toNat < 2 ^ 32 := (gran.gat k).isLt
  have next : cU32 ((32 * k : Nat) + 32 : Int) = 32 * k + 32 := by
    exact cU32_add (y := 32) (by omega)
  rw [next]
  by_cases last : 32 * k + 32 > gran.ngranules
  · rw [if_pos last, min_eq_right (by omega)]
    refine ⟨_, _, rfl, ?_, granDumpWord_shape _⟩
    have whole : 32 * k + (gran.ngranules - 32 * k) = gran.ngranules := by omega
    have bits : freeBits ((gran.gat k).toNat &&& (2 ^ (gran.ngranules - 32 * k) - 1))
        (gran.ngranules - 32 * k) = freeBits (gran.gat k).toNat (gran.ngranules - 32 * k) :=
      freeBits_and_mask _ le_rfl
    rw [← whole, freeTable_add k (by omega), whole, ← bits]
    apply granDumpWord_tally tally
    · omega
    · omega
    · exact lt_of_le_of_lt Nat.and_le_left wordSmall
    · rw [length_freeTable]
      omega
  · rw [if_neg last, min_eq_left (by omega)]
    refine ⟨_, _, rfl, ?_, granDumpWord_shape _⟩
    have word := granDumpWord_tally tally (by decide) (le_refl 32) wordSmall
      (by rw [length_freeTable]; omega)
    rwa [← freeTable_add k le_rfl] at word

/-- The loop of `gran_dump` from word `k` on, by induction on the rounds that are left: it ends
with the report on the whole table. -/
theorem granDumpLoop_tally (small : gran.ngranules ≤ 2 ^ 32 - 32) (rounds : Nat) :
    ∀ {k mxfree : Nat} {info : GranInfo},
      Tally (gran.freeTable (min (32 * k) gran.ngranules)) info mxfree →
      gran.ngranules ≤ 32 * (k + rounds) →
      ∃ info' mxfree', granDumpLoop gran rounds (32 * k) info mxfree = .ok (info', mxfree') ∧
        Tally (gran.freeTable gran.ngranules) info' mxfree' ∧
        info'.log2gran = info.log2gran ∧ info'.ngranules = info.ngranules := by
  induction rounds with
  | zero =>
    intro k mxfree info tally enough
    rw [min_eq_right (by omega)] at tally
    refine ⟨info, mxfree, ?_, tally, rfl, rfl⟩
    rw [granDumpLoop, if_neg (by omega)]
  | succ rounds ih =>
    intro k mxfree info tally enough
    by_cases more : 32 * k < gran.ngranules
    · rw [min_eq_left (Nat.le_of_lt more)] at tally
      obtain ⟨info₁, mxfree₁, word, tally₁, log2gran₁, ngranules₁⟩ :=
        gran.tally_word small tally more
      obtain ⟨info', mxfree', run, tally', log2gran', ngranules'⟩ := ih tally₁ (by omega)
      refine ⟨info', mxfree', ?_, tally', log2gran'.trans log2gran₁, ngranules'.trans ngranules₁⟩
      have index : (32 * k) >>> 5 = k := by
        rw [Nat.shiftRight_eq_div_pow]
        omega
      have next : cU32 ((32 * k : Nat) + 32 : Int) = 32 * (k + 1) := cU32_add (y := 32) (by omega)
      rw [granDumpLoop, if_pos more]
      simp only [index]
      rw [word]
      simp only [next]
      exact run
    · rw [min_eq_right (by omega)] at tally
      refine ⟨info, mxfree, ?_, tally, rfl, rfl⟩
      rw [granDumpLoop, if_neg more]

theorem MmGran.count_freeTable (n : Nat) :
    (gran.freeTable n).count true = ((List.range n).filter fun i => gran.bit i = false).length := by
  rw [MmGran.freeTable, List.count, List.countP_map, List.countP_eq_length_filter]
  congr 2
  funext i
  cases bit : gran.bit i <;> simp [bit]

theorem MmGran.getElem?_freeTable {n i : Nat} :
    (gran.freeTable n)[i]? = some true ↔ i < n ∧ gran.bit i = false := by
  rw [MmGran.freeTable, List.getElem?_map]
  by_cases inside : i < n <;> simp [inside]

/-- The lengths of streaks in the table are the lengths of runs of free granules. -/
theorem MmGran.exists_streakAt_iff {k : Nat} :
    (∃ i, StreakAt (gran.freeTable gran.ngranules) i k) ↔ ∃ i, gran.Fits k i := by
  simp only [StreakAt, MmGran.getElem?_freeTable]
  constructor
  · rintro ⟨i, streak⟩
    cases k with
    | zero => exact ⟨0, Nat.zero_le _, fun j below => absurd below (Nat.not_lt_zero j)⟩
    | succ k =>
      have last := (streak k (Nat.lt_succ_self k)).1
      exact ⟨i, last, fun j below => (streak j below).2⟩
  · rintro ⟨i, fits, free⟩
    exact ⟨i, fun j below => ⟨by omega, free j below⟩⟩

/-- `gran_dump` returns what it has found in the whole table. -/
theorem granDump_tally (small : gran.ngranules ≤ 2 ^ 32 - 32) :
    ∃ info mxfree, granDump gran = .ok (info.note mxfree) ∧
      Tally (gran.freeTable gran.ngranules) info mxfree ∧
      info.log2gran = gran.log2gran ∧ info.ngranules = gran.ngranules := by
  have start : Tally (gran.freeTable (min (32 * 0) gran.ngranules))
      ⟨gran.log2gran, gran.ngranules, 0, 0⟩ 0 := by
    rw [Nat.mul_zero, Nat.zero_min]
    exact ⟨rfl, rfl, rfl⟩
  have enough : gran.ngranules ≤ 32 * (0 + sizeofGat gran.ngranules) := by
    rw [sizeofGat, Nat.shiftRight_eq_div_pow]
    omega
  obtain ⟨info, mxfree, run, tally, shape⟩ := granDumpLoop_tally small _ start enough
  refine ⟨info, mxfree, ?_, tally, shape⟩
  rw [granDump, show (0 : Nat) = 32 * 0 from rfl, run]
  rfl

/-- `gran_dump` reports the number of free granules and the length of the longest run of
them, for every table. -/
theorem granDump_reports (gran : MmGran) (small : gran.ngranules < 2 ^ 32 - 32) :
    ∃ info, granDump gran = .ok info ∧
      info.log2gran = gran.log2gran ∧ info.ngranules = gran.ngranules ∧
      info.nfree = ((List.range gran.ngranules).filter fun i => gran.bit i = false).length ∧
      IsGreatest {k | ∃ i, gran.Fits k i} info.mxfree := by
  obtain ⟨info, mxfree, run, tally, log2gran, ngranules⟩ := granDump_tally (Nat.le_of_lt small)
  refine ⟨info.note mxfree, run, ?_, ?_, ?_, ?_⟩
  · rw [GranInfo.note_log2gran, log2gran]
  · rw [GranInfo.note_ngranules, ngranules]
  · rw [GranInfo.note_nfree, tally.nfree, MmGran.count_freeTable]
  · rw [GranInfo.note_mxfree, tally.mxfree]
    have greatest := longest_isGreatest (gran.freeTable gran.ngranules)
    simp only [MmGran.exists_streakAt_iff] at greatest
    exact greatest

/-- A heap of 70 granules of which 33 to 69 are free, in three words of the table. -/
def dumpedHeap : MmGran where
  log2gran := 12
  ngranules := 70
  heapstart := 4096
  gat i := if i = 0 then 0xffffffff else if i = 1 then 1 else 0

theorem dumpedHeap_reports :
    dumpedHeap.ngranules < 2 ^ 32 - 32 ∧
      ∃ info, granDump dumpedHeap = .ok info ∧
        info.log2gran = dumpedHeap.log2gran ∧ info.ngranules = dumpedHeap.ngranules ∧
        info.nfree =
          ((List.range dumpedHeap.ngranules).filter fun i => dumpedHeap.bit i = false).length ∧
        IsGreatest {k | ∃ i, dumpedHeap.Fits k i} info.mxfree :=
  ⟨by decide, granDump_reports dumpedHeap (by decide)⟩

example : granDump dumpedHeap = .ok ⟨12, 70, 37, 37⟩ := by decide +kernel

end Table

end Chinos
