import Chinos.Libc.Printf
import Chinos.Libc.Iso

/-!
# What `k_vprintf` reads in a directive

The loop over the characters of a directive is followed part by part: flags, width, precision,
length modifier, conversion. `printfDirective_tail` is the loop as a whole, and
`Directive.Reads` says what the conversions learn from the `flags` it leaves.
-/

namespace Chinos

open Iso

/-! ## Turns of the loop -/

section Turn

variable {c : Char} {fmt : List Char} {spec next : PrintfSpec} {turn : Except Fault PrintfTurn}

theorem printfDirective_next (step : printfTurn c spec = .ok (.next next)) :
    printfDirective (c :: fmt) spec = printfDirective fmt next := by
  rw [printfDirective, step]
  rfl

theorem printfTurn_count (unflagged : printfFlag c = none ∨ ¬ spec.flags < flAsterisk)
    (early : spec.flags < flLong) (count : printfCount c spec = some turn) :
    printfTurn c spec = turn := by
  have noFlag : (if spec.flags < flAsterisk then printfFlag c else none) = none := by
    rcases unflagged with plain | late
    · rw [plain, ite_self]
    · rw [if_neg late]
  simp only [printfTurn, noFlag, if_pos early, count]

/-- A character that is neither a flag nor part of a count goes to the length modifiers. -/
theorem printfTurn_size (plain : printfFlag c = none) (uncounted : printfCount c spec = none) :
    printfTurn c spec = .ok (printfSize c spec) := by
  simp only [printfTurn, plain, uncounted, ite_self]

end Turn

/-! ## Flags -/

def Iso.Flag.bits : Flag → BitVec 16
  | .zero => flZfill
  | .plus => flPlus ||| flSpace
  | .space => flSpace
  | .minus => flLpad
  | .alt => flAlt

/-- The variable `flags` after the flags of a directive, if it was `word` before them. -/
def flagBits (flags : List Flag) (word : BitVec 16) : BitVec 16 :=
  flags.foldl (fun word flag => word ||| flag.bits) word

theorem or_toNat_lt {a b : BitVec 16} {k : Nat} (left : a.toNat < 2 ^ k) (right : b.toNat < 2 ^ k) :
    (a ||| b).toNat < 2 ^ k := by
  rw [BitVec.toNat_or]
  exact Nat.or_lt_two_pow left right

theorem flagBits_lt (flags : List Flag) (word : BitVec 16) (small : word.toNat < 2 ^ 6) :
    (flagBits flags word).toNat < 2 ^ 6 := by
  induction flags generalizing word with
  | nil => exact small
  | cons flag flags ih =>
    have bits : flag.bits.toNat < 2 ^ 6 := by cases flag <;> decide
    exact ih _ (or_toNat_lt small bits)

theorem hasFlag_flagBits (flags : List Flag) (word mask : BitVec 16) :
    hasFlag (flagBits flags word) mask =
      (hasFlag word mask || flags.any fun flag => hasFlag flag.bits mask) := by
  induction flags generalizing word with
  | nil => simp [flagBits]
  | cons flag flags ih =>
    have rest := ih (word ||| flag.bits)
    rw [hasFlag_or, Bool.or_assoc] at rest
    simpa [flagBits] using rest

theorem any_or {α : Type} (l : List α) (p q : α → Bool) :
    (l.any fun a => p a || q a) = (l.any p || l.any q) := by
  induction l with
  | nil => rfl
  | cons a l ih => grind

theorem printfDirective_flags (flags : List Flag) (fmt : List Char) {spec : PrintfSpec}
    (small : spec.flags.toNat < 2 ^ 6) :
    printfDirective (flags.map Flag.char ++ fmt) spec =
      printfDirective fmt { spec with flags := flagBits flags spec.flags } := by
  induction flags generalizing spec with
  | nil => rfl
  | cons flag flags ih =>
    have early : spec.flags < flAsterisk := BitVec.lt_def.mpr small
    have char : printfFlag flag.char = some flag.bits := by cases flag <;> rfl
    have step : printfTurn flag.char spec =
        .ok (.next { spec with flags := spec.flags ||| flag.bits }) := by
      simp only [printfTurn, if_pos early, char]
    have bits : flag.bits.toNat < 2 ^ 6 := by cases flag <;> decide
    rw [List.map_cons, List.cons_append, printfDirective_next step]
    exact ih (or_toNat_lt small bits)

/-! ## Width and precision -/

/-- `int` arithmetic on a number that was cut to an `int` is arithmetic on the number. -/
theorem cInt_decimal (n digit : Int) : cInt (10 * cInt n + digit) = cInt (10 * n + digit) := by
  unfold cInt
  simp only [Int.bmod_def]
  split_ifs <;> omega

theorem printfCount_digit (digit : Fin 10) :
    ('0' ≤ Nat.digitChar digit.val ∧ Nat.digitChar digit.val ≤ '9') ∧
      (Nat.digitChar digit.val).toNat - '0'.toNat = digit.val ∧
      (digit ≠ 0 → printfFlag (Nat.digitChar digit.val) = none) := by
  revert digit
  decide

/-- Digits go to a count, whichever of the two is being read. -/
theorem printfDirective_digits (count : Int → PrintfSpec)
    (step : ∀ n (digit : Fin 10), printfTurn (Nat.digitChar digit.val) (count n) =
      .ok (.next (count (cInt (10 * n + digit.val)))))
    (digits : List (Fin 10)) (fmt : List Char) (value : Nat) :
    printfDirective ((digits.map fun digit : Fin 10 => Nat.digitChar digit.val) ++ fmt)
        (count (cInt value)) =
      printfDirective fmt (count (cInt
        (digits.foldl (fun value (digit : Fin 10) => 10 * value + digit.val) value : Nat))) := by
  induction digits generalizing value with
  | nil => rfl
  | cons digit digits ih =>
    rw [List.map_cons, List.cons_append, printfDirective_next (step _ digit), cInt_decimal]
    have rest := ih (10 * value + digit.val)
    push_cast at rest
    exact rest

section Star

variable {slot : BitVec 64} (nonneg : (slot.setWidth 32).msb = false)

include nonneg

theorem star_toInt : (slot.setWidth 32).toInt = ((slot.setWidth 32).toNat : Int) := by
  rw [BitVec.toInt_eq_msb_cond, nonneg]
  rfl

theorem cInt_star : cInt (slot.setWidth 32).toNat = (slot.setWidth 32).toInt := by
  have high : (slot.setWidth 32).toNat < 2 ^ 31 := by
    rw [BitVec.msb_eq_false_iff_two_mul_lt] at nonneg
    omega
  rw [cInt_natCast high, star_toInt nonneg]

theorem star_not_neg : ¬ (slot.setWidth 32).toInt < 0 := by
  rw [star_toInt nonneg]
  omega

end Star

section Counts

variable {word : BitVec 16} (fmt : List Char) (args : List (BitVec 64))

/-- Bits from the one of a power of two on are clear in a smaller number. -/
theorem hasFlag_eq_false_of_lt {k : Nat} (small : word.toNat < 2 ^ k) :
    hasFlag word (BitVec.twoPow 16 k) = false := by
  have clear : word.getLsbD k = false := Nat.testBit_lt_two_pow small
  rw [hasFlag, BitVec.and_twoPow, clear]
  rfl

theorem or_not_lt {bits bound : BitVec 16} (big : bound.toNat ≤ bits.toNat) :
    ¬ word ||| bits < bound := by
  have grows : bits.toNat ≤ (word ||| bits).toNat := by
    rw [BitVec.toNat_or]
    exact Nat.right_le_or
  rw [BitVec.lt_def]
  omega

theorem printfDirective_width {count : Count} (leading : count.Leading)
    (small : word.toNat < 2 ^ 6) :
    printfDirective (count.text ++ fmt) ⟨word, 0, 0, count.slots ++ args⟩ =
      printfDirective fmt ⟨word ||| flWidth, cInt count.value, 0, args⟩ := by
  have early : word < flLong := BitVec.lt_def.mpr (lt_trans small (by decide))
  have noPrec : hasFlag word flPrec = false :=
    hasFlag_eq_false_of_lt (k := 8) (lt_trans small (by decide))
  have stillEarly : word ||| flWidth < flLong :=
    BitVec.lt_def.mpr (or_toNat_lt (k := 9) (lt_trans small (by decide)) (by decide))
  have stillNoPrec : hasFlag (word ||| flWidth) flPrec = false := by
    rw [hasFlag_or, noPrec]
    rfl
  cases count with
  | literal digits =>
    cases digits with
    | nil => exact leading.elim
    | cons digit digits =>
      obtain ⟨isDigit, number, plain⟩ := printfCount_digit digit
      have first : printfTurn (Nat.digitChar digit.val) ⟨word, 0, 0, args⟩ =
          .ok (.next ⟨word ||| flWidth, cInt digit.val, 0, args⟩) := by
        apply printfTurn_count (Or.inl (plain leading)) early
        simp only [printfCount, if_pos isDigit, number, noPrec, mul_zero, zero_add,
          Bool.false_eq_true, if_false]
      have step (n : Int) (digit : Fin 10) :
          printfTurn (Nat.digitChar digit.val) ⟨word ||| flWidth, n, 0, args⟩ =
            .ok (.next ⟨word ||| flWidth, cInt (10 * n + digit.val), 0, args⟩) := by
        obtain ⟨isDigit, number, -⟩ := printfCount_digit digit
        apply printfTurn_count (Or.inr (or_not_lt (by decide))) stillEarly
        simp only [printfCount, if_pos isDigit, number, stillNoPrec, BitVec.or_assoc,
          BitVec.or_self, Bool.false_eq_true, if_false]
      have rest := printfDirective_digits (fun n => ⟨word ||| flWidth, n, 0, args⟩)
        step digits fmt digit.val
      simp only [Count.text, Count.slots, Count.value, List.map_cons, List.cons_append,
        List.nil_append, printfDirective_next first, rest, List.foldl_cons, mul_zero, zero_add]
  | star slot nonneg =>
    have step : printfTurn '*' ⟨word, 0, 0, slot :: args⟩ =
        .ok (.next ⟨word ||| flWidth, cInt (slot.setWidth 32).toNat, 0, args⟩) := by
      apply printfTurn_count (Or.inl rfl) early
      have count : printfCount '*' ⟨word, 0, 0, slot :: args⟩ = some
          (if hasFlag word flPrec then _ else if (slot.setWidth 32).toInt < 0 then _ else _) := rfl
      rw [count, noPrec, if_neg Bool.false_ne_true, if_neg (star_not_neg nonneg), cInt_star nonneg]
      rfl
    exact printfDirective_next step

theorem printfDirective_prec (count : Count) (width : Int) (small : word.toNat < 2 ^ 8) :
    printfDirective ('.' :: count.text ++ fmt) ⟨word, width, 0, count.slots ++ args⟩ =
      printfDirective fmt ⟨word ||| flPrec, width, cInt count.value, args⟩ := by
  have early : word < flLong := BitVec.lt_def.mpr (lt_trans small (by decide))
  have noPrec : hasFlag word flPrec = false := hasFlag_eq_false_of_lt small
  have stillEarly : word ||| flPrec < flLong :=
    BitVec.lt_def.mpr (or_toNat_lt (k := 9) (lt_trans small (by decide)) (by decide))
  have isPrec : hasFlag (word ||| flPrec) flPrec = true := by
    rw [hasFlag_or]
    exact Bool.or_true _
  have point : printfTurn '.' ⟨word, width, 0, count.slots ++ args⟩ =
      .ok (.next ⟨word ||| flPrec, width, 0, count.slots ++ args⟩) := by
    apply printfTurn_count (Or.inl rfl) early
    simp [printfCount, noPrec]
  rw [List.cons_append, printfDirective_next point]
  cases count with
  | literal digits =>
    have step (n : Int) (digit : Fin 10) :
        printfTurn (Nat.digitChar digit.val) ⟨word ||| flPrec, width, n, args⟩ =
          .ok (.next ⟨word ||| flPrec, width, cInt (10 * n + digit.val), args⟩) := by
      obtain ⟨isDigit, number, -⟩ := printfCount_digit digit
      apply printfTurn_count (Or.inr (or_not_lt (by decide))) stillEarly
      simp only [printfCount, if_pos isDigit, number, isPrec, if_true]
    exact printfDirective_digits (fun n => ⟨word ||| flPrec, width, n, args⟩)
      step digits fmt 0
  | star slot nonneg =>
    have step : printfTurn '*' ⟨word ||| flPrec, width, 0, slot :: args⟩ =
        .ok (.next ⟨word ||| flPrec, width, cInt (slot.setWidth 32).toNat, args⟩) := by
      apply printfTurn_count (Or.inl rfl) stillEarly
      have count : printfCount '*' ⟨word ||| flPrec, width, 0, slot :: args⟩ = some
          (if hasFlag (word ||| flPrec) flPrec then .ok (.next ⟨word ||| flPrec, width,
            if (slot.setWidth 32).toInt < 0 then 0 else (slot.setWidth 32).toInt, args⟩) else _) :=
        rfl
      rw [count, isPrec, if_pos rfl, if_neg (star_not_neg nonneg), cInt_star nonneg]
    exact printfDirective_next step

end Counts

/-! ## Length modifier and conversion -/

/-- The variable `flags` after a length modifier. -/
def Iso.Size.mark : Size → BitVec 16 → BitVec 16
  | .none, word => word
  | .h, word => (word ||| flShort) &&& ~~~flLong
  | .hh, word => ((((word ||| flShort) &&& ~~~flLong) ||| flRepdType) ||| flShort) &&& ~~~flLong
  | .l, word | .z, word => (word ||| flLong) &&& ~~~flShort
  | .ll, word => ((((word ||| flLong) &&& ~~~flShort) ||| flRepdType) ||| flLong) &&& ~~~flShort
  | .j, word => (word ||| flRepdType ||| flLong) &&& ~~~flShort

theorem printfDirective_size (size : Size) (conv : Conv) (fmt : List Char) (spec : PrintfSpec)
    (small : spec.flags.toNat < 2 ^ 9) :
    printfDirective (size.text ++ conv.char :: fmt) spec =
      .ok (some (conv.char, { spec with flags := size.mark spec.flags }, fmt)) := by
  have noLong : hasFlag spec.flags flLong = false := hasFlag_eq_false_of_lt small
  have noShort : hasFlag spec.flags flShort = false :=
    hasFlag_eq_false_of_lt (k := 10) (lt_trans small (by decide))
  have leave (spec : PrintfSpec) : printfDirective (conv.char :: fmt) spec =
      .ok (some (conv.char, spec, fmt)) := by
    have turn : printfTurn conv.char spec = .ok (.leave conv.char spec) := by
      cases conv <;> exact printfTurn_size rfl rfl
    rw [printfDirective, turn]
    rfl
  have long (spec : PrintfSpec) : printfTurn 'l' spec = .ok (printfSize 'l' spec) :=
    printfTurn_size rfl rfl
  have short (spec : PrintfSpec) : printfTurn 'h' spec = .ok (printfSize 'h' spec) :=
    printfTurn_size rfl rfl
  have again (word : BitVec 16) : hasFlag ((word ||| flLong) &&& ~~~flShort) flLong = true := by
    rw [hasFlag_clear _ (by decide), hasFlag_or]
    exact Bool.or_true _
  have againShort (word : BitVec 16) :
      hasFlag ((word ||| flShort) &&& ~~~flLong) flShort = true := by
    rw [hasFlag_clear _ (by decide), hasFlag_or]
    exact Bool.or_true _
  cases size with
  | none => exact leave spec
  | hh =>
    have first := short spec
    simp only [printfSize, noShort] at first
    have second := short { spec with flags := (spec.flags ||| flShort) &&& ~~~flLong }
    simp only [printfSize, againShort] at second
    exact (printfDirective_next first).trans ((printfDirective_next second).trans (leave _))
  | h =>
    have first := short spec
    simp only [printfSize, noShort] at first
    exact (printfDirective_next first).trans (leave _)
  | l =>
    have first := long spec
    simp only [printfSize, noLong] at first
    exact (printfDirective_next first).trans (leave _)
  | ll =>
    have first := long spec
    simp only [printfSize, noLong] at first
    have second := long { spec with flags := (spec.flags ||| flLong) &&& ~~~flShort }
    simp only [printfSize, again] at second
    exact (printfDirective_next first).trans ((printfDirective_next second).trans (leave _))
  | z =>
    have first : printfTurn 'z' spec = .ok (printfSize 'z' spec) := printfTurn_size rfl rfl
    simp only [printfSize, noLong] at first
    exact (printfDirective_next first).trans (leave _)
  | j =>
    have first : printfTurn 'j' spec = .ok (printfSize 'j' spec) := printfTurn_size rfl rfl
    exact (printfDirective_next first).trans (leave _)

/-! ## The whole directive -/

/-- `flags` after a part that may be left out. -/
def setFor (count : Option Count) (bits word : BitVec 16) : BitVec 16 :=
  count.elim word fun _ => word ||| bits

theorem setFor_toNat_lt {word bits : BitVec 16} {k : Nat} (count : Option Count)
    (small : word.toNat < 2 ^ k) (bit : bits.toNat < 2 ^ k) :
    (setFor count bits word).toNat < 2 ^ k := by
  cases count with
  | none => exact small
  | some count => exact or_toNat_lt small bit

theorem hasFlag_setFor (count : Option Count) (bits word mask : BitVec 16) :
    hasFlag (setFor count bits word) mask =
      (hasFlag word mask || (count.isSome && hasFlag bits mask)) := by
  cases count with
  | none => exact (Bool.or_false _).symm
  | some count => exact hasFlag_or word bits mask

namespace Iso.Directive

variable (d : Directive)

/-- The variable `flags` after all of the directive. -/
def word : BitVec 16 :=
  d.size.mark (setFor d.prec flPrec (setFor d.width flWidth (flagBits d.flags 0)))

/-- The variable `width` after all of the directive, which is an `int`. -/
def readWidth : Int := cInt d.fieldWidth

/-- The variable `prec` after all of the directive, which is an `int`. -/
def readPrec : Int := cInt (d.prec.elim 0 Count.value : Nat)

end Iso.Directive

section Optional

variable {word : BitVec 16} (fmt : List Char) (args : List (BitVec 64))

theorem printfDirective_optional_width {width : Option Count}
    (leading : ∀ count ∈ width, count.Leading) (small : word.toNat < 2 ^ 6) :
    printfDirective (width.elim [] Count.text ++ fmt)
        ⟨word, 0, 0, width.elim [] Count.slots ++ args⟩ =
      printfDirective fmt ⟨setFor width flWidth word,
        cInt (width.elim 0 Count.value : Nat), 0, args⟩ := by
  cases width with
  | none =>
    have zero : cInt (0 : Nat) = 0 := cInt_natCast (by decide)
    rw [Option.elim_none, Option.elim_none, Option.elim_none, zero]
    rfl
  | some count => exact printfDirective_width fmt args (leading count rfl) small

theorem printfDirective_optional_prec (prec : Option Count) (width : Int)
    (small : word.toNat < 2 ^ 8) :
    printfDirective (prec.elim [] (fun count => '.' :: count.text) ++ fmt)
        ⟨word, width, 0, prec.elim [] Count.slots ++ args⟩ =
      printfDirective fmt ⟨setFor prec flPrec word, width,
        cInt (prec.elim 0 Count.value : Nat), args⟩ := by
  cases prec with
  | none =>
    have zero : cInt (0 : Nat) = 0 := cInt_natCast (by decide)
    rw [Option.elim_none, Option.elim_none, Option.elim_none, zero]
    rfl
  | some count => exact printfDirective_prec fmt args count width small

end Optional

theorem printfDirective_tail (d : Directive) (fmt : List Char) (args : List (BitVec 64)) :
    printfDirective (d.tail ++ fmt) ⟨0, 0, 0, d.slots ++ args⟩ =
      .ok (some (d.conv.char, ⟨d.word, d.readWidth, d.readPrec, d.arg :: args⟩, fmt)) := by
  have start : (0 : BitVec 16).toNat < 2 ^ 6 := by decide
  have small := flagBits_lt d.flags 0 start
  have wide := setFor_toNat_lt d.width (lt_trans small (by decide : 2 ^ 6 < 2 ^ 8))
    (by decide : flWidth.toNat < 2 ^ 8)
  have full := setFor_toNat_lt d.prec (lt_trans wide (by decide : 2 ^ 8 < 2 ^ 9))
    (by decide : flPrec.toNat < 2 ^ 9)
  have flags : printfDirective (d.tail ++ fmt) ⟨0, 0, 0, d.slots ++ args⟩ =
      printfDirective (d.width.elim [] Count.text ++
          (d.prec.elim [] (fun count => '.' :: count.text) ++ (d.size.text ++ d.conv.char :: fmt)))
        ⟨flagBits d.flags 0, 0, 0, d.width.elim [] Count.slots ++
          (d.prec.elim [] Count.slots ++ d.arg :: args)⟩ := by
    simp only [Directive.tail, Directive.slots, List.append_assoc, List.cons_append,
      List.nil_append]
    exact printfDirective_flags d.flags _ start
  rw [flags, printfDirective_optional_width _ _ d.leading small,
    printfDirective_optional_prec _ _ d.prec _ wide, printfDirective_size d.size d.conv fmt _ full,
    Directive.word, Directive.readWidth, Directive.readPrec, Directive.fieldWidth]

/-! ## What the conversions learn from `flags` -/

namespace Iso

def Size.long : Size → Bool
  | .l | .ll | .z | .j => true
  | .none | .hh | .h => false

def Size.short : Size → Bool
  | .hh | .h => true
  | .none | .l | .ll | .z | .j => false

def Size.repeated : Size → Bool
  | .hh | .ll | .j => true
  | .none | .h | .l | .z => false

/-- What the variable `flags` says about a directive once it has been read. -/
structure Directive.Reads (d : Directive) (flags : BitVec 16) : Prop where
  zfill : hasFlag flags flZfill = d.has .zero
  plus : hasFlag flags flPlus = d.has .plus
  space : hasFlag flags flSpace = (d.has .plus || d.has .space)
  lpad : hasFlag flags flLpad = d.has .minus
  alt : hasFlag flags flAlt = d.has .alt
  prec : hasFlag flags flPrec = d.prec.isSome
  long : hasFlag flags flLong = d.size.long
  short : hasFlag flags flShort = d.size.short
  repd : hasFlag flags flRepdType = d.size.repeated
  negative : hasFlag flags flNegative = false
  altupp : hasFlag flags flAltupp = false
  althex : hasFlag flags flAlthex = false

end Iso

/-- Length modifiers set and clear their own flags only, and leave the other ones alone. -/
theorem hasFlag_mark (size : Size) (word : BitVec 16) {mask : BitVec 16}
    (apart : ~~~flLong &&& mask = mask ∧ ~~~flShort &&& mask = mask)
    (unset : hasFlag flLong mask = false ∧ hasFlag flShort mask = false ∧
      hasFlag flRepdType mask = false) :
    hasFlag (size.mark word) mask = hasFlag word mask := by
  obtain ⟨keepLong, keepShort⟩ := apart
  obtain ⟨long, short, repeated⟩ := unset
  cases size <;> simp only [Size.mark, hasFlag_or, hasFlag_clear _ keepLong,
    hasFlag_clear _ keepShort, long, short, repeated, Bool.or_false]

/-- From a word without length modifiers, the length modifier can be read back. -/
theorem hasFlag_mark_size (size : Size) {word : BitVec 16} (small : word.toNat < 2 ^ 9) :
    hasFlag (size.mark word) flLong = size.long ∧ hasFlag (size.mark word) flShort = size.short ∧
      hasFlag (size.mark word) flRepdType = size.repeated := by
  have noLong : hasFlag word flLong = false := hasFlag_eq_false_of_lt small
  have noShort : hasFlag word flShort = false :=
    hasFlag_eq_false_of_lt (k := 10) (lt_trans small (by decide))
  have noRepeated : hasFlag word flRepdType = false :=
    hasFlag_eq_false_of_lt (k := 11) (lt_trans small (by decide))
  have self : hasFlag flLong flLong = true ∧ hasFlag flShort flShort = true ∧
      hasFlag flRepdType flRepdType = true := by decide
  have others : hasFlag flLong flRepdType = false ∧ hasFlag flShort flRepdType = false ∧
      hasFlag flRepdType flLong = false ∧ hasFlag flRepdType flShort = false := by decide
  cases size <;> simp (disch := decide) [Size.mark, Size.long, Size.short, Size.repeated,
    hasFlag_or, hasFlag_clear, hasFlag_cleared, noLong, noShort, noRepeated, self, others]

namespace Iso.Directive

variable (d : Directive)

theorem word_lt :
    (setFor d.prec flPrec (setFor d.width flWidth (flagBits d.flags 0))).toNat < 2 ^ 9 := by
  have flags := lt_trans (flagBits_lt d.flags 0 (by decide)) (by decide : 2 ^ 6 < 2 ^ 9)
  exact setFor_toNat_lt d.prec (setFor_toNat_lt d.width flags (by decide)) (by decide)

section Mask

variable {mask : BitVec 16} (apart : ~~~flLong &&& mask = mask ∧ ~~~flShort &&& mask = mask)
  (unset : hasFlag flLong mask = false ∧ hasFlag flShort mask = false ∧
    hasFlag flRepdType mask = false)

include apart unset

theorem hasFlag_word : hasFlag d.word mask =
    ((d.flags.any fun flag => hasFlag flag.bits mask) || (d.width.isSome && hasFlag flWidth mask) ||
      (d.prec.isSome && hasFlag flPrec mask)) := by
  have zero : hasFlag 0 mask = false := by simp [hasFlag]
  rw [word, hasFlag_mark _ _ apart unset, hasFlag_setFor, hasFlag_setFor, hasFlag_flagBits, zero,
    Bool.false_or]

theorem hasFlag_word_flag {flag : Flag} (uncounted : hasFlag flWidth mask = false ∧
    hasFlag flPrec mask = false) (only : ∀ f : Flag, hasFlag f.bits mask = (flag == f)) :
    hasFlag d.word mask = d.has flag := by
  rw [d.hasFlag_word apart unset, uncounted.1, uncounted.2, Bool.and_false, Bool.and_false,
    Bool.or_false, Bool.or_false, has, List.contains_eq_any_beq]
  exact congrArg d.flags.any (funext only)

theorem hasFlag_word_none (uncounted : hasFlag flWidth mask = false ∧
    hasFlag flPrec mask = false) (never : ∀ f : Flag, hasFlag f.bits mask = false) :
    hasFlag d.word mask = false := by
  rw [d.hasFlag_word apart unset, uncounted.1, uncounted.2, funext never]
  simp

end Mask

theorem reads_word : d.Reads d.word := by
  obtain ⟨long, short, repd⟩ := hasFlag_mark_size d.size d.word_lt
  constructor
  case long => exact long
  case short => exact short
  case repd => exact repd
  case zfill =>
    exact d.hasFlag_word_flag (by decide) (by decide) (by decide) (by intro f; cases f <;> rfl)
  case plus =>
    exact d.hasFlag_word_flag (by decide) (by decide) (by decide) (by intro f; cases f <;> rfl)
  case space =>
    have either : (fun flag : Flag => hasFlag flag.bits flSpace) =
        fun flag => Flag.plus == flag || Flag.space == flag := by
      funext f
      cases f <;> rfl
    have counts : hasFlag flWidth flSpace = false ∧ hasFlag flPrec flSpace = false := by decide
    rw [d.hasFlag_word (by decide) (by decide), either, counts.1, counts.2]
    simp only [has, List.contains_eq_any_beq, Bool.and_false, Bool.or_false]
    exact any_or d.flags (Flag.plus == ·) (Flag.space == ·)
  case lpad =>
    exact d.hasFlag_word_flag (by decide) (by decide) (by decide) (by intro f; cases f <;> rfl)
  case alt =>
    exact d.hasFlag_word_flag (by decide) (by decide) (by decide) (by intro f; cases f <;> rfl)
  case prec =>
    have never : (fun flag : Flag => hasFlag flag.bits flPrec) = fun _ => false := by
      funext f
      cases f <;> rfl
    have counts : hasFlag flWidth flPrec = false ∧ hasFlag flPrec flPrec = true := by decide
    rw [d.hasFlag_word (by decide) (by decide), never, counts.1, counts.2]
    simp
  case negative =>
    exact d.hasFlag_word_none (by decide) (by decide) (by decide) (by intro f; cases f <;> rfl)
  case altupp =>
    exact d.hasFlag_word_none (by decide) (by decide) (by decide) (by intro f; cases f <;> rfl)
  case althex =>
    exact d.hasFlag_word_none (by decide) (by decide) (by decide) (by intro f; cases f <;> rfl)

end Iso.Directive

end Chinos
