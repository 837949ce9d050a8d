import Chinos.Libc.Directive

/-!
# The digits of a number, and what is left of `flags` once they are made

`signedArg` and `unsignedArg` give the value ISO C prescribes, `__ultoa_invert` its digits.
`printfSigned` and `printfUnsigned` then leave the digits in `Directive.buf` and flags that
are `Directive.Ready` for the layout.
-/

namespace Chinos

open Iso

/-! ## Digits -/

/-- The base of a conversion, as `__ultoa_invert` is told it. -/
def Iso.Conv.radix : Conv → BitVec 32
  | .d | .i | .u => 10
  | .o => 8
  | .x => 16
  | .X => 16 ||| xtoaUpper

def Iso.Conv.upper (conv : Conv) : Bool := decide (conv = .X)

theorem ultoaDigit_eq : ∀ conv : Conv, ∀ v < 16,
    ultoaDigit conv.upper v = conv.digitChar v := by
  intro conv
  cases conv <;> decide

/-- The loop makes the digits of a value that fits in as many bits as it has rounds. -/
theorem ultoaLoop_eq {base : Nat} (upper : Bool) (many : 1 < base) (rounds : Nat) {val : Nat}
    (positive : 0 < val) (small : val < 2 ^ rounds) :
    ultoaLoop base upper rounds val = (Nat.digits base val).map (ultoaDigit upper) := by
  induction rounds generalizing val with
  | zero => omega
  | succ rounds ih =>
    rw [ultoaLoop, Nat.digits_def' many positive, List.map_cons]
    split
    next last => rw [last, Nat.digits_zero, List.map_nil]
    next more =>
      have halved : val / base ≤ val / 2 := Nat.div_le_div_left many (by decide)
      have fewer : val / base < 2 ^ rounds := by
        rw [pow_succ] at small
        omega
      rw [ih (Nat.pos_of_ne_zero more) fewer]

theorem ultoaInvert_eq (conv : Conv) (val : BitVec 64) :
    ultoaInvert val conv.radix = .ok (if val.toNat = 0 then ['0']
      else (Nat.digits conv.base val.toNat).map conv.digitChar) := by
  have base : (conv.radix &&& ~~~xtoaUpper).toNat = conv.base := by cases conv <;> rfl
  have upper : (conv.radix &&& xtoaUpper != 0) = conv.upper := by cases conv <;> rfl
  have loop : ultoaLoop conv.base conv.upper 64 val.toNat = if val.toNat = 0 then ['0']
      else (Nat.digits conv.base val.toNat).map conv.digitChar := by
    split
    next zero =>
      rw [zero]
      cases conv <;> rfl
    next nonzero =>
      rw [ultoaLoop_eq conv.upper conv.one_lt_base 64 (Nat.pos_of_ne_zero nonzero) val.isLt]
      apply List.map_congr_left
      intro v mem
      have bound := Nat.digits_lt_base conv.one_lt_base mem
      exact ultoaDigit_eq conv v (lt_of_lt_of_le bound conv.base_le)
  have room : (if val.toNat = 0 then ['0']
      else (Nat.digits conv.base val.toNat).map conv.digitChar).length ≤ 22 := by
    split
    · decide
    · simpa using conv.length_digits val.isLt
  rw [ultoaInvert, base, upper, loop]
  exact require_bind_of_pos room

/-! ## Arguments -/

namespace Iso.Directive

section Args

variable {d : Directive} {flags : BitVec 16} (reads : d.Reads flags)

include reads

theorem Reads.signedArg_toInt :
    (signedArg flags d.arg).toInt = (d.arg.setWidth d.size.bits).toInt := by
  have narrow (w : Nat) (within : w ≤ 32) :
      ((d.arg.setWidth 32).signExtend 64).setWidth w = d.arg.setWidth w := by
    ext i bound
    rw [BitVec.getElem_setWidth, BitVec.getElem_setWidth, BitVec.getLsbD_signExtend,
      BitVec.getLsbD_setWidth]
    simp [show i < 64 by omega, show i < 32 by omega]
  have extended (w : Nat) (within : w ≤ 64) (x : BitVec w) : (x.signExtend 64).toInt = x.toInt :=
    BitVec.toInt_signExtend_of_le within
  rw [signedArg, reads.long, reads.short, reads.repd]
  cases d.size with
  | none => exact extended 32 (by decide) _
  | hh => exact (extended 8 (by decide) _).trans (congrArg BitVec.toInt (narrow 8 (by decide)))
  | h => exact (extended 16 (by decide) _).trans (congrArg BitVec.toInt (narrow 16 (by decide)))
  | l | ll | z | j => exact congrArg BitVec.toInt (BitVec.setWidth_eq d.arg).symm

theorem Reads.unsignedArg_toNat :
    (unsignedArg flags d.arg).toNat = (d.arg.setWidth d.size.bits).toNat := by
  have narrow (w : Nat) (within : w ≤ 32) :
      (((d.arg.setWidth 32).setWidth 64).setWidth w) = d.arg.setWidth w := by
    ext i bound
    simp [show i < 64 by omega, show i < 32 by omega]
  have extended (w : Nat) (within : w ≤ 64) (x : BitVec w) : (x.setWidth 64).toNat = x.toNat :=
    BitVec.toNat_setWidth_of_le within
  rw [unsignedArg, reads.long, reads.short, reads.repd]
  cases d.size with
  | none => exact extended 32 (by decide) _
  | hh => exact (extended 8 (by decide) _).trans (congrArg BitVec.toNat (narrow 8 (by decide)))
  | h => exact (extended 16 (by decide) _).trans (congrArg BitVec.toNat (narrow 16 (by decide)))
  | l | ll | z | j => exact congrArg BitVec.toNat (BitVec.setWidth_eq d.arg).symm

end Args

/-! ## Conversions -/

/-- The digits as the layout finds them, last one first. -/
def buf (d : Directive) : List Char :=
  if d.prec.isSome ∧ d.readPrec = 0 ∧ d.value = 0 then []
  else if d.value = 0 then ['0'] else d.digits.reverse

end Iso.Directive

namespace Iso

/-- The conversions of integers that `#` has a meaning for in ISO C. -/
def Conv.alternates : Conv → Bool
  | .o | .x | .X => true
  | .d | .i | .u => false

def Conv.hex : Conv → Bool
  | .x | .X => true
  | .d | .i | .u | .o => false

/-- What `flags` says to the layout about the side, the prefix and the sign. -/
structure Directive.Styled (d : Directive) (flags : BitVec 16) : Prop where
  lpad : hasFlag flags flLpad = d.has .minus
  althex : hasFlag flags flAlthex = (d.has .alt && d.conv.hex)
  altupp : hasFlag flags flAltupp = (d.has .alt && d.conv.upper)
  negative : hasFlag flags flNegative = (d.conv.signed && decide (d.value < 0))
  plus : hasFlag flags flPlus = (d.conv.signed && d.has .plus)
  space : hasFlag flags flSpace = (d.conv.signed && (d.has .plus || d.has .space))

/-- What the variable `flags` says to the layout of a number, all of it taken together. -/
structure Directive.Ready (d : Directive) (flags : BitVec 16) : Prop extends d.Styled flags where
  zfill : hasFlag flags flZfill = d.has .zero
  prec : hasFlag flags flPrec = d.prec.isSome
  alt : hasFlag flags flAlt = (d.has .alt && d.conv.alternates)

theorem Directive.Styled.clear {d : Directive} {flags : BitVec 16} (styled : d.Styled flags)
    (bits : BitVec 16) (apart : ([flLpad, flAlthex, flAltupp, flNegative, flPlus, flSpace].all
      fun mask => ~~~bits &&& mask == mask) = true) : d.Styled (flags &&& ~~~bits) := by
  have keep {mask : BitVec 16} (listed : mask ∈ [flLpad, flAlthex, flAltupp, flNegative, flPlus,
      flSpace]) : hasFlag (flags &&& ~~~bits) mask = hasFlag flags mask :=
    hasFlag_clear flags (beq_iff_eq.mp (List.all_eq_true.mp apart mask listed))
  constructor
  case lpad => rw [keep (by decide), styled.lpad]
  case althex => rw [keep (by decide), styled.althex]
  case altupp => rw [keep (by decide), styled.altupp]
  case negative => rw [keep (by decide), styled.negative]
  case plus => rw [keep (by decide), styled.plus]
  case space => rw [keep (by decide), styled.space]

end Iso

section Convert

variable {d : Directive} {flags : BitVec 16}

theorem printfDigits_eq {x : BitVec 64} {radix : BitVec 32}
    (prec : hasFlag flags flPrec = d.prec.isSome) (magnitude : x.toNat = d.value.natAbs)
    (base : radix = d.conv.radix) :
    printfDigits flags d.readPrec x radix = .ok d.buf := by
  have zero : x.toNat = 0 ↔ d.value = 0 := by
    rw [magnitude]
    exact Int.natAbs_eq_zero
  have isZero : x = 0 ↔ d.value = 0 := by
    rw [← zero]
    exact BitVec.toNat_inj.symm
  have digits : d.digits.reverse = (Nat.digits d.conv.base x.toNat).map d.conv.digitChar := by
    rw [Directive.digits, magnitude, ← List.map_reverse, List.reverse_reverse]
  subst base
  rw [printfDigits, ultoaInvert_eq, prec, Directive.buf, digits]
  simp only [Bool.and_eq_true, beq_iff_eq, isZero, zero, and_assoc]
  split <;> rfl

variable (reads : d.Reads flags)

include reads

theorem printfSigned_ready (signed : d.conv.signed = true) :
    ∃ left, printfSigned flags d.readPrec d.arg = .ok (left, d.buf) ∧ d.Ready left := by
  have value : (signedArg flags d.arg).toInt = d.value := by
    rw [reads.signedArg_toInt, Directive.value, if_pos signed]
  have radix : (10 : BitVec 32) = d.conv.radix := by
    cases conv : d.conv <;> simp_all [Conv.signed, Conv.radix]
  have plain : d.conv.alternates = false ∧ d.conv.hex = false ∧ d.conv.upper = false := by
    cases conv : d.conv <;> simp_all [Conv.signed, Conv.alternates, Conv.hex, Conv.upper]
  have below : (signedArg flags d.arg).slt 0 = decide (d.value < 0) := by
    rw [BitVec.slt_eq_decide, value]
    rfl
  have consts : hasFlag flNegative flZfill = false ∧ hasFlag flNegative flLpad = false ∧
      hasFlag flNegative flPrec = false ∧ hasFlag flNegative flAlt = false ∧
      hasFlag flNegative flAlthex = false ∧ hasFlag flNegative flAltupp = false ∧
      hasFlag flNegative flNegative = true ∧ hasFlag flNegative flPlus = false ∧
      hasFlag flNegative flSpace = false := by decide
  rw [printfSigned, below]
  generalize signedArg flags d.arg = x at value
  have range := x.isLt
  rw [BitVec.toInt_eq_toNat_cond] at value
  rcases lt_or_ge d.value 0 with negative | nonneg
  · have magnitude : (-x).toNat = d.value.natAbs := by
      rw [BitVec.toNat_neg]
      split at value <;> omega
    have ready : d.Ready (flags &&& ~~~(flNegative ||| flAlt) ||| flNegative) := by
      refine ⟨⟨?_, ?_, ?_, ?_, ?_, ?_⟩, ?_, ?_, ?_⟩ <;>
        simp (disch := decide) [hasFlag_or, hasFlag_clear, hasFlag_cleared, reads.zfill, reads.lpad,
          reads.prec, reads.althex, reads.altupp, reads.plus, reads.space, plain, signed, negative,
          consts]
    have digits := printfDigits_eq ready.prec magnitude radix
    refine ⟨_, ?_, ready⟩
    simp only [negative, decide_true, if_true, digits, ok_bind]
    rfl
  · have magnitude : x.toNat = d.value.natAbs := by
      split at value <;> omega
    have ready : d.Ready (flags &&& ~~~(flNegative ||| flAlt)) := by
      refine ⟨⟨?_, ?_, ?_, ?_, ?_, ?_⟩, ?_, ?_, ?_⟩ <;>
        simp (disch := decide) [hasFlag_clear, hasFlag_cleared, reads.zfill, reads.lpad, reads.prec,
          reads.althex, reads.altupp, reads.plus, reads.space, plain, signed, nonneg]
    have digits := printfDigits_eq ready.prec magnitude radix
    refine ⟨_, ?_, ready⟩
    simp only [not_lt.mpr nonneg, decide_false, Bool.false_eq_true, if_false, digits, ok_bind]
    rfl

/-- The `switch` over the unsigned conversions gives the base, and in `flags` it leaves what the
layout has to know. -/
theorem printfBase_ready (unsigned : d.conv.signed = false) :
    ∃ left, printfBase d.conv.char (flags &&& ~~~(flPlus ||| flSpace)) = some (left, d.conv.radix) ∧
      hasFlag left flPrec = d.prec.isSome ∧ d.Ready (left &&& ~~~flNegative) := by
  generalize cleared : flags &&& ~~~(flPlus ||| flSpace) = word
  have plain : hasFlag word flZfill = d.has .zero ∧ hasFlag word flLpad = d.has .minus ∧
      hasFlag word flPrec = d.prec.isSome ∧ hasFlag word flAlt = d.has .alt ∧
      hasFlag word flAlthex = false ∧ hasFlag word flAltupp = false ∧
      hasFlag word flPlus = false ∧ hasFlag word flSpace = false := by
    rw [← cleared]
    simp (disch := decide) [hasFlag_clear, hasFlag_cleared, reads.zfill, reads.lpad, reads.prec,
      reads.alt, reads.althex, reads.altupp]
  have hexBits : hasFlag flAlthex flZfill = false ∧ hasFlag flAlthex flLpad = false ∧
      hasFlag flAlthex flPrec = false ∧ hasFlag flAlthex flAlt = false ∧
      hasFlag flAlthex flAlthex = true ∧ hasFlag flAlthex flAltupp = false ∧
      hasFlag flAlthex flPlus = false ∧ hasFlag flAlthex flSpace = false := by decide
  have upperBits : hasFlag flAltupp flZfill = false ∧ hasFlag flAltupp flLpad = false ∧
      hasFlag flAltupp flPrec = false ∧ hasFlag flAltupp flAlt = false ∧
      hasFlag flAltupp flAlthex = false ∧ hasFlag flAltupp flAltupp = true ∧
      hasFlag flAltupp flPlus = false ∧ hasFlag flAltupp flSpace = false := by decide
  cases conv : d.conv with
  | d | i => rw [conv] at unsigned; cases unsigned
  | u =>
    refine ⟨word &&& ~~~flAlt, rfl, ?_, ⟨?_, ?_, ?_, ?_, ?_, ?_⟩, ?_, ?_, ?_⟩ <;>
      simp (disch := decide) [hasFlag_clear, hasFlag_cleared, plain, conv, Conv.alternates,
        Conv.hex, Conv.upper, Conv.signed]
  | o =>
    refine ⟨word, rfl, ?_, ⟨?_, ?_, ?_, ?_, ?_, ?_⟩, ?_, ?_, ?_⟩ <;>
      simp (disch := decide) [hasFlag_clear, hasFlag_cleared, plain, conv, Conv.alternates,
        Conv.hex, Conv.upper, Conv.signed]
  | x =>
    refine ⟨if hasFlag word flAlt then word ||| flAlthex else word, rfl, ?_,
      ⟨?_, ?_, ?_, ?_, ?_, ?_⟩, ?_, ?_, ?_⟩ <;> rw [plain.2.2.2.1] <;>
      cases alt : d.has .alt <;>
      simp (disch := decide) [hasFlag_or, hasFlag_clear, hasFlag_cleared, plain, alt, conv,
        Conv.alternates, Conv.hex, Conv.upper, Conv.signed, hexBits]
  | X =>
    refine ⟨if hasFlag word flAlt then word ||| (flAlthex ||| flAltupp) else word, rfl, ?_,
      ⟨?_, ?_, ?_, ?_, ?_, ?_⟩, ?_, ?_, ?_⟩ <;> rw [plain.2.2.2.1] <;>
      cases alt : d.has .alt <;>
      simp (disch := decide) [hasFlag_or, hasFlag_clear, hasFlag_cleared, plain, alt, conv,
        Conv.alternates, Conv.hex, Conv.upper, Conv.signed, hexBits, upperBits]

theorem printfUnsigned_ready (unsigned : d.conv.signed = false) :
    ∃ left, printfUnsigned d.conv.char flags d.readPrec d.arg = .ok (some (left, d.buf)) ∧
      d.Ready left := by
  have magnitude : (unsignedArg flags d.arg).toNat = d.value.natAbs := by
    rw [reads.unsignedArg_toNat, Directive.value, unsigned]
    rfl
  obtain ⟨left, base, prec, ready⟩ := printfBase_ready reads unsigned
  refine ⟨_, ?_, ready⟩
  simp only [printfUnsigned, base, printfDigits_eq prec magnitude rfl, ok_bind]
  rfl

end Convert

end Chinos
