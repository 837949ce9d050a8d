import Chinos.Machine.Basic

/-!
# Formatted output: `k_vprintf` of `os/lib/libc/k_printf.c`

The format is a C string without its terminator, the arguments are the 64-bit slots that
`va_arg` goes through, and the output is the list of characters given to `kputchar`. The
build has `CONFIG_LIBC_LONG_LONG` and no numbered arguments.

`len` and `c`, which count characters, are `unsigned char`, while `width` and `prec` are
`int`.
-/

namespace Chinos

/-! ## Flags -/

def flZfill : BitVec 16 := 0x0001

def flPlus : BitVec 16 := 0x0002

def flSpace : BitVec 16 := 0x0004

def flLpad : BitVec 16 := 0x0008

def flAlt : BitVec 16 := 0x0010

def flAsterisk : BitVec 16 := 0x0040

def flWidth : BitVec 16 := 0x0080

def flPrec : BitVec 16 := 0x0100

def flLong : BitVec 16 := 0x0200

def flShort : BitVec 16 := 0x0400

def flRepdType : BitVec 16 := 0x0800

def flNegative : BitVec 16 := 0x1000

def flAltupp : BitVec 16 := 0x2000

def flAlthex : BitVec 16 := 0x4000

/-- `XTOA_UPPER`, the bit of the base that asks for upper case digits. -/
def xtoaUpper : BitVec 32 := 0x0200

/-- The test `(flags & mask) != 0`. -/
def hasFlag (flags mask : BitVec 16) : Bool := flags &&& mask != 0

section HasFlag

variable (flags bits mask other : BitVec 16)

theorem hasFlag_or : hasFlag (flags ||| bits) mask = (hasFlag flags mask || hasFlag bits mask) := by
  have distrib : (flags ||| bits) &&& mask = (flags &&& mask) ||| (bits &&& mask) := by
    ext i
    simp [Bool.and_or_distrib_right]
  rw [Bool.eq_iff_iff]
  simp only [hasFlag, Bool.or_eq_true, bne_iff_ne, ne_eq, distrib]
  rw [← not_and_or]
  exact not_congr BitVec.or_eq_zero_iff

theorem hasFlag_mask_or :
    hasFlag flags (mask ||| other) = (hasFlag flags mask || hasFlag flags other) := by
  have swapped := hasFlag_or mask other flags
  simpa only [hasFlag, BitVec.and_comm] using swapped

variable {bits mask}

/-- Bits that are cleared leave the others as they are. -/
theorem hasFlag_clear (disjoint : ~~~bits &&& mask = mask) :
    hasFlag (flags &&& ~~~bits) mask = hasFlag flags mask := by
  rw [hasFlag, BitVec.and_assoc, disjoint, hasFlag]

theorem hasFlag_cleared (within : ~~~bits &&& mask = 0) :
    hasFlag (flags &&& ~~~bits) mask = false := by
  rw [hasFlag, BitVec.and_assoc, within]
  simp

end HasFlag

/-! ## The parts of a directive -/

/-- The variables of `k_vprintf` that a directive sets, and the arguments left. -/
structure PrintfSpec where
  flags : BitVec 16
  width : Int
  prec : Int
  args : List (BitVec 64)

/-- `va_arg`; behind the last argument there is nothing to read. -/
def vaArg : List (BitVec 64) → Except Fault (BitVec 64 × List (BitVec 64))
  | [] => .error .wild
  | arg :: args => .ok (arg, args)

/-- What the loop over the characters of a directive does with one: `continue`, `break`, or
`goto ret`. -/
inductive PrintfTurn
  | next (spec : PrintfSpec)
  | leave (c : Char) (spec : PrintfSpec)
  | ret

/-- The `switch` over the flags, with the bits that each of them sets. -/
def printfFlag : Char → Option (BitVec 16)
  | '0' => some flZfill
  | '+' => some (flPlus ||| flSpace)
  | ' ' => some flSpace
  | '-' => some flLpad
  | '#' => some flAlt
  | _ => none

/-- The part of the loop that reads width and precision: their digits, a `*`, or the period
between them. It is `none` for other characters. -/
def printfCount (c : Char) (spec : PrintfSpec) : Option (Except Fault PrintfTurn) :=
  if '0' ≤ c ∧ c ≤ '9' then
    let digit : Int := (c.toNat - '0'.toNat : Nat)
    if hasFlag spec.flags flPrec then
      some (.ok (.next { spec with prec := cInt (10 * spec.prec + digit) }))
    else
      some (.ok (.next { spec with
        width := cInt (10 * spec.width + digit)
        flags := spec.flags ||| flWidth }))
  else if c = '*' then
    some do
      let (arg, args) ← vaArg spec.args
      let n := (arg.setWidth 32).toInt
      if hasFlag spec.flags flPrec then
        return .next { spec with prec := if n < 0 then 0 else n, args }
      else if n < 0 then
        return .next { spec with
          width := cInt (-n), flags := spec.flags ||| flWidth ||| flLpad, args }
      else
        return .next { spec with width := n, flags := spec.flags ||| flWidth, args }
  else if c = '.' then
    if hasFlag spec.flags flPrec then some (.ok .ret)
    else some (.ok (.next { spec with flags := spec.flags ||| flPrec }))
  else none

/-- The part of the loop that reads length modifiers. Any other character ends the directive. -/
def printfSize (c : Char) (spec : PrintfSpec) : PrintfTurn :=
  -- `sizeof(size_t)` is `sizeof(unsigned long)`
  let c := if c = 'z' ∨ c = 't' then 'l' else c
  if c = 'j' then
    .next { spec with flags := (spec.flags ||| flRepdType ||| flLong) &&& ~~~flShort }
  else if c = 'l' then
    let flags := if hasFlag spec.flags flLong then spec.flags ||| flRepdType else spec.flags
    .next { spec with flags := (flags ||| flLong) &&& ~~~flShort }
  else if c = 'h' then
    let flags := if hasFlag spec.flags flShort then spec.flags ||| flRepdType else spec.flags
    .next { spec with flags := (flags ||| flShort) &&& ~~~flLong }
  else .leave c spec

/-- One turn of the loop over the characters of a directive. Flags are not looked for behind a
width, nor a width behind a length modifier. -/
def printfTurn (c : Char) (spec : PrintfSpec) : Except Fault PrintfTurn :=
  match if spec.flags < flAsterisk then printfFlag c else none with
  | some bits => .ok (.next { spec with flags := spec.flags ||| bits })
  | none =>
    match if spec.flags < flLong then printfCount c spec else none with
    | some turn => turn
    | none => .ok (printfSize c spec)

/-- The loop, to the character of the conversion and what follows it; `none` is `goto ret`.
At the end of the format the terminator is taken for a conversion, and the text behind it
for more of the format. -/
def printfDirective : List Char → PrintfSpec →
    Except Fault (Option (Char × PrintfSpec × List Char))
  | [], _ => .error .wild
  | c :: fmt, spec => do
    match ← printfTurn c spec with
    | .next spec => printfDirective fmt spec
    | .leave c spec => return some (c, spec, fmt)
    | .ret => return none

/-! ## Numbers -/

/-- The digit of `__ultoa_invert` for a value below the base. -/
def ultoaDigit (upper : Bool) (v : Nat) : Char :=
  if v ≤ 9 then Char.ofNat (v + '0'.toNat)
  else if upper then Char.ofNat (v + ('A'.toNat - 10))
  else Char.ofNat (v + ('a'.toNat - 10))

/-- The loop of `__ultoa_invert`; a 64-bit value has at most 64 digits in any base. -/
def ultoaLoop (base : Nat) (upper : Bool) : (rounds : Nat) → (val : Nat) → List Char
  | 0, _ => []
  | rounds + 1, val =>
    ultoaDigit upper (val % base) ::
      if val / base = 0 then [] else ultoaLoop base upper rounds (val / base)

/-- `__ultoa_invert`: the digits, last one first, as they go to the 22 bytes of `buf`. -/
def ultoaInvert (val : BitVec 64) (base : BitVec 32) : Except Fault (List Char) := do
  let upper := base &&& xtoaUpper != 0
  let str := ultoaLoop (base &&& ~~~xtoaUpper).toNat upper 64 val.toNat
  require (str.length ≤ 22) .wild
  return str

/-- The argument of a signed conversion, cut down to the type that the length modifier names. -/
def signedArg (flags : BitVec 16) (arg : BitVec 64) : BitVec 64 :=
  if hasFlag flags flLong && hasFlag flags flRepdType then arg
  else if hasFlag flags flLong then arg
  else
    let x := (arg.setWidth 32).signExtend 64
    if hasFlag flags flShort then
      if !hasFlag flags flRepdType then (x.setWidth 16).signExtend 64
      else (x.setWidth 8).signExtend 64
    else x

/-- The argument of an unsigned conversion, cut down to the type that the length modifier
names. -/
def unsignedArg (flags : BitVec 16) (arg : BitVec 64) : BitVec 64 :=
  if hasFlag flags flLong && hasFlag flags flRepdType then arg
  else if hasFlag flags flLong then arg
  else
    let x := (arg.setWidth 32).setWidth 64
    if hasFlag flags flShort then
      if !hasFlag flags flRepdType then (x.setWidth 16).setWidth 64
      else (x.setWidth 8).setWidth 64
    else x

/-- The digits of `x` in `buf`; both kinds of conversion leave it empty for a zero that has to
have no digits. -/
def printfDigits (flags : BitVec 16) (prec : Int) (x : BitVec 64) (base : BitVec 32) :
    Except Fault (List Char) :=
  if hasFlag flags flPrec && prec == 0 && x == 0 then .ok [] else ultoaInvert x base

/-- `%d` and `%i` up to the digits: the flags left and `buf`. -/
def printfSigned (flags : BitVec 16) (prec : Int) (arg : BitVec 64) :
    Except Fault (BitVec 16 × List Char) := do
  let x := signedArg flags arg
  let flags := flags &&& ~~~(flNegative ||| flAlt)
  let (x, flags) := if x.slt 0 then (-x, flags ||| flNegative) else (x, flags)
  return (flags, ← printfDigits flags prec x 10)

/-- The `switch` over the unsigned conversions: the flags and the base. -/
def printfBase (c : Char) (flags : BitVec 16) : Option (BitVec 16 × BitVec 32) :=
  match c with
  | 'u' => some (flags &&& ~~~flAlt, 10)
  | 'o' => some (flags, 8)
  | 'p' => some (flags ||| flAlt ||| flAlthex, 16)
  | 'x' => some (if hasFlag flags flAlt then flags ||| flAlthex else flags, 16)
  | 'X' => some (if hasFlag flags flAlt then flags ||| (flAlthex ||| flAltupp) else flags,
      16 ||| xtoaUpper)
  | _ => none

/-- The other conversions up to the digits; `none` is the `default` of the `switch`. -/
def printfUnsigned (c : Char) (flags : BitVec 16) (prec : Int) (arg : BitVec 64) :
    Except Fault (Option (BitVec 16 × List Char)) := do
  let x := unsignedArg flags arg
  match printfBase c (flags &&& ~~~(flPlus ||| flSpace)) with
  | none => return none
  | some (flags, base) =>
    return some (flags &&& ~~~flNegative, ← printfDigits flags prec x base)

/-! ## Layout -/

/-- `while (len < width) { kputchar(' '); len++; }`: the blanks and `len` after them. After 256
turns an `unsigned char` is what it was, so a loop that gets that far never ends. -/
def padLoop (width : Int) : (rounds : Nat) → (len : BitVec 8) → Except Fault (List Char × BitVec 8)
  | 0, _ => .error .diverge
  | rounds + 1, len =>
    if (len.toNat : Int) < width then do
      let (blanks, len) ← padLoop width rounds (len + 1)
      return (' ' :: blanks, len)
    else return ([], len)

/-- `len` with the precision: the flags left and `len`. -/
def precLen (flags : BitVec 16) (c : Nat) (prec : Int) : BitVec 16 × BitVec 8 :=
  let len := BitVec.ofNat 8 c
  if hasFlag flags flPrec then
    let flags := flags &&& ~~~flZfill
    if (len.toNat : Int) < prec then
      (if hasFlag flags flAlt && !hasFlag flags flAlthex then flags &&& ~~~flAlt else flags,
        BitVec.ofInt 8 prec)
    else (flags, len)
  else (flags, len)

/-- `len` with the prefix or the sign; the last digit in `buf` is the first of the number. -/
def prefixLen (flags : BitVec 16) (buf : List Char) (len : BitVec 8) :
    Except Fault (BitVec 16 × BitVec 8) :=
  if hasFlag flags flAlt then
    match buf.getLast? with
    | none => .error .wild
    | some first =>
      if first = '0' then .ok (flags &&& ~~~(flAlt ||| flAlthex ||| flAltupp), len)
      else if hasFlag flags flAlthex then .ok (flags, len + 1 + 1)
      else .ok (flags, len + 1)
  else if hasFlag flags (flNegative ||| flPlus ||| flSpace) then .ok (flags, len + 1)
  else .ok (flags, len)

/-- The prefix of a number with `#`, or its sign. -/
def printfPrefix (flags : BitVec 16) : List Char :=
  if hasFlag flags flAlt then
    '0' :: if hasFlag flags flAlthex then [if hasFlag flags flAltupp then 'X' else 'x'] else []
  else if hasFlag flags (flNegative ||| flPlus ||| flSpace) then
    let z := ' '
    let z := if hasFlag flags flPlus then '+' else z
    [if hasFlag flags flNegative then '-' else z]
  else []

/-- From the padding to the tail: what is printed of a number with the digits `buf`. -/
def printfField (flags : BitVec 16) (len : BitVec 8) (buf : List Char) (width prec : Int) :
    Except Fault (List Char) := do
  let c : Int := buf.length
  let (blanks, prec, len) ←
    if !hasFlag flags flLpad then do
      let (prec, len) :=
        if hasFlag flags flZfill then
          if (len.toNat : Int) < width then (c + (width - len.toNat), BitVec.ofInt 8 width)
          else (c, len)
        else (prec, len)
      let (blanks, len) ← padLoop width 256 len
      pure (blanks, prec, len)
    else pure ([], prec, len)
  let width := if (len.toNat : Int) < width then width - len.toNat else 0
  return blanks ++ printfPrefix flags ++ List.replicate (prec - c).toNat '0' ++ buf.reverse ++
    List.replicate width.toNat ' '

/-- From `len = c` to the tail: how a number with the digits `buf` is laid out. -/
def printfNumber (flags : BitVec 16) (buf : List Char) (width prec : Int) :
    Except Fault (List Char) := do
  let (flags, len) := precLen flags buf.length prec
  let (flags, len) ← prefixLen flags buf len
  printfField flags len buf width prec

/-- `str_lpad` and the tail: a text in its field. The loops count `width` down to the length of
the text, a negative one through all 32 bits. -/
def strLpad (flags : BitVec 16) (width : Int) (text : List Char) : List Char :=
  let blanks := List.replicate (cU32 width - text.length) ' '
  if !hasFlag flags flLpad then blanks ++ text else text ++ blanks

/-! ## `k_vprintf` -/

/-- What `k_vprintf` finds in memory, and its conversions of floating-point numbers. -/
structure PrintfEnv where
  /-- The string at an address, up to its terminator. -/
  string : BitVec 64 → List Char
  /-- The output for the format and the arguments of a `va_format`. -/
  nested : BitVec 64 → Except Fault (List Char)
  float : Char → PrintfSpec → Except Fault (List Char × List (BitVec 64))

/-- A conversion: its output, the format and the arguments left. -/
def printfConversion (env : PrintfEnv) (c : Char) (spec : PrintfSpec) (fmt : List Char) :
    Except Fault (List Char × List Char × List (BitVec 64)) :=
  if c = 'p' ∧ fmt.head? = some 'V' then do
    let (vaf, args) ← vaArg spec.args
    return (← env.nested vaf, fmt.tail, args)
  else do
    let flags :=
      if c = 'p' then (spec.flags &&& ~~~(flLong ||| flRepdType)) ||| (flLong ||| flRepdType)
      else spec.flags
    if ('E' ≤ c ∧ c ≤ 'G') ∨ ('e' ≤ c ∧ c ≤ 'g') then
      let (out, args) ← env.float c spec
      return (out, fmt, args)
    else
      let (arg, args) ← vaArg spec.args
      if c = 'c' then
        return (strLpad flags spec.width [Char.ofNat (arg.setWidth 8).toNat], fmt, args)
      else if c = 's' ∨ c = 'S' then
        let text := if arg = 0 then ['(', 'n', 'u', 'l', 'l', ')'] else env.string arg
        let text := if hasFlag flags flPrec then text.take (cU64 spec.prec) else text
        return (strLpad flags spec.width text, fmt, args)
      else if c = 'd' ∨ c = 'i' then
        let (flags, buf) ← printfSigned flags spec.prec arg
        return (← printfNumber flags buf spec.width spec.prec, fmt, args)
      else
        match ← printfUnsigned c flags spec.prec arg with
        | none => return (['%', c], fmt, args)
        | some (flags, buf) => return (← printfNumber flags buf spec.width spec.prec, fmt, args)

/-- The loop of `k_vprintf`; every turn takes at least one character of the format. -/
def printfLoop (env : PrintfEnv) : (rounds : Nat) → List Char → List (BitVec 64) →
    Except Fault (List Char)
  | 0, _, _ => .ok []
  | _ + 1, [], _ => .ok []
  | rounds + 1, c :: fmt, args =>
    if c ≠ '%' then do
      return c :: (← printfLoop env rounds fmt args)
    else if fmt.head? = some '%' then do
      return '%' :: (← printfLoop env rounds fmt.tail args)
    else do
      match ← printfDirective fmt ⟨0, 0, 0, args⟩ with
      | none => return []
      | some (c, spec, fmt) =>
        let (out, fmt, args) ← printfConversion env c spec fmt
        return out ++ (← printfLoop env rounds fmt args)

/-- `k_vprintf`, as the text that it prints for a format and its arguments. -/
def kVprintf (env : PrintfEnv) (fmt : List Char) (ap : List (BitVec 64)) :
    Except Fault (List Char) :=
  printfLoop env (fmt.length + 1) fmt ap

end Chinos
