import Mathlib.Data.Nat.Digits.Lemmas

/-!
# Integer conversions of formatted output, as ISO C prescribes them

A directive is given by its parts: the flags in any order and number, the field width and the
precision as literals or through `*`, the length modifier, the conversion and the argument.
`Directive.text` is how it stands in a format, `Directive.slots` what it takes from the
arguments, and `Directive.output` the characters that are printed for it. `int` has 32 bits
and `long`, `long long`, `size_t` and `intmax_t` have 64; each argument fills a slot of 64.

Where the standard leaves a flag undefined for a conversion (`#` with `d`, `i` and `u`), it has
no effect.
-/

namespace Chinos.Iso

/-! ## Directives -/

inductive Flag
  | zero
  | plus
  | space
  | minus
  | alt
  deriving DecidableEq

def Flag.char : Flag → Char
  | .zero => '0'
  | .plus => '+'
  | .space => ' '
  | .minus => '-'
  | .alt => '#'

/-- A width or a precision, written as a number or as a star that takes an argument which is not
negative. -/
inductive Count
  | literal (digits : List (Fin 10))
  | star (slot : BitVec 64) (nonneg : (slot.setWidth 32).msb = false)

def Count.value : Count → Nat
  | .literal digits => digits.foldl (fun value digit => 10 * value + digit.val) 0
  | .star slot _ => (slot.setWidth 32).toNat

def Count.text : Count → List Char
  | .literal digits => digits.map fun digit => Nat.digitChar digit.val
  | .star _ _ => ['*']

def Count.slots : Count → List (BitVec 64)
  | .literal _ => []
  | .star slot _ => [slot]

/-- A literal width starts with a digit that is not taken for a flag. -/
def Count.Leading : Count → Prop
  | .literal [] => False
  | .literal (digit :: _) => digit ≠ 0
  | .star _ _ => True

/-- The length modifiers of ISO C for integers, and their absence. -/
inductive Size
  | none
  | hh
  | h
  | l
  | ll
  | z
  | j

def Size.text : Size → List Char
  | .none => []
  | .hh => ['h', 'h']
  | .h => ['h']
  | .l => ['l']
  | .ll => ['l', 'l']
  | .z => ['z']
  | .j => ['j']

/-- The width of the type that the argument is converted to. -/
def Size.bits : Size → Nat
  | .none => 32
  | .hh => 8
  | .h => 16
  | .l | .ll | .z | .j => 64

inductive Conv
  | d
  | i
  | u
  | o
  | x
  | X
  deriving DecidableEq

def Conv.char : Conv → Char
  | .d => 'd'
  | .i => 'i'
  | .u => 'u'
  | .o => 'o'
  | .x => 'x'
  | .X => 'X'

def Conv.signed : Conv → Bool
  | .d | .i => true
  | .u | .o | .x | .X => false

def Conv.base : Conv → Nat
  | .d | .i | .u => 10
  | .o => 8
  | .x | .X => 16

def Conv.digitChar (conv : Conv) (v : Nat) : Char :=
  if conv = .X then (Nat.digitChar v).toUpper else Nat.digitChar v

theorem Conv.one_lt_base (conv : Conv) : 1 < conv.base := by
  cases conv <;> decide

theorem Conv.base_le (conv : Conv) : conv.base ≤ 16 := by
  cases conv <;> decide

/-- A value of 64 bits has at most 22 digits. -/
theorem Conv.length_digits (conv : Conv) {n : Nat} (bound : n < 2 ^ 64) :
    (Nat.digits conv.base n).length ≤ 22 := by
  have base : 8 ≤ conv.base := by cases conv <;> decide
  have room : 2 ^ 64 ≤ conv.base ^ 22 := le_trans (by decide) (Nat.pow_le_pow_left base 22)
  exact (Nat.digits_length_le_iff conv.one_lt_base n).mpr (lt_of_lt_of_le bound room)

structure Directive where
  flags : List Flag
  width : Option Count
  leading : ∀ count ∈ width, count.Leading
  prec : Option Count
  size : Size
  conv : Conv
  arg : BitVec 64

namespace Directive

variable (d : Directive)

/-- The text of the directive after its `%`. -/
def tail : List Char :=
  d.flags.map Flag.char ++ (d.width.elim [] Count.text ++
    (d.prec.elim [] (fun count => '.' :: count.text) ++ (d.size.text ++ [d.conv.char])))

def text : List Char := '%' :: d.tail

def slots : List (BitVec 64) :=
  d.width.elim [] Count.slots ++ (d.prec.elim [] Count.slots ++ [d.arg])

def has (flag : Flag) : Bool := d.flags.contains flag

/-! ## Output -/

/-- The argument as a value of the type the directive names. -/
def value : Int :=
  if d.conv.signed then (d.arg.setWidth d.size.bits).toInt else (d.arg.setWidth d.size.bits).toNat

/-- The digits of the value, of which zero has none of its own. -/
def digits : List Char := (Nat.digits d.conv.base d.value.natAbs).reverse.map d.conv.digitChar

/-- The digits with zeros in front, up to the least number of digits. -/
def padded (least : Nat) : List Char :=
  List.replicate (least - d.digits.length) '0' ++ d.digits

/-- The digits with zeros in front, and with `#` one more zero for an octal number that would not
start with one. -/
def number (least : Nat) : List Char :=
  if d.has .alt ∧ d.conv = .o ∧ (d.padded least).head? ≠ some '0' then '0' :: d.padded least
  else d.padded least

/-- The sign, or the prefix of a hexadecimal number. -/
def lead : List Char :=
  if d.conv.signed then
    if d.value < 0 then ['-'] else if d.has .plus then ['+'] else if d.has .space then [' '] else []
  else if d.has .alt ∧ d.value ≠ 0 then
    match d.conv with
    | .x => ['0', 'x']
    | .X => ['0', 'X']
    | _ => []
  else []

def body (least : Nat) : List Char := d.lead ++ d.number least

/-- The least number of digits, which is the precision or 1 by default. -/
def least : Nat := d.prec.elim 1 Count.value

def fieldWidth : Nat := d.width.elim 0 Count.value

/-- The characters that ISO C asks the directive to print. -/
def output : List Char :=
  let pad := d.fieldWidth - (d.body d.least).length
  if d.has .minus then d.body d.least ++ List.replicate pad ' '
  else if d.has .zero ∧ d.prec = none then
    d.lead ++ List.replicate pad '0' ++ d.number d.least
  else List.replicate pad ' ' ++ d.body d.least

/-! ## Facts about the output -/

theorem digits_eq_nil_iff : d.digits = [] ↔ d.value = 0 := by
  rw [digits, List.map_eq_nil_iff, List.reverse_eq_nil_iff, Nat.digits_eq_nil_iff_eq_zero,
    Int.natAbs_eq_zero]

@[simp] theorem length_padded (least : Nat) :
    (d.padded least).length = max least d.digits.length := by
  simp only [padded, List.length_append, List.length_replicate]
  omega

/-- Only a number that has all its digits gets the zero of `#`. -/
theorem length_number (least : Nat) :
    (d.number least).length ≤ max least (d.digits.length + 1) := by
  unfold number
  split
  next octal =>
    have full : least ≤ d.digits.length := by
      by_contra more
      obtain ⟨n, count⟩ : ∃ n, least - d.digits.length = n + 1 :=
        ⟨least - d.digits.length - 1, by omega⟩
      apply octal.2.2
      rw [padded, count]
      rfl
    simp only [List.length_cons, length_padded]
    omega
  next =>
    rw [length_padded]
    omega

theorem le_length_number (least : Nat) : least ≤ (d.number least).length := by
  unfold number
  split <;> simp only [List.length_cons, length_padded] <;> omega

theorem length_lead : d.lead.length ≤ 2 := by
  unfold lead
  repeat' split
  all_goals simp

theorem natAbs_value_lt : d.value.natAbs < 2 ^ 64 := by
  have bits : d.size.bits ≤ 64 := by cases d.size <;> decide
  have bound : 2 ^ d.size.bits ≤ 2 ^ 64 := Nat.pow_le_pow_right (by decide) bits
  have small := (d.arg.setWidth d.size.bits).isLt
  have below := BitVec.toInt_lt (x := d.arg.setWidth d.size.bits)
  have above := BitVec.le_toInt (x := d.arg.setWidth d.size.bits)
  have half : 2 ^ (d.size.bits - 1) ≤ 2 ^ 63 := Nat.pow_le_pow_right (by decide) (by omega)
  have halfInt : (2 : Int) ^ (d.size.bits - 1) ≤ 2 ^ 63 := by exact_mod_cast half
  unfold value
  split <;> omega

theorem length_digits : d.digits.length ≤ 22 := by
  have short := d.conv.length_digits d.natAbs_value_lt
  simpa [digits] using short

theorem digitChar_table : ∀ conv : Conv, ∀ v < 16,
    conv.digitChar v ≠ ' ' ∧ (v ≠ 0 → conv.digitChar v ≠ '0') := by
  intro conv
  cases conv <;> decide

/-- The first digit of a value other than zero is not a zero. -/
theorem head_digits {c : Char} {rest : List Char} (split : d.digits = c :: rest) : c ≠ '0' := by
  have nonzero : d.value.natAbs ≠ 0 := by
    intro zero
    rw [d.digits_eq_nil_iff.mpr (Int.natAbs_eq_zero.mp zero)] at split
    cases split
  have present : Nat.digits d.conv.base d.value.natAbs ≠ [] :=
    Nat.digits_ne_nil_iff_ne_zero.mpr nonzero
  have last := Nat.getLast_digit_ne_zero d.conv.base nonzero
  have bound := Nat.digits_lt_base d.conv.one_lt_base (List.getLast_mem present)
  have small := lt_of_lt_of_le bound d.conv.base_le
  have first : d.digits.head? = some c := by rw [split]; rfl
  rw [digits, List.head?_map, List.head?_reverse, List.getLast?_eq_some_getLast present] at first
  cases first
  exact (digitChar_table d.conv _ small).2 last

theorem notMem_padded (least : Nat) : ' ' ∉ d.padded least := by
  have notDigit : ' ' ∉ d.digits := by
    intro mem
    obtain ⟨v, member, eq⟩ := List.mem_map.mp mem
    have bound := Nat.digits_lt_base d.conv.one_lt_base (List.mem_reverse.mp member)
    exact (digitChar_table d.conv v (lt_of_lt_of_le bound d.conv.base_le)).1 eq
  simp [padded, notDigit]

theorem notMem_number (least : Nat) : ' ' ∉ d.number least := by
  have padded := d.notMem_padded least
  unfold number
  split <;> simp [padded]

/-- The digits of the number denote the value of the argument. -/
theorem number_denotes (least : Nat) :
    ∃ vs : List Nat, d.number least = vs.map d.conv.digitChar ∧
      (∀ v ∈ vs, v < d.conv.base) ∧ Nat.ofDigits d.conv.base vs.reverse = d.value.natAbs := by
  have zeroChar : d.conv.digitChar 0 = '0' := by cases d.conv <;> decide
  have positive : 0 < d.conv.base := Nat.lt_of_succ_lt d.conv.one_lt_base
  -- zeros in front add nothing
  have zeros (n : Nat) : ∃ vs : List Nat, List.replicate n '0' ++ d.digits =
      vs.map d.conv.digitChar ∧ (∀ v ∈ vs, v < d.conv.base) ∧
      Nat.ofDigits d.conv.base vs.reverse = d.value.natAbs := by
    refine ⟨List.replicate n 0 ++ (Nat.digits d.conv.base d.value.natAbs).reverse, ?_, ?_, ?_⟩
    · simp [digits, zeroChar]
    · intro v mem
      rcases List.mem_append.mp mem with zero | digit
      · rw [List.eq_of_mem_replicate zero]
        exact positive
      · exact Nat.digits_lt_base d.conv.one_lt_base (List.mem_reverse.mp digit)
    · rw [List.reverse_append, List.reverse_reverse, List.reverse_replicate,
        Nat.ofDigits_append_replicate_zero, Nat.ofDigits_digits]
  unfold number padded
  split
  · exact zeros (least - d.digits.length + 1)
  · exact zeros (least - d.digits.length)

end Directive

/-! ## Formats -/

/-- A piece of a format: an ordinary character, the directive `%%`, or the conversion of an
integer. -/
inductive Piece
  | char (c : Char) (ordinary : c ≠ '%' ∧ c ≠ '\x00')
  | percent
  | directive (d : Directive)

def Piece.text : Piece → List Char
  | .char c _ => [c]
  | .percent => ['%', '%']
  | .directive d => d.text

def Piece.slots : Piece → List (BitVec 64)
  | .char _ _ | .percent => []
  | .directive d => d.slots

def Piece.output : Piece → List Char
  | .char c _ => [c]
  | .percent => ['%']
  | .directive d => d.output

end Chinos.Iso
