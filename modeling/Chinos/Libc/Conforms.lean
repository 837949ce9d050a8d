import Chinos.Libc.Layout

/-!
# When `k_vprintf` prints what ISO C prescribes

`Directive.Fine` is the condition on a directive, and `Directive.emitted_iff` says that it is
the right one. A format is a list of pieces, and `printfLoop_printed` follows `k_vprintf`
through it.
-/

namespace Chinos

open Iso

/-! ## The condition on a directive -/

namespace Iso.Directive

variable (d : Directive)

/-- The directives that are printed as ISO C prescribes. -/
structure Fine : Prop where
  /-- `#` finds a digit to look at. -/
  digit : ¬ (d.has .alt ∧ d.conv.alternates ∧ (∃ count ∈ d.prec, count.value = 0) ∧ d.value = 0)
  /-- The precision is an `int`. -/
  prec : ∀ count ∈ d.prec, count.value < 2 ^ 31
  /-- There is nothing to pad, also with the length modulo 256, or the length and the width are
  not cut short: text on the left of its field can have any `int` as its width. -/
  field : d.fieldWidth ≤ (d.body d.least).length % 256 ∨
    (2 ^ 31 ≤ d.fieldWidth ∧ d.fieldWidth ≤ (d.body d.least).length) ∨
    ((d.body d.least).length ≤ 255 ∧
      (d.fieldWidth ≤ 255 ∨ (d.has .minus ∧ d.fieldWidth < 2 ^ 31)))

section Read

variable {d}

theorem readPrec_eq (small : ∀ count ∈ d.prec, count.value < 2 ^ 31) :
    d.readPrec = (d.prec.elim 0 Count.value : Nat) := by
  unfold readPrec
  cases present : d.prec with
  | none => exact cInt_natCast (by decide)
  | some count => exact cInt_natCast (small count present)

theorem readLeast_eq (small : ∀ count ∈ d.prec, count.value < 2 ^ 31) : d.readLeast = d.least := by
  rw [readLeast, readPrec_eq small, least]
  cases d.prec with
  | none => rfl
  | some count => simp

theorem least_lt (small : ∀ count ∈ d.prec, count.value < 2 ^ 31) : d.least < 2 ^ 31 := by
  rw [least]
  cases present : d.prec with
  | none => decide
  | some count => exact small count present

theorem misread_iff (small : ∀ count ∈ d.prec, count.value < 2 ^ 31) : d.Misread ↔
    d.has .alt ∧ d.conv.alternates ∧ (∃ count ∈ d.prec, count.value = 0) ∧ d.value = 0 := by
  have empty : d.buf = [] ↔ (∃ count ∈ d.prec, count.value = 0) ∧ d.value = 0 := by
    rw [d.buf_eq_nil_iff, readPrec_eq small]
    cases d.prec <;> simp
  rw [Misread, empty]

end Read

/-! ## Lengths -/

theorem length_body (least : Nat) :
    (d.body least).length ≤ max least 23 + 2 := by
  have lead := d.length_lead
  have number := d.length_number least
  have digits := d.length_digits
  rw [body, List.length_append]
  omega

theorem length_output : d.output.length = max d.fieldWidth (d.body d.least).length := by
  have parts : (d.body d.least).length = d.lead.length + (d.number d.least).length :=
    List.length_append
  unfold output
  split_ifs <;> simp only [List.length_append, List.length_replicate] <;> omega

/-- A width above `INT_MAX` is read as a smaller number by 2 ^ 32 or more. -/
theorem readWidth_cases : (d.fieldWidth < 2 ^ 31 ∧ d.readWidth = d.fieldWidth) ∨
    (2 ^ 31 ≤ d.fieldWidth ∧ d.readWidth ≤ d.fieldWidth - 2 ^ 32) := by
  rcases lt_or_ge d.fieldWidth (2 ^ 31) with small | large
  · exact Or.inl ⟨small, cInt_natCast small⟩
  · refine Or.inr ⟨large, ?_⟩
    rw [readWidth, cInt, Int.bmod_def]
    split <;> omega

theorem readPrec_lt : d.readPrec < 2 ^ 31 := by
  rw [readPrec, cInt, Int.bmod_def]
  split <;> omega

variable {d} {out : List Char}

theorem of_emitted_ok (ok : d.emitted = .ok out) : ¬ d.Misread ∧
    out.length = (d.body d.readLeast).length + d.readPad ∧
    (d.has .minus ∨ d.readPad = 0 ∨ d.readWidth ≤ 255) := by
  have parts : (d.body d.readLeast).length = d.lead.length + (d.number d.readLeast).length :=
    List.length_append
  unfold emitted at ok
  split_ifs at ok with misread minus unpadded wide filled
  · rw [← Except.ok.inj ok]
    refine ⟨misread, ?_, Or.inl minus⟩
    rw [List.length_append, List.length_replicate]
  · rw [← Except.ok.inj ok]
    exact ⟨misread, by omega, Or.inr (Or.inl unpadded)⟩
  · rw [← Except.ok.inj ok]
    refine ⟨misread, ?_, Or.inr (Or.inr (not_lt.mp wide))⟩
    simp only [List.length_append, List.length_replicate]
    omega
  · rw [← Except.ok.inj ok]
    refine ⟨misread, ?_, Or.inr (Or.inr (not_lt.mp wide))⟩
    rw [List.length_append, List.length_replicate, Nat.add_comm]

/-! ## Characters other than blanks -/

/-- The number of characters other than blanks, which padding with blanks does not change. -/
def inked (out : List Char) : Nat := out.countP (· != ' ')

theorem inked_append (a b : List Char) : inked (a ++ b) = inked a + inked b := List.countP_append

theorem inked_blanks (n : Nat) : inked (List.replicate n ' ') = 0 := by
  rw [inked, List.countP_replicate]
  rfl

theorem inked_number (least : Nat) : inked (d.number least) = (d.number least).length := by
  rw [inked, List.countP_eq_length]
  intro c mem
  have notBlank : c ≠ ' ' := fun blank => d.notMem_number least (blank ▸ mem)
  simpa using notBlank

section Prec

variable (present : d.prec.isSome = true)

include present

theorem inked_output : inked d.output = inked d.lead + (d.number d.least).length := by
  have noFill : ¬ (d.has .zero ∧ d.prec = none) := by
    rintro ⟨-, absent⟩
    rw [absent] at present
    cases present
  have body : inked (d.body d.least) = inked d.lead + (d.number d.least).length := by
    rw [Directive.body, inked_append, inked_number]
  unfold output
  dsimp only
  rw [if_neg noFill]
  split
  · rw [inked_append, inked_blanks, body, Nat.add_zero]
  · rw [inked_append, inked_blanks, body, Nat.zero_add]

theorem inked_emitted (ok : d.emitted = .ok out) :
    inked out = inked d.lead + (d.number d.readLeast).length := by
  have body : inked (d.body d.readLeast) = inked d.lead + (d.number d.readLeast).length := by
    rw [Directive.body, inked_append, inked_number]
  unfold emitted at ok
  split_ifs at ok with misread minus unpadded wide filled
  · rw [← Except.ok.inj ok, inked_append, inked_blanks, body, Nat.add_zero]
  · rw [← Except.ok.inj ok, body]
  · simp [← Option.not_isSome, present] at filled
  · rw [← Except.ok.inj ok, inked_append, inked_blanks, body, Nat.zero_add]

/-- A precision above `INT_MAX` asks for more digits than are printed. -/
theorem prec_of_emitted (ok : d.emitted = .ok d.output) : d.least < 2 ^ 31 := by
  have asked := inked_output present
  have printed := inked_emitted present ok
  have all := d.le_length_number d.least
  have some := d.length_number d.readLeast
  have digits := d.length_digits
  have read := d.readPrec_lt
  have least : d.readLeast < 2 ^ 31 := by
    rcases d.readLeast_cases with nonneg | one <;> omega
  omega

end Prec

/-! ## The condition is the right one -/

theorem Fine.emitted (fine : d.Fine) : d.emitted = .ok d.output := by
  have misread : ¬ d.Misread := by
    rw [misread_iff fine.prec]
    exact fine.digit
  have least := readLeast_eq fine.prec
  have small := least_lt fine.prec
  have length := d.length_body d.least
  have width := d.readWidth_cases
  have field := fine.field
  have pad : d.readPad = d.fieldWidth - (d.body d.least).length := by
    rw [readPad, least]
    omega
  have body : d.lead ++ d.number d.least = d.body d.least := rfl
  have absent : (d.has .zero && d.prec.isNone) = true ↔ d.has .zero = true ∧ d.prec = none := by
    simp
  rw [Directive.emitted, if_neg misread, output, least, pad]
  cases minus : d.has .minus with
  | true => rfl
  | false =>
    simp only [Bool.false_eq_true, if_false, absent]
    split
    next none =>
      rw [none]
      split <;> simp [body]
    next some =>
      have narrow : ¬ 255 < d.readWidth := by
        simp only [minus, Bool.false_eq_true, false_and, or_false] at field
        omega
      rw [if_neg narrow]
      split <;> rfl

theorem emitted_iff : d.emitted = .ok d.output ↔ d.Fine := by
  refine ⟨fun ok => ?_, Fine.emitted⟩
  have prec : ∀ count ∈ d.prec, count.value < 2 ^ 31 := by
    intro count present
    have bound := prec_of_emitted (Option.isSome_iff_exists.mpr ⟨count, present⟩) ok
    rw [least, present] at bound
    exact bound
  obtain ⟨misread, length, side⟩ := of_emitted_ok ok
  rw [misread_iff prec] at misread
  refine ⟨misread, prec, ?_⟩
  have least := readLeast_eq prec
  have small := least_lt prec
  have short := d.length_body d.least
  have width := d.readWidth_cases
  rw [readPad, least, length_output] at length
  rw [readPad, least] at side
  rcases side with minus | side
  · simp only [minus, true_and]
    omega
  · omega

end Iso.Directive

/-! ## Formats -/

namespace Iso

/-- A piece of a format that is printed as ISO C prescribes. -/
def Piece.Fine : Piece → Prop
  | .char _ _ | .percent => True
  | .directive d => d.Fine

/-- What `k_vprintf` prints for a piece of a format, or why it does not come back. -/
def Piece.emitted : Piece → Except Fault (List Char)
  | .char c _ => .ok [c]
  | .percent => .ok ['%']
  | .directive d => d.emitted

theorem Piece.Fine.emitted {piece : Piece} (fine : piece.Fine) :
    piece.emitted = .ok piece.output := by
  cases piece with
  | char c ordinary => rfl
  | percent => rfl
  | directive d => exact Directive.Fine.emitted fine

/-- What `k_vprintf` prints for a list of pieces, which is what it prints for one after the
other. -/
def printed : List Piece → Except Fault (List Char)
  | [] => .ok []
  | piece :: pieces => do return (← piece.emitted) ++ (← printed pieces)

theorem printed_append (before after : List Piece) : printed (before ++ after) =
    printed before >>= fun first => printed after >>= fun second => .ok (first ++ second) := by
  induction before with
  | nil =>
    rw [List.nil_append]
    cases printed after <;> rfl
  | cons piece pieces ih =>
    simp only [List.cons_append, printed, ih]
    cases piece.emitted with
    | error fault => rfl
    | ok out =>
      cases printed pieces with
      | error fault => rfl
      | ok first =>
        cases printed after with
        | error fault => rfl
        | ok second => simp [pure, Except.pure]

theorem printed_of_fine {pieces : List Piece} (fine : ∀ piece ∈ pieces, piece.Fine) :
    printed pieces = .ok (pieces.flatMap Piece.output) := by
  induction pieces with
  | nil => rfl
  | cons piece pieces ih =>
    have rest := ih fun other mem => fine other (List.mem_cons_of_mem _ mem)
    rw [printed, (fine piece List.mem_cons_self).emitted, rest]
    rfl

/-- What follows a `%` in a directive is not a second one. -/
theorem Directive.head_tail (d : Directive) (fmt : List Char) :
    (d.tail ++ fmt).head? ≠ some '%' := by
  have conv : d.conv.char ≠ '%' := by cases d.conv <;> decide
  have size : '%' ∉ d.size.text := by cases d.size <;> decide
  have flags : ∀ flag : Flag, flag.char ≠ '%' := by intro flag; cases flag <;> decide
  have digits : ∀ digit : Fin 10, Nat.digitChar digit.val ≠ '%' := by decide
  have counts : ∀ count : Count, '%' ∉ count.text := by
    intro count
    cases count <;> simp [Count.text, digits]
  have width : '%' ∉ d.width.elim [] Count.text := by
    cases d.width <;> simp [counts]
  have prec : '%' ∉ d.prec.elim [] (fun count => '.' :: count.text) := by
    cases d.prec <;> simp [counts]
  have none : '%' ∉ d.tail := by
    simp [Directive.tail, flags, width, prec, size, conv.symm]
  have some : d.tail ≠ [] := by simp [Directive.tail]
  rw [List.head?_append_of_ne_nil _ some]
  exact fun head => none (List.mem_of_head? head)

end Iso

/-- `k_vprintf` prints the pieces of its format one after the other. -/
theorem printfLoop_printed (env : PrintfEnv) (pieces : List Piece) (rounds : Nat)
    (enough : (pieces.flatMap Piece.text).length < rounds) :
    printfLoop env rounds (pieces.flatMap Piece.text) (pieces.flatMap Piece.slots) =
      printed pieces := by
  induction pieces generalizing rounds with
  | nil =>
    cases rounds with
    | zero => cases enough
    | succ rounds => rfl
  | cons piece pieces ih =>
    rw [List.flatMap_cons, List.length_append] at enough
    rw [List.flatMap_cons, List.flatMap_cons, printed]
    cases rounds with
    | zero => cases enough
    | succ rounds =>
      cases piece with
      | char c ordinary =>
        have rest := ih rounds (by simp only [Piece.text, List.length_cons] at enough; omega)
        simp only [Piece.text, Piece.slots, List.cons_append, List.nil_append, printfLoop,
          ordinary.1, ne_eq, not_false_eq_true, if_true, rest]
        rfl
      | percent =>
        have rest := ih rounds (by simp only [Piece.text, List.length_cons] at enough; omega)
        simp only [Piece.text, Piece.slots, List.cons_append, List.nil_append, printfLoop,
          ne_eq, not_true_eq_false, if_false, List.head?_cons, if_true, List.tail_cons, rest]
        rfl
      | directive d =>
        have rest := ih rounds (by
          simp only [Piece.text, Directive.text, List.length_cons] at enough
          omega)
        simp only [Piece.text, Piece.slots, Directive.text, List.cons_append, printfLoop, ne_eq,
          not_true_eq_false, if_false, d.head_tail, printfDirective_tail, ok_bind,
          printfConversion_emitted, Piece.emitted]
        cases d.emitted with
        | error fault => rfl
        | ok out =>
          simp only [ok_bind, rest]

/-- A machine in which nothing but the arguments themselves is read, so that strings are empty. -/
def plainEnv : PrintfEnv := ⟨fun _ => [], fun _ => .ok [], fun _ _ => .ok ([], [])⟩

-- a zero without digits, and a text of 299 characters in a field of 300
example : Stops (kVprintf plainEnv ['%', '#', '.', '0', 'o'] [0]) .wild := by decide +kernel

example : Returns (kVprintf plainEnv ['%', '-', '3', '0', '0', '.', '2', '9', '9', 'd'] [0])
    (·.length = 556) := by decide +kernel

/-- In a format whose other pieces are fine, a directive is printed as ISO C prescribes exactly
when it is fine itself. -/
theorem kVprintf_iso_iff (env : PrintfEnv) (before after : List Piece) (d : Directive)
    (fineBefore : ∀ piece ∈ before, piece.Fine) (fineAfter : ∀ piece ∈ after, piece.Fine) :
    kVprintf env ((before ++ .directive d :: after).flatMap Piece.text)
        ((before ++ .directive d :: after).flatMap Piece.slots) =
      .ok ((before ++ .directive d :: after).flatMap Piece.output) ↔ d.Fine := by
  rw [kVprintf, printfLoop_printed env _ _ (Nat.lt_succ_self _), printed_append,
    printed_of_fine fineBefore, printed, printed_of_fine fineAfter, ← Directive.emitted_iff]
  simp only [List.flatMap_append, List.flatMap_cons, Piece.emitted, Piece.output, ok_bind]
  cases d.emitted with
  | error fault =>
    refine iff_of_false (fun run => ?_) fun same => ?_
    · cases run
    · cases same
  | ok out =>
    simp only [ok_bind, pure, Except.pure, Except.ok.injEq, List.append_cancel_left_eq,
      List.append_cancel_right_eq]

section Samples

-- the digits of the samples are literals of `Fin 10`
local instance neZero_ten : NeZero 10 := ⟨by decide⟩

theorem literal_leading {digit : Fin 10} {digits : List (Fin 10)} (nonzero : digit ≠ 0) :
    ∀ count ∈ some (Count.literal (digit :: digits)), count.Leading := by
  intro count mem
  cases mem
  exact nonzero

theorem signedSample_leading : ∀ count ∈ some (Count.literal [5]), count.Leading :=
  literal_leading (by decide)

/-- The directive `%+05d` for the value 42, which ISO C prints as `+0042`. -/
def signedSample : Directive where
  flags := [.plus, .zero]
  width := some (.literal [5])
  leading := signedSample_leading
  prec := none
  size := .none
  conv := .d
  arg := 42

theorem kVprintf_iso_iff_sample :
    kVprintf plainEnv ['%', '%', '%', '+', '0', '5', 'd'] [42] =
      .ok ['%', '+', '0', '0', '4', '2'] := by
  have fine : signedSample.Fine := by
    constructor
    case digit =>
      rintro ⟨hash, -⟩
      cases hash
    case prec =>
      intro count mem
      cases mem
    case field => decide +kernel
  have percent : ∀ piece ∈ [Piece.percent], piece.Fine := by
    intro piece mem
    rw [List.mem_singleton.mp mem]
    trivial
  have noPiece : ∀ piece ∈ ([] : List Piece), piece.Fine := by
    intro piece mem
    cases mem
  have output : signedSample.output = ['+', '0', '0', '4', '2'] := by decide +kernel
  have run := (kVprintf_iso_iff plainEnv [.percent] [] signedSample percent noPiece).mpr fine
  simp only [List.singleton_append, List.flatMap_cons, List.flatMap_nil, Piece.output,
    output] at run
  exact run

theorem wideSample_leading : ∀ count ∈ some (Count.literal [2, 5, 6]), count.Leading :=
  literal_leading (by decide)

/-- The directive `%256d` for the value 0, whose width is more than an `unsigned char` holds. -/
def wideSample : Directive where
  flags := []
  width := some (.literal [2, 5, 6])
  leading := wideSample_leading
  prec := none
  size := .none
  conv := .d
  arg := 0

theorem width_256_never_full : wideSample.text = ['%', '2', '5', '6', 'd'] ∧
    wideSample.output = List.replicate 255 ' ' ++ ['0'] ∧
    Stops (kVprintf plainEnv wideSample.text wideSample.slots) .diverge := by
  decide +kernel

end Samples

end Chinos
