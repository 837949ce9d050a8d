import Chinos.Libc.Number

/-!
# The layout of a number, with a length of eight bits

`Directive.emitted` is what `k_vprintf` makes of a directive: the text ISO C prescribes, in a
field that is measured with the length of the text modulo 256. `printfConversion_emitted`
connects it to the code.
-/

namespace Chinos

open Iso

/-! ## Padding -/

section Padding

variable {width : Int}

/-- No `unsigned char` reaches a width of more than 255. -/
theorem padLoop_diverge (wide : 255 < width) (rounds : Nat) (len : BitVec 8) :
    padLoop width rounds len = .error .diverge := by
  induction rounds generalizing len with
  | zero => rfl
  | succ rounds ih =>
    have small : (len.toNat : Int) < width := by
      have bound := len.isLt
      omega
    rw [padLoop, if_pos small, ih]
    rfl

theorem padLoop_ok (narrow : width ≤ 255) (rounds : Nat) (len : BitVec 8)
    (enough : (width - len.toNat).toNat < rounds) :
    padLoop width rounds len = .ok (List.replicate (width - len.toNat).toNat ' ',
      if (len.toNat : Int) < width then BitVec.ofInt 8 width else len) := by
  induction rounds generalizing len with
  | zero => omega
  | succ rounds ih =>
    rw [padLoop]
    split
    next more =>
      have bound := len.isLt
      have next : (len + 1).toNat = len.toNat + 1 := by
        rw [BitVec.toNat_add]
        change (len.toNat + 1) % 256 = _
        omega
      have count : (width - len.toNat).toNat = (width - (len + 1).toNat).toNat + 1 := by omega
      rw [ih (len + 1) (by omega), count, List.replicate_succ]
      have last : (if ((len + 1).toNat : Int) < width then BitVec.ofInt 8 width else len + 1) =
          BitVec.ofInt 8 width := by
        split
        · rfl
        · have reached : width = (len + 1).toNat := by omega
          rw [reached, BitVec.ofInt_natCast, BitVec.ofNat_toNat, BitVec.setWidth_eq]
      rw [last]
      rfl
    next done =>
      have none : (width - len.toNat).toNat = 0 := by omega
      rw [none]
      rfl

theorem ofInt_toNat_eq (narrow : width ≤ 255) (nonneg : 0 ≤ width) :
    ((BitVec.ofInt 8 width).toNat : Int) = width := by
  rw [BitVec.toNat_ofInt]
  omega

/-- What `printfField` prints, in terms of the text without padding. -/
theorem printfField_eq (flags : BitVec 16) (len : BitVec 8) (buf : List Char) (width prec : Int)
    (fill : hasFlag flags flZfill = true → prec ≤ buf.length) :
    printfField flags len buf width prec =
      let text := List.replicate (prec - buf.length).toNat '0' ++ buf.reverse
      let pad := (width - len.toNat).toNat
      if hasFlag flags flLpad then .ok (printfPrefix flags ++ (text ++ List.replicate pad ' '))
      else if pad = 0 then .ok (printfPrefix flags ++ text)
      else if 255 < width then .error .diverge
      else if hasFlag flags flZfill then
        .ok (printfPrefix flags ++ (List.replicate pad '0' ++ text))
      else .ok (List.replicate pad ' ' ++ (printfPrefix flags ++ text)) := by
  have bound := len.isLt
  have tail (n : Int) : (if n < width then width - n else 0).toNat = (width - n).toNat := by
    split <;> omega
  have filled (narrow : width ≤ 255) (more : (len.toNat : Int) < width) :
      (width - (BitVec.ofInt 8 width).toNat).toNat = 0 := by
    rw [ofInt_toNat_eq narrow (by omega), Int.sub_self]
    rfl
  rw [printfField]
  cases lpad : hasFlag flags flLpad with
  | true => simp [tail, pure, Except.pure]
  | false =>
    simp only [Bool.not_false, if_true, Bool.false_eq_true, if_false]
    have notWide (done : width ≤ len.toNat) : width ≤ 255 := by omega
    rcases lt_or_ge (len.toNat : Int) width with more | done
    · have pads : (width - len.toNat).toNat ≠ 0 := by omega
      rw [if_neg pads]
      rcases lt_or_ge 255 width with wide | narrow
      · rw [if_pos wide]
        cases zfill : hasFlag flags flZfill <;>
          simp [more, padLoop_diverge wide, bind, Except.bind]
      · rw [if_neg (not_lt.mpr narrow)]
        have room : (width - len.toNat).toNat < 256 := by omega
        cases zfill : hasFlag flags flZfill with
        | true =>
          have zeros : (prec - buf.length).toNat = 0 := by
            have short := fill zfill
            omega
          have blanks := padLoop_ok narrow 256 (BitVec.ofInt 8 width) (by
            rw [filled narrow more]
            decide)
          have none := filled narrow more
          rw [none, ite_self] at blanks
          simp only [if_true, if_pos more, blanks, ok_bind, tail, none, add_sub_cancel_left, zeros,
            pure, Except.pure, List.replicate_zero, List.nil_append, List.append_nil,
            List.append_assoc]
        | false =>
          have blanks := padLoop_ok narrow 256 len room
          rw [if_pos more] at blanks
          simp only [Bool.false_eq_true, if_false, blanks, ok_bind, tail, filled narrow more, pure,
            Except.pure, List.replicate_zero, List.append_nil, List.append_assoc]
    · have none : (width - len.toNat).toNat = 0 := by omega
      have blanks := padLoop_ok (notWide done) 256 len (by omega)
      rw [none, if_neg (not_lt.mpr done)] at blanks
      cases zfill : hasFlag flags flZfill with
      | true =>
        have zeros : (prec - buf.length).toNat = 0 := by
          have short := fill zfill
          omega
        simp [not_lt.mpr done, blanks, zeros, none, pure, Except.pure]
      | false => simp [not_lt.mpr done, blanks, none, pure, Except.pure]

end Padding

/-! ## The text without padding -/

namespace Iso.Directive

variable (d : Directive)

/-- The least number of digits, as it is read: a precision above `INT_MAX` may come out negative,
and then counts as none. -/
def readLeast : Nat := if d.prec.isSome ∧ 0 ≤ d.readPrec then d.readPrec.toNat else 1

theorem readPrec_eq_zero (absent : d.prec.isSome = false) : d.readPrec = 0 := by
  rw [readPrec, Option.isSome_eq_false_iff.mp absent |> Option.isNone_iff_eq_none.mp]
  exact cInt_natCast (by decide)

theorem length_buf : d.buf.length ≤ 22 := by
  have digits := d.length_digits
  unfold buf
  split_ifs <;> simp [digits]

theorem readLeast_cases : (d.prec.isSome ∧ 0 ≤ d.readPrec ∧ d.readLeast = d.readPrec.toNat) ∨
    (d.readLeast = 1 ∧ (d.readPrec < 0 ∨ (d.prec.isSome = false ∧ d.readPrec = 0))) := by
  unfold readLeast
  split_ifs with present
  · exact Or.inl ⟨present.1, present.2, rfl⟩
  · refine Or.inr ⟨rfl, ?_⟩
    cases absent : d.prec.isSome with
    | false => exact Or.inr ⟨rfl, d.readPrec_eq_zero absent⟩
    | true => exact Or.inl (not_le.mp fun nonneg => present ⟨absent, nonneg⟩)

/-- The zeros of the precision and the digits are the digits of the number. -/
theorem buf_padded : List.replicate (d.readPrec - d.buf.length).toNat '0' ++ d.buf.reverse =
    d.padded d.readLeast := by
  have read := d.readLeast_cases
  unfold buf padded
  by_cases zero : d.value = 0
  · rw [d.digits_eq_nil_iff.mpr zero]
    by_cases empty : d.prec.isSome ∧ d.readPrec = 0
    · have least : d.readLeast = 0 := by
        rcases read with present | absent
        · omega
        · simp_all
      simp [zero, empty, least]
    · have least : d.readLeast = (d.readPrec - 1).toNat + 1 := by
        rcases read with ⟨present, nonneg, eq⟩ | absent
        · have positive : d.readPrec ≠ 0 := fun none => empty ⟨present, none⟩
          omega
        · omega
      simp [zero, empty, least, List.replicate_succ']
  · have some : 0 < d.digits.length := by
      rw [List.length_pos_iff]
      exact mt d.digits_eq_nil_iff.mp zero
    have count : (d.readPrec - d.digits.length).toNat = d.readLeast - d.digits.length := by
      rcases read with present | absent <;> omega
    simp [zero, count]

theorem length_padded_readLeast :
    (d.padded d.readLeast).length = (d.readPrec - d.buf.length).toNat + d.buf.length := by
  rw [← d.buf_padded]
  simp

/-- The first digit of a number is a zero only for the value zero. -/
theorem getLast_buf {first : Char} (last : d.buf.getLast? = some first) :
    first = '0' ↔ d.value = 0 := by
  unfold buf at last
  split_ifs at last with empty zero
  · cases last
  · cases last
    exact iff_of_true rfl zero
  · rw [List.getLast?_reverse] at last
    obtain ⟨rest, split⟩ := List.head?_eq_some_iff.mp last
    exact iff_of_false (d.head_digits split) zero

theorem buf_eq_nil_iff : d.buf = [] ↔ d.prec.isSome ∧ d.readPrec = 0 ∧ d.value = 0 := by
  unfold buf
  split_ifs with empty zero
  · simp [empty]
  · simp [empty]
  · simp [d.digits_eq_nil_iff, zero]

/-- With `#` and no digits in `buf`, the code looks up the first digit where there is none. -/
def Misread : Prop := d.has .alt ∧ d.conv.alternates ∧ d.buf = []

instance : Decidable d.Misread := inferInstanceAs (Decidable (_ ∧ _ ∧ _))

/-- What is known of `flags` and `len` once the precision is taken into account. -/
structure Measured (flags : BitVec 16) (len : BitVec 8) : Prop extends d.Styled flags where
  zfill : hasFlag flags flZfill = (d.has .zero && d.prec.isNone)
  alt : hasFlag flags flAlt =
    (d.has .alt && d.conv.alternates && (d.conv.hex || decide (d.readPrec ≤ d.buf.length)))
  len : len.toNat = (d.padded d.readLeast).length % 256

/-- What is known of `flags` and `len` once the prefix is taken into account: the prefix goes
with zeros of any number, and `len` is the length of the text modulo 256. -/
structure Placed (flags : BitVec 16) (len : BitVec 8) : Prop where
  zfill : hasFlag flags flZfill = (d.has .zero && d.prec.isNone)
  lpad : hasFlag flags flLpad = d.has .minus
  text : ∀ n, printfPrefix flags ++ (List.replicate n '0' ++ d.padded d.readLeast) =
    d.lead ++ (List.replicate n '0' ++ d.number d.readLeast)
  len : len.toNat = (d.body d.readLeast).length % 256

end Iso.Directive

section Tail

variable {d : Directive} {flags : BitVec 16} {len : BitVec 8}

theorem precLen_measured (ready : d.Ready flags) : ∃ left len,
    precLen flags d.buf.length d.readPrec = (left, len) ∧ d.Measured left len := by
  have short := d.length_buf
  have length := d.length_padded_readLeast
  have digits : (BitVec.ofNat 8 d.buf.length).toNat = d.buf.length := by
    rw [BitVec.toNat_ofNat]
    omega
  simp only [precLen, ready.prec, digits]
  cases present : d.prec.isSome with
  | false =>
    have zero := d.readPrec_eq_zero present
    have below : d.readPrec ≤ d.buf.length := by omega
    refine ⟨_, _, rfl, ready.toStyled, ?_, ?_, ?_⟩
    · simp [ready.zfill, ← Option.not_isSome, present]
    · simp [ready.alt, below]
    · rw [digits, length]
      omega
  | true =>
    have styled := ready.toStyled.clear flZfill (by decide)
    have zfill : hasFlag (flags &&& ~~~flZfill) flZfill = (d.has .zero && d.prec.isNone) := by
      simp [hasFlag_cleared, ← Option.not_isSome, present]
    have alt : hasFlag (flags &&& ~~~flZfill) flAlt = (d.has .alt && d.conv.alternates) := by
      rw [hasFlag_clear _ (by decide), ready.alt]
    simp only [if_true, alt, styled.althex]
    split
    next more =>
      have above : ¬ d.readPrec ≤ d.buf.length := not_le.mpr more
      have full : (BitVec.ofInt 8 d.readPrec).toNat = (d.padded d.readLeast).length % 256 := by
        rw [BitVec.toNat_ofInt, length]
        omega
      -- only `#` of an octal number is dropped
      cases drops : d.has .alt && d.conv.alternates && !(d.has .alt && d.conv.hex) with
      | true =>
        have octal : d.conv.hex = false := by
          revert drops
          cases d.has .alt <;> cases d.conv.hex <;> simp
        refine ⟨_, _, rfl, styled.clear flAlt (by decide), ?_, ?_, full⟩
        · rw [if_pos rfl, hasFlag_clear _ (by decide), zfill]
        · rw [if_pos rfl, hasFlag_cleared _ (by decide)]
          simp [octal, above]
      | false =>
        refine ⟨_, _, rfl, styled, zfill, ?_, full⟩
        rw [if_neg Bool.false_ne_true, alt]
        revert drops
        cases d.has .alt <;> cases d.conv.hex <;> simp [above]
    next enough =>
      have below : d.readPrec ≤ d.buf.length := not_lt.mp enough
      refine ⟨_, _, rfl, styled, zfill, ?_, ?_⟩
      · simp [alt, below]
      · rw [digits, length]
        omega

theorem prefixLen_misread (measured : d.Measured flags len) (misread : d.Misread) :
    prefixLen flags d.buf len = .error .wild := by
  obtain ⟨alt, alternates, empty⟩ := misread
  have zero := (d.buf_eq_nil_iff.mp empty).2.1
  have looked : hasFlag flags flAlt = true := by
    simp [measured.alt, alt, alternates, zero, empty]
  rw [prefixLen, if_pos looked, empty]
  rfl

/-- Without `#` the prefix that the code prints is the sign that ISO C asks for. -/
theorem printfPrefix_sign (styled : d.Styled flags) (plain : hasFlag flags flAlt = false) :
    printfPrefix flags = if d.conv.signed then
        if d.value < 0 then ['-'] else if d.has .plus then ['+']
        else if d.has .space then [' '] else []
      else [] := by
  simp only [printfPrefix, plain, hasFlag_mask_or, styled.negative, styled.plus, styled.space]
  cases d.conv.signed with
  | false => rfl
  | true => cases d.has .plus <;> cases d.has .space <;> simp <;> split <;> rfl

theorem prefixLen_sign (plain : hasFlag flags flAlt = false) (buf : List Char) :
    prefixLen flags buf len = .ok (flags, len + BitVec.ofNat 8 (printfPrefix flags).length) := by
  simp only [prefixLen, printfPrefix, plain]
  cases hasFlag flags (flNegative ||| flPlus ||| flSpace) with
  | false => simp
  | true => rfl

namespace Iso.Directive

theorem lead_of_signed (signed : d.conv.signed = true) : d.lead =
    if d.value < 0 then ['-'] else if d.has .plus then ['+'] else if d.has .space then [' ']
    else [] := by
  rw [lead, if_pos signed]

theorem lead_eq_nil (unsigned : d.conv.signed = false)
    (bare : (d.has .alt && d.conv.hex) = false ∨ d.value = 0) : d.lead = [] := by
  rw [lead, unsigned, if_neg Bool.false_ne_true]
  split
  next hash =>
    rcases bare with plain | zero
    · rw [hash.1, Bool.true_and] at plain
      cases conv : d.conv <;> simp_all [Conv.hex]
    · exact (hash.2 zero).elim
  next => rfl

theorem lead_of_hex (hash : d.has .alt = true) (hex : d.conv.hex = true) (nonzero : d.value ≠ 0) :
    d.lead = ['0', if d.conv.upper then 'X' else 'x'] := by
  cases conv : d.conv <;> simp_all [lead, Conv.hex, Conv.signed, Conv.upper]

theorem number_eq_padded {least : Nat}
    (zeroed : d.conv = .o → d.has .alt = true → (d.padded least).head? = some '0') :
    d.number least = d.padded least := by
  rw [number, if_neg]
  intro octal
  exact octal.2.2 (zeroed octal.2.1 octal.1)

/-- The digits of an octal number other than zero need the zero of `#`, unless the precision
gives one. -/
theorem number_octal (hash : d.has .alt = true) (octal : d.conv = .o) (nonzero : d.value ≠ 0)
    (below : d.readPrec ≤ d.buf.length) :
    d.number d.readLeast = '0' :: d.padded d.readLeast := by
  rw [number, if_pos]
  refine ⟨hash, octal, fun zeroed => ?_⟩
  have none : (d.readPrec - d.buf.length).toNat = 0 := by omega
  rw [← d.buf_padded, none, List.replicate_zero, List.nil_append, List.head?_reverse] at zeroed
  exact nonzero ((d.getLast_buf zeroed).mp rfl)

/-- The prefix and the length that go with a text. -/
theorem Placed.of_lead {left : BitVec 16} (measured : d.Measured flags len)
    (zfill : hasFlag left flZfill = hasFlag flags flZfill)
    (lpad : hasFlag left flLpad = hasFlag flags flLpad) (lead : printfPrefix left = d.lead)
    (number : d.number d.readLeast = d.padded d.readLeast) :
    d.Placed left (len + BitVec.ofNat 8 d.lead.length) := by
  have short := d.length_lead
  refine ⟨zfill.trans measured.zfill, lpad.trans measured.lpad, ?_, ?_⟩
  · intro n
    rw [lead, number]
  · rw [BitVec.toNat_add, BitVec.toNat_ofNat, measured.len, body, number, List.length_append]
    omega

end Iso.Directive

/-- No `#`, or one that was dropped because the precision already puts a zero in front. -/
theorem prefixLen_plain (measured : d.Measured flags len) (alt : hasFlag flags flAlt = false) :
    ∃ left len', prefixLen flags d.buf len = .ok (left, len') ∧ d.Placed left len' := by
  have bare := measured.alt.symm.trans alt
  have sign : printfPrefix flags = d.lead := by
    rw [printfPrefix_sign measured.toStyled alt]
    cases signed : d.conv.signed with
    | true => rw [d.lead_of_signed signed, if_pos rfl]
    | false =>
      rw [d.lead_eq_nil signed (Or.inl ?_), if_neg Bool.false_ne_true]
      revert bare
      cases d.conv <;> simp [Conv.hex, Conv.alternates]
  refine ⟨_, _, prefixLen_sign alt _, ?_⟩
  rw [sign]
  apply Directive.Placed.of_lead measured rfl rfl sign
  apply d.number_eq_padded
  intro octal hash
  have more : ¬ d.readPrec ≤ d.buf.length := by
    simpa [octal, hash, Conv.alternates, Conv.hex] using bare
  obtain ⟨n, count⟩ : ∃ n, (d.readPrec - d.buf.length).toNat = n + 1 :=
    ⟨(d.readPrec - d.buf.length).toNat - 1, by omega⟩
  rw [← d.buf_padded, count]
  rfl

section Hash

variable {first : Char} (measured : d.Measured flags len) (alt : hasFlag flags flAlt = true)
  (last : d.buf.getLast? = some first)

include measured alt last

/-- The value zero gets no prefix, in the code as in ISO C. -/
theorem prefixLen_zero (unsigned : d.conv.signed = false) (zero : d.value = 0) :
    ∃ left len', prefixLen flags d.buf len = .ok (left, len') ∧ d.Placed left len' := by
  have none := d.lead_eq_nil unsigned (Or.inr zero)
  have bare : printfPrefix (flags &&& ~~~(flAlt ||| flAlthex ||| flAltupp)) = d.lead := by
    rw [none]
    simp (disch := decide) [printfPrefix, hasFlag_cleared, hasFlag_mask_or, hasFlag_clear,
      measured.negative, measured.plus, measured.space, unsigned]
  have number : d.number d.readLeast = d.padded d.readLeast := by
    apply d.number_eq_padded
    intro _ _
    have digit : d.buf = ['0'] := by
      rw [Directive.buf] at last ⊢
      split_ifs at last ⊢
      · cases last
      · rfl
    rw [← d.buf_padded, digit]
    cases (d.readPrec - (['0'] : List Char).length).toNat <;> rfl
  have placed := Directive.Placed.of_lead measured (hasFlag_clear _ (by decide))
    (hasFlag_clear _ (by decide)) bare number
  rw [none] at placed
  rw [prefixLen, if_pos alt, last]
  refine ⟨_, _, if_pos ((d.getLast_buf last).mpr zero), ?_⟩
  simpa using placed

theorem prefixLen_hex (hash : d.has .alt = true) (hex : d.conv.hex = true)
    (nonzero : d.value ≠ 0) :
    ∃ left len', prefixLen flags d.buf len = .ok (left, len') ∧ d.Placed left len' := by
  have digit : first ≠ '0' := mt (d.getLast_buf last).mp nonzero
  have lead := d.lead_of_hex hash hex nonzero
  have marked : hasFlag flags flAlthex = true := by simp [measured.althex, hash, hex]
  have upper : hasFlag flags flAltupp = d.conv.upper := by simp [measured.altupp, hash]
  have number : d.number d.readLeast = d.padded d.readLeast := by
    apply d.number_eq_padded
    intro octal
    rw [octal] at hex
    cases hex
  have prefixed : printfPrefix flags = d.lead := by
    rw [printfPrefix, if_pos alt, if_pos marked, upper, lead]
  have placed := Directive.Placed.of_lead measured rfl rfl prefixed number
  refine ⟨flags, len + 1 + 1, ?_, ?_⟩
  · rw [prefixLen, if_pos alt, last]
    simp only [digit, if_false, marked, if_true]
  · rw [lead] at placed
    rw [BitVec.add_assoc]
    exact placed

/-- The zero of an octal number is part of the number in ISO C, and a prefix here. -/
theorem prefixLen_octal (hash : d.has .alt = true) (octal : d.conv = .o)
    (below : d.readPrec ≤ d.buf.length) (nonzero : d.value ≠ 0) :
    ∃ left len', prefixLen flags d.buf len = .ok (left, len') ∧ d.Placed left len' := by
  have digit : first ≠ '0' := mt (d.getLast_buf last).mp nonzero
  have plain : d.conv.signed = false ∧ d.conv.hex = false := by
    rw [octal]
    exact ⟨rfl, rfl⟩
  have marked : hasFlag flags flAlthex = false := by simp [measured.althex, plain]
  have lead := d.lead_eq_nil plain.1 (Or.inl (by simp [plain]))
  have number := Directive.number_octal hash octal nonzero below
  have prefixed : printfPrefix flags = ['0'] := by
    rw [printfPrefix, if_pos alt, if_neg (by simp [marked])]
  refine ⟨flags, len + 1, ?_, measured.zfill, measured.lpad, ?_, ?_⟩
  · rw [prefixLen, if_pos alt, last]
    simp only [digit, if_false, marked, Bool.false_eq_true]
  · intro n
    rw [prefixed, lead, number, List.nil_append, List.singleton_append, ← List.cons_append,
      ← List.replicate_succ, List.replicate_succ', List.append_assoc, List.singleton_append]
  · rw [Directive.body, lead, number, BitVec.toNat_add, measured.len, List.nil_append,
      List.length_cons]
    change (_ + 1) % 256 = _
    omega

end Hash

theorem prefixLen_placed (measured : d.Measured flags len) (fine : ¬ d.Misread) : ∃ left len',
    prefixLen flags d.buf len = .ok (left, len') ∧ d.Placed left len' := by
  cases alt : hasFlag flags flAlt with
  | false => exact prefixLen_plain measured alt
  | true =>
    obtain ⟨⟨hash, alternates⟩, kind⟩ : (d.has .alt = true ∧ d.conv.alternates = true) ∧
        (d.conv.hex = true ∨ d.readPrec ≤ d.buf.length) := by
      simpa using measured.alt.symm.trans alt
    have present : d.buf ≠ [] := fun empty => fine ⟨hash, alternates, empty⟩
    have last := List.getLast?_eq_some_getLast present
    have unsigned : d.conv.signed = false := by
      cases conv : d.conv <;> simp_all [Conv.alternates, Conv.signed]
    by_cases zero : d.value = 0
    · exact prefixLen_zero measured alt last unsigned zero
    · cases hex : d.conv.hex with
      | true => exact prefixLen_hex measured alt last hash hex zero
      | false =>
        have octal : d.conv = .o := by
          cases conv : d.conv <;> simp_all [Conv.alternates, Conv.hex]
        exact prefixLen_octal measured alt last hash octal (by simpa [hex] using kind) zero

end Tail

/-! ## What `k_vprintf` makes of a directive -/

/-- The padding that is missing in the field, to the length modulo 256. -/
def Iso.Directive.readPad (d : Directive) : Nat :=
  (d.readWidth - ((d.body d.readLeast).length % 256 : Nat)).toNat

/-- The output for a directive: the text is the one ISO C prescribes, but a field of more than
255 is never full. -/
def Iso.Directive.emitted (d : Directive) : Except Fault (List Char) :=
  if d.Misread then .error .wild
  else if d.has .minus then .ok (d.body d.readLeast ++ List.replicate d.readPad ' ')
  else if d.readPad = 0 then .ok (d.body d.readLeast)
  else if 255 < d.readWidth then .error .diverge
  else if d.has .zero && d.prec.isNone then
    .ok (d.lead ++ List.replicate d.readPad '0' ++ d.number d.readLeast)
  else .ok (List.replicate d.readPad ' ' ++ d.body d.readLeast)

theorem printfNumber_emitted {d : Directive} {flags : BitVec 16} (ready : d.Ready flags) :
    printfNumber flags d.buf d.readWidth d.readPrec = d.emitted := by
  obtain ⟨left, len, eq, measured⟩ := precLen_measured ready
  rw [printfNumber, eq]
  by_cases misread : d.Misread
  · rw [Directive.emitted, if_pos misread]
    simp only [prefixLen_misread measured misread]
    rfl
  · obtain ⟨last, len', run, placed⟩ := prefixLen_placed measured misread
    have fill : hasFlag last flZfill = true → d.readPrec ≤ d.buf.length := by
      intro filled
      have absent : d.prec.isSome = false := by
        simpa using (Bool.and_eq_true_iff.mp (placed.zfill.symm.trans filled)).2
      rw [d.readPrec_eq_zero absent]
      omega
    have text : printfPrefix last ++ d.padded d.readLeast = d.body d.readLeast := placed.text 0
    simp only [run, ok_bind, printfField_eq _ _ _ _ _ fill, d.buf_padded, placed.lpad, placed.zfill,
      placed.len, placed.text, ← List.append_assoc, text]
    rw [Directive.emitted, if_neg misread, Directive.readPad]

/-- A conversion of an integer takes one argument and prints `emitted`. -/
theorem printfConversion_emitted (env : PrintfEnv) (d : Directive) (fmt : List Char)
    (args : List (BitVec 64)) :
    printfConversion env d.conv.char ⟨d.word, d.readWidth, d.readPrec, d.arg :: args⟩ fmt =
      d.emitted >>= fun out => .ok (out, fmt, args) := by
  have reads := d.reads_word
  have notPointer : d.conv.char ≠ 'p' := by cases d.conv <;> decide
  have notFloat : ¬ (('E' ≤ d.conv.char ∧ d.conv.char ≤ 'G') ∨
      ('e' ≤ d.conv.char ∧ d.conv.char ≤ 'g')) := by cases d.conv <;> decide
  have notText : d.conv.char ≠ 'c' ∧ ¬ (d.conv.char = 's' ∨ d.conv.char = 'S') := by
    cases d.conv <;> decide
  have kind : (d.conv.char = 'd' ∨ d.conv.char = 'i') ↔ d.conv.signed = true := by
    cases d.conv <;> decide
  simp only [printfConversion, notPointer, false_and, if_false, notFloat, vaArg, ok_bind, notText,
    kind]
  cases signed : d.conv.signed with
  | true =>
    obtain ⟨left, run, ready⟩ := printfSigned_ready reads signed
    simp only [if_true, run, ok_bind, printfNumber_emitted ready]
    rfl
  | false =>
    obtain ⟨left, run, ready⟩ := printfUnsigned_ready reads signed
    simp only [Bool.false_eq_true, if_false, run, ok_bind, printfNumber_emitted ready]
    rfl

end Chinos
