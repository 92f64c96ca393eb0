import RadixText.Proofs.Floats

/-!
# Shapes of float texts

The text of a number has digits on both sides of a point and in scientific
notation an exponent behind a mark. The mark is no digit of the radix, so that
a text falls into such parts in one way only, and none of them could be
shorter.
-/

namespace RadixText

/-- Both lists start with characters of a kind and go on with others. -/
theorem append_inj_of_forall {α : Type} {p : α → Bool} {front front' rest rest' : List α}
    (all : ∀ ch ∈ front, p ch = true) (all' : ∀ ch ∈ front', p ch = true)
    (other : ∀ ch ∈ rest.head?, p ch = false) (other' : ∀ ch ∈ rest'.head?, p ch = false)
    (h : front ++ rest = front' ++ rest') : front = front' ∧ rest = rest' := by
  have takeWhile_rest {rest : List α} (other : ∀ ch ∈ rest.head?, p ch = false) :
      rest.takeWhile p = [] := by
    cases rest with
    | nil => rfl
    | cons ch rest => rw [List.takeWhile_cons, other ch rfl, if_neg Bool.false_ne_true]
  have fronts := congrArg (List.takeWhile p) h
  rw [List.takeWhile_append_of_pos all, List.takeWhile_append_of_pos all', takeWhile_rest other,
    takeWhile_rest other', List.append_nil, List.append_nil] at fronts
  rw [fronts] at h
  exact ⟨fronts, List.append_cancel_left h⟩

/-- A sign that may be left out. -/
def IsSign (cs : List Char) : Prop := cs = [] ∨ cs = ['-'] ∨ cs = ['+']

/-- The character is a sign. -/
def isSignChar (ch : Char) : Bool := ch == '-' || ch == '+'

theorem IsSign.forall_isSignChar {cs : List Char} (h : IsSign cs) :
    ∀ ch ∈ cs, isSignChar ch = true := by
  intro ch mem
  rcases h with rfl | rfl | rfl
  · cases mem
  · rw [List.mem_singleton.mp mem]
    rfl
  · rw [List.mem_singleton.mp mem]
    rfl

theorem Options.isSign_sign (o : Options) (negative : Bool) : IsSign (o.sign negative) := by
  unfold Options.sign IsSign
  split
  · exact .inr (.inl rfl)
  · split
    · exact .inr (.inr rfl)
    · exact .inl rfl

namespace Radix

variable {r : Radix} {c : LetterCase}

/-- Digits of the radix in either letter case, at least one. -/
structure IsNumeral (r : Radix) (cs : List Char) : Prop where
  nonempty : cs ≠ []
  isSome : ∀ ch ∈ cs, (r.readDigit? ch).isSome = true

theorem isNumeral_map_digitChar {ds : List Nat} (nonempty : ds ≠ [])
    (below : ∀ d ∈ ds, d < r.val) : r.IsNumeral (ds.map (digitChar c)) where
  nonempty := by simpa using nonempty
  isSome := by
    intro ch mem
    obtain ⟨d, hd, rfl⟩ := List.mem_map.mp mem
    rw [r.readDigit?_digitChar c (below d hd)]
    rfl

theorem isNumeral_plainNumeral (n : Nat) : r.IsNumeral (r.plainNumeral c n) :=
  isNumeral_map_digitChar (r.digits_ne_nil n) fun _ mem => r.lt_of_mem_digits mem

theorem readDigit?_eq_none {ch : Char} (unread : unitDigit? ch.toNat = none) :
    r.readDigit? ch = none := by
  rw [readDigit?, unread]
  rfl

theorem exponentMark_eq (r : Radix) (c : LetterCase) : FloatText.exponentMark r c =
    if 15 ≤ r.val then '^' else if c = .upper then 'E' else 'e' := by
  unfold FloatText.exponentMark
  split
  case isTrue letters =>
    rw [if_neg (Nat.not_le_of_lt letters)]
    cases c <;> rfl
  case isFalse digits => rw [if_pos (Nat.le_of_not_lt digits)]

/-- No digit of either letter case is the mark in front of an exponent. -/
theorem readDigit?_exponentMark (r : Radix) (c : LetterCase) :
    r.readDigit? (FloatText.exponentMark r c) = none := by
  unfold FloatText.exponentMark
  split
  case isTrue letters =>
    have above : r.val ≤ 14 := by omega
    cases c <;> simpa [readDigit?, unitDigit?, byteDigit?] using above
  case isFalse => exact readDigit?_eq_none (by decide)

theorem readDigit?_of_isMark {ch : Char} (mark : r.isMark ch = true) :
    r.readDigit? ch = none := by
  simp only [isMark, Bool.or_eq_true, beq_iff_eq] at mark
  rcases mark with rfl | rfl
  · exact r.readDigit?_exponentMark .lower
  · exact r.readDigit?_exponentMark .upper

theorem readDigit?_of_isSignChar {ch : Char} (sign : isSignChar ch = true) :
    r.readDigit? ch = none := by
  simp only [isSignChar, Bool.or_eq_true, beq_iff_eq] at sign
  rcases sign with rfl | rfl <;> exact readDigit?_eq_none (by decide)

/-- A numeral does not start with a sign. -/
theorem IsNumeral.head?_append {cs : List Char} (h : r.IsNumeral cs) (rest : List Char) :
    ∀ ch ∈ (cs ++ rest).head?, isSignChar ch = false := by
  intro ch mem
  rw [List.head?_append_of_ne_nil _ h.nonempty] at mem
  have digit := h.isSome ch (List.mem_of_mem_head? mem)
  by_contra sign
  rw [readDigit?_of_isSignChar (Bool.eq_true_of_not_eq_false sign)] at digit
  cases digit

end Radix

/-- The parts of an exponent. -/
@[ext]
structure ExponentParts where
  mark : Char
  sign : List Char
  digits : List Char
  deriving DecidableEq

def ExponentParts.chars (e : ExponentParts) : List Char := e.mark :: (e.sign ++ e.digits)

/-- The parts that a float text may fall into. -/
@[ext]
structure TextParts where
  sign : List Char
  whole : List Char
  fraction : List Char
  exponent : Option ExponentParts
  deriving DecidableEq

namespace TextParts

variable {r : Radix} {c : LetterCase}

def exponentChars (p : TextParts) : List Char := p.exponent.elim [] ExponentParts.chars

def chars (p : TextParts) : List Char :=
  p.sign ++ (p.whole ++ '.' :: (p.fraction ++ p.exponentChars))

/-- A reader takes the parts for sign, digits and exponent. -/
structure IsReadable (p : TextParts) (r : Radix) : Prop where
  sign : IsSign p.sign
  whole : r.IsNumeral p.whole
  fraction : r.IsNumeral p.fraction
  mark : ∀ e ∈ p.exponent, r.isMark e.mark = true
  exponentSign : ∀ e ∈ p.exponent, IsSign e.sign
  exponentDigits : ∀ e ∈ p.exponent, r.IsNumeral e.digits

namespace IsReadable

variable {p p' : TextParts}

theorem head?_exponentChars (h : p.IsReadable r) :
    ∀ ch ∈ p.exponentChars.head?, (r.readDigit? ch).isSome = false := by
  intro ch mem
  cases exponent : p.exponent with
  | none => simp [exponentChars, exponent] at mem
  | some e =>
      obtain rfl : e.mark = ch := by simpa [exponentChars, exponent, ExponentParts.chars] using mem
      rw [Radix.readDigit?_of_isMark (h.mark e exponent)]
      rfl

theorem exponent_eq (h : p.IsReadable r) (h' : p'.IsReadable r)
    (same : p.exponentChars = p'.exponentChars) : p.exponent = p'.exponent := by
  cases exponent : p.exponent with
  | none =>
      cases exponent' : p'.exponent with
      | none => rfl
      | some e' => simp [exponentChars, exponent, exponent', ExponentParts.chars] at same
  | some e =>
      cases exponent' : p'.exponent with
      | none => simp [exponentChars, exponent, exponent', ExponentParts.chars] at same
      | some e' =>
          simp only [exponentChars, exponent, exponent', Option.elim_some, ExponentParts.chars,
            List.cons.injEq] at same
          have digits := (h.exponentDigits e exponent).head?_append []
          have digits' := (h'.exponentDigits e' exponent').head?_append []
          rw [List.append_nil] at digits digits'
          obtain ⟨sign, rest⟩ := append_inj_of_forall
            (h.exponentSign e exponent).forall_isSignChar
            (h'.exponentSign e' exponent').forall_isSignChar digits digits' same.2
          exact congrArg some (ExponentParts.ext same.1 sign rest)

/-- A text falls into parts in one way only. -/
theorem eq_of_chars_eq (h : p.IsReadable r) (h' : p'.IsReadable r)
    (same : p.chars = p'.chars) : p = p' := by
  have point (rest : List Char) :
      ∀ ch ∈ ('.' :: rest).head?, (r.readDigit? ch).isSome = false := by
    intro ch mem
    obtain rfl : '.' = ch := by simpa using mem
    rw [Radix.readDigit?_eq_none (by decide)]
    rfl
  obtain ⟨sign, unsigned⟩ := append_inj_of_forall h.sign.forall_isSignChar
    h'.sign.forall_isSignChar (h.whole.head?_append _) (h'.whole.head?_append _) same
  obtain ⟨whole, behind⟩ := append_inj_of_forall h.whole.isSome h'.whole.isSome (point _)
    (point _) unsigned
  obtain ⟨fraction, exponent⟩ := append_inj_of_forall h.fraction.isSome h'.fraction.isSome
    h.head?_exponentChars h'.head?_exponentChars (List.cons.inj behind).2
  exact TextParts.ext sign whole fraction (h.exponent_eq h' exponent)

end IsReadable

/-- Digits behind the point, at least one, and no zero at their end but a lone
one. -/
def HasPlainFraction (p : TextParts) (r : Radix) (c : LetterCase) : Prop :=
  ∃ ds : List Nat, p.fraction = ds.map (digitChar c) ∧ ds ≠ [] ∧ (∀ d ∈ ds, d < r.val) ∧
    (ds = [0] ∨ ds.getLast? ≠ some 0)

/-- Parts of a number in fixed notation: the plain numeral of what is in front
of its point, and digits behind it. -/
structure IsFixed (p : TextParts) (r : Radix) (c : LetterCase) (q : ℚ) : Prop where
  whole : p.whole = r.plainNumeral c ⌊q⌋₊
  fraction : p.HasPlainFraction r c
  exponent : p.exponent = none

/-- Parts in scientific notation: one digit other than zero, digits behind the
point, and mark and plain numeral of an exponent. The mark is a caret from
radix 15 on. -/
structure IsScientific (p : TextParts) (r : Radix) (c : LetterCase) (e : ℤ) : Prop where
  whole : ∃ d, d ≠ 0 ∧ d < r.val ∧ p.whole = [digitChar c d]
  fraction : p.HasPlainFraction r c
  exponent : p.exponent = some ⟨if 15 ≤ r.val then '^' else if c = .upper then 'E' else 'e',
    if e < 0 then ['-'] else [], r.plainNumeral c e.natAbs⟩

end TextParts

namespace FloatText

variable {t : FloatText} {r : Radix} {c : LetterCase}

/-- The parts of a text behind a sign. -/
def parts (t : FloatText) (c : LetterCase) (sign : List Char) : TextParts :=
  ⟨sign, (t.digits.take t.wholeCount).map (digitChar c),
    (t.reading false).fraction.map (digitChar c),
    match t.form with
    | .fixed _ => none
    | .scientific e => some ⟨exponentMark t.radix c, if e < 0 then ['-'] else [],
        t.radix.plainNumeral c e.natAbs⟩⟩

theorem chars_parts (small : t.exponent.natAbs < 2 ^ 32) (sign : List Char) :
    (t.parts c sign).chars = sign ++ t.chars c := by
  have exponent : (t.parts c sign).exponentChars = t.exponentChars c := by
    cases form : t.form with
    | fixed n => simp only [TextParts.exponentChars, parts, exponentChars, form, Option.elim_none]
    | scientific e =>
        rw [FloatText.exponent, form] at small
        rw [exponentChars_eq c form small]
        simp only [TextParts.exponentChars, parts, form, Option.elim_some, ExponentParts.chars]
  rw [TextParts.chars, exponent, chars, fractionChars_eq_map, List.append_assoc, List.cons_append]
  rfl

theorem IsNormal.hasPlainFraction (h : t.IsNormal) (sign : List Char) :
    (t.parts c sign).HasPlainFraction t.radix c := by
  refine ⟨(t.reading false).fraction, rfl, ?_, lt_of_mem_fraction h.lt_radix,
    h.fraction_reading false⟩
  rw [reading]
  split
  case isTrue fractional => exact List.ne_nil_of_length_pos (by rw [List.length_drop]; omega)
  case isFalse => exact List.cons_ne_nil 0 []

/-- A normal text is read in parts. -/
theorem IsNormal.isReadable_parts (h : t.IsNormal) {sign : List Char} (isSign : IsSign sign) :
    (t.parts c sign).IsReadable t.radix := by
  have whole : t.digits.take t.wholeCount ≠ [] := by
    rw [← h.whole_canonical]
    exact t.radix.digits_ne_nil _
  obtain ⟨ds, fraction, nonempty, below, -⟩ := h.hasPlainFraction (c := c) sign
  have exponent {e : ExponentParts} (mem : e ∈ (t.parts c sign).exponent) :
      ∃ n : ℤ, e = ⟨exponentMark t.radix c, if n < 0 then ['-'] else [],
        t.radix.plainNumeral c n.natAbs⟩ := by
    simp only [parts] at mem
    cases form : t.form with
    | fixed n => simp [form] at mem
    | scientific n =>
        refine ⟨n, ?_⟩
        simpa [form] using mem.symm
  refine ⟨isSign, ?_, ?_, ?_, ?_, ?_⟩
  · exact Radix.isNumeral_map_digitChar whole fun d mem => h.lt_radix d (List.mem_of_mem_take mem)
  · rw [fraction]
    exact Radix.isNumeral_map_digitChar nonempty below
  · intro e mem
    obtain ⟨n, rfl⟩ := exponent mem
    exact t.radix.isMark_exponentMark c
  · intro e mem
    obtain ⟨n, rfl⟩ := exponent mem
    by_cases negative : n < 0
    · exact .inr (.inl (if_pos negative))
    · exact .inl (if_neg negative)
  · intro e mem
    obtain ⟨n, rfl⟩ := exponent mem
    exact Radix.isNumeral_plainNumeral _

/-- A normal text in fixed notation has the shape of that notation. -/
theorem IsNormal.isFixed_parts (h : t.IsNormal) (fixed : t.isScientific = false)
    (sign : List Char) : (t.parts c sign).IsFixed t.radix c t.value where
  whole := by
    have fraction : t.radix.fractionValue (t.digits.drop t.wholeCount) < 1 :=
      Radix.fractionValue_lt_one fun d mem => h.lt_radix d (List.mem_of_mem_drop mem)
    have nonneg := Radix.fractionValue_nonneg (r := t.radix) (t.digits.drop t.wholeCount)
    have value : t.value = t.radix.ofDigits (t.digits.take t.wholeCount) +
        t.radix.fractionValue (t.digits.drop t.wholeCount) := by
      rw [FloatText.value, exponent_eq_zero fixed, zpow_zero, mul_one]
      rfl
    have floor : ⌊t.value⌋₊ = t.radix.ofDigits (t.digits.take t.wholeCount) := by
      rw [Nat.floor_eq_iff (by rw [value]; positivity), value]
      exact ⟨le_add_of_nonneg_right nonneg, by linarith⟩
    rw [floor, Radix.plainNumeral, h.whole_canonical]
    rfl
  fraction := h.hasPlainFraction sign
  exponent := by
    cases form : t.form with
    | fixed n => simp only [parts, form]
    | scientific e => simp [isScientific, form] at fixed

/-- A normal text in scientific notation has the shape of that notation. -/
theorem IsNormal.isScientific_parts (h : t.IsNormal) (scientific : t.isScientific = true)
    (sign : List Char) : (t.parts c sign).IsScientific t.radix c t.exponent := by
  cases form : t.form with
  | fixed n => simp [isScientific, form] at scientific
  | scientific e =>
      have one : t.wholeCount = 1 := by simp only [wholeCount, form]
      have exponent : t.exponent = e := by simp only [FloatText.exponent, form]
      refine ⟨?_, h.hasPlainFraction sign, by
        simp only [parts, form, exponent, t.radix.exponentMark_eq]⟩
      cases digits : t.digits with
      | nil =>
          have count := h.count_le
          rw [one, digits] at count
          simp at count
      | cons d ds =>
          have leading := h.leading scientific
          rw [digits] at leading
          refine ⟨d, by simpa using leading, h.lt_radix d (by simp [digits]), ?_⟩
          simp [parts, one, digits]

end FloatText

namespace FloatFormat

open FloatText

variable {f : FloatFormat} {bits : UInt64} {r : Radix} {o : Options}
  {log : Radix → ExtFloat → Int}

/-- The text of a finite number other than zero has the shape of fixed notation
strictly between the numbers nearest to `1e-5` and `1e9`, and otherwise that of
scientific notation with the logarithm of the number it is read as. No other
parts make up the same text, since the mark is no digit. -/
theorem text_has_plain_shape (h : f.IsSupported) (estimates : ExtFloat.EstimatesLog log)
    (valid : o.requestedRadix = .ok r) (number : f.IsNonzero bits) :
    ∃ (t : FloatText) (p : TextParts) (reading : Reading),
      ofBitsWith log f (f.magnitude bits) r = .ok t ∧
      f.IsWrittenAs log bits o p.chars ∧ p.sign = o.sign (f.isNegative bits) ∧
      r.readFloat? p.chars = some reading ∧
      (t.isScientific = false ↔
        5902958103587057 / 2 ^ 69 < f.absoluteValue bits ∧ f.absoluteValue bits < 10 ^ 9) ∧
      (t.isScientific = false → p.IsFixed r o.letterCase |reading.value r|) ∧
      (t.isScientific = true → p.IsScientific r o.letterCase t.exponent ∧
        t.exponent = Int.log r.val |reading.value r|) ∧
      r.readDigit? (exponentMark r o.letterCase) = none ∧
      p.IsReadable r ∧ ∀ p' : TextParts, p'.IsReadable r → p'.chars = p.chars → p' = p := by
  obtain ⟨-, e, t, -, -, -, -, made, rfl, wellFormed, text⟩ := h.exists_text number log r
  obtain ⟨isText, -⟩ := text estimates
  have small : t.exponent.natAbs < 2 ^ 32 := Nat.lt_trans wellFormed.exponent_lt (by decide)
  have chars := chars_parts (c := o.letterCase) small (o.sign (f.isNegative bits))
  have value := t.value_reading (f.isNegative bits)
  have readable := isText.normal.isReadable_parts (c := o.letterCase)
    (o.isSign_sign (f.isNegative bits))
  refine ⟨t, t.parts o.letterCase (o.sign (f.isNegative bits)), t.reading (f.isNegative bits),
    made, ?_, rfl, ?_, ?_, ?_, ?_, t.radix.readDigit?_exponentMark _, readable, ?_⟩
  · rw [chars]
    exact number.isWrittenAs valid made wellFormed
  · rw [chars]
    exact readFloat?_chars o.letterCase o _ wellFormed.lt_radix small
  · rw [Bool.eq_false_iff, ne_eq, isText.isScientific_iff, not_or, not_le, not_le]
    rfl
  · intro fixed
    rw [value]
    exact isText.normal.isFixed_parts fixed _
  · intro scientific
    rw [value]
    exact ⟨isText.normal.isScientific_parts scientific _,
      isText.normal.exponent_eq_log scientific⟩
  · intro p' readable' same
    exact readable'.eq_of_chars_eq readable same

/-- The smallest number in radix 36 is written with a caret in front of its
exponent. -/
theorem smallest_has_scientific_shape :
    binary64.IsSupported ∧ ExtFloat.EstimatesLog ExtFloat.logBelowOne ∧
    binary64.IsNonzero 1 ∧ ∃ (r : Radix) (p : TextParts) (reading : Reading), r.val = 36 ∧
      binary64.IsWrittenAs ExtFloat.logBelowOne 1 ⟨36, Flags.none⟩ p.chars ∧ p.sign = [] ∧
      p.IsScientific r .lower (-208) ∧
      p.exponent = some ⟨'^', ['-'], ['5', 's']⟩ ∧ Int.log r.val |reading.value r| = -208 := by
  have number : binary64.IsNonzero 1 := ⟨by decide, by decide, by decide⟩
  have digits : ofBitsWith ExtFloat.logBelowOne binary64 (binary64.magnitude 1)
      ⟨36, by decide, by decide⟩ = .ok ⟨⟨36, by decide, by decide⟩, .scientific (-208), [3]⟩ := by
    decide +kernel
  obtain ⟨t, p, reading, made, written, sign, -, -, -, scientific, -⟩ :=
    text_has_plain_shape (o := ⟨36, Flags.none⟩) (r := ⟨36, by decide, by decide⟩)
      isSupported_binary64 ExtFloat.estimatesLog_logBelowOne rfl number
  obtain rfl := Except.ok.inj (digits.symm.trans made)
  obtain ⟨shape, log⟩ := scientific rfl
  exact ⟨isSupported_binary64, ExtFloat.estimatesLog_logBelowOne, number, _, p, reading, rfl,
    written, sign, shape, shape.exponent.trans (by decide +kernel), log.symm⟩

end FloatFormat

end RadixText
