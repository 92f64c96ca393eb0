import RadixText.Options
import RadixText.Proofs.Numerals
import RadixText.Reading

/-!
# Written texts read back

Digits are told from signs, points and exponent marks, so that each part of a
written text is found again.
-/

namespace RadixText

theorem digitChar_ne_of_lt {d : Nat} (h : d < 36) (c : LetterCase) {ch : Char}
    (other : ch ∈ ['-', '+', '.', '^']) : digitChar c d ≠ ch := by
  have unread : ∀ ch ∈ ['-', '+', '.', '^'], unitDigit? ch.toNat = none := by
    simp only [List.mem_cons, List.not_mem_nil, or_false, forall_eq_or_imp, forall_eq]
    decide
  rintro rfl
  have read := unitDigit?_digitChar c h
  rw [unread _ other] at read
  cases read

theorem digitChar_ne_letter {d : Nat} (h : d < 14) (c : LetterCase) {ch : Char}
    (other : ch ∈ ['e', 'E']) : digitChar c d ≠ ch := by
  have fourteen : ∀ ch ∈ ['e', 'E'], unitDigit? ch.toNat = some 14 := by
    simp only [List.mem_cons, List.not_mem_nil, or_false, forall_eq_or_imp, forall_eq]
    decide
  rintro rfl
  have read := unitDigit?_digitChar c (Nat.lt_trans h (by decide))
  rw [fourteen _ other] at read
  exact Nat.ne_of_gt h (Option.some.inj read)

theorem Options.length_sign_le (o : Options) (negative : Bool) :
    (o.sign negative).length ≤ 1 := by
  unfold Options.sign
  cases negative <;> simp only [Bool.false_eq_true, if_false, if_true]
  · split <;> simp
  · simp

/-- A text that starts with neither sign has none. -/
theorem splitSign_of_unsigned {cs : List Char} (h : ∀ ch ∈ cs.head?, ch ≠ '-' ∧ ch ≠ '+') :
    splitSign cs = (false, cs) := by
  unfold splitSign
  split
  · exact absurd rfl (h '-' rfl).1
  · exact absurd rfl (h '+' rfl).2
  · rfl

/-- The sign of an option is split off whatever follows. -/
theorem splitSign_sign (o : Options) (negative : Bool) {cs : List Char}
    (h : ∀ ch ∈ cs.head?, ch ≠ '-' ∧ ch ≠ '+') :
    splitSign (o.sign negative ++ cs) = (negative, cs) := by
  unfold Options.sign
  cases negative with
  | true => rfl
  | false =>
      by_cases plus : o.flags.showsPlus
      · rw [if_neg Bool.false_ne_true, if_pos plus]
        rfl
      · rw [if_neg Bool.false_ne_true, if_neg plus]
        exact splitSign_of_unsigned h

namespace Radix

variable (r : Radix) (c : LetterCase)

theorem digitChar_ne_sign {d : Nat} (h : d < r.val) : digitChar c d ≠ '-' ∧ digitChar c d ≠ '+' :=
  have bound := Nat.lt_of_lt_of_le h r.le_thirtySix
  ⟨digitChar_ne_of_lt bound c (by simp), digitChar_ne_of_lt bound c (by simp)⟩

theorem head?_plainNumeral_ne_sign (n : Nat) :
    ∀ ch ∈ (r.plainNumeral c n).head?, ch ≠ '-' ∧ ch ≠ '+' := by
  intro ch mem
  rw [plainNumeral, List.head?_map] at mem
  obtain ⟨d, hd, rfl⟩ := Option.map_eq_some_iff.mp mem
  exact r.digitChar_ne_sign c (r.lt_of_mem_digits (List.mem_of_mem_head? hd))

/-- A signed numeral reads back as the integer. -/
theorem readInt?_sign (o : Options) (negative : Bool) (n : Nat) :
    r.readInt? (o.sign negative ++ r.plainNumeral c n) =
      some (if negative then -(n : Int) else n) := by
  rw [readInt?, splitSign_sign o negative (r.head?_plainNumeral_ne_sign c n)]
  simp [r.readNat?_plainNumeral]

theorem readInt?_minus (n : Nat) :
    r.readInt? ('-' :: r.plainNumeral c n) = some (-(n : Int)) :=
  r.readInt?_sign c ⟨10, Flags.none⟩ true n

theorem readInt?_plainNumeral (n : Nat) : r.readInt? (r.plainNumeral c n) = some (n : Int) :=
  r.readInt?_sign c ⟨10, Flags.none⟩ false n

/-- No digit is the mark in front of an exponent. -/
theorem isMark_digitChar {d : Nat} (h : d < r.val) : r.isMark (digitChar c d) = false := by
  by_cases letters : r.val < 15
  · have bound : d < 14 := by omega
    simp [isMark, FloatText.exponentMark, letters,
      (digitChar_ne_letter bound c (by simp) : digitChar c d ≠ 'e'),
      (digitChar_ne_letter bound c (by simp) : digitChar c d ≠ 'E')]
  · have bound := Nat.lt_of_lt_of_le h r.le_thirtySix
    simp [isMark, FloatText.exponentMark, letters,
      (digitChar_ne_of_lt bound c (by simp) : digitChar c d ≠ '^')]

theorem isMark_exponentMark : r.isMark (FloatText.exponentMark r c) = true := by
  cases c <;> simp [isMark]

end Radix

namespace FloatText

variable (t : FloatText) (c : LetterCase)

/-- What the text says: its digits on both sides of the point, a lone zero
where there are none behind it, and its exponent. -/
def reading (negative : Bool) : Reading :=
  ⟨negative, t.digits.take t.wholeCount,
    if t.wholeCount < t.digits.length then t.digits.drop t.wholeCount else [0], t.exponent⟩

theorem fractionChars_eq_map :
    t.fractionChars c = (t.reading false).fraction.map (digitChar c) := by
  have zero : digitChar c 0 = '0' := by cases c <;> rfl
  by_cases fractional : t.wholeCount < t.digits.length
  · simp [fractionChars, reading, fractional]
  · simp [fractionChars, reading, fractional, zero]

variable {t}

theorem lt_of_mem_fraction (below : ∀ d ∈ t.digits, d < t.radix.val) :
    ∀ d ∈ (t.reading false).fraction, d < t.radix.val := by
  intro d mem
  by_cases fractional : t.wholeCount < t.digits.length
  · simp only [reading, fractional, if_true] at mem
    exact below d (List.mem_of_mem_drop mem)
  · simp only [reading, fractional, if_false, List.mem_singleton] at mem
    exact mem ▸ t.radix.val_pos

/-- The exponent is written as its mark, a minus sign and plain digits. -/
theorem exponentChars_eq {e : Int} (form : t.form = .scientific e) (small : e.natAbs < 2 ^ 32) :
    t.exponentChars c = exponentMark t.radix c ::
      ((if e < 0 then ['-'] else []) ++ t.radix.plainNumeral c e.natAbs) := by
  have numeral : Numeral.ofWord t.radix c (BitVec.ofNat 32 e.natAbs) =
      t.radix.plainNumeral c e.natAbs := by
    rw [Numeral.ofWord_eq_plainNumeral t.radix c (by decide), BitVec.toNat_ofNat,
      Nat.mod_eq_of_lt small]
  simp only [exponentChars, form, numeral, List.cons_append]

theorem readInt?_exponent (r : Radix) (e : Int) :
    r.readInt? ((if e < 0 then ['-'] else []) ++ r.plainNumeral c e.natAbs) = some e := by
  by_cases negative : e < 0
  · rw [if_pos negative, List.singleton_append, Radix.readInt?_minus]
    exact congrArg some (by omega)
  · rw [if_neg negative, List.nil_append, Radix.readInt?_plainNumeral]
    exact congrArg some (by omega)

/-- A text starts with a digit or with the point. -/
theorem head?_chars_ne_sign (below : ∀ d ∈ t.digits, d < t.radix.val) :
    ∀ ch ∈ (t.chars c).head?, ch ≠ '-' ∧ ch ≠ '+' := by
  intro ch mem
  cases whole : t.digits.take t.wholeCount with
  | nil =>
      simp only [chars, whole, List.map_nil, List.nil_append, List.cons_append,
        List.head?_cons, Option.mem_some_iff] at mem
      subst mem
      decide
  | cons d ds =>
      have digit : d ∈ t.digits.take t.wholeCount := by simp [whole]
      simp only [chars, whole, List.map_cons, List.cons_append, List.head?_cons,
        Option.mem_some_iff] at mem
      subst mem
      exact t.radix.digitChar_ne_sign c (below d (List.mem_of_mem_take digit))

/-- A float text behind its sign reads back as what it says. -/
theorem readFloat?_chars (o : Options) (negative : Bool)
    (below : ∀ d ∈ t.digits, d < t.radix.val) (small : t.exponent.natAbs < 2 ^ 32) :
    t.radix.readFloat? (o.sign negative ++ t.chars c) = some (t.reading negative) := by
  have wholeBelow : ∀ d ∈ t.digits.take t.wholeCount, d < t.radix.val := by
    intro d mem
    exact below d (List.mem_of_mem_take mem)
  have fractionBelow := lt_of_mem_fraction below
  have noPoint : ∀ ch ∈ (t.digits.take t.wholeCount).map (digitChar c),
      decide (ch ≠ '.') = true := by
    intro ch mem
    obtain ⟨d, hd, rfl⟩ := List.mem_map.mp mem
    have bound := Nat.lt_of_lt_of_le (wholeBelow d hd) t.radix.le_thirtySix
    exact decide_eq_true (digitChar_ne_of_lt bound c (by simp))
  have noMark : ∀ ch ∈ (t.reading false).fraction.map (digitChar c),
      (!t.radix.isMark ch) = true := by
    intro ch mem
    obtain ⟨d, hd, rfl⟩ := List.mem_map.mp mem
    rw [t.radix.isMark_digitChar c (fractionBelow d hd)]
    rfl
  have unsigned := head?_chars_ne_sign c below
  have point : t.chars c = (t.digits.take t.wholeCount).map (digitChar c) ++
      '.' :: ((t.reading false).fraction.map (digitChar c) ++ t.exponentChars c) := by
    rw [chars, fractionChars_eq_map, List.append_assoc, List.cons_append]
  rw [Radix.readFloat?, splitSign_sign o negative unsigned]
  simp only [point, List.takeWhile_append_of_pos noPoint, List.dropWhile_append_of_pos noPoint,
    List.takeWhile_cons, List.dropWhile_cons, ne_eq, not_true_eq_false, decide_false,
    Bool.false_eq_true, if_false, List.append_nil, List.takeWhile_append_of_pos noMark,
    List.dropWhile_append_of_pos noMark, t.radix.readDigits?_map_digitChar c wholeBelow]
  cases form : t.form with
  | fixed n =>
      have empty : t.exponentChars c = [] := by simp only [exponentChars, form]
      have exponent : t.exponent = 0 := by simp only [FloatText.exponent, form]
      simp only [empty, List.takeWhile_nil, List.dropWhile_nil, List.append_nil,
        t.radix.readDigits?_map_digitChar c fractionBelow]
      simp [reading, exponent]
  | scientific e =>
      have exponent : t.exponent = e := by simp only [FloatText.exponent, form]
      rw [exponent] at small
      have marked := exponentChars_eq c form small
      have read := readInt?_exponent c t.radix e
      have mark := t.radix.isMark_exponentMark c
      simp only [marked, List.takeWhile_cons, List.dropWhile_cons, mark, Bool.not_true,
        Bool.false_eq_true, if_false, List.append_nil,
        t.radix.readDigits?_map_digitChar c fractionBelow, read]
      simp [reading, exponent]

end FloatText

end RadixText
