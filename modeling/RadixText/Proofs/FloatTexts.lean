import RadixText.Proofs.NormalTexts
import RadixText.Proofs.ReadingBack
import RadixText.Proofs.Sinks

/-!
# Float texts in a buffer

The length of a float text is known before it is written, and it is at most
that of the cells kept for it. A sink gets the text in place or through the
cells.
-/

namespace RadixText

namespace FloatText

variable {t : FloatText}

theorem furtherDigits_eq (r : Radix) (n : Nat) :
    furtherDigits r n + 1 = (r.digits n).length := by
  fun_induction furtherDigits r n with
  | case1 n large ih =>
      rw [r.digits_of_le large, List.length_append, List.length_singleton, ← ih, Nat.add_comm 1]
  | case2 n small =>
      rw [r.digits_of_lt (Nat.lt_of_not_le small)]
      rfl

namespace IsWellFormed

/-- The characters of a text are as many as were counted. -/
theorem length_chars (h : t.IsWellFormed) (c : LetterCase) : (t.chars c).length = t.length := by
  have count := h.count_le
  have fraction : (t.fractionChars c).length =
      if t.wholeCount < t.digits.length then t.digits.length - t.wholeCount else 1 := by
    rw [fractionChars]
    split <;> simp
  rw [chars, length]
  cases form : t.form with
  | fixed n =>
      have exponent : t.exponentChars c = [] := by simp only [exponentChars, form]
      simp only [exponent, List.length_append, List.length_map, List.length_take_of_le count,
        List.length_cons, fraction, List.length_nil]
      split <;> omega
  | scientific e =>
      have small : e.natAbs < 2 ^ 32 := by
        have := h.exponent_lt
        simp only [FloatText.exponent, form] at this
        omega
      have further := furtherDigits_eq t.radix e.natAbs
      have sign : (if e < 0 then ['-'] else [] : List Char).length = if e < 0 then 1 else 0 := by
        split <;> rfl
      simp only [exponentChars_eq c form small, Radix.plainNumeral, List.length_append,
        List.length_map, List.length_take_of_le count, List.length_cons, fraction, sign, ← further]
      split <;> split <;> omega

/-- No text is longer than the cells kept for it. -/
theorem length_le_maxLength (h : t.IsWellFormed) : t.length ≤ maxLength := by
  have digits := h.length_le
  have range := h.exponent_lt
  rw [length]
  cases form : t.form with
  | fixed n =>
      simp only [isScientific, form, Bool.toNat_false, Expansion.maxDigits] at digits
      simp only [maxLength, Expansion.maxDigits]
      split <;> omega
  | scientific e =>
      simp only [FloatText.exponent, form] at range
      have exponent : (t.radix.digits e.natAbs).length ≤ 11 :=
        t.radix.length_digits_le (by decide) (Nat.lt_of_lt_of_le range (t.radix.two_pow_le 11))
      have further := furtherDigits_eq t.radix e.natAbs
      have one : t.wholeCount = 1 := by simp only [wholeCount, form]
      simp only [isScientific, form, Bool.toNat_true, Expansion.maxDigits] at digits
      simp only [maxLength, Expansion.maxDigits, maxExponentDigits, one]
      split <;> split <;> omega

/-- A sink gets the same text in place and through the cells. -/
theorem delivers_writeTo (h : t.IsWellFormed) (c : LetterCase) :
    Delivers (fun b => t.writeTo c b) (t.chars c) := by
  intro β _ _ b room
  have length := h.length_chars c
  simp only [writeTo]
  split
  case isTrue fits =>
    rw [← length] at fits ⊢
    exact FaithfulSink.place_gets fits
  case isFalse =>
    rw [copyTo, Precondition.require_of_kept _ h.length_le_maxLength]
    change ∃ b', (placeIn t.length [] (t.chars c) >>= _) = _ ∧ _
    rw [placeIn_of_length_eq length]
    exact FaithfulSink.append_gets room

end IsWellFormed

/-- The digits that are read are those of the text. -/
theorem value_reading_eq (t : FloatText) (negative : Bool) :
    (t.reading negative).value t.radix = (if negative then -1 else 1) * t.value := by
  have value : t.radix.pointValue (t.reading negative).whole (t.reading negative).fraction *
      t.radix.val ^ (t.reading negative).exponent = t.value := by
    rw [FloatText.value, reading]
    by_cases fractional : t.wholeCount < t.digits.length
    · simp only [fractional, if_true]
    · have empty : t.digits.drop t.wholeCount = [] := List.drop_eq_nil_of_le (by omega)
      simp only [fractional, if_false, empty]
      simp [Radix.pointValue]
  rw [Reading.value, value]
  rfl

theorem value_reading (t : FloatText) (negative : Bool) :
    |(t.reading negative).value t.radix| = t.value := by
  have nonneg : 0 ≤ t.value := by
    rw [FloatText.value, Radix.pointValue]
    positivity
  rw [value_reading_eq, abs_mul, abs_of_nonneg nonneg]
  cases negative <;> simp

/-- A normal text is read without a zero at the end of its fraction besides a
lone one. -/
theorem IsNormal.fraction_reading (h : t.IsNormal) (negative : Bool) :
    (t.reading negative).fraction = [0] ∨ (t.reading negative).fraction.getLast? ≠ some 0 := by
  rw [reading]
  by_cases fractional : t.wholeCount < t.digits.length
  · right
    simpa only [fractional, if_true] using h.fraction_canonical
  · left
    simp only [fractional, if_false]

end FloatText

end RadixText
