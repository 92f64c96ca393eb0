import RadixText.Proofs.DigitCounts
import RadixText.Proofs.ReadingBack
import RadixText.Proofs.Sinks
import RadixText.Proofs.WideNumerals

/-!
# Texts of integers

The text of an integer is its sign and the plain digits of its absolute value.
It depends on the number only, not on the type that holds it, and reads back
as the number.
-/

namespace RadixText

theorem signAndMagnitude_unsigned {w : Nat} (v : BitVec w) :
    signAndMagnitude false v = (false, v) := rfl

/-- Wrapped negation gives the absolute value of every negative number, the
lowest one included. -/
theorem signAndMagnitude_signed {w : Nat} (v : BitVec w) :
    (signAndMagnitude true v).1 = decide (v.toInt < 0) ∧
      (signAndMagnitude true v).2.toNat = v.toInt.natAbs := by
  have word := v.isLt
  rw [BitVec.toInt_eq_msb_cond]
  cases negative : v.msb with
  | false =>
      simp only [signAndMagnitude, negative, Bool.true_and, Bool.false_eq_true, if_false]
      exact ⟨(decide_eq_false (by omega)).symm, by omega⟩
  | true =>
      simp only [signAndMagnitude, negative, Bool.true_and, if_true]
      have positive : v.toNat ≠ 0 := by
        intro zero
        rw [BitVec.eq_of_toNat_eq (x := v) (y := 0#w) (by simpa using zero),
          BitVec.msb_zero] at negative
        exact Bool.false_ne_true negative
      have negation : ~~~v + 1 = -v := (BitVec.neg_eq_not_add v).symm
      refine ⟨(decide_eq_true (by omega)).symm, ?_⟩
      rw [negation, BitVec.toNat_neg, Nat.mod_eq_of_lt (by omega)]
      omega

namespace IntType

variable (t : IntType) (pattern : BitVec t.width.bits)

/-- Extending a pattern keeps its number. -/
theorem signAndMagnitude_extend {word : Nat} (wider : t.width.bits ≤ word) :
    (signAndMagnitude t.signed (t.extend word pattern)).1 = decide (t.value pattern < 0) ∧
      (signAndMagnitude t.signed (t.extend word pattern)).2.toNat =
        (t.value pattern).natAbs := by
  cases signed : t.signed with
  | false =>
      simp only [signAndMagnitude_unsigned, value, extend, signed, Bool.false_eq_true, if_false,
        BitVec.toNat_setWidth_of_le wider]
      exact ⟨(decide_eq_false (by omega)).symm, by omega⟩
  | true =>
      have extended := BitVec.toInt_signExtend_of_le (x := pattern) wider
      have both := signAndMagnitude_signed (pattern.signExtend word)
      simpa only [value, extend, signed, if_true, extended] using both

/-- The magnitude of a pattern holds the sign and the absolute value of its
number. -/
theorem magnitude_value :
    (t.magnitude pattern).1 = decide (t.value pattern < 0) ∧
      (t.magnitude pattern).2.toNat = (t.value pattern).natAbs := by
  obtain ⟨signed, width⟩ := t
  cases width with
  | bits8 => exact signAndMagnitude_extend ⟨signed, .bits8⟩ pattern (show 8 ≤ 32 by decide)
  | bits16 => exact signAndMagnitude_extend ⟨signed, .bits16⟩ pattern (show 16 ≤ 32 by decide)
  | bits32 => exact signAndMagnitude_extend ⟨signed, .bits32⟩ pattern (show 32 ≤ 32 by decide)
  | bits64 => exact signAndMagnitude_extend ⟨signed, .bits64⟩ pattern (show 64 ≤ 64 by decide)

end IntType

namespace Magnitude

variable (m : Magnitude) (r : Radix) (c : LetterCase)

theorem toNat_lt : m.toNat < 2 ^ m.bits := by
  cases m with
  | word32 v => exact v.isLt
  | word64 v => exact v.isLt
  | wide v => exact v.toNat_lt

theorem bits_le : m.bits ≤ 128 := by
  cases m <;> simp [bits]

theorem bits_ne_zero : m.bits ≠ 0 := by
  cases m <;> simp [bits]

theorem numeral_eq_plainNumeral : m.numeral r c = .ok (r.plainNumeral c m.toNat) := by
  cases m with
  | word32 v => exact congrArg _ (Numeral.ofWord_eq_plainNumeral r c (by decide) v)
  | word64 v => exact congrArg _ (Numeral.ofWord_eq_plainNumeral r c (by decide) v)
  | wide v => exact Numeral.ofUInt128_eq_plainNumeral r c v

/-- How many digits the largest number of the width has. -/
def longest (m : Magnitude) (r : Radix) : Nat := Nat.log r.val (2 ^ m.bits - 1) + 1

theorem maxDigits_bits : Numeral.maxDigits m.bits (UInt32.ofNat r.val) = .ok (m.longest r) := by
  have radix : 2 ≤ (UInt32.ofNat r.val).toNat := by
    rw [r.toNat_ofNat32_val]
    exact r.two_le
  rw [Numeral.maxDigits_eq_log m.bits_le radix, r.toNat_ofNat32_val, longest]

theorem longest_le_bits : m.longest r ≤ m.bits :=
  Numeral.log_add_one_le_bits m.bits_ne_zero r.two_le

theorem length_plainNumeral_le_longest : (r.plainNumeral c m.toNat).length ≤ m.longest r := by
  rw [Radix.plainNumeral, List.length_map, longest, ← r.length_digits]
  exact r.length_digits_mono (Nat.le_sub_one_of_lt m.toNat_lt)

theorem length_plainNumeral_le : (r.plainNumeral c m.toNat).length ≤ m.bits :=
  (m.length_plainNumeral_le_longest r c).trans (m.longest_le_bits r)

/-- Cells with room for the longest numeral of the width hold the numeral at
their end. -/
theorem writeTail_of_le {cells : List Char} (room : m.longest r ≤ cells.length) :
    m.writeTail r.val c cells = .ok (cells.length - (r.plainNumeral c m.toNat).length,
      cells.take (cells.length - (r.plainNumeral c m.toNat).length) ++
        r.plainNumeral c m.toNat) := by
  rw [writeTail, Radix.promised_val]
  change (Numeral.maxDigits m.bits (UInt32.ofNat r.val) >>= _) = _
  rw [maxDigits_bits]
  change (Precondition.tailRoom.require _ >>= _) = _
  rw [Precondition.require_of_kept _ room, numeral_eq_plainNumeral]
  change (overwriteTail cells _ >>= _) = _
  rw [overwriteTail_of_le ((m.length_plainNumeral_le_longest r c).trans room)]
  rfl

variable {r} {o : Options}

/-- The text of a magnitude is its sign and its plain digits. -/
theorem text_eq (valid : o.requestedRadix = .ok r) (negative : Bool) :
    m.text negative o = .ok (o.sign negative ++ r.plainNumeral o.letterCase m.toNat) := by
  rw [text, valid]
  change (m.writeTail r.val o.letterCase (List.replicate m.bits blank) >>= _) = _
  rw [m.writeTail_of_le r _ (by rw [List.length_replicate]; exact m.longest_le_bits r)]
  change Except.ok _ = _
  rw [List.drop_append_of_le_length (by simp), List.drop_eq_nil_of_le (by simp), List.nil_append]

theorem length_text_le (negative : Bool) :
    (o.sign negative ++ r.plainNumeral o.letterCase m.toNat).length ≤ 129 := by
  have sign := o.length_sign_le negative
  have digits := m.length_plainNumeral_le r o.letterCase
  have bits := m.bits_le
  rw [List.length_append]
  omega

/-- A magnitude is written as its sign and its plain digits. -/
theorem delivers_write (valid : o.requestedRadix = .ok r) (negative : Bool) :
    Delivers (fun b => m.write negative o b)
      (o.sign negative ++ r.plainNumeral o.letterCase m.toNat) := by
  intro β _ _ b room
  change ∃ b', (m.text negative o >>= fun text => Sink.append b text) = _ ∧ _
  rw [m.text_eq valid]
  exact FaithfulSink.append_gets room

theorem write_of_invalid {β : Type} [Sink β] {e : Fault} (invalid : o.requestedRadix = .error e)
    (negative : Bool) (b : β) : m.write negative o b = .error e := by
  rw [write, text, invalid]
  rfl

end Magnitude

namespace Number

variable {o : Options} {r : Radix}

/-- The text of an integer is its sign and the plain digits of its absolute
value. -/
theorem toText_integer (valid : o.requestedRadix = .ok r) (u : UnitWidth) (t : IntType)
    (pattern : BitVec t.width.bits) :
    (integer t pattern).toText u o = .ok (o.sign (decide (t.value pattern < 0)) ++
      r.plainNumeral o.letterCase (t.value pattern).natAbs) := by
  obtain ⟨sign, absolute⟩ := t.magnitude_value pattern
  have delivered : Delivers (fun b => (integer t pattern).write o b) _ :=
    (t.magnitude pattern).2.delivers_write valid (t.magnitude pattern).1
  rw [← sign, ← absolute]
  apply delivered.toText
  exact Nat.le_trans ((t.magnitude pattern).2.length_text_le _) (by cases u <;> decide)

/-- An integer is written as a sign and canonical digits, which read back as
the number. Equal numbers of different types have one text. -/
theorem toText_integer_reads_back (valid : o.requestedRadix = .ok r) (u : UnitWidth)
    (t : IntType) (pattern : BitVec t.width.bits) :
    ∃ sign digits,
      (integer t pattern).toText u o = .ok (sign ++ digits.map (digitChar o.letterCase)) ∧
      sign = (if t.value pattern < 0 then ['-'] else if o.flags.showsPlus then ['+'] else []) ∧
      digits ≠ [] ∧ (∀ d ∈ digits, d < r.val) ∧ (digits.head? = some 0 → digits = [0]) ∧
      r.ofDigits digits = (t.value pattern).natAbs ∧
      r.readInt? (sign ++ digits.map (digitChar o.letterCase)) = some (t.value pattern) ∧
      ∀ (u' : UnitWidth) (t' : IntType) (pattern' : BitVec t'.width.bits),
        t'.value pattern' = t.value pattern →
          (integer t' pattern').toText u' o = (integer t pattern).toText u o := by
  refine ⟨o.sign (decide (t.value pattern < 0)), r.digits (t.value pattern).natAbs,
    toText_integer valid u t pattern, ?_, r.digits_ne_nil _, ?_, ?_, r.ofDigits_digits _, ?_, ?_⟩
  · simp only [Options.sign, decide_eq_true_eq]
  · intro d mem
    exact r.lt_of_mem_digits mem
  · intro zero
    by_cases value : (t.value pattern).natAbs = 0
    · rw [value, r.digits_of_lt r.val_pos]
    · exact absurd zero (r.head?_digits value)
  · have read := r.readInt?_sign o.letterCase o (decide (t.value pattern < 0))
      (t.value pattern).natAbs
    rw [Radix.plainNumeral] at read
    rw [read]
    by_cases negative : t.value pattern < 0
    · simp only [negative, decide_true, if_true]
      exact congrArg some (by omega)
    · simp only [negative, decide_false, Bool.false_eq_true, if_false]
      exact congrArg some (by omega)
  · intro u' t' pattern' same
    rw [toText_integer valid u' t' pattern', toText_integer valid u t pattern, same]

/-- The lowest number of 8 bits has no positive counterpart there. -/
theorem toText_lowest_integer_reads_back :
    (⟨10, Flags.signPositive⟩ : Options).requestedRadix = .ok Radix.ten ∧
    ∃ sign digits : List _, (integer ⟨true, .bits8⟩ 0x80#8).toText .narrow
        ⟨10, Flags.signPositive⟩ = .ok (sign ++ digits.map (digitChar .lower)) ∧
      sign = ['-'] ∧ Radix.ten.ofDigits digits = 128 ∧
      Radix.ten.readInt? (sign ++ digits.map (digitChar .lower)) = some (-128) := by
  have value : (⟨true, .bits8⟩ : IntType).value 0x80#8 = -128 := by decide
  obtain ⟨sign, digits, written, minus, -, -, -, absolute, read, -⟩ :=
    toText_integer_reads_back (o := ⟨10, Flags.signPositive⟩) (r := Radix.ten) rfl .narrow
      ⟨true, .bits8⟩ 0x80#8
  rw [value] at minus absolute read
  exact ⟨rfl, sign, digits, written, minus, absolute, read⟩

end Number

end RadixText
