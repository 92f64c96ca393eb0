import RadixText.Proofs.FloatTexts
import RadixText.Proofs.Neighbours
import RadixText.Proofs.ScientificLayouts
import RadixText.Proofs.WholeExpansions

/-!
# Float texts and the numbers they are read as

The text of a finite number other than zero is read as its sign and a number
between the midpoints to its neighbours, so that it is nearest to the number
and no other pattern of the format has that text. In a radix that is a power of
two it is read as the number itself.
-/

namespace RadixText

namespace FloatFormat

variable {f : FloatFormat} {bits : UInt64}

/-- The pattern denotes a number other than zero. -/
structure IsNonzero (f : FloatFormat) (bits : UInt64) : Prop where
  inFormat : bits.toNat < 2 ^ f.totalBits
  finite : f.IsFinite (f.magnitude bits)
  nonzero : f.magnitude bits ≠ 0

/-- The absolute value of the pattern's number. -/
def absoluteValue (f : FloatFormat) (bits : UInt64) : ℚ := f.numberAt (f.magnitude bits).toNat

theorem IsNonzero.toNat_ne_zero (h : f.IsNonzero bits) : (f.magnitude bits).toNat ≠ 0 := by
  rw [ne_eq, ← UInt64.toNat_zero, UInt64.toNat_inj]
  exact h.nonzero

end FloatFormat

namespace FloatText

/-- What the text of a magnitude's number says. -/
structure IsTextOf (t : FloatText) (f : FloatFormat) (n : Nat) : Prop where
  normal : t.IsNormal
  below : f.midpointAbove (n - 1) < t.value
  above : t.value < f.midpointAbove n
  exact : ∀ k, t.radix.val = 2 ^ k → t.value = f.numberAt n
  isScientific_iff : t.isScientific = true ↔
    f.numberAt n ≤ 5902958103587057 / 2 ^ 69 ∨ 10 ^ 9 ≤ f.numberAt n

end FloatText

namespace FloatFormat

open FloatText

variable {f : FloatFormat} {bits : UInt64} {r : Radix} {o : Options}
  {log : Radix → ExtFloat → Int}

/-- Every number other than zero has digits in their places and a text whose
parts fit together. With a good estimate it is a text of the number and keeps
the number of the digits. -/
theorem IsSupported.exists_text (h : f.IsSupported) (number : f.IsNonzero bits)
    (log : Radix → ExtFloat → Int) (r : Radix) : ∃ x e t,
      ExtFloat.ofBits f (f.magnitude bits) = .ok x ∧
      Expansion.ofExtFloat x (Neighbourhood.ofFormat f x) r = .ok e ∧
      e.whole.length ≤ Expansion.places ∧ e.fraction.length ≤ Expansion.places ∧
      ofBitsWith log f (f.magnitude bits) r = .ok t ∧ t.radix = r ∧ t.IsWellFormed ∧
      (ExtFloat.EstimatesLog log →
        t.IsTextOf f (f.magnitude bits).toNat ∧ t.value = e.value r) := by
  have small := h.toNat_magnitude_lt number.inFormat
  have finite := (h.isFinite_iff small).mp number.finite
  have nonzero := number.toNat_ne_zero
  obtain ⟨x, decoded, frac, exp⟩ := h.ofBits_eq small number.finite
  have range := h.isInRange nonzero finite frac exp
  have suits := h.suits x
  obtain ⟨e, expanded, near⟩ := Expansion.ofExtFloat_isNear range suits r
  obtain ⟨t, laidOut, radix, scientific, wellFormed⟩ :=
    near.layout_isWellFormed suits range (log r x)
  refine ⟨x, e, t, decoded, expanded, near.length_whole, near.length_fraction, ?_, radix,
    wellFormed, ?_⟩
  · rw [ofBitsWith]
    refine bind_eq_ok_iff.mpr ⟨x, decoded, ?_⟩
    rw [ofFormatWith, ofEstimate]
    exact bind_eq_ok_iff.mpr ⟨e, expanded, laidOut⟩
  · intro estimates
    obtain ⟨normal, value⟩ := near.layout_isNormal suits range (estimates r x range) laidOut
    have number_eq := f.value_eq_numberAt frac exp
    refine ⟨⟨normal, ?_, ?_, ?_, ?_⟩, value⟩
    · rw [midpointAbove_pred_eq_sub_reach h nonzero frac exp, value]
      exact near.below
    · rw [midpointAbove_eq_add_reach frac exp, value]
      exact near.above
    · intro k power
      rw [radix] at power
      rw [value, near.exact k power, number_eq]
    · rw [scientific, ← number_eq, decide_eq_true_iff, ne_eq, range.size_eq_moderate_iff,
        not_and_or, not_lt, not_lt]

/-- The pattern is written as a text to every growing buffer with room for the
longest one. -/
def IsWrittenAs (f : FloatFormat) (log : Radix → ExtFloat → Int) (bits : UInt64) (o : Options)
    (text : List Char) : Prop :=
  ∀ b : GrowingBuffer, b.CanTake (maxLength + 1) →
    ∃ b', f.writeWith log bits o b = .ok b' ∧ b'.written = b.written ++ text

theorem IsWrittenAs.eq {text text' : List Char} (h : f.IsWrittenAs log bits o text)
    (h' : f.IsWrittenAs log bits o text') : text = text' := by
  have room := (GrowingBuffer.canTake_empty .narrow 0).mono
    (show maxLength + 1 ≤ UnitWidth.narrow.limit by decide)
  obtain ⟨b, made, written⟩ := h _ room
  obtain ⟨b', made', written'⟩ := h' _ room
  rw [made] at made'
  injection made' with same
  rw [same] at written
  exact List.append_cancel_left (written.symm.trans written')

/-- What is written behind the sign of a pattern. -/
def writeMagnitude {β : Type} [Sink β] (f : FloatFormat) (log : Radix → ExtFloat → Int)
    (magnitude : UInt64) (c : LetterCase) (r : Radix) (b : β) : Except Fault β :=
  if ¬ f.IsFinite magnitude then Sink.pushAll b (f.name c magnitude)
  else if magnitude = 0 then Sink.pushAll b ['0', '.', '0']
  else ofBitsWith log f magnitude r >>= fun t => t.writeTo c b

theorem writeWith_eq {β : Type} [Sink β] (valid : o.requestedRadix = .ok r) (b : β) :
    f.writeWith log bits o b = Sink.pushAll b (o.sign (f.isNegative bits)) >>=
      f.writeMagnitude log (f.magnitude bits) o.letterCase r := by
  rw [writeWith, valid]
  rfl

theorem writeWith_of_invalid {β : Type} [Sink β] {e : Fault}
    (invalid : o.requestedRadix = .error e) (b : β) : f.writeWith log bits o b = .error e := by
  rw [writeWith, invalid]
  rfl

theorem delivers_writeWith (valid : o.requestedRadix = .ok r) {text : List Char}
    (delivers : Delivers (f.writeMagnitude log (f.magnitude bits) o.letterCase r) text) :
    Delivers (fun b => f.writeWith log bits o b) (o.sign (f.isNegative bits) ++ text) := by
  intro β _ _ b room
  obtain ⟨b', written, gets⟩ := (Delivers.pushAll _).bind delivers β b room
  exact ⟨b', (writeWith_eq valid b).trans written, gets⟩

/-- A number other than zero is written as its text. -/
theorem IsNonzero.delivers_writeMagnitude (number : f.IsNonzero bits) {t : FloatText}
    (made : ofBitsWith log f (f.magnitude bits) r = .ok t) (wellFormed : t.IsWellFormed)
    (c : LetterCase) :
    Delivers (f.writeMagnitude log (f.magnitude bits) c r) (t.chars c) := by
  intro β _ _ b room
  simp only [writeMagnitude, if_neg (not_not.mpr number.finite), if_neg number.nonzero, made]
  exact wellFormed.delivers_writeTo c β b room

theorem length_sign_append_le (o : Options) (negative : Bool) {text : List Char}
    (h : text.length ≤ maxLength) : (o.sign negative ++ text).length ≤ maxLength + 1 := by
  have sign := o.length_sign_le negative
  rw [List.length_append]
  omega

/-- A number other than zero is written as its sign and its text. -/
theorem IsNonzero.isWrittenAs (number : f.IsNonzero bits) (valid : o.requestedRadix = .ok r)
    {t : FloatText} (made : ofBitsWith log f (f.magnitude bits) r = .ok t)
    (wellFormed : t.IsWellFormed) :
    f.IsWrittenAs log bits o (o.sign (f.isNegative bits) ++ t.chars o.letterCase) := by
  intro b room
  have length : (t.chars o.letterCase).length ≤ maxLength := by
    rw [wellFormed.length_chars]
    exact wellFormed.length_le_maxLength
  have delivers := delivers_writeWith valid (number.delivers_writeMagnitude made wellFormed _)
  obtain ⟨b', done, gets⟩ := delivers GrowingBuffer b
    (room.mono (length_sign_append_le o _ length))
  exact ⟨b', done, gets.written⟩

/-- The text behind the sign of a pattern. -/
def magnitudeText (f : FloatFormat) (log : Radix → ExtFloat → Int) (magnitude : UInt64)
    (c : LetterCase) (r : Radix) : Except Fault (List Char) :=
  if ¬ f.IsFinite magnitude then .ok (f.name c magnitude)
  else if magnitude = 0 then .ok ['0', '.', '0']
  else ofBitsWith log f magnitude r >>= fun t => .ok (t.chars c)

theorem length_name (c : LetterCase) (magnitude : UInt64) : (f.name c magnitude).length = 3 := by
  unfold name
  split <;> rfl

/-- Every pattern of a supported format has a text behind its sign that each
sink gets. -/
theorem IsSupported.exists_magnitudeText (h : f.IsSupported) (log : Radix → ExtFloat → Int)
    (inFormat : bits.toNat < 2 ^ f.totalBits) (c : LetterCase) (r : Radix) : ∃ text,
      f.magnitudeText log (f.magnitude bits) c r = .ok text ∧ text ≠ [] ∧
      text.length ≤ maxLength ∧ Delivers (f.writeMagnitude log (f.magnitude bits) c r) text := by
  by_cases finite : f.IsFinite (f.magnitude bits)
  · by_cases zero : f.magnitude bits = 0
    · refine ⟨['0', '.', '0'], ?_, by simp, by decide, ?_⟩
      · rw [magnitudeText, if_neg (not_not.mpr finite), if_pos zero]
      · intro β _ _ b room
        simp only [writeMagnitude, if_neg (not_not.mpr finite), if_pos zero]
        exact Delivers.pushAll _ β b room
    · have number : f.IsNonzero bits := ⟨inFormat, finite, zero⟩
      obtain ⟨-, -, t, -, -, -, -, made, -, wellFormed, -⟩ := h.exists_text number log r
      refine ⟨t.chars c, ?_, by simp [FloatText.chars], ?_,
        number.delivers_writeMagnitude made wellFormed c⟩
      · rw [magnitudeText, if_neg (not_not.mpr finite), if_neg zero, made]
        rfl
      · rw [wellFormed.length_chars]
        exact wellFormed.length_le_maxLength
  · have length := f.length_name c (f.magnitude bits)
    refine ⟨f.name c (f.magnitude bits), ?_, List.ne_nil_of_length_pos (by omega), ?_, ?_⟩
    · rw [magnitudeText, if_pos finite]
    · rw [length]
      decide
    · intro β _ _ b room
      simp only [writeMagnitude, if_pos finite]
      exact Delivers.pushAll _ β b room

/-- Every pattern of a supported format has a text that each sink gets. -/
theorem IsSupported.exists_delivers (h : f.IsSupported) (log : Radix → ExtFloat → Int)
    (inFormat : bits.toNat < 2 ^ f.totalBits) (valid : o.requestedRadix = .ok r) : ∃ text,
      text ≠ [] ∧ text.length ≤ maxLength + 1 ∧
      Delivers (fun b => f.writeWith log bits o b) text := by
  obtain ⟨text, -, nonempty, length, delivers⟩ :=
    h.exists_magnitudeText log inFormat o.letterCase r
  exact ⟨_, List.append_ne_nil_of_right_ne_nil _ nonempty, length_sign_append_le o _ length,
    delivers_writeWith valid delivers⟩

/-- The text of a number's digits, as it is written and as it is read. -/
theorem exists_expansion_reading (h : f.IsSupported) (estimates : ExtFloat.EstimatesLog log)
    (valid : o.requestedRadix = .ok r) (number : f.IsNonzero bits) :
    ∃ (x : ExtFloat) (e : Expansion) (t : FloatText),
      ExtFloat.ofBits f (f.magnitude bits) = .ok x ∧
      Expansion.ofExtFloat x (Neighbourhood.ofFormat f x) r = .ok e ∧ t.value = e.value r ∧
      t.radix = r ∧ t.IsTextOf f (f.magnitude bits).toNat ∧
      f.IsWrittenAs log bits o (o.sign (f.isNegative bits) ++ t.chars o.letterCase) ∧
      r.readFloat? (o.sign (f.isNegative bits) ++ t.chars o.letterCase) =
        some (t.reading (f.isNegative bits)) := by
  obtain ⟨x, e, t, decoded, expanded, -, -, made, radix, wellFormed, text⟩ :=
    h.exists_text number log r
  obtain ⟨isText, value⟩ := text estimates
  refine ⟨x, e, t, decoded, expanded, value, radix, isText,
    number.isWrittenAs valid made wellFormed, ?_⟩
  rw [← radix]
  exact readFloat?_chars o.letterCase o _ wellFormed.lt_radix
    (Nat.lt_trans wellFormed.exponent_lt (by decide))

/-- The text of a number, as it is written and as it is read. -/
theorem exists_reading (h : f.IsSupported) (estimates : ExtFloat.EstimatesLog log)
    (valid : o.requestedRadix = .ok r) (number : f.IsNonzero bits) : ∃ t : FloatText,
      t.radix = r ∧ t.IsTextOf f (f.magnitude bits).toNat ∧
      f.IsWrittenAs log bits o (o.sign (f.isNegative bits) ++ t.chars o.letterCase) ∧
      r.readFloat? (o.sign (f.isNegative bits) ++ t.chars o.letterCase) =
        some (t.reading (f.isNegative bits)) := by
  obtain ⟨-, -, t, -, -, -, reads⟩ := exists_expansion_reading h estimates valid number
  exact ⟨t, reads⟩

/-- The text of a finite number other than zero is read as its sign and a
number strictly between the midpoints to its neighbours. No other number is as
near, and no other pattern has that text. -/
theorem text_reads_back_nearest (h : f.IsSupported) (estimates : ExtFloat.EstimatesLog log)
    (valid : o.requestedRadix = .ok r) (number : f.IsNonzero bits) : ∃ text reading,
      f.IsWrittenAs log bits o text ∧ r.readFloat? text = some reading ∧
      reading.negative = f.isNegative bits ∧
      f.midpointAbove ((f.magnitude bits).toNat - 1) < |reading.value r| ∧
      |reading.value r| < f.midpointAbove (f.magnitude bits).toNat ∧
      (∀ m ≠ (f.magnitude bits).toNat,
        |(|reading.value r| - f.absoluteValue bits)| < |(|reading.value r| - f.numberAt m)|) ∧
      ∀ bits', f.IsNonzero bits' → f.IsWrittenAs log bits' o text → bits' = bits := by
  obtain ⟨t, radix, text, written, read⟩ := exists_reading h estimates valid number
  have value := t.value_reading (f.isNegative bits)
  rw [radix] at value
  have nearest {m : Nat} (ne : m ≠ (f.magnitude bits).toNat) :
      |t.value - f.numberAt (f.magnitude bits).toNat| < |t.value - f.numberAt m| :=
    f.abs_sub_numberAt_lt number.toNat_ne_zero ne text.below text.above
  refine ⟨_, _, written, read, rfl, ?_, ?_, ?_, ?_⟩
  · rw [value]
    exact text.below
  · rw [value]
    exact text.above
  · intro m ne
    rw [value]
    exact nearest ne
  · intro bits' number' written'
    obtain ⟨t', radix', text', own, read'⟩ := exists_reading h estimates valid number'
    rw [own.eq written', read] at read'
    have same := Option.some.inj read'
    have sign : f.isNegative bits = f.isNegative bits' := congrArg Reading.negative same
    have value' := t'.value_reading (f.isNegative bits')
    rw [radix', ← same, value] at value'
    refine h.eq_of_magnitude_eq number'.inFormat number.inFormat sign.symm ?_
    by_contra ne
    have nearest' := f.abs_sub_numberAt_lt number'.toNat_ne_zero (Ne.symm ne) text'.below
      text'.above
    rw [← value'] at nearest'
    exact lt_asymm (nearest ne) nearest'

/-- The smallest number with a minus sign lies between a half and one and a
half of itself in radix three. -/
theorem smallest_text_reads_back_nearest :
    binary64.IsSupported ∧ ExtFloat.EstimatesLog ExtFloat.logBelowOne ∧
    binary64.IsNonzero 0x8000000000000001 ∧
    ∃ (r : Radix) (text : List Char) (reading : Reading), r.val = 3 ∧
      binary64.IsWrittenAs ExtFloat.logBelowOne 0x8000000000000001 ⟨3, Flags.none⟩ text ∧
      r.readFloat? text = some reading ∧ reading.negative = true ∧
      binary64.midpointAbove 0 < |reading.value r| ∧
      |reading.value r| < binary64.midpointAbove 1 := by
  have number : binary64.IsNonzero 0x8000000000000001 := ⟨by decide, by decide, by decide⟩
  obtain ⟨text, reading, written, read, sign, below, above, -, -⟩ :=
    text_reads_back_nearest (o := ⟨3, Flags.none⟩) (r := ⟨3, by decide, by decide⟩)
      isSupported_binary64 ExtFloat.estimatesLog_logBelowOne rfl number
  exact ⟨isSupported_binary64, ExtFloat.estimatesLog_logBelowOne, number, _, text, reading, rfl,
    written, read, sign, below, above⟩

/-- In a radix that is a power of two the text is read as the number itself,
without needless zeros. Patterns of one number have one text, whatever their
formats. -/
theorem text_in_radix_two_pow (h : f.IsSupported) (estimates : ExtFloat.EstimatesLog log)
    (valid : o.requestedRadix = .ok r) (power : r.val ∈ [2, 4, 8, 16, 32])
    (number : f.IsNonzero bits) : ∃ text reading,
      f.IsWrittenAs log bits o text ∧ r.readFloat? text = some reading ∧
      reading.negative = f.isNegative bits ∧ |reading.value r| = f.absoluteValue bits ∧
      (reading.fraction = [0] ∨ reading.fraction.getLast? ≠ some 0) ∧
      ∀ (f' : FloatFormat) (log' : Radix → ExtFloat → Int) (bits' : UInt64),
        f'.IsSupported → ExtFloat.EstimatesLog log' → f'.IsNonzero bits' →
        f'.isNegative bits' = f.isNegative bits →
        f'.absoluteValue bits' = f.absoluteValue bits → f'.IsWrittenAs log' bits' o text := by
  obtain ⟨k, two_pow⟩ : ∃ k, r.val = 2 ^ k := by
    simp only [List.mem_cons, List.not_mem_nil, or_false] at power
    rcases power with eq | eq | eq | eq | eq
    · exact ⟨1, eq⟩
    · exact ⟨2, eq⟩
    · exact ⟨3, eq⟩
    · exact ⟨4, eq⟩
    · exact ⟨5, eq⟩
  obtain ⟨t, radix, text, written, read⟩ := exists_reading h estimates valid number
  have exact := text.exact k (radix ▸ two_pow)
  have value := t.value_reading (f.isNegative bits)
  rw [radix, exact] at value
  refine ⟨_, _, written, read, rfl, value, text.normal.fraction_reading _, ?_⟩
  intro f' log' bits' h' estimates' number' sign same
  obtain ⟨t', radix', text', written', -⟩ := exists_reading h' estimates' valid number'
  have exact' := text'.exact k (radix' ▸ two_pow)
  rw [absoluteValue, absoluteValue] at same
  have equal : t' = t := by
    apply text'.normal.eq_of_value_eq text.normal (radix'.trans radix.symm)
    · rw [Bool.eq_iff_iff, text'.isScientific_iff, text.isScientific_iff, same]
    · rw [exact', exact, same]
  rwa [equal, sign] at written'

/-- One tenth, rounded to the 32-bit format, has one text in both formats. -/
theorem tenth_in_radix_thirtyTwo :
    binary32.IsNonzero 0x3dcccccd ∧ binary64.IsNonzero 0x3fb99999a0000000 ∧
    ∃ (r : Radix) (text : List Char) (reading : Reading), r.val = 32 ∧
      r.val ∈ [2, 4, 8, 16, 32] ∧
      binary32.IsWrittenAs ExtFloat.logBelowOne 0x3dcccccd ⟨32, Flags.none⟩ text ∧
      binary64.IsWrittenAs ExtFloat.logBelowOne 0x3fb99999a0000000 ⟨32, Flags.none⟩ text ∧
      r.readFloat? text = some reading ∧ |reading.value r| = 13421773 / 2 ^ 27 := by
  have number : binary32.IsNonzero 0x3dcccccd := ⟨by decide, by decide, by decide⟩
  have number' : binary64.IsNonzero 0x3fb99999a0000000 := ⟨by decide, by decide, by decide⟩
  have power : (⟨32, by decide, by decide⟩ : Radix).val ∈ [2, 4, 8, 16, 32] := by decide
  have value : binary32.absoluteValue 0x3dcccccd = 13421773 / 2 ^ 27 := by
    have magnitude : (binary32.magnitude 0x3dcccccd).toNat = 1036831949 := by decide
    rw [absoluteValue, magnitude]
    norm_num [numberAt, binary32, lowestExp, bias]
  have value' : binary64.absoluteValue 0x3fb99999a0000000 = 13421773 / 2 ^ 27 := by
    have magnitude : (binary64.magnitude 0x3fb99999a0000000).toNat = 4591870180174331904 := by
      decide
    rw [absoluteValue, magnitude]
    norm_num [numberAt, binary64, lowestExp, bias]
  obtain ⟨text, reading, written, read, -, exact, -, same⟩ :=
    text_in_radix_two_pow (o := ⟨32, Flags.none⟩) (r := ⟨32, by decide, by decide⟩)
      isSupported_binary32 ExtFloat.estimatesLog_logBelowOne rfl power number
  exact ⟨number, number', _, text, reading, rfl, power, written,
    same binary64 ExtFloat.logBelowOne 0x3fb99999a0000000 isSupported_binary64
      ExtFloat.estimatesLog_logBelowOne number' rfl (value'.trans value.symm),
    read, exact.trans value⟩

end FloatFormat

end RadixText
