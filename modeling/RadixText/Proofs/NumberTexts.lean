import RadixText.Buffer.Steps
import RadixText.Proofs.Floats
import RadixText.Proofs.Integers

/-!
# One text of a number for all sinks

A number has one text, which every way to convert it ends with: as a text, in
memory, and in growing and fixed buffers in any state. A radix outside the
range is refused before anything is written.
-/

namespace RadixText

namespace Options

variable {o : Options}

theorem exists_requestedRadix
    (inRange : Radix.smallest ≤ o.radix.toNat ∧ o.radix.toNat ≤ Radix.largest) :
    ∃ r, o.requestedRadix = .ok r := by
  refine ⟨⟨o.radix.toNat, inRange.1, inRange.2⟩, ?_⟩
  rw [requestedRadix, Radix.requested, Radix.ofNat?, dif_pos inRange]

theorem requestedRadix_of_outside
    (outside : ¬ (Radix.smallest ≤ o.radix.toNat ∧ o.radix.toNat ≤ Radix.largest)) :
    o.requestedRadix = .error (.format .invalidRadix) := by
  rw [requestedRadix, Radix.requested, Radix.ofNat?, dif_neg outside]

end Options

namespace Number

variable {v : Number} {o : Options} {r : Radix} {text : List Char}

/-- The text of the number behind its sign, with some way to estimate
logarithms. -/
def unsignedText (v : Number) (log : Radix → ExtFloat → Int) (c : LetterCase) (r : Radix) :
    Except Fault (List Char) :=
  match v with
  | integer t pattern => .ok (r.plainNumeral c (t.value pattern).natAbs)
  | wide v => .ok (r.plainNumeral c v.toNat)
  | binary32 bits => FloatFormat.binary32.magnitudeText log
      (FloatFormat.binary32.magnitude bits.toUInt64) c r
  | binary64 bits => FloatFormat.binary64.magnitudeText log
      (FloatFormat.binary64.magnitude bits) c r

/-- A float is negative if the sign bit of its pattern is set. -/
theorem isNegative_binary32 (bits : UInt32) :
    (binary32 bits).isNegative = FloatFormat.binary32.isNegative bits.toUInt64 := by
  rw [FloatFormat.isSupported_binary32.isNegative_iff, UInt32.toNat_toUInt64, isNegative,
    BitVec.msb_eq_getLsbD_last]
  rfl

theorem isNegative_binary64 (bits : UInt64) :
    (binary64 bits).isNegative = FloatFormat.binary64.isNegative bits := by
  rw [FloatFormat.isSupported_binary64.isNegative_iff, isNegative, BitVec.msb_eq_getLsbD_last]
  rfl

/-- Every number of every type has a text behind its sign. Each sink gets it
with the sign that the options ask for in front. -/
theorem exists_unsignedText (v : Number) (log : Radix → ExtFloat → Int) (c : LetterCase)
    (r : Radix) : ∃ text, v.unsignedText log c r = .ok text ∧ text ≠ [] ∧ text.length ≤ 128 ∧
      ∀ o : Options, o.requestedRadix = .ok r → o.letterCase = c →
        Delivers (fun b => v.writeWith log o b) (o.sign v.isNegative ++ text) := by
  have numeral (m : Magnitude) : r.plainNumeral c m.toNat ≠ [] ∧
      (r.plainNumeral c m.toNat).length ≤ 128 := by
    refine ⟨?_, (m.length_plainNumeral_le r c).trans m.bits_le⟩
    simp [Radix.plainNumeral, r.digits_ne_nil]
  have float {f : FloatFormat} (h : f.IsSupported) {bits : UInt64}
      (inFormat : bits.toNat < 2 ^ f.totalBits) : ∃ text,
        f.magnitudeText log (f.magnitude bits) c r = .ok text ∧ text ≠ [] ∧ text.length ≤ 128 ∧
        ∀ o : Options, o.requestedRadix = .ok r → o.letterCase = c →
          Delivers (fun b => f.writeWith log bits o b) (o.sign (f.isNegative bits) ++ text) := by
    obtain ⟨text, made, nonempty, length, delivers⟩ :=
      h.exists_magnitudeText log inFormat c r
    refine ⟨text, made, nonempty, Nat.le_trans length (by decide), ?_⟩
    rintro o valid rfl
    exact FloatFormat.delivers_writeWith valid delivers
  cases v with
  | integer t pattern =>
      obtain ⟨sign, absolute⟩ := t.magnitude_value pattern
      obtain ⟨nonempty, length⟩ := numeral (t.magnitude pattern).2
      refine ⟨_, congrArg (fun n => Except.ok (r.plainNumeral c n)) absolute.symm, nonempty, length,
        ?_⟩
      rintro o valid rfl
      rw [isNegative, ← sign]
      exact (t.magnitude pattern).2.delivers_write valid _
  | wide v =>
      obtain ⟨nonempty, length⟩ := numeral (.wide v)
      refine ⟨_, rfl, nonempty, length, ?_⟩
      rintro o valid rfl
      exact (Magnitude.wide v).delivers_write valid false
  | binary32 bits =>
      rw [isNegative_binary32]
      exact float FloatFormat.isSupported_binary32 (FloatFormat.inFormat_binary32 bits)
  | binary64 bits =>
      rw [isNegative_binary64]
      exact float FloatFormat.isSupported_binary64 (FloatFormat.inFormat_binary64 bits)

/-- Every number of every type has a text that each sink gets. -/
theorem exists_delivers (v : Number) (log : Radix → ExtFloat → Int)
    (valid : o.requestedRadix = .ok r) : ∃ text, text ≠ [] ∧ text.length ≤ 129 ∧
      Delivers (fun b => v.writeWith log o b) text := by
  obtain ⟨text, -, nonempty, length, delivers⟩ := v.exists_unsignedText log o.letterCase r
  have sign := o.length_sign_le v.isNegative
  refine ⟨_, List.append_ne_nil_of_right_ne_nil _ nonempty, ?_, delivers o valid rfl⟩
  rw [List.length_append]
  omega

/-- A radix is refused before the first operation of any sink. -/
theorem writeWith_of_invalid {β : Type} [Sink β] {e : Fault} (v : Number)
    (log : Radix → ExtFloat → Int) (invalid : o.requestedRadix = .error e) (b : β) :
    v.writeWith log o b = .error e := by
  cases v with
  | integer t pattern => exact (t.magnitude pattern).2.write_of_invalid invalid _ b
  | wide v => exact (Magnitude.wide v).write_of_invalid invalid false b
  | binary32 bits => exact FloatFormat.writeWith_of_invalid invalid b
  | binary64 bits => exact FloatFormat.writeWith_of_invalid invalid b

/-- What every way to convert a number ends with, whatever the state of its
destination. -/
structure HasText (v : Number) (o : Options) (text : List Char) : Prop where
  nonempty : text ≠ []
  toText : ∀ u, v.toText u o = .ok text
  toMemory : v.toMemory o = .ok text
  toBoundedText : ∀ u n, v.toBoundedText u n o =
    if text.length ≤ n then .ok text else .error (.format .insufficientCapacity)
  appendTo : ∀ u s, Piece.appendTo u s (.number v o) = .ok (s ++ text)
  growing : ∀ b : GrowingBuffer, b.CanTake text.length →
    ∃ b', v.write o b = .ok b' ∧ b'.written = b.written ++ text ∧ b'.width = b.width
  fixed : ∀ b : FixedBuffer, v.write o b =
    .ok ⟨b.written ++ text.take (min b.room text.length), b.rest.drop text.length⟩

/-- Every conversion reports the radix, whatever the operations of its sink do,
so that none of them is reached, and leaves its destination as it was. -/
structure IsRefused (v : Number) (o : Options) : Prop where
  toText : ∀ u, v.toText u o = .error (.format .invalidRadix)
  toMemory : v.toMemory o = .error (.format .invalidRadix)
  toBoundedText : ∀ u n, v.toBoundedText u n o = .error (.format .invalidRadix)
  write : ∀ (β : Type) [Sink β] (b : β), v.write o b = .error (.format .invalidRadix)
  appendTo : ∀ u s, trace (Piece.appendTo u) s [.number v o] =
    [(s, some (.format .invalidRadix))]
  growing : ∀ b, trace GrowingBuffer.step b [.write (.number v o)] =
    [(b, some (.format .invalidRadix))]
  fixed : ∀ b, trace FixedBuffer.step b [.write (.number v o)] =
    [(b, some (.format .invalidRadix))]

/-- Converting to a text of bounded length is converting to a text that is not
too long. -/
theorem toBoundedText_of_toText {u : UnitWidth} (h : v.toText u o = .ok text) (n : Nat) :
    v.toBoundedText u n o =
      if text.length ≤ n then .ok text else .error (.format .insufficientCapacity) := by
  rw [toBoundedText, h]
  change (if n < text.length then _ else _) = _
  by_cases fits : text.length ≤ n
  · rw [if_pos fits, if_neg (Nat.not_lt.mpr fits)]
    rfl
  · rw [if_neg fits, if_pos (Nat.lt_of_not_le fits)]
    rfl

/-- A text that is delivered to the sinks is the text of the number. -/
theorem hasText_of_delivers (h : Delivers (fun b => v.write o b) text) (nonempty : text ≠ [])
    (length : text.length ≤ 129) : v.HasText o text := by
  have converted (u : UnitWidth) : v.toText u o = .ok text := by
    apply h.toText
    exact Nat.le_trans length (by cases u <;> decide)
  constructor
  · exact nonempty
  · exact converted
  · exact h.toMemory
  · intro u n
    exact toBoundedText_of_toText (converted u) n
  · intro u s
    exact bind_eq_ok_iff.mpr ⟨text, converted u, rfl⟩
  · intro b room
    obtain ⟨b', written, gets⟩ := h GrowingBuffer b room
    exact ⟨b', written, gets.written, gets.width⟩
  · intro b
    obtain ⟨b', written, gets⟩ := h FixedBuffer b trivial
    rw [← List.take_eq_take_min]
    exact written.trans (congrArg Except.ok gets)

theorem isRefused_of_invalid (v : Number)
    (invalid : o.requestedRadix = .error (.format .invalidRadix)) : v.IsRefused o := by
  have refused (β : Type) [Sink β] (b : β) : v.write o b = .error (.format .invalidRadix) :=
    v.writeWith_of_invalid _ invalid b
  have converted (u : UnitWidth) : v.toText u o = .error (.format .invalidRadix) := by
    rw [Number.toText, toTextWith, v.writeWith_of_invalid _ invalid]
    rfl
  constructor
  · exact converted
  · rw [Number.toMemory, refused]
    rfl
  · intro u n
    rw [Number.toBoundedText, converted]
    rfl
  · exact refused
  · intro u s
    apply trace_singleton_of_error
    rw [Piece.appendTo, Piece.toText, converted]
    rfl
  · intro b
    exact trace_singleton_of_error (refused GrowingBuffer b)
  · intro b
    exact trace_singleton_of_error (refused FixedBuffer b)

/-- With a radix in range a number has one text for all sinks, of at least one
unit, narrow or wide. Any other radix is refused by all of them. -/
theorem every_sink_gets_one_text (v : Number) (o : Options) :
    if Radix.smallest ≤ o.radix.toNat ∧ o.radix.toNat ≤ Radix.largest then
      ∃ text, v.HasText o text
    else v.IsRefused o := by
  split
  case isTrue inRange =>
    obtain ⟨r, valid⟩ := Options.exists_requestedRadix inRange
    obtain ⟨text, nonempty, length, delivers⟩ := v.exists_delivers ExtFloat.logBelowOne valid
    exact ⟨text, hasText_of_delivers delivers nonempty length⟩
  case isFalse outside =>
    exact v.isRefused_of_invalid (Options.requestedRadix_of_outside outside)

end Number

end RadixText
