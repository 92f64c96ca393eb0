import RadixText.Proofs.NumberTexts

/-!
# Conversions deliver a text or refuse the radix

In a growing buffer with room for the longest text, a conversion breaks no
promise that its operations rely on: it appends a text, or reports the format
error of a radix outside the range. This holds whatever the estimated
logarithms are.
-/

namespace RadixText

/-- A conversion appends some text to a buffer. -/
def GrowingBuffer.Takes (b : GrowingBuffer) (result : Except Fault GrowingBuffer) : Prop :=
  ∃ b' text, result = .ok b' ∧ b'.written = b.written ++ text ∧ text ≠ []

/-- A conversion appends a text for a radix in range, and otherwise reports
the radix. -/
def Options.Answers (o : Options) (b : GrowingBuffer) (result : Except Fault GrowingBuffer) :
    Prop :=
  if Radix.smallest ≤ o.radix.toNat ∧ o.radix.toNat ≤ Radix.largest then b.Takes result
  else result = .error (.format .invalidRadix)

variable {o : Options} {b : GrowingBuffer} {result : Except Fault GrowingBuffer}

/-- A conversion that asks for the radix first is judged by what it does with
one. -/
theorem Options.answers_of_requested
    (takes : ∀ r, o.requestedRadix = .ok r → b.Takes result)
    (refuses : o.requestedRadix = .error (.format .invalidRadix) →
      result = .error (.format .invalidRadix)) : o.Answers b result := by
  rw [Answers]
  split
  case isTrue inRange =>
    obtain ⟨r, valid⟩ := exists_requestedRadix inRange
    exact takes r valid
  case isFalse outside => exact refuses (requestedRadix_of_outside outside)

/-- A text that is delivered is taken by a buffer with room for it. -/
theorem Delivers.takes {write : {β : Type} → [Sink β] → β → Except Fault β} {text : List Char}
    (h : Delivers write text) (room : b.CanTake text.length) (nonempty : text ≠ []) :
    b.Takes (write b) := by
  obtain ⟨b', done, gets⟩ := h GrowingBuffer b room
  exact ⟨b', text, done, gets.written, nonempty⟩

namespace FloatFormat

variable {f : FloatFormat} {bits : UInt64}

theorem IsSupported.answers_writeWith (h : f.IsSupported) (log : Radix → ExtFloat → Int)
    (inFormat : bits.toNat < 2 ^ f.totalBits) (room : b.CanTake 129) :
    o.Answers b (f.writeWith log bits o b) := by
  apply Options.answers_of_requested
  · intro r valid
    obtain ⟨text, nonempty, length, delivers⟩ := h.exists_delivers log inFormat valid
    exact delivers.takes (room.mono (Nat.le_trans length (by decide))) nonempty
  · intro invalid
    exact writeWith_of_invalid invalid b

end FloatFormat

theorem Number.answers_writeWith (v : Number) (log : Radix → ExtFloat → Int)
    (room : b.CanTake 129) : o.Answers b (v.writeWith log o b) := by
  apply Options.answers_of_requested
  · intro r valid
    obtain ⟨text, nonempty, length, delivers⟩ := v.exists_delivers log valid
    exact delivers.takes (room.mono length) nonempty
  · intro invalid
    exact v.writeWith_of_invalid log invalid b

/-- Every number of every type, and every pattern of every supported format,
is converted to a text for a radix in range and refused with a format error for
any other. No operation on the way breaks a promise, the digits of a float stay
within their places, and its text within the cells kept for it. -/
theorem conversion_appends_text_or_refuses_radix (log : Radix → ExtFloat → Int) (o : Options)
    {b : GrowingBuffer} (room : b.CanTake 129) :
    (∀ v : Number, o.Answers b (v.writeWith log o b)) ∧
    (∀ (f : FloatFormat) (bits : UInt64), f.IsSupported → bits.toNat < 2 ^ f.totalBits →
      o.Answers b (f.writeWith log bits o b)) ∧
    ∀ (f : FloatFormat) (bits : UInt64) (r : Radix), f.IsSupported → f.IsNonzero bits →
      ∃ x e t, ExtFloat.ofBits f (f.magnitude bits) = .ok x ∧
        Expansion.ofExtFloat x (Neighbourhood.ofFormat f x) r = .ok e ∧
        e.whole.length ≤ Expansion.places ∧ e.fraction.length ≤ Expansion.places ∧
        FloatText.ofBitsWith log f (f.magnitude bits) r = .ok t ∧ (∀ d ∈ t.digits, d < r.val) ∧
        (∀ c, (t.chars c).length = t.length) ∧ t.length ≤ FloatText.maxLength := by
  refine ⟨?_, ?_, ?_⟩
  · intro v
    exact v.answers_writeWith log room
  · intro f bits h inFormat
    exact h.answers_writeWith log inFormat room
  · intro f bits r h number
    obtain ⟨x, e, t, decoded, expanded, whole, fraction, made, radix, wellFormed, -⟩ :=
      h.exists_text number log r
    have below := wellFormed.lt_radix
    rw [radix] at below
    exact ⟨x, e, t, decoded, expanded, whole, fraction, made, below, wellFormed.length_chars,
      wellFormed.length_le_maxLength⟩

/-- A new buffer takes the largest 64-bit float in radix two, and nothing in
radix 37. -/
theorem new_buffer_appends_text_or_refuses_radix :
    (GrowingBuffer.empty .wide 0).CanTake 129 ∧
    (GrowingBuffer.empty .wide 0).Takes ((Number.binary64 0x7fefffffffffffff).writeWith
      ExtFloat.logBelowOne ⟨2, Flags.none⟩ (GrowingBuffer.empty .wide 0)) ∧
    (Number.binary64 0x7fefffffffffffff).writeWith ExtFloat.logBelowOne ⟨37, Flags.none⟩
      (GrowingBuffer.empty .wide 0) = .error (.format .invalidRadix) := by
  have room : (GrowingBuffer.empty .wide 0).CanTake 129 :=
    (GrowingBuffer.canTake_empty .wide 0).mono (by decide)
  refine ⟨room, ?_, ?_⟩
  · exact (conversion_appends_text_or_refuses_radix _ ⟨2, Flags.none⟩ room).1 _
  · exact (conversion_appends_text_or_refuses_radix _ ⟨37, Flags.none⟩ room).1 _

end RadixText
