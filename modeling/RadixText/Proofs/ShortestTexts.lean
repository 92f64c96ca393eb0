import RadixText.Proofs.Floats
import RadixText.Proofs.ShortestDigits

/-!
# The texts of floats are the shortest ones

Between the midpoints to its neighbours a number is told apart from all others
of its format. Its text is the nearest multiple of the largest power of the
radix that has a multiple there, so that no text with fewer significant digits
is read back as the number.
-/

namespace RadixText

namespace FloatFormat

variable {f : FloatFormat} {bits : UInt64} {r : Radix} {o : Options}
  {log : Radix → ExtFloat → Int}

/-- The numbers between the midpoints to the neighbours of a pattern's number. -/
def interval (f : FloatFormat) (bits : UInt64) : Set ℚ :=
  Set.Ioo (f.midpointAbove ((f.magnitude bits).toNat - 1))
    (f.midpointAbove (f.magnitude bits).toNat)

/-- The number below a pattern's number is as far away as the number above. -/
def IsRegular (f : FloatFormat) (bits : UInt64) : Prop :=
  ∀ x, ExtFloat.ofBits f (f.magnitude bits) = .ok x →
    (Neighbourhood.ofFormat f x).closerBelow = false

/-- Around a regular number the interval reaches equally far down and up. -/
theorem mem_interval_iff (h : f.IsSupported) (number : f.IsNonzero bits)
    (regular : f.IsRegular bits) {x : ExtFloat}
    (decoded : ExtFloat.ofBits f (f.magnitude bits) = .ok x) (q : ℚ) :
    q ∈ f.interval bits ↔
      |f.absoluteValue bits - q| < (Neighbourhood.ofFormat f x).reachAbove := by
  obtain ⟨x', decoded', frac, exp⟩ :=
    h.ofBits_eq (h.toNat_magnitude_lt number.inFormat) number.finite
  rw [decoded] at decoded'
  obtain rfl := Except.ok.inj decoded'
  rw [interval, midpointAbove_pred_eq_sub_reach h number.toNat_ne_zero frac exp,
    midpointAbove_eq_add_reach frac exp,
    Neighbourhood.reachBelow_eq_reachAbove (regular x decoded), Set.mem_Ioo, absoluteValue,
    ← f.value_eq_numberAt frac exp, abs_sub_lt_iff]
  constructor
  · rintro ⟨below, above⟩
    constructor <;> linarith
  · rintro ⟨below, above⟩
    constructor <;> linarith

/-- A positive exponent takes the hidden bit, so that the fraction of a wide
format exceeds every radix. -/
theorem IsSupported.radix_le_frac (h : f.IsSupported) (wide : 6 ≤ f.mantissaBits) {n : ℕ}
    {x : ExtFloat} (frac : x.frac.toNat = f.fracAt n) (exp : x.exp = f.expAt n) (r : Radix)
    (positive : 0 < x.exp) : r.val ≤ x.frac.toNat := by
  have normal : 2 ^ f.mantissaBits ≤ f.fracAt n := by
    by_contra small
    have lowest := f.expAt_of_fracAt_lt (not_le.mp small)
    have mantissa := h.mantissaBits_pos
    rw [exp, lowest, lowestExp] at positive
    omega
  calc
    r.val ≤ 36 := r.le_thirtySix
    _ ≤ 2 ^ 6 := by decide
    _ ≤ 2 ^ f.mantissaBits := Nat.pow_le_pow_right (by decide) wide
    _ ≤ x.frac.toNat := frac ▸ normal

/-- The text of a regular number of a wide format is read as a multiple of the
largest power of the radix that has one between the midpoints. No multiple is
nearer, one that is as near has an odd digit there, and every number between the
midpoints has at least as many digits. -/
theorem text_is_shortest_and_nearest (h : f.IsSupported) (wide : 6 ≤ f.mantissaBits)
    (estimates : ExtFloat.EstimatesLog log) (valid : o.requestedRadix = .ok r)
    (number : f.IsNonzero bits) (regular : f.IsRegular bits) :
    ∃ (text : List Char) (reading : Reading) (m : ℕ) (j : ℤ),
      f.IsWrittenAs log bits o text ∧ r.readFloat? text = some reading ∧
      reading.negative = f.isNegative bits ∧ |reading.value r| = m * (r.val : ℚ) ^ j ∧
      |reading.value r| ∈ f.interval bits ∧
      IsGreatest {j : ℤ | ∃ m : ℤ, m * (r.val : ℚ) ^ j ∈ f.interval bits} j ∧
      (∀ m' : ℤ, |f.absoluteValue bits - (|reading.value r|)| ≤
        |f.absoluteValue bits - m' * (r.val : ℚ) ^ j|) ∧
      (∀ m' : ℤ, m' ≠ m → |f.absoluteValue bits - m' * (r.val : ℚ) ^ j| =
        |f.absoluteValue bits - (|reading.value r|)| → Even (m % r.val)) ∧
      ∀ (m' : ℕ) (j' : ℤ), m' * (r.val : ℚ) ^ j' ∈ f.interval bits →
        (r.digits m).length ≤ (r.digits m').length := by
  obtain ⟨x, e, t, decoded, expanded, value, radix, -, written, read⟩ :=
    exists_expansion_reading h estimates valid number
  have magnitude := h.toNat_magnitude_lt number.inFormat
  obtain ⟨x', decoded', frac, exp⟩ := h.ofBits_eq magnitude number.finite
  obtain rfl : x = x' := Except.ok.inj (decoded.symm.trans decoded')
  have range := h.isInRange number.toNat_ne_zero
    ((h.isFinite_iff magnitude).mp number.finite) frac exp
  obtain ⟨e', m, j, expanded', multiple, shortest⟩ := Expansion.ofExtFloat_isShortest range
    (h.suits x) (regular x decoded) (h.radix_le_frac wide frac exp r)
  obtain rfl : e = e' := Except.ok.inj (expanded.symm.trans expanded')
  have mem := mem_interval_iff h number regular decoded
  have absolute : x.value = f.absoluteValue bits := f.value_eq_numberAt frac exp
  rw [absolute] at shortest
  have reading := t.value_reading (f.isNegative bits)
  rw [radix, value, multiple] at reading
  refine ⟨_, _, m, j, written, read, rfl, reading, ?_, ⟨⟨m, ?_⟩, ?_⟩, ?_, ?_, ?_⟩
  · rw [reading, mem]
    exact shortest.inside
  · rw [Int.cast_natCast, mem]
    exact shortest.inside
  · rintro k ⟨m', inside⟩
    by_contra larger
    rw [mem] at inside
    exact absurd inside (not_lt.mpr (shortest.coarsest k (not_le.mp larger) m'))
  · rw [reading]
    exact shortest.nearest
  · rw [reading]
    exact shortest.even
  · intro m' j' inside
    rw [mem] at inside
    exact shortest.length_digits_le inside

/-- One tenth, rounded to the 32-bit format, has a single significant digit. -/
theorem tenth_is_shortest_and_nearest :
    binary32.IsSupported ∧ 6 ≤ binary32.mantissaBits ∧
    ExtFloat.EstimatesLog ExtFloat.logBelowOne ∧ binary32.IsNonzero 0x3dcccccd ∧
    binary32.IsRegular 0x3dcccccd ∧
    ∃ (r : Radix) (text : List Char) (reading : Reading) (m : ℕ) (j : ℤ), r.val = 10 ∧
      binary32.IsWrittenAs ExtFloat.logBelowOne 0x3dcccccd ⟨10, Flags.none⟩ text ∧
      r.readFloat? text = some reading ∧ |reading.value r| = m * (r.val : ℚ) ^ j ∧
      |reading.value r| ∈ binary32.interval 0x3dcccccd ∧ (r.digits m).length ≤ 1 := by
  have number : binary32.IsNonzero 0x3dcccccd := ⟨by decide, by decide, by decide⟩
  have regular : binary32.IsRegular 0x3dcccccd := by
    intro x decoded
    have eq : ExtFloat.ofBits binary32 (binary32.magnitude 0x3dcccccd) = .ok ⟨0xcccccd, -27⟩ := by
      decide
    rw [eq] at decoded
    obtain rfl := Except.ok.inj decoded
    decide
  have tenth : ((1 : ℕ) : ℚ) * ((10 : ℕ) : ℚ) ^ (-1 : ℤ) ∈ binary32.interval 0x3dcccccd := by
    have magnitude : (binary32.magnitude 0x3dcccccd).toNat = 1036831949 := by decide
    rw [interval, magnitude, Set.mem_Ioo]
    norm_num [midpointAbove, numberAt, binary32, lowestExp, bias]
  obtain ⟨text, reading, m, j, written, read, -, value, mem, -, -, -, fewest⟩ :=
    text_is_shortest_and_nearest (o := ⟨10, Flags.none⟩) (r := ⟨10, by decide, by decide⟩)
      isSupported_binary32 (by decide) ExtFloat.estimatesLog_logBelowOne rfl number regular
  refine ⟨isSupported_binary32, by decide, ExtFloat.estimatesLog_logBelowOne, number, regular, _,
    text, reading, m, j, rfl, written, read, value, mem, ?_⟩
  have one : (Radix.digits ⟨10, by decide, by decide⟩ 1).length = 1 := by
    rw [Radix.digits_of_lt _ (by decide)]
    rfl
  exact one ▸ fewest 1 (-1) tenth

end FloatFormat

end RadixText
