import RadixText.Proofs.Encodings

/-!
# Decoding of patterns

A finite pattern decodes to a float that is encoded as the same pattern. Larger
patterns decode to larger numbers, and the next one to a number one unit of the
last place above. Nothing changes at the lowest normal number and from one
binade to the next.
-/

namespace RadixText.FloatFormat

open ExtFloat

variable {f : FloatFormat} {w : Nat} {u u' : UInt64}

/-- A decoded number is encoded as its pattern, also in normalized form. -/
theorem FitsWord.toBits_eq (h : f.FitsWord) {x : ExtFloat}
    (finite : u.toNat < f.maxField * 2 ^ f.mantissaBits) (value : x.value = f.numberAt u.toNat) :
    toBits f x = u ∧ toBits f x.normalize = u := by
  constructor
  · exact UInt64.toNat_inj.mp (h.toNat_toBits finite.le value)
  · exact UInt64.toNat_inj.mp (h.toNat_toBits finite.le ((value_normalize x).trans value))

/-- Decoding a finite pattern without a sign gives its number. -/
theorem HasFieldWidth.exists_ofBits (width : f.HasFieldWidth w) (word : f.mantissaBits + w < 64)
    (finite : u.toNat < f.maxField * 2 ^ f.mantissaBits) :
    ∃ x, ofBits f u = .ok x ∧ x.exp = f.expAt u.toNat ∧ x.value = f.numberAt u.toNat := by
  have small : u.toNat < 2 ^ (f.mantissaBits + w) := by
    have fields := width.maxField_add_one
    rw [Nat.add_comm, pow_add, ← fields]
    exact finite.trans_le (Nat.mul_le_mul_right _ (Nat.le_succ _))
  obtain ⟨x, decoded, frac, exp⟩ := width.ofBits_eq word small
    ((width.isFinite_iff word small).mpr finite)
  exact ⟨x, decoded, exp, f.value_eq_numberAt frac exp⟩

/-- Encoding takes decoded patterns back, also in normalized form. Decoding keeps
the order of patterns, and the number of the next pattern lies one unit of the
last place above. -/
theorem decoding_is_inverted_and_ordered (mantissa : 1 ≤ f.mantissaBits)
    (width : f.HasFieldWidth w) (fieldBits : 1 ≤ w) (size : f.mantissaBits + w ≤ 63) (lt : u < u')
    (pattern : u'.toNat < 2 ^ (f.mantissaBits + w)) (finite : f.IsFinite u') :
    ∃ x x', ofBits f u = .ok x ∧ ofBits f u' = .ok x' ∧
      (toBits f x = u ∧ toBits f x.normalize = u) ∧
      (toBits f x' = u' ∧ toBits f x'.normalize = u') ∧
      x.value < x'.value ∧ (u' = u + 1 → x'.value - x.value = 2 ^ x.exp) := by
  have fits := width.fitsWord fieldBits mantissa size
  have word : f.mantissaBits + w < 64 := by omega
  have upper := (width.isFinite_iff word pattern).mp finite
  have less := UInt64.lt_iff_toNat_lt.mp lt
  obtain ⟨x, decoded, exp, value⟩ := width.exists_ofBits word (less.trans upper)
  obtain ⟨x', decoded', -, value'⟩ := width.exists_ofBits word upper
  refine ⟨x, x', decoded, decoded', fits.toBits_eq (less.trans upper) value,
    fits.toBits_eq upper value', ?_, ?_⟩
  · rw [value, value']
    exact f.numberAt_strictMono less
  · rintro rfl
    have next : (u + 1).toNat = u.toNat + 1 := by
      rw [UInt64.toNat_add, UInt64.toNat_one] at less ⊢
      omega
    rw [value, value', next, numberAt_succ, exp, add_sub_cancel_left]

/-- The largest subnormal number and the lowest normal one lie one unit apart. -/
theorem lowest_normal_follows_subnormal :
    1 ≤ binary64.mantissaBits ∧ binary64.HasFieldWidth 11 ∧ binary64.mantissaBits + 11 ≤ 63 ∧
    binary64.IsFinite 0x0010000000000000 ∧ ∃ x x',
      ofBits binary64 0x000fffffffffffff = .ok x ∧ ofBits binary64 0x0010000000000000 = .ok x' ∧
      toBits binary64 x'.normalize = 0x0010000000000000 ∧ x'.value - x.value = 2 ^ (-1074 : ℤ) := by
  have mantissa : 1 ≤ binary64.mantissaBits := by decide
  have width : binary64.HasFieldWidth 11 := rfl
  have size : binary64.mantissaBits + 11 ≤ 63 := by decide
  have finite : binary64.IsFinite 0x0010000000000000 := by decide
  have decodes : ofBits binary64 0x000fffffffffffff = .ok ⟨0x000fffffffffffff, -1074⟩ := by decide
  obtain ⟨x, x', decoded, decoded', -, ⟨-, encoded'⟩, -, gap⟩ :=
    decoding_is_inverted_and_ordered (u := 0x000fffffffffffff) mantissa width (by decide) size
      (by decide) (by decide) finite
  obtain rfl := Except.ok.inj (decodes.symm.trans decoded)
  exact ⟨mantissa, width, size, finite, _, x', decoded, decoded', encoded', gap (by decide)⟩

end RadixText.FloatFormat
