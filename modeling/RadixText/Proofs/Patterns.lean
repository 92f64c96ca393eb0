import RadixText.ExtFloat.Encoding
import RadixText.Proofs.Words
import RadixText.Value

/-!
# Patterns and the numbers they decode to

A pattern of a supported format is a sign above a magnitude. The magnitude of
a finite pattern decodes to a fraction of at most 53 bits and an exponent in
the range of the 64-bit format, which denote the pattern's number.
-/

namespace RadixText

/-- A format whose numbers are numbers of the 64-bit format. -/
structure FloatFormat.IsSupported (f : FloatFormat) : Prop where
  mantissaBits_pos : 1 ≤ f.mantissaBits
  mantissaBits_le : f.mantissaBits ≤ 52
  hasFieldWidth : ∃ w, f.HasFieldWidth w
  maxField_le : f.maxField ≤ 2047

theorem FloatFormat.isSupported_binary32 : FloatFormat.binary32.IsSupported :=
  ⟨by decide, by decide, ⟨8, rfl⟩, by decide⟩

theorem FloatFormat.isSupported_binary64 : FloatFormat.binary64.IsSupported :=
  ⟨by decide, by decide, ⟨11, rfl⟩, by decide⟩

theorem FloatFormat.inFormat_binary32 (bits : UInt32) :
    bits.toUInt64.toNat < 2 ^ binary32.totalBits := by
  rw [UInt32.toNat_toUInt64]
  exact Nat.lt_of_lt_of_le bits.toNat_lt (by decide)

theorem FloatFormat.inFormat_binary64 (bits : UInt64) : bits.toNat < 2 ^ binary64.totalBits :=
  Nat.lt_of_lt_of_le bits.toNat_lt (by decide)

namespace FloatFormat

variable (f : FloatFormat)

/-- The bits of a magnitude. -/
def magnitudeBits : Nat := f.mantissaBits + (f.maxField + 1).log2

/-- The fraction of the number of a magnitude. -/
def fracAt (n : Nat) : Nat :=
  if n / 2 ^ f.mantissaBits = 0 then n else 2 ^ f.mantissaBits + n % 2 ^ f.mantissaBits

/-- The binary exponent of the number of a magnitude. -/
def expAt (n : Nat) : Int := f.lowestExp + (n / 2 ^ f.mantissaBits - 1 : ℕ)

theorem numberAt_eq (n : Nat) : f.numberAt n = f.fracAt n * 2 ^ f.expAt n := by
  rw [numberAt, fracAt, expAt]
  by_cases subnormal : n / 2 ^ f.mantissaBits = 0
  · have small : n < 2 ^ f.mantissaBits := by
      rcases Nat.div_eq_zero_iff.mp subnormal with zero | small
      · exact absurd zero (Nat.two_pow_pos _).ne'
      · exact small
    simp [subnormal, Nat.mod_eq_of_lt small]
  · simp [subnormal]

theorem value_eq_numberAt {n : Nat} {x : ExtFloat} (frac : x.frac.toNat = f.fracAt n)
    (exp : x.exp = f.expAt n) : x.value = f.numberAt n := by
  rw [numberAt_eq, ExtFloat.value, frac, exp]

/-- A pattern below the hidden bit is a fraction with the lowest exponent. -/
theorem fracAt_expAt_of_subnormal {m : Nat} (small : m < 2 ^ f.mantissaBits) :
    f.fracAt m = m ∧ f.expAt m = f.lowestExp := by
  rw [fracAt, expAt, Nat.div_eq_of_lt small]
  exact ⟨if_pos rfl, Int.add_zero _⟩

/-- A fraction with the hidden bit and an exponent above the lowest one make up
a pattern. -/
theorem fracAt_expAt_of_normal {m : Nat} (large : 2 ^ f.mantissaBits ≤ m)
    (small : m < 2 * 2 ^ f.mantissaBits) (q : Nat) :
    f.fracAt (2 ^ f.mantissaBits * (q + 1) + (m - 2 ^ f.mantissaBits)) = m ∧
      f.expAt (2 ^ f.mantissaBits * (q + 1) + (m - 2 ^ f.mantissaBits)) = f.lowestExp + q := by
  have power := Nat.two_pow_pos f.mantissaBits
  have mantissa : m - 2 ^ f.mantissaBits < 2 ^ f.mantissaBits := by omega
  rw [fracAt, expAt, Nat.mul_add_div power, Nat.div_eq_of_lt mantissa, Nat.mul_add_mod,
    Nat.mod_eq_of_lt mantissa, Nat.add_zero, if_neg (Nat.succ_ne_zero q), Nat.add_sub_cancel]
  exact ⟨by omega, rfl⟩

/-- A number below the hidden bit is a multiple of the smallest one. -/
theorem numberAt_of_subnormal {m : Nat} (small : m < 2 ^ f.mantissaBits) :
    f.numberAt m = m * 2 ^ f.lowestExp := by
  obtain ⟨frac, exp⟩ := f.fracAt_expAt_of_subnormal small
  rw [numberAt_eq, frac, exp]

theorem numberAt_of_normal {m : Nat} (large : 2 ^ f.mantissaBits ≤ m)
    (small : m < 2 * 2 ^ f.mantissaBits) (q : Nat) :
    f.numberAt (2 ^ f.mantissaBits * (q + 1) + (m - 2 ^ f.mantissaBits)) =
      m * 2 ^ (f.lowestExp + q) := by
  obtain ⟨frac, exp⟩ := f.fracAt_expAt_of_normal large small q
  rw [numberAt_eq, frac, exp]

theorem fracAt_lt (n : Nat) : f.fracAt n < 2 ^ (f.mantissaBits + 1) := by
  have mantissa := Nat.mod_lt n (Nat.two_pow_pos f.mantissaBits)
  rw [fracAt, pow_succ]
  split
  case isTrue subnormal =>
    have split := Nat.div_add_mod n (2 ^ f.mantissaBits)
    rw [subnormal] at split
    omega
  case isFalse => omega

theorem lowestExp_le_expAt (n : Nat) : f.lowestExp ≤ f.expAt n := by
  rw [expAt]
  omega

variable {f}

section Words

variable {w : Nat} {bits : UInt64}

theorem toNat_hiddenBit_of_lt (places : f.mantissaBits < 64) :
    f.hiddenBit.toNat = 2 ^ f.mantissaBits :=
  Words.toNat_one_shiftLeft places

theorem toNat_mantissa_of_lt (places : f.mantissaBits < 64) (bits : UInt64) :
    (f.mantissa bits).toNat = bits.toNat % 2 ^ f.mantissaBits :=
  Words.toNat_and_mask places bits

namespace HasFieldWidth

theorem maxField_add_one (h : f.HasFieldWidth w) : f.maxField + 1 = 2 ^ w := by
  have := Nat.two_pow_pos w
  rw [h]
  omega

theorem field_eq (h : f.HasFieldWidth w) (word : f.mantissaBits + w < 64)
    (small : bits.toNat < 2 ^ (f.mantissaBits + w)) :
    f.field bits = bits.toNat / 2 ^ f.mantissaBits := by
  have fields : f.maxField < 2 ^ 64 := by
    have width := h.maxField_add_one
    have power : 2 ^ w ≤ 2 ^ 64 := Nat.pow_le_pow_right (by decide) (by omega)
    omega
  have maxField : (UInt64.ofNat f.maxField).toNat = f.maxField := by
    rw [UInt64.toNat_ofNat', Nat.mod_eq_of_lt fields]
  rw [field, UInt64.toNat_and, Words.toNat_shiftRight (by omega), maxField, h,
    Nat.and_two_pow_sub_one_eq_mod]
  apply Nat.mod_eq_of_lt
  rw [Nat.div_lt_iff_lt_mul (Nat.two_pow_pos _), ← pow_add, Nat.add_comm]
  exact small

theorem isFinite_iff (h : f.HasFieldWidth w) (word : f.mantissaBits + w < 64)
    (small : bits.toNat < 2 ^ (f.mantissaBits + w)) :
    f.IsFinite bits ↔ bits.toNat < f.maxField * 2 ^ f.mantissaBits := by
  have field : bits.toNat / 2 ^ f.mantissaBits < f.maxField + 1 := by
    rw [h.maxField_add_one, Nat.div_lt_iff_lt_mul (Nat.two_pow_pos _), ← pow_add, Nat.add_comm]
    exact small
  rw [IsFinite, h.field_eq word small, ← Nat.div_lt_iff_lt_mul (Nat.two_pow_pos _)]
  omega

/-- A finite magnitude decodes to the fraction and the exponent of its
number. -/
theorem ofBits_eq (h : f.HasFieldWidth w) (word : f.mantissaBits + w < 64)
    (small : bits.toNat < 2 ^ (f.mantissaBits + w)) (finite : f.IsFinite bits) :
    ∃ x, ExtFloat.ofBits f bits = .ok x ∧ x.frac.toNat = f.fracAt bits.toNat ∧
      x.exp = f.expAt bits.toNat := by
  have field := h.field_eq word small
  have mantissa := toNat_mantissa_of_lt (show f.mantissaBits < 64 by omega) bits
  have hidden := toNat_hiddenBit_of_lt (show f.mantissaBits < 64 by omega)
  rw [ExtFloat.ofBits, Precondition.require_of_kept _ finite]
  change ∃ x, (if f.field bits = 0 then _ else _) = _ ∧ _
  rw [fracAt, expAt, ← field]
  by_cases subnormal : f.field bits = 0
  · have split := Nat.div_add_mod bits.toNat (2 ^ f.mantissaBits)
    rw [← field, subnormal, Nat.mul_zero, Nat.zero_add] at split
    refine ⟨⟨f.mantissa bits, f.lowestExp⟩, by rw [if_pos subnormal]; rfl, ?_, by simp [subnormal]⟩
    rw [if_pos subnormal, mantissa, split]
  · refine ⟨_, by rw [if_neg subnormal]; rfl, ?_, ?_⟩
    · have or_eq := Nat.two_pow_add_eq_or_of_lt
        (Nat.mod_lt bits.toNat (Nat.two_pow_pos f.mantissaBits)) 1
      rw [Nat.mul_one] at or_eq
      rw [if_neg subnormal, UInt64.toNat_or, mantissa, hidden, Nat.or_comm, or_eq]
    · rw [lowestExp]
      dsimp only
      omega

end HasFieldWidth

end Words

namespace IsSupported

variable {n : Nat} {bits : UInt64}

theorem maxField_eq (h : f.IsSupported) : f.maxField = 2 ^ (f.maxField + 1).log2 - 1 := by
  obtain ⟨w, width⟩ := h.hasFieldWidth
  rw [width.maxField_add_one, Nat.log2_two_pow, width]

theorem magnitudeBits_lt (h : f.IsSupported) : f.magnitudeBits < 64 := by
  have mantissa := h.mantissaBits_le
  have field : (f.maxField + 1).log2 ≤ 11 := by
    have bound := h.maxField_le
    calc
      (f.maxField + 1).log2 ≤ (2 ^ 11).log2 := by
        rw [Nat.log2_eq_log_two, Nat.log2_eq_log_two]
        exact Nat.log_mono_right (by omega)
      _ = 11 := Nat.log2_two_pow
  rw [magnitudeBits]
  omega

theorem neg_le_lowestExp (h : f.IsSupported) : -1074 ≤ f.lowestExp := by
  have mantissa := h.mantissaBits_le
  have field := h.maxField_le
  rw [lowestExp, bias]
  omega

theorem toNat_hiddenBit (h : f.IsSupported) : f.hiddenBit.toNat = 2 ^ f.mantissaBits := by
  have mantissa := h.mantissaBits_le
  exact toNat_hiddenBit_of_lt (by omega)

theorem isFinite_iff (h : f.IsSupported) (small : bits.toNat < 2 ^ f.magnitudeBits) :
    f.IsFinite bits ↔ bits.toNat < f.maxField * 2 ^ f.mantissaBits :=
  HasFieldWidth.isFinite_iff h.maxField_eq h.magnitudeBits_lt small

theorem toNat_signBit (h : f.IsSupported) : f.signBit.toNat = 2 ^ f.magnitudeBits := by
  have mantissa := h.mantissaBits_le
  have bound := h.maxField_le
  have total := h.magnitudeBits_lt
  have power : 1 + f.maxField = 2 ^ (f.maxField + 1).log2 := by
    rw [Nat.add_comm]
    exact HasFieldWidth.maxField_add_one h.maxField_eq
  have word : (UInt64.ofNat (1 + f.maxField)).toNat = 1 + f.maxField := by
    rw [UInt64.toNat_ofNat']
    omega
  rw [signBit, Words.toNat_shiftLeft (by omega), word, power, ← pow_add, Nat.add_comm]
  apply Nat.mod_eq_of_lt
  rw [Words.size_eq]
  exact Nat.pow_lt_pow_right (by decide) total

theorem isNegative_iff (h : f.IsSupported) (bits : UInt64) :
    f.isNegative bits = bits.toNat.testBit f.magnitudeBits := by
  rw [isNegative, Bool.eq_iff_iff, bne_iff_ne, ne_eq, ← UInt64.toNat_inj, UInt64.toNat_and,
    h.toNat_signBit, Nat.and_two_pow, UInt64.toNat_zero]
  cases bits.toNat.testBit f.magnitudeBits <;> simp

/-- A magnitude is a pattern modulo the weight of its sign. -/
theorem toNat_magnitude (h : f.IsSupported) (pattern : bits.toNat < 2 ^ f.totalBits) :
    (f.magnitude bits).toNat = bits.toNat % 2 ^ f.magnitudeBits := by
  have total : f.totalBits = f.magnitudeBits + 1 := rfl
  have sign := h.isNegative_iff bits
  rw [total] at pattern
  have bound := h.magnitudeBits_lt
  rw [magnitude]
  split
  case isTrue negative =>
    rw [UInt64.toNat_and, UInt64.toNat_not, h.toNat_signBit]
    apply Nat.eq_of_testBit_eq
    intro i
    have complement : UInt64.size - 1 - 2 ^ f.magnitudeBits =
        2 ^ 64 - (2 ^ f.magnitudeBits + 1) := by
      rw [Words.size_eq]
      omega
    rw [Nat.testBit_and, Nat.testBit_mod_two_pow, complement,
      Nat.testBit_two_pow_sub_succ (Nat.pow_lt_pow_right (by decide) bound), Nat.testBit_two_pow]
    rcases Nat.lt_trichotomy i f.magnitudeBits with lt | rfl | gt
    · simp [lt, lt.ne', Nat.lt_trans lt bound]
    · simp
    · have clear : bits.toNat.testBit i = false := by
        apply Nat.testBit_lt_two_pow
        exact Nat.lt_of_lt_of_le pattern (Nat.pow_le_pow_right (by decide) gt)
      simp [clear]
  case isFalse positive =>
    rw [sign, Bool.not_eq_true] at positive
    symm
    apply Nat.mod_eq_of_lt
    by_contra large
    have top : bits.toNat = 2 ^ f.magnitudeBits + (bits.toNat - 2 ^ f.magnitudeBits) := by omega
    rw [pow_succ] at pattern
    rw [top, Nat.testBit_two_pow_add_eq, Nat.testBit_lt_two_pow (by omega)] at positive
    simp at positive

theorem toNat_magnitude_lt (h : f.IsSupported) (pattern : bits.toNat < 2 ^ f.totalBits) :
    (f.magnitude bits).toNat < 2 ^ f.magnitudeBits := by
  rw [h.toNat_magnitude pattern]
  exact Nat.mod_lt _ (Nat.two_pow_pos _)

/-- Patterns that differ in their signs only have one magnitude. -/
theorem magnitude_eq_of_mod_eq (h : f.IsSupported) {bits' : UInt64}
    (pattern : bits.toNat < 2 ^ f.totalBits) (pattern' : bits'.toNat < 2 ^ f.totalBits)
    (same : bits.toNat % 2 ^ f.magnitudeBits = bits'.toNat % 2 ^ f.magnitudeBits) :
    f.magnitude bits = f.magnitude bits' := by
  rw [← UInt64.toNat_inj, h.toNat_magnitude pattern, h.toNat_magnitude pattern', same]

/-- Patterns are told apart by sign and magnitude. -/
theorem eq_of_magnitude_eq (h : f.IsSupported) {bits' : UInt64}
    (pattern : bits.toNat < 2 ^ f.totalBits) (pattern' : bits'.toNat < 2 ^ f.totalBits)
    (sign : f.isNegative bits = f.isNegative bits')
    (magnitude : (f.magnitude bits).toNat = (f.magnitude bits').toNat) : bits = bits' := by
  rw [h.isNegative_iff, h.isNegative_iff] at sign
  rw [h.toNat_magnitude pattern, h.toNat_magnitude pattern'] at magnitude
  apply UInt64.toNat_inj.mp
  apply Nat.eq_of_testBit_eq
  intro i
  have total : f.totalBits = f.magnitudeBits + 1 := rfl
  rw [total] at pattern pattern'
  rcases Nat.lt_trichotomy i f.magnitudeBits with lt | rfl | gt
  · have low := congrArg (·.testBit i) magnitude
    simpa [Nat.testBit_mod_two_pow, lt] using low
  · exact sign
  · have power := Nat.pow_le_pow_right (n := 2) (by decide) gt
    rw [Nat.testBit_lt_two_pow (Nat.lt_of_lt_of_le pattern power),
      Nat.testBit_lt_two_pow (Nat.lt_of_lt_of_le pattern' power)]

theorem ofBits_eq (h : f.IsSupported) (small : bits.toNat < 2 ^ f.magnitudeBits)
    (finite : f.IsFinite bits) : ∃ x, ExtFloat.ofBits f bits = .ok x ∧
      x.frac.toNat = f.fracAt bits.toNat ∧ x.exp = f.expAt bits.toNat :=
  HasFieldWidth.ofBits_eq h.maxField_eq h.magnitudeBits_lt small finite

/-- The largest exponent leaves the fraction within the range. -/
theorem expAt_le (h : f.IsSupported) (finite : n < f.maxField * 2 ^ f.mantissaBits) :
    f.expAt n + f.mantissaBits ≤ 1023 := by
  have field : n / 2 ^ f.mantissaBits < f.maxField :=
    (Nat.div_lt_iff_lt_mul (Nat.two_pow_pos _)).mpr finite
  have bound := h.maxField_le
  rw [expAt, lowestExp, bias]
  omega

end IsSupported

end FloatFormat

namespace ExtFloat

variable {x : ExtFloat}

theorem toNat_frac_pos (nonzero : x.frac ≠ 0) : 0 < x.frac.toNat := by
  rw [Nat.pos_iff_ne_zero, ne_eq, ← UInt64.toNat_zero, UInt64.toNat_inj]
  exact nonzero

theorem value_pos (nonzero : x.frac ≠ 0) : 0 < x.value := by
  have frac : (0 : ℚ) < x.frac.toNat := by exact_mod_cast toNat_frac_pos nonzero
  rw [value]
  positivity

theorem frac_ne_zero_of_value_pos (h : 0 < x.value) : x.frac ≠ 0 := by
  intro zero
  simp [value, zero] at h

/-- A number other than zero is at least one unit of its last place. -/
theorem two_zpow_exp_le (positive : 0 < x.value) : 2 ^ x.exp ≤ x.value := by
  have unit : (0 : ℚ) < 2 ^ x.exp := by positivity
  have frac : (1 : ℚ) ≤ x.frac.toNat := by
    rw [value, mul_pos_iff_of_pos_right unit] at positive
    exact_mod_cast positive
  rw [value]
  exact le_mul_of_one_le_left unit.le frac

theorem exp_neg (positive : 0 < x.value) (below : x.value < 1) : x.exp < 0 := by
  have unit := lt_of_le_of_lt (two_zpow_exp_le positive) below
  rw [← zpow_zero (2 : ℚ)] at unit
  exact (zpow_lt_zpow_iff_right₀ (by norm_num)).mp unit

theorem exp_lt (positive : 0 < x.value) (value_lt : x.value < 2 ^ 1024) : x.exp < 1024 := by
  have power := lt_of_le_of_lt (two_zpow_exp_le positive) value_lt
  rw [← zpow_natCast] at power
  exact (zpow_lt_zpow_iff_right₀ (by norm_num)).mp power

/-- A number from the smallest one of the 64-bit format on has no bit far below
that. -/
theorem neg_lt_exp (least : 2 ^ (-1074 : ℤ) ≤ x.value) : -1138 < x.exp := by
  have unit : (0 : ℚ) < 2 ^ x.exp := by positivity
  have word : (x.frac.toNat : ℚ) < 2 ^ (64 : ℤ) := by exact_mod_cast x.frac.toNat_lt
  have power : (2 : ℚ) ^ (-1074 : ℤ) < 2 ^ (64 + x.exp) := by
    rw [zpow_add₀ (by norm_num)]
    exact least.trans_lt (mul_lt_mul_of_pos_right word unit)
  have exponent := (zpow_lt_zpow_iff_right₀ (by norm_num)).mp power
  omega

end ExtFloat

/-- The float is a number of the 64-bit format. -/
structure ExtFloat.IsInRange (x : ExtFloat) : Prop where
  frac_pos : 0 < x.frac.toNat
  frac_lt : x.frac.toNat < 2 ^ 53
  le_exp : -1074 ≤ x.exp
  value_lt : x.value < 2 ^ 1024

theorem ExtFloat.IsInRange.value_pos {x : ExtFloat} (h : x.IsInRange) : 0 < x.value := by
  have frac : (0 : ℚ) < x.frac.toNat := by exact_mod_cast h.frac_pos
  rw [value]
  positivity

/-- A finite magnitude other than zero decodes to a number of the 64-bit
format. -/
theorem FloatFormat.IsSupported.isInRange {f : FloatFormat} (h : f.IsSupported) {n : Nat}
    {x : ExtFloat} (nonzero : n ≠ 0) (finite : n < f.maxField * 2 ^ f.mantissaBits)
    (frac : x.frac.toNat = f.fracAt n) (exp : x.exp = f.expAt n) : x.IsInRange := by
  have mantissa := h.mantissaBits_le
  have frac_lt := f.fracAt_lt n
  refine ⟨?_, ?_, ?_, ?_⟩
  · rw [frac, fracAt]
    split
    · omega
    · exact Nat.add_pos_left (Nat.two_pow_pos _) _
  · rw [frac]
    exact Nat.lt_of_lt_of_le frac_lt (Nat.pow_le_pow_right (by decide) (by omega))
  · rw [exp]
    exact le_trans h.neg_le_lowestExp (f.lowestExp_le_expAt n)
  · have top := h.expAt_le finite
    have frac_lt' : (f.fracAt n : ℚ) < 2 ^ (f.mantissaBits + 1) := by exact_mod_cast frac_lt
    rw [ExtFloat.value, frac, exp]
    calc
      (f.fracAt n : ℚ) * 2 ^ f.expAt n < 2 ^ (f.mantissaBits + 1) * 2 ^ f.expAt n := by
        gcongr
      _ = 2 ^ ((f.mantissaBits + 1 : ℕ) + f.expAt n) := by
        rw [zpow_add₀ (by norm_num), zpow_natCast]
      _ ≤ 2 ^ ((1024 : ℕ) : ℤ) := by
        apply zpow_le_zpow_right₀ (by norm_num)
        push_cast
        omega
      _ = 2 ^ 1024 := zpow_natCast _ _

end RadixText
