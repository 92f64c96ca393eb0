import RadixText.ExtFloat.Midpoints
import RadixText.Proofs.Floats
import RadixText.Proofs.Normalization

/-!
# Midpoints to the neighbours

The upper midpoint of a number of a format is where the reach above of its
neighbourhood ends. So is the lower one for the reach below, except at the
lowest normal number: its fraction is that of a binade's lowest number, but
the numbers below it lie as far apart as those above.
-/

namespace RadixText

namespace ExtFloat

variable {x y : ExtFloat} {k : Nat}

/-- How many bits the lower midpoint has behind the last one of the float. -/
def lowerShift (x : ExtFloat) (mantissaBits : Nat) : Nat :=
  if x.frac = 1 <<< UInt64.ofNat mantissaBits then 2 else 1

theorem ofInt_natCast {n : Nat} (h : n < 64) : UInt64.ofInt n = UInt64.ofNat n := by
  have small : (n : Int) % 2 ^ 64 = n := Int.emod_eq_of_lt (by omega) (by omega)
  rw [UInt64.ofInt, small, Int.toNat_natCast]

/-- One less than the fraction shifted up by some bits, shifted up further. -/
theorem toNat_lowerFraction {s n : Nat} (nonzero : x.frac ≠ 0) (bits : s + n < 64)
    (fits : x.frac.toNat * 2 ^ (s + n) < 2 ^ 64) :
    ((x.frac <<< UInt64.ofNat s - 1) <<< UInt64.ofNat n).toNat =
      (x.frac.toNat * 2 ^ s - 1) * 2 ^ n := by
  rw [pow_add, ← Nat.mul_assoc] at fits
  have word : x.frac.toNat * 2 ^ s < UInt64.size :=
    Nat.lt_of_le_of_lt (Nat.le_mul_of_pos_right _ (Nat.two_pow_pos n)) fits
  have shifted : (x.frac <<< UInt64.ofNat s).toNat = x.frac.toNat * 2 ^ s := by
    rw [Words.toNat_shiftLeft (by omega), Nat.mod_eq_of_lt word]
  have one : 1 ≤ x.frac.toNat * 2 ^ s :=
    Nat.mul_pos (toNat_frac_pos nonzero) (Nat.two_pow_pos s)
  have less : (x.frac <<< UInt64.ofNat s - 1).toNat = x.frac.toNat * 2 ^ s - 1 := by
    rw [UInt64.toNat_sub_of_le _ _ (by rwa [UInt64.le_iff_toNat_le, shifted]), shifted]
    rfl
  rw [Words.toNat_shiftLeft (by omega), less, Nat.mod_eq_of_lt]
  exact Nat.lt_of_le_of_lt (Nat.mul_le_mul_right _ (Nat.sub_le _ 1)) fits

/-- The upper midpoint before it is normalized. -/
def halfAbove (x : ExtFloat) : ExtFloat := ⟨(x.frac <<< 1) + 1, x.exp - 1⟩

theorem toNat_halfAbove (small : x.frac.toNat < 2 ^ 53) :
    x.halfAbove.frac.toNat = 2 * x.frac.toNat + 1 := by
  have shifted : (x.frac <<< 1).toNat = x.frac.toNat * 2 ^ 1 % UInt64.size :=
    Words.toNat_shiftLeft (n := 1) (by decide)
  rw [halfAbove, UInt64.toNat_add, shifted, Words.size_eq]
  change (_ + 1) % _ = _
  omega

theorem value_halfAbove (small : x.frac.toNat < 2 ^ 53) :
    x.halfAbove.value = x.value + 2 ^ (x.exp - 1) := by
  rw [value, value, toNat_halfAbove small, halfAbove, zpow_sub_one₀ (by norm_num)]
  push_cast
  ring

/-- The upper midpoint has a spare bit to shift its fraction up by. -/
theorem halfAbove_raisedBy (small : x.frac.toNat < 2 ^ 53) :
    ∃ n, x.halfAbove.RaisedBy x.halfAbove.normalize n ∧ 1 ≤ n ∧
      2 ^ 63 ≤ x.halfAbove.normalize.frac.toNat := by
  have odd := toNat_halfAbove small
  have nonzero : x.halfAbove.frac ≠ 0 := by
    rw [ne_eq, ← UInt64.toNat_inj, odd]
    exact Nat.succ_ne_zero _
  obtain ⟨n, raised, large⟩ := normalize_raisedBy nonzero
  refine ⟨n, raised, Nat.one_le_iff_ne_zero.mpr ?_, large⟩
  rintro rfl
  rw [raised.1, odd] at large
  omega

/-- The midpoints lie half a unit of the last place above, and half a unit or
a quarter of one below. -/
theorem midpoints_values (nonzero : x.frac ≠ 0) (small : x.frac.toNat < 2 ^ 53) :
    ∃ lower upper, x.midpoints k = .ok (lower, upper) ∧ lower.exp = upper.exp ∧
      2 ^ 63 ≤ upper.frac.toNat ∧ upper.value = x.value + 2 ^ (x.exp - 1) ∧
      lower.value = x.value - 2 ^ (x.exp - x.lowerShift k) := by
  obtain ⟨n, raised, spare, large⟩ := halfAbove_raisedBy small
  obtain ⟨s, shift, one, two⟩ : ∃ s, x.lowerShift k = s ∧ 1 ≤ s ∧ s ≤ 2 := by
    refine ⟨_, rfl, ?_⟩
    rw [lowerShift]
    split <;> decide
  obtain ⟨m, bits⟩ : ∃ m, s + m = n + 1 := ⟨n + 1 - s, by omega⟩
  have exp : x.halfAbove.normalize.exp = x.exp - s - m := by
    rw [raised.2]
    change x.exp - 1 - n = _
    omega
  have fits : x.frac.toNat * 2 ^ (s + m) < 2 ^ 64 := by
    have word := x.halfAbove.normalize.frac.toNat_lt
    rw [raised.1, toNat_halfAbove small, Nat.add_mul, Nat.one_mul] at word
    rw [bits, pow_succ, Nat.mul_comm _ 2, ← Nat.mul_assoc, Nat.mul_comm _ 2]
    exact Nat.lt_of_le_of_lt (Nat.le_add_right _ _) word
  have few : s + m < 64 := by
    apply (Nat.pow_lt_pow_iff_right (a := 2) (by decide)).mp
    exact Nat.lt_of_le_of_lt (Nat.le_mul_of_pos_left _ (toNat_frac_pos nonzero)) fits
  have frac := toNat_lowerFraction nonzero few fits
  have positive : 1 ≤ x.frac.toNat * 2 ^ s :=
    Nat.mul_pos (toNat_frac_pos nonzero) (Nat.two_pow_pos s)
  refine ⟨⟨(x.frac <<< UInt64.ofNat s - 1) <<< UInt64.ofNat m, x.halfAbove.normalize.exp⟩,
    x.halfAbove.normalize, ?_, rfl, large, raised.value_eq.trans (value_halfAbove small), ?_⟩
  · have distance : x.exp - s - x.halfAbove.normalize.exp = m := by omega
    rw [midpoints, Precondition.require_of_kept _ nonzero]
    change Except.ok _ = _
    rw [← shift, ← ofInt_natCast (n := m) (by omega), ← distance, ← shift]
    rfl
  · rw [shift, value, value, exp, frac, zpow_sub₀ (by norm_num) (x.exp - s),
      zpow_sub₀ (by norm_num) x.exp]
    push_cast [Nat.cast_sub positive, zpow_natCast]
    field_simp

end ExtFloat

namespace FloatFormat

variable {f : FloatFormat} {n : Nat} {x : ExtFloat} {bits : UInt64}

/-- Only the lowest normal number has the fraction of a binade's lowest number
and the exponent of the smallest numbers. -/
theorem fracAt_expAt_lowest_iff :
    f.fracAt n = 2 ^ f.mantissaBits ∧ f.expAt n = f.lowestExp ↔ n = 2 ^ f.mantissaBits := by
  have power := Nat.two_pow_pos f.mantissaBits
  rw [fracAt, expAt]
  constructor
  · rintro ⟨frac, exp⟩
    have split := Nat.div_add_mod n (2 ^ f.mantissaBits)
    generalize n / 2 ^ f.mantissaBits = field at frac exp split
    split at frac
    case isTrue subnormal => exact frac
    case isFalse normal =>
      obtain rfl : field = 1 := by omega
      omega
  · rintro rfl
    rw [Nat.div_self power, Nat.mod_self, if_neg Nat.one_ne_zero]
    exact ⟨rfl, Int.add_zero _⟩

/-- The lower midpoint reaches as far down as the neighbourhood. Only that of
the lowest normal number reaches one bit less. -/
theorem sub_lowerShift (h : f.IsSupported) (frac : x.frac.toNat = f.fracAt n)
    (exp : x.exp = f.expAt n) :
    x.exp - x.lowerShift f.mantissaBits =
      (Neighbourhood.ofFormat f x).below - if n = 2 ^ f.mantissaBits then 1 else 0 := by
  have hidden : x.frac = f.hiddenBit ↔ f.fracAt n = 2 ^ f.mantissaBits := by
    rw [← UInt64.toNat_inj, frac, h.toNat_hiddenBit]
  have lowest := f.lowestExp_le_expAt n
  have shift : x.lowerShift f.mantissaBits = if x.frac = f.hiddenBit then 2 else 1 := rfl
  simp only [shift, Neighbourhood.below, Neighbourhood.ofFormat, decide_eq_true_eq, hidden,
    ← fracAt_expAt_lowest_iff (f := f) (n := n), exp]
  split_ifs <;> omega

/-- The upper midpoint of a number other than zero is that to the next number,
and the lower one that to the number below. The lowest normal number is the
only exception, whose lower midpoint is only half as far away. -/
theorem midpoints_between_neighbours (h : f.IsSupported) (number : f.IsNonzero bits) :
    ∃ x lower upper, ExtFloat.ofBits f (f.magnitude bits) = .ok x ∧
      x.value = f.absoluteValue bits ∧ x.midpoints f.mantissaBits = .ok (lower, upper) ∧
      lower.exp = upper.exp ∧ 2 ^ 63 ≤ upper.frac.toNat ∧
      upper.value = f.midpointAbove (f.magnitude bits).toNat ∧
      upper.value = x.value + (Neighbourhood.ofFormat f x).reachAbove ∧
      f.midpointAbove ((f.magnitude bits).toNat - 1) =
        x.value - (Neighbourhood.ofFormat f x).reachBelow ∧
      lower.value = x.value - (Neighbourhood.ofFormat f x).reachBelow /
        if (f.magnitude bits).toNat = 2 ^ f.mantissaBits then 2 else 1 := by
  have magnitude := h.toNat_magnitude_lt number.inFormat
  obtain ⟨x, decoded, frac, exp⟩ := h.ofBits_eq magnitude number.finite
  have range := h.isInRange number.toNat_ne_zero
    ((h.isFinite_iff magnitude).mp number.finite) frac exp
  have nonzero := ExtFloat.frac_ne_zero_of_value_pos range.value_pos
  obtain ⟨lower, upper, made, same, large, above, below⟩ :=
    ExtFloat.midpoints_values (k := f.mantissaBits) nonzero range.frac_lt
  have upward := midpointAbove_eq_add_reach frac exp
  refine ⟨x, lower, upper, decoded, f.value_eq_numberAt frac exp, made, same, large,
    above.trans upward.symm, above,
    midpointAbove_pred_eq_sub_reach h number.toNat_ne_zero frac exp, ?_⟩
  rw [below, sub_lowerShift h frac exp, Neighbourhood.reachBelow]
  split
  · rw [zpow_sub_one₀ (by norm_num), div_eq_mul_inv]
  · rw [Int.sub_zero, div_one]

/-- The smallest number of the 32-bit format lies half way between its
midpoints. -/
theorem smallest_between_midpoints :
    binary32.IsSupported ∧ binary32.IsNonzero 1 ∧ ∃ x lower upper,
      ExtFloat.ofBits binary32 (binary32.magnitude 1) = .ok x ∧
      x.midpoints 23 = .ok (lower, upper) ∧
      upper.value = binary32.midpointAbove 1 ∧ lower.value = binary32.midpointAbove 0 := by
  have number : binary32.IsNonzero 1 := ⟨by decide, by decide, by decide⟩
  have magnitude : (binary32.magnitude 1).toNat = 1 := by decide
  obtain ⟨x, lower, upper, decoded, -, made, -, -, above, -, reach, below⟩ :=
    midpoints_between_neighbours isSupported_binary32 number
  rw [magnitude] at above reach below
  refine ⟨isSupported_binary32, number, x, lower, upper, decoded, made, above, ?_⟩
  rw [below, if_neg (by decide), div_one]
  exact reach.symm

/-- The lower midpoint of the lowest normal number of the 32-bit format is not
half way to the number below, which lies twice as far away. -/
theorem lowest_normal_midpoint_too_close : ∃ x lower upper,
    ExtFloat.ofBits binary32 0x00800000 = .ok x ∧ x.midpoints 23 = .ok (lower, upper) ∧
    x.value - lower.value = 2 ^ (-151 : ℤ) ∧
    x.value - binary32.midpointAbove (0x00800000 - 1) = 2 ^ (-150 : ℤ) := by
  have frac : UInt64.toNat 0x00800000 = 2 ^ 23 := rfl
  have lower : UInt64.toNat 0x7fffffc000000000 = (2 ^ 25 - 1) * 2 ^ 38 := rfl
  refine ⟨⟨0x00800000, -149⟩, ⟨0x7fffffc000000000, -189⟩, ⟨0x8000008000000000, -189⟩, by decide,
    by decide, ?_, ?_⟩
  · rw [ExtFloat.value, ExtFloat.value, frac, lower]
    norm_num
  · rw [ExtFloat.value, frac]
    norm_num [midpointAbove, numberAt, binary32, lowestExp, bias]

end FloatFormat

end RadixText
