import Mathlib.Data.Nat.Log
import Mathlib.Tactic.Ring
import RadixText.Numeral.Count
import RadixText.Word.Halves

/-!
# Digit counts

The long division of the limbs is exact, so the count of divisions is the
number of digits of the largest number of the width.
-/

namespace RadixText.Numeral

/-- The number that limbs denote, the top one first. -/
def limbsValue : List UInt32 → Nat
  | [] => 0
  | limb :: limbs => limb.toNat * 4294967296 ^ limbs.length + limbsValue limbs

theorem length_divideLimbs (radix : UInt32) (rest : UInt64) (limbs : List UInt32) :
    (divideLimbs radix rest limbs).length = limbs.length := by
  induction limbs generalizing rest with
  | nil => rfl
  | cons limb limbs ih => rw [divideLimbs, List.length_cons, List.length_cons, ih]

/-- Long division from a remainder below the radix is exact. -/
theorem limbsValue_divideLimbs {radix : UInt32} {rest : UInt64} (limbs : List UInt32)
    (h : rest.toNat < radix.toNat) :
    limbsValue (divideLimbs radix rest limbs) =
      (rest.toNat * 4294967296 ^ limbs.length + limbsValue limbs) / radix.toNat := by
  have radixWord := radix.toNat_lt
  have positive : 0 < radix.toNat := Nat.zero_lt_of_lt h
  induction limbs generalizing rest with
  | nil => simpa [divideLimbs, limbsValue] using (Nat.div_eq_of_lt h).symm
  | cons limb limbs ih =>
      have limbWord := limb.toNat_lt
      have dividend : ((rest <<< 32) ||| limb.toUInt64).toNat =
          rest.toNat * 4294967296 + limb.toNat :=
        Word.toNat_ofHalves (by omega) (by simpa using limbWord)
      have quotient : (rest.toNat * 4294967296 + limb.toNat) / radix.toNat < 4294967296 := by
        rw [Nat.div_lt_iff_lt_mul positive]
        have := Nat.mul_le_mul_right 4294967296 h
        rw [Nat.mul_comm 4294967296]
        omega
      have remainder : (((rest <<< 32) ||| limb.toUInt64) % radix.toUInt64).toNat =
          (rest.toNat * 4294967296 + limb.toNat) % radix.toNat := by
        rw [UInt64.toNat_mod, dividend, UInt32.toNat_toUInt64]
      rw [divideLimbs, limbsValue, ih (by rw [remainder]; exact Nat.mod_lt _ positive), remainder,
        length_divideLimbs, UInt64.toNat_toUInt32, UInt64.toNat_div, dividend,
        UInt32.toNat_toUInt64, Nat.mod_eq_of_lt quotient]
      have whole : rest.toNat * 4294967296 ^ (limbs.length + 1) +
          (limb.toNat * 4294967296 ^ limbs.length + limbsValue limbs) =
          radix.toNat * ((rest.toNat * 4294967296 + limb.toNat) / radix.toNat *
              4294967296 ^ limbs.length) +
            ((rest.toNat * 4294967296 + limb.toNat) % radix.toNat * 4294967296 ^ limbs.length +
              limbsValue limbs) := by
        calc
          _ = (rest.toNat * 4294967296 + limb.toNat) * 4294967296 ^ limbs.length +
              limbsValue limbs := by ring
          _ = (radix.toNat * ((rest.toNat * 4294967296 + limb.toNat) / radix.toNat) +
                (rest.toNat * 4294967296 + limb.toNat) % radix.toNat) *
              4294967296 ^ limbs.length + limbsValue limbs := by rw [Nat.div_add_mod]
          _ = _ := by ring
      rw [limbsValue, List.length_cons, whole, Nat.mul_add_div positive]

theorem limbsValue_eq_zero_iff (limbs : List UInt32) :
    limbsValue limbs = 0 ↔ limbs.all (· == 0) = true := by
  induction limbs with
  | nil => simp [limbsValue]
  | cons limb limbs ih =>
      have zero : limb.toNat = 0 ↔ limb = 0 := by
        rw [← UInt32.toNat_inj]
        rfl
      simp [limbsValue, ih, zero]

/-- The count is one more than the rounded down logarithm. -/
theorem countDivisions_eq_log {radix : UInt32} (hr : 2 ≤ radix.toNat) {fuel : Nat}
    (hf : fuel ≠ 0) {limbs : List UInt32} (h : limbsValue limbs < radix.toNat ^ fuel) :
    countDivisions radix fuel limbs = Nat.log radix.toNat (limbsValue limbs) + 1 := by
  induction fuel generalizing limbs with
  | zero => exact absurd rfl hf
  | succ fuel ih =>
      have positive : 0 < radix.toNat := by omega
      have value : limbsValue (divideLimbs radix 0 limbs) = limbsValue limbs / radix.toNat := by
        rw [limbsValue_divideLimbs limbs (by simpa using positive)]
        simp
      rw [countDivisions]
      by_cases small : limbsValue limbs < radix.toNat
      · have empty := (limbsValue_eq_zero_iff _).mp (value.trans (Nat.div_eq_of_lt small))
        rw [if_pos empty, Nat.log_of_lt small]
      · have large : radix.toNat ≤ limbsValue limbs := Nat.le_of_not_lt small
        have left : ¬ (divideLimbs radix 0 limbs).all (· == 0) = true := by
          rw [← limbsValue_eq_zero_iff, value]
          exact Nat.ne_of_gt (Nat.div_pos large positive)
        have shorter : limbsValue (divideLimbs radix 0 limbs) < radix.toNat ^ fuel := by
          rw [value, Nat.div_lt_iff_lt_mul positive, ← pow_succ]
          exact h
        have fueled : fuel ≠ 0 := by
          rintro rfl
          rw [zero_add, pow_one] at h
          exact small h
        rw [if_neg left, ih fueled shorter, value, Nat.log_of_one_lt_of_le hr large, Nat.add_comm]

theorem limbsValue_onesLimbs {bits : Nat} (h : bits ≤ 128) :
    limbsValue (onesLimbs bits) = 2 ^ bits - 1 := by
  have all : ∀ bits < 129, limbsValue (onesLimbs bits) = 2 ^ bits - 1 := by decide +kernel
  exact all bits (Nat.lt_succ_of_le h)

/-- The digit count of a width is that of its largest number. -/
theorem maxDigits_eq_log {bits : Nat} {radix : UInt32} (hb : bits ≤ 128) (hr : 2 ≤ radix.toNat) :
    maxDigits bits radix = .ok (Nat.log radix.toNat (2 ^ bits - 1) + 1) := by
  have bound : limbsValue (onesLimbs bits) < radix.toNat ^ 128 := by
    rw [limbsValue_onesLimbs hb]
    calc
      2 ^ bits - 1 < 2 ^ bits := Nat.sub_lt (Nat.two_pow_pos bits) Nat.one_pos
      _ ≤ 2 ^ 128 := Nat.pow_le_pow_right (by decide) hb
      _ ≤ radix.toNat ^ 128 := Nat.pow_le_pow_left hr 128
  have radixKept : 2 ≤ radix := UInt32.le_iff_toNat_le.mpr hr
  rw [maxDigits, Precondition.require_of_kept _ hb, Precondition.require_of_kept _ radixKept,
    countDivisions_eq_log hr (by decide) bound, limbsValue_onesLimbs hb]
  rfl

/-- No number has more digits than bits. -/
theorem log_add_one_le_bits {bits radix : Nat} (hb : bits ≠ 0) (hr : 2 ≤ radix) :
    Nat.log radix (2 ^ bits - 1) + 1 ≤ bits := by
  apply Nat.log_lt_of_lt_pow
  · have := Nat.one_lt_two_pow hb
    omega
  · calc
      2 ^ bits - 1 < 2 ^ bits := Nat.sub_lt (Nat.two_pow_pos bits) Nat.one_pos
      _ ≤ radix ^ bits := Nat.pow_le_pow_left hr bits

end RadixText.Numeral
