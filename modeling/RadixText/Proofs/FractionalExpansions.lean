import RadixText.Expansion.Generate
import RadixText.Proofs.Expansions
import RadixText.Proofs.FractionDigits

/-!
# Expansions of floats with a fraction

A float with an exponent from zero down is split into a whole part and a
fraction, and the digits of the fraction are found on the scale of the reach
below. A carry out of the fraction raises the whole part.
-/

namespace RadixText.Expansion

variable {r : Radix}

/-- The two ways in which the digits of a fraction end, as numbers between zero
and one. -/
theorem EndsAt.down_or_up {scale fraction above below place : Nat} {result : List Nat × Bool}
    {up : Bool} (h : EndsAt r scale fraction above below result place up) :
    let digits : ℚ := scaledValue r result / r.val ^ result.1.length
    let number : ℚ := fraction / 2 ^ scale
    digits ≤ number ∧ number < digits + below / 2 ^ scale ∧
        number < digits + 1 / r.val ^ result.1.length ∨
      number < digits ∧ digits < number + above / 2 ^ scale ∧
        digits < number + 1 / r.val ^ result.1.length ∧ result.1.head? ≠ some 0 := by
  have unit : (0 : ℚ) < 2 ^ scale := by positivity
  have place := r.cast_val_pow_pos result.1.length
  intro digits number
  -- All comparisons are made on the common scale of both fractions.
  rcases h.rounded with ⟨le, reach, near⟩ | ⟨lt, reach, near, last_ne⟩
  · left
    refine ⟨?_, ?_, ?_⟩
    · rw [div_le_div_iff₀ place unit]
      exact_mod_cast le
    · rw [← sub_lt_iff_lt_add, ← sub_div, div_lt_div_iff₀ unit place, sub_mul, sub_lt_iff_lt_add]
      exact_mod_cast reach
    · rw [← add_div, div_lt_div_iff₀ unit place]
      exact_mod_cast near
  · right
    refine ⟨?_, ?_, ?_, last_ne⟩
    · rw [div_lt_div_iff₀ unit place]
      exact_mod_cast lt
    · rw [← add_div, div_lt_div_iff₀ place unit]
      exact_mod_cast reach
    · rw [← sub_lt_iff_lt_add, ← sub_div, div_lt_div_iff₀ place unit, sub_mul, one_mul,
        sub_lt_iff_lt_add]
      exact_mod_cast near

variable {x : ExtFloat} {hood : Neighbourhood}

/-- Shifting and masking divide the fraction by the power of two. -/
theorem toNat_parts (nonpos : x.exp ≤ 0) :
    (wholePart x).toNat = x.frac.toNat / 2 ^ (-x.exp).toNat ∧
      (fractionPart x).toNat = x.frac.toNat % 2 ^ (-x.exp).toNat := by
  rw [wholePart, fractionPart]
  by_cases inWord : -64 < x.exp
  · have bits : (-x.exp).toNat < 64 := by omega
    rw [if_pos inWord, if_pos inWord, Words.toNat_shiftRight bits, Words.toNat_and_mask bits]
    exact ⟨rfl, rfl⟩
  · have small : x.frac.toNat < 2 ^ (-x.exp).toNat :=
      Nat.lt_of_lt_of_le x.frac.toNat_lt (Nat.pow_le_pow_right (by decide) (by omega))
    rw [if_neg inWord, if_neg inWord, Nat.div_eq_of_lt small, Nat.mod_eq_of_lt small]
    exact ⟨rfl, rfl⟩

theorem value_eq_div (nonpos : x.exp ≤ 0) :
    x.value = (x.frac.toNat / 2 ^ (-x.exp).toNat : ℕ) +
      ((x.frac.toNat % 2 ^ (-x.exp).toNat : ℕ) : ℚ) / 2 ^ (-x.exp).toNat := by
  have exp : x.exp = -((-x.exp).toNat : ℤ) := by omega
  have split := Nat.div_add_mod x.frac.toNat (2 ^ (-x.exp).toNat)
  have power : (2 : ℚ) ^ (-x.exp).toNat ≠ 0 := by positivity
  have parts : (2 : ℚ) ^ (-x.exp).toNat * (x.frac.toNat / 2 ^ (-x.exp).toNat : ℕ) +
      (x.frac.toNat % 2 ^ (-x.exp).toNat : ℕ) = x.frac.toNat := by exact_mod_cast split
  rw [ExtFloat.value, exp, zpow_neg, zpow_natCast, ← exp, ← parts, ← div_eq_mul_inv, add_div,
    mul_div_cancel_left₀ _ power]

theorem whole_pos_of_one_le_value (nonpos : x.exp ≤ 0) (one : 1 ≤ x.value) :
    0 < x.frac.toNat / 2 ^ (-x.exp).toNat := by
  have unit : (0 : ℚ) < 2 ^ (-x.exp).toNat := by positivity
  have fraction : ((x.frac.toNat % 2 ^ (-x.exp).toNat : ℕ) : ℚ) / 2 ^ (-x.exp).toNat < 1 := by
    rw [div_lt_one unit]
    exact_mod_cast Nat.mod_lt _ (Nat.two_pow_pos _)
  rw [value_eq_div nonpos] at one
  have quotient_pos : (0 : ℚ) < (x.frac.toNat / 2 ^ (-x.exp).toNat : ℕ) := by linarith
  exact_mod_cast quotient_pos

/-- A whole part, raised by the carry of a fraction, and the fraction's digits. -/
def ofParts (r : Radix) (whole : Nat) (result : List Nat × Bool) : Expansion :=
  ⟨r.digits (whole + result.2.toNat), result.1.reverse⟩

/-- The exponent of the scale on which the digits of a fraction are found. -/
def unitExp (x : ExtFloat) (hood : Neighbourhood) : Int := min x.exp hood.below

/-- The bits of the scale. -/
def scaleBits (x : ExtFloat) (hood : Neighbourhood) : Nat := (-unitExp x hood).toNat

/-- The part of a float behind the point on the scale. -/
def scaledFraction (x : ExtFloat) (hood : Neighbourhood) : Nat :=
  x.frac.toNat % 2 ^ (-x.exp).toNat * 2 ^ (x.exp - unitExp x hood).toNat

/-- The digits of a float's fraction end on the scale of its last bit or of the
reach below. -/
def EndsIn (r : Radix) (x : ExtFloat) (hood : Neighbourhood) (result : List Nat × Bool)
    (place : Nat) (up : Bool) : Prop :=
  EndsAt r (scaleBits x hood) (scaledFraction x hood) (2 ^ (hood.above - unitExp x hood).toNat)
    (2 ^ (hood.below - unitExp x hood).toNat) result place up

/-- All quantities of a fraction have room for their bits on its scale. -/
structure HasRoom (x : ExtFloat) (hood : Neighbourhood) : Prop where
  exp : (x.exp - unitExp x hood).toNat / 64 + 2 ≤ Bignum.room
  above : (hood.above - unitExp x hood).toNat / 64 + 2 ≤ Bignum.room
  below : (hood.below - unitExp x hood).toNat / 64 + 2 ≤ Bignum.room

theorem scaleBits_eq (nonpos : x.exp ≤ 0) :
    scaleBits x hood = (-x.exp).toNat + (x.exp - unitExp x hood).toNat := by
  have le : unitExp x hood ≤ x.exp := min_le_left _ _
  rw [scaleBits]
  omega

theorem scaledFraction_lt (nonpos : x.exp ≤ 0) : scaledFraction x hood < 2 ^ scaleBits x hood := by
  rw [scaledFraction, scaleBits_eq nonpos, pow_add]
  exact Nat.mul_lt_mul_of_pos_right (Nat.mod_lt _ (Nat.two_pow_pos _)) (Nat.two_pow_pos _)

/-- The reach above is at most twice the reach below on every scale. -/
theorem two_pow_above_le (x : ExtFloat) (hood : Neighbourhood) :
    2 ^ (hood.above - unitExp x hood).toNat ≤ 2 * 2 ^ (hood.below - unitExp x hood).toNat := by
  have order := hood.above_le_below_add_one
  rw [← pow_succ']
  exact Nat.pow_le_pow_right (by decide) (by omega)

/-- The places are enough to tell every reach from one. -/
theorem two_pow_scale_le (r : Radix) (le_below : -1088 ≤ hood.below) :
    2 ^ scaleBits x hood ≤ 2 ^ (hood.below - unitExp x hood).toNat * r.val ^ places := by
  have le : unitExp x hood ≤ hood.below := min_le_right _ _
  calc
    2 ^ scaleBits x hood ≤ 2 ^ ((hood.below - unitExp x hood).toNat + places) :=
      Nat.pow_le_pow_right (by decide) (by simp only [scaleBits, places]; omega)
    _ = 2 ^ (hood.below - unitExp x hood).toNat * 2 ^ places := pow_add _ _ _
    _ ≤ 2 ^ (hood.below - unitExp x hood).toNat * r.val ^ places :=
      Nat.mul_le_mul_left _ (r.two_pow_le _)

/-- A carry out of the fraction leaves the whole part within its word. -/
theorem toNat_raised_wholePart (nonpos : x.exp ≤ 0) {result : List Nat × Bool} {place : Nat}
    {up : Bool} (h : EndsIn r x hood result place up) :
    (if result.2 = true then wholePart x + 1 else wholePart x).toNat =
      x.frac.toNat / 2 ^ (-x.exp).toNat + result.2.toNat := by
  obtain ⟨whole, -⟩ := toNat_parts nonpos
  cases carry : result.2 with
  | false => exact whole
  | true =>
      have negative : x.exp ≠ 0 := by
        intro zero
        rw [EndsIn, scaledFraction, zero, Int.neg_zero, Int.toNat_zero, pow_zero, Nat.mod_one,
          Nat.zero_mul] at h
        rw [h.carry_eq_false] at carry
        cases carry
      have part : x.frac.toNat / 2 ^ (-x.exp).toNat ≤ x.frac.toNat / 2 ^ 1 :=
        Nat.div_le_div_left (Nat.pow_le_pow_right (by decide) (by omega)) (by decide)
      have word := x.frac.toNat_lt
      rw [if_pos rfl, UInt64.toNat_add, whole, UInt64.toNat_one, Bool.toNat_true]
      omega

/-- With room for its bits, a float with an exponent from zero down has digits
that end in the places. -/
theorem ofFractional_eq (nonpos : x.exp ≤ 0) (le_exp : -1145 ≤ x.exp)
    (le_below : -1088 ≤ hood.below) (room : HasRoom x hood) (r : Radix) :
    ∃ result place up, EndsIn r x hood result place up ∧ place ≤ places ∧
      ofFractional x hood r = .ok (ofParts r (x.frac.toNat / 2 ^ (-x.exp).toNat) result) := by
  obtain ⟨rest, restMade, restValue⟩ := Bignum.ofShifted_denotes (fractionPart x) _ room.exp
  obtain ⟨up, upMade, upValue⟩ := Bignum.ofShifted_denotes 1 _ room.above
  obtain ⟨down, downMade, downValue⟩ := Bignum.ofShifted_denotes 1 _ room.below
  rw [(toNat_parts nonpos).2] at restValue
  rw [UInt64.toNat_one, Nat.one_mul] at upValue downValue
  have size : scaleBits x hood ≤ 1145 := by
    rw [scaleBits, unitExp]
    omega
  obtain ⟨result, place, raised, found, ends, length⟩ := fractionDigits_endsAt
    (two_pow_above_le x hood) (Nat.two_pow_pos _) size
    (Remainder.follows_nil (s := ⟨rest, up, down⟩) restValue upValue downValue
      (scaledFraction_lt nonpos)) (by simp)
    (by simpa using two_pow_scale_le r le_below)
  refine ⟨result, place, raised, ends, by simpa using length, ?_⟩
  have whole := toNat_raised_wholePart nonpos ends
  simp only [scaleBits, unitExp] at restMade upMade downMade found
  simp only [ofFractional, restMade, upMade, downMade, found, bind, Except.bind, pure,
    Except.pure, whole, ofParts]

/-- Without room for its bits a promise is broken. -/
theorem ofFractional_of_not_hasRoom (h : ¬ HasRoom x hood) (r : Radix) :
    ofFractional x hood r = .error (.broken .shiftInRange) := by
  have unit : min x.exp hood.below = unitExp x hood := rfl
  simp only [ofFractional, unit, bind, Except.bind]
  by_cases exp : (x.exp - unitExp x hood).toNat / 64 + 2 ≤ Bignum.room
  · obtain ⟨rest, restMade, -⟩ := Bignum.ofShifted_denotes (fractionPart x) _ exp
    rw [restMade]
    by_cases above : (hood.above - unitExp x hood).toNat / 64 + 2 ≤ Bignum.room
    · obtain ⟨up, upMade, -⟩ := Bignum.ofShifted_denotes 1 _ above
      have below : ¬ (hood.below - unitExp x hood).toNat / 64 + 2 ≤ Bignum.room :=
        fun below => h ⟨exp, above, below⟩
      rw [upMade, Bignum.ofShifted_of_not_room 1 below]
    · rw [Bignum.ofShifted_of_not_room 1 above]
  · rw [Bignum.ofShifted_of_not_room _ exp]

/-- On the scale the fraction and the reaches are those of the float. -/
theorem scaled_eq (hood : Neighbourhood) (nonpos : x.exp ≤ 0) :
    (scaledFraction x hood : ℚ) / 2 ^ scaleBits x hood =
        (x.frac.toNat % 2 ^ (-x.exp).toNat : ℕ) / 2 ^ (-x.exp).toNat ∧
      ((2 ^ (hood.above - unitExp x hood).toNat : ℕ) : ℚ) / 2 ^ scaleBits x hood =
        hood.reachAbove ∧
      ((2 ^ (hood.below - unitExp x hood).toNat : ℕ) : ℚ) / 2 ^ scaleBits x hood =
        hood.reachBelow := by
  have le_exp : unitExp x hood ≤ x.exp := min_le_left _ _
  have le_below : unitExp x hood ≤ hood.below := min_le_right _ _
  have order := hood.below_le_above
  have shifted {e : Int} (le : unitExp x hood ≤ e) :
      ((2 ^ (e - unitExp x hood).toNat : ℕ) : ℚ) / 2 ^ scaleBits x hood = 2 ^ e := by
    have exponent : e = ((e - unitExp x hood).toNat : ℤ) - (scaleBits x hood : ℤ) := by
      rw [scaleBits]
      omega
    conv_rhs => rw [exponent]
    rw [zpow_sub₀ (by norm_num), zpow_natCast, zpow_natCast]
    push_cast
    rfl
  refine ⟨?_, shifted (by omega), shifted le_below⟩
  rw [scaledFraction, scaleBits_eq nonpos, pow_add, Nat.cast_mul, Nat.cast_pow, Nat.cast_ofNat]
  exact mul_div_mul_right _ _ (by positivity)

theorem value_ofParts (whole : Nat) (result : List Nat × Bool) :
    (ofParts r whole result).value r =
      whole + scaledValue r result / r.val ^ result.1.length := by
  have place := (r.cast_val_pow_pos result.1.length).ne'
  rw [ofParts, Expansion.value, Radix.pointValue, Radix.ofDigits_digits, List.length_reverse,
    scaledValue]
  push_cast
  rw [add_div, mul_div_cancel_right₀ _ place]
  ring

/-- The digits behind the point follow on those in front of it. -/
theorem ofDigits_append_eq_value (e : Expansion) :
    (r.ofDigits (e.whole ++ e.fraction) : ℚ) = e.value r * r.val ^ e.fraction.length := by
  have place := (r.cast_val_pow_pos e.fraction.length).ne'
  rw [Expansion.value, Radix.pointValue, Radix.ofDigits_append, add_mul, div_mul_cancel₀ _ place]
  push_cast
  rfl

namespace EndsIn

variable {result : List Nat × Bool} {place : Nat} {up : Bool}

/-- The digits are rounded down or up within the reach on that side and within
one unit of the last place. -/
theorem down_or_up (h : EndsIn r x hood result place up) (nonpos : x.exp ≤ 0) :
    let v := (ofParts r (x.frac.toNat / 2 ^ (-x.exp).toNat) result).value r
    v ≤ x.value ∧ x.value < v + hood.reachBelow ∧ x.value < v + 1 / r.val ^ result.1.length ∨
      x.value < v ∧ v < x.value + hood.reachAbove ∧
        v < x.value + 1 / r.val ^ result.1.length ∧ result.1.head? ≠ some 0 := by
  obtain ⟨number, above, below⟩ := scaled_eq hood nonpos
  have cases := EndsAt.down_or_up h
  simp only [number, above, below] at cases
  rw [value_ofParts, value_eq_div nonpos]
  rcases cases with ⟨le, reach, unit⟩ | ⟨lt, reach, unit, last_ne⟩
  · left
    refine ⟨?_, ?_, ?_⟩ <;> linarith
  · right
    refine ⟨?_, ?_, ?_, last_ne⟩ <;> linarith

theorem reachBelow_mul_pow_lt (h : EndsIn r x hood result place up) (nonpos : x.exp ≤ 0)
    {k : Nat} (lt : k < result.1.length) : hood.reachBelow * r.val ^ k < 1 := by
  have bound : ((2 ^ (hood.below - unitExp x hood).toNat * r.val ^ k : ℕ) : ℚ) <
      2 ^ scaleBits x hood := by
    exact_mod_cast EndsAt.needed h lt
  rw [← (scaled_eq hood nonpos).2.2, div_mul_eq_mul_div, div_lt_one (by positivity)]
  simpa using bound

/-- There are digits behind the point only if the fraction is not below the
reach. -/
theorem reachBelow_le (h : EndsIn r x hood result place up) (nonpos : x.exp ≤ 0)
    (nonempty : result.1 ≠ []) : hood.reachBelow ≤ x.value := by
  obtain ⟨number, -, below⟩ := scaled_eq hood nonpos
  have unspent := EndsAt.stops h |>.unspent 0
    (Nat.lt_of_lt_of_le (List.length_pos_of_ne_nil nonempty) (EndsAt.length_le h))
  rw [SpentAt, restAt, pow_zero, Nat.mul_one, Nat.mul_one,
    Nat.mod_eq_of_lt (scaledFraction_lt nonpos), not_lt] at unspent
  have whole : (0 : ℚ) ≤ (x.frac.toNat / 2 ^ (-x.exp).toNat : ℕ) := Nat.cast_nonneg _
  rw [value_eq_div nonpos, ← number, ← below]
  refine le_trans ?_ (le_add_of_nonneg_left whole)
  gcongr

end EndsIn

/-- Digits that the reach below needs are few, as the number has few bits in
front of that reach. -/
theorem ofDigits_append_lt (range : x.IsInRange) (suits : hood.Suits x) (nonpos : x.exp ≤ 0)
    {e : Expansion} (above : e.value r < x.value + hood.reachAbove)
    (needed : ∀ k < e.fraction.length, hood.reachBelow * r.val ^ k < 1) :
    r.ofDigits (e.whole ++ e.fraction) < 2 ^ 55 * r.val := by
  have half := suits.two_mul_reachAbove_le range
  have bits := suits.value_le range
  have positive := hood.reachBelow_pos
  have total : e.value r < 2 ^ 55 * hood.reachBelow := by linarith
  have radix : (1 : ℚ) ≤ r.val := by exact_mod_cast r.val_pos
  have small : (r.ofDigits (e.whole ++ e.fraction) : ℚ) < (2 ^ 55 * r.val : ℕ) := by
    rw [ofDigits_append_eq_value]
    push_cast
    cases count : e.fraction.length with
    | zero =>
        have one : hood.reachBelow ≤ 1 := by
          rw [Neighbourhood.reachBelow]
          exact zpow_le_one_of_nonpos₀ (by norm_num) (by rcases suits.below_eq with h | h <;> omega)
        rw [pow_zero, mul_one]
        linarith
    | succ k =>
        have power := r.cast_val_pow_pos (k + 1)
        calc
          e.value r * r.val ^ (k + 1) < 2 ^ 55 * hood.reachBelow * r.val ^ (k + 1) := by gcongr
          _ = 2 ^ 55 * r.val * (hood.reachBelow * r.val ^ k) := by ring
          _ ≤ 2 ^ 55 * r.val * 1 := by
            gcongr
            exact (needed k (by omega)).le
          _ = 2 ^ 55 * r.val := mul_one _
  exact_mod_cast small

/-- In a radix that is a power of two, digits within the reaches and one unit
of the last place are those of the number. -/
theorem value_eq_of_close (suits : hood.Suits x) {e : Expansion} {k : Nat} (power : r.val = 2 ^ k)
    (below : x.value - hood.reachBelow < e.value r)
    (above : e.value r < x.value + hood.reachAbove)
    (last : |e.value r - x.value| < 1 / r.val ^ e.fraction.length) : e.value r = x.value := by
  have place := (r.cast_val_pow_pos e.fraction.length).ne'
  have base : 1 / (r.val : ℚ) ^ e.fraction.length = 2 ^ (-(k * e.fraction.length : ℤ)) := by
    rw [power, zpow_neg, Nat.cast_pow, Nat.cast_ofNat, ← pow_mul, one_div,
      ← zpow_natCast, Nat.cast_mul]
  have close : |e.value r - x.value| < 2 ^ x.exp := by
    have unit : (0 : ℚ) < 2 ^ x.exp := by positivity
    have reach := suits.reachAbove_eq
    have smaller := hood.reachBelow_le_reachAbove
    rw [abs_lt]
    constructor <;> linarith
  rw [base] at last
  refine eq_of_multiples ⟨r.ofDigits (e.whole ++ e.fraction), ?_⟩ ⟨x.frac.toNat, ?_⟩ last close
  · rw [← base, Int.cast_natCast, ofDigits_append_eq_value, mul_one_div,
      mul_div_cancel_right₀ _ place]
  · rw [ExtFloat.value, Int.cast_natCast]

/-- On the scale of the reach below there is always room. -/
theorem unitExp_of_suits (suits : hood.Suits x) : unitExp x hood = hood.below := by
  rw [unitExp]
  rcases suits.below_eq with ⟨eq, -⟩ | ⟨eq, -⟩ <;> omega

theorem ofFractional_suits (range : x.IsInRange) (suits : hood.Suits x) (nonpos : x.exp ≤ 0)
    (r : Radix) : ∃ result place up, EndsIn r x hood result place up ∧ place ≤ places ∧
      ofFractional x hood r = .ok (ofParts r (x.frac.toNat / 2 ^ (-x.exp).toNat) result) := by
  have above := suits.above_eq
  have le_exp := range.le_exp
  have below : x.exp - 2 ≤ hood.below ∧ hood.below ≤ hood.above := by
    rcases suits.below_eq with ⟨eq, -⟩ | ⟨eq, -⟩ <;> omega
  apply ofFractional_eq nonpos (by omega) (by omega)
  constructor <;> rw [unitExp_of_suits suits] <;> simp only [Bignum.room] <;> omega

/-- The digits that a fraction ends with are close to the number. -/
theorem EndsIn.isClose {result : List Nat × Bool} {place : Nat} {up : Bool}
    (ends : EndsIn r x hood result place up) (nonpos : x.exp ≤ 0) (length : place ≤ places) :
    (ofParts r (x.frac.toNat / 2 ^ (-x.exp).toNat) result).IsClose r x hood := by
  have cases := ends.down_or_up nonpos
  have count : result.1.reverse.length = result.1.length := List.length_reverse
  have below_pos := hood.reachBelow_pos
  have order := hood.reachBelow_le_reachAbove
  obtain ⟨below, above⟩ :
      x.value - hood.reachBelow < (ofParts r (x.frac.toNat / 2 ^ (-x.exp).toNat) result).value r ∧
      (ofParts r (x.frac.toNat / 2 ^ (-x.exp).toNat) result).value r <
        x.value + hood.reachAbove := by
    rcases cases with ⟨le, reach, -⟩ | ⟨lt, reach, -, -⟩
    · constructor <;> linarith
    · constructor <;> linarith
  refine ⟨by simp [ofParts], ?_, below, above, ?_, ?_, ?_, ?_, ?_⟩
  · intro d mem
    exact EndsAt.lt_radix ends d (List.mem_reverse.mp mem)
  · intro one
    have whole := whole_pos_of_one_le_value nonpos one
    simp only [ofParts, Radix.ofDigits_digits]
    omega
  · intro nonempty
    exact ends.reachBelow_le nonpos (mt List.reverse_eq_nil_iff.mpr nonempty)
  · intro _ exceeds
    rcases cases with ⟨le, -, -⟩ | ⟨-, -, near, last_ne⟩
    · exact absurd exceeds (not_lt.mpr le)
    · exact ⟨by simpa [ofParts] using near, by simpa [ofParts] using last_ne⟩
  · apply r.length_digits_le (by decide)
    have part := Nat.div_le_self x.frac.toNat (2 ^ (-x.exp).toNat)
    have word := x.frac.toNat_lt
    have carry := Bool.toNat_le result.2
    calc
      x.frac.toNat / 2 ^ (-x.exp).toNat + result.2.toNat < 2 ^ 65 := by omega
      _ ≤ 2 ^ places := Nat.pow_le_pow_right (by decide) (by decide)
      _ ≤ r.val ^ places := r.two_pow_le _
  · exact (List.length_reverse.trans_le (EndsAt.length_le ends)).trans length

/-- A float with an exponent from zero down has digits near it. -/
theorem ofFractional_isNear (range : x.IsInRange) (suits : hood.Suits x) (nonpos : x.exp ≤ 0)
    (r : Radix) : ∃ e, ofFractional x hood r = .ok e ∧ e.IsNear r x hood := by
  obtain ⟨result, place, up, ends, length, made⟩ := ofFractional_suits range suits nonpos r
  have close := ends.isClose nonpos length
  have cases := ends.down_or_up nonpos
  set e := ofParts r (x.frac.toNat / 2 ^ (-x.exp).toNat) result with e_eq
  have count : e.fraction.length = result.1.length := List.length_reverse
  have needed : ∀ k < e.fraction.length, hood.reachBelow * r.val ^ k < 1 := by
    intro k lt
    exact ends.reachBelow_mul_pow_lt nonpos (count ▸ lt)
  refine ⟨e, made, close, needed, ?_, ?_⟩
  · exact ⟨e.whole ++ e.fraction, 0, by simp,
      ofDigits_append_lt range suits nonpos close.above needed, fun _ => rfl⟩
  · intro k power
    have last : |e.value r - x.value| < 1 / r.val ^ e.fraction.length := by
      have last_pos : 0 < 1 / (r.val : ℚ) ^ result.1.length := by
        exact one_div_pos.mpr (r.cast_val_pow_pos _)
      rw [count, abs_lt]
      rcases cases with ⟨le, -, unit⟩ | ⟨lt, -, unit, -⟩
      · constructor <;> linarith
      · constructor <;> linarith
    exact value_eq_of_close suits power close.below close.above last

end RadixText.Expansion
