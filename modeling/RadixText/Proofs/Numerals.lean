import RadixText.Numeral.Word
import RadixText.Proofs.Digits

/-!
# Numerals of words are plain numerals

Cutting off two or four digits at a time gives the same characters as dividing
by the radix one digit at a time, in every width that holds the fourth power
of the largest radix.
-/

namespace RadixText.Numeral

variable {w : Nat} (r : Radix) (c : LetterCase)

theorem fourth_power_lt (wide : 21 ≤ w) : r.val * r.val * (r.val * r.val) < 2 ^ w := by
  have square : r.val * r.val ≤ 36 * 36 := Nat.mul_le_mul r.le_thirtySix r.le_thirtySix
  calc
    r.val * r.val * (r.val * r.val) ≤ 36 * 36 * (36 * 36) := Nat.mul_le_mul square square
    _ < 2 ^ 21 := by decide
    _ ≤ 2 ^ w := Nat.pow_le_pow_right (by decide) wide

theorem square_lt (wide : 21 ≤ w) : r.val * r.val < 2 ^ w :=
  Nat.lt_of_le_of_lt (Nat.le_mul_of_pos_right _ (Nat.mul_pos r.val_pos r.val_pos))
    (fourth_power_lt r wide)

theorem toNat_square (wide : 21 ≤ w) : (square r w).toNat = r.val * r.val := by
  rw [square, BitVec.toNat_ofNat, Nat.mod_eq_of_lt (square_lt r wide)]

theorem toNat_fourthPower (wide : 21 ≤ w) :
    (fourthPower r w).toNat = r.val * r.val * (r.val * r.val) := by
  rw [fourthPower, BitVec.toNat_mul, toNat_square r wide, Nat.mod_eq_of_lt (fourth_power_lt r wide)]

/-- A numeral of more than two digits ends in the pair of its two lowest. -/
theorem plainNumeral_pair {n : Nat} (h : r.val * r.val ≤ n) :
    r.plainNumeral c n =
      r.plainNumeral c (n / (r.val * r.val)) ++ pairAt (r.pairs c) (n % (r.val * r.val)) := by
  have outer : r.val ≤ n := Nat.le_trans (Nat.le_mul_of_pos_left _ r.val_pos) h
  have inner : r.val ≤ n / r.val := (Nat.le_div_iff_mul_le r.val_pos).mpr h
  rw [pairAt_pairs r c (Nat.mod_lt _ (Nat.mul_pos r.val_pos r.val_pos)),
    Nat.mod_mul_right_div_self, Nat.mod_mul_right_mod, ← Nat.div_div_eq_div_mul]
  simp [Radix.plainNumeral, r.digits_of_le outer, r.digits_of_le inner]

/-- Cutting off pairs of digits changes neither their order nor their count. -/
theorem cutTwos_numeral (wide : 21 ≤ w) (fuel : Nat) (v : BitVec w) (text : List Char) :
    r.plainNumeral c (cutTwos r (r.pairs c) fuel v text).1.toNat ++
        (cutTwos r (r.pairs c) fuel v text).2 =
      r.plainNumeral c v.toNat ++ text := by
  induction fuel generalizing v text with
  | zero => rfl
  | succ fuel ih =>
      by_cases large : square r w ≤ v
      · have enough : r.val * r.val ≤ v.toNat := by
          rw [← toNat_square r wide]
          exact large
        rw [cutTwos, if_pos large, ih, plainNumeral_pair r c enough, BitVec.toNat_udiv,
          BitVec.toNat_umod, toNat_square r wide, List.append_assoc]
      · rw [cutTwos, if_neg large]

/-- With a step for each bit of the word only the last one or two digits are
left. -/
theorem cutTwos_lt (wide : 21 ≤ w) {fuel : Nat} {v : BitVec w} (text : List Char)
    (bits : v.toNat < 2 ^ fuel) :
    (cutTwos r (r.pairs c) fuel v text).1.toNat < r.val * r.val := by
  induction fuel generalizing v text with
  | zero =>
      have zero : v.toNat = 0 := by simpa using bits
      rw [cutTwos, zero]
      exact Nat.mul_pos r.val_pos r.val_pos
  | succ fuel ih =>
      by_cases large : square r w ≤ v
      · rw [cutTwos, if_pos large]
        apply ih
        have four : 2 * 2 ≤ r.val * r.val := Nat.mul_le_mul r.two_le r.two_le
        rw [BitVec.toNat_udiv, toNat_square r wide]
        apply Nat.div_lt_of_lt_mul
        calc
          v.toNat < 2 ^ fuel * 2 := by rwa [← pow_succ]
          _ ≤ r.val * r.val * 2 ^ fuel := by
            rw [Nat.mul_comm]
            exact Nat.mul_le_mul_right _ (Nat.le_trans (by decide) four)
      · rw [cutTwos, if_neg large]
        rw [BitVec.le_def, toNat_square r wide] at large
        exact Nat.lt_of_not_le large

theorem cutFours_numeral (wide : 21 ≤ w) (fuel : Nat) (v : BitVec w) (text : List Char) :
    r.plainNumeral c (cutFours r (r.pairs c) fuel v text).1.toNat ++
        (cutFours r (r.pairs c) fuel v text).2 =
      r.plainNumeral c v.toNat ++ text := by
  induction fuel generalizing v text with
  | zero => rfl
  | succ fuel ih =>
      by_cases large : fourthPower r w ≤ v
      · have enough : r.val * r.val * (r.val * r.val) ≤ v.toNat := by
          rw [← toNat_fourthPower r wide]
          exact large
        have outer : r.val * r.val ≤ v.toNat :=
          Nat.le_trans (Nat.le_mul_of_pos_left _ (Nat.mul_pos r.val_pos r.val_pos)) enough
        have inner : r.val * r.val ≤ v.toNat / (r.val * r.val) :=
          (Nat.le_div_iff_mul_le (Nat.mul_pos r.val_pos r.val_pos)).mpr enough
        rw [cutFours, if_pos large, ih, plainNumeral_pair r c outer, plainNumeral_pair r c inner]
        simp only [BitVec.toNat_udiv, BitVec.toNat_umod, toNat_square r wide,
          toNat_fourthPower r wide, Nat.mod_mul_right_div_self, Nat.mod_mul_right_mod,
          Nat.div_div_eq_div_mul, List.append_assoc]
      · rw [cutFours, if_neg large]

theorem cutLast_numeral {v : BitVec w} (h : v.toNat < r.val * r.val) (text : List Char) :
    cutLast r (r.pairs c) v text = r.plainNumeral c v.toNat ++ text := by
  by_cases single : v.toNat < r.val
  · simp [cutLast, single, pairAt_pairs r c h, Radix.plainNumeral, r.digits_of_lt single,
      Nat.mod_eq_of_lt single]
  · have quotient : v.toNat / r.val < r.val := Nat.div_lt_of_lt_mul h
    simp [cutLast, single, pairAt_pairs r c h, Radix.plainNumeral,
      r.digits_of_le (Nat.le_of_not_lt single), r.digits_of_lt quotient]

/-- The numeral of a word consists of the plain digits of its number. -/
theorem ofWord_eq_plainNumeral (wide : 21 ≤ w) (v : BitVec w) :
    ofWord r c v = r.plainNumeral c v.toNat := by
  have short := cutTwos_lt r c wide (cutFours r (r.pairs c) w v []).2
    (cutFours r (r.pairs c) w v []).1.isLt
  change cutLast r (r.pairs c) (cutTwos r (r.pairs c) w _ _).1 _ = _
  rw [cutLast_numeral r c short, cutTwos_numeral r c wide, cutFours_numeral r c wide,
    List.append_nil]

end RadixText.Numeral
