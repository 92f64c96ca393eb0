import Mathlib.Data.Nat.Bitwise
import RadixText.Proofs.WideNumerals
import RadixText.Proofs.WordOrder

/-!
# Arithmetic in half words is exact

Products from half words and long division in half words give what exact
arithmetic gives. An estimated digit of a quotient is lowered until it fits,
twice at most.
-/

namespace RadixText

namespace Word

theorem lowHalf_lt (x : UInt64) : (lowHalf x).toNat < 4294967296 := by
  rw [toNat_lowHalf]
  exact Nat.mod_lt _ (by decide)

theorem highHalf_lt (x : UInt64) : (highHalf x).toNat < 4294967296 := by
  have word : x.toNat < 18446744073709551616 := x.toNat_lt
  rw [toNat_highHalf]
  omega

theorem toNat_halves (x : UInt64) :
    x.toNat = (highHalf x).toNat * 4294967296 + (lowHalf x).toNat := by
  rw [toNat_highHalf, toNat_lowHalf, Nat.div_add_mod']

/-- Of a high part wider than a half word the upper bits are lost. -/
theorem toNat_ofHalves_mod {hi lo : UInt64} (l : lo.toNat < 4294967296) :
    (ofHalves hi lo).toNat = (hi.toNat * 4294967296 + lo.toNat) % 18446744073709551616 := by
  have shifted : hi <<< 32 = lowHalf hi <<< 32 := by
    apply UInt64.toNat_inj.mp
    have wide := Words.toNat_shiftLeft (w := hi) (n := 32) (by decide)
    have narrow := Words.toNat_shiftLeft (w := lowHalf hi) (n := 32) (by decide)
    rw [toNat_lowHalf] at narrow
    simp only [UInt64.size] at wide narrow
    change (hi <<< UInt64.ofNat 32).toNat = (lowHalf hi <<< UInt64.ofNat 32).toNat
    omega
  have joined := toNat_ofHalves (lowHalf_lt hi) l
  rw [ofHalves, shifted, ← ofHalves, joined, toNat_lowHalf]
  omega

/-- The product of two half words fits in a word, and so does its sum with two
more half words. -/
theorem toNat_mul_of_halves {x y : UInt64} (hx : x.toNat < 4294967296) (hy : y.toNat < 4294967296) :
    (x * y).toNat = x.toNat * y.toNat ∧ x.toNat * y.toNat ≤ 4294967295 * 4294967295 := by
  have most : x.toNat * y.toNat ≤ 4294967295 * 4294967295 :=
    Nat.mul_le_mul (by omega) (by omega)
  refine ⟨?_, most⟩
  rw [UInt64.toNat_mul, Nat.mod_eq_of_lt (by omega)]

/-- The product from half words is the product. -/
theorem mulByHalves_eq_mul (x y : UInt64) : mulByHalves x y = mul x y := by
  obtain ⟨lower, lower_le⟩ := toNat_mul_of_halves (lowHalf_lt x) (lowHalf_lt y)
  obtain ⟨higher, higher_le⟩ := toNat_mul_of_halves (highHalf_lt x) (highHalf_lt y)
  obtain ⟨mixed, mixed_le⟩ := toNat_mul_of_halves (lowHalf_lt x) (highHalf_lt y)
  obtain ⟨mixed', mixed'_le⟩ := toNat_mul_of_halves (highHalf_lt x) (lowHalf_lt y)
  -- The product as a sum of the four products of halves.
  have parts : x.toNat * y.toNat =
      (highHalf x).toNat * (highHalf y).toNat * 18446744073709551616 +
      ((lowHalf x).toNat * (highHalf y).toNat + (highHalf x).toNat * (lowHalf y).toNat) *
        4294967296 + (lowHalf x).toNat * (lowHalf y).toNat := by
    rw [toNat_halves x, toNat_halves y]
    ring
  have range : x.toNat * y.toNat < 18446744073709551616 * 18446744073709551616 :=
    Nat.mul_lt_mul'' x.toNat_lt y.toNat_lt
  apply UInt128.toNat_inj.mp
  rw [toNat_mul, parts]
  rw [parts] at range
  simp only [UInt128.toNat, mulByHalves, UInt64.size]
  rw [toNat_ofHalves (lowHalf_lt _) (lowHalf_lt _)]
  simp only [UInt64.toNat_add, toNat_lowHalf (_ + _), toNat_highHalf (_ + _), toNat_lowHalf (_ * _),
    toNat_highHalf (_ * _), lower, higher, mixed, mixed']
  omega

end Word

namespace Chunk

/-- The count of zero bits ends at the top bit of the word. -/
theorem and_two_pow_eq_zero_iff {n k : Nat} (h : n < 2 ^ (k + 1)) :
    n &&& 2 ^ k = 0 ↔ n < 2 ^ k := by
  rw [Nat.and_two_pow]
  by_cases below : n < 2 ^ k
  · simp [Nat.testBit_lt_two_pow below, below]
  · simp [Nat.testBit_of_two_pow_le_and_two_pow_add_one_gt (not_lt.mp below) h, below]

theorem countZeros_spec {word : UInt64} (fuel : Nat) {zeros : Nat}
    (fits : word.toNat * 2 ^ zeros < 2 ^ 64) (enough : 2 ^ 63 ≤ word.toNat * 2 ^ (zeros + fuel)) :
    word.toNat * 2 ^ countZeros word fuel zeros < 2 ^ 64 ∧
      2 ^ 63 ≤ word.toNat * 2 ^ countZeros word fuel zeros := by
  induction fuel generalizing zeros with
  | zero => exact ⟨fits, enough⟩
  | succ fuel ih =>
      have few : zeros < 64 := by
        by_contra many
        have power := Nat.pow_le_pow_right (n := 2) (by decide) (not_lt.mp many)
        have positive : 0 < word.toNat := by
          by_contra vanishes
          rw [Nat.eq_zero_of_not_pos vanishes, Nat.zero_mul] at enough
          omega
        have := Nat.mul_le_mul positive power
        omega
      have bit : (Word.topBit >>> UInt64.ofNat zeros).toNat = 2 ^ (63 - zeros) := by
        rw [Words.toNat_shiftRight few]
        exact Nat.pow_div (m := 63) (n := zeros) (x := 2) (by omega) (by decide)
      have half : 2 ^ 63 = 2 ^ (63 - zeros) * 2 ^ zeros := by
        rw [← pow_add, Nat.sub_add_cancel (by omega)]
      have size : 2 ^ 64 = 2 ^ (63 - zeros + 1) * 2 ^ zeros := by
        rw [pow_succ 2 63, half]
        ring
      have small : word.toNat < 2 ^ (63 - zeros + 1) := by
        rw [size] at fits
        exact Nat.lt_of_mul_lt_mul_right fits
      have clear : word &&& (Word.topBit >>> UInt64.ofNat zeros) = 0 ↔
          word.toNat < 2 ^ (63 - zeros) := by
        rw [← UInt64.toNat_inj, UInt64.toNat_and, bit, UInt64.toNat_zero,
          and_two_pow_eq_zero_iff small]
      rw [countZeros]
      split
      case isTrue isClear =>
        apply ih
        · calc
            word.toNat * 2 ^ (zeros + 1) < 2 ^ (63 - zeros) * 2 ^ (zeros + 1) :=
              Nat.mul_lt_mul_of_pos_right (clear.mp isClear) (Nat.two_pow_pos _)
            _ = 2 ^ 64 := by
              rw [pow_succ 2 63, half]
              ring
        · rwa [Nat.add_assoc, Nat.add_comm 1]
      case isFalse isSet =>
        rw [clear, not_lt] at isSet
        refine ⟨fits, ?_⟩
        rw [half]
        exact Nat.mul_le_mul_right _ isSet

/-- Shifted up by its count of zero bits the divisor has its top bit set. -/
structure CountsZeros (d : Chunk) : Prop where
  fits : d.divisor.toNat * 2 ^ d.leadingZeros < 2 ^ 64
  top : 2 ^ 63 ≤ d.divisor.toNat * 2 ^ d.leadingZeros

namespace CountsZeros

variable {d : Chunk}

theorem divisor_pos (h : d.CountsZeros) : 0 < d.divisor.toNat := by
  by_contra zero
  have top := h.top
  rw [Nat.eq_zero_of_not_pos zero, Nat.zero_mul] at top
  omega

theorem leadingZeros_lt (h : d.CountsZeros) : d.leadingZeros < 64 := by
  by_contra many
  have fits := h.fits
  have power := Nat.pow_le_pow_right (n := 2) (by decide) (not_lt.mp many)
  have := Nat.mul_le_mul h.divisor_pos power
  omega

theorem toNat_shifted_divisor (h : d.CountsZeros) :
    (d.divisor <<< UInt64.ofNat d.leadingZeros).toNat = d.divisor.toNat * 2 ^ d.leadingZeros := by
  rw [Words.toNat_shiftLeft h.leadingZeros_lt]
  exact Nat.mod_eq_of_lt h.fits

end CountsZeros

end Chunk

theorem Radix.chunk_countsZeros (r : Radix) : r.chunk.CountsZeros := by
  have positive := r.chunk_divisor_pos
  obtain ⟨fits, top⟩ : r.chunk.divisor.toNat * 2 ^ r.chunk.leadingZeros < 2 ^ 64 ∧
      2 ^ 63 ≤ r.chunk.divisor.toNat * 2 ^ r.chunk.leadingZeros := by
    apply Chunk.countZeros_spec 64
    · rw [pow_zero, Nat.mul_one]
      exact r.chunk.divisor.toNat_lt
    · have := Nat.mul_le_mul_right (2 ^ (0 + 64)) positive
      omega
  exact ⟨fits, top⟩

namespace UInt128

/-- A digit that is not below the one of the quotient, and what it leaves of the
dividend if the divisor is cut to its upper half. -/
structure IsEstimate (divisor dividend next digit rest : UInt64) : Prop where
  split : digit.toNat * (Word.highHalf divisor).toNat + rest.toNat = dividend.toNat
  quotient_le : (dividend.toNat * 4294967296 + next.toNat) / divisor.toNat ≤ digit.toNat
  le : digit.toNat ≤ 4294967297

section Digit

variable {divisor dividend next digit rest : UInt64}

/-- With a digit the divisor takes more than the dividend offers exactly where
its lower half takes more than the rest. -/
theorem IsEstimate.lt_mul_iff (h : IsEstimate divisor dividend next digit rest) :
    dividend.toNat * 4294967296 + next.toNat < digit.toNat * divisor.toNat ↔
      rest.toNat * 4294967296 + next.toNat < digit.toNat * (Word.lowHalf divisor).toNat := by
  have product : digit.toNat * divisor.toNat =
      digit.toNat * (Word.highHalf divisor).toNat * 4294967296 +
        digit.toNat * (Word.lowHalf divisor).toNat := by
    conv_lhs => rw [Word.toNat_halves divisor]
    ring
  have split := h.split
  rw [product]
  omega

/-- The quotient of a dividend below the divisor fits in a half word. -/
theorem digit_lt (below : dividend < divisor) (half : next.toNat < 4294967296) :
    (dividend.toNat * 4294967296 + next.toNat) / divisor.toNat < 4294967296 := by
  have less : dividend.toNat < divisor.toNat := below
  rw [Nat.div_lt_iff_lt_mul (Nat.zero_lt_of_lt less), Nat.mul_comm 4294967296]
  omega

/-- The test of a correction tells exactly whether the digit is too large. -/
theorem IsEstimate.tooLarge_iff (h : IsEstimate divisor dividend next digit rest)
    (below : dividend < divisor) (half : next.toNat < 4294967296)
    (small : rest.toNat < 4294967296) :
    (Word.halfSize ≤ digit ∨ Word.ofHalves rest next < digit * Word.lowHalf divisor) ↔
      (dividend.toNat * 4294967296 + next.toNat) / divisor.toNat < digit.toNat := by
  have size : Word.halfSize.toNat = 4294967296 := rfl
  have less : dividend.toNat < divisor.toNat := below
  have fits := digit_lt below half
  rw [UInt64.le_iff_toNat_le, UInt64.lt_iff_toNat_lt, size, Word.toNat_ofHalves small half]
  by_cases wide : 4294967296 ≤ digit.toNat
  · simp only [wide, true_or, true_iff]
    exact Nat.lt_of_lt_of_le fits wide
  · have product := (Word.toNat_mul_of_halves (not_le.mp wide) (Word.lowHalf_lt divisor)).1
    simp only [wide, false_or]
    rw [product, Nat.div_lt_iff_lt_mul (Nat.zero_lt_of_lt less), h.lt_mul_iff]

/-- A rest of more than a half word leaves room for the lower half. -/
theorem IsEstimate.eq_of_le_rest (h : IsEstimate divisor dividend next digit rest)
    (below : dividend < divisor) (le : digit.toNat ≤ 4294967296)
    (large : 4294967296 ≤ rest.toNat) :
    digit.toNat = (dividend.toNat * 4294967296 + next.toNat) / divisor.toNat := by
  have less : dividend.toNat < divisor.toNat := below
  have most : digit.toNat * (Word.lowHalf divisor).toNat ≤ 4294967296 * 4294967295 :=
    Nat.mul_le_mul le (Nat.le_of_lt_succ (Word.lowHalf_lt divisor))
  have covered : ¬ dividend.toNat * 4294967296 + next.toNat < digit.toNat * divisor.toNat := by
    rw [h.lt_mul_iff]
    omega
  apply Nat.le_antisymm _ h.quotient_le
  rw [Nat.le_div_iff_mul_le (Nat.zero_lt_of_lt less)]
  exact not_lt.mp covered

/-- A digit that is too large stays an estimate when it is lowered. -/
theorem IsEstimate.lower (h : IsEstimate divisor dividend next digit rest)
    (tooLarge : (dividend.toNat * 4294967296 + next.toNat) / divisor.toNat < digit.toNat) :
    IsEstimate divisor dividend next (digit - 1) (rest + Word.highHalf divisor) ∧
      (digit - 1).toNat ≤ 4294967296 ∧
      (rest + Word.highHalf divisor).toNat = rest.toNat + (Word.highHalf divisor).toNat := by
  have positive : 1 ≤ digit.toNat := Nat.one_le_of_lt tooLarge
  have lowered : (digit - 1).toNat = digit.toNat - 1 :=
    UInt64.toNat_sub_of_le _ _ (UInt64.le_iff_toNat_le.mpr positive)
  have split := h.split
  have le := h.le
  have share : (digit.toNat - 1) * (Word.highHalf divisor).toNat + (Word.highHalf divisor).toNat =
      digit.toNat * (Word.highHalf divisor).toNat := by
    rw [← Nat.succ_mul]
    congr 1
    omega
  have word := dividend.toNat_lt
  have raised : (rest + Word.highHalf divisor).toNat =
      rest.toNat + (Word.highHalf divisor).toNat := by
    rw [UInt64.toNat_add, Nat.mod_eq_of_lt (by omega)]
  refine ⟨⟨?_, ?_, ?_⟩, ?_, raised⟩
  · rw [lowered, raised]
    omega
  · rw [lowered]
    exact Nat.le_sub_one_of_lt tooLarge
  · omega
  · omega

/-- Corrections lead to the digit of the quotient, as long as they are enough
for the rest to leave a half word. -/
theorem IsEstimate.toNat_correctDigit (fuel : Nat)
    (h : IsEstimate divisor dividend next digit rest) (below : dividend < divisor)
    (half : next.toNat < 4294967296) (small : rest.toNat < 4294967296)
    (enough : 4294967296 ≤ rest.toNat + fuel * (Word.highHalf divisor).toNat) :
    (correctDigit (Word.highHalf divisor) (Word.lowHalf divisor) next fuel digit rest).toNat =
      (dividend.toNat * 4294967296 + next.toNat) / divisor.toNat := by
  induction fuel generalizing digit rest with
  | zero => omega
  | succ fuel ih =>
      rw [correctDigit]
      split
      case isTrue test =>
        obtain ⟨lowered, le, raised⟩ := h.lower ((h.tooLarge_iff below half small).mp test)
        have size : Word.halfSize.toNat = 4294967296 := rfl
        split
        case isTrue large =>
          rw [UInt64.le_iff_toNat_le, size] at large
          exact lowered.eq_of_le_rest below le large
        case isFalse still =>
          rw [UInt64.le_iff_toNat_le, size] at still
          apply ih lowered (not_le.mp still)
          rw [raised]
          rw [Nat.succ_mul] at enough
          omega
      case isFalse test =>
        rw [h.tooLarge_iff below half small, not_lt] at test
        exact Nat.le_antisymm test h.quotient_le

theorem le_highHalf_of_top (top : 2 ^ 63 ≤ divisor.toNat) :
    2147483648 ≤ (Word.highHalf divisor).toNat := by
  have halves := Word.toNat_halves divisor
  have low := Word.lowHalf_lt divisor
  omega

/-- The first estimate, by the upper half of a divisor with its top bit set. -/
theorem isEstimate_div (top : 2 ^ 63 ≤ divisor.toNat) (below : dividend < divisor)
    (half : next.toNat < 4294967296) :
    IsEstimate divisor dividend next (dividend / Word.highHalf divisor)
      (dividend - dividend / Word.highHalf divisor * Word.highHalf divisor) ∧
    (dividend - dividend / Word.highHalf divisor * Word.highHalf divisor).toNat <
      (Word.highHalf divisor).toNat := by
  have less : dividend.toNat < divisor.toNat := below
  have halves := Word.toNat_halves divisor
  have low := Word.lowHalf_lt divisor
  have large := le_highHalf_of_top top
  have positive : 0 < (Word.highHalf divisor).toNat := Nat.lt_of_lt_of_le (by decide) large
  have split := Nat.div_add_mod' dividend.toNat (Word.highHalf divisor).toNat
  have small := Nat.mod_lt dividend.toNat positive
  have rest : (dividend - dividend / Word.highHalf divisor * Word.highHalf divisor).toNat =
      dividend.toNat % (Word.highHalf divisor).toNat := by
    have word := dividend.toNat_lt
    rw [UInt64.toNat_sub, UInt64.toNat_mul, UInt64.toNat_div]
    omega
  refine ⟨⟨?_, ?_, ?_⟩, by rwa [rest]⟩
  · rw [rest, UInt64.toNat_div]
    exact split
  · rw [UInt64.toNat_div, Nat.le_div_iff_mul_le positive]
    -- The quotient times the upper half is at most the dividend's upper part.
    have fits := Nat.div_mul_le_self (dividend.toNat * 4294967296 + next.toNat) divisor.toNat
    generalize (dividend.toNat * 4294967296 + next.toNat) / divisor.toNat = q at fits ⊢
    rw [halves, Nat.mul_add, ← Nat.mul_assoc] at fits
    omega
  · rw [UInt64.toNat_div]
    apply Nat.le_of_lt_succ
    rw [Nat.div_lt_iff_lt_mul positive]
    omega

/-- A digit of the quotient by a divisor with its top bit set, and its
remainder. -/
theorem digitByHalves_value (top : 2 ^ 63 ≤ divisor.toNat) (below : dividend < divisor)
    (half : next.toNat < 4294967296) :
    (digitByHalves divisor dividend next).1.toNat =
        (dividend.toNat * 4294967296 + next.toNat) / divisor.toNat ∧
      (digitByHalves divisor dividend next).2.toNat =
        (dividend.toNat * 4294967296 + next.toNat) % divisor.toNat := by
  have less : dividend.toNat < divisor.toNat := below
  obtain ⟨estimate, small⟩ := isEstimate_div top below half
  have high := Word.highHalf_lt divisor
  have digit := estimate.toNat_correctDigit 3 below half (Nat.lt_trans small high)
    (by have large := le_highHalf_of_top top; omega)
  refine ⟨digit, ?_⟩
  have split := Nat.div_add_mod' (dividend.toNat * 4294967296 + next.toNat) divisor.toNat
  have rest : (dividend.toNat * 4294967296 + next.toNat) % divisor.toNat < 2 ^ 64 :=
    Nat.lt_trans (Nat.mod_lt _ (Nat.zero_lt_of_lt less)) divisor.toNat_lt
  rw [digitByHalves, UInt64.toNat_sub, UInt64.toNat_mul, digit, Word.toNat_ofHalves_mod half]
  omega

/-- No digit is lowered more than twice. A higher bound on the corrections
changes nothing. -/
theorem correctDigit_of_two_le {fuel : Nat} (two : 2 ≤ fuel) (top : 2 ^ 63 ≤ divisor.toNat)
    (below : dividend < divisor) (half : next.toNat < 4294967296) :
    correctDigit (Word.highHalf divisor) (Word.lowHalf divisor) next fuel
        (dividend / Word.highHalf divisor)
        (dividend - dividend / Word.highHalf divisor * Word.highHalf divisor) =
      (digitByHalves divisor dividend next).1 := by
  obtain ⟨estimate, small⟩ := isEstimate_div top below half
  have large := le_highHalf_of_top top
  have corrections := Nat.mul_le_mul two large
  apply UInt64.toNat_inj.mp
  rw [(digitByHalves_value top below half).1]
  exact estimate.toNat_correctDigit fuel below half
    (Nat.lt_trans small (Word.highHalf_lt divisor)) (by omega)

/-- Two digits in a row make up the quotient by a divisor with its top bit
set. -/
theorem digitsByHalves_value {hi : UInt64} (lo : UInt64) (top : 2 ^ 63 ≤ divisor.toNat)
    (below : hi < divisor) :
    (Word.ofHalves (digitByHalves divisor hi (Word.highHalf lo)).1
        (digitByHalves divisor (digitByHalves divisor hi (Word.highHalf lo)).2
          (Word.lowHalf lo)).1).toNat = (⟨hi, lo⟩ : UInt128).toNat / divisor.toNat ∧
      (digitByHalves divisor (digitByHalves divisor hi (Word.highHalf lo)).2
        (Word.lowHalf lo)).2.toNat = (⟨hi, lo⟩ : UInt128).toNat % divisor.toNat := by
  have less : hi.toNat < divisor.toNat := below
  have positive : 0 < divisor.toNat := Nat.zero_lt_of_lt less
  obtain ⟨first, rest⟩ := digitByHalves_value top below (Word.highHalf_lt lo)
  have firstHalf := digit_lt below (Word.highHalf_lt lo)
  rw [← first] at firstHalf
  have split := Nat.div_add_mod (hi.toNat * 4294967296 + (Word.highHalf lo).toNat) divisor.toNat
  rw [← first, ← rest] at split
  generalize digitByHalves divisor hi (Word.highHalf lo) = upper at *
  have below' : upper.2 < divisor := by
    rw [UInt64.lt_iff_toNat_lt, rest]
    exact Nat.mod_lt _ positive
  obtain ⟨second, rest'⟩ := digitByHalves_value top below' (Word.lowHalf_lt lo)
  have secondHalf := digit_lt below' (Word.lowHalf_lt lo)
  rw [← second] at secondHalf
  have whole : (⟨hi, lo⟩ : UInt128).toNat = divisor.toNat * (upper.1.toNat * 4294967296) +
      (upper.2.toNat * 4294967296 + (Word.lowHalf lo).toNat) :=
    calc
      (⟨hi, lo⟩ : UInt128).toNat =
          (hi.toNat * 4294967296 + (Word.highHalf lo).toNat) * 4294967296 +
            (Word.lowHalf lo).toNat := by
        rw [toNat, Word.toNat_halves lo, UInt64.size]
        ring
      _ = divisor.toNat * (upper.1.toNat * 4294967296) +
          (upper.2.toNat * 4294967296 + (Word.lowHalf lo).toNat) := by
        rw [← split]
        ring
  rw [whole, Nat.mul_add_div positive, Nat.mul_add_mod]
  refine ⟨?_, rest'⟩
  rw [Word.toNat_ofHalves firstHalf secondHalf, second]

end Digit

/-- A number of two words shifted up without loss. -/
theorem toNat_shifted {x : UInt128} {s : Nat} (h : s < 64) (fits : x.toNat * 2 ^ s < size) :
    (⟨if UInt64.ofNat s = 0 then x.hi
        else (x.hi <<< UInt64.ofNat s) ||| (x.lo >>> (64 - UInt64.ofNat s)),
      if UInt64.ofNat s = 0 then x.lo else x.lo <<< UInt64.ofNat s⟩ : UInt128).toNat =
      x.toNat * 2 ^ s := by
  by_cases zero : s = 0
  · simp [zero]
  · have nonzero := mt (Words.ofNat_eq_zero_iff h).mp zero
    have complement : 64 - s < 64 := by omega
    have nonzero' := mt (Words.ofNat_eq_zero_iff complement).mp (by omega)
    have joined := Words.toNat_shiftRight_or complement x.lo [x.hi]
    have double : 64 - (64 - s) = s := by omega
    have number : x.lo.toNat + UInt64.size * Words.toNat [x.hi] = x.toNat := by
      simp only [Words.toNat_cons, Words.toNat_nil, toNat]
      ring
    have split : UInt64.size = 2 ^ (64 - s) * 2 ^ s := by
      rw [Nat.mul_comm]
      exact Words.size_split (Nat.le_of_lt h)
    rw [if_neg nonzero', Words.sub_ofNat complement, UInt64.or_comm, double, number] at joined
    simp only [List.headD_cons] at joined
    have high : x.toNat / 2 ^ (64 - s) = x.toNat * 2 ^ s / UInt64.size := by
      rw [split, Nat.mul_div_mul_right _ _ (Nat.two_pow_pos s)]
    have low : x.lo.toNat * 2 ^ s % UInt64.size = x.toNat * 2 ^ s % UInt64.size := by
      rw [toNat, Nat.add_mul, Nat.mul_right_comm, Nat.mul_add_mod_self_right]
    rw [if_neg nonzero, if_neg nonzero, Words.sub_ofNat h, toNat, joined, Words.toNat_shiftLeft h,
      low, high, Nat.mod_eq_of_lt (Nat.div_lt_of_lt_mul fits), Nat.div_add_mod']

/-- Long division in half words gives what exact division gives, and refuses the
same numbers. -/
theorem divModWordByHalves_eq {d : Chunk} (h : d.CountsZeros) (x : UInt128) :
    x.divModWordByHalves d = x.divModWord d := by
  by_cases below : x.hi < d.divisor
  · obtain ⟨q, s, made, quotient, rest⟩ := divModWord_value below
    have less : x.hi.toNat < d.divisor.toNat := below
    have few := h.leadingZeros_lt
    have divisor := h.toNat_shifted_divisor
    have number_lt : x.toNat * 2 ^ d.leadingZeros <
        d.divisor.toNat * 2 ^ d.leadingZeros * UInt64.size := by
      have low : x.lo.toNat < UInt64.size := x.lo.toNat_lt
      have words : x.toNat < d.divisor.toNat * UInt64.size := by
        have := Nat.mul_le_mul_right UInt64.size less
        rw [Nat.succ_mul] at this
        rw [toNat]
        omega
      rw [Nat.mul_right_comm]
      exact Nat.mul_lt_mul_of_pos_right words (Nat.two_pow_pos _)
    have shifted := toNat_shifted few
      (Nat.lt_trans number_lt (Nat.mul_lt_mul_of_pos_right h.fits (by decide)))
    rw [made, divModWordByHalves, Precondition.require_of_kept _ below]
    simp only [bind, Except.bind]
    generalize (if UInt64.ofNat d.leadingZeros = 0 then x.hi else _) = hi at *
    generalize (if UInt64.ofNat d.leadingZeros = 0 then x.lo else _) = lo at *
    generalize d.divisor <<< UInt64.ofNat d.leadingZeros = normal at *
    have below' : hi < normal := by
      rw [UInt64.lt_iff_toNat_lt]
      apply Nat.lt_of_mul_lt_mul_right (a := UInt64.size)
      rw [divisor]
      apply Nat.lt_of_le_of_lt _ number_lt
      rw [← shifted]
      exact Nat.le_add_right _ _
    obtain ⟨quotient', rest'⟩ := digitsByHalves_value lo (divisor ▸ h.top) below'
    have power := Nat.two_pow_pos d.leadingZeros
    rw [shifted, divisor, Nat.mul_div_mul_right _ _ power, ← quotient] at quotient'
    rw [shifted, divisor, Nat.mul_mod_mul_right, ← rest] at rest'
    have back : ((digitByHalves normal (digitByHalves normal hi (Word.highHalf lo)).2
        (Word.lowHalf lo)).2 >>> UInt64.ofNat d.leadingZeros).toNat = s.toNat := by
      rw [Words.toNat_shiftRight few, rest', Nat.mul_div_cancel _ power]
    rw [← UInt64.toNat_inj.mp quotient', ← UInt64.toNat_inj.mp back]
    rfl
  · simp only [divModWordByHalves, divModWord, Precondition.require_of_broken _ below, bind,
      Except.bind]

theorem divModByHalves_eq {d : Chunk} (h : d.CountsZeros) (x : UInt128) :
    x.divModByHalves d = x.divMod d := by
  rw [divModByHalves, divMod, divModWordByHalves_eq h]

end UInt128

/-- Division by the divisor of a radix's chunk is exact, for numbers with a high
word below the divisor and with a quotient of two words for all others. Long
division in half words gives the same, and lowers no digit more than twice. A
product from half words is the exact product. -/
theorem Radix.arithmetic_by_halves_is_exact (r : Radix) :
    (∀ x : UInt128, x.hi < r.chunk.divisor → ∃ q rest,
      x.divModWord r.chunk = .ok (q, rest) ∧ x.divModWordByHalves r.chunk = .ok (q, rest) ∧
      q.toNat * r.chunk.divisor.toNat + rest.toNat = x.hi.toNat * 2 ^ 64 + x.lo.toNat ∧
      rest < r.chunk.divisor) ∧
    (∀ (divisor dividend next : UInt64) (fuel : Nat),
      divisor = r.chunk.divisor <<< UInt64.ofNat r.chunk.leadingZeros → dividend < divisor →
      next.toNat < 2 ^ 32 → 2 ≤ fuel →
      UInt128.correctDigit (Word.highHalf divisor) (Word.lowHalf divisor) next fuel
          (dividend / Word.highHalf divisor)
          (dividend - dividend / Word.highHalf divisor * Word.highHalf divisor) =
        (UInt128.digitByHalves divisor dividend next).1) ∧
    (∀ x : UInt128, ∃ q rest,
      x.divMod r.chunk = .ok (q, rest) ∧ x.divModByHalves r.chunk = .ok (q, rest) ∧
      (q.hi.toNat * 2 ^ 64 + q.lo.toNat) * r.chunk.divisor.toNat + rest.toNat =
        x.hi.toNat * 2 ^ 64 + x.lo.toNat ∧ rest < r.chunk.divisor) ∧
    ∀ x y : UInt64, Word.mulByHalves x y = Word.mul x y ∧
      (Word.mul x y).hi.toNat * 2 ^ 64 + (Word.mul x y).lo.toNat = x.toNat * y.toNat := by
  have counts := r.chunk_countsZeros
  have positive := r.chunk_divisor_pos
  refine ⟨?_, ?_, ?_, ?_⟩
  · intro x below
    obtain ⟨q, rest, made, quotient, remainder⟩ := UInt128.divModWord_value below
    refine ⟨q, rest, made, (UInt128.divModWordByHalves_eq counts x).trans made, ?_, ?_⟩
    · rw [quotient, remainder, Nat.div_add_mod']
      rfl
    · rw [UInt64.lt_iff_toNat_lt, remainder]
      exact Nat.mod_lt _ positive
  · rintro divisor dividend next fuel rfl below half two
    exact UInt128.correctDigit_of_two_le two
      (counts.toNat_shifted_divisor ▸ counts.top) below half
  · intro x
    obtain ⟨q, rest, made, quotient, remainder⟩ := x.divMod_value positive
    refine ⟨q, rest, made, (UInt128.divModByHalves_eq counts x).trans made, ?_, ?_⟩
    · change q.toNat * _ + _ = x.toNat
      rw [quotient, remainder, Nat.div_add_mod']
    · rw [UInt64.lt_iff_toNat_lt, remainder]
      exact Nat.mod_lt _ positive
  · intro x y
    exact ⟨Word.mulByHalves_eq_mul x y, Word.toNat_mul x y⟩

/-- A quotient in radix 36 of which both digits are lowered twice. -/
theorem Radix.twice_lowered_digits_are_exact : ∃ r : Radix, r.val = 36 ∧
    (⟨3766965870969216704, 11119297265100011886⟩ : UInt128).hi < r.chunk.divisor ∧
    UInt128.divModWordByHalves ⟨3766965870969216704, 11119297265100011886⟩ r.chunk =
      .ok (14664977424712926980, 3612003349295151470) ∧
    14664977424712926980 * r.chunk.divisor.toNat + 3612003349295151470 =
      3766965870969216704 * 2 ^ 64 + 11119297265100011886 := by
  have below : (⟨3766965870969216704, 11119297265100011886⟩ : UInt128).hi <
      (Radix.chunk ⟨36, by decide, by decide⟩).divisor := by decide +kernel
  have run : UInt128.divModWordByHalves ⟨3766965870969216704, 11119297265100011886⟩
      (Radix.chunk ⟨36, by decide, by decide⟩) =
      .ok (14664977424712926980, 3612003349295151470) := by decide +kernel
  obtain ⟨exact, -, -, -⟩ := arithmetic_by_halves_is_exact ⟨36, by decide, by decide⟩
  obtain ⟨q, rest, -, made, value, -⟩ := exact _ below
  cases run.symm.trans made
  exact ⟨⟨36, by decide, by decide⟩, rfl, below, run, value⟩

end RadixText
