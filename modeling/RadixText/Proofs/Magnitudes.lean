import RadixText.ExtFloat.Magnitude
import RadixText.Proofs.Encodings
import RadixText.Proofs.PointValues

/-!
# Orders of magnitude

Every number in range has a pattern in the 64-bit format, which tells its size
exactly. Rounding takes no number past a power of two. The logarithm of a number
below one is counted exactly as well.
-/

namespace RadixText

namespace ExtFloat

variable {x : ExtFloat}

/-- A number in range has a pattern in the 64-bit format. -/
theorem IsInRange.exists_numberAt (h : x.IsInRange) :
    ∃ n, n < 2047 * 2 ^ 52 ∧ FloatFormat.binary64.numberAt n = x.value := by
  have frac_ne : x.frac.toNat ≠ 0 := h.frac_pos.ne'
  have log_le := Nat.log2_self_le frac_ne
  have lt_log := Nat.lt_log2_self (n := x.frac.toNat)
  have le_exp := h.le_exp
  set l := x.frac.toNat.log2
  have l_lt : l < 53 := by
    rw [← Nat.pow_lt_pow_iff_right (a := 2) (by decide)]
    exact Nat.lt_of_le_of_lt log_le h.frac_lt
  have top : x.exp + l < 1024 := by
    have log_le' : (2 : ℚ) ^ l ≤ x.frac.toNat := by exact_mod_cast log_le
    have power : (2 : ℚ) ^ (x.exp + l) < 2 ^ ((1024 : ℕ) : ℤ) := by
      rw [zpow_add₀ (by norm_num), zpow_natCast, zpow_natCast, mul_comm]
      refine lt_of_le_of_lt ?_ h.value_lt
      rw [value]
      gcongr
    exact_mod_cast (zpow_lt_zpow_iff_right₀ (by norm_num)).mp power
  have lowest : FloatFormat.binary64.lowestExp = -1074 := by decide
  by_cases normal : -1022 ≤ x.exp + l
  · -- The fraction is raised to 53 bits.
    obtain ⟨q, field⟩ := Int.eq_ofNat_of_zero_le (show 0 ≤ x.exp + l + 1022 by omega)
    have large : 2 ^ 52 ≤ x.frac.toNat * 2 ^ (52 - l) := by
      have exponent : 52 = l + (52 - l) := by omega
      conv_lhs => rw [exponent, pow_add]
      exact Nat.mul_le_mul_right _ log_le
    have small : x.frac.toNat * 2 ^ (52 - l) < 2 * 2 ^ 52 := by
      have exponent : 2 * 2 ^ 52 = 2 ^ (l + 1) * 2 ^ (52 - l) := by
        rw [← pow_succ', ← pow_add]
        congr 1
        omega
      rw [exponent]
      exact Nat.mul_lt_mul_of_pos_right lt_log (Nat.two_pow_pos _)
    have exponent : -1074 + (q : ℤ) = x.exp - (52 - l : ℕ) := by omega
    refine ⟨2 ^ 52 * (q + 1) + (x.frac.toNat * 2 ^ (52 - l) - 2 ^ 52), by omega, ?_⟩
    refine (FloatFormat.binary64.numberAt_of_normal large small q).trans ?_
    rw [lowest, exponent, zpow_sub₀ (by norm_num), zpow_natCast, value]
    push_cast
    field_simp
  · -- The fraction is raised to a multiple of the smallest number.
    obtain ⟨k, shift⟩ := Int.eq_ofNat_of_zero_le (show 0 ≤ x.exp + 1074 by omega)
    have small : x.frac.toNat * 2 ^ k < 2 ^ 52 := by
      calc
        x.frac.toNat * 2 ^ k < 2 ^ (l + 1) * 2 ^ k :=
          Nat.mul_lt_mul_of_pos_right lt_log (Nat.two_pow_pos k)
        _ = 2 ^ (l + 1 + k) := (pow_add _ _ _).symm
        _ ≤ 2 ^ 52 := Nat.pow_le_pow_right (by decide) (by omega)
    have exponent : x.exp = k + FloatFormat.binary64.lowestExp := by omega
    refine ⟨x.frac.toNat * 2 ^ k, by omega, ?_⟩
    refine (FloatFormat.binary64.numberAt_of_subnormal small).trans ?_
    rw [value, exponent, zpow_add₀ (by norm_num), zpow_natCast, Nat.cast_mul, Nat.cast_pow,
      Nat.cast_ofNat, mul_assoc]

/-- Rounding to 53 bits keeps a number that has no more. -/
theorem IsInRange.value_round (h : x.IsInRange) : (x.round 53).value = x.value := by
  obtain ⟨s, raised, large⟩ := normalize_raisedBy (frac_ne_zero_of_value_pos h.value_pos)
  have frac_lt := h.frac_lt
  have bits : 10 < s := by
    have power : 2 ^ 63 < 2 ^ (53 + s) := by
      rw [pow_add]
      refine Nat.lt_of_le_of_lt large ?_
      rw [raised.1]
      exact Nat.mul_lt_mul_of_pos_right frac_lt (Nat.two_pow_pos s)
    have := (Nat.pow_lt_pow_iff_right (a := 2) (by decide)).mp power
    omega
  have word := x.normalize.frac.toNat_lt
  have split : 2 ^ s = 2 ^ (s - 11) * 2 ^ 11 := by
    rw [← pow_add]
    congr 1
    omega
  have kept : (UInt64.ofNat (x.frac.toNat * 2 ^ (s - 11))).toNat =
      x.frac.toNat * 2 ^ (s - 11) := by
    rw [raised.1, split, ← Nat.mul_assoc] at word
    rw [UInt64.toNat_ofNat']
    omega
  have middle : (⟨UInt64.ofNat (x.frac.toNat * 2 ^ (s - 11)), x.exp - (s - 11 : ℕ)⟩ :
      ExtFloat).RaisedBy x.normalize 11 := by
    constructor
    · rw [raised.1, kept, split, Nat.mul_assoc]
    · rw [raised.2]
      dsimp only
      omega
  have cutOff := cut_of_raisedBy middle (by decide) (by decide)
  have first : x.RaisedBy ⟨UInt64.ofNat (x.frac.toNat * 2 ^ (s - 11)), x.exp - (s - 11 : ℕ)⟩
      (s - 11) := ⟨kept, rfl⟩
  have exponent : x.normalize.exp + 64 - (53 : ℕ) = x.exp - (s - 11 : ℕ) := by
    rw [raised.2]
    omega
  rw [← first.value_eq, round, cutOff]
  simp only [roundsUp_zero, Bool.false_eq_true, if_false, exponent]

/-- The pattern in the 64-bit format of a number in range denotes it. -/
theorem IsInRange.numberAt_pattern64 (h : x.IsInRange) :
    FloatFormat.binary64.numberAt x.pattern64.toNat = x.value := by
  obtain ⟨n, finite, value⟩ := h.exists_numberAt
  have encoded := (FloatFormat.isSupported_binary64.fitsWord (by decide)).toNat_toBits finite.le
    (h.value_round.trans value.symm)
  rw [pattern64, encoded, value]

theorem numberAt_hugePattern :
    FloatFormat.binary64.numberAt hugePattern.toNat = 10 ^ 9 := by
  have number : hugePattern.toNat = 4741671816366391296 := rfl
  rw [number]
  norm_num [FloatFormat.numberAt, FloatFormat.binary64, FloatFormat.lowestExp, FloatFormat.bias]

/-- The largest tiny number. -/
theorem numberAt_tinyPattern :
    FloatFormat.binary64.numberAt tinyPattern.toNat = 5902958103587057 / 2 ^ 69 := by
  have number : tinyPattern.toNat = 4532020583610935537 := rfl
  rw [number]
  norm_num [FloatFormat.numberAt, FloatFormat.binary64, FloatFormat.lowestExp, FloatFormat.bias]

/-- Sizes are told apart exactly. -/
theorem IsInRange.size_eq (h : x.IsInRange) :
    x.size = if x.value ≤ 5902958103587057 / 2 ^ 69 then .tiny
      else if x.value < 10 ^ 9 then .moderate else .huge := by
  have mono := FloatFormat.binary64.numberAt_strictMono
  have tiny : x.pattern64 ≤ tinyPattern ↔ x.value ≤ 5902958103587057 / 2 ^ 69 := by
    rw [← numberAt_tinyPattern, ← h.numberAt_pattern64, mono.le_iff_le, UInt64.le_iff_toNat_le]
  have huge : x.pattern64 < hugePattern ↔ x.value < 10 ^ 9 := by
    rw [← numberAt_hugePattern, ← h.numberAt_pattern64, mono.lt_iff_lt, UInt64.lt_iff_toNat_lt]
  simp only [size, tiny, huge]

theorem IsInRange.size_eq_tiny_iff (h : x.IsInRange) :
    x.size = .tiny ↔ x.value ≤ 5902958103587057 / 2 ^ 69 := by
  rw [h.size_eq]
  split_ifs with tiny moderate <;> simp [tiny]

theorem IsInRange.size_eq_moderate_iff (h : x.IsInRange) :
    x.size = .moderate ↔ 5902958103587057 / 2 ^ 69 < x.value ∧ x.value < 10 ^ 9 := by
  rw [h.size_eq]
  split_ifs with tiny moderate
  · simp [not_lt.mpr tiny]
  · simp [moderate, not_le.mp tiny]
  · simp [moderate]

/-- Rounding does not lead out of the binade of a number, but to the power of
two above it. -/
theorem round_within_binade (positive : 0 < x.value) : ∃ k : ℤ,
    2 ^ k ≤ x.value ∧ x.value < 2 ^ (k + 1) ∧
      2 ^ k ≤ (x.round 53).value ∧ (x.round 53).value ≤ 2 ^ (k + 1) := by
  obtain ⟨s, raised, large⟩ := normalize_raisedBy (frac_ne_zero_of_value_pos positive)
  have word := x.normalize.frac.toNat_lt
  have kept_ge : 2 ^ 52 ≤ (cut x.normalize.frac 53).1.toNat := two_pow_le_cut large (by decide)
  have kept_lt : (cut x.normalize.frac 53).1.toNat < 2 ^ 53 := cut_lt _ (by decide)
  have carried := (FloatFormat.FitsWord.carried_iff 53 (by decide) kept_lt).1
  have value_eq := raised.value_eq
  rw [round]
  generalize x.normalize = y at *
  dsimp only
  set mantissa := if roundsUp (cut y.frac 53).1 (cut y.frac 53).2 then (cut y.frac 53).1 + 1
    else (cut y.frac 53).1
  have mantissa_ge : 2 ^ 52 ≤ mantissa.toNat := by
    simp only [mantissa]
    split <;> omega
  have mantissa_le : mantissa.toNat ≤ 2 ^ 53 := by
    simp only [mantissa]
    split <;> omega
  -- Both powers on the scale of a fraction with some unit of its last place.
  have scaled (n : ℕ) (e : ℤ) : (2 : ℚ) ^ (n + e) = (2 ^ n : ℕ) * 2 ^ e := by
    rw [zpow_add₀ (by norm_num), zpow_natCast]
    push_cast
    rfl
  refine ⟨(63 : ℕ) + y.exp, ?_, ?_, ?_, ?_⟩
  · rw [← value_eq, value, scaled]
    gcongr
  · have exponent : ((63 : ℕ) : ℤ) + y.exp + 1 = (64 : ℕ) + y.exp := by omega
    rw [← value_eq, value, exponent, scaled]
    gcongr
  · have exponent : ((63 : ℕ) : ℤ) + y.exp = (52 : ℕ) + (y.exp + 64 - (53 : ℕ)) := by omega
    rw [value, exponent, scaled]
    gcongr
  · have exponent : ((63 : ℕ) : ℤ) + y.exp + 1 = (53 : ℕ) + (y.exp + 64 - (53 : ℕ)) := by omega
    rw [value, exponent, scaled]
    gcongr

section PowersOfTwo

variable {n : Nat} {j : ℤ}

theorem two_zpow_le_round (le : 2 ^ j ≤ x.value) : 2 ^ j ≤ (x.round 53).value := by
  obtain ⟨k, -, high, round_ge, -⟩ := round_within_binade (lt_of_lt_of_le (by positivity) le)
  have exponent := (zpow_lt_zpow_iff_right₀ (by norm_num)).mp (le.trans_lt high)
  exact (zpow_le_zpow_right₀ (by norm_num) (by omega)).trans round_ge

theorem round_le_two_zpow (positive : 0 < x.value) (lt : x.value < 2 ^ j) :
    (x.round 53).value ≤ 2 ^ j := by
  obtain ⟨k, low, -, -, round_le⟩ := round_within_binade positive
  have exponent := (zpow_lt_zpow_iff_right₀ (by norm_num)).mp (low.trans_lt lt)
  exact round_le.trans (zpow_le_zpow_right₀ (by norm_num) (by omega))

theorem isNearest_pattern64 (x : ExtFloat) :
    FloatFormat.binary64.IsNearest (x.round 53).value x.pattern64.toNat :=
  (FloatFormat.isSupported_binary64.fitsWord (by decide)).isNearest_toBits _

/-- Numbers from a power of two on have a pattern from its own on. -/
theorem le_pattern64 (finite : n ≤ 2047 * 2 ^ 52)
    (number : FloatFormat.binary64.numberAt n = 2 ^ j) (le : 2 ^ j ≤ x.value) :
    n ≤ x.pattern64.toNat :=
  (FloatFormat.isNearest_numberAt finite).mono (isNearest_pattern64 x)
    (number.trans_le (two_zpow_le_round le))

/-- Numbers below a power of two have a pattern up to its own. -/
theorem pattern64_le (finite : n ≤ 2047 * 2 ^ 52)
    (number : FloatFormat.binary64.numberAt n = 2 ^ j) (positive : 0 < x.value)
    (lt : x.value < 2 ^ j) : x.pattern64.toNat ≤ n :=
  (isNearest_pattern64 x).mono (FloatFormat.isNearest_numberAt finite)
    ((round_le_two_zpow positive lt).trans_eq number.symm)

end PowersOfTwo

theorem numberAt_onePattern :
    FloatFormat.binary64.numberAt 4607182418800017408 = 2 ^ (0 : ℤ) := by
  norm_num [FloatFormat.numberAt, FloatFormat.binary64, FloatFormat.lowestExp, FloatFormat.bias]

/-- No number from one on is tiny, whatever its bits. -/
theorem lt_one_of_size_eq_tiny (tiny : x.size = .tiny) : x.value < 1 := by
  by_contra above
  have pattern := le_pattern64 (by decide) numberAt_onePattern (not_lt.mp above)
  have tinyWord : tinyPattern.toNat = 4532020583610935537 := rfl
  have larger : ¬ x.pattern64 ≤ tinyPattern := by
    rw [UInt64.le_iff_toNat_le]
    omega
  rw [size, if_neg larger] at tiny
  split at tiny <;> cases tiny

/-- Every moderate number is below the first power of two above the huge ones,
whatever its bits. -/
theorem lt_two_pow_of_size_eq_moderate (moderate : x.size = .moderate) : x.value < 2 ^ 30 := by
  have number : FloatFormat.binary64.numberAt 4742290407621132288 = 2 ^ ((30 : ℕ) : ℤ) := by
    norm_num [FloatFormat.numberAt, FloatFormat.binary64, FloatFormat.lowestExp, FloatFormat.bias]
  by_contra above
  have pattern := le_pattern64 (by decide) number (by rw [zpow_natCast]; exact not_lt.mp above)
  have hugeWord : hugePattern.toNat = 4741671816366391296 := rfl
  have larger : ¬ x.pattern64 < hugePattern := by
    rw [UInt64.lt_iff_toNat_lt]
    omega
  rw [size, if_neg larger] at moderate
  split at moderate <;> cases moderate

/-- No number below one is huge, whatever its bits. -/
theorem one_le_of_size_eq_huge (positive : 0 < x.value) (huge : x.size = .huge) :
    1 ≤ x.value := by
  by_contra below
  have pattern := pattern64_le (by decide) numberAt_onePattern positive (not_le.mp below)
  have hugeWord : hugePattern.toNat = 4741671816366391296 := rfl
  have smaller : x.pattern64 < hugePattern := by
    rw [UInt64.lt_iff_toNat_lt]
    omega
  rw [size, if_pos smaller] at huge
  split at huge <;> cases huge

/-- The steps lead to the first power that reaches the goal. -/
theorem stepsTo_spec {factor goal fuel n : Nat} (enough : goal ≤ n * factor ^ fuel) :
    goal ≤ n * factor ^ stepsTo factor goal fuel n ∧
      ∀ k < stepsTo factor goal fuel n, n * factor ^ k < goal := by
  induction fuel generalizing n with
  | zero => exact ⟨enough, by simp [stepsTo]⟩
  | succ fuel ih =>
      rw [stepsTo]
      by_cases reached : goal ≤ n
      · rw [if_pos reached]
        exact ⟨by simpa using reached, by simp⟩
      · rw [if_neg reached]
        obtain ⟨reach, before⟩ := ih (n := n * factor) (by
          rwa [Nat.mul_assoc, ← pow_succ'])
        constructor
        · rwa [Nat.add_comm, pow_succ', ← Nat.mul_assoc]
        · intro k lt
          cases k with
          | zero => simpa using Nat.lt_of_not_le reached
          | succ k =>
              rw [pow_succ', ← Nat.mul_assoc]
              exact before k (by omega)

/-- No number from the smallest one on is taken for zero. -/
theorem pattern64_ne_zero (least : 2 ^ (-1074 : ℤ) ≤ x.value) : x.pattern64 ≠ 0 := by
  have smallest : FloatFormat.binary64.numberAt 1 = 2 ^ (-1074 : ℤ) := by
    norm_num [FloatFormat.numberAt, FloatFormat.binary64, FloatFormat.lowestExp, FloatFormat.bias]
  have pattern := le_pattern64 (by decide) smallest least
  intro zero
  simp [zero] at pattern

/-- The logarithm of a number below one is exact. -/
theorem logBelowOne_eq (r : Radix) (least : 2 ^ (-1074 : ℤ) ≤ x.value) (below : x.value < 1) :
    x.logBelowOne r = Int.log r.val x.value := by
  have positive : 0 < x.value := lt_of_lt_of_le (by positivity) least
  have negative := exp_neg positive below
  have nonzero := pattern64_ne_zero least
  have le_exp := neg_lt_exp least
  have frac_pos := toNat_frac_pos (frac_ne_zero_of_value_pos positive)
  obtain ⟨k, exp⟩ := Int.eq_ofNat_of_zero_le (show 0 ≤ -x.exp by omega)
  have exp' : x.exp = -(k : ℤ) := by omega
  have power : (0 : ℚ) < 2 ^ k := by positivity
  have value : x.value * 2 ^ k = x.frac.toNat := by
    rw [ExtFloat.value, exp', zpow_neg, zpow_natCast, inv_mul_cancel_right₀ power.ne']
  have enough : 2 ^ k ≤ x.frac.toNat * r.val ^ 1200 := by
    calc
      2 ^ k ≤ 2 ^ 1200 := Nat.pow_le_pow_right (by decide) (by omega)
      _ ≤ r.val ^ 1200 := r.two_pow_le _
      _ ≤ x.frac.toNat * r.val ^ 1200 := Nat.le_mul_of_pos_left _ frac_pos
  obtain ⟨reach, before⟩ := stepsTo_spec enough
  rw [logBelowOne, if_neg nonzero, exp, Int.toNat_natCast, Nat.one_shiftLeft]
  set steps := stepsTo r.val (2 ^ k) 1200 x.frac.toNat
  have radix := r.cast_val_pos
  have lower : (r.val : ℚ) ^ (-(steps : ℤ)) ≤ x.value := by
    have reach' : (2 : ℚ) ^ k ≤ x.frac.toNat * r.val ^ steps := by exact_mod_cast reach
    rw [← value, mul_right_comm, le_mul_iff_one_le_left power] at reach'
    rwa [zpow_neg, zpow_natCast, inv_le_iff_one_le_mul₀ (by positivity)]
  have upper : x.value < (r.val : ℚ) ^ (-(steps : ℤ) + 1) := by
    cases count : steps with
    | zero => simpa using lt_of_lt_of_le below (by exact_mod_cast r.val_pos)
    | succ j =>
        have before' : (x.frac.toNat : ℚ) * r.val ^ j < 2 ^ k := by
          exact_mod_cast before j (by omega)
        rw [← value, mul_right_comm, mul_lt_iff_lt_one_left power] at before'
        have exponent : -((j + 1 : ℕ) : ℤ) + 1 = -(j : ℤ) := by omega
        rw [exponent, zpow_neg, zpow_natCast, ← one_div, lt_div_iff₀ (by positivity)]
        exact before'
  have atLeast := (Int.zpow_le_iff_le_log r.one_lt_val positive).mp lower
  have less := (Int.lt_zpow_iff_log_lt r.one_lt_val positive).mp upper
  omega

theorem abs_logBelowOne_sub_log_le (r : Radix) (least : 2 ^ (-1074 : ℤ) ≤ x.value)
    (below : x.value < 1) : |x.logBelowOne r - Int.log r.val x.value| ≤ 1 := by
  simp [logBelowOne_eq r least below]

/-- Some way to estimate the logarithms of numbers below one is off by one at
most. -/
def EstimatesLog (log : Radix → ExtFloat → Int) : Prop :=
  ∀ (r : Radix) (x : ExtFloat), x.IsInRange → x.value < 1 →
    |log r x - Int.log r.val x.value| ≤ 1

theorem estimatesLog_logBelowOne : EstimatesLog logBelowOne := by
  intro r x range below
  have least : 2 ^ (-1074 : ℤ) ≤ x.value :=
    (zpow_le_zpow_right₀ (by norm_num) range.le_exp).trans (two_zpow_exp_le range.value_pos)
  exact abs_logBelowOne_sub_log_le r least below

end ExtFloat

end RadixText
