import RadixText.Proofs.RadixMultiples
import RadixText.Proofs.WholeExpansions

/-!
# The digits found are the shortest ones

Around a number that lies in the middle of its neighbourhood the digits of its
expansion are the shortest and nearest ones. The digits of a fraction end at
the first place that has a multiple within the reach. The digits of a whole
number are rounded at the last place that has one.
-/

namespace RadixText

theorem Neighbourhood.below_eq_above {hood : Neighbourhood} (regular : hood.closerBelow = false) :
    hood.below = hood.above := by
  simp [below, regular]

theorem Neighbourhood.reachBelow_eq_reachAbove {hood : Neighbourhood}
    (regular : hood.closerBelow = false) : hood.reachBelow = hood.reachAbove := by
  rw [reachBelow, reachAbove, below_eq_above regular]

namespace Expansion

variable {r : Radix} {x : ExtFloat} {hood : Neighbourhood} {up : Bool}

/-! ## Whole numbers -/

section Whole

variable {n count : ℕ}

/-- The distances of a number to the multiples around it are its low digits and
what they lack to a unit. -/
theorem sub_div_mul (r : Radix) (n count : Nat) :
    (n : ℚ) - (n / r.val ^ count : ℕ) * r.val ^ count = (n % r.val ^ count : ℕ) ∧
      ((n / r.val ^ count : ℕ) + 1) * r.val ^ count - (n : ℚ) =
        (r.val ^ count - n % r.val ^ count : ℕ) := by
  have split := div_mul_add_mod r n count
  have less := Nat.mod_lt n (r.val_pow_pos count)
  rw [Nat.cast_sub less.le]
  push_cast at split ⊢
  constructor <;> linarith

namespace Rounds

theorem roundsTo (h : Rounds r hood n count up) (regular : hood.closerBelow = false) :
    r.RoundsTo n (r.val ^ count) (n / r.val ^ count) up := by
  obtain ⟨lower, upper⟩ := sub_div_mul r n count
  have same := Neighbourhood.reachBelow_eq_reachAbove regular
  refine ⟨?_, ?_, ?_, ?_⟩
  · rw [← sub_nonneg, lower]
    exact Nat.cast_nonneg _
  · rw [← sub_nonneg, upper]
    exact Nat.cast_nonneg _
  · intro down
    obtain ⟨fits, prefers⟩ := h.down down
    rw [lower, upper]
    rcases prefers with far | less | ⟨tie, even⟩
    · left
      rw [FitsDown, same] at fits
      exact lt_of_lt_of_le fits (not_lt.mp far)
    · exact .inl (Nat.cast_lt.mpr less)
    · exact .inr ⟨congrArg Nat.cast tie, even⟩
  · intro raised
    obtain ⟨fits, prefers⟩ := h.up raised
    rw [lower, upper]
    rcases prefers with far | more | ⟨tie, odd⟩
    · left
      rw [FitsDown, same] at far
      exact lt_of_lt_of_le fits (not_lt.mp far)
    · exact .inl (Nat.cast_lt.mpr more)
    · exact .inr ⟨congrArg Nat.cast tie, odd⟩

theorem inside (h : Rounds r hood n count up) (regular : hood.closerBelow = false) :
    |(n : ℚ) - (n / r.val ^ count + up.toNat : ℕ) * r.val ^ count| < hood.reachAbove := by
  obtain ⟨lower, upper⟩ := sub_div_mul r n count
  cases up with
  | false =>
      have fits := (h.down rfl).1
      rw [FitsDown, Neighbourhood.reachBelow_eq_reachAbove regular] at fits
      rw [Bool.toNat_false, Nat.add_zero, lower, abs_of_nonneg (Nat.cast_nonneg _)]
      exact fits
  | true =>
      have fits := (h.up rfl).1
      rw [FitsUp] at fits
      rw [Bool.toNat_true, Nat.cast_add, Nat.cast_one, abs_sub_comm, upper,
        abs_of_nonneg (Nat.cast_nonneg _)]
      exact fits

end Rounds

/-- If a run fits neither down nor up, no multiple of its unit is within the
reach. -/
theorem reachAbove_le_abs_sub (regular : hood.closerBelow = false)
    (down : ¬ FitsDown r hood n count) (above : ¬ FitsUp r hood n count) (m : ℤ) :
    hood.reachAbove ≤ |(n : ℚ) - m * r.val ^ count| := by
  obtain ⟨lower, upper⟩ := sub_div_mul r n count
  rw [FitsDown, Neighbourhood.reachBelow_eq_reachAbove regular, not_lt] at down
  rw [FitsUp, not_lt] at above
  have unit := r.cast_val_pow_pos count
  apply le_abs_sub_multiple (a := (n / r.val ^ count : ℕ)) unit
  · rw [← sub_nonneg, Int.cast_natCast, lower]
    exact Nat.cast_nonneg _
  · rw [Int.cast_natCast, lower]
    exact down
  · rw [Int.cast_natCast, upper]
    exact above

end Whole

/-- The digits of a float with a positive exponent are the shortest ones, unless
its leading digit is not worth one. -/
theorem ofWhole_isShortest (range : x.IsInRange) (suits : hood.Suits x)
    (regular : hood.closerBelow = false) (positive : 0 < x.exp) (wide : r.val ≤ x.frac.toNat) :
    ∃ (e : Expansion) (m : ℕ) (j : ℤ), ofWhole x hood r = .ok e ∧
      e.value r = m * (r.val : ℚ) ^ j ∧ r.IsShortest x.value hood.reachAbove m j := by
  obtain ⟨n, count, up, value, -, -, rounds, made⟩ :=
    ofWhole_eq range.value_pos range.value_lt positive r hood
  have total : (⟨roundedDigits r n count up, []⟩ : Expansion).value r =
      (n / r.val ^ count + up.toNat : ℕ) * (r.val : ℚ) ^ (count : ℤ) := by
    rw [Expansion.value, Radix.pointValue, ofDigits_roundedDigits, rounded, zpow_natCast]
    push_cast
    simp
  have inside := rounds.inside regular
  rw [value]
  rcases rounds.longest with last | ⟨down, above⟩
  · -- With the leading digit alone the unit is wider than the neighbourhood.
    have narrow : 2 * hood.reachAbove ≤ (r.val : ℚ) ^ count := by
      have radix := r.cast_val_pos
      have frac : (r.val : ℚ) ≤ x.frac.toNat := by exact_mod_cast wide
      have bound : (n : ℚ) < r.val ^ (count + 1) := by exact_mod_cast last
      rw [suits.reachAbove_eq, ← value, ExtFloat.value, pow_succ] at *
      have unit : (0 : ℚ) < 2 ^ x.exp := by positivity
      have scaled := mul_le_mul_of_nonneg_right frac unit.le
      nlinarith
    have nonzero : n / r.val ^ count + up.toNat ≠ 0 :=
      (Nat.add_pos_left (Nat.div_pos rounds.leading (r.val_pow_pos count)) _).ne'
    have unit := r.cast_val_pow_pos count
    obtain ⟨m, j, same, shortest⟩ := Radix.IsShortest.of_unique (r := r) (k := count) nonzero
      (by rwa [zpow_natCast]) (fun m' inside' => eq_of_abs_sub_lt unit narrow
        (by rwa [zpow_natCast] at inside') inside)
    exact ⟨_, m, j, made, total.trans same.symm, shortest⟩
  · refine ⟨_, _, count, made, total, Radix.IsShortest.of_roundsTo ?_ ?_ ?_⟩
    · rw [zpow_natCast]
      exact rounds.roundsTo regular
    · rwa [zpow_natCast]
    · intro m
      have far := reachAbove_le_abs_sub regular down above m
      rwa [← Nat.cast_succ, zpow_natCast]

/-! ## Fractions -/

section Fraction

variable {scale fraction reach place : ℕ}

namespace StopsAt

/-- Digits that end without rounding leave no more than a half, and a half
behind an even digit only. -/
theorem nearest_down (h : StopsAt r scale fraction reach reach place false)
    (place_pos : 0 < place) :
    restAt r scale fraction place < 2 ^ scale - restAt r scale fraction place ∨
      restAt r scale fraction place = 2 ^ scale - restAt r scale fraction place ∧
        digitsAt r scale fraction place % r.val % 2 = 0 := by
  obtain ⟨spent, unraised⟩ := h.down rfl
  have raised := unraised place_pos
  rw [SpentAt] at spent
  rw [RaisedAt] at raised
  omega

theorem nearest_up (h : StopsAt r scale fraction reach reach place true) :
    2 ^ scale - restAt r scale fraction place < restAt r scale fraction place ∨
      2 ^ scale - restAt r scale fraction place = restAt r scale fraction place ∧
        digitsAt r scale fraction place % r.val % 2 = 1 := by
  have half := (h.up rfl).2.1
  have rest := restAt_lt r scale fraction place
  omega

theorem within_down (h : StopsAt r scale fraction 1 1 place false) :
    restAt r scale fraction place < r.val ^ place := by
  simpa [SpentAt] using (h.down rfl).1

theorem within_up (h : StopsAt r scale fraction 1 1 place true) :
    2 ^ scale - restAt r scale fraction place < r.val ^ place := by
  have beyond := (h.up rfl).2.2
  have rest := restAt_lt r scale fraction place
  omega

/-- At an earlier place both neighbouring digits lie outside the reach. -/
theorem outside (h : StopsAt r scale fraction 1 1 place up) {k : ℕ} (lt : k < place) :
    r.val ^ k ≤ restAt r scale fraction k ∧
      r.val ^ k ≤ 2 ^ scale - restAt r scale fraction k := by
  have unspent := h.unspent k lt
  have raised := h.unraised k lt
  have rest := restAt_lt r scale fraction k
  rw [SpentAt] at unspent
  refine ⟨by omega, ?_⟩
  by_cases first : k = 0
  · rw [first] at rest ⊢
    rw [pow_zero]
    omega
  · have unraised := raised (Nat.pos_of_ne_zero first)
    rw [RaisedAt] at unraised
    omega

end StopsAt

/-- The digits of a float on both sides of the point up to a place, as a
number. -/
def truncated (r : Radix) (x : ExtFloat) (hood : Neighbourhood) (place : ℕ) : ℕ :=
  x.frac.toNat / 2 ^ (-x.exp).toNat * r.val ^ place +
    digitsAt r (scaleBits x hood) (scaledFraction x hood) place

theorem truncated_mod (r : Radix) (x : ExtFloat) (hood : Neighbourhood) (place_pos : 0 < place) :
    truncated r x hood place % r.val =
      digitsAt r (scaleBits x hood) (scaledFraction x hood) place % r.val := by
  obtain ⟨k, rfl⟩ := Nat.exists_eq_succ_of_ne_zero place_pos.ne'
  rw [truncated, Nat.succ_eq_add_one, pow_succ, ← Nat.mul_assoc, Nat.mul_comm _ r.val,
    Nat.mul_add_mod]

/-- The digits up to a place and what they leave make up the float. -/
theorem value_mul_pow (r : Radix) (hood : Neighbourhood) (nonpos : x.exp ≤ 0) (place : ℕ) :
    x.value * r.val ^ place = truncated r x hood place +
      (restAt r (scaleBits x hood) (scaledFraction x hood) place : ℚ) / 2 ^ scaleBits x hood := by
  have number := (scaled_eq hood nonpos).1
  have split := digitsAt_add_restAt r (scaleBits x hood) (scaledFraction x hood) place
  have unit : (2 : ℚ) ^ scaleBits x hood ≠ 0 := by positivity
  have parts := congrArg (Nat.cast (R := ℚ)) split
  push_cast at parts
  rw [value_eq_div nonpos, ← number, truncated, add_mul, div_mul_eq_mul_div, ← parts]
  push_cast
  field_simp
  ring

/-- The distances to the multiples around a float, and the reach, in one unit. -/
theorem exists_weight (suits : hood.Suits x) (regular : hood.closerBelow = false)
    (nonpos : x.exp ≤ 0) (r : Radix) (place : ℕ) : ∃ weight : ℚ, 0 < weight ∧
      x.value - truncated r x hood place * (r.val : ℚ) ^ (-place : ℤ) =
        restAt r (scaleBits x hood) (scaledFraction x hood) place * weight ∧
      (truncated r x hood place + 1) * (r.val : ℚ) ^ (-place : ℤ) - x.value =
        (2 ^ scaleBits x hood - restAt r (scaleBits x hood) (scaledFraction x hood) place : ℕ) *
          weight ∧
      hood.reachAbove = (r.val ^ place : ℕ) * weight := by
  have total := value_mul_pow r hood nonpos place
  have rest := (restAt_lt r (scaleBits x hood) (scaledFraction x hood) place).le
  have unit : (0 : ℚ) < 2 ^ scaleBits x hood := by positivity
  have power := r.cast_val_pow_pos place
  have reach := (scaled_eq hood nonpos).2.1
  have same : hood.above - unitExp x hood = 0 := by
    rw [unitExp_of_suits suits, Neighbourhood.below_eq_above regular, Int.sub_self]
  rw [same, Int.toNat_zero, pow_zero, Nat.cast_one] at reach
  have value : x.value = (truncated r x hood place +
      (restAt r (scaleBits x hood) (scaledFraction x hood) place : ℚ) / 2 ^ scaleBits x hood) /
        r.val ^ place := by
    rw [eq_div_iff power.ne', total]
  refine ⟨1 / (2 ^ scaleBits x hood * r.val ^ place), by positivity, ?_, ?_, ?_⟩
  · rw [value, zpow_neg, zpow_natCast]
    field_simp
    ring
  · rw [value, zpow_neg, zpow_natCast, Nat.cast_sub rest]
    push_cast
    field_simp
    ring
  · rw [← reach]
    push_cast
    field_simp

/-- The digits that are found denote those up to their last place, rounded up
or not. -/
theorem EndsIn.value {result : List Nat × Bool} (h : EndsIn r x hood result place up) :
    (ofParts r (x.frac.toNat / 2 ^ (-x.exp).toNat) result).value r =
      (truncated r x hood place + up.toNat : ℕ) * (r.val : ℚ) ^ (-place : ℤ) := by
  have scaled := congrArg (Nat.cast (R := ℚ)) (EndsAt.value h)
  have power : (r.val : ℚ) ^ place =
      r.val ^ result.1.length * r.val ^ (place - result.1.length) := by
    rw [← pow_add, Nat.add_sub_cancel' (EndsAt.length_le h)]
  have kept := r.cast_val_pow_pos result.1.length
  have dropped := r.cast_val_pow_pos (place - result.1.length)
  push_cast at scaled
  rw [value_ofParts, truncated, zpow_neg, zpow_natCast, power]
  push_cast
  rw [add_assoc, ← scaled, power]
  field_simp

/-- A float with an exponent from zero down is rounded to the place where its
digits end, and stays within the reach. -/
theorem EndsIn.roundsTo {result : List Nat × Bool} (h : EndsIn r x hood result place up)
    (suits : hood.Suits x) (regular : hood.closerBelow = false) (nonpos : x.exp ≤ 0) :
    (0 < place → r.RoundsTo x.value ((r.val : ℚ) ^ (-place : ℤ)) (truncated r x hood place) up) ∧
      |x.value - (truncated r x hood place + up.toNat : ℕ) * (r.val : ℚ) ^ (-place : ℤ)| <
        hood.reachAbove ∧
      ∀ k < place, ∀ m : ℤ,
        hood.reachAbove ≤ |x.value - m * (r.val : ℚ) ^ (-k : ℤ)| := by
  have stops : StopsAt r (scaleBits x hood) (scaledFraction x hood) 1 1 place up := by
    have all := EndsAt.stops h
    rwa [unitExp_of_suits suits, Neighbourhood.below_eq_above regular, Int.sub_self,
      Int.toNat_zero, pow_zero] at all
  obtain ⟨weight, positive, lower, upper, reach⟩ := exists_weight suits regular nonpos r place
  refine ⟨fun place_pos => ⟨?_, ?_, ?_, ?_⟩, ?_, ?_⟩
  · rw [← sub_nonneg, lower]
    positivity
  · rw [← sub_nonneg, upper]
    positivity
  · rintro rfl
    rw [lower, upper, truncated_mod r x hood place_pos]
    rcases stops.nearest_down place_pos with less | ⟨tie, even⟩
    · exact .inl (mul_lt_mul_of_pos_right (Nat.cast_lt.mpr less) positive)
    · exact .inr ⟨congrArg (fun n : ℕ => (n : ℚ) * weight) tie, even⟩
  · rintro rfl
    rw [lower, upper, truncated_mod r x hood place_pos]
    rcases stops.nearest_up with more | ⟨tie, odd⟩
    · exact .inl (mul_lt_mul_of_pos_right (Nat.cast_lt.mpr more) positive)
    · exact .inr ⟨congrArg (fun n : ℕ => (n : ℚ) * weight) tie, odd⟩
  · rw [reach]
    cases up with
    | false =>
        rw [Bool.toNat_false, Nat.add_zero, lower, abs_of_nonneg (by positivity)]
        exact mul_lt_mul_of_pos_right (Nat.cast_lt.mpr stops.within_down) positive
    | true =>
        rw [Bool.toNat_true, Nat.cast_add, Nat.cast_one, abs_sub_comm, upper,
          abs_of_nonneg (by positivity)]
        exact mul_lt_mul_of_pos_right (Nat.cast_lt.mpr stops.within_up) positive
  · intro k lt m
    obtain ⟨weight, positive, lower, upper, reach⟩ := exists_weight suits regular nonpos r k
    obtain ⟨down, above⟩ := stops.outside lt
    rw [reach]
    apply le_abs_sub_multiple (a := truncated r x hood k) (r.cast_val_zpow_pos _)
    · rw [← sub_nonneg, Int.cast_natCast, lower]
      positivity
    · rw [Int.cast_natCast, lower]
      exact mul_le_mul_of_nonneg_right (Nat.cast_le.mpr down) positive.le
    · rw [Int.cast_natCast, upper]
      exact mul_le_mul_of_nonneg_right (Nat.cast_le.mpr above) positive.le

/-- The digits of a float with an exponent from zero down are the shortest
ones. -/
theorem ofFractional_isShortest (range : x.IsInRange) (suits : hood.Suits x)
    (regular : hood.closerBelow = false) (nonpos : x.exp ≤ 0) (r : Radix) :
    ∃ (e : Expansion) (m : ℕ) (j : ℤ), ofFractional x hood r = .ok e ∧
      e.value r = m * (r.val : ℚ) ^ j ∧ r.IsShortest x.value hood.reachAbove m j := by
  obtain ⟨result, place, up, ends, -, made⟩ := ofFractional_suits range suits nonpos r
  have value := ends.value
  obtain ⟨rounds, inside, outside⟩ := ends.roundsTo suits regular nonpos
  cases place with
  | zero =>
      -- The float is whole, and no other whole number is as near as its last bit.
      have half := suits.two_mul_reachAbove_le range
      have narrow : 2 * hood.reachAbove ≤ (r.val : ℚ) ^ (-(0 : ℕ) : ℤ) := by
        have unit : (2 : ℚ) ^ x.exp ≤ 1 := zpow_le_one_of_nonpos₀ (by norm_num) nonpos
        rw [suits.reachAbove_eq, Nat.cast_zero, neg_zero, zpow_zero]
        linarith
      have nonzero : truncated r x hood 0 + up.toNat ≠ 0 := by
        intro zero
        have positive := range.value_pos
        rw [zero, Nat.cast_zero, zero_mul, sub_zero, abs_of_pos positive] at inside
        linarith
      obtain ⟨m, j, same, shortest⟩ := Radix.IsShortest.of_unique nonzero inside
        fun m' inside' => eq_of_abs_sub_lt (r.cast_val_zpow_pos _) narrow inside' inside
      exact ⟨_, m, j, made, value.trans same.symm, shortest⟩
  | succ k =>
      refine ⟨_, _, _, made, value, .of_roundsTo (rounds (Nat.succ_pos k)) inside ?_⟩
      intro m
      have exponent : -((k + 1 : ℕ) : ℤ) + 1 = -(k : ℤ) := by omega
      rw [exponent]
      exact outside k (Nat.lt_succ_self k) m

end Fraction

/-- The digits of a number of a wide format are the shortest ones. -/
theorem ofExtFloat_isShortest (range : x.IsInRange) (suits : hood.Suits x)
    (regular : hood.closerBelow = false) (wide : 0 < x.exp → r.val ≤ x.frac.toNat) :
    ∃ (e : Expansion) (m : ℕ) (j : ℤ), ofExtFloat x hood r = .ok e ∧
      e.value r = m * (r.val : ℚ) ^ j ∧ r.IsShortest x.value hood.reachAbove m j := by
  have nonzero := ExtFloat.frac_ne_zero_of_value_pos range.value_pos
  rw [ofExtFloat, Precondition.require_of_kept _ nonzero]
  change ∃ (e : Expansion) (m : ℕ) (j : ℤ), (if x.exp ≤ 0 then _ else _) = _ ∧ _
  by_cases nonpos : x.exp ≤ 0
  · rw [if_pos nonpos]
    exact ofFractional_isShortest range suits regular nonpos r
  · rw [if_neg nonpos]
    have positive := not_le.mp nonpos
    exact ofWhole_isShortest range suits regular positive (wide positive)

end Expansion

end RadixText
