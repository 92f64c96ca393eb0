import RadixText.Expansion.Generate
import RadixText.Proofs.FractionalExpansions
import RadixText.Proofs.WholeDigits

/-!
# Expansions of whole floats

A float with a positive exponent is a whole number. Its digits are rounded
within the reaches to a multiple of a power of the radix, so that all but its
significant digits are zeros.
-/

namespace RadixText.Expansion

variable {r : Radix} {x : ExtFloat} {hood : Neighbourhood} {n count : Nat} {up : Bool}

/-- The number that is left after rounding. -/
def rounded (r : Radix) (n count : Nat) (up : Bool) : Nat :=
  (n / r.val ^ count + up.toNat) * r.val ^ count

theorem div_mul_add_mod (r : Radix) (n count : Nat) :
    ((n / r.val ^ count : ℕ) : ℚ) * r.val ^ count + (n % r.val ^ count : ℕ) = n := by
  exact_mod_cast Nat.div_add_mod' n (r.val ^ count)

theorem rounded_down (r : Radix) (n count : Nat) :
    (rounded r n count false : ℚ) = n - (n % r.val ^ count : ℕ) := by
  have split := div_mul_add_mod r n count
  rw [rounded, Bool.toNat_false, Nat.add_zero]
  push_cast at split ⊢
  linarith

theorem rounded_up (r : Radix) (n count : Nat) :
    (rounded r n count true : ℚ) = n + (r.val ^ count - n % r.val ^ count : ℕ) := by
  have split := div_mul_add_mod r n count
  have less := Nat.mod_lt n (r.val_pow_pos count)
  rw [rounded, Bool.toNat_true, Nat.cast_sub less.le]
  push_cast at split ⊢
  linarith

namespace Rounds

/-- A rounded number stays within the reach on its side. -/
theorem near (h : Rounds r hood n count up) :
    n - hood.reachBelow < rounded r n count up ∧ rounded r n count up < n + hood.reachAbove := by
  have below := hood.reachBelow_pos
  have order := hood.reachBelow_le_reachAbove
  cases up with
  | false =>
      have fits := (h.down rfl).1
      have nonneg : (0 : ℚ) ≤ (n % r.val ^ count : ℕ) := Nat.cast_nonneg _
      rw [FitsDown] at fits
      rw [rounded_down]
      constructor <;> linarith
  | true =>
      have fits := (h.up rfl).1
      have nonneg : (0 : ℚ) ≤ (r.val ^ count - n % r.val ^ count : ℕ) := Nat.cast_nonneg _
      rw [FitsUp] at fits
      rw [rounded_up]
      constructor <;> linarith

/-- The digits in front of the rounded ones denote a small number. -/
theorem lt_of_value_le (h : Rounds r hood n count up)
    (bits : (n : ℚ) ≤ 2 ^ 54 * hood.reachBelow) :
    n / r.val ^ count + up.toNat < 2 ^ 55 * r.val := by
  have carry := Bool.toNat_le up
  have radix := r.two_le
  rcases h.longest with last | ⟨down, above⟩
  · have digit : n / r.val ^ count < r.val := by
      rwa [Nat.div_lt_iff_lt_mul (r.val_pow_pos count), Nat.mul_comm, ← pow_succ]
    omega
  · -- The next longer run does not fit, so the reach below is less than its unit.
    have reach : hood.reachBelow ≤ (r.val : ℚ) ^ (count + 1) := by
      have less := Nat.mod_lt n (r.val_pow_pos (count + 1))
      have above_pos : 0 < hood.reachAbove := lt_of_lt_of_le
        hood.reachBelow_pos hood.reachBelow_le_reachAbove
      rw [FitsDown, not_lt] at down
      rw [FitsUp, not_lt, Nat.cast_sub less.le] at above
      push_cast at above down
      linarith
    have bound : n ≤ 2 ^ 54 * r.val * r.val ^ count := by
      have scaled : (n : ℚ) ≤ (2 ^ 54 * r.val * r.val ^ count : ℕ) := by
        calc
          (n : ℚ) ≤ 2 ^ 54 * hood.reachBelow := bits
          _ ≤ 2 ^ 54 * (r.val : ℚ) ^ (count + 1) := by gcongr
          _ = (2 ^ 54 * r.val * r.val ^ count : ℕ) := by
            push_cast
            ring
      exact_mod_cast scaled
    have quotient : n / r.val ^ count ≤ 2 ^ 54 * r.val :=
      Nat.div_le_of_le_mul (by rwa [Nat.mul_comm] at bound)
    omega

/-- In a radix that is a power of two only zeros are rounded away. -/
theorem exact (h : Rounds r hood n count up) (suits : hood.Suits x) {k e : Nat}
    (power : r.val = 2 ^ k) (exp : x.exp = e) (multiple : 2 ^ e ∣ n) :
    rounded r n count up = n := by
  have unit : r.val ^ count = 2 ^ (k * count) := by rw [power, pow_mul]
  have reach : hood.reachAbove < 2 ^ e := by
    have positive : (0 : ℚ) < 2 ^ e := by positivity
    rw [suits.reachAbove_eq, exp, zpow_natCast]
    linarith
  have positive := r.val_pow_pos count
  have less := Nat.mod_lt n positive
  have reach_pos := hood.reachBelow_pos
  have order := hood.reachBelow_le_reachAbove
  have split := Nat.div_add_mod' n (r.val ^ count)
  -- Either the run is short and made of zeros, or what is dropped or added is
  -- a multiple of the last place and yet less than it.
  rcases Nat.le_total (k * count) e with short | long
  · have zero : n % r.val ^ count = 0 := by
      rw [unit]
      exact Nat.mod_eq_zero_of_dvd (Nat.dvd_trans (Nat.pow_dvd_pow 2 short) multiple)
    have down : FitsDown r hood n count := by
      rw [FitsDown, zero, Nat.cast_zero]
      exact reach_pos
    cases up with
    | false =>
        rw [rounded, Bool.toNat_false, Nat.add_zero]
        omega
    | true =>
        rcases (h.up rfl).2 with exceeds | prefers
        · exact absurd down exceeds
        · rw [PrefersUp, zero] at prefers
          omega
  · have unit_multiple : 2 ^ e ∣ r.val ^ count := by
      rw [unit]
      exact Nat.pow_dvd_pow 2 long
    cases up with
    | false =>
        have fits := (h.down rfl).1
        have small : n % r.val ^ count < 2 ^ e := by
          rw [FitsDown] at fits
          exact_mod_cast lt_of_lt_of_le fits (le_trans order reach.le)
        have zero := Nat.eq_zero_of_dvd_of_lt ((Nat.dvd_mod_iff unit_multiple).mpr multiple) small
        rw [rounded, Bool.toNat_false, Nat.add_zero]
        omega
    | true =>
        have fits := (h.up rfl).1
        have small : r.val ^ count - n % r.val ^ count < 2 ^ e := by
          rw [FitsUp] at fits
          exact_mod_cast lt_trans fits reach
        have zero := Nat.eq_zero_of_dvd_of_lt
          (Nat.dvd_sub unit_multiple ((Nat.dvd_mod_iff unit_multiple).mpr multiple)) small
        omega

end Rounds

theorem ofDigits_roundedDigits (r : Radix) (n count : Nat) (up : Bool) :
    r.ofDigits (roundedDigits r n count up) = rounded r n count up := by
  rw [roundedDigits, Radix.ofDigits_append, Radix.ofDigits_digits,
    Radix.ofDigits_replicate_zero, List.length_replicate, Nat.add_zero, rounded]

/-- No zero stands in front of the rounded digits. -/
theorem digits_ofDigits_roundedDigits (leading : r.val ^ count ≤ n) :
    r.digits (r.ofDigits (roundedDigits r n count up)) = roundedDigits r n count up := by
  have quotient_pos := Nat.div_pos leading (r.val_pow_pos count)
  apply Radix.digits_ofDigits
  · simp [roundedDigits, r.digits_ne_nil]
  · intro d mem
    rcases List.mem_append.mp mem with mem | mem
    · exact r.lt_of_mem_digits mem
    · rw [List.eq_of_mem_replicate mem]
      exact r.val_pos
  · intro zero
    rw [roundedDigits, List.head?_append_of_ne_nil _ (r.digits_ne_nil _)] at zero
    exact absurd zero (r.head?_digits (by omega))

theorem value_eq_natCast (positive : 0 < x.exp) :
    x.value = (x.frac.toNat * 2 ^ x.exp.toNat : ℕ) := by
  have exp : x.exp = x.exp.toNat := by omega
  rw [ExtFloat.value, exp, zpow_natCast]
  push_cast
  rfl

/-- A float with a positive exponent is a whole number, and the digits of that
are rounded. -/
theorem ofWhole_eq (value_pos : 0 < x.value) (value_lt : x.value < 2 ^ 1024) (positive : 0 < x.exp)
    (r : Radix) (hood : Neighbourhood) : ∃ n count up, x.value = (n : ℕ) ∧ 2 ^ x.exp.toNat ∣ n ∧
      (r.digits n).length ≤ 1024 ∧ Rounds r hood n count up ∧
      ofWhole x hood r = .ok ⟨roundedDigits r n count up, []⟩ := by
  have exp_lt := ExtFloat.exp_lt value_pos value_lt
  obtain ⟨b, made, denotes⟩ := Bignum.ofShifted_denotes x.frac x.exp.toNat
    (by simp only [Bignum.room]; omega)
  have value := value_eq_natCast positive
  set n := x.frac.toNat * 2 ^ x.exp.toNat
  have nonzero : n ≠ 0 := by
    rw [value, Nat.cast_pos] at value_pos
    exact value_pos.ne'
  have n_lt : n < 2 ^ 1024 := by
    rw [value] at value_lt
    exact_mod_cast value_lt
  have n_lt_pow : n < r.val ^ 1024 := n_lt.trans_le (r.two_pow_le _)
  have small : n < Bignum.capacity := n_lt.trans_le (Bignum.two_pow_le_capacity (by decide))
  have length : (r.digits n).length ≤ 1024 := r.length_digits_le (by decide) n_lt_pow
  have found : wholeDigits r places b [] = .ok (r.digits n) :=
    wholeDigits_of_lt denotes (n_lt_pow.trans_le (pow_le_pow_right₀ r.val_pos (by decide)))
  obtain ⟨count, up, rounds, done⟩ := roundWhole_eq r hood nonzero small
    (by simp only [places]; omega)
  refine ⟨n, count, up, value, Nat.dvd_mul_left _ _, length, rounds, ?_⟩
  simp only [ofWhole, made, found, done, bind, Except.bind, pure, Except.pure]

theorem value_roundedDigits (r : Radix) (n count : Nat) (up : Bool) :
    (⟨roundedDigits r n count up, []⟩ : Expansion).value r = rounded r n count up := by
  rw [Expansion.value, Radix.pointValue, ofDigits_roundedDigits]
  simp

/-- The digits that a whole number is rounded to are close to it. -/
theorem Rounds.isClose (rounds : Rounds r hood n count up) (positive : 0 < x.exp)
    (value : x.value = n) (length : (r.digits n).length ≤ 1024) :
    (⟨roundedDigits r n count up, []⟩ : Expansion).IsClose r x hood := by
  have total := value_roundedDigits r n count up
  obtain ⟨below, above⟩ := rounds.near
  have longer := length_roundedDigits_le rounds.leading up
  refine ⟨digits_ofDigits_roundedDigits rounds.leading, by simp, ?_, ?_, ?_, by simp, ?_, ?_,
    by simp⟩
  · rwa [total, value]
  · rwa [total, value]
  · intro _
    have kept := Nat.div_pos rounds.leading (r.val_pow_pos count)
    have power := r.val_pow_pos count
    rw [ofDigits_roundedDigits, rounded]
    positivity
  · intro nonpos
    omega
  · simp only [places]
    omega

/-- A float with a positive exponent has digits near it. -/
theorem ofWhole_isNear (range : x.IsInRange) (suits : hood.Suits x) (positive : 0 < x.exp)
    (r : Radix) : ∃ e, ofWhole x hood r = .ok e ∧ e.IsNear r x hood := by
  obtain ⟨n, count, up, value, multiple, length, rounds, made⟩ :=
    ofWhole_eq range.value_pos range.value_lt positive r hood
  refine ⟨_, made, rounds.isClose positive value length, by simp, ?_, ?_⟩
  · refine ⟨r.digits (n / r.val ^ count + up.toNat), count, by simp [roundedDigits], ?_, by simp⟩
    rw [Radix.ofDigits_digits]
    exact rounds.lt_of_value_le (value ▸ suits.value_le range)
  · intro k power
    rw [value_roundedDigits, value, rounds.exact suits power (by omega) multiple]

/-- The digits of every number of the 64-bit format are found in every radix,
near the number. -/
theorem ofExtFloat_isNear (range : x.IsInRange) (suits : hood.Suits x) (r : Radix) :
    ∃ e, ofExtFloat x hood r = .ok e ∧ e.IsNear r x hood := by
  have nonzero := ExtFloat.frac_ne_zero_of_value_pos range.value_pos
  rw [ofExtFloat, Precondition.require_of_kept _ nonzero]
  change ∃ e, (if x.exp ≤ 0 then _ else _) = _ ∧ _
  by_cases nonpos : x.exp ≤ 0
  · rw [if_pos nonpos]
    exact ofFractional_isNear range suits nonpos r
  · rw [if_neg nonpos]
    exact ofWhole_isNear range suits (by omega) r

end RadixText.Expansion
