import RadixText.Neighbourhood
import RadixText.Proofs.Patterns
import RadixText.Proofs.PointValues

/-!
# Expansions near a number

What the digits found for a number satisfy, whichever way they are found. They
stay within the reaches of the neighbourhood. In a neighbourhood that suits the
number their significant digits are few, and in a radix that is a power of two
they are exact.
-/

namespace RadixText

/-- The neighbourhood reaches half a unit of the last place up, and half as
far down only around small fractions. -/
structure Neighbourhood.Suits (hood : Neighbourhood) (x : ExtFloat) : Prop where
  above_eq : hood.above = x.exp - 1
  frac_le : hood.closerBelow = true → x.frac.toNat ≤ 2 ^ 52

theorem Neighbourhood.reachBelow_pos (hood : Neighbourhood) : 0 < hood.reachBelow := by
  rw [reachBelow]
  positivity

theorem Neighbourhood.below_le_above (hood : Neighbourhood) : hood.below ≤ hood.above := by
  rw [below]
  split <;> omega

theorem Neighbourhood.reachBelow_le_reachAbove (hood : Neighbourhood) :
    hood.reachBelow ≤ hood.reachAbove :=
  zpow_le_zpow_right₀ (by norm_num) hood.below_le_above

theorem Neighbourhood.above_le_below_add_one (hood : Neighbourhood) :
    hood.above ≤ hood.below + 1 := by
  rw [below]
  split <;> omega

namespace Neighbourhood.Suits

variable {hood : Neighbourhood} {x : ExtFloat}

theorem below_eq (h : hood.Suits x) :
    hood.below = x.exp - 1 ∧ hood.closerBelow = false ∨
      hood.below = x.exp - 2 ∧ hood.closerBelow = true := by
  rw [below, h.above_eq]
  cases hood.closerBelow with
  | true =>
      right
      exact ⟨by simp only [if_true]; omega, rfl⟩
  | false => exact .inl ⟨rfl, rfl⟩

theorem reachAbove_eq (h : hood.Suits x) : hood.reachAbove = 2 ^ x.exp / 2 := by
  rw [reachAbove, h.above_eq, zpow_sub_one₀ (by norm_num)]
  ring

theorem reachBelow_eq (h : hood.Suits x) :
    hood.reachBelow = 2 ^ x.exp / 2 ∨ hood.reachBelow = 2 ^ x.exp / 4 ∧ x.frac.toNat ≤ 2 ^ 52 := by
  rcases h.below_eq with ⟨below, -⟩ | ⟨below, closer⟩
  · left
    rw [reachBelow, below, zpow_sub_one₀ (by norm_num)]
    ring
  · right
    refine ⟨?_, h.frac_le closer⟩
    rw [reachBelow, below, zpow_sub₀ (by norm_num)]
    norm_num

/-- The reach above is at most half of the number. -/
theorem two_mul_reachAbove_le (h : hood.Suits x) (range : x.IsInRange) :
    2 * hood.reachAbove ≤ x.value := by
  have unit := ExtFloat.two_zpow_exp_le range.value_pos
  rw [h.reachAbove_eq]
  linarith

/-- The number has at most 54 bits in front of the reach below. -/
theorem value_le (h : hood.Suits x) (range : x.IsInRange) :
    x.value ≤ 2 ^ 54 * hood.reachBelow := by
  have unit : (0 : ℚ) < 2 ^ x.exp := by positivity
  have frac : (x.frac.toNat : ℚ) ≤ 2 ^ 53 := by exact_mod_cast range.frac_lt.le
  rw [ExtFloat.value]
  rcases h.reachBelow_eq with eq | ⟨eq, small⟩
  · rw [eq]
    calc
      (x.frac.toNat : ℚ) * 2 ^ x.exp ≤ 2 ^ 53 * 2 ^ x.exp := by gcongr
      _ = 2 ^ 54 * (2 ^ x.exp / 2) := by ring
  · have small' : (x.frac.toNat : ℚ) ≤ 2 ^ 52 := by exact_mod_cast small
    rw [eq]
    calc
      (x.frac.toNat : ℚ) * 2 ^ x.exp ≤ 2 ^ 52 * 2 ^ x.exp := by gcongr
      _ = 2 ^ 54 * (2 ^ x.exp / 4) := by ring

end Neighbourhood.Suits

/-- A decoded number suits the neighbourhood in its format. -/
theorem FloatFormat.IsSupported.suits {f : FloatFormat} (h : f.IsSupported) (x : ExtFloat) :
    (Neighbourhood.ofFormat f x).Suits x where
  above_eq := rfl
  frac_le closer := by
    have hidden := (of_decide_eq_true closer).1
    rw [hidden, h.toNat_hiddenBit]
    exact Nat.pow_le_pow_right (by decide) h.mantissaBits_le

namespace Expansion

/-- The digits of a number within the reaches of any neighbourhood. -/
structure IsClose (r : Radix) (x : ExtFloat) (hood : Neighbourhood) (e : Expansion) : Prop where
  whole_canonical : r.digits (r.ofDigits e.whole) = e.whole
  fraction_lt : ∀ d ∈ e.fraction, d < r.val
  below : x.value - hood.reachBelow < e.value r
  above : e.value r < x.value + hood.reachAbove
  /-- The leading digit is never rounded away. -/
  leading : 1 ≤ x.value → r.ofDigits e.whole ≠ 0
  /-- A number less than the reach below has no digits behind the point. -/
  reachBelow_le : e.fraction ≠ [] → hood.reachBelow ≤ x.value
  /-- Digits behind the point exceed the number by less than one of the last. -/
  raised : x.exp ≤ 0 → x.value < e.value r →
    e.value r < x.value + 1 / r.val ^ e.fraction.length ∧ e.fraction.getLast? ≠ some 0
  length_whole : e.whole.length ≤ places
  length_fraction : e.fraction.length ≤ places

/-- The digits of a number in a neighbourhood that suits it. -/
structure IsNear (r : Radix) (x : ExtFloat) (hood : Neighbourhood) (e : Expansion) : Prop
    extends e.IsClose r x hood where
  /-- No digit behind the point comes after one that the reach below tells. -/
  needed : ∀ k < e.fraction.length, hood.reachBelow * r.val ^ k < 1
  /-- Behind the significant digits all are zeros in front of the point. -/
  significant : ∃ digits zeros, e.whole ++ e.fraction = digits ++ List.replicate zeros 0 ∧
    r.ofDigits digits < 2 ^ 55 * r.val ∧ (e.fraction ≠ [] → zeros = 0)
  exact : ∀ k, r.val = 2 ^ k → e.value r = x.value

end Expansion

/-- A multiple of a power of two is one of every lower power. -/
theorem exists_mul_two_zpow_of_le {v : ℚ} {a b : ℤ} (h : a ≤ b) (hv : ∃ k : ℤ, v = k * 2 ^ b) :
    ∃ k : ℤ, v = k * 2 ^ a := by
  obtain ⟨k, rfl⟩ := hv
  obtain ⟨n, rfl⟩ := Int.le.dest h
  refine ⟨k * 2 ^ n, ?_⟩
  rw [zpow_add₀ (by norm_num), zpow_natCast]
  push_cast
  ring

/-- Multiples of powers of two that differ by less than either power are
equal. -/
theorem eq_of_multiples {v w : ℚ} {a b : ℤ} (hv : ∃ k : ℤ, v = k * 2 ^ a)
    (hw : ∃ k : ℤ, w = k * 2 ^ b) (ha : |v - w| < 2 ^ a) (hb : |v - w| < 2 ^ b) : v = w := by
  obtain ⟨c, hv, hw, near⟩ : ∃ c : ℤ, (∃ k : ℤ, v = k * 2 ^ c) ∧ (∃ k : ℤ, w = k * 2 ^ c) ∧
      |v - w| < 2 ^ c := by
    rcases le_total a b with le | le
    · exact ⟨a, hv, exists_mul_two_zpow_of_le le hw, ha⟩
    · exact ⟨b, exists_mul_two_zpow_of_le le hv, hw, hb⟩
  obtain ⟨k, rfl⟩ := hv
  obtain ⟨l, rfl⟩ := hw
  have positive : (0 : ℚ) < 2 ^ c := by positivity
  rw [← sub_mul, abs_mul, abs_of_pos positive, mul_lt_iff_lt_one_left positive] at near
  have close : |k - l| < 1 := by exact_mod_cast near
  rw [Int.abs_lt_one_iff, sub_eq_zero] at close
  rw [close]

end RadixText
