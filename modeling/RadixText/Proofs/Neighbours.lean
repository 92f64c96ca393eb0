import RadixText.Neighbourhood
import RadixText.Proofs.Patterns

/-!
# Neighbours of a number in its format

The numbers of a format grow with their patterns, each by one unit of the last
place of the lower one. The reaches of a number's neighbourhood end at the
midpoints to its neighbours, and between these the number is the nearest one.
-/

namespace RadixText

namespace FloatFormat

variable (f : FloatFormat)

/-- Either the next fraction is larger by one, or this one is full and the next
binade begins. -/
theorem fracAt_expAt_succ (n : Nat) :
    f.fracAt (n + 1) = f.fracAt n + 1 ∧ f.expAt (n + 1) = f.expAt n ∨
      f.fracAt n + 1 = 2 * 2 ^ f.mantissaBits ∧ f.fracAt (n + 1) = 2 ^ f.mantissaBits ∧
        f.expAt (n + 1) = f.expAt n + 1 := by
  have power := Nat.two_pow_pos f.mantissaBits
  have split := Nat.div_add_mod n (2 ^ f.mantissaBits)
  have mantissa := Nat.mod_lt n power
  by_cases last : n % 2 ^ f.mantissaBits + 1 < 2 ^ f.mantissaBits
  · -- The next pattern has the same exponent field.
    left
    have sum : n + 1 = 2 ^ f.mantissaBits * (n / 2 ^ f.mantissaBits) +
        (n % 2 ^ f.mantissaBits + 1) := by omega
    have field : (n + 1) / 2 ^ f.mantissaBits = n / 2 ^ f.mantissaBits := by
      rw [sum, Nat.mul_add_div power, Nat.div_eq_of_lt last, Nat.add_zero (n / 2 ^ f.mantissaBits)]
    have rest : (n + 1) % 2 ^ f.mantissaBits = n % 2 ^ f.mantissaBits + 1 := by
      rw [sum, Nat.mul_add_mod, Nat.mod_eq_of_lt last]
    constructor
    · rw [fracAt, fracAt, field, rest]
      split <;> rfl
    · rw [expAt, expAt, field]
  · -- The mantissa is all ones and the next one is zero.
    have sum : n + 1 = 2 ^ f.mantissaBits * (n / 2 ^ f.mantissaBits + 1) := by
      rw [Nat.mul_add, Nat.mul_one]
      omega
    have field : (n + 1) / 2 ^ f.mantissaBits = n / 2 ^ f.mantissaBits + 1 := by
      rw [sum, Nat.mul_div_cancel_left _ power]
    have rest : (n + 1) % 2 ^ f.mantissaBits = 0 := by rw [sum, Nat.mul_mod_right]
    have frac : f.fracAt (n + 1) = 2 ^ f.mantissaBits := by
      rw [fracAt, field, rest, if_neg (Nat.succ_ne_zero _), Nat.add_zero]
    by_cases subnormal : n / 2 ^ f.mantissaBits = 0
    · left
      rw [subnormal, Nat.mul_zero, Nat.zero_add] at split
      constructor
      · rw [frac, fracAt, if_pos subnormal]
        omega
      · rw [expAt, expAt, field, subnormal]
    · right
      refine ⟨?_, frac, ?_⟩
      · rw [fracAt, if_neg subnormal]
        omega
      · rw [expAt, expAt, field]
        generalize n / 2 ^ f.mantissaBits = q at subnormal
        omega

/-- Fractions without the hidden bit have the lowest exponent. -/
theorem expAt_of_fracAt_lt {n : Nat} (small : f.fracAt n < 2 ^ f.mantissaBits) :
    f.expAt n = f.lowestExp := by
  have subnormal : n / 2 ^ f.mantissaBits = 0 := by
    by_contra normal
    rw [fracAt, if_neg normal] at small
    omega
  rw [expAt, subnormal]
  exact Int.add_zero _

/-- The next number is one unit of the last place larger. -/
theorem numberAt_succ (n : Nat) : f.numberAt (n + 1) = f.numberAt n + 2 ^ f.expAt n := by
  rcases f.fracAt_expAt_succ n with ⟨frac, exp⟩ | ⟨full, frac, exp⟩
  · rw [numberAt_eq, numberAt_eq, frac, exp]
    push_cast
    ring
  · have carried : (f.fracAt n : ℚ) + 1 = 2 * 2 ^ f.mantissaBits := by exact_mod_cast full
    rw [numberAt_eq, numberAt_eq, frac, exp, zpow_add_one₀ (by norm_num), ← add_one_mul, carried]
    push_cast
    ring

theorem numberAt_strictMono : StrictMono f.numberAt := by
  apply strictMono_nat_of_lt_succ
  intro n
  rw [numberAt_succ]
  exact lt_add_of_pos_right _ (by positivity)

theorem midpointAbove_eq (n : Nat) : f.midpointAbove n = f.numberAt n + 2 ^ (f.expAt n - 1) := by
  rw [midpointAbove, numberAt_succ, zpow_sub_one₀ (by norm_num)]
  ring

/-- Between its midpoints a number is nearer than any other. -/
theorem abs_sub_numberAt_lt {n m : Nat} {v : ℚ} (nonzero : n ≠ 0) (ne : m ≠ n)
    (below : f.midpointAbove (n - 1) < v) (above : v < f.midpointAbove n) :
    |v - f.numberAt n| < |v - f.numberAt m| := by
  have previous : n - 1 + 1 = n := by omega
  have lower : f.numberAt (n - 1) < f.numberAt n := f.numberAt_strictMono (by omega)
  have upper : f.numberAt n < f.numberAt (n + 1) := f.numberAt_strictMono (by omega)
  rw [midpointAbove, previous] at below
  rw [midpointAbove] at above
  rcases Nat.lt_or_gt_of_ne ne with lt | gt
  · have far : f.numberAt m ≤ f.numberAt (n - 1) := f.numberAt_strictMono.monotone (by omega)
    rw [abs_of_pos (a := v - f.numberAt m) (by linarith), abs_lt]
    constructor <;> linarith
  · have far : f.numberAt (n + 1) ≤ f.numberAt m := f.numberAt_strictMono.monotone (by omega)
    rw [abs_of_neg (a := v - f.numberAt m) (by linarith), abs_lt]
    constructor <;> linarith

variable {f}

/-- The reach above ends half way to the next number. -/
theorem midpointAbove_eq_add_reach {n : Nat} {x : ExtFloat} (frac : x.frac.toNat = f.fracAt n)
    (exp : x.exp = f.expAt n) :
    f.midpointAbove n = x.value + (Neighbourhood.ofFormat f x).reachAbove := by
  rw [midpointAbove_eq, f.value_eq_numberAt frac exp, Neighbourhood.reachAbove,
    Neighbourhood.ofFormat, exp]

/-- The number below lies twice as close just where the fraction is the
smallest of a binade above the lowest one. -/
theorem expAt_pred (h : f.IsSupported) {n : Nat} {x : ExtFloat} (nonzero : n ≠ 0)
    (frac : x.frac.toNat = f.fracAt n) (exp : x.exp = f.expAt n) :
    f.expAt (n - 1) - 1 = (Neighbourhood.ofFormat f x).below := by
  obtain ⟨m, rfl⟩ := Nat.exists_eq_succ_of_ne_zero nonzero
  have hidden : x.frac = f.hiddenBit ↔ f.fracAt (m + 1) = 2 ^ f.mantissaBits := by
    rw [← UInt64.toNat_inj, frac, h.toNat_hiddenBit]
  simp only [Neighbourhood.below, Neighbourhood.ofFormat, decide_eq_true_eq, hidden, exp,
    Nat.succ_eq_add_one, Nat.add_sub_cancel]
  rcases f.fracAt_expAt_succ m with ⟨next, same⟩ | ⟨full, first, next⟩
  · have close : ¬ (f.fracAt (m + 1) = 2 ^ f.mantissaBits ∧ f.lowestExp < f.expAt (m + 1)) := by
      rintro ⟨first, higher⟩
      have lowest : f.expAt m = f.lowestExp := f.expAt_of_fracAt_lt (by omega)
      omega
    rw [if_neg close, same]
  · have lowest := f.lowestExp_le_expAt m
    rw [if_pos ⟨first, by omega⟩, next]
    omega

/-- The reach below ends half way to the number below. -/
theorem midpointAbove_pred_eq_sub_reach (h : f.IsSupported) {n : Nat} {x : ExtFloat}
    (nonzero : n ≠ 0) (frac : x.frac.toNat = f.fracAt n) (exp : x.exp = f.expAt n) :
    f.midpointAbove (n - 1) = x.value - (Neighbourhood.ofFormat f x).reachBelow := by
  have next := f.numberAt_succ (n - 1)
  have previous : n - 1 + 1 = n := by omega
  have value := f.value_eq_numberAt frac exp
  rw [previous] at next
  rw [midpointAbove, previous, value, next, Neighbourhood.reachBelow,
    ← expAt_pred h nonzero frac exp, zpow_sub_one₀ (by norm_num)]
  ring

end FloatFormat

end RadixText
