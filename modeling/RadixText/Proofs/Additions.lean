import RadixText.Proofs.Patterns

/-!
# Sums

A sum is made under the larger of two exponents. The fraction of the other float
loses the bits below it, and both lose their last bit when the sum of the
fractions leaves the word. So a sum falls short of the exact one, by less than
three units of the larger exponent.
-/

namespace RadixText.ExtFloat

variable {x y : ExtFloat} {e : Int}

/-- The fraction of a float under an exponent not below its own. Bits that fall
below that exponent are cut off. -/
def fracUnder (x : ExtFloat) (e : Int) : Nat := x.frac.toNat / 2 ^ (e - x.exp).toNat

theorem fracUnder_exp (x : ExtFloat) : x.fracUnder x.exp = x.frac.toNat := by
  simp [fracUnder]

theorem fracUnder_lt (x : ExtFloat) (e : Int) : x.fracUnder e < 2 ^ 64 :=
  Nat.lt_of_le_of_lt (Nat.div_le_self _ _) x.frac.toNat_lt

/-- From 64 bits on nothing is left of a fraction. -/
theorem fracUnder_eq_zero (far : x.exp + 64 ≤ e) : x.fracUnder e = 0 := by
  apply Nat.div_eq_of_lt
  exact Nat.lt_of_lt_of_le x.frac.toNat_lt (Nat.pow_le_pow_right (by decide) (by omega))

/-- What is cut off is less than one unit of the exponent. -/
theorem fracUnder_mul_le (le : x.exp ≤ e) :
    x.fracUnder e * 2 ^ e ≤ x.value ∧ x.value < (x.fracUnder e + 1) * 2 ^ e := by
  obtain ⟨n, rfl⟩ := Int.le.dest le
  have distance : (x.exp + n - x.exp).toNat = n := by omega
  have unit : (0 : ℚ) < 2 ^ x.exp := by positivity
  have split (k : ℚ) : k * 2 ^ (x.exp + n) = k * 2 ^ n * 2 ^ x.exp := by
    rw [zpow_add₀ (by norm_num), zpow_natCast]
    ring
  have lower : x.fracUnder (x.exp + n) * 2 ^ n ≤ x.frac.toNat := by
    rw [fracUnder, distance]
    exact Nat.div_mul_le_self _ _
  have upper : x.frac.toNat < (x.fracUnder (x.exp + n) + 1) * 2 ^ n := by
    rw [fracUnder, distance]
    exact Nat.lt_mul_of_div_lt (Nat.lt_succ_self _) (Nat.two_pow_pos n)
  rw [split, split, value]
  constructor
  · apply mul_le_mul_of_nonneg_right _ unit.le
    exact_mod_cast lower
  · apply mul_lt_mul_of_pos_right _ unit
    exact_mod_cast upper

/-- A sum under some exponent: that of both fractions, or of their halves one
exponent higher if it leaves the word. No word wraps around. -/
inductive IsSumUnder (x y : ExtFloat) (e : Int) (sum : ExtFloat) : Prop
  | fits (exp : sum.exp = e) (room : x.fracUnder e + y.fracUnder e < 2 ^ 64)
      (frac : sum.frac.toNat = x.fracUnder e + y.fracUnder e)
  | halved (exp : sum.exp = e + 1) (full : 2 ^ 64 ≤ x.fracUnder e + y.fracUnder e)
      (frac : sum.frac.toNat = x.fracUnder e / 2 + y.fracUnder e / 2)

namespace IsSumUnder

variable {sum sum' : ExtFloat}

theorem symm (h : x.IsSumUnder y e sum) : y.IsSumUnder x e sum := by
  cases h with
  | fits exp room frac =>
      rw [Nat.add_comm] at room frac
      exact .fits exp room frac
  | halved exp full frac =>
      rw [Nat.add_comm] at full frac
      exact .halved exp full frac

/-- There is one sum. -/
theorem unique (h : x.IsSumUnder y e sum) (h' : x.IsSumUnder y e sum') : sum = sum' := by
  cases h with
  | fits exp room frac =>
      cases h' with
      | fits exp' _ frac' =>
          exact ExtFloat.ext (UInt64.toNat_inj.mp (frac.trans frac'.symm)) (exp.trans exp'.symm)
      | halved _ full _ => exact absurd room (Nat.not_lt_of_le full)
  | halved exp full frac =>
      cases h' with
      | fits _ room _ => exact absurd room (Nat.not_lt_of_le full)
      | halved exp' _ frac' =>
          exact ExtFloat.ext (UInt64.toNat_inj.mp (frac.trans frac'.symm)) (exp.trans exp'.symm)

end IsSumUnder

theorem addFractions_isSumUnder {a b : UInt64} (ha : a.toNat = x.fracUnder e)
    (hb : b.toNat = y.fracUnder e) : x.IsSumUnder y e (addFractions a b e) := by
  have wraps : a + b < a ↔ 2 ^ 64 ≤ a.toNat + b.toNat := by
    have := a.toNat_lt
    have := b.toNat_lt
    rw [UInt64.lt_iff_toNat_lt, UInt64.toNat_add]
    omega
  rw [addFractions]
  by_cases full : a + b < a
  · have half (w : UInt64) : (w >>> 1).toNat = w.toNat / 2 := by
      rw [UInt64.toNat_shiftRight]
      exact Nat.shiftRight_eq_div_pow w.toNat 1
    have sum : ((a >>> 1) + (b >>> 1)).toNat = a.toNat / 2 + b.toNat / 2 := by
      have := a.toNat_lt
      have := b.toNat_lt
      rw [UInt64.toNat_add, half, half]
      omega
    rw [if_pos full]
    rw [wraps, ha, hb] at full
    exact .halved rfl full (by rw [sum, ha, hb])
  · rw [if_neg full]
    rw [wraps, ha, hb, not_le] at full
    refine .fits rfl full ?_
    rw [UInt64.toNat_add, ha, hb]
    exact Nat.mod_eq_of_lt full

theorem addOnto_isSumUnder (le : y.exp ≤ x.exp) : x.IsSumUnder y x.exp (addOnto x y) := by
  rw [addOnto]
  by_cases far : 64 ≤ (x.exp - y.exp).toNat
  · have vanishes : y.fracUnder x.exp = 0 := fracUnder_eq_zero (by omega)
    rw [if_pos far]
    apply IsSumUnder.fits rfl
    · rw [vanishes]
      exact x.fracUnder_lt x.exp
    · rw [vanishes, fracUnder_exp, Nat.add_zero]
  · rw [if_neg far]
    exact addFractions_isSumUnder x.fracUnder_exp.symm (Words.toNat_shiftRight (by omega))

theorem add_isSumUnder (x y : ExtFloat) : x.IsSumUnder y (max x.exp y.exp) (x.add y) := by
  rw [add]
  by_cases le : y.exp ≤ x.exp
  · rw [if_pos le, max_eq_left le]
    exact addOnto_isSumUnder le
  · rw [if_neg le, max_eq_right (not_le.mp le).le]
    exact (addOnto_isSumUnder (not_le.mp le).le).symm

/-- Both fractions together lose less than one unit, as one of them has the
larger exponent. -/
theorem sum_fracUnder_le (x y : ExtFloat) :
    (x.fracUnder (max x.exp y.exp) + y.fracUnder (max x.exp y.exp)) * 2 ^ max x.exp y.exp ≤
        x.value + y.value ∧
      x.value + y.value < (x.fracUnder (max x.exp y.exp) + y.fracUnder (max x.exp y.exp) + 1) *
        2 ^ max x.exp y.exp ∧
      (x.exp = y.exp → x.value + y.value =
        (x.fracUnder (max x.exp y.exp) + y.fracUnder (max x.exp y.exp)) * 2 ^ max x.exp y.exp) := by
  have exact (z : ExtFloat) : z.value = z.fracUnder z.exp * 2 ^ z.exp := by
    rw [fracUnder_exp, value]
  rcases le_total y.exp x.exp with le | le
  · obtain ⟨lower, upper⟩ := fracUnder_mul_le le
    have whole := exact x
    rw [max_eq_left le]
    refine ⟨by linarith, by linarith, ?_⟩
    intro same
    have whole' := exact y
    rw [← same] at whole'
    linarith
  · obtain ⟨lower, upper⟩ := fracUnder_mul_le le
    have whole := exact y
    rw [max_eq_right le]
    refine ⟨by linarith, by linarith, ?_⟩
    intro same
    have whole' := exact x
    rw [same] at whole'
    linarith

/-- Halving two fractions loses at most the last bit of each. -/
theorem value_of_halved {sum : ExtFloat} {a b : Nat} (exp : sum.exp = e + 1)
    (frac : sum.frac.toNat = a / 2 + b / 2) :
    sum.value ≤ (a + b) * 2 ^ e ∧ (a + b) * 2 ^ e ≤ sum.value + 2 * 2 ^ e := by
  have unit : (0 : ℚ) < 2 ^ e := by positivity
  have value : sum.value = (2 * (a / 2 + b / 2) : ℕ) * 2 ^ e := by
    rw [ExtFloat.value, exp, frac, zpow_add_one₀ (by norm_num)]
    push_cast
    ring
  have lower : 2 * (a / 2 + b / 2) ≤ a + b := by omega
  have upper : a + b ≤ 2 * (a / 2 + b / 2) + 2 := by omega
  rw [value, ← add_mul]
  constructor
  · apply mul_le_mul_of_nonneg_right _ unit.le
    exact_mod_cast lower
  · apply mul_le_mul_of_nonneg_right _ unit.le
    exact_mod_cast upper

/-- A sum does not depend on the order and is never above the exact one. Under
the larger exponent it falls short by less than one unit, and by nothing if both
exponents are the same. One exponent higher it falls short by less than three
units of the larger one. -/
theorem sum_falls_short (x y : ExtFloat) :
    x.add y = y.add x ∧ x.IsSumUnder y (max x.exp y.exp) (x.add y) ∧
    0 ≤ x.value + y.value - (x.add y).value ∧
    ((x.add y).exp = max x.exp y.exp →
      x.value + y.value - (x.add y).value < 2 ^ max x.exp y.exp ∧
      (x.exp = y.exp → x.value + y.value - (x.add y).value = 0)) ∧
    ((x.add y).exp = max x.exp y.exp + 1 →
      x.value + y.value - (x.add y).value < 3 * 2 ^ max x.exp y.exp) := by
  have sum := add_isSumUnder x y
  have comm : x.add y = y.add x := by
    apply sum.unique
    rw [max_comm]
    exact (add_isSumUnder y x).symm
  refine ⟨comm, sum, ?_⟩
  obtain ⟨lower, upper, same⟩ := sum_fracUnder_le x y
  cases sum with
  | fits exp room frac =>
      have value : (x.add y).value = (x.fracUnder (max x.exp y.exp) +
          y.fracUnder (max x.exp y.exp)) * 2 ^ max x.exp y.exp := by
        rw [ExtFloat.value, exp, frac]
        push_cast
        rfl
      refine ⟨by linarith, fun _ => ⟨by linarith, ?_⟩, fun next => by omega⟩
      intro equal
      rw [value, ← same equal, sub_self]
  | halved exp full frac =>
      obtain ⟨below, above⟩ := value_of_halved exp frac
      exact ⟨by linarith, fun level => by omega, fun _ => by linarith⟩

end RadixText.ExtFloat
