import RadixText.ExtFloat.Scale
import RadixText.Proofs.Digits
import RadixText.Proofs.Words
import RadixText.Value

/-!
# Scaling by radixes

The product with a radix never leaves the word. It is exact for a power of two
and as long as the fraction leaves room for it, and otherwise falls short of the
exact one by less than one part in the 52nd power of two. A float that is scaled
by many radixes falls short by as many parts, until its exponent leaves the
range and it stays as it is.
-/

namespace RadixText

namespace Scaling

variable {r : Radix}

theorem val_in_range (r : Radix) : ¬ (r.val < Radix.smallest ∨ Radix.largest < r.val) := by
  have := r.two_le
  have := r.le_thirtySix
  simp only [Radix.smallest, Radix.largest]
  omega

/-- A power of two has no limit and shifts by its logarithm. -/
theorem of_two_pow {k : Nat} (power : r.val = 2 ^ k) : Scaling.of r.val = ⟨0, k⟩ := by
  have log : r.val.log2 = k := by rw [power, Nat.log2_two_pow]
  have whole : 1 <<< r.val.log2 = r.val := by rw [log, power, Nat.one_shiftLeft]
  rw [Scaling.of, if_neg (val_in_range r), if_pos whole, log]

/-- Any other radix has a limit, and it shifts by its bit length. -/
theorem of_not_two_pow (power : ∀ k, r.val ≠ 2 ^ k) :
    (Scaling.of r.val).limit.toNat = (2 ^ 64 - 1) / r.val + 1 ∧
      (Scaling.of r.val).shift = r.val.log2 + 1 := by
  have part : ¬ 1 <<< r.val.log2 = r.val := by
    rw [Nat.one_shiftLeft]
    exact (power _).symm
  have quotient : (2 ^ 64 - 1) / r.val ≤ (2 ^ 64 - 1) / 2 :=
    Nat.div_le_div_left r.two_le (by decide)
  rw [Scaling.of, if_neg (val_in_range r), if_neg part]
  refine ⟨?_, rfl⟩
  rw [UInt64.toNat_add, UInt64.toNat_div, r.toNat_ofNat_val]
  change ((2 ^ 64 - 1) / r.val + 1) % 2 ^ 64 = _
  exact Nat.mod_eq_of_lt (by omega)

end Scaling

namespace ExtFloat

variable {x y z : ExtFloat} {r : Radix}

/-- A float is the product with a radix. The fraction keeps all of it, or is
shifted down by the bit length of the radix first. No word wraps around. -/
inductive IsProductWith (x : ExtFloat) (r : Radix) (y : ExtFloat) : Prop
  | raised (k : Nat) (power : r.val = 2 ^ k) (frac : y.frac = x.frac) (exp : y.exp = x.exp + k)
  | fits (power : ∀ k, r.val ≠ 2 ^ k) (room : x.frac.toNat * r.val < 2 ^ 64)
      (frac : y.frac.toNat = x.frac.toNat * r.val) (exp : y.exp = x.exp)
  | shifted (power : ∀ k, r.val ≠ 2 ^ k) (full : 2 ^ 64 ≤ x.frac.toNat * r.val)
      (frac : y.frac.toNat = x.frac.toNat / 2 ^ (r.val.log2 + 1) * r.val)
      (exp : y.exp = x.exp + (r.val.log2 + 1 : ℕ))

theorem log2_val_le (r : Radix) : r.val.log2 ≤ 5 := by
  have := (Nat.log2_lt (n := r.val) (k := 6) (by have := r.two_le; omega)).mpr
    (Nat.lt_of_le_of_lt r.le_thirtySix (by decide))
  omega

/-- A fraction is below the limit of a radix exactly if its product fits in the
word. -/
theorem lt_limit_iff (power : ∀ k, r.val ≠ 2 ^ k) :
    x.frac < (Scaling.of r.val).limit ↔ x.frac.toNat * r.val < 2 ^ 64 := by
  rw [UInt64.lt_iff_toNat_lt, (Scaling.of_not_two_pow power).1, Nat.lt_succ_iff,
    Nat.le_div_iff_mul_le r.val_pos]
  omega

/-- A fraction shifted down by the bit length of a radix leaves room for the
product with it. -/
theorem div_mul_val_lt (n : Nat) (h : n < 2 ^ 64) :
    n / 2 ^ (r.val.log2 + 1) * r.val < 2 ^ 64 := by
  calc
    n / 2 ^ (r.val.log2 + 1) * r.val ≤ n / 2 ^ (r.val.log2 + 1) * 2 ^ (r.val.log2 + 1) :=
      Nat.mul_le_mul_left _ Nat.lt_log2_self.le
    _ ≤ n := Nat.div_mul_le_self _ _
    _ < 2 ^ 64 := h

/-- Every float has a product with every radix. -/
theorem exists_scale (x : ExtFloat) (r : Radix) :
    ∃ y, x.scale r.val = .ok y ∧ x.IsProductWith r y := by
  have range : Radix.smallest ≤ r.val ∧ r.val ≤ Radix.largest := ⟨r.two_le, r.le_thirtySix⟩
  rw [scale, Precondition.require_of_kept _ range]
  by_cases power : ∃ k, r.val = 2 ^ k
  · obtain ⟨k, power⟩ := power
    rw [Scaling.of_two_pow power]
    exact ⟨_, rfl, .raised k power rfl rfl⟩
  · push Not at power
    obtain ⟨limit, shift⟩ := Scaling.of_not_two_pow power
    have limit_ne_zero : (Scaling.of r.val).limit ≠ 0 := by
      rw [ne_eq, ← UInt64.toNat_inj, limit]
      exact Nat.succ_ne_zero _
    have word := x.frac.toNat_lt
    simp only [bind, Except.bind, if_neg limit_ne_zero, shift]
    by_cases room : x.frac.toNat * r.val < 2 ^ 64
    · rw [if_pos ((lt_limit_iff power).mpr room)]
      refine ⟨_, rfl, .fits power room ?_ rfl⟩
      rw [UInt64.toNat_mul, r.toNat_ofNat_val, Nat.mod_eq_of_lt room]
    · rw [if_neg (mt (lt_limit_iff power).mp room)]
      refine ⟨_, rfl, .shifted power (Nat.le_of_not_lt room) ?_ rfl⟩
      have small : r.val.log2 + 1 < 64 := by have := log2_val_le r; omega
      rw [UInt64.toNat_mul, r.toNat_ofNat_val, Words.toNat_shiftRight small,
        Nat.mod_eq_of_lt (div_mul_val_lt _ word)]

/-- An approximation is not above an exact number. If it is another number, the
part of the exact one that it misses is below the 52nd negative power of two. -/
structure FallsShort (approx exact : ℚ) : Prop where
  le : approx ≤ exact
  loss : approx = exact ∨ exact ≠ 0 ∧ (exact - approx) / exact < 1 / 2 ^ 52

theorem FallsShort.part_le {approx exact : ℚ} (h : FallsShort approx exact) (nonneg : 0 ≤ exact) :
    exact * (1 - 1 / 2 ^ 52) ≤ approx := by
  rcases h.loss with same | ⟨nonzero, loss⟩
  · rw [same]
    exact mul_le_of_le_one_right nonneg (by norm_num)
  · rw [div_lt_iff₀ (lt_of_le_of_ne nonneg nonzero.symm)] at loss
    linarith

namespace IsProductWith

/-- Under a higher exponent the bits that are cut off of the fraction are lost. -/
theorem sub_value {bits : Nat} (frac : y.frac.toNat = x.frac.toNat / 2 ^ bits * r.val)
    (exp : y.exp = x.exp + bits) :
    r.val * x.value - y.value = r.val * (x.frac.toNat % 2 ^ bits : ℕ) * 2 ^ x.exp := by
  have split : (x.frac.toNat : ℚ) =
      2 ^ bits * (x.frac.toNat / 2 ^ bits : ℕ) + (x.frac.toNat % 2 ^ bits : ℕ) := by
    exact_mod_cast (Nat.div_add_mod x.frac.toNat (2 ^ bits)).symm
  rw [value, value, frac, exp, zpow_add₀ (by norm_num), zpow_natCast, split]
  push_cast
  ring

/-- A product is exact, or what is cut off of its fraction is lost. -/
theorem value_eq_or_lost (h : x.IsProductWith r y) : y.value = r.val * x.value ∨
    (∀ k, r.val ≠ 2 ^ k) ∧ 2 ^ 64 ≤ x.frac.toNat * r.val ∧
      y.exp = x.exp + (r.val.log2 + 1 : ℕ) ∧
      r.val * x.value - y.value =
        r.val * (x.frac.toNat % 2 ^ (r.val.log2 + 1) : ℕ) * 2 ^ x.exp := by
  cases h with
  | raised k power frac exp =>
      left
      rw [value, value, frac, exp, power, zpow_add₀ (by norm_num), zpow_natCast]
      push_cast
      ring
  | fits power room frac exp =>
      left
      rw [value, value, frac, exp]
      push_cast
      ring
  | shifted power full frac exp => exact .inr ⟨power, full, exp, sub_value frac exp⟩

/-- A power of two and a product that fits in the word lose nothing. -/
theorem value_eq (h : x.IsProductWith r y)
    (whole : (∃ k, r.val = 2 ^ k) ∨ x.frac.toNat ≤ (2 ^ 64 - 1) / r.val) :
    y.value = r.val * x.value := by
  rcases h.value_eq_or_lost with exact | ⟨power, full, -, -⟩
  · exact exact
  · rw [Nat.le_div_iff_mul_le r.val_pos] at whole
    rcases whole with ⟨k, two_pow⟩ | room
    · exact absurd two_pow (power k)
    · omega

/-- Products are rounded down by less than the radix in units of their
exponent. -/
theorem sub_value_lt (h : x.IsProductWith r y) : 0 ≤ r.val * x.value - y.value ∧
    r.val * x.value - y.value < r.val * 2 ^ y.exp := by
  have radix : (0 : ℚ) < r.val := by exact_mod_cast r.val_pos
  rcases h.value_eq_or_lost with exact | ⟨-, -, exp, lost⟩
  · rw [exact, sub_self]
    exact ⟨le_refl 0, by positivity⟩
  · have cut : ((x.frac.toNat % 2 ^ (r.val.log2 + 1) : ℕ) : ℚ) < 2 ^ (r.val.log2 + 1) := by
      exact_mod_cast Nat.mod_lt _ (Nat.two_pow_pos _)
    have unit : (0 : ℚ) < r.val * 2 ^ x.exp := by positivity
    rw [lost, exp, zpow_add₀ (by norm_num), zpow_natCast]
    refine ⟨by positivity, ?_⟩
    linarith [mul_lt_mul_of_pos_left cut unit]

/-- A fraction without room for the product is so large that the bits that are
cut off are less than its last of 52 binary orders. -/
theorem mod_mul_lt (full : 2 ^ 64 ≤ x.frac.toNat * r.val) :
    x.frac.toNat % 2 ^ (r.val.log2 + 1) * 2 ^ 52 < x.frac.toNat := by
  have cut : x.frac.toNat % 2 ^ (r.val.log2 + 1) < 2 ^ 6 :=
    Nat.lt_of_lt_of_le (Nat.mod_lt _ (Nat.two_pow_pos _))
      (Nat.pow_le_pow_right (by decide) (Nat.succ_le_succ (log2_val_le r)))
  have large := Nat.le_trans full (Nat.mul_le_mul_left x.frac.toNat r.le_thirtySix)
  omega

theorem fallsShort (h : x.IsProductWith r y) : FallsShort y.value (r.val * x.value) := by
  refine ⟨by linarith [h.sub_value_lt.1], ?_⟩
  rcases h.value_eq_or_lost with exact | ⟨-, full, -, lost⟩
  · exact .inl exact
  · have cut : (x.frac.toNat % 2 ^ (r.val.log2 + 1) : ℕ) * (2 : ℚ) ^ 52 < x.frac.toNat := by
      exact_mod_cast mod_mul_lt full
    have frac : (0 : ℚ) < x.frac.toNat := lt_of_le_of_lt (by positivity) cut
    have radix : (0 : ℚ) < r.val := by exact_mod_cast r.val_pos
    have unit : (0 : ℚ) < r.val * 2 ^ x.exp := by positivity
    have positive : 0 < r.val * x.value := by
      rw [value]
      positivity
    refine .inr ⟨positive.ne', ?_⟩
    rw [lost, div_lt_div_iff₀ positive (by positivity), value]
    linarith [mul_lt_mul_of_pos_left cut unit]

theorem exp_le (h : x.IsProductWith r y) : x.exp ≤ y.exp ∧ y.exp ≤ x.exp + 6 := by
  have log := log2_val_le r
  cases h with
  | raised k power frac exp =>
      have same : r.val.log2 = k := by rw [power, Nat.log2_two_pow]
      omega
  | fits power room frac exp => omega
  | shifted power full frac exp => omega

end IsProductWith

theorem scaleInRange_eq (x : ExtFloat) (n : Nat) :
    x.scaleInRange n = if x.exp < 972 then x.scale n else .ok x := by
  have limit : FloatFormat.binary64.maxExp = 972 := by decide
  rw [scaleInRange, limit]

theorem scaleAll_cons (x : ExtFloat) (n : Nat) (ns : List Nat) :
    x.scaleAll (n :: ns) = x.scaleInRange n >>= fun y => y.scaleAll ns := rfl

theorem scaleAll_append (x : ExtFloat) (ns ms : List Nat) :
    x.scaleAll (ns ++ ms) = x.scaleAll ns >>= fun y => y.scaleAll ms :=
  List.foldlM_append

theorem scaleAll_concat (x : ExtFloat) (ns : List Nat) (n : Nat) :
    x.scaleAll (ns ++ [n]) = x.scaleAll ns >>= fun y => y.scaleInRange n := by
  simp [scaleAll]

/-- From the end of the range on every factor leaves a float as it is. -/
theorem scaleAll_of_le_exp (h : 972 ≤ x.exp) (ns : List Nat) : x.scaleAll ns = .ok x := by
  induction ns with
  | nil => rfl
  | cons n ns ih =>
      rw [scaleAll_cons, scaleInRange_eq, if_neg (not_lt.mpr h)]
      exact ih

/-- An approximation is not above an exact number and misses at most some parts
of it. -/
structure IsWithinLosses (count : Nat) (approx exact : ℚ) : Prop where
  le : approx ≤ exact
  ge : exact * (1 - 1 / 2 ^ 52) ^ count ≤ approx

/-- A product that falls short adds one part to the losses. -/
theorem IsWithinLosses.next {count : Nat} {approx approx' exact : ℚ}
    (h : IsWithinLosses count approx exact) (nonneg : 0 ≤ approx)
    (short : FallsShort approx' (r.val * approx)) :
    IsWithinLosses (count + 1) approx' (exact * r.val) := by
  have radix : (0 : ℚ) < r.val := by exact_mod_cast r.val_pos
  constructor
  · calc
      approx' ≤ r.val * approx := short.le
      _ ≤ r.val * exact := mul_le_mul_of_nonneg_left h.le radix.le
      _ = exact * r.val := mul_comm _ _
  · calc
      exact * r.val * (1 - 1 / 2 ^ 52) ^ (count + 1) =
          r.val * (exact * (1 - 1 / 2 ^ 52) ^ count) * (1 - 1 / 2 ^ 52) := by ring
      _ ≤ r.val * approx * (1 - 1 / 2 ^ 52) := by
        apply mul_le_mul_of_nonneg_right _ (by norm_num)
        exact mul_le_mul_of_nonneg_left h.ge radix.le
      _ ≤ approx' := short.part_le (mul_nonneg radix.le nonneg)

theorem value_nonneg (x : ExtFloat) : 0 ≤ x.value := by
  rw [value]
  positivity

/-- Scaling by some radixes in a row applies the first of them, each with a loss
of its own. It leaves out the others only if the exponent is out of the range. -/
structure AppliesFirst (x : ExtFloat) (rs applied : List Radix) (y : ExtFloat) : Prop where
  scaled : x.scaleAll (rs.map Radix.val) = .ok y
  first : applied <+: rs
  stopped : applied = rs ∨ 972 ≤ y.exp
  losses : IsWithinLosses applied.length y.value (x.value * (applied.map Radix.val).prod)

theorem appliesFirst_nil (x : ExtFloat) : x.AppliesFirst [] [] x where
  scaled := rfl
  first := List.prefix_refl []
  stopped := .inl rfl
  losses := ⟨by simp, by simp⟩

/-- One more radix is applied in the range, and left out from its end on. -/
theorem AppliesFirst.concat {rs applied : List Radix} (h : x.AppliesFirst rs applied y)
    (r : Radix) : ∃ applied' z, x.AppliesFirst (rs ++ [r]) applied' z := by
  have last : x.scaleAll ((rs ++ [r]).map Radix.val) = y.scaleInRange r.val := by
    rw [List.map_append, List.map_singleton, scaleAll_concat, h.scaled]
    rfl
  rw [scaleInRange_eq] at last
  by_cases inRange : y.exp < 972
  · have all : applied = rs := h.stopped.resolve_right (not_le.mpr inRange)
    obtain ⟨z, scaled, product⟩ := y.exists_scale r
    rw [if_pos inRange, scaled] at last
    refine ⟨rs ++ [r], z, last, List.prefix_refl _, .inl rfl, ?_⟩
    have losses := h.losses.next y.value_nonneg product.fallsShort
    rw [all, mul_assoc] at losses
    simpa using losses
  · rw [if_neg inRange] at last
    exact ⟨applied, y, last, h.first.trans (List.prefix_append rs [r]), .inr (not_lt.mp inRange),
      h.losses⟩

theorem exists_appliesFirst (x : ExtFloat) (rs : List Radix) :
    ∃ applied y, x.AppliesFirst rs applied y := by
  -- The loss of a factor is measured at the product of those before it, so runs grow at the end.
  induction rs using List.reverseRecOn with
  | nil => exact ⟨[], x, x.appliesFirst_nil⟩
  | append_singleton rs r ih =>
      obtain ⟨applied, y, run⟩ := ih
      exact run.concat r

/-- Factors that were left out make the exact product no smaller. -/
theorem AppliesFirst.value_le {rs applied : List Radix} (h : x.AppliesFirst rs applied y) :
    y.value ≤ x.value * (rs.map Radix.val).prod := by
  obtain ⟨others, rfl⟩ := h.first
  have nonzero : (others.map Radix.val).prod ≠ 0 := by
    apply List.prod_ne_zero
    intro zero
    obtain ⟨r, -, val_eq_zero⟩ := List.mem_map.mp zero
    exact r.val_pos.ne' val_eq_zero
  have one_le : (1 : ℚ) ≤ (others.map Radix.val).prod := by
    exact_mod_cast Nat.one_le_iff_ne_zero.mpr nonzero
  rw [List.map_append, List.prod_append, Nat.cast_mul, ← mul_assoc]
  calc
    y.value ≤ x.value * (applied.map Radix.val).prod := h.losses.le
    _ ≤ x.value * (applied.map Radix.val).prod * (others.map Radix.val).prod :=
      le_mul_of_one_le_right (mul_nonneg x.value_nonneg (by positivity)) one_le

/-- A factor in a row is applied in the range, with a loss of its own. From the
end of the range on it leaves the float as it is, and so do all that follow. -/
theorem scaleAll_step (x : ExtFloat) (front back : List Radix) (r : Radix) :
    ∃ y z, x.scaleAll (front.map Radix.val) = .ok y ∧
      x.scaleAll ((front ++ [r]).map Radix.val) = .ok z ∧
      (y.exp < 972 → y.scale r.val = .ok z ∧ FallsShort z.value (r.val * y.value)) ∧
      (972 ≤ y.exp → x.scaleAll ((front ++ r :: back).map Radix.val) = .ok y) := by
  obtain ⟨applied, y, run⟩ := x.exists_appliesFirst front
  obtain ⟨applied', z, run'⟩ := x.exists_appliesFirst (front ++ [r])
  refine ⟨y, z, run.scaled, run'.scaled, ?_, ?_⟩
  · intro inRange
    have last := run'.scaled
    rw [List.map_append, List.map_singleton, scaleAll_concat, run.scaled] at last
    change y.scaleInRange r.val = .ok z at last
    rw [scaleInRange_eq, if_pos inRange] at last
    obtain ⟨z', scaled, product⟩ := y.exists_scale r
    obtain rfl : z' = z := Except.ok.inj (scaled.symm.trans last)
    exact ⟨last, product.fallsShort⟩
  · intro outside
    rw [List.map_append, scaleAll_append, run.scaled]
    exact scaleAll_of_le_exp outside _

/-- What a product with a radix keeps of the exact one. -/
structure IsRoundedProduct (x : ExtFloat) (r : Radix) (y : ExtFloat) : Prop where
  product : x.IsProductWith r y
  exp_le : x.exp ≤ y.exp ∧ y.exp ≤ x.exp + 6
  value_eq : (∃ k, r.val = 2 ^ k) ∨ x.frac.toNat ≤ (2 ^ 64 - 1) / r.val →
    y.value = r.val * x.value
  rounded : ¬ ((∃ k, r.val = 2 ^ k) ∨ x.frac.toNat ≤ (2 ^ 64 - 1) / r.val) →
    0 ≤ r.val * x.value - y.value ∧ r.val * x.value - y.value < r.val * 2 ^ y.exp ∧
      (r.val * x.value - y.value) / (r.val * x.value) < 1 / 2 ^ 52

theorem IsProductWith.isRoundedProduct (h : x.IsProductWith r y) : x.IsRoundedProduct r y where
  product := h
  exp_le := h.exp_le
  value_eq := h.value_eq
  rounded _ := by
    refine ⟨h.sub_value_lt.1, h.sub_value_lt.2, ?_⟩
    rcases h.fallsShort.loss with same | ⟨-, loss⟩
    · rw [same, sub_self, zero_div]
      positivity
    · exact loss

/-- The product with a radix exists and does not wrap around. It is exact for a
power of two and where the fraction leaves room for it, and otherwise falls
short. In the range the float is scaled in the same way, and from its end on it
stays as it is. So radixes in a row never give more than the exact product, and
each of them that is applied loses less than its part. -/
theorem scaling_falls_short (x : ExtFloat) (r : Radix) (rs : List Radix) :
    (∃ y, x.scale r.val = .ok y ∧ x.IsRoundedProduct r y ∧
      x.scaleInRange r.val = .ok (if x.exp < 972 then y else x)) ∧
    ∃ applied y, x.AppliesFirst rs applied y ∧
      y.value ≤ x.value * (rs.map Radix.val).prod ∧
      ∀ front s back, rs = front ++ s :: back → ∃ z z',
        x.scaleAll (front.map Radix.val) = .ok z ∧
        x.scaleAll ((front ++ [s]).map Radix.val) = .ok z' ∧
        (z.exp < 972 → z.scale s.val = .ok z' ∧ FallsShort z'.value (s.val * z.value)) ∧
        (972 ≤ z.exp → y = z) := by
  constructor
  · obtain ⟨y, scaled, product⟩ := x.exists_scale r
    refine ⟨y, scaled, product.isRoundedProduct, ?_⟩
    rw [scaleInRange_eq, scaled]
    split <;> rfl
  · obtain ⟨applied, y, run⟩ := x.exists_appliesFirst rs
    refine ⟨applied, y, run, run.value_le, ?_⟩
    intro front s back split
    obtain ⟨z, z', before, after, inRange, outside⟩ := x.scaleAll_step front back s
    refine ⟨z, z', before, after, inRange, ?_⟩
    intro le
    have whole := outside le
    rw [← split, run.scaled] at whole
    exact Except.ok.inj whole

end ExtFloat

end RadixText
