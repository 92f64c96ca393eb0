import RadixText.Proofs.Neighbours

/-!
# Normalized floats

Normalizing keeps the number and sets the top bit of its fraction, and there is
one such float for each number. So it is the canonical form of all floats of
that number.
-/

namespace RadixText

namespace ExtFloat

/-- The same number under a fraction shifted up by some bits. -/
def RaisedBy (x y : ExtFloat) (n : Nat) : Prop :=
  y.frac.toNat = x.frac.toNat * 2 ^ n ∧ y.exp = x.exp - n

namespace RaisedBy

variable {x y z : ExtFloat} {n m : Nat}

theorem refl (x : ExtFloat) : x.RaisedBy x 0 := by
  simp [RaisedBy]

theorem trans (h : x.RaisedBy y n) (h' : y.RaisedBy z m) : x.RaisedBy z (n + m) := by
  constructor
  · rw [h'.1, h.1, pow_add, Nat.mul_assoc]
  · rw [h'.2, h.2]
    omega

theorem value_eq (h : x.RaisedBy y n) : y.value = x.value := by
  rw [value, value, h.1, h.2, zpow_sub₀ (by norm_num), zpow_natCast]
  push_cast
  field_simp

end RaisedBy

/-- A fraction with at most twice as many clear bits as asked for is raised
until fewer are left. -/
theorem raise_raisedBy (x : ExtFloat) {n : Nat} (positive : 0 < n) (le : n ≤ 32)
    (large : 2 ^ (64 - 2 * n) ≤ x.frac.toNat) :
    ∃ m, x.RaisedBy (x.raise n) m ∧ 2 ^ (64 - n) ≤ (x.raise n).frac.toNat := by
  have clear : x.frac >>> UInt64.ofNat (64 - n) = 0 ↔ x.frac.toNat < 2 ^ (64 - n) := by
    rw [← UInt64.toNat_inj, Words.toNat_shiftRight (by omega), UInt64.toNat_zero,
      Nat.div_eq_zero_iff_lt (Nat.two_pow_pos _)]
  rw [raise]
  by_cases small : x.frac >>> UInt64.ofNat (64 - n) = 0
  · have fits : x.frac.toNat * 2 ^ n < UInt64.size := by
      rw [Words.size_split (n := n) (by omega), Nat.mul_comm]
      exact Nat.mul_lt_mul_of_pos_left (clear.mp small) (Nat.two_pow_pos n)
    have shifted : (x.frac <<< UInt64.ofNat n).toNat = x.frac.toNat * 2 ^ n := by
      rw [Words.toNat_shiftLeft (by omega), Nat.mod_eq_of_lt fits]
    rw [if_pos small]
    refine ⟨n, ⟨shifted, rfl⟩, ?_⟩
    have exponent : 64 - n = (64 - 2 * n) + n := by omega
    rw [shifted, exponent, pow_add]
    exact Nat.mul_le_mul_right _ large
  · rw [if_neg small]
    exact ⟨0, RaisedBy.refl x, Nat.le_of_not_lt (mt clear.mpr small)⟩

/-- Normalizing raises the fraction until its top bit is set. -/
theorem normalize_raisedBy {x : ExtFloat} (nonzero : x.frac ≠ 0) :
    ∃ n, x.RaisedBy x.normalize n ∧ 2 ^ 63 ≤ x.normalize.frac.toNat := by
  have frac_pos : 1 ≤ x.frac.toNat := toNat_frac_pos nonzero
  rw [normalize, if_neg nonzero]
  simp only [List.foldl_cons, List.foldl_nil]
  obtain ⟨a, first, large⟩ := x.raise_raisedBy (n := 32) (by decide) (by decide) frac_pos
  obtain ⟨b, second, large⟩ := raise_raisedBy _ (n := 16) (by decide) (by decide) large
  obtain ⟨c, third, large⟩ := raise_raisedBy _ (n := 8) (by decide) (by decide) large
  obtain ⟨d, fourth, large⟩ := raise_raisedBy _ (n := 4) (by decide) (by decide) large
  obtain ⟨e, fifth, large⟩ := raise_raisedBy _ (n := 2) (by decide) (by decide) large
  obtain ⟨f, sixth, large⟩ := raise_raisedBy _ (n := 1) (by decide) (by decide) large
  exact ⟨_, ((((first.trans second).trans third).trans fourth).trans fifth).trans sixth, large⟩

/-- A fraction other than zero is raised by fewer bits than its word has. -/
theorem RaisedBy.le {x y : ExtFloat} {n : Nat} (h : x.RaisedBy y n) (nonzero : x.frac ≠ 0) :
    n ≤ 63 := by
  have power : 2 ^ n < 2 ^ 64 := by
    calc
      2 ^ n ≤ x.frac.toNat * 2 ^ n := Nat.le_mul_of_pos_left _ (toNat_frac_pos nonzero)
      _ = y.frac.toNat := h.1.symm
      _ < 2 ^ 64 := y.frac.toNat_lt
  have := (Nat.pow_lt_pow_iff_right (a := 2) (by decide)).mp power
  omega

/-- There is one float with its top bit set for each number. -/
theorem eq_of_value_eq {x y : ExtFloat} (hx : 2 ^ 63 ≤ x.frac.toNat) (hy : 2 ^ 63 ≤ y.frac.toNat)
    (h : x.value = y.value) : x = y := by
  have ordered {x y : ExtFloat} (hy : 2 ^ 63 ≤ y.frac.toNat) (h : x.value = y.value)
      (le : x.exp ≤ y.exp) : x = y := by
    obtain ⟨n, exp⟩ := Int.le.dest le
    have frac : x.frac.toNat = y.frac.toNat * 2 ^ n := by
      have unit : (2 : ℚ) ^ x.exp ≠ 0 := by positivity
      rw [value, value, ← exp, zpow_add₀ (by norm_num), zpow_natCast] at h
      have scaled : (x.frac.toNat : ℚ) * 2 ^ x.exp = y.frac.toNat * 2 ^ n * 2 ^ x.exp := by
        rw [h]
        ring
      exact_mod_cast mul_right_cancel₀ unit scaled
    have zero : n = 0 := by
      by_contra nonzero
      have two : 2 ^ 1 ≤ 2 ^ n :=
        Nat.pow_le_pow_right (by decide) (Nat.one_le_iff_ne_zero.mpr nonzero)
      have word := x.frac.toNat_lt
      have := Nat.mul_le_mul hy two
      omega
    subst zero
    ext1
    · exact UInt64.toNat_inj.mp (by simpa using frac)
    · simpa using exp
  rcases le_total x.exp y.exp with le | le
  · exact ordered hy h le
  · exact (ordered hx h.symm le).symm

/-- Floats of one number have one normalized form. -/
theorem normalize_eq_of_value_eq {x y : ExtFloat} (positive : 0 < x.value)
    (h : x.value = y.value) : x.normalize = y.normalize := by
  obtain ⟨n, raised, large⟩ := normalize_raisedBy (frac_ne_zero_of_value_pos positive)
  obtain ⟨m, raised', large'⟩ := normalize_raisedBy (frac_ne_zero_of_value_pos (h ▸ positive))
  apply eq_of_value_eq large large'
  rw [raised.value_eq, raised'.value_eq, h]

theorem normalize_of_frac_eq_zero {x : ExtFloat} (zero : x.frac = 0) : x.normalize = x := by
  rw [normalize, if_pos zero]

theorem value_normalize (x : ExtFloat) : x.normalize.value = x.value := by
  by_cases zero : x.frac = 0
  · rw [normalize_of_frac_eq_zero zero]
  · obtain ⟨n, raised, -⟩ := normalize_raisedBy zero
    exact raised.value_eq

/-- Normalizing keeps the number and every bit of its fraction, and it sets the
top bit of a fraction other than zero. Doing it twice changes nothing more.
Floats other than zero denote one number exactly if their normalized forms are
the same. -/
theorem normalize_is_canonical (x y : ExtFloat) :
    x.normalize.value = x.value ∧ x.normalize.normalize = x.normalize ∧
    (x.frac = 0 → x.normalize = x) ∧
    (x.frac ≠ 0 → 2 ^ 63 ≤ x.normalize.frac.toNat ∧ ∃ n ≤ 63, x.RaisedBy x.normalize n) ∧
    (x.frac ≠ 0 → y.frac ≠ 0 → (x.value = y.value ↔ x.normalize = y.normalize)) := by
  refine ⟨value_normalize x, ?_, normalize_of_frac_eq_zero, ?_, ?_⟩
  · by_cases zero : x.frac = 0
    · rw [normalize_of_frac_eq_zero zero, normalize_of_frac_eq_zero zero]
    · exact (normalize_eq_of_value_eq (value_pos zero) (value_normalize x).symm).symm
  · intro nonzero
    obtain ⟨n, raised, large⟩ := normalize_raisedBy nonzero
    exact ⟨large, n, raised.le nonzero, raised⟩
  · intro nonzero _
    constructor
    · exact normalize_eq_of_value_eq (value_pos nonzero)
    · intro same
      rw [← value_normalize x, same, value_normalize y]

end ExtFloat

end RadixText
