import RadixText.ExtFloat.Encoding
import RadixText.Proofs.NearestPatterns
import RadixText.Proofs.Normalization

/-!
# Encoding of numbers

A number is encoded as the nearest pattern. What is kept of its fraction is the
pattern below, and the rest decides between that and the next one. A carry may
lead to the next binade, to the normal numbers and to infinity.
-/

namespace RadixText

namespace ExtFloat

/-- Nothing but zeros is cut off a fraction that was raised. -/
theorem cut_of_raisedBy {x y : ExtFloat} {n : Nat} (h : x.RaisedBy y n) (positive : 0 < n)
    (lt : n < 64) : cut y.frac (64 - n) = (x.frac, 0) := by
  have bits_ne_zero : 64 - n ≠ 0 := by omega
  have complement : 64 - (64 - n) = n := by omega
  rw [cut, if_neg bits_ne_zero, complement]
  refine Prod.ext ?_ ?_
  · apply UInt64.toNat_inj.mp
    rw [Words.toNat_shiftRight lt, h.1, Nat.mul_div_cancel _ (Nat.two_pow_pos n)]
  · apply UInt64.toNat_inj.mp
    rw [Words.toNat_shiftLeft (by omega), h.1, Nat.mul_assoc, ← Words.size_split (by omega),
      Nat.mul_mod_left, UInt64.toNat_zero]

@[simp] theorem roundsUp_zero (mantissa : UInt64) : roundsUp mantissa 0 = false := by
  simp [roundsUp, Word.topBit]

theorem roundsUp_iff {mantissa rest : UInt64} : roundsUp mantissa rest = true ↔
    2 ^ 63 < rest.toNat ∨ rest.toNat = 2 ^ 63 ∧ ¬ Even mantissa.toNat := by
  have half : Word.topBit.toNat = 2 ^ 63 := rfl
  have odd : mantissa &&& 1 = 1 ↔ ¬ Even mantissa.toNat := by
    rw [← UInt64.toNat_inj, UInt64.toNat_and, UInt64.toNat_one, Nat.and_one_is_mod,
      Nat.not_even_iff]
  rw [roundsUp, decide_eq_true_iff, odd, UInt64.lt_iff_toNat_lt, ← UInt64.toNat_inj, half]

/-- Mantissa and rest make up the fraction. -/
theorem cut_value (frac : UInt64) {kept : Nat} (lt : kept < 64) :
    (cut frac kept).1.toNat * 2 ^ 64 + (cut frac kept).2.toNat = frac.toNat * 2 ^ kept := by
  by_cases whole : kept = 0
  · subst whole
    simp [cut]
  · have size : UInt64.size = 2 ^ (64 - kept) * 2 ^ kept := by
      rw [Words.size_split (n := kept) (by omega), Nat.mul_comm]
    have quotient : frac.toNat / 2 ^ (64 - kept) = frac.toNat * 2 ^ kept / UInt64.size := by
      rw [size, Nat.mul_div_mul_right _ _ (Nat.two_pow_pos kept)]
    rw [cut, if_neg whole]
    simp only [Words.toNat_shiftRight (show 64 - kept < 64 by omega), Words.toNat_shiftLeft lt,
      quotient, ← Words.size_eq]
    exact Nat.div_add_mod' _ _

theorem cut_lt (frac : UInt64) {kept : Nat} (lt : kept < 64) :
    (cut frac kept).1.toNat < 2 ^ kept := by
  have bound := Nat.mul_lt_mul_of_pos_right frac.toNat_lt (Nat.two_pow_pos kept)
  rw [← cut_value frac lt] at bound
  omega

/-- The top bit of a fraction is the top bit of what is kept. -/
theorem two_pow_le_cut {frac : UInt64} {bits : Nat} (large : 2 ^ 63 ≤ frac.toNat)
    (lt : 1 + bits < 64) : 2 ^ bits ≤ (cut frac (1 + bits)).1.toNat := by
  have rest := (cut frac (1 + bits)).2.toNat_lt
  have bound := Nat.mul_le_mul_right (2 ^ (1 + bits)) large
  rw [← cut_value frac lt, pow_add] at bound
  omega

/-- The value of a float by mantissa and rest. -/
theorem value_eq_cut (x : ExtFloat) {kept : Nat} (lt : kept < 64) :
    x.value = ((cut x.frac kept).1.toNat + (cut x.frac kept).2.toNat / 2 ^ 64) *
      2 ^ (x.exp + 64 - kept) := by
  have split : ((cut x.frac kept).1.toNat : ℚ) * 2 ^ 64 + (cut x.frac kept).2.toNat =
      x.frac.toNat * 2 ^ kept := by exact_mod_cast cut_value x.frac lt
  have word : (2 : ℚ) ^ (64 : ℤ) = 2 ^ 64 := by norm_num
  rw [value, zpow_sub₀ (by norm_num), zpow_add₀ (by norm_num), zpow_natCast, word]
  field_simp
  linarith

end ExtFloat

namespace FloatFormat

open ExtFloat

variable {f : FloatFormat} {n : Nat}

/-- The pattern that a field and a mantissa are rounded to. -/
def rounded (f : FloatFormat) (field : Int) (kept : Nat) (mantissa : UInt64) (up : Bool) :
    UInt64 :=
  if up then
    assemble f (if (mantissa + 1) >>> UInt64.ofNat kept ≠ 0 then field + 1 else field)
      (mantissa + 1)
  else assemble f field mantissa

/-- The pattern that a field and a fraction are rounded to, of which some bits
are kept. -/
def roundedFraction (f : FloatFormat) (field : Int) (kept : Nat) (frac : UInt64) : UInt64 :=
  f.rounded field kept (cut frac kept).1 (roundsUp (cut frac kept).1 (cut frac kept).2)

/-- Patterns and infinity leave the top bit of a word to the sign. -/
structure FitsWord (f : FloatFormat) : Prop where
  mantissaBits_pos : 1 ≤ f.mantissaBits
  maxField_pos : 1 ≤ f.maxField
  size_le : (f.maxField + 1) * 2 ^ f.mantissaBits ≤ 2 ^ 63

namespace FitsWord

theorem mantissaBits_le (h : f.FitsWord) : f.mantissaBits ≤ 62 := by
  have fields := h.maxField_pos
  have power : 2 ^ (f.mantissaBits + 1) ≤ 2 ^ 63 := by
    rw [pow_succ']
    exact Nat.le_trans (Nat.mul_le_mul_right _ (by omega)) h.size_le
  have := (Nat.pow_le_pow_iff_right (a := 2) (by decide)).mp power
  omega

theorem infinity_pos (h : f.FitsWord) : 0 < f.maxField * 2 ^ f.mantissaBits :=
  Nat.mul_pos h.maxField_pos (Nat.two_pow_pos _)

theorem even_two_pow (h : f.FitsWord) : Even (2 ^ f.mantissaBits) :=
  even_two.pow_of_ne_zero (Nat.one_le_iff_ne_zero.mp h.mantissaBits_pos)

theorem even_infinity (h : f.FitsWord) : Even (f.maxField * 2 ^ f.mantissaBits) :=
  h.even_two_pow.mul_left _

/-! ## Rounding a number -/

/-- The part of the way to the next number decides how a number rounds. -/
theorem isNearest_of_rest {v : ℚ} (rest : UInt64) {up : Bool}
    (lt : n < f.maxField * 2 ^ f.mantissaBits)
    (value : v = f.numberAt n + rest.toNat / 2 ^ 64 * 2 ^ f.expAt n)
    (decided : up = true ↔ 2 ^ 63 < rest.toNat ∨ rest.toNat = 2 ^ 63 ∧ ¬ Even n) :
    f.IsNearest v (n + up.toNat) := by
  have unit : (0 : ℚ) < 2 ^ f.expAt n := by positivity
  have middle : f.midpointAbove n = f.numberAt n + 2 ^ 63 / 2 ^ 64 * 2 ^ f.expAt n := by
    rw [midpointAbove_eq, zpow_sub_one₀ (by norm_num)]
    ring
  have below : v < f.midpointAbove n ↔ rest.toNat < 2 ^ 63 := by
    rw [value, middle, add_lt_add_iff_left, mul_lt_mul_iff_left₀ unit,
      div_lt_div_iff_of_pos_right (by norm_num)]
    exact_mod_cast Iff.rfl
  have tie : v = f.midpointAbove n ↔ rest.toNat = 2 ^ 63 := by
    rw [value, middle, add_right_inj, mul_left_inj' unit.ne', div_left_inj' (by norm_num)]
    exact_mod_cast Iff.rfl
  cases up with
  | false =>
      apply isNearest_of_midpoints lt.le
      · rintro k rfl
        left
        refine (f.midpointAbove_lt_numberAt k).trans_le ?_
        rw [value]
        exact le_add_of_nonneg_right (by positivity)
      · intro _
        rw [below, tie]
        simp only [Bool.false_eq_true, false_iff, not_or, not_and, not_not] at decided
        obtain ⟨le, even⟩ := decided
        exact (Nat.lt_or_eq_of_le (Nat.le_of_not_lt le)).imp_right fun eq => ⟨eq, even eq⟩
  | true =>
      apply isNearest_of_midpoints lt
      · intro k next
        obtain rfl := Nat.succ.inj next
        rw [Nat.succ_eq_add_one, Nat.even_add_one, eq_comm, tie]
        refine (decided.mp rfl).imp_left fun gt => ?_
        have passed := below.not.mpr (Nat.not_lt_of_gt gt)
        have apart := tie.not.mpr gt.ne'
        exact lt_of_le_of_ne (not_lt.mp passed) (Ne.symm apart)
      · intro _
        left
        refine lt_trans ?_ (f.numberAt_lt_midpointAbove (n + 1))
        have word : (rest.toNat : ℚ) / 2 ^ 64 < 1 := by
          rw [div_lt_one (by norm_num)]
          exact_mod_cast rest.toNat_lt
        rw [value, numberAt_succ]
        exact add_lt_add_right (mul_lt_of_lt_one_left unit word) _

variable {x : ExtFloat} {m : UInt64} {up : Bool}

/-- Numbers from two to the largest exponent on round to infinity. -/
theorem isNearest_infinity (h : f.FitsWord) (large : 2 ^ 63 ≤ x.frac.toNat)
    (high : (f.maxField : Int) ≤ x.exp + 63 + f.bias) :
    f.IsNearest x.value (f.maxField * 2 ^ f.mantissaBits) := by
  obtain ⟨q, field⟩ := Nat.exists_eq_add_of_le' h.maxField_pos
  have bound : f.numberAt (f.maxField * 2 ^ f.mantissaBits) ≤ x.value := by
    have power := Nat.two_pow_pos f.mantissaBits
    have infinity := f.numberAt_of_normal le_rfl (by omega) q
    rw [Nat.sub_self, Nat.add_zero, Nat.mul_comm, ← field] at infinity
    have exponent : (f.mantissaBits : Int) + (f.lowestExp + q) ≤ 63 + x.exp := by
      rw [lowestExp]
      omega
    have large' : (2 : ℚ) ^ (63 : ℤ) ≤ x.frac.toNat := by exact_mod_cast large
    rw [infinity, ExtFloat.value]
    push_cast
    rw [← zpow_natCast, ← zpow_add₀ (by norm_num)]
    calc
      (2 : ℚ) ^ ((f.mantissaBits : Int) + (f.lowestExp + q)) ≤ 2 ^ (63 + x.exp) :=
        zpow_le_zpow_right₀ (by norm_num) exponent
      _ = 2 ^ (63 : ℤ) * 2 ^ x.exp := zpow_add₀ (by norm_num) _ _
      _ ≤ x.frac.toNat * 2 ^ x.exp := by gcongr
  apply isNearest_of_midpoints le_rfl
  · intro k last
    rw [last] at bound
    exact .inl ((f.midpointAbove_lt_numberAt k).trans_le bound)
  · intro lt
    exact absurd lt (lt_irrefl _)

/-- Numbers below half the smallest one round to zero. -/
theorem isNearest_zero (low : x.exp + 63 + f.bias < -(f.mantissaBits : Int)) :
    f.IsNearest x.value 0 := by
  have bound : x.value < f.midpointAbove 0 := by
    have word : (x.frac.toNat : ℚ) < 2 ^ (64 : ℤ) := by exact_mod_cast x.frac.toNat_lt
    have exponent : 64 + x.exp ≤ f.lowestExp - 1 := by
      rw [lowestExp]
      omega
    have zero : f.numberAt 0 = 0 := by simp [numberAt]
    rw [midpointAbove_eq, zero, zero_add, ExtFloat.value]
    calc
      (x.frac.toNat : ℚ) * 2 ^ x.exp < 2 ^ (64 : ℤ) * 2 ^ x.exp := by gcongr
      _ = 2 ^ (64 + x.exp) := (zpow_add₀ (by norm_num) _ _).symm
      _ ≤ 2 ^ (f.lowestExp - 1) := zpow_le_zpow_right₀ (by norm_num) exponent
      _ ≤ 2 ^ (f.expAt 0 - 1) := by
        have := f.lowestExp_le_expAt 0
        exact zpow_le_zpow_right₀ (by norm_num) (by omega)
  apply isNearest_of_midpoints (Nat.zero_le _)
  · intro k next
    cases next
  · intro _
    exact .inl bound

/-- Mantissa and rest of a number round to the nearest pattern. -/
theorem isNearest_of_cut {kept : Nat} (kept_lt : kept < 64)
    (lt : n < f.maxField * 2 ^ f.mantissaBits)
    (frac : f.fracAt n = (cut x.frac kept).1.toNat) (exp : f.expAt n = x.exp + 64 - kept)
    (even : Even n ↔ Even (cut x.frac kept).1.toNat) :
    f.IsNearest x.value (n + (roundsUp (cut x.frac kept).1 (cut x.frac kept).2).toNat) := by
  apply isNearest_of_rest (cut x.frac kept).2 lt
  · rw [x.value_eq_cut kept_lt, numberAt_eq, frac, exp, add_mul]
  · rw [even]
    exact roundsUp_iff

/-! ## Assembling a pattern -/

/-- A field fits in the word above the mantissa. -/
theorem toNat_field_shiftLeft (h : f.FitsWord) {field : Nat} (le : field ≤ f.maxField) :
    (UInt64.ofNat field <<< UInt64.ofNat f.mantissaBits).toNat = field * 2 ^ f.mantissaBits := by
  have mantissaBits := h.mantissaBits_le
  have power := Nat.two_pow_pos f.mantissaBits
  have bound : field * 2 ^ f.mantissaBits < 2 ^ 63 :=
    Nat.lt_of_lt_of_le (Nat.mul_lt_mul_of_pos_right (Nat.lt_succ_of_le le) power) h.size_le
  have word : field < 2 ^ 63 := Nat.lt_of_le_of_lt (Nat.le_mul_of_pos_right _ power) bound
  have field_word : (UInt64.ofNat field).toNat = field := by
    rw [UInt64.toNat_ofNat']
    omega
  rw [Words.toNat_shiftLeft (by omega), field_word]
  apply Nat.mod_eq_of_lt
  rw [Words.size_eq]
  omega

theorem toNat_infinity (h : f.FitsWord) : f.infinity.toNat = f.maxField * 2 ^ f.mantissaBits :=
  h.toNat_field_shiftLeft le_rfl

/-- A pattern is its field above its mantissa. Infinity has none. -/
theorem toNat_assemble (h : f.FitsWord) (field : Nat) (field_pos : 0 < field)
    (le : field ≤ f.maxField)
    (full : field = f.maxField → m.toNat % 2 ^ f.mantissaBits = 0) :
    (assemble f field m).toNat =
      field * 2 ^ f.mantissaBits + m.toNat % 2 ^ f.mantissaBits := by
  have mantissaBits := h.mantissaBits_le
  have mask : (m &&& f.mantissaMask).toNat = m.toNat % 2 ^ f.mantissaBits :=
    Words.toNat_and_mask (by omega) m
  by_cases last : field = f.maxField
  · rw [assemble, if_pos (by omega), h.toNat_infinity, full last, last, Nat.add_zero]
  · rw [assemble, if_neg (by omega), if_neg (by omega), Int.toNat_natCast, UInt64.toNat_or,
      h.toNat_field_shiftLeft le, mask, Nat.mul_comm,
      ← Nat.two_pow_add_eq_or_of_lt (Nat.mod_lt _ (Nat.two_pow_pos _))]

theorem assemble_of_nonpos (h : f.FitsWord) {field : Int} (le : field ≤ 0) :
    assemble f field m = m := by
  have fields := h.maxField_pos
  rw [assemble, if_neg (by omega), if_pos le]

/-- A mantissa that is rounded up is carried when it fills all of its bits. -/
theorem carried_iff (kept : Nat) (kept_lt : kept < 64) (small : m.toNat < 2 ^ kept) :
    (m + 1).toNat = m.toNat + 1 ∧
      ((m + 1) >>> UInt64.ofNat kept ≠ 0 ↔ m.toNat + 1 = 2 ^ kept) := by
  have power : 2 ^ kept ≤ 2 ^ 63 := Nat.pow_le_pow_right (by decide) (by omega)
  have next : (m + 1).toNat = m.toNat + 1 := by
    rw [UInt64.toNat_add, UInt64.toNat_one]
    omega
  refine ⟨next, ?_⟩
  rw [ne_eq, ← UInt64.toNat_inj, Words.toNat_shiftRight kept_lt, next, UInt64.toNat_zero,
    Nat.div_eq_zero_iff_lt (Nat.two_pow_pos _)]
  omega

/-- A carry out of a normal mantissa raises the field, up to infinity. -/
theorem toNat_rounded_normal (h : f.FitsWord) {q : Nat} (lt : q + 1 < f.maxField)
    (large : 2 ^ f.mantissaBits ≤ m.toNat) (small : m.toNat < 2 * 2 ^ f.mantissaBits) :
    (f.rounded (q + 1 : ℕ) (1 + f.mantissaBits) m up).toNat =
      2 ^ f.mantissaBits * (q + 1) + (m.toNat - 2 ^ f.mantissaBits) + up.toNat := by
  have mantissaBits := h.mantissaBits_le
  have mantissa {k : Nat} (large : 2 ^ f.mantissaBits ≤ k) (small : k < 2 * 2 ^ f.mantissaBits) :
      k % 2 ^ f.mantissaBits = k - 2 ^ f.mantissaBits := by
    rw [Nat.mod_eq_sub_mod large, Nat.mod_eq_of_lt (by omega)]
  have bits : 2 ^ (1 + f.mantissaBits) = 2 * 2 ^ f.mantissaBits := by rw [pow_add, pow_one]
  rw [Nat.mul_comm (2 ^ f.mantissaBits)]
  cases up with
  | false =>
      rw [rounded, if_neg Bool.false_ne_true,
        h.toNat_assemble (q + 1) (Nat.succ_pos q) lt.le (fun last => absurd last lt.ne),
        mantissa large small]
      rfl
  | true =>
      obtain ⟨next, carried⟩ := carried_iff (m := m) (1 + f.mantissaBits) (by omega) (by omega)
      rw [bits] at carried
      rw [rounded, if_pos rfl, Bool.toNat_true]
      by_cases last : m.toNat + 1 = 2 * 2 ^ f.mantissaBits
      · have field : ((q + 1 : ℕ) : Int) + 1 = (q + 2 : ℕ) := by omega
        have cleared : (m + 1).toNat % 2 ^ f.mantissaBits = 0 := by
          rw [next, last, Nat.mul_mod_left]
        rw [if_pos (carried.mpr last), field,
          h.toNat_assemble (q + 2) (Nat.succ_pos _) lt (fun _ => cleared), cleared, Nat.add_mul q 2,
          Nat.add_mul q 1]
        omega
      · rw [if_neg (carried.not.mpr last),
          h.toNat_assemble (q + 1) (Nat.succ_pos q) lt.le (fun last => absurd last lt.ne), next,
          mantissa (by omega) (by omega)]
        omega

/-- A carry out of a subnormal mantissa goes to its next bit, up to the hidden
one. -/
theorem toNat_rounded_subnormal (h : f.FitsWord) {field : Int} (le : field ≤ 0)
    (ge : -(f.mantissaBits : Int) ≤ field)
    (small : m.toNat < 2 ^ (f.mantissaBits + field).toNat) :
    (f.rounded field (f.mantissaBits + field).toNat m up).toNat = m.toNat + up.toNat := by
  have mantissaBits := h.mantissaBits_le
  cases up with
  | false =>
      rw [rounded, if_neg Bool.false_ne_true, h.assemble_of_nonpos le]
      rfl
  | true =>
      obtain ⟨next, carried⟩ := carried_iff (f.mantissaBits + field).toNat (by omega) small
      rw [rounded, if_pos rfl, Bool.toNat_true, ← next]
      by_cases hidden : m.toNat + 1 = 2 ^ (f.mantissaBits + field).toNat ∧ field = 0
      · obtain ⟨last, rfl⟩ := hidden
        rw [Int.add_zero, Int.toNat_natCast] at last carried
        have cleared : (m + 1).toNat % 2 ^ f.mantissaBits = 0 := by
          rw [next, last, Nat.mod_self]
        have assembled := h.toNat_assemble (m := m + 1) 1 Nat.one_pos h.maxField_pos
          (fun _ => cleared)
        rw [Int.add_zero, Int.toNat_natCast, if_pos (carried.mpr last), zero_add]
        rw [cleared, Nat.one_mul, ← last, ← next] at assembled
        exact assembled
      · rw [h.assemble_of_nonpos]
        split
        case isTrue carry =>
          have := carried.mp carry
          omega
        case isFalse => exact le

/-- A number with a normal exponent rounds to the nearest pattern. -/
theorem isNearest_roundedFraction_normal (h : f.FitsWord) (large : 2 ^ 63 ≤ x.frac.toNat)
    {q : Nat} (field : x.exp + 63 + f.bias = (q + 1 : ℕ)) (lt : q + 1 < f.maxField) :
    f.IsNearest x.value (f.roundedFraction (q + 1 : ℕ) (1 + f.mantissaBits) x.frac).toNat := by
  have mantissaBits := h.mantissaBits_le
  have kept_lt : 1 + f.mantissaBits < 64 := by omega
  have mantissa_ge := two_pow_le_cut large kept_lt
  have mantissa_lt := cut_lt x.frac kept_lt
  rw [pow_add, pow_one] at mantissa_lt
  obtain ⟨frac, exp⟩ := f.fracAt_expAt_of_normal mantissa_ge mantissa_lt q
  rw [roundedFraction, h.toNat_rounded_normal lt mantissa_ge mantissa_lt]
  apply isNearest_of_cut kept_lt _ frac
  · rw [exp, lowestExp]
    push_cast at field ⊢
    omega
  · have first : Even (2 ^ f.mantissaBits * (q + 1)) := h.even_two_pow.mul_right _
    rw [Nat.even_add, iff_true_left first, Nat.even_sub mantissa_ge, iff_true_right h.even_two_pow]
  · have bound := Nat.mul_le_mul_right (2 ^ f.mantissaBits) (Nat.succ_le_of_lt lt)
    rw [Nat.succ_mul] at bound
    rw [Nat.mul_comm]
    omega

/-- A number with a subnormal exponent rounds to the nearest pattern. -/
theorem isNearest_roundedFraction_subnormal (h : f.FitsWord)
    (le : x.exp + 63 + f.bias ≤ 0) (ge : -(f.mantissaBits : Int) ≤ x.exp + 63 + f.bias) :
    f.IsNearest x.value (f.roundedFraction (x.exp + 63 + f.bias)
      (f.mantissaBits + (x.exp + 63 + f.bias)).toNat x.frac).toNat := by
  have mantissaBits := h.mantissaBits_le
  have kept_lt : (f.mantissaBits + (x.exp + 63 + f.bias)).toNat < 64 := by omega
  have small := cut_lt x.frac kept_lt
  have subnormal : (cut x.frac _).1.toNat < 2 ^ f.mantissaBits :=
    Nat.lt_of_lt_of_le small (Nat.pow_le_pow_right (by decide) (by omega))
  obtain ⟨frac, exp⟩ := f.fracAt_expAt_of_subnormal subnormal
  rw [roundedFraction, h.toNat_rounded_subnormal le ge small]
  apply isNearest_of_cut kept_lt _ frac
  · rw [exp, lowestExp]
    omega
  · rfl
  · exact Nat.lt_of_lt_of_le subnormal (Nat.le_mul_of_pos_left _ h.maxField_pos)

/-- A number is encoded as the nearest pattern. -/
theorem isNearest_toBits (h : f.FitsWord) (x : ExtFloat) :
    f.IsNearest x.value (toBits f x).toNat := by
  by_cases zero : x.frac = 0
  · have value_eq : x.value = f.numberAt 0 := by simp [ExtFloat.value, zero, numberAt]
    rw [toBits, if_pos zero, value_eq]
    exact isNearest_numberAt (Nat.zero_le _)
  · obtain ⟨s, raised, large⟩ := normalize_raisedBy zero
    rw [← raised.value_eq, toBits, if_neg zero]
    dsimp only
    generalize x.normalize = y at large
    split
    case isTrue high =>
      rw [h.toNat_infinity]
      exact h.isNearest_infinity large high
    case isFalse low =>
      split
      case isTrue tiny => exact isNearest_zero tiny
      case isFalse notTiny =>
        by_cases normal : 0 < y.exp + 63 + f.bias
        · obtain ⟨q, field⟩ : ∃ q : ℕ, y.exp + 63 + f.bias = (q + 1 : ℕ) :=
            ⟨(y.exp + 63 + f.bias).toNat - 1, by omega⟩
          have rounded := h.isNearest_roundedFraction_normal large field (by omega)
          rw [if_pos normal]
          rw [← field] at rounded
          exact rounded
        · rw [if_neg normal]
          exact h.isNearest_roundedFraction_subnormal (by omega) (by omega)

/-- A number of the format is encoded as its own pattern. -/
theorem toNat_toBits (h : f.FitsWord) (le : n ≤ f.maxField * 2 ^ f.mantissaBits)
    (value : x.value = f.numberAt n) : (toBits f x).toNat = n := by
  apply (h.isNearest_toBits x).eq
  rw [value]
  exact isNearest_numberAt le

end FitsWord

theorem HasFieldWidth.fitsWord {w : Nat} (h : f.HasFieldWidth w) (fieldBits : 1 ≤ w)
    (mantissa : 1 ≤ f.mantissaBits) (size : f.mantissaBits + w ≤ 63) : f.FitsWord := by
  have fields := h.maxField_add_one
  refine ⟨mantissa, ?_, ?_⟩
  · have two : 2 ^ 1 ≤ 2 ^ w := Nat.pow_le_pow_right (by decide) fieldBits
    omega
  · rw [fields, ← pow_add]
    exact Nat.pow_le_pow_right (by decide) (by omega)

theorem IsSupported.fitsWord (h : f.IsSupported) (maxField_pos : 1 ≤ f.maxField) : f.FitsWord := by
  refine ⟨h.mantissaBits_pos, maxField_pos, ?_⟩
  calc
    (f.maxField + 1) * 2 ^ f.mantissaBits ≤ 2 ^ 11 * 2 ^ 52 := by
      have fields := h.maxField_le
      exact Nat.mul_le_mul (by omega) (Nat.pow_le_pow_right (by decide) h.mantissaBits_le)
    _ = 2 ^ 63 := by rw [← pow_add]

/-- Encoding rounds every number to the nearest pattern, to the even one of two
that are as near. It depends on the number alone and keeps the order. Numbers
up to half the smallest one are flushed to zero, and numbers from half a gap
above the largest one on go to infinity. -/
theorem encoding_rounds_to_nearest {w : Nat} (mantissa : 1 ≤ f.mantissaBits)
    (width : f.HasFieldWidth w) (fieldBits : 1 ≤ w) (size : f.mantissaBits + w ≤ 63) :
    (∀ x, f.IsNearest x.value (toBits f x).toNat) ∧
    (∀ x y, x.value = y.value → toBits f x = toBits f y) ∧
    (∀ x y, x.value ≤ y.value → toBits f x ≤ toBits f y) ∧
    (∀ x, toBits f x = 0 ↔ x.value ≤ f.numberAt 1 / 2) ∧
    ∀ x, toBits f x = f.infinity ↔
      f.midpointAbove (f.maxField * 2 ^ f.mantissaBits - 1) ≤ x.value := by
  have fits := width.fitsWord fieldBits mantissa size
  have nearest := fits.isNearest_toBits
  refine ⟨nearest, ?_, ?_, ?_, ?_⟩
  · intro x y same
    exact UInt64.toNat_inj.mp ((nearest x).eq (same ▸ nearest y))
  · intro x y le
    exact UInt64.le_iff_toNat_le.mpr ((nearest x).mono (nearest y) le)
  · intro x
    have half : f.midpointAbove 0 = f.numberAt 1 / 2 := by simp [midpointAbove, numberAt]
    rw [← UInt64.toNat_inj, UInt64.toNat_zero, (nearest x).eq_zero_iff fits.infinity_pos, half]
  · intro x
    rw [← UInt64.toNat_inj, fits.toNat_infinity]
    exact (nearest x).eq_infinity_iff fits.even_infinity fits.infinity_pos

/-- Half a gap above the largest 32-bit number is as near to infinity, whose
pattern is even. -/
theorem tie_above_largest_goes_to_infinity :
    1 ≤ binary32.mantissaBits ∧ binary32.HasFieldWidth 8 ∧ binary32.mantissaBits + 8 ≤ 63 ∧
    binary32.IsNearest (33554431 * 2 ^ 103) 0x7f800000 ∧
    toBits binary32 ⟨33554431, 103⟩ = toBits binary32 ⟨67108862, 102⟩ ∧
    toBits binary32 ⟨1, -150⟩ = 0 := by
  have mantissa : 1 ≤ binary32.mantissaBits := by decide
  have width : binary32.HasFieldWidth 8 := rfl
  have size : binary32.mantissaBits + 8 ≤ 63 := by decide
  obtain ⟨nearest, same, -, flushed, -⟩ :=
    encoding_rounds_to_nearest mantissa width (by decide) size
  refine ⟨mantissa, width, size, ?_, ?_, ?_⟩
  · have infinity : toBits binary32 ⟨33554431, 103⟩ = 0x7f800000 := by decide
    have tie := nearest ⟨33554431, 103⟩
    rw [infinity] at tie
    exact tie
  · apply same
    have word : (33554431 : UInt64).toNat = 33554431 := rfl
    have word' : (67108862 : UInt64).toNat = 67108862 := rfl
    rw [ExtFloat.value, ExtFloat.value, word, word']
    norm_num
  · rw [flushed, ExtFloat.value, UInt64.toNat_one]
    norm_num [numberAt, binary32, lowestExp, bias]

end FloatFormat

end RadixText
