import RadixText.Proofs.NormalTexts

/-!
# Windows of digits

A layout keeps the digits in the window of its notation. What it cuts off is
less than one unit of the window's last place, and nothing where all significant
digits fit.
-/

namespace RadixText

/-- One unit of the last place in the window of a text's notation. -/
def FloatText.windowUnit (t : FloatText) : ℚ :=
  match t.form with
  | .fixed n => t.radix.val ^ ((n : ℤ) - Expansion.maxDigits)
  | .scientific e => t.radix.val ^ (e - Expansion.maxDigits)

theorem FloatText.windowUnit_fixed (r : Radix) (n : Nat) (digits : List Nat) :
    (⟨r, .fixed n, digits⟩ : FloatText).windowUnit =
      (r.val : ℚ) ^ ((n : ℤ) - Expansion.maxDigits) := rfl

theorem FloatText.windowUnit_scientific (r : Radix) (e : Int) (digits : List Nat) :
    (⟨r, .scientific e, digits⟩ : FloatText).windowUnit =
      (r.val : ℚ) ^ (e - Expansion.maxDigits) := rfl

/-- The digits of an expansion fit in the window of a notation. Zeros at the end
do not count, and in scientific notation neither do zeros in front. -/
def Expansion.FitsWindow (e : Expansion) (scientific : Bool) : Prop :=
  if scientific then
    (trimZeros ((e.whole ++ e.fraction).dropWhile (· == 0))).length ≤ maxDigits + 1
  else e.whole.length + (trimZeros e.fraction).length ≤ maxDigits

/-- The normal text of the digits of an expansion in a window. -/
structure FloatText.IsCutOf (t : FloatText) (r : Radix) (e : Expansion) : Prop where
  radix : t.radix = r
  normal : t.IsNormal
  exponent_lt : t.exponent.natAbs < 2 ^ 11
  value_le : t.value ≤ e.value r
  lt_add_windowUnit : e.value r < t.value + t.windowUnit
  exact : e.FitsWindow t.isScientific → t.value = e.value r

variable {r : Radix} {e : Expansion}

theorem dropWhile_zeros_append (n : Nat) {d : Nat} (nonzero : d ≠ 0) (ds : List Nat) :
    (List.replicate n 0 ++ d :: ds).dropWhile (· == 0) = d :: ds := by
  rw [List.dropWhile_append_of_pos (by simp), List.dropWhile_cons]
  simp [nonzero]

/-- Zeros at the end are trimmed however many there are. -/
theorem trimZeros_append_zeros (ds : List Nat) (n : Nat) :
    trimZeros (ds ++ List.replicate n 0) = trimZeros ds := by
  obtain ⟨m, split⟩ := exists_trimZeros_append ds
  obtain ⟨k, split'⟩ := exists_trimZeros_append (ds ++ List.replicate n 0)
  apply eq_of_append_zeros_eq (n := k) (m := m + n) (getLast?_trimZeros _) (getLast?_trimZeros _)
  rw [← split', ← List.replicate_append_replicate, ← List.append_assoc, ← split]

theorem Expansion.value_eq (e : Expansion) (r : Radix) :
    e.value r = r.ofDigits e.whole + r.fractionValue e.fraction := rfl

/-- All whole digits and a window behind the point. -/
theorem Expansion.value_layoutFixed (e : Expansion) (r : Radix) : (e.layoutFixed r).value =
    r.ofDigits e.whole + r.fractionValue (e.fraction.take (maxDigits - e.whole.length)) := by
  rw [← r.fractionValue_trimZeros]
  simp only [layoutFixed, FloatText.value, FloatText.wholeCount, FloatText.exponent,
    List.take_left', List.drop_left', zpow_zero, mul_one]
  rfl

theorem Expansion.layoutFixed_isCutOf (canonical : r.digits (r.ofDigits e.whole) = e.whole)
    (fraction_lt : ∀ d ∈ e.fraction, d < r.val) : (e.layoutFixed r).IsCutOf r e where
  radix := rfl
  normal := {
    lt_radix := by
      intro d mem
      rcases List.mem_append.mp mem with mem | mem
      · rw [← canonical] at mem
        exact r.lt_of_mem_digits mem
      · exact fraction_lt d (List.mem_of_mem_take (mem_of_mem_trimZeros mem))
    count_le := by
      simp [layoutFixed, FloatText.wholeCount]
    whole_canonical := by
      simpa [layoutFixed, FloatText.wholeCount] using canonical
    fraction_canonical := by
      simpa [layoutFixed, FloatText.wholeCount] using getLast?_trimZeros _
    leading := by
      simp [layoutFixed, FloatText.isScientific] }
  exponent_lt := by
    simp [layoutFixed, FloatText.exponent]
  value_le := by
    rw [value_layoutFixed]
    exact add_le_add_right (Radix.fractionValue_take fraction_lt _).1 _
  lt_add_windowUnit := by
    have cut := (Radix.fractionValue_take fraction_lt (maxDigits - e.whole.length)).2
    have unit : 1 / (r.val : ℚ) ^ (maxDigits - e.whole.length) ≤
        r.val ^ ((e.whole.length : ℤ) - maxDigits) := by
      rw [one_div, ← zpow_natCast, ← zpow_neg]
      apply zpow_le_zpow_right₀ (by exact_mod_cast r.val_pos)
      omega
    rw [value_layoutFixed, layoutFixed, FloatText.windowUnit_fixed, value_eq]
    linarith
  exact fits := by
    change e.whole.length + (trimZeros e.fraction).length ≤ maxDigits at fits
    rw [value_layoutFixed, r.fractionValue_take_of_fits (by omega)]
    rfl

/-- A window that starts at the first significant digit of an expansion. -/
theorem FloatText.isCutOf_window {n d : Nat} {ds : List Nat} {exp : Int}
    (split : e.whole ++ e.fraction = List.replicate n 0 ++ d :: ds) (leading : d ≠ 0)
    (below : ∀ c ∈ d :: ds, c < r.val) (place : (e.whole.length : ℤ) = n + (exp + 1))
    (range : exp.natAbs < 2 ^ 11) :
    (⟨r, .scientific exp, trimZerosAfterFirst ((d :: ds).take (Expansion.maxDigits + 1))⟩ :
      FloatText).IsCutOf r e := by
  have radix := r.cast_val_pos.ne'
  have unit := r.cast_val_zpow_pos (exp + 1)
  have value : e.value r = r.fractionValue (d :: ds) * r.val ^ (exp + 1) := by
    rw [Expansion.value, Radix.pointValue_eq, split, Radix.fractionValue_zeros_append,
      ← zpow_natCast _ e.whole.length, place, zpow_add₀ radix, zpow_natCast]
    have front := (r.cast_val_pow_pos n).ne'
    field_simp
  have kept : (⟨r, .scientific exp,
      trimZerosAfterFirst ((d :: ds).take (Expansion.maxDigits + 1))⟩ : FloatText).value =
        r.fractionValue ((d :: ds).take (Expansion.maxDigits + 1)) * r.val ^ (exp + 1) :=
    value_scientific exp leading
  obtain ⟨le, lt⟩ := Radix.fractionValue_take below (Expansion.maxDigits + 1)
  refine ⟨rfl, isNormal_scientific exp leading ?_, range, ?_, ?_, ?_⟩
  · rw [← List.take_succ_cons]
    intro c mem
    exact below c (List.mem_of_mem_take mem)
  · rw [kept, value]
    exact mul_le_mul_of_nonneg_right le unit.le
  · have last : (r.val : ℚ) ^ (exp - Expansion.maxDigits) =
        1 / r.val ^ (Expansion.maxDigits + 1) * r.val ^ (exp + 1) := by
      rw [one_div, ← zpow_natCast, ← zpow_neg, ← zpow_add₀ radix]
      congr 1
      push_cast
      ring
    rw [kept, value, windowUnit_scientific, last, ← add_mul]
    exact mul_lt_mul_of_pos_right lt unit
  · intro fits
    change (trimZeros ((e.whole ++ e.fraction).dropWhile (· == 0))).length ≤
      Expansion.maxDigits + 1 at fits
    rw [split, dropWhile_zeros_append n leading] at fits
    rw [kept, value, r.fractionValue_take_of_fits fits]

end RadixText
