import RadixText.Proofs.PointValues

/-!
# Normal float texts

A text is normal if none of its digits could be left out. In each notation
there is one normal text for a number, since the digits are those of the number
and the exponent is its logarithm.
-/

namespace RadixText

namespace FloatText

/-- The parts of a text fit together, whatever number it denotes. -/
structure IsWellFormed (t : FloatText) : Prop where
  lt_radix : ∀ d ∈ t.digits, d < t.radix.val
  count_le : t.wholeCount ≤ t.digits.length
  length_le : t.digits.length ≤ Expansion.maxDigits + t.isScientific.toNat
  exponent_lt : t.exponent.natAbs < 2 ^ 11

/-- No digit of the text could be left out. -/
structure IsNormal (t : FloatText) : Prop where
  lt_radix : ∀ d ∈ t.digits, d < t.radix.val
  count_le : t.wholeCount ≤ t.digits.length
  whole_canonical : t.radix.digits (t.radix.ofDigits (t.digits.take t.wholeCount)) =
    t.digits.take t.wholeCount
  fraction_canonical : (t.digits.drop t.wholeCount).getLast? ≠ some 0
  leading : t.isScientific = true → t.digits.head? ≠ some 0

theorem exponent_eq_zero {t : FloatText} (h : t.isScientific = false) : t.exponent = 0 := by
  obtain ⟨r, form, digits⟩ := t
  cases form with
  | fixed n => rfl
  | scientific e => simp [isScientific] at h

/-- Texts are told apart by radix, notation, exponent and digits on both sides
of the point. -/
theorem eq_of_parts_eq {t t' : FloatText} (radix : t.radix = t'.radix)
    (kind : t.isScientific = t'.isScientific) (exponent : t.exponent = t'.exponent)
    (count : t.wholeCount = t'.wholeCount) (digits : t.digits = t'.digits) : t = t' := by
  obtain ⟨r, form, ds⟩ := t
  obtain ⟨r', form', ds'⟩ := t'
  obtain rfl : r = r' := radix
  obtain rfl : ds = ds' := digits
  cases form with
  | fixed n =>
      cases form' with
      | fixed n' =>
          obtain rfl : n = n' := count
          rfl
      | scientific e' => simp [isScientific] at kind
  | scientific e =>
      cases form' with
      | fixed n' => simp [isScientific] at kind
      | scientific e' =>
          obtain rfl : e = e' := exponent
          rfl

/-- In scientific notation the exponent is the logarithm of the number. -/
theorem IsNormal.exponent_eq_log {t : FloatText} (h : t.IsNormal)
    (scientific : t.isScientific = true) : t.exponent = Int.log t.radix.val t.value := by
  obtain ⟨r, form, digits⟩ := t
  cases form with
  | fixed n => simp [isScientific] at scientific
  | scientific e =>
      cases digits with
      | nil =>
          have count := h.count_le
          simp [wholeCount] at count
      | cons d ds =>
          have leading : d ≠ 0 := by simpa using h.leading rfl
          have digit : d < r.val := h.lt_radix d List.mem_cons_self
          have rest : r.fractionValue ds < 1 := Radix.fractionValue_lt_one
            fun c mem => h.lt_radix c (List.mem_cons_of_mem d mem)
          have nonneg := Radix.fractionValue_nonneg (r := r) ds
          have radix := r.cast_val_pos
          have power := r.cast_val_zpow_pos e
          have value : (⟨r, .scientific e, d :: ds⟩ : FloatText).value =
              (d + r.fractionValue ds) * r.val ^ e := by
            simp [FloatText.value, wholeCount, exponent, Radix.pointValue, Radix.fractionValue]
          have one : (1 : ℚ) ≤ d := by exact_mod_cast Nat.one_le_iff_ne_zero.mpr leading
          have next : (d : ℚ) + 1 ≤ r.val := by exact_mod_cast digit
          have positive : 0 < (⟨r, .scientific e, d :: ds⟩ : FloatText).value := by
            rw [value]
            positivity
          have lower : (r.val : ℚ) ^ e ≤ (⟨r, .scientific e, d :: ds⟩ : FloatText).value := by
            rw [value]
            exact le_mul_of_one_le_left power.le (by linarith)
          have upper : (⟨r, .scientific e, d :: ds⟩ : FloatText).value < (r.val : ℚ) ^ (e + 1) := by
            rw [value, zpow_add_one₀ radix.ne', mul_comm ((r.val : ℚ) ^ e)]
            exact mul_lt_mul_of_pos_right (by linarith) power
          have atLeast := (Int.zpow_le_iff_le_log r.one_lt_val positive).mp lower
          have less := (Int.lt_zpow_iff_log_lt r.one_lt_val positive).mp upper
          exact le_antisymm atLeast (Int.lt_add_one_iff.mp less)

/-- There is one normal text in each notation for a number. -/
theorem IsNormal.eq_of_value_eq {t t' : FloatText} (h : t.IsNormal) (h' : t'.IsNormal)
    (radix : t.radix = t'.radix) (form : t.isScientific = t'.isScientific)
    (value : t.value = t'.value) : t = t' := by
  have exponent : t.exponent = t'.exponent := by
    cases scientific : t.isScientific with
    | true =>
        rw [h.exponent_eq_log scientific, h'.exponent_eq_log (form ▸ scientific), radix, value]
    | false => rw [exponent_eq_zero scientific, exponent_eq_zero (form ▸ scientific)]
  have power := (t.radix.cast_val_zpow_pos t.exponent).ne'
  rw [FloatText.value, FloatText.value, ← exponent, ← radix, mul_left_inj' power] at value
  have whole' := h'.whole_canonical
  have lt_radix' := h'.lt_radix
  rw [← radix] at whole' lt_radix'
  obtain ⟨front, behind⟩ := Radix.eq_of_pointValue_eq h.whole_canonical whole'
    (fun d mem => h.lt_radix d (List.mem_of_mem_drop mem))
    (fun d mem => lt_radix' d (List.mem_of_mem_drop mem)) h.fraction_canonical
    h'.fraction_canonical value
  have digits : t.digits = t'.digits := by
    rw [← List.take_append_drop t.wholeCount t.digits, front, behind, List.take_append_drop]
  have count : t.wholeCount = t'.wholeCount := by
    have lengths := congrArg List.length front
    rwa [List.length_take_of_le h.count_le, List.length_take_of_le h'.count_le] at lengths
  exact eq_of_parts_eq radix form exponent count digits

variable {r : Radix} {d : Nat} {ds : List Nat}

/-- Digits from a leading one on, in scientific notation. -/
theorem isNormal_scientific (exp : Int) (leading : d ≠ 0)
    (below : ∀ c ∈ d :: ds, c < r.val) :
    (⟨r, .scientific exp, trimZerosAfterFirst (d :: ds)⟩ : FloatText).IsNormal where
  lt_radix := by
    intro c mem
    rcases List.mem_cons.mp mem with rfl | mem
    · exact below _ List.mem_cons_self
    · exact below c (List.mem_cons_of_mem d (mem_of_mem_trimZeros mem))
  count_le := by
    simp [trimZerosAfterFirst, FloatText.wholeCount]
  whole_canonical := by
    simpa [trimZerosAfterFirst, FloatText.wholeCount] using
      r.digits_of_lt (below d List.mem_cons_self)
  fraction_canonical := by
    simpa [trimZerosAfterFirst, FloatText.wholeCount] using getLast?_trimZeros ds
  leading := by
    intro _
    simpa [trimZerosAfterFirst] using leading

theorem value_scientific (exp : Int) (leading : d ≠ 0) :
    (⟨r, .scientific exp, trimZerosAfterFirst (d :: ds)⟩ : FloatText).value =
      r.fractionValue (d :: ds) * r.val ^ (exp + 1) := by
  have radix := r.cast_val_pos.ne'
  have one : (d :: trimZeros ds).take 1 = [d] := rfl
  rw [FloatText.value, FloatText.wholeCount, FloatText.exponent, Radix.pointValue_eq,
    List.take_append_drop, trimZerosAfterFirst, one, List.length_singleton, pow_one, mul_assoc,
    zpow_add_one₀ radix, mul_comm ((r.val : ℚ) ^ exp), ← r.fractionValue_trimZeros (d :: ds),
    ← trimZerosAfterFirst_eq leading]
  rfl

end FloatText

end RadixText
