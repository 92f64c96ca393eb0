import RadixText.Proofs.Expansions
import RadixText.Proofs.Magnitudes
import RadixText.Proofs.SignificantDigits
import RadixText.Proofs.Windows

/-!
# Fixed notation keeps the number

From a leading digit on there are at most 56 significant digits near a number,
and behind the point at most 71 as long as the number is not tiny. So all of
them fit in the window of fixed notation.
-/

namespace RadixText

namespace Expansion

variable {r : Radix} {x : ExtFloat} {hood : Neighbourhood} {e : Expansion}

theorem ofDigits_whole_le (e : Expansion) (r : Radix) : (r.ofDigits e.whole : ℚ) ≤ e.value r := by
  rw [value_eq]
  exact le_add_of_nonneg_right (Radix.fractionValue_nonneg _)

namespace IsClose

theorem whole_lt_radix (h : e.IsClose r x hood) : ∀ d ∈ e.whole, d < r.val := by
  intro d mem
  rw [← h.whole_canonical] at mem
  exact r.lt_of_mem_digits mem

theorem whole_ne_nil (h : e.IsClose r x hood) : e.whole ≠ [] := by
  rw [← h.whole_canonical]
  exact r.digits_ne_nil _

/-- A number below one has a single zero in front of the point. -/
theorem whole_eq_zero (h : e.IsClose r x hood) (below : e.value r < 1) : e.whole = [0] := by
  have zero : r.ofDigits e.whole = 0 := by
    have small : (r.ofDigits e.whole : ℚ) < 1 := lt_of_le_of_lt (ofDigits_whole_le e r) below
    exact Nat.lt_one_iff.mp (by exact_mod_cast small)
  rw [← h.whole_canonical, zero, r.digits_of_lt r.val_pos]

/-- The leading digit in front of the point is zero for numbers below one only. -/
theorem head_whole (h : e.IsClose r x hood) (nonzero : r.ofDigits e.whole ≠ 0) :
    ∃ d ds, e.whole = d :: ds ∧ d ≠ 0 := by
  have head := r.head?_digits nonzero
  rw [h.whole_canonical] at head
  cases whole : e.whole with
  | nil => exact absurd whole h.whole_ne_nil
  | cons d ds => exact ⟨d, ds, rfl, by simpa [whole] using head⟩

/-- Digits in front of the point that fit in the window give a text whose parts
fit together. -/
theorem layoutFixed_isWellFormed (h : e.IsClose r x hood) (fits : e.whole.length ≤ maxDigits) :
    (e.layoutFixed r).IsWellFormed where
  lt_radix := by
    intro d mem
    rcases List.mem_append.mp mem with mem | mem
    · exact h.whole_lt_radix d mem
    · exact h.fraction_lt d (List.mem_of_mem_take (mem_of_mem_trimZeros mem))
  count_le := by
    simp [layoutFixed, FloatText.wholeCount]
  length_le := by
    have trimmed := length_dropTrailing_le (· == 0)
      (e.fraction.take (maxDigits - e.whole.length))
    rw [List.length_take] at trimmed
    simp only [layoutFixed, trimZeros, List.length_append] at trimmed ⊢
    omega
  exponent_lt := by
    simp [layoutFixed, FloatText.exponent]

end IsClose

namespace IsNear

theorem two_mul_value_lt (h : e.IsNear r x hood) (suits : hood.Suits x) (range : x.IsInRange) :
    2 * e.value r < 3 * x.value := by
  have above := h.above
  have half := suits.two_mul_reachAbove_le range
  linarith

theorem lt_two_mul_value (h : e.IsNear r x hood) (suits : hood.Suits x) (range : x.IsInRange) :
    x.value < 2 * e.value r := by
  have below := h.below
  have half := suits.two_mul_reachAbove_le range
  have order := hood.reachBelow_le_reachAbove
  linarith

/-- From a leading digit other than zero on there are at most 56 significant
digits. -/
theorem significant_of_whole (h : e.IsNear r x hood) (nonzero : r.ofDigits e.whole ≠ 0) :
    ∃ d ds zeros, e.whole ++ e.fraction = d :: ds ++ List.replicate zeros 0 ∧ d ≠ 0 ∧
      (d :: ds).length ≤ 56 ∧ (e.fraction ≠ [] → zeros = 0) := by
  obtain ⟨digits, zeros, split, small, unpadded⟩ := h.significant
  obtain ⟨d, ds, whole, leading⟩ := h.head_whole nonzero
  cases digits with
  | nil =>
      rw [whole, List.nil_append] at split
      have mem : d ∈ List.replicate zeros 0 := by simp [← split]
      exact absurd (List.eq_of_mem_replicate mem) leading
  | cons c cs =>
      rw [whole, List.cons_append, List.cons_append] at split
      have head : d = c := (List.cons.inj split).1
      refine ⟨c, cs, zeros, ?_, head ▸ leading,
        Radix.length_le_of_ofDigits_lt (head ▸ leading) small, unpadded⟩
      rw [whole, List.cons_append, List.cons_append]
      exact split

/-- Digits behind the point of a number that is not tiny end in the window of
fixed notation. -/
theorem fraction_fits (h : e.IsNear r x hood) (suits : hood.Suits x) (range : x.IsInRange)
    (moderate : 5902958103587057 / 2 ^ 69 < x.value) (nonempty : e.fraction ≠ []) :
    e.whole.length + e.fraction.length ≤ maxDigits := by
  by_cases zero : r.ofDigits e.whole = 0
  · have whole : e.whole = [0] := by
      rw [← h.whole_canonical, zero, r.digits_of_lt r.val_pos]
    have positive := List.length_pos_of_ne_nil nonempty
    have needed := h.needed (e.fraction.length - 1) (by omega)
    have bits := suits.value_le range
    have power := r.cast_val_pow_pos (e.fraction.length - 1)
    have small : (2 : ℚ) ^ (e.fraction.length - 1) < 2 ^ 71 := by
      have base : (2 : ℚ) ^ (e.fraction.length - 1) ≤ r.val ^ (e.fraction.length - 1) := by
        exact_mod_cast r.two_pow_le _
      refine lt_of_le_of_lt base ?_
      have tiny : (1 : ℚ) / 2 ^ 17 < x.value := by
        refine lt_trans ?_ moderate
        norm_num
      have scaled : (1 : ℚ) / 2 ^ 17 * r.val ^ (e.fraction.length - 1) <
          2 ^ 54 * (hood.reachBelow * r.val ^ (e.fraction.length - 1)) := by
        rw [← mul_assoc]
        exact mul_lt_mul_of_pos_right (lt_of_lt_of_le tiny bits) power
      linarith
    have length := (pow_lt_pow_iff_right₀ (by norm_num : (1 : ℚ) < 2)).mp small
    simp only [whole, List.length_singleton, maxDigits]
    omega
  · obtain ⟨d, ds, zeros, split, -, length, unpadded⟩ := h.significant_of_whole zero
    have total := congrArg List.length split
    rw [unpadded nonempty, List.replicate_zero, List.append_nil, List.length_append] at total
    simp only [maxDigits]
    omega

theorem length_whole_le (h : e.IsNear r x hood) (suits : hood.Suits x) (range : x.IsInRange)
    (moderate : x.value < 10 ^ 9) : e.whole.length ≤ 31 := by
  have value := h.two_mul_value_lt suits range
  have whole := ofDigits_whole_le e r
  have small : (r.ofDigits e.whole : ℚ) < (2 ^ 31 : ℕ) := by
    push_cast
    linarith
  rw [← h.whole_canonical]
  refine r.length_digits_le (by decide) (lt_of_lt_of_le ?_ (r.two_pow_le 31))
  exact_mod_cast small

/-- All digits of a moderate number fit in the window of fixed notation. -/
theorem fitsWindow_fixed (h : e.IsNear r x hood) (suits : hood.Suits x) (range : x.IsInRange)
    (low : 5902958103587057 / 2 ^ 69 < x.value) (high : x.value < 10 ^ 9) :
    e.FitsWindow false := by
  change e.whole.length + (trimZeros e.fraction).length ≤ maxDigits
  by_cases empty : e.fraction = []
  · have whole := h.length_whole_le suits range high
    simp only [empty, trimZeros, dropTrailing_nil, List.length_nil, maxDigits]
    omega
  · have fits := h.fraction_fits suits range low empty
    have trimmed := length_dropTrailing_le (· == 0) e.fraction
    rw [trimZeros]
    omega

end IsNear

end Expansion

end RadixText
