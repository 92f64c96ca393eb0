import RadixText.Proofs.FixedLayouts

/-!
# Scientific notation keeps the number

The window of scientific notation starts at the leading digit of a large
number, and at the first significant digit of a tiny one as long as the
estimated logarithm is off by one at most. There it holds all significant
digits.
-/

namespace RadixText

namespace FloatText

variable {r : Radix} {digits : List Nat}

/-- A window of digits gives a text whose parts fit together, wherever it
starts. -/
theorem isWellFormed_window {exp : Int} (below : ∀ d ∈ digits, d < r.val)
    (nonempty : digits ≠ []) (range : exp.natAbs < 2 ^ 11) :
    (⟨r, .scientific exp, trimZerosAfterFirst (digits.take (Expansion.maxDigits + 1))⟩ :
      FloatText).IsWellFormed := by
  obtain ⟨d, ds, rfl⟩ := List.exists_cons_of_ne_nil nonempty
  rw [List.take_succ_cons, trimZerosAfterFirst]
  have trimmed := length_dropTrailing_le (· == 0) (ds.take Expansion.maxDigits)
  rw [List.length_take] at trimmed
  refine ⟨?_, ?_, ?_, range⟩
  · intro c mem
    rcases List.mem_cons.mp mem with rfl | mem
    · exact below _ List.mem_cons_self
    · exact below c (List.mem_cons_of_mem d (List.mem_of_mem_take (mem_of_mem_trimZeros mem)))
  · simp [wholeCount]
  · simp only [trimZeros, List.length_cons, isScientific, Bool.toNat_true] at trimmed ⊢
    omega

end FloatText

namespace Expansion

variable {r : Radix} {x : ExtFloat} {hood : Neighbourhood} {e : Expansion}

namespace IsClose

theorem digits_lt_radix (h : e.IsClose r x hood) : ∀ d ∈ e.whole ++ e.fraction, d < r.val := by
  intro d mem
  rcases List.mem_append.mp mem with mem | mem
  · exact h.whole_lt_radix d mem
  · exact h.fraction_lt d mem

theorem layoutHuge_isWellFormed (h : e.IsClose r x hood) : (e.layoutHuge r).IsWellFormed := by
  have length := h.length_whole
  have length_pos := List.length_pos_of_ne_nil h.whole_ne_nil
  apply FloatText.isWellFormed_window h.digits_lt_radix (by simp [h.whole_ne_nil])
  simp only [places] at length
  omega

theorem layoutTiny_isWellFormed (h : e.IsClose r x hood) (nonempty : e.fraction ≠ []) (log : Int) :
    ∃ t, e.layoutTiny r log = .ok t ∧ t.radix = r ∧ t.isScientific = true ∧ t.IsWellFormed := by
  have first := firstSignificant_lt nonempty log
  have length := h.length_fraction
  refine ⟨_, by rw [layoutTiny, Precondition.require_of_kept _ nonempty]; rfl, rfl, rfl, ?_⟩
  apply FloatText.isWellFormed_window
  · intro c mem
    exact h.fraction_lt c (List.mem_of_mem_drop mem)
  · rw [ne_eq, List.drop_eq_nil_iff]
    omega
  · simp only [places] at length
    omega

/-- Where a number is below the place of its first significant digit, the digits
are rounded up to a power of the radix and there is no digit behind. -/
theorem eq_nil_of_lt (h : e.IsClose r x hood) (nonpos : x.exp ≤ 0) {n d : Nat} {ds : List Nat}
    (whole : e.whole = [0]) (split : e.fraction = List.replicate n 0 ++ d :: ds) (leading : d ≠ 0)
    (beyond : x.value < 1 / r.val ^ (n + 1)) : ds = [] := by
  have length : e.fraction.length = n + (ds.length + 1) := by simp [split]
  have power := r.cast_val_pow_pos (n + 1)
  have total := r.cast_val_pow_pos (n + (ds.length + 1))
  have first : r.fractionValue (d :: ds) = r.ofDigits (d :: ds) / r.val ^ (ds.length + 1) := rfl
  have scaled : e.value r = r.ofDigits (d :: ds) / r.val ^ (n + (ds.length + 1)) := by
    rw [value_eq, whole, split, Radix.fractionValue_zeros_append, first, div_div, ← pow_add,
      Nat.add_comm (ds.length + 1)]
    simp
  have base : 1 / (r.val : ℚ) ^ (n + 1) = r.val ^ ds.length / r.val ^ (n + (ds.length + 1)) := by
    rw [div_eq_div_iff power.ne' total.ne', one_mul, ← pow_add]
    congr 1
    omega
  have large : (r.val : ℚ) ^ ds.length ≤ r.ofDigits (d :: ds) := by
    exact_mod_cast Radix.pow_le_ofDigits leading
  have exceeds : x.value < e.value r := by
    refine lt_of_lt_of_le beyond ?_
    rw [base, scaled]
    exact (div_le_div_iff_of_pos_right total).mpr large
  obtain ⟨near, last⟩ := h.raised nonpos exceeds
  -- The digits from the first significant one on are a one and zeros.
  have small : r.ofDigits (d :: ds) < r.val ^ ds.length + 1 := by
    have bound : (r.ofDigits (d :: ds) : ℚ) / r.val ^ (n + (ds.length + 1)) <
        (r.val ^ ds.length + 1) / r.val ^ (n + (ds.length + 1)) := by
      rw [← scaled, add_div, ← base, ← length]
      linarith
    exact_mod_cast (div_lt_div_iff_of_pos_right total).mp bound
  have rest : r.ofDigits ds = 0 := by
    rw [Radix.ofDigits_cons] at small
    have := Nat.le_mul_of_pos_left (r.val ^ ds.length) (Nat.pos_of_ne_zero leading)
    omega
  by_contra nonempty
  have zero := Radix.eq_zero_of_ofDigits_eq_zero rest _ (List.getLast_mem nonempty)
  rw [split, List.getLast?_append_of_ne_nil _ (by simp),
    ← List.singleton_append, List.getLast?_append_of_ne_nil _ nonempty,
    List.getLast?_eq_some_getLast nonempty, zero] at last
  exact last rfl

/-- The estimated logarithm is at most one place behind the first significant
digit. -/
theorem close_of_log (h : e.IsClose r x hood) (positive : 0 < x.value) {n d : Nat} {ds : List Nat}
    (below : x.value < 1) (whole : e.whole = [0])
    (split : e.fraction = List.replicate n 0 ++ d :: ds) (leading : d ≠ 0) {log : Int}
    (estimate : |log - Int.log r.val x.value| ≤ 1) :
    min (-log - 1).toNat (e.fraction.length - 1) ≤ n + 1 := by
  rw [abs_le] at estimate
  by_cases reached : 1 / (r.val : ℚ) ^ (n + 1) ≤ x.value
  · have exponent : 1 / (r.val : ℚ) ^ (n + 1) = (r.val : ℚ) ^ (-((n + 1 : ℕ) : ℤ)) := by
      rw [zpow_neg, zpow_natCast, one_div]
    rw [exponent] at reached
    have log_ge := (Int.zpow_le_iff_le_log r.one_lt_val positive).mp reached
    omega
  · have alone := h.eq_nil_of_lt (ExtFloat.exp_neg positive below).le whole split leading
      (not_le.mp reached)
    simp [split, alone]

/-- The window of a large number starts at its leading digit. -/
theorem layoutHuge_isCutOf (h : e.IsClose r x hood) (one : 1 ≤ x.value) :
    (e.layoutHuge r).IsCutOf r e := by
  have length := h.length_whole
  obtain ⟨d, ds, whole, leading⟩ := h.head_whole (h.leading one)
  have split : e.whole ++ e.fraction = d :: (ds ++ e.fraction) := by
    rw [whole, List.cons_append]
  rw [layoutHuge, split]
  apply FloatText.isCutOf_window (n := 0) split leading
  · rw [← split]
    exact h.digits_lt_radix
  · simp
  · have length_pos := List.length_pos_of_ne_nil h.whole_ne_nil
    simp only [places] at length
    omega

/-- Digits behind the point of a number below one are not all zeros, and there
is none but a zero in front of it. -/
theorem parts_below_one (h : e.IsClose r x hood) (positive : 0 < x.value) (below : x.value < 1)
    (nonempty : e.fraction ≠ []) :
    e.whole = [0] ∧ ∃ n d ds, e.fraction = List.replicate n 0 ++ d :: ds ∧ d ≠ 0 := by
  have value := value_eq e r
  have value_lt : e.value r < 1 := by
    by_contra reached
    obtain ⟨near, last⟩ := h.raised (ExtFloat.exp_neg positive below).le
      (below.trans_le (not_lt.mp reached))
    have nonzero : r.ofDigits e.fraction ≠ 0 := by
      intro zero
      have all := Radix.eq_zero_of_ofDigits_eq_zero zero _ (List.getLast_mem nonempty)
      rw [List.getLast?_eq_some_getLast nonempty, all] at last
      exact last rfl
    have fraction_lt := Radix.fractionValue_lt_one h.fraction_lt
    have fraction_ge : 1 / (r.val : ℚ) ^ e.fraction.length ≤ r.fractionValue e.fraction := by
      rw [Radix.fractionValue]
      gcongr
      exact_mod_cast Nat.one_le_iff_ne_zero.mpr nonzero
    -- A carry in front of the point would exceed the number by more than one unit.
    have whole_pos : (0 : ℚ) < r.ofDigits e.whole := by linarith
    have whole_ge : (1 : ℚ) ≤ r.ofDigits e.whole := by exact_mod_cast whole_pos
    linarith
  have whole := h.whole_eq_zero value_lt
  refine ⟨whole, Radix.exists_significant (r := r) ?_⟩
  intro zero
  have reach := h.reachBelow_le nonempty
  have close := h.below
  rw [value, whole, Radix.fractionValue, zero] at close
  simp at close
  linarith

/-- The window of a tiny number starts at its first significant digit. -/
theorem layoutTiny_isCutOf (h : e.IsClose r x hood) (positive : 0 < x.value)
    (below : x.value < 1) (nonempty : e.fraction ≠ []) {log : Int}
    (estimate : |log - Int.log r.val x.value| ≤ 1) :
    ∃ t, e.layoutTiny r log = .ok t ∧ t.isScientific = true ∧ t.IsCutOf r e := by
  obtain ⟨whole, n, d, ds, split, leading⟩ := h.parts_below_one positive below nonempty
  have close := h.close_of_log positive below whole split leading estimate
  have first : firstSignificant e.fraction log = n := by
    rw [split] at close ⊢
    exact firstSignificant_eq leading ds close
  have rest : e.fraction.drop n = d :: ds := by
    rw [split, List.drop_left' (by simp)]
  refine ⟨_, by rw [layoutTiny, Precondition.require_of_kept _ nonempty]; rfl, rfl, ?_⟩
  rw [first, rest]
  apply FloatText.isCutOf_window (n := n + 1) (by rw [whole, split]; rfl) leading
  · intro c mem
    rw [← rest] at mem
    exact h.fraction_lt c (List.mem_of_mem_drop mem)
  · simp [whole]
  · have length := h.length_fraction
    have count := congrArg List.length split
    simp only [List.length_append, List.length_replicate, List.length_cons, places] at count length
    omega

/-- Each layout keeps a window of the digits. -/
theorem layout_isCutOf (h : e.IsClose r x hood) (positive : 0 < x.value)
    (nonempty : x.size = .tiny → e.fraction ≠ []) {log : Int}
    (estimate : x.value < 1 → |log - Int.log r.val x.value| ≤ 1) :
    ∃ t, e.layout r x.size log = .ok t ∧ t.IsCutOf r e := by
  cases kind : x.size with
  | tiny =>
      have below := ExtFloat.lt_one_of_size_eq_tiny kind
      obtain ⟨t, done, -, cut⟩ :=
        h.layoutTiny_isCutOf positive below (nonempty kind) (estimate below)
      exact ⟨t, done, cut⟩
  | moderate => exact ⟨_, rfl, layoutFixed_isCutOf h.whole_canonical h.fraction_lt⟩
  | huge =>
      exact ⟨_, rfl, h.layoutHuge_isCutOf (ExtFloat.one_le_of_size_eq_huge positive kind)⟩

end IsClose

namespace IsNear

/-- Near a tiny number there is a digit behind the point. -/
theorem fraction_ne_nil (h : e.IsNear r x hood) (suits : hood.Suits x) (range : x.IsInRange)
    (tiny : x.value ≤ 5902958103587057 / 2 ^ 69) : e.fraction ≠ [] := by
  intro empty
  have above := h.two_mul_value_lt suits range
  have below := h.lt_two_mul_value suits range
  have positive := range.value_pos
  rw [value_eq, empty, Radix.fractionValue, Radix.ofDigits_nil, Nat.cast_zero, zero_div,
    add_zero] at above below
  have whole_pos : (0 : ℚ) < r.ofDigits e.whole := by linarith
  have one : (1 : ℚ) ≤ r.ofDigits e.whole := by exact_mod_cast whole_pos
  linarith

/-- The digits near a number are laid out whatever the estimate. -/
theorem layout_isWellFormed (h : e.IsNear r x hood) (suits : hood.Suits x) (range : x.IsInRange)
    (log : Int) : ∃ t, e.layout r x.size log = .ok t ∧ t.radix = r ∧
      t.isScientific = decide (x.size ≠ .moderate) ∧ t.IsWellFormed := by
  cases kind : x.size with
  | tiny =>
      exact h.layoutTiny_isWellFormed
        (h.fraction_ne_nil suits range (range.size_eq_tiny_iff.mp kind)) log
  | moderate =>
      have moderate := (range.size_eq_moderate_iff.mp kind).2
      have fits := (h.length_whole_le suits range moderate).trans (show 31 ≤ maxDigits by decide)
      exact ⟨_, rfl, rfl, rfl, h.layoutFixed_isWellFormed fits⟩
  | huge => exact ⟨_, rfl, rfl, rfl, h.layoutHuge_isWellFormed⟩

/-- The window of scientific notation holds all significant digits near a
number. -/
theorem fitsWindow_scientific (h : e.IsNear r x hood) : e.FitsWindow true := by
  obtain ⟨digits, zeros, split, small, -⟩ := h.significant
  change (trimZeros ((e.whole ++ e.fraction).dropWhile (· == 0))).length ≤ maxDigits + 1
  rw [split]
  by_cases zero : r.ofDigits digits = 0
  · have dropped : (digits ++ List.replicate zeros 0).dropWhile (· == 0) = [] := by
      rw [List.dropWhile_eq_nil_iff]
      intro d mem
      rw [beq_iff_eq]
      rcases List.mem_append.mp mem with mem | mem
      · exact Radix.eq_zero_of_ofDigits_eq_zero zero d mem
      · exact List.eq_of_mem_replicate mem
    rw [dropped]
    exact Nat.zero_le _
  · obtain ⟨n, d, ds, rfl, leading⟩ := Radix.exists_significant zero
    have length : (d :: ds).length ≤ 56 := Radix.length_le_of_ofDigits_lt leading
      (by simpa [Radix.ofDigits_append] using small)
    have trimmed := length_dropTrailing_le (· == 0) (d :: ds)
    rw [List.append_assoc, List.cons_append, dropWhile_zeros_append n leading,
      ← List.cons_append, trimZeros_append_zeros, trimZeros]
    simp only [maxDigits]
    omega

/-- A good estimate gives the normal text of the digits' number. -/
theorem layout_isNormal (h : e.IsNear r x hood) (suits : hood.Suits x) (range : x.IsInRange)
    {log : Int} (estimate : x.value < 1 → |log - Int.log r.val x.value| ≤ 1) {t : FloatText}
    (done : e.layout r x.size log = .ok t) : t.IsNormal ∧ t.value = e.value r := by
  have nonempty : x.size = .tiny → e.fraction ≠ [] := by
    intro kind
    exact h.fraction_ne_nil suits range (range.size_eq_tiny_iff.mp kind)
  obtain ⟨t', made, cut⟩ := h.layout_isCutOf range.value_pos nonempty estimate
  obtain ⟨t'', made', -, scientific, -⟩ := h.layout_isWellFormed suits range log
  obtain rfl : t = t' := Except.ok.inj (done.symm.trans made)
  obtain rfl : t = t'' := Except.ok.inj (done.symm.trans made')
  have fits : e.FitsWindow t.isScientific := by
    rw [scientific]
    cases kind : x.size with
    | tiny => exact h.fitsWindow_scientific
    | moderate =>
        obtain ⟨low, high⟩ := range.size_eq_moderate_iff.mp kind
        exact h.fitsWindow_fixed suits range low high
    | huge => exact h.fitsWindow_scientific
  exact ⟨cut.normal, cut.exact fits⟩

end IsNear

end Expansion

end RadixText
