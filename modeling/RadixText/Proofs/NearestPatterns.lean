import RadixText.Proofs.Neighbours

/-!
# Nearest patterns

The pattern nearest to a number, the even one of two that are as near, lies
between the midpoints around the number. The midpoints are its thresholds, so
there is one such pattern, and larger numbers have larger ones.
-/

namespace RadixText.FloatFormat

section Distances

variable {v a b : ℚ}

theorem abs_sub_left_le_iff (lt : a < b) : |v - a| ≤ |v - b| ↔ v ≤ (a + b) / 2 := by
  have squares : (v - b) ^ 2 - (v - a) ^ 2 = (b - a) * (a + b - 2 * v) := by ring
  rw [← sq_le_sq, ← sub_nonneg, squares, mul_nonneg_iff_of_pos_left (sub_pos.mpr lt)]
  constructor <;> intro <;> linarith

theorem abs_sub_right_le_iff (lt : a < b) : |v - b| ≤ |v - a| ↔ (a + b) / 2 ≤ v := by
  have squares : (v - a) ^ 2 - (v - b) ^ 2 = (b - a) * (2 * v - (a + b)) := by ring
  rw [← sq_le_sq, ← sub_nonneg, squares, mul_nonneg_iff_of_pos_left (sub_pos.mpr lt)]
  constructor <;> intro <;> linarith

theorem abs_sub_eq_iff (lt : a < b) : |v - a| = |v - b| ↔ v = (a + b) / 2 := by
  rw [le_antisymm_iff, abs_sub_left_le_iff lt, abs_sub_right_le_iff lt, le_antisymm_iff]

end Distances

/-- The pattern of the number nearest to some number, the even pattern if two
are as near. Patterns range up to that of infinity. -/
structure IsNearest (f : FloatFormat) (v : ℚ) (n : Nat) : Prop where
  le_infinity : n ≤ f.maxField * 2 ^ f.mantissaBits
  nearest : ∀ m ≤ f.maxField * 2 ^ f.mantissaBits, |v - f.numberAt n| ≤ |v - f.numberAt m|
  even : ∀ m ≤ f.maxField * 2 ^ f.mantissaBits, m ≠ n →
    |v - f.numberAt n| = |v - f.numberAt m| → Even n

variable {f : FloatFormat} {v v' : ℚ} {n n' k : Nat}

theorem midpointAbove_strictMono (f : FloatFormat) : StrictMono f.midpointAbove := by
  intro n m lt
  have lower := f.numberAt_strictMono lt
  have upper := f.numberAt_strictMono (Nat.succ_lt_succ lt)
  rw [midpointAbove, midpointAbove]
  linarith

theorem numberAt_lt_midpointAbove (f : FloatFormat) (n : Nat) :
    f.numberAt n < f.midpointAbove n := by
  have upper := f.numberAt_strictMono (Nat.lt_succ_self n)
  rw [midpointAbove]
  linarith

theorem midpointAbove_lt_numberAt (f : FloatFormat) (n : Nat) :
    f.midpointAbove n < f.numberAt (n + 1) := by
  have upper := f.numberAt_strictMono (Nat.lt_succ_self n)
  rw [midpointAbove]
  linarith

/-- A pattern between its midpoints is nearest, on a midpoint if it is even. -/
theorem isNearest_of_midpoints (le : n ≤ f.maxField * 2 ^ f.mantissaBits)
    (below : ∀ k, n = k + 1 → f.midpointAbove k < v ∨ f.midpointAbove k = v ∧ Even n)
    (above : n < f.maxField * 2 ^ f.mantissaBits →
      v < f.midpointAbove n ∨ v = f.midpointAbove n ∧ Even n) : f.IsNearest v n := by
  have monotone := f.numberAt_strictMono.monotone
  -- What the midpoints say of another pattern, smaller or larger.
  have smaller {m : Nat} (lt : m < n) :
      (f.numberAt m + f.numberAt n) / 2 < v ∨ (f.numberAt m + f.numberAt n) / 2 ≤ v ∧ Even n := by
    obtain ⟨k, rfl⟩ := Nat.exists_eq_add_one_of_ne_zero (Nat.ne_zero_of_lt lt)
    have far : (f.numberAt m + f.numberAt (k + 1)) / 2 ≤ f.midpointAbove k := by
      have := monotone (Nat.le_of_lt_succ lt)
      rw [midpointAbove]
      linarith
    rcases below k rfl with inside | ⟨tie, even⟩
    · exact .inl (far.trans_lt inside)
    · exact .inr ⟨far.trans_eq tie, even⟩
  have larger {m : Nat} (m_le : m ≤ f.maxField * 2 ^ f.mantissaBits) (lt : n < m) :
      v < (f.numberAt n + f.numberAt m) / 2 ∨ v ≤ (f.numberAt n + f.numberAt m) / 2 ∧ Even n := by
    have far : f.midpointAbove n ≤ (f.numberAt n + f.numberAt m) / 2 := by
      have := monotone (Nat.succ_le_of_lt lt)
      rw [midpointAbove]
      linarith
    rcases above (Nat.lt_of_lt_of_le lt m_le) with inside | ⟨tie, even⟩
    · exact .inl (inside.trans_le far)
    · exact .inr ⟨tie.trans_le far, even⟩
  constructor
  · exact le
  · intro m m_le
    rcases Nat.lt_trichotomy m n with lt | rfl | gt
    · rw [abs_sub_right_le_iff (f.numberAt_strictMono lt)]
      exact (smaller lt).elim le_of_lt And.left
    · exact le_rfl
    · rw [abs_sub_left_le_iff (f.numberAt_strictMono gt)]
      exact (larger m_le gt).elim le_of_lt And.left
  · intro m m_le ne tie
    rcases Nat.lt_or_gt_of_ne ne with lt | gt
    · have middle := (abs_sub_eq_iff (f.numberAt_strictMono lt)).mp tie.symm
      exact (smaller lt).elim (fun inside => absurd middle.symm inside.ne) And.right
    · have middle := (abs_sub_eq_iff (f.numberAt_strictMono gt)).mp tie
      exact (larger m_le gt).elim (fun inside => absurd middle inside.ne) And.right

theorem isNearest_numberAt (le : n ≤ f.maxField * 2 ^ f.mantissaBits) :
    f.IsNearest (f.numberAt n) n := by
  apply isNearest_of_midpoints le
  · rintro k rfl
    exact .inl (f.midpointAbove_lt_numberAt k)
  · intro _
    exact .inl (f.numberAt_lt_midpointAbove n)

namespace IsNearest

/-- The nearest pattern passes the midpoints one after the other. -/
theorem le_iff (h : f.IsNearest v n) (lt : k < f.maxField * 2 ^ f.mantissaBits) :
    n ≤ k ↔ v < f.midpointAbove k ∨ v = f.midpointAbove k ∧ Even k := by
  have step (m : Nat) := f.numberAt_strictMono (Nat.lt_succ_self m)
  constructor
  · intro le
    have inside : v ≤ f.midpointAbove n :=
      (abs_sub_left_le_iff (step n)).mp (h.nearest (n + 1) (by omega))
    rcases (inside.trans (f.midpointAbove_strictMono.monotone le)).lt_or_eq with lt | tie
    · exact .inl lt
    · -- On the midpoint the nearest pattern is the one below it, and even.
      have same : n = k := by
        apply Nat.le_antisymm le
        exact f.midpointAbove_strictMono.le_iff_le.mp (tie ▸ inside)
      subst same
      refine .inr ⟨tie, h.even (n + 1) (by omega) (Nat.succ_ne_self n) ?_⟩
      exact (abs_sub_eq_iff (step n)).mpr tie
  · intro threshold
    by_contra gt
    obtain ⟨m, rfl⟩ := Nat.exists_eq_add_one_of_ne_zero (show n ≠ 0 by omega)
    have bound := h.le_infinity
    have inside : f.midpointAbove m ≤ v :=
      (abs_sub_right_le_iff (step m)).mp (h.nearest m (by omega))
    have passed : f.midpointAbove k ≤ f.midpointAbove m :=
      f.midpointAbove_strictMono.monotone (by omega)
    rcases threshold with lt | ⟨tie, even⟩
    · exact absurd lt (not_lt.mpr (passed.trans inside))
    · have same : m = k := by
        apply Nat.le_antisymm _ (f.midpointAbove_strictMono.le_iff_le.mp passed)
        exact f.midpointAbove_strictMono.le_iff_le.mp (tie ▸ inside)
      subst same
      have odd := h.even m (by omega) (Nat.succ_ne_self m).symm
        ((abs_sub_eq_iff (step m)).mpr tie).symm
      rw [Nat.even_add_one] at odd
      exact odd even

/-- Larger numbers have larger nearest patterns. -/
theorem mono (h : f.IsNearest v n) (h' : f.IsNearest v' n') (le : v ≤ v') : n ≤ n' := by
  by_contra gt
  have lt : n' < f.maxField * 2 ^ f.mantissaBits :=
    Nat.lt_of_lt_of_le (Nat.lt_of_not_le gt) h.le_infinity
  apply gt
  rw [h.le_iff lt]
  rcases (h'.le_iff lt).mp le_rfl with inside | ⟨tie, even⟩
  · exact .inl (le.trans_lt inside)
  · exact (le.trans_eq tie).lt_or_eq.imp_right fun same => ⟨same, even⟩

/-- There is one nearest pattern. -/
theorem eq (h : f.IsNearest v n) (h' : f.IsNearest v n') : n = n' :=
  Nat.le_antisymm (h.mono h' le_rfl) (h'.mono h le_rfl)

/-- Numbers up to half the smallest one are nearest to zero. -/
theorem eq_zero_iff (h : f.IsNearest v n) (infinity_pos : 0 < f.maxField * 2 ^ f.mantissaBits) :
    n = 0 ↔ v ≤ f.midpointAbove 0 := by
  rw [← Nat.le_zero, h.le_iff infinity_pos, le_iff_lt_or_eq]
  simp

/-- Numbers from the midpoint above the largest one on are nearest to
infinity. -/
theorem eq_infinity_iff (h : f.IsNearest v n) (even : Even (f.maxField * 2 ^ f.mantissaBits))
    (infinity_pos : 0 < f.maxField * 2 ^ f.mantissaBits) : n = f.maxField * 2 ^ f.mantissaBits ↔
      f.midpointAbove (f.maxField * 2 ^ f.mantissaBits - 1) ≤ v := by
  have bound := h.le_infinity
  obtain ⟨last, infinity⟩ := Nat.exists_eq_add_one_of_ne_zero infinity_pos.ne'
  rw [infinity] at even bound ⊢
  have odd : ¬ Even last := Nat.even_add_one.mp even
  have finite : n ≤ last ↔ v < f.midpointAbove last := by
    rw [h.le_iff (by omega)]
    simp [odd]
  rw [Nat.add_sub_cancel, ← not_lt, ← finite]
  omega

end IsNearest

end RadixText.FloatFormat
