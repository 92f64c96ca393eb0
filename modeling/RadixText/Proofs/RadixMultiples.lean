import RadixText.Proofs.Digits
import RadixText.Proofs.PointValues

/-!
# Multiples of powers of the radix

The shortest digits that stand for a number are a multiple of the largest power
of the radix that has one within the reach of the number. Of these multiples
the nearest one is taken, and on a tie the one with the even last digit.
-/

namespace RadixText

section Distances

variable {v unit bound : ℚ} {a m : ℤ}

/-- A multiple other than the lower neighbour is as far away as the upper one. -/
theorem upper_le_abs_sub (positive : 0 < unit) (low : a * unit ≤ v) (ne : m ≠ a) :
    (a + 1) * unit - v ≤ |v - m * unit| := by
  rcases lt_or_gt_of_ne ne with lt | gt
  · have below : (m : ℚ) + 1 ≤ a := by exact_mod_cast lt
    have scaled := mul_le_mul_of_nonneg_right below positive.le
    refine le_trans ?_ (le_abs_self _)
    linarith
  · have above : (a : ℚ) + 1 ≤ m := by exact_mod_cast gt
    have scaled := mul_le_mul_of_nonneg_right above positive.le
    refine le_trans ?_ (neg_le_abs _)
    linarith

/-- A multiple other than the upper neighbour is as far away as the lower one. -/
theorem lower_le_abs_sub (positive : 0 < unit) (high : v ≤ (a + 1) * unit) (ne : m ≠ a + 1) :
    v - a * unit ≤ |v - m * unit| := by
  rcases lt_or_gt_of_ne ne with lt | gt
  · have below : (m : ℚ) ≤ a := by exact_mod_cast Int.le_of_lt_add_one lt
    have scaled := mul_le_mul_of_nonneg_right below positive.le
    refine le_trans ?_ (le_abs_self _)
    linarith
  · have above : (a : ℚ) + 1 + 1 ≤ m := by exact_mod_cast gt
    have scaled := mul_le_mul_of_nonneg_right above positive.le
    refine le_trans ?_ (neg_le_abs _)
    linarith

/-- No multiple is nearer than both neighbours. -/
theorem le_abs_sub_multiple (positive : 0 < unit) (low : a * unit ≤ v)
    (lower : bound ≤ v - a * unit) (upper : bound ≤ (a + 1) * unit - v) :
    bound ≤ |v - m * unit| := by
  by_cases same : m = a
  · rw [same]
    exact le_trans lower (le_abs_self _)
  · exact le_trans upper (upper_le_abs_sub positive low same)

/-- Less than one unit apart there is one multiple only. -/
theorem eq_of_abs_sub_lt {n : ℤ} (positive : 0 < unit) (narrow : 2 * bound ≤ unit)
    (hm : |v - m * unit| < bound) (hn : |v - n * unit| < bound) : m = n := by
  rw [abs_lt] at hm hn
  by_contra ne
  rcases lt_or_gt_of_ne ne with lt | gt
  · have apart : (m : ℚ) + 1 ≤ n := by exact_mod_cast lt
    have scaled := mul_le_mul_of_nonneg_right apart positive.le
    linarith [hm.2, hn.1]
  · have apart : (n : ℚ) + 1 ≤ m := by exact_mod_cast gt
    have scaled := mul_le_mul_of_nonneg_right apart positive.le
    linarith [hm.1, hn.2]

end Distances

namespace Radix

variable (r : Radix)

/-- A multiple of a power of the radix is one of every lower power. -/
theorem exists_multiple_of_le {j k : ℤ} (le : j ≤ k) (m : ℤ) :
    ∃ n : ℤ, (m : ℚ) * (r.val : ℚ) ^ k = n * (r.val : ℚ) ^ j := by
  obtain ⟨i, rfl⟩ := Int.le.dest le
  refine ⟨m * r.val ^ i, ?_⟩
  rw [zpow_add₀ r.cast_val_pos.ne', zpow_natCast]
  push_cast
  ring

/-- The digit behind an odd one is even, also where it is carried over. -/
theorem even_succ_mod {a : Nat} (odd : a % r.val % 2 = 1) : (a + 1) % r.val % 2 = 0 := by
  have digit := Nat.mod_lt a r.val_pos
  by_cases room : a % r.val + 1 < r.val
  · have next : (a + 1) % r.val = a % r.val + 1 := by
      rw [Nat.add_mod, Nat.mod_eq_of_lt r.one_lt_val, Nat.mod_eq_of_lt room]
    omega
  · have carried : a % r.val + 1 = r.val := by omega
    rw [Nat.add_mod, Nat.mod_eq_of_lt r.one_lt_val, carried, Nat.mod_self]

/-- A multiple of the largest power of the radix that has one within the reach,
nearest to the number and with an even digit on a tie. -/
structure IsShortest (r : Radix) (v reach : ℚ) (m : ℕ) (j : ℤ) : Prop where
  inside : |v - m * (r.val : ℚ) ^ j| < reach
  coarsest : ∀ k > j, ∀ m' : ℤ, reach ≤ |v - m' * (r.val : ℚ) ^ k|
  nearest : ∀ m' : ℤ, |v - m * (r.val : ℚ) ^ j| ≤ |v - m' * (r.val : ℚ) ^ j|
  even : ∀ m' : ℤ, m' ≠ m → |v - m' * (r.val : ℚ) ^ j| = |v - m * (r.val : ℚ) ^ j| →
    Even (m % r.val)

/-- How a number is rounded to one of the neighbouring multiples of a power of
the radix. -/
structure RoundsTo (r : Radix) (v unit : ℚ) (a : ℕ) (up : Bool) : Prop where
  low : a * unit ≤ v
  high : v ≤ (a + 1) * unit
  down : up = false → v - a * unit < (a + 1) * unit - v ∨
    v - a * unit = (a + 1) * unit - v ∧ a % r.val % 2 = 0
  up : up = true → (a + 1) * unit - v < v - a * unit ∨
    (a + 1) * unit - v = v - a * unit ∧ a % r.val % 2 = 1

variable {r} {v unit reach : ℚ} {a m : ℕ} {up : Bool} {j k : ℤ}

namespace RoundsTo

theorem nearest (h : r.RoundsTo v unit a up) (positive : 0 < unit) (m : ℤ) :
    |v - (a + up.toNat : ℕ) * unit| ≤ |v - m * unit| := by
  have low : ((a : ℤ) : ℚ) * unit ≤ v := by simpa using h.low
  have high : v ≤ (((a : ℤ) : ℚ) + 1) * unit := by simpa using h.high
  have order : |v - (a + up.toNat : ℕ) * unit| ≤ v - a * unit ∧
      |v - (a + up.toNat : ℕ) * unit| ≤ (a + 1) * unit - v := by
    cases up with
    | false =>
        rw [Bool.toNat_false, Nat.add_zero, abs_of_nonneg (sub_nonneg.mpr h.low)]
        refine ⟨le_rfl, ?_⟩
        rcases h.down rfl with lt | ⟨eq, -⟩
        · exact lt.le
        · exact eq.le
    | true =>
        rw [Bool.toNat_true, Nat.cast_add, Nat.cast_one, abs_sub_comm,
          abs_of_nonneg (sub_nonneg.mpr h.high)]
        refine ⟨?_, le_rfl⟩
        rcases h.up rfl with lt | ⟨eq, -⟩
        · exact lt.le
        · exact eq.le
  exact le_abs_sub_multiple (a := a) positive low (by simpa using order.1) (by simpa using order.2)

theorem even (h : r.RoundsTo v unit a up) (positive : 0 < unit) {m : ℤ}
    (ne : m ≠ (a + up.toNat : ℕ)) (tie : |v - m * unit| = |v - (a + up.toNat : ℕ) * unit|) :
    Even ((a + up.toNat) % r.val) := by
  have low : ((a : ℤ) : ℚ) * unit ≤ v := by simpa using h.low
  have high : v ≤ (((a : ℤ) : ℚ) + 1) * unit := by simpa using h.high
  rw [Nat.even_iff]
  cases up with
  | false =>
      rw [Bool.toNat_false, Nat.add_zero] at ne tie ⊢
      rcases h.down rfl with lt | ⟨-, even⟩
      · have far := upper_le_abs_sub positive low ne
        rw [tie, abs_of_nonneg (sub_nonneg.mpr h.low), Int.cast_natCast] at far
        exact absurd far (not_le.mpr lt)
      · exact even
  | true =>
      rw [Bool.toNat_true] at ne tie ⊢
      rcases h.up rfl with lt | ⟨-, odd⟩
      · have far := lower_le_abs_sub positive high (by exact_mod_cast ne)
        rw [tie, Nat.cast_add, Nat.cast_one, abs_sub_comm,
          abs_of_nonneg (sub_nonneg.mpr h.high), Int.cast_natCast] at far
        exact absurd far (not_le.mpr lt)
      · exact r.even_succ_mod odd

end RoundsTo

namespace IsShortest

/-- A rounded number within the reach is the shortest one if the next power of
the radix has no multiple there. -/
theorem of_roundsTo (h : r.RoundsTo v ((r.val : ℚ) ^ j) a up)
    (inside : |v - (a + up.toNat : ℕ) * (r.val : ℚ) ^ j| < reach)
    (coarser : ∀ m : ℤ, reach ≤ |v - m * (r.val : ℚ) ^ (j + 1)|) :
    r.IsShortest v reach (a + up.toNat) j where
  inside := inside
  coarsest := by
    intro k larger m
    obtain ⟨n, same⟩ := r.exists_multiple_of_le (Int.add_one_le_of_lt larger) m
    rw [same]
    exact coarser n
  nearest := h.nearest (r.cast_val_zpow_pos j)
  even := fun _ ne tie => h.even (r.cast_val_zpow_pos j) ne tie

/-- The only multiple within the reach is the shortest one, as a multiple of
the largest power of the radix that divides it. -/
theorem of_unique (nonzero : m ≠ 0) (inside : |v - m * (r.val : ℚ) ^ k| < reach)
    (only : ∀ m' : ℤ, |v - m' * (r.val : ℚ) ^ k| < reach → m' = m) :
    ∃ (n : ℕ) (j : ℤ), (n : ℚ) * (r.val : ℚ) ^ j = m * (r.val : ℚ) ^ k ∧
      r.IsShortest v reach n j := by
  obtain ⟨i, n, indivisible, split⟩ :=
    Nat.exists_eq_pow_mul_and_not_dvd nonzero r.val r.one_lt_val.ne'
  have same : (n : ℚ) * (r.val : ℚ) ^ (k + i) = m * (r.val : ℚ) ^ k := by
    rw [zpow_add₀ r.cast_val_pos.ne', zpow_natCast, split]
    push_cast
    ring
  have only' (l m' : ℤ) (le : k ≤ l) (inside' : |v - m' * (r.val : ℚ) ^ l| < reach) :
      (m' : ℚ) * (r.val : ℚ) ^ l = m * (r.val : ℚ) ^ k := by
    obtain ⟨n', equal⟩ := r.exists_multiple_of_le le m'
    rw [equal] at inside' ⊢
    rw [only n' inside', Int.cast_natCast]
  refine ⟨n, k + i, same, ?_, ?_, ?_, ?_⟩
  · rwa [same]
  · intro l larger m'
    by_contra near
    have equal := only' l m' (by omega) (not_le.mp near)
    -- A larger power would divide the number once more.
    obtain ⟨n', factor⟩ := r.exists_multiple_of_le (show k + i + 1 ≤ l from larger) m'
    rw [factor, ← same, zpow_add_one₀ r.cast_val_pos.ne', ← mul_assoc, mul_right_comm] at equal
    have quotient := mul_right_cancel₀ (r.cast_val_zpow_pos (k + i)).ne' equal
    have divides : (r.val : ℤ) ∣ n := ⟨n', by
      have exact : (n : ℚ) = r.val * n' := by rw [← quotient, mul_comm]
      exact_mod_cast exact⟩
    exact indivisible (by exact_mod_cast divides)
  · intro m'
    by_contra nearer
    rw [not_le] at nearer
    have equal := only' (k + i) m' (by omega)
      (lt_trans nearer (by rwa [same]))
    rw [equal, same] at nearer
    exact lt_irrefl _ nearer
  · intro m' ne tie
    have equal := only' (k + i) m' (by omega) (by rwa [tie, same])
    rw [← same] at equal
    have same' := mul_right_cancel₀ (r.cast_val_zpow_pos (k + i)).ne' equal
    exact absurd (by exact_mod_cast same') ne

/-- Every number within the reach has as many digits. -/
theorem length_digits_le (h : r.IsShortest v reach m j) {m' : ℕ} {j' : ℤ}
    (inside : |v - m' * (r.val : ℚ) ^ j'| < reach) :
    (r.digits m).length ≤ (r.digits m').length := by
  set count := (r.digits m').length with count_eq
  have count_ne_zero : count ≠ 0 := (List.length_pos_of_ne_nil (r.digits_ne_nil m')).ne'
  by_contra longer
  have large : r.val ^ count ≤ m := by
    by_contra less
    exact longer (r.length_digits_le count_ne_zero (not_le.mp less))
  have order : j' ≤ j := by
    by_contra greater
    exact absurd inside (not_lt.mpr (by simpa using h.coarsest j' (not_le.mp greater) m'))
  -- Between both numbers lies a power of the radix beyond the largest one.
  have power := h.coarsest (j + count) (by omega) 1
  have lower : (m' : ℚ) * (r.val : ℚ) ^ j' ≤ (r.val : ℚ) ^ (j + count) := by
    have less : (m' : ℚ) ≤ (r.val : ℚ) ^ count := by
      exact_mod_cast (r.lt_pow_length_digits m').le
    calc
      (m' : ℚ) * (r.val : ℚ) ^ j' ≤ (r.val : ℚ) ^ count * (r.val : ℚ) ^ j := by
        gcongr
        exact_mod_cast r.one_lt_val.le
      _ = (r.val : ℚ) ^ (j + count) := by
        rw [zpow_add₀ r.cast_val_pos.ne', zpow_natCast, mul_comm]
  have upper : (r.val : ℚ) ^ (j + count) ≤ m * (r.val : ℚ) ^ j := by
    have enough : (r.val : ℚ) ^ count ≤ m := by exact_mod_cast large
    rw [zpow_add₀ r.cast_val_pos.ne', zpow_natCast, mul_comm]
    exact mul_le_mul_of_nonneg_right enough (r.cast_val_zpow_pos j).le
  have first := h.inside
  rw [abs_lt] at inside first
  rw [Int.cast_one, one_mul] at power
  refine absurd power (not_le.mpr ?_)
  rw [abs_lt]
  constructor <;> linarith [inside.1, inside.2, first.1, first.2]

end IsShortest

end Radix

end RadixText
