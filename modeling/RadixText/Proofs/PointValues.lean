import RadixText.FloatText.Layout
import RadixText.Proofs.Digits
import RadixText.Value

/-!
# Digits around a point

Digits read behind a point denote a number below one that zeros at their end
do not change. Digits without zeros at their end are told apart by that number,
and so are digits on both sides of a point.
-/

namespace RadixText

/-- A list is its trimmed part followed by zeros. -/
theorem exists_trimZeros_append (ds : List Nat) :
    ∃ n, ds = trimZeros ds ++ List.replicate n 0 := by
  obtain ⟨tail, split, zeros⟩ := exists_dropTrailing_append (· == 0) ds
  refine ⟨tail.length, ?_⟩
  rw [← List.eq_replicate_iff.mpr ⟨rfl, fun d mem => beq_iff_eq.mp (zeros d mem)⟩]
  exact split

theorem getLast?_trimZeros (ds : List Nat) : (trimZeros ds).getLast? ≠ some 0 := by
  intro last
  have kept := getLast?_dropTrailing (· == 0) ds 0 last
  simp at kept

theorem mem_of_mem_trimZeros {ds : List Nat} {d : Nat} (h : d ∈ trimZeros ds) : d ∈ ds := by
  obtain ⟨n, split⟩ := exists_trimZeros_append ds
  rw [split]
  exact List.mem_append_left _ h

/-- A first digit other than zero is kept by trimming anyway. -/
theorem trimZerosAfterFirst_eq {d : Nat} (nonzero : d ≠ 0) (ds : List Nat) :
    trimZerosAfterFirst (d :: ds) = trimZeros (d :: ds) := by
  rw [trimZerosAfterFirst, trimZeros, trimZeros, dropTrailing]
  split
  case h_1 dropped => simp [dropped, nonzero]
  case h_2 kept => rw [kept]

/-- Lists that do not end in a zero are the same if they are so up to zeros. -/
theorem eq_of_append_zeros_eq {ds es : List Nat} {n m : Nat} (hd : ds.getLast? ≠ some 0)
    (he : es.getLast? ≠ some 0)
    (h : ds ++ List.replicate n 0 = es ++ List.replicate m 0) : ds = es := by
  have ordered {ds es : List Nat} {n m : Nat} (he : es.getLast? ≠ some 0)
      (h : ds ++ List.replicate n 0 = es ++ List.replicate m 0) (le : ds.length ≤ es.length) :
      ds = es := by
    have front := congrArg (List.take es.length) h
    rw [List.take_left, List.take_append, List.take_of_length_le le, List.take_replicate] at front
    rcases Nat.eq_zero_or_pos (min (es.length - ds.length) n) with vanishes | positive
    · rw [vanishes] at front
      simpa using front
    · rw [← front, List.getLast?_append_of_ne_nil _ (by simp; omega), List.getLast?_replicate,
        if_neg positive.ne'] at he
      exact absurd rfl he
  rcases Nat.le_total ds.length es.length with le | le
  · exact ordered he h le
  · exact (ordered hd h.symm le).symm

namespace Radix

variable (r : Radix)

/-- The number that digits behind a point denote. -/
def fractionValue (ds : List Nat) : ℚ := r.ofDigits ds / r.val ^ ds.length

theorem cast_val_pos : (0 : ℚ) < r.val := by exact_mod_cast r.val_pos

theorem cast_val_pow_pos (n : Nat) : (0 : ℚ) < (r.val : ℚ) ^ n := pow_pos r.cast_val_pos n

theorem cast_val_zpow_pos (j : ℤ) : (0 : ℚ) < (r.val : ℚ) ^ j := zpow_pos r.cast_val_pos j

@[simp] theorem fractionValue_replicate_zero (n : Nat) :
    r.fractionValue (List.replicate n 0) = 0 := by
  simp [fractionValue]

/-- Digits count in units of the last place in front of them. -/
theorem fractionValue_append (ds es : List Nat) :
    r.fractionValue (ds ++ es) = r.fractionValue ds + r.fractionValue es / r.val ^ ds.length := by
  have front := (r.cast_val_pow_pos ds.length).ne'
  have behind := (r.cast_val_pow_pos es.length).ne'
  rw [fractionValue, fractionValue, fractionValue, ofDigits_append, List.length_append, pow_add]
  push_cast
  field_simp

theorem fractionValue_append_zeros (ds : List Nat) (n : Nat) :
    r.fractionValue (ds ++ List.replicate n 0) = r.fractionValue ds := by
  simp [fractionValue_append]

theorem fractionValue_trimZeros (ds : List Nat) :
    r.fractionValue (trimZeros ds) = r.fractionValue ds := by
  obtain ⟨n, split⟩ := exists_trimZeros_append ds
  conv_rhs => rw [split]
  rw [fractionValue_append_zeros]

theorem fractionValue_zeros_append (n : Nat) (ds : List Nat) :
    r.fractionValue (List.replicate n 0 ++ ds) = r.fractionValue ds / r.val ^ n := by
  simp [fractionValue_append]

/-- Digits that fit up to zeros lose nothing. -/
theorem fractionValue_take_of_fits {ds : List Nat} {n : Nat} (fits : (trimZeros ds).length ≤ n) :
    r.fractionValue (ds.take n) = r.fractionValue ds := by
  obtain ⟨zeros, split⟩ := exists_trimZeros_append ds
  conv_lhs => rw [split]
  rw [List.take_append, List.take_of_length_le fits, List.take_replicate,
    fractionValue_append_zeros, fractionValue_trimZeros]

/-- The point stands behind as many digits as there are in front of it. -/
theorem pointValue_eq (whole fraction : List Nat) :
    r.pointValue whole fraction = r.fractionValue (whole ++ fraction) * r.val ^ whole.length := by
  have front := (r.cast_val_pow_pos whole.length).ne'
  have behind := (r.cast_val_pow_pos fraction.length).ne'
  rw [pointValue, fractionValue, ofDigits_append, List.length_append, pow_add]
  push_cast
  field_simp

variable {r}

theorem fractionValue_nonneg (ds : List Nat) : 0 ≤ r.fractionValue ds := by
  rw [fractionValue]
  positivity

theorem fractionValue_lt_one {ds : List Nat} (h : ∀ d ∈ ds, d < r.val) :
    r.fractionValue ds < 1 := by
  rw [fractionValue, div_lt_one (r.cast_val_pow_pos _)]
  exact_mod_cast ofDigits_lt h

/-- Without the digits behind a place less than one unit of it is missing. -/
theorem fractionValue_take {ds : List Nat} (h : ∀ d ∈ ds, d < r.val) (n : Nat) :
    r.fractionValue (ds.take n) ≤ r.fractionValue ds ∧
      r.fractionValue ds < r.fractionValue (ds.take n) + 1 / r.val ^ n := by
  have unit : 0 < 1 / (r.val : ℚ) ^ n := one_div_pos.mpr (r.cast_val_pow_pos n)
  rcases Nat.lt_or_ge n ds.length with less | all
  · have nonneg := fractionValue_nonneg (r := r) (ds.drop n)
    have below : r.fractionValue (ds.drop n) < 1 :=
      fractionValue_lt_one fun d mem => h d (List.mem_of_mem_drop mem)
    have split := r.fractionValue_append (ds.take n) (ds.drop n)
    rw [List.take_append_drop, List.length_take_of_le less.le] at split
    rw [split]
    refine ⟨le_add_of_nonneg_right (div_nonneg nonneg (r.cast_val_pow_pos n).le), ?_⟩
    gcongr
    exact r.cast_val_pow_pos n
  · rw [List.take_of_length_le all]
    exact ⟨le_rfl, lt_add_of_pos_right _ unit⟩

theorem eq_zero_of_ofDigits_eq_zero {ds : List Nat} (h : r.ofDigits ds = 0) :
    ∀ d ∈ ds, d = 0 := by
  induction ds with
  | nil => simp
  | cons d ds ih =>
      rw [ofDigits_cons, Nat.add_eq_zero_iff, Nat.mul_eq_zero] at h
      intro e mem
      rcases List.mem_cons.mp mem with rfl | mem
      · exact h.1.resolve_right (r.val_pow_pos _).ne'
      · exact ih h.2 e mem

/-- Digits that do not end in a zero are told apart by their number. -/
theorem eq_of_fractionValue_eq {ds es : List Nat} (hd : ∀ d ∈ ds, d < r.val)
    (he : ∀ e ∈ es, e < r.val) (lastD : ds.getLast? ≠ some 0) (lastE : es.getLast? ≠ some 0)
    (h : r.fractionValue ds = r.fractionValue es) : ds = es := by
  -- Both lists are filled up with zeros to a common length.
  rw [← r.fractionValue_append_zeros ds es.length, ← r.fractionValue_append_zeros es ds.length,
    fractionValue, fractionValue] at h
  have length : (ds ++ List.replicate es.length 0).length =
      (es ++ List.replicate ds.length 0).length := by
    simp [Nat.add_comm]
  have below {cs : List Nat} (n : Nat) (hc : ∀ c ∈ cs, c < r.val) :
      ∀ c ∈ cs ++ List.replicate n 0, c < r.val := by
    intro c mem
    rcases List.mem_append.mp mem with mem | mem
    · exact hc c mem
    · rw [List.eq_of_mem_replicate mem]
      exact r.val_pos
  rw [length, div_left_inj' (r.cast_val_pow_pos _).ne'] at h
  apply eq_of_append_zeros_eq lastD lastE
  exact ofDigits_inj_of_length_eq length (below _ hd) (below _ he) (by exact_mod_cast h)

/-- Digits on both sides of a point are told apart by their number if none of
them stands there needlessly. -/
theorem eq_of_pointValue_eq {ws vs ds es : List Nat} (hw : r.digits (r.ofDigits ws) = ws)
    (hv : r.digits (r.ofDigits vs) = vs) (hd : ∀ d ∈ ds, d < r.val) (he : ∀ e ∈ es, e < r.val)
    (lastD : ds.getLast? ≠ some 0) (lastE : es.getLast? ≠ some 0)
    (h : r.pointValue ws ds = r.pointValue vs es) : ws = vs ∧ ds = es := by
  change r.ofDigits ws + r.fractionValue ds = r.ofDigits vs + r.fractionValue es at h
  have nonnegD := fractionValue_nonneg (r := r) ds
  have nonnegE := fractionValue_nonneg (r := r) es
  have belowD := fractionValue_lt_one hd
  have belowE := fractionValue_lt_one he
  have whole : r.ofDigits ws = r.ofDigits vs := by
    have le : (r.ofDigits ws : ℚ) < (r.ofDigits vs + 1 : ℕ) := by
      push_cast
      linarith
    have ge : (r.ofDigits vs : ℚ) < (r.ofDigits ws + 1 : ℕ) := by
      push_cast
      linarith
    have le' : r.ofDigits ws < r.ofDigits vs + 1 := by exact_mod_cast le
    have ge' : r.ofDigits vs < r.ofDigits ws + 1 := by exact_mod_cast ge
    omega
  rw [whole] at h
  refine ⟨?_, eq_of_fractionValue_eq hd he lastD lastE (add_left_cancel h)⟩
  rw [← hw, ← hv, whole]

end Radix

end RadixText
