import RadixText.Radix.Digit

/-!
# Plain numerals

The digits of a natural number in a radix come from repeated division, the
leading digit first. The number zero has the single digit zero.
-/

namespace RadixText.Radix

variable (r : Radix)

/-- The digits of a number, the leading one first. -/
def digits (n : Nat) : List Nat :=
  if n < r.val then [n] else digits (n / r.val) ++ [n % r.val]
termination_by n
decreasing_by
  exact Nat.div_lt_self (by have := r.two_le; omega) r.one_lt_val

theorem digits_of_lt {n : Nat} (h : n < r.val) : r.digits n = [n] := by
  rw [digits, if_pos h]

theorem digits_of_le {n : Nat} (h : r.val ≤ n) :
    r.digits n = r.digits (n / r.val) ++ [n % r.val] := by
  rw [digits, if_neg (by omega)]

/-- The number that a list of digits denotes. -/
def ofDigits (ds : List Nat) : Nat := ds.foldl (fun n d => n * r.val + d) 0

@[simp] theorem ofDigits_nil : r.ofDigits [] = 0 := rfl

@[simp] theorem ofDigits_concat (ds : List Nat) (d : Nat) :
    r.ofDigits (ds ++ [d]) = r.ofDigits ds * r.val + d := by
  simp [ofDigits]

@[simp] theorem ofDigits_digits (n : Nat) : r.ofDigits (r.digits n) = n := by
  fun_induction r.digits n with
  | case1 n h => simp [ofDigits]
  | case2 n h ih => rw [ofDigits_concat, ih, Nat.div_add_mod']

theorem lt_of_mem_digits {n d : Nat} (h : d ∈ r.digits n) : d < r.val := by
  fun_induction r.digits n with
  | case1 n hn => simp_all
  | case2 n hn ih =>
    rcases List.mem_append.mp h with h | h
    · exact ih h
    · rw [List.mem_singleton.mp h]
      exact Nat.mod_lt _ r.val_pos

theorem digits_ne_nil (n : Nat) : r.digits n ≠ [] := by
  rw [digits]
  split <;> simp

/-- No number but zero starts with a zero. -/
theorem head?_digits {n : Nat} (h : n ≠ 0) : (r.digits n).head? ≠ some 0 := by
  fun_induction r.digits n with
  | case1 n hn => simpa using h
  | case2 n hn ih =>
    have positive : n / r.val ≠ 0 := by
      have := Nat.div_pos (Nat.le_of_not_lt hn) r.val_pos
      omega
    rw [List.head?_append]
    cases hd : (r.digits (n / r.val)).head? with
    | none => exact absurd (List.head?_eq_none_iff.mp hd) (r.digits_ne_nil _)
    | some d => simpa [hd] using ih positive

/-- The characters of a number's digits. -/
def plainNumeral (c : LetterCase) (n : Nat) : List Char := (r.digits n).map (digitChar c)

end RadixText.Radix
