import RadixText.Radix.Digit

/-!
# Digit pairs

For each radix and letter case a table holds the two digits of every number
below the square of the radix, so that a writer cuts off two digits at once.
-/

namespace RadixText

namespace Radix

variable (r : Radix) (c : LetterCase)

/-- Two characters for each number below the square of the radix. -/
def pairs : Array Char :=
  Array.ofFn (n := 2 * (r.val * r.val)) fun i =>
    if i.val % 2 = 0 then digitChar c (i.val / 2 / r.val)
    else digitChar c (i.val / 2 % r.val)

@[simp] theorem size_pairs : (r.pairs c).size = 2 * (r.val * r.val) := by
  simp [pairs]

end Radix

/-- The two characters that a pair table holds for a number. -/
def pairAt (table : Array Char) (k : Nat) : List Char :=
  [table.getD (2 * k) '0', table.getD (2 * k + 1) '0']

theorem pairAt_pairs (r : Radix) (c : LetterCase) {k : Nat} (h : k < r.val * r.val) :
    pairAt (r.pairs c) k = [digitChar c (k / r.val), digitChar c (k % r.val)] := by
  have h₀ : 2 * k < 2 * (r.val * r.val) := by omega
  have h₁ : 2 * k + 1 < 2 * (r.val * r.val) := by omega
  have e : (2 * k + 1) / 2 = k := by omega
  have o : (2 * k + 1) % 2 = 1 := by omega
  simp [pairAt, Radix.pairs, Array.getD, h₀, h₁, e, o]

end RadixText
